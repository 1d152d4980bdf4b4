import SoundCloudBackend.Impl.Chat.Invites
import SoundCloudBackend.Proof.Chat.Limit

/-!
# What an invite link admits

A join that took a use holds the row of the link until it commits or is rolled back
(`Inv.held`), so the condition of `consume.sql` still holds when it commits: one use is left,
and nobody revoked the link. The time is the one at which the transaction began. The
link can expire before it commits (`join_commits_after_expiry`).
-/

namespace SC.Proof.Chat.Invites

open Impl.Chat.Invites
open Impl.Chat.Groups (Group Message SystemEvent memberEvents)
open SC.Proof.Chat.Groups (admitMember_joined markRekey_eq find_put_self)
open Option Function

variable {g g' : Group} {row : Message} {user createdBy : String} {phase : Phase} {begun : Int}

/-! ## One admission -/

theorem insertSystem_messages {event : SystemEvent} (h : g.insertSystem event = .ok (row, g')) :
    g'.messages = g.messages ++ [row] ∧ row.senderUser = event.actor ∧ row.event = some event := by
  unfold Group.insertSystem at h
  split_ifs at h
  cases h
  exact ⟨rfl, rfl, rfl⟩

/-- Somebody who is admitted was neither active nor banned, is active then, and one row tells it. -/
structure Admission (user : String) (g g' : Group) : Prop where
  before : ∀ m, g.members.find user = some m → m.state ≠ .active ∧ m.state ≠ .banned
  after : ∃ m, g'.members.find user = some m ∧ m.state = .active
  announced : ∃ row, g'.messages = g.messages ++ [row] ∧ row.senderUser = user ∧ row.event = some (.joined user)

theorem admitMember_messages (h : Group.admitMember user createdBy g = .ok (row, g')) :
    g'.messages = g.messages ++ [row] ∧ row.senderUser = user ∧ row.event = some (.joined user) := by
  unfold Group.admitMember at h
  split at h
  · cases h
  rename_i hdeleted
  split at h
  · cases h
  split at h
  · cases h
  · cases h
  obtain ⟨⟨row, g₁⟩, hsystem, h⟩ := bind_eq_ok h
  cases h
  have hrow := insertSystem_messages hsystem
  split at hrow
  · exact hrow
  · rw [markRekey_eq (by simpa using hdeleted)] at hrow
    exact hrow

theorem admitMember_admission (h : Group.admitMember user createdBy g = .ok (row, g')) : Admission user g g' := by
  obtain ⟨hjoinable, ⟨m, hid, hactive, hmembers⟩, -⟩ := admitMember_joined h
  refine ⟨hjoinable.user, ⟨m, ?_, hactive⟩, row, admitMember_messages h⟩
  rw [hmembers, ← hid]
  exact find_put_self g.members m

/-! ## What a step does -/

/-- The time at which the transaction of a join that holds the link began. -/
def holds : Phase → Option Int
  | .lockGroup begun | .admitMember begun => some begun
  | _ => none

def answer : Phase → Option Answer
  | .done answer => some answer
  | _ => none

def committed (w : World) (n : Nat) (j : Join) (g : Group) : World :=
  { w.endJoin n j .joined with
    groups := { w.groups with group := g, log := memberEvents w.group g [j.user] ++ w.groups.log }
    invite := w.invite.consumed
    joined := n :: w.joined }

/-- What an action does to the joins, the invite and its lock. -/
inductive Steps (w : World) : World → Prop
  | goes {n : Nat} {j : Join} {phase : Phase} (hold : ∀ old, w.joins n = some old → answer old.phase = none)
      (hfree : holds phase = none) (hruns : answer phase = none) : Steps w (w.setJoin n j phase)
  | ends {n : Nat} {j : Join} {a : Answer} (hjoin : w.joins n = some j) (hruns : answer j.phase = none)
      (hanswer : a ≠ .joined) : Steps w (w.endJoin n j a)
  | consumes {n : Nat} {j : Join} {begun : Int} (hjoin : w.joins n = some j) (hphase : j.phase = .consume begun)
      (hconsumes : Consumes w.invite begun) (hlock : w.inviteLock = none) :
      Steps w { w.setJoin n j (.lockGroup begun) with inviteLock := some n }
  | locks {n : Nat} {j : Join} {begun : Int} (hjoin : w.joins n = some j) (hphase : j.phase = .lockGroup begun) :
      Steps w { w.setJoin n j (.admitMember begun) with groupLock := some n }
  | commits {n : Nat} {j : Join} {begun : Int} {row : Message} {g : Group} (hjoin : w.joins n = some j)
      (hphase : j.phase = .admitMember begun)
      (hadmitted : w.group.admitMember j.user w.invite.createdBy = .ok (row, g)) :
      Steps w (committed w n j g)
  | asks (revokers : List String) : Steps w { w with revokers := revokers }
  | revokes (revokers : List String) (hlock : w.inviteLock = none) :
      Steps w { w with revokers := revokers, invite := { w.invite with revoked := true } }

variable {w w' : World} {a : Action}

theorem Steps.goes_on {n : Nat} {j : Join} (hjoin : w.joins n = some j)
    (hold : answer j.phase = none) (hfree : holds phase = none) (hruns : answer phase = none) :
    Steps w (w.setJoin n j phase) :=
  .goes (fun _ hother => some.inj (hjoin.symm.trans hother) ▸ hold) hfree hruns

theorem answer_eq_none (h : ∀ a, phase ≠ .done a) : answer phase = none := by
  cases phase with
  | done a => exact absurd rfl (h a)
  | _ => rfl

theorem steps_of_admitMember {n : Nat} {j : Join} (hjoin : w.joins n = some j)
    (hphase : j.phase = .admitMember begun) : Steps w (admitMember w n j) := by
  unfold admitMember
  split
  · exact .ends hjoin (by rw [hphase]; rfl) nofun
  · rename_i row g hadmitted
    exact .commits hjoin hphase hadmitted

theorem steps_of_step (h : step w a = some w') :
    Steps w w' ∨ ∃ b groups, a = .group b ∧ w' = { w with groups := groups } := by
  cases a with
  | join n user =>
    simp only [step] at h
    split_ifs at h with hnew
    cases h
    exact .inl (.goes (fun old hold => absurd (by rw [hold]; rfl) hnew) rfl rfl)
  | askRevoke user =>
    simp only [step] at h
    split at h
    · cases h
      exact .inl (.asks _)
    · cases h
      exact .inl (.asks w.revokers)
  | revoke user =>
    simp only [step] at h
    split_ifs at h with hmay
    cases h
    exact .inl (.revokes _ hmay.2)
  | group b =>
    simp only [step] at h
    split_ifs at h
    obtain ⟨groups, -, rfl⟩ := map_eq_some_iff.1 h
    exact .inr ⟨b, groups, rfl, rfl⟩
  | find n =>
    obtain ⟨j, hjoin, h⟩ := bind_eq_some_iff.1 h
    split at h
    · rename_i hphase
      have hruns : answer j.phase = none := by rw [hphase]; rfl
      split at h
      · cases h
        exact .inl (.ends hjoin hruns nofun)
      · cases h
        exact .inl (.goes_on hjoin hruns rfl rfl)
    · cases h
  | membership n =>
    obtain ⟨j, hjoin, h⟩ := bind_eq_some_iff.1 h
    split at h
    · rename_i hphase
      have hruns : answer j.phase = none := by rw [hphase]; rfl
      split at h
      · cases h
        exact .inl (.ends hjoin hruns nofun)
      · cases h
        exact .inl (.ends hjoin hruns nofun)
      · split at h
        · cases h
          exact .inl (.ends hjoin hruns nofun)
        · cases h
          exact .inl (.goes_on hjoin hruns rfl rfl)
    · cases h
  | check n refused =>
    obtain ⟨j, hjoin, h⟩ := bind_eq_some_iff.1 h
    split at h
    · rename_i hphase
      have hruns : answer j.phase = none := by rw [hphase]; rfl
      split at h
      · cases h
        exact .inl (.ends hjoin hruns nofun)
      · cases h
        exact .inl (.goes_on hjoin hruns rfl rfl)
    · cases h
  | begin_ n =>
    obtain ⟨j, hjoin, h⟩ := bind_eq_some_iff.1 h
    split at h
    · rename_i hphase
      cases h
      exact .inl (.goes_on hjoin (by rw [hphase]; rfl) rfl rfl)
    · cases h
  | consume n =>
    obtain ⟨j, hjoin, h⟩ := bind_eq_some_iff.1 h
    split at h
    · rename_i begun hphase
      split at h
      · cases h
        exact .inl (.ends hjoin (by rw [hphase]; rfl) nofun)
      · rename_i hconsumes
        split_ifs at h with hlock
        cases h
        exact .inl (.consumes hjoin hphase (not_not.1 hconsumes) hlock)
    · cases h
  | lockGroup n =>
    obtain ⟨j, hjoin, h⟩ := bind_eq_some_iff.1 h
    split at h
    · rename_i begun hphase
      split at h
      · cases h
        exact .inl (.ends hjoin (by rw [hphase]; rfl) nofun)
      · split_ifs at h
        cases h
        exact .inl (.locks hjoin hphase)
    · cases h
  | admitMember n =>
    obtain ⟨j, hjoin, h⟩ := bind_eq_some_iff.1 h
    split at h
    · rename_i begun hphase
      cases h
      exact .inl (steps_of_admitMember hjoin hphase)
    · cases h
  | fail n =>
    obtain ⟨j, hjoin, h⟩ := bind_eq_some_iff.1 h
    split at h
    · cases h
    rename_i hruns
    cases h
    exact .inl (.ends hjoin (answer_eq_none hruns) nofun)

/-! ## Every run -/

/-- The calls that joined are those that answered it, each once, and as many uses were taken. -/
structure Counted (uses : Option Nat) (w : World) : Prop where
  answered : ∀ n, n ∈ w.joined ↔ ∃ j, w.joins n = some j ∧ j.phase = .done .joined
  once : w.joined.Nodup
  taken : w.invite.usesLeft = uses.map fun u => (u : Int) - w.joined.length
  promised : ∀ u, uses = some u → w.joined.length ≤ u

/-- Moreover, a join that holds the link can take a use of it. -/
structure Inv (uses : Option Nat) (w : World) : Prop extends Counted uses w where
  held : ∀ n j begun, w.joins n = some j → holds j.phase = some begun →
    w.inviteLock = some n ∧ Consumes w.invite begun

variable {uses : Option Nat} {n : Nat} {j : Join}

theorem inv_start {clock expiresAt : Int} :
    Inv uses (.start g clock ⟨createdBy, expiresAt, uses.map Nat.cast, false⟩) where
  answered _ := ⟨nofun, fun ⟨_, hjoin, _⟩ => nomatch hjoin⟩
  once := List.nodup_nil
  taken := by cases uses <;> simp [World.start]
  promised _ _ := Nat.zero_le _
  held _ _ _ hjoin := nomatch hjoin

theorem Inv.not_joined (hinv : Inv uses w) (hruns : ∀ old, w.joins n = some old → answer old.phase = none) :
    n ∉ w.joined := by
  intro hmem
  obtain ⟨old, hold, hdone⟩ := (hinv.answered n).1 hmem
  have hanswer := hruns old hold
  rw [hdone] at hanswer
  cases hanswer

/-- One join goes on or ends. It holds the link only if it may take a use, and the others keep what they hold. -/
theorem Inv.put (hinv : Inv uses w) (hruns : ∀ old, w.joins n = some old → answer old.phase = none)
    (hjoins : w'.joins = update w.joins n (some { j with phase := phase })) (hinvite : w'.invite = w.invite)
    (hjoined : w'.joined = w.joined) (hanswer : phase ≠ .done .joined)
    (hholds : ∀ begun, holds phase = some begun → w'.inviteLock = some n ∧ Consumes w.invite begun)
    (hothers : ∀ m, m ≠ n → w.inviteLock = some m → w'.inviteLock = some m) : Inv uses w' where
  answered m := by
    rw [hjoined, hjoins]
    by_cases hm : m = n
    · subst hm
      refine ⟨fun hmem => absurd hmem (hinv.not_joined hruns), fun ⟨j', hj', hdone⟩ => ?_⟩
      rw [update_self] at hj'
      cases hj'
      exact absurd hdone hanswer
    · rw [update_of_ne hm]
      exact hinv.answered m
  once := hjoined ▸ hinv.once
  taken := by
    rw [hinvite, hjoined]
    exact hinv.taken
  promised := hjoined ▸ hinv.promised
  held m j' begun hj' hphase := by
    rw [hjoins] at hj'
    rw [hinvite]
    by_cases hm : m = n
    · subst hm
      rw [update_self] at hj'
      cases hj'
      exact hholds begun hphase
    · rw [update_of_ne hm] at hj'
      obtain ⟨hlock, hconsumes⟩ := hinv.held m j' begun hj' hphase
      exact ⟨hothers m hm hlock, hconsumes⟩

theorem runs_of (hjoin : w.joins n = some j) (hruns : answer j.phase = none) :
    ∀ old, w.joins n = some old → answer old.phase = none :=
  fun _ hold => some.inj (hjoin.symm.trans hold) ▸ hruns

theorem Inv.commit (hinv : Inv uses w) (hjoin : w.joins n = some j)
    (hphase : j.phase = .admitMember begun) : Inv uses (committed w n j g) := by
  have hruns := runs_of hjoin (by rw [hphase]; rfl)
  obtain ⟨hlock, -, -, hleft⟩ := hinv.held n j begun hjoin (by rw [hphase]; rfl)
  have hcons : (committed w n j g).joined = n :: w.joined := rfl
  refine ⟨⟨fun m => ?_, List.nodup_cons.2 ⟨hinv.not_joined hruns, hinv.once⟩, ?_, ?_⟩, ?_⟩
  · change m ∈ n :: w.joined ↔ ∃ j', update w.joins n _ m = some j' ∧ _
    by_cases hm : m = n
    · subst hm
      rw [update_self]
      exact ⟨fun _ => ⟨_, rfl, rfl⟩, fun _ => List.mem_cons_self⟩
    · rw [update_of_ne hm, List.mem_cons, hinv.answered m]
      exact ⟨fun h => h.resolve_left hm, .inr⟩
  · change w.invite.usesLeft.map _ = _
    rw [hinv.taken, hcons, map_map]
    cases uses with
    | none => rfl
    | some u =>
      refine congrArg some ?_
      simp only [comp_apply, List.length_cons]
      omega
  · intro u hu
    rw [hinv.taken, hu] at hleft
    have hleft : (0 : Int) < u - w.joined.length := of_decide_eq_true hleft
    rw [hcons, List.length_cons]
    omega
  · -- Nobody else holds the link.
    intro m j' begun' hj' hholds
    change update w.joins n _ m = some j' at hj'
    by_cases hm : m = n
    · subst hm
      rw [update_self] at hj'
      cases hj'
      cases hholds
    · rw [update_of_ne hm] at hj'
      have hother := (hinv.held m j' begun' hj' hholds).1
      exact absurd (some.inj (hother.symm.trans hlock)) hm

theorem inv_steps (hinv : Inv uses w) (h : Steps w w') : Inv uses w' := by
  cases h with
  | goes hold hfree hruns =>
    refine hinv.put hold rfl rfl rfl (fun heq => ?_) (fun begun hholds => ?_) (fun _ _ hlock => hlock)
    · rw [heq] at hruns
      cases hruns
    · rw [hfree] at hholds
      cases hholds
  | @ends n j answered hjoin hruns hanswer =>
    refine hinv.put (runs_of hjoin hruns) rfl rfl rfl (fun heq => hanswer ?_)
      (fun _ hholds => nomatch (hholds : none = some _)) (fun m hm hlock => ?_)
    · cases heq
      rfl
    · exact (if_neg fun heq => hm (some.inj (hlock.symm.trans heq))).trans hlock
  | @consumes n j begun hjoin hphase hconsumes hlock =>
    refine hinv.put (runs_of hjoin (by rw [hphase]; rfl)) rfl rfl rfl nofun (fun begun' hholds => ?_)
      (fun m _ hother => ?_)
    · cases hholds
      exact ⟨rfl, hconsumes⟩
    · rw [hlock] at hother
      cases hother
  | @locks n j begun hjoin hphase =>
    refine hinv.put (runs_of hjoin (by rw [hphase]; rfl)) rfl rfl rfl nofun (fun begun' hholds => ?_)
      (fun _ _ hlock => hlock)
    cases hholds
    exact hinv.held n j begun hjoin (by rw [hphase]; rfl)
  | commits hjoin hphase _ => exact hinv.commit hjoin hphase
  | asks revokers => exact ⟨⟨hinv.answered, hinv.once, hinv.taken, hinv.promised⟩, hinv.held⟩
  | revokes revokers hlock =>
    refine ⟨⟨hinv.answered, hinv.once, hinv.taken, hinv.promised⟩, fun m j begun hjoin hholds => ?_⟩
    have hother := (hinv.held m j begun hjoin hholds).1
    rw [hlock] at hother
    cases hother

theorem inv_step (hinv : Inv uses w) (h : step w a = some w') : Inv uses w' := by
  obtain hsteps | ⟨b, groups, rfl, rfl⟩ := steps_of_step h
  · exact inv_steps hinv hsteps
  · exact ⟨⟨hinv.answered, hinv.once, hinv.taken, hinv.promised⟩, hinv.held⟩

/-- What the commit of the join `n` of a user finds and does, if its transaction began at `begun`. -/
structure Commits (n : Nat) (user : String) (begun : Int) (w w' : World) : Prop extends
    Admission user w.group w'.group where
  call : w.joins n = some ⟨user, .admitMember begun⟩
  notRevoked : w.invite.revoked = false
  notExpired : begun < w.invite.expiresAt
  joined : w'.joined = n :: w.joined

/-- Other steps take no use, and only those of the group change it. -/
structure Idle (a : Action) (w w' : World) : Prop where
  joined : w'.joined = w.joined
  usesLeft : w'.invite.usesLeft = w.invite.usesLeft
  group : (∀ b, a ≠ .group b) → w'.groups = w.groups

theorem step_commits_or_idle (hinv : Inv uses w) (h : step w a = some w') :
    (∃ n user begun, Commits n user begun w w') ∨ Idle a w w' := by
  obtain hsteps | ⟨b, groups, rfl, rfl⟩ := steps_of_step h
  · cases hsteps with
    | @commits n j begun row g hjoin hphase hadmitted =>
      obtain ⟨user, phase⟩ := j
      cases hphase
      obtain ⟨-, hrevoked, hexpires, -⟩ := hinv.held n _ begun hjoin rfl
      exact .inl ⟨n, user, begun, admitMember_admission hadmitted, hjoin, hrevoked, hexpires, rfl⟩
    | goes | ends | consumes | locks | asks | revokes => exact .inr ⟨rfl, rfl, fun _ => rfl⟩
  · exact .inr ⟨rfl, rfl, fun hother => absurd rfl (hother b)⟩

/-- In every run of a link made with `uses` uses, or with no limit, as many joins answered `joined = true` as uses
were taken, and never more than `uses`. Each of them is the commit of a call on a link that is not revoked and had not
expired when its transaction began. -/
theorem invite_admits {g : Group} {clock expiresAt : Int} {createdBy : String} {as : List Action}
    (h : run step (.start g clock ⟨createdBy, expiresAt, uses.map Nat.cast, false⟩) as = some w) :
    Counted uses w ∧ ∀ a w', step w a = some w' →
      (∃ n user begun, Commits n user begun w w') ∨ Idle a w w' := by
  have hinv : Inv uses w := run_invariant (fun hinv hstep => inv_step hinv hstep) inv_start h
  exact ⟨hinv.toCounted, fun a w' hstep => step_commits_or_idle hinv hstep⟩

def alone : Group :=
  let members := ⟨[⟨"101", .owner, .active, 0, 0, none⟩], List.nodup_singleton _⟩
  { Group.inserted 0 with members := members, memberCount := 1 }

def ready (n : Nat) (user : String) : List Action :=
  [.join n user, .find n, .membership n, .check n false, .begin_ n, .consume n, .lockGroup n]

/-- One user joins through a link of one use, and another finds that it has none. -/
theorem invite_admits_one : ∃ w, run step (.start alone 0 ⟨"101", 5, (some 1).map Nat.cast, false⟩)
        (ready 0 "303" ++ [.admitMember 0, .join 1 "404", .find 1, .membership 1]) = some w ∧
      w.joined = [0] ∧ w.joins 1 = some ⟨"404", .done (.error .notFound)⟩ ∧ Counted (some 1) w := by
  obtain ⟨w, hrun, h⟩ := map_eq_some_iff.1 (show
      (run step (.start alone 0 ⟨"101", 5, (some 1).map Nat.cast, false⟩)
        (ready 0 "303" ++ [.admitMember 0, .join 1 "404", .find 1, .membership 1])).map
          (fun w => (w.joined, w.joins 1)) =
      some ([0], some ⟨"404", .done (.error .notFound)⟩) by decide)
  obtain ⟨hjoined, hlate⟩ := Prod.mk.inj h
  exact ⟨w, hrun, hjoined, hlate, (invite_admits hrun).1⟩

/-- A link expires at `5`. A join whose transaction began at `0` commits at `10`. -/
theorem join_commits_after_expiry : ∃ w w', run step (.start alone 0 ⟨"101", 5, some 1, false⟩)
        (ready 0 "303" ++ [.group (.tick 10)]) = some w ∧ step w (.admitMember 0) = some w' ∧
      w.invite.expiresAt = 5 ∧ w.clock = 10 ∧ w.joined = [] ∧ w'.joined = [0] := by
  obtain ⟨w, hrun, h⟩ := bind_eq_some_iff.1 (show
      ((run step (.start alone 0 ⟨"101", 5, some 1, false⟩) (ready 0 "303" ++ [.group (.tick 10)])).bind fun w =>
        (step w (.admitMember 0)).map fun w' => (w.invite.expiresAt, w.clock, w.joined, w'.joined)) =
      some (5, 10, [], [0]) by decide)
  obtain ⟨w', hstep, h⟩ := map_eq_some_iff.1 h
  obtain ⟨hexpires, hclock, hbefore, hafter⟩ : _ ∧ _ ∧ _ ∧ _ := by simpa only [Prod.mk.injEq] using h
  exact ⟨w, w', hrun, hstep, hexpires, hclock, hbefore, hafter⟩

end SC.Proof.Chat.Invites
