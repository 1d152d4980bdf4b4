import SoundCloudBackend.Proof.Chat.GroupSteps
import Mathlib.Data.List.Count

/-!
# The size of a group

`add` tests a fresh count of the active and invited members, an invite link the
stored `member_count`. Every change but the join by a link leaves the number of
active members in `member_count`; the join leaves the number of active and
invited ones. `KeepsCount` says of a join that nobody else is invited at that moment.
-/

namespace SC.Proof.Chat.Groups

open Impl.Chat.Groups
open List

variable {ms ms' : Members} {g g' : Group} {w w' : World} {a : Action}
variable {m old : Member} {user : String}
variable {call : Call} {row : Message} {event : SystemEvent} {target : String} {now : Int} {n : Nat}

/-! ## Counts of rows -/

theorem countP_put (p : Member → Bool) (h : ms.find m.userId = some old) :
    (ms.put m).rows.countP p + (if p old then 1 else 0) = ms.rows.countP p + (if p m then 1 else 0) := by
  obtain ⟨rows, hnodup⟩ := ms
  obtain ⟨hold, before, after, rfl, hbefore⟩ := List.find?_eq_some_iff_append.1 h
  have hid : old.userId = m.userId := by simpa using hold
  have hkept : ∀ rest : List Member, (∀ row ∈ rest, row.userId ≠ m.userId) →
      (rest.map fun row => if row.userId = m.userId then m else row) = rest := fun rest hrest =>
    (map_congr_left fun row hrow => if_neg (hrest row hrow)).trans (map_id rest)
  have hfirst : ∀ row ∈ before, row.userId ≠ m.userId := fun row hrow => by simpa using hbefore row hrow
  have hlast : ∀ row ∈ after, row.userId ≠ m.userId := fun row hrow heq => by
    rw [map_append, map_cons, nodup_append] at hnodup
    exact (nodup_cons.1 hnodup.2.1).1 (mem_map.2 ⟨row, hrow, heq.trans hid.symm⟩)
  have hmem : m.userId ∈ (before ++ old :: after).map Member.userId :=
    mem_map.2 ⟨old, by simp, hid⟩
  have hrows : (Members.put ⟨before ++ old :: after, hnodup⟩ m).rows = before ++ m :: after := by
    unfold Members.put
    dsimp only
    rw [if_pos hmem, map_append, map_cons, hkept before hfirst, hkept after hlast, if_pos hid]
  rw [hrows]
  simp only [countP_append, countP_cons]
  omega

theorem countP_put_new (p : Member → Bool) (h : ms.find m.userId = none) :
    (ms.put m).rows.countP p = ms.rows.countP p + (if p m then 1 else 0) := by
  have hnew : m.userId ∉ ms.rows.map Member.userId := fun hmem => by
    obtain ⟨row, hrow, hid⟩ := mem_map.1 hmem
    rw [← hid, find_of_mem hrow] at h
    cases h
  unfold Members.put
  dsimp only
  rw [if_neg hnew, countP_append, countP_singleton]

theorem countP_put_le (p : Member → Bool) (ms : Members) (m : Member) :
    (ms.put m).rows.countP p ≤ ms.rows.countP p + 1 := by
  have hone : (if p m then 1 else 0) ≤ 1 := by split <;> omega
  cases hfind : ms.find m.userId with
  | none =>
    have hput := countP_put_new p hfind
    omega
  | some old =>
    have hput := countP_put p hfind
    omega

theorem activeCount_put (h : ms.find m.userId = some old) :
    (ms.put m).activeCount + (if old.state = .active then 1 else 0) =
      ms.activeCount + (if m.state = .active then 1 else 0) := by
  simpa [Members.activeCount] using countP_put (fun m => decide (m.state = .active)) h

theorem liveTotal_put (h : ms.find m.userId = some old) :
    (ms.put m).liveTotal + (if old.state ∈ live then 1 else 0) = ms.liveTotal + (if m.state ∈ live then 1 else 0) := by
  simpa [Members.liveTotal] using countP_put (fun m => decide (m.state ∈ live)) h

theorem find_userId (h : ms.find user = some m) : ms.find m.userId = some m :=
  find_of_mem (mem_of_find h)

/-- A new role or state of a row makes no live member, if it was one before or is none after. -/
theorem liveTotal_set_le (h : ms.find user = some old) (role : MemberRole)
    (state : MemberState) (hlive : state ∈ live → old.state ∈ live) :
    (ms.put { old with role := role, state := state }).liveTotal ≤ ms.liveTotal := by
  have hput := liveTotal_put (m := { old with role := role, state := state }) (find_userId (m := old) h)
  split at hput
  · split at hput <;> omega
  · rename_i hold
    rw [if_neg fun hm => hold (hlive hm)] at hput
    omega

theorem activeCount_set (h : ms.find user = some old) (role : MemberRole)
    (state : MemberState) (hactive : state = .active ↔ old.state = .active) :
    (ms.put { old with role := role, state := state }).activeCount = ms.activeCount := by
  have hput := activeCount_put (m := { old with role := role, state := state }) (find_userId (m := old) h)
  simp only [hactive] at hput
  omega

theorem liveTotal_eq (ms : Members) : ms.liveTotal = ms.activeCount + ms.rows.countP fun m => m.state = .invited := by
  unfold Members.liveTotal Members.activeCount
  induction ms.rows with
  | nil => rfl
  | cons first rest ih =>
    simp only [countP_cons, ih]
    cases first.state <;> simp [live] <;> omega

/-! ## Live members -/

theorem Effect.liveTotal_le {access : Access} {users : List String} (h : Effect access g call users g')
    (hadd : ∀ placed, call ≠ .add placed) : g'.members.liveTotal ≤ g.members.liveTotal := by
  cases h with
  | same _ => exact Nat.le_refl _
  | left m _ hm _ _ hmembers _ =>
    rw [hmembers]
    exact liveTotal_set_le hm _ _ fun hlive => absurd hlive left_not_live
  | handedOver m heir _ hm _ _ hheir hactive _ _ hmembers _ =>
    have hleft := liveTotal_set_le hm m.role .left fun hlive => absurd hlive left_not_live
    rw [hmembers]
    exact (liveTotal_set_le hheir _ _ fun hlive => hlive).trans hleft
  | removed _ _ m next _ hm _ hnext _ hmembers _ =>
    rw [hmembers]
    exact liveTotal_set_le hm _ _ fun hlive => absurd hlive hnext
  | unbanned _ m _ hm _ _ hmembers =>
    rw [hmembers]
    exact liveTotal_set_le hm _ _ fun hlive => absurd hlive left_not_live
  | promoted target o m _ ho _ _ hne hm _ _ hmembers =>
    have hdown := liveTotal_set_le ho .admin o.state fun hlive => hlive
    have hother : target ≠ o.userId := (userId_of_find ho).symm ▸ hne
    rw [← find_put_of_ne g.members (m := { o with role := .admin }) hother] at hm
    rw [hmembers]
    exact (liveTotal_set_le hm _ _ fun hlive => hlive).trans hdown
  | ranked _ role m _ _ _ _ _ _ hm _ _ hmembers =>
    rw [hmembers]
    exact liveTotal_set_le hm _ _ fun hlive => hlive
  | accepted m _ hm hstate _ hmembers =>
    rw [hmembers]
    exact liveTotal_set_le hm _ _ fun _ => hstate ▸ by decide
  | declined m _ _ hm _ _ hmembers =>
    rw [hmembers]
    exact liveTotal_set_le hm _ _ fun hlive => absurd hlive left_not_live
  | added placed _ _ _ _ => exact absurd rfl (hadd placed)

theorem liveTotal_joinMany {row : Members.Joining → Member}
    {joined joined' : List Member} {js : List Members.Joining} (h : ms.joinMany row joined js = .ok (ms', joined')) :
    ms'.liveTotal ≤ ms.liveTotal + js.length := by
  induction js generalizing ms joined with
  | nil =>
    cases h
    exact Nat.le_refl _
  | cons j rest ih =>
    have hwrite : (ms.put (row j)).liveTotal ≤ ms.liveTotal + 1 := countP_put_le _ ms (row j)
    rw [length_cons]
    unfold Members.joinMany at h
    split at h
    · cases h
    cases hfind : ms.find j.userId with
    | none =>
      rw [hfind] at h
      have hrest := ih h
      omega
    | some old =>
      rw [hfind] at h
      dsimp only at h
      split at h <;> have hrest := ih h <;> omega

/-! ## The stored count -/

def Counted (g : Group) : Prop := g.memberCount = g.members.activeCount

theorem counted_recount (g : Group) : Counted g.recount := rfl

theorem Counted.insertSystem (hcounted : Counted g) (h : g.insertSystem event = .ok (row, g')) : Counted g' := by
  unfold Group.insertSystem at h
  split_ifs at h
  cases h
  exact hcounted

theorem Counted.shred (hcounted : Counted g) : Counted g.shred.2 := by
  unfold Group.shred
  split <;> exact hcounted

theorem Counted.markRekey (hcounted : Counted g) : Counted g.markRekey := by
  unfold Group.markRekey
  split <;> exact hcounted

theorem Counted.set (hcounted : Counted g) (h : g.members.find user = some old)
    (role : MemberRole) (state : MemberState) (hactive : state = .active ↔ old.state = .active) :
    Counted { g with members := g.members.put { old with role := role, state := state } } :=
  hcounted.trans (activeCount_set h role state hactive).symm

section Calls

variable {access : Access} {change : Impl.Chat.Groups.Change}

theorem Counted.handOver {rows : List Message} (hcounted : Counted g) (h : Group.handOver access g = .ok (rows, g')) :
    Counted g' := by
  unfold Group.handOver at h
  split at h
  · cases h
    exact hcounted
  · rename_i heir hheir
    obtain ⟨⟨row, g₁⟩, hsystem, h⟩ := bind_eq_ok h
    cases h
    obtain ⟨-, m, hm, hactive⟩ := successor_spec hheir
    have hset : (g.members.setRole heir .owner).getD g.members = g.members.put { m with role := .owner } := by
      unfold Members.setRole
      rw [hm, Option.bind_some, if_pos hactive]
      rfl
    rw [hset] at hsystem
    exact (hcounted.set hm .owner _ Iff.rfl).insertSystem hsystem

theorem counted_leave (hcounted : Counted g) (h : Group.leave access g = .ok (change, g')) : Counted g' := by
  unfold Group.leave at h
  split at h
  · cases h
  split at h
  · cases h
  dsimp only at h
  split at h
  · cases h
    exact hcounted
  · rename_i role members _
    unfold Group.departed at h
    split at h
    · generalize hshred : Group.shred _ = result at h
      cases h
      exact hshred ▸ (counted_recount _).shred
    · obtain ⟨⟨rows, g₁⟩, hhand, h⟩ := bind_eq_ok h
      obtain ⟨⟨row, g₂⟩, hsystem, h⟩ := bind_eq_ok h
      cases h
      have hcounted₁ : Counted g₁ := by
        split at hhand
        · exact (counted_recount _).handOver hhand
        · cases hhand
          exact counted_recount _
      exact hcounted₁.markRekey.insertSystem hsystem

theorem counted_remove {ban : Bool} (hcounted : Counted g)
    (h : Group.remove access target ban g = .ok (change, g')) : Counted g' := by
  unfold Group.remove at h
  split at h
  · cases h
  split at h
  · cases h
  split at h
  · cases h
  split at h
  · cases h
  split at h
  · cases h
  split at h
  · split_ifs at h
    cases h
    exact hcounted
  · unfold Group.expelled at h
    obtain ⟨⟨row, g₁⟩, -, h⟩ := bind_eq_ok h
    cases h
    exact counted_recount g₁

theorem counted_unban (hcounted : Counted g) (h : Group.unban access target g = .ok (change, g')) : Counted g' := by
  unfold Group.unban at h
  split at h
  · cases h
  cases hset : g.members.setState target .left [.banned] with
  | none =>
    rw [hset] at h
    cases h
    exact hcounted
  | some result =>
    obtain ⟨role, members⟩ := result
    obtain ⟨m, hm, hstate, -, rfl⟩ := setState_eq_some hset
    rw [hset] at h
    cases h
    refine hcounted.set hm m.role .left ?_
    rw [mem_singleton.1 hstate]
    decide

theorem counted_setRole {role : MemberRole} (hcounted : Counted g)
    (h : Group.setRole access target role g = .ok (change, g')) : Counted g' := by
  unfold Group.setRole at h
  split at h
  · cases h
  split at h
  · cases h
  rename_i hmay
  have hne : target ≠ access.userId := fun heq => hmay (.inr heq)
  split at h
  · cases h
  obtain ⟨members, hset, h⟩ := bind_eq_ok h
  obtain ⟨⟨row, g₁⟩, hsystem, h⟩ := bind_eq_ok h
  cases h
  refine Counted.insertSystem ?_ hsystem
  obtain ⟨m, hm, hstate, ⟨-, rfl⟩ | ⟨rfl, o, ho, -, -, rfl⟩⟩ := rolesSet_eq_ok hne hset
  · exact hcounted.set hm role m.state Iff.rfl
  · have hdown := hcounted.set ho .admin o.state Iff.rfl
    have hother : target ≠ o.userId := (userId_of_find ho).symm ▸ hne
    rw [← find_put_of_ne g.members (m := { o with role := .admin }) hother] at hm
    exact hdown.set hm .owner m.state Iff.rfl

theorem counted_accept (hcounted : Counted g) (h : Group.accept access g = .ok (change, g')) : Counted g' := by
  unfold Group.accept at h
  split at h
  · cases h
  split at h
  · split_ifs at h
    cases h
    exact hcounted
  · obtain ⟨⟨row, g₁⟩, -, h⟩ := bind_eq_ok h
    cases h
    exact counted_recount g₁

theorem counted_decline (hcounted : Counted g) (h : Group.decline access g = .ok (change, g')) : Counted g' := by
  unfold Group.decline at h
  split at h
  · cases h
  cases hset : g.members.setState access.userId .left [.invited] with
  | none =>
    rw [hset] at h
    split_ifs at h
    cases h
    exact hcounted
  | some result =>
    obtain ⟨role, members⟩ := result
    obtain ⟨m, hm, hstate, -, rfl⟩ := setState_eq_some hset
    rw [hset] at h
    cases h
    refine hcounted.set hm m.role .left ?_
    rw [mem_singleton.1 hstate]
    decide

theorem within_add {placed : List (String × MemberState)} (hcounted : Counted g)
    (hlimit : g.members.liveTotal ≤ Group.membersMax) (h : Group.add access placed g = .ok (change, g')) :
    g'.members.liveTotal ≤ Group.membersMax ∧ Counted g' := by
  unfold Group.add at h
  split at h
  · cases h
  split at h
  · cases h
    exact ⟨hlimit, hcounted⟩
  split at h
  · cases h
  rename_i hdeleted
  split at h
  · cases h
  rename_i hroom
  dsimp only at h
  generalize hjoin : Members.joinMany _ g.members [] _ = result at h
  cases result with
  | error error => cases h
  | ok result =>
    obtain ⟨members, joined⟩ := result
    have htotal := liveTotal_joinMany hjoin
    rw [length_map] at htotal
    cases joined with
    | nil =>
      cases h
      exact ⟨hlimit, hcounted⟩
    | cons first rest =>
      unfold Group.welcomed at h
      obtain ⟨⟨row, g₁⟩, hsystem, h⟩ := bind_eq_ok h
      cases h
      obtain ⟨-, hmembers, -⟩ := welcome_eq_ok (by simpa using hdeleted) hsystem
      refine ⟨?_, counted_recount g₁⟩
      rw [show g₁.recount.members = members from hmembers]
      omega

end Calls

/-! ## Steps -/

/-- The group is within its limit and its count is right. -/
structure Within (g : Group) : Prop where
  limit : g.members.liveTotal ≤ Group.membersMax
  counted : g.memberCount = g.members.activeCount

instance : Decidable (Within g) := decidable_of_iff (_ ∧ _) ⟨fun h => ⟨h.1, h.2⟩, fun h => ⟨h.limit, h.counted⟩⟩

theorem within_run {access : Access} {change : Impl.Chat.Groups.Change} (hwithin : Within g)
    (hplaced : ∀ one ∈ call.placed, one.2 ∈ live) (h : call.run access g = .ok (change, g')) : Within g' := by
  have hlimit (hadd : ∀ placed, call ≠ .add placed) : g'.members.liveTotal ≤ Group.membersMax :=
    ((effect_of_run hplaced h).liveTotal_le hadd).trans hwithin.limit
  cases call with
  | leave => exact ⟨hlimit nofun, counted_leave hwithin.counted h⟩
  | remove target ban => exact ⟨hlimit nofun, counted_remove hwithin.counted h⟩
  | unban target => exact ⟨hlimit nofun, counted_unban hwithin.counted h⟩
  | setRole target role => exact ⟨hlimit nofun, counted_setRole hwithin.counted h⟩
  | accept => exact ⟨hlimit nofun, counted_accept hwithin.counted h⟩
  | decline => exact ⟨hlimit nofun, counted_decline hwithin.counted h⟩
  | add placed =>
    obtain ⟨hlimit, hcounted⟩ := within_add hwithin.counted hwithin.limit h
    exact ⟨hlimit, hcounted⟩

structure SameSeats (g g' : Group) : Prop where
  members : g'.members = g.members
  memberCount : g'.memberCount = g.memberCount

theorem SameSeats.within (h : SameSeats g g') (hwithin : Within g) : Within g' :=
  ⟨h.members ▸ hwithin.limit, by rw [h.members, h.memberCount]; exact hwithin.counted⟩

theorem store_seats {sender : String} {out : Group.Outgoing}
    (h : g.store sender out now = some (row, g')) : SameSeats g g' := by
  obtain ⟨-, -, -, -, rfl⟩ := store_eq_some h
  exact ⟨rfl, rfl⟩

theorem insertSystem_seats (h : g.insertSystem event = .ok (row, g')) : SameSeats g g' := by
  unfold Group.insertSystem at h
  split_ifs at h
  cases h
  exact ⟨rfl, rfl⟩

theorem markRekey_seats (g : Group) : SameSeats g g.markRekey := by
  unfold Group.markRekey
  split <;> exact ⟨rfl, rfl⟩

theorem ensureCurrent_seats (h : g.ensureCurrent now = .ok g') : SameSeats g g' := by
  unfold Group.ensureCurrent at h
  split at h
  · cases h
  split at h
  · split_ifs at h
    cases h
    obtain ⟨keys, heq, -⟩ := insertKey_eq g (g.keyEpoch + 1) now
    rw [heq]
    exact ⟨rfl, rfl⟩
  · cases h
    obtain ⟨keys, heq, -⟩ := insertKey_eq g g.keyEpoch now
    rw [heq]
    exact ⟨rfl, rfl⟩

theorem rotateIfDue_seats {epoch : Int} (h : g.rotateIfDue epoch now = some g') : SameSeats g g' := by
  unfold Group.rotateIfDue at h
  split_ifs at h
  cases h
  exact ⟨rfl, rfl⟩

theorem advanceRequest_seats (h : advanceRequest w n = some w') : SameSeats w.group w'.group := by
  unfold advanceRequest at h
  split at h
  · cases h
  · split at h
    · split at h
      · cases h
        exact ⟨rfl, rfl⟩
      · rename_i hensure
        cases h
        exact ensureCurrent_seats hensure
    · cases h
      exact ⟨rfl, rfl⟩
  · cases h
    exact ⟨rfl, rfl⟩
  · cases h
    exact ⟨rfl, rfl⟩

/-! ## Joins by a link -/

/-- A link admits the user: by its count the group has room, and the user is neither active nor banned. -/
structure Joinable (g : Group) (user : String) : Prop where
  exists_ : g.deleted = false
  room : g.memberCount < Group.membersMax
  user : ∀ m, g.members.find user = some m → m.state ≠ .active ∧ m.state ≠ .banned

/-- A user was seated, and the members were counted again. -/
structure Joined (g : Group) (user : String) (g' : Group) : Prop where
  members : ∃ m, m.userId = user ∧ m.state = .active ∧ g'.members = g.members.put m
  memberCount : g'.memberCount = g'.members.liveTotal

theorem admitMember_joined {createdBy : String}
    (h : Group.admitMember user createdBy g = .ok (row, g')) : Joinable g user ∧ Joined g user g' := by
  unfold Group.admitMember at h
  split at h
  · cases h
  rename_i hdeleted
  have hdeleted : g.deleted = false := by simpa using hdeleted
  split at h
  · cases h
  rename_i hroom
  split at h
  · cases h
  · cases h
  rename_i hactive hbanned
  obtain ⟨⟨row, g₁⟩, hsystem, h⟩ := bind_eq_ok h
  cases h
  obtain ⟨-, hmembers, -⟩ := welcome_eq_ok hdeleted hsystem
  refine ⟨⟨hdeleted, Nat.lt_of_not_le hroom, fun m hm => ⟨fun hstate => ?_, fun hstate => ?_⟩⟩, ⟨_, rfl, rfl, hmembers⟩, rfl⟩
  · exact hactive (by rw [hm, Option.map_some, hstate])
  · exact hbanned (by rw [hm, Option.map_some, hstate])

theorem admitMember_of_joinable (createdBy : String) (h : Joinable g user) :
    ∃ row g', Group.admitMember user createdBy g = .ok (row, g') := by
  have hstate : (g.members.find user).map Member.state ≠ some .active ∧
      (g.members.find user).map Member.state ≠ some .banned := by
    cases hm : g.members.find user with
    | none => exact ⟨nofun, nofun⟩
    | some m => exact ⟨fun heq => (h.user m hm).1 (Option.some.inj heq), fun heq => (h.user m hm).2 (Option.some.inj heq)⟩
  unfold Group.admitMember
  rw [if_neg (by simp [h.exists_]), if_neg (Nat.not_le_of_lt h.room)]
  dsimp only
  split
  · exact absurd ‹_› hstate.1
  · exact absurd ‹_› hstate.2
  · generalize hg' : (if g.historyVisible = true then _ else _ : Group) = g₁
    have hdeleted : g₁.deleted = false := by
      subst hg'
      split
      · exact h.exists_
      · exact (markRekey_turn _).deleted.trans h.exists_
    obtain ⟨⟨row, g₂⟩, hsystem⟩ := insertSystem_exists hdeleted (.joined user)
    rw [hsystem]
    exact ⟨_, _, rfl⟩

/-! ## Runs -/

/-- Nobody but the one who joins by a link is invited then. -/
def KeepsCount (w : World) : Action → Prop
  | .join user _ => Joinable w.group user → ∀ m ∈ w.group.members.rows, m.state = .invited → m.userId = user
  | _ => True

theorem within_joined (hwithin : Within g) (hjoinable : Joinable g user) (hjoined : Joined g user g')
    (halone : ∀ m ∈ g.members.rows, m.state = .invited → m.userId = user) : Within g' := by
  obtain ⟨⟨m, hid, hstate, hmembers⟩, hcount⟩ := hjoined
  have hinvited : g'.members.rows.countP (fun m => m.state = .invited) = 0 := by
    rw [countP_eq_zero]
    intro row hrow
    have hfind := find_of_mem hrow
    rw [hmembers] at hfind
    rcases find_put.1 hfind with ⟨-, rfl⟩ | ⟨hne, hold⟩
    · simp [hstate]
    · simpa using fun hrow => hne ((halone row (mem_of_find hold) hrow).trans hid.symm)
  have hlive := liveTotal_eq g'.members
  have hactive : g'.members.activeCount ≤ g.members.activeCount + 1 := by
    rw [hmembers]
    exact countP_put_le _ g.members m
  have hroom := hjoinable.room
  rw [hwithin.counted] at hroom
  exact ⟨by omega, by omega⟩

theorem not_within_joined (hjoined : Joined g user g') (hm : m ∈ g.members.rows)
    (hinvited : m.state = .invited) (hne : m.userId ≠ user) : ¬ Within g' := by
  obtain ⟨⟨joining, hid, -, hmembers⟩, hcount⟩ := hjoined
  intro hwithin
  have hfind : g'.members.find m.userId = some m := by
    rw [hmembers, find_put_of_ne g.members (hid ▸ hne)]
    exact find_of_mem hm
  have hrow := mem_of_find hfind
  have hpos : 0 < g'.members.rows.countP fun m => m.state = .invited := countP_pos_iff.2 ⟨m, hrow, by simp [hinvited]⟩
  have hlive := liveTotal_eq g'.members
  have hcounted := hwithin.counted
  omega

theorem within_step (hwithin : Within w.group) (hkeeps : KeepsCount w a) (h : step w a = some w') : Within w'.group := by
  cases a with
  | run access call =>
    simp only [step] at h
    split_ifs at h with hready
    split at h
    · cases h
      exact hwithin
    · rename_i change g' hrun
      cases h
      exact within_run hwithin hready.2 hrun
  | join user createdBy =>
    simp only [step] at h
    split at h
    · cases h
      exact hwithin
    · rename_i row g' hadmit
      cases h
      obtain ⟨hjoinable, hjoined⟩ := admitMember_joined hadmit
      exact within_joined hwithin hjoinable hjoined (hkeeps hjoinable)
  | read user =>
    obtain ⟨access, -, rfl⟩ := Option.map_eq_some_iff.1 h
    exact hwithin
  | send sender out =>
    simp only [step] at h
    split at h
    · cases h
      exact hwithin
    · rename_i row g' hstore
      cases h
      exact (store_seats hstore).within hwithin
  | system event =>
    simp only [step] at h
    split at h
    · cases h
      exact hwithin
    · rename_i row g' hinsert
      cases h
      exact (insertSystem_seats hinsert).within hwithin
  | ensureCurrent =>
    cases h
    cases hensure : w.group.ensureCurrent w.clock with
    | error error => exact hwithin
    | ok g' => exact (ensureCurrent_seats hensure).within hwithin
  | rotateIfDue epoch =>
    cases h
    cases hrotate : w.group.rotateIfDue epoch w.clock with
    | none => exact hwithin
    | some g' => exact (rotateIfDue_seats hrotate).within hwithin
  | markRekey =>
    cases h
    exact (markRekey_seats w.group).within hwithin
  | setHistory visible =>
    simp only [step] at h
    split at h
    · cases h
      exact hwithin
    · cases h
      exact ⟨hwithin.limit, hwithin.counted⟩
  | request n request =>
    simp only [step] at h
    split_ifs at h
    split at h <;> · cases h; exact hwithin
  | advance n => exact (advanceRequest_seats h).within hwithin
  | tick ms =>
    cases h
    exact hwithin

theorem not_within_step (hkeeps : ¬ KeepsCount w a) (h : step w a = some w') : ¬ Within w'.group := by
  unfold KeepsCount at hkeeps
  split at hkeeps
  · rename_i user createdBy
    push Not at hkeeps
    obtain ⟨hjoinable, m, hm, hinvited, hne⟩ := hkeeps
    obtain ⟨row, g', hadmit⟩ := admitMember_of_joinable createdBy hjoinable
    simp only [step, hadmit] at h
    cases h
    exact not_within_joined (admitMember_joined hadmit).2 hm hinvited hne
  · exact absurd trivial hkeeps

/-- A group that starts within its limit and with the right count keeps both in every state of a run exactly if no
link is used while somebody else is invited. -/
theorem group_within_limit_iff {clock : Int} {as : List Action} (hstart : Within g)
    (h : run step (World.start g clock) as = some w) :
    Always step (fun w => Within w.group) (World.start g clock) as ↔ Meets step KeepsCount (World.start g clock) as :=
  always_iff_meets (I := fun w => Within w.group) (fun hwithin => hwithin) within_step
    (fun _ hkeeps hstep => not_within_step hkeeps hstep) hstart h

/-- The owner invites a user, who accepts, and another one joins by the link. -/
def invitedThenLinked : List Action :=
  [.read "101", .run ⟨"101", .group, .owner, .active, ["101", "202"]⟩ (.add [("303", .invited)]), .read "303",
    .run ⟨"303", .group, .member, .invited, ["101", "202", "303"]⟩ .accept, .join "404" "101"]

theorem group_within_limit_link :
    Always step (fun w => Within w.group) (World.start (pair .active 2) 0) invitedThenLinked := by
  refine (group_within_limit_iff (by decide) rfl).2 ?_
  iterate 4 refine meets_cons rfl trivial ?_
  exact meets_cons rfl (fun _ => by decide) (meets_nil _)

def guest (n : Nat) : Member := ⟨String.ofList (List.replicate n 'a'), .member, .invited, 0, 0, some "101"⟩

theorem guest_userId_injective {m : Nat} (h : (guest n).userId = (guest m).userId) : n = m := by
  have hchars : List.replicate n 'a' = List.replicate m 'a' := String.ofList_injective h
  simpa using congrArg List.length hchars

theorem guest_userId_ne (h : '0' ∈ user.toList) : (guest n).userId ≠ user := by
  rintro rfl
  simp [guest] at h

def fullGroup : Group :=
  { pair .invited 1 with
    members := ⟨⟨"101", .owner, .active, 0, 0, none⟩ :: (List.range 199).map guest, by
      rw [map_cons, map_map, nodup_cons]
      refine ⟨fun hmem => ?_, nodup_range.map fun n m => guest_userId_injective⟩
      obtain ⟨n, -, hid⟩ := mem_map.1 hmem
      exact guest_userId_ne (by decide) hid⟩ }

theorem fullGroup_liveTotal : fullGroup.members.liveTotal = 200 := by
  have hguests : ((List.range 199).map guest).countP (fun m => decide (m.state ∈ live)) = 199 := by
    rw [countP_eq_length.2, length_map, length_range]
    intro m hm
    obtain ⟨n, -, rfl⟩ := mem_map.1 hm
    rfl
  exact countP_cons_of_pos rfl |>.trans (congrArg (· + 1) hguests)

theorem fullGroup_activeCount : fullGroup.members.activeCount = 1 := by
  have hguests : ((List.range 199).map guest).countP (fun m => decide (m.state = .active)) = 0 := by
    rw [countP_eq_zero]
    intro m hm
    obtain ⟨n, -, rfl⟩ := mem_map.1 hm
    simp [guest]
  exact countP_cons_of_pos rfl |>.trans (congrArg (· + 1) hguests)

/-- The join by a link counts an invited member as an active one, and it outgrows the limit of a group with invited
members, of which the stored count knows nothing. -/
theorem link_outgrows_limit :
    (Within (pair .invited 1) ∧ ∃ w, run step (World.start (pair .invited 1) 0) [.join "303" "101"] = some w ∧
      w.group.memberCount = 3 ∧ w.group.members.activeCount = 2) ∧
    Within fullGroup ∧ ∃ w, run step (World.start fullGroup 0) [.join "303" "101"] = some w ∧
      w.group.members.liveTotal = 201 := by
  refine ⟨⟨by decide, _, rfl, rfl, rfl⟩, ⟨fullGroup_liveTotal.le, fullGroup_activeCount.symm⟩, ?_⟩
  have hnew : fullGroup.members.find "303" = none := by
    refine List.find?_eq_none.2 fun m hm => ?_
    rcases mem_cons.1 hm with rfl | hm
    · decide
    · obtain ⟨n, -, rfl⟩ := mem_map.1 hm
      have hne : (guest n).userId ≠ "303" := guest_userId_ne (by decide)
      simpa using hne
  have hjoinable : Joinable fullGroup "303" := ⟨rfl, by decide, fun m hm => by rw [hnew] at hm; cases hm⟩
  obtain ⟨row, g', hadmit⟩ := admitMember_of_joinable "101" hjoinable
  obtain ⟨⟨m, hid, hstate, hmembers⟩, -⟩ := (admitMember_joined hadmit).2
  refine ⟨⟨g', [], fun _ => none, 0, memberEvents fullGroup g' ["303"] ++ []⟩, ?_, ?_⟩
  · simp only [run, step, World.start, hadmit]
    rfl
  · rw [← hid] at hnew
    have hput := countP_put_new (fun m => decide (m.state ∈ live)) hnew
    have hfull := fullGroup_liveTotal
    rw [hmembers]
    unfold Members.liveTotal at hfull ⊢
    rw [hput, hfull, if_pos (by rw [hstate]; decide)]

end SC.Proof.Chat.Groups
