import SoundCloudBackend.Proof.Chat.GroupSteps

/-!
# Key epochs

No step lowers the key epoch, nor the last epoch that is closed to sends, and a
message is stored in an epoch that is open. A user who is admitted while the
history is hidden reads from the next epoch on, and the current one is closed at
once by the mark for a new key: the messages before the join are in earlier epochs,
those after it in no earlier one.
-/

namespace SC.Proof.Chat.Groups

open Impl.Chat.Groups
open List

variable {g g' : Group} {w w' : World} {a : Action}
variable {row : Message} {ms : Members} {user : String} {access : Access} {call : Call} {users : List String}

/-! ## Epochs only grow -/

theorem closedEpoch_le (g : Group) : g.closedEpoch ≤ g.keyEpoch := by
  unfold Group.closedEpoch
  split <;> omega

theorem le_closedEpoch (g : Group) : g.keyEpoch - 1 ≤ g.closedEpoch := by
  unfold Group.closedEpoch
  split <;> omega

theorem closedEpoch_of_rekey (h : g.deleted = true ∨ g.rekey = true) : g.closedEpoch = g.keyEpoch := if_pos h

theorem Follows.closedEpoch (h : Follows g g') : g.closedEpoch ≤ g'.closedEpoch := by
  by_cases hclosed : g.deleted = true ∨ g.rekey = true
  · have hclosed' : g'.deleted = true ∨ g'.rekey = true := hclosed.imp h.deleted h.rekey
    rw [closedEpoch_of_rekey hclosed, closedEpoch_of_rekey hclosed', h.keyEpoch]
  · have heq : g.closedEpoch = g.keyEpoch - 1 := if_neg hclosed
    rw [heq, ← h.keyEpoch]
    exact le_closedEpoch g'

theorem Turn.keyEpoch (h : Turn g g') : g.keyEpoch ≤ g'.keyEpoch := by
  cases h with
  | wrote _ hfollows _ _ => exact hfollows.keyEpoch.ge
  | keyed _ _ => exact Int.le_refl _
  | rotated _ _ _ _ =>
    dsimp only [Group.advanceEpoch]
    omega

theorem Turn.closedEpoch (h : Turn g g') : g.closedEpoch ≤ g'.closedEpoch := by
  cases h with
  | wrote _ hfollows _ _ => exact hfollows.closedEpoch
  | keyed _ _ => exact Int.le_refl _
  | rotated keys now _ _ =>
    have hafter := le_closedEpoch (Group.advanceEpoch now { g with keys := keys })
    have hbefore := closedEpoch_le g
    dsimp only [Group.advanceEpoch] at hafter ⊢
    omega

theorem Stored.open (h : Stored g row g') : g.closedEpoch < row.epoch := by
  have heq : g.closedEpoch = g.keyEpoch - 1 := if_neg (by simp [h.deleted, h.rekey])
  rw [heq, h.epoch]
  omega

/-- What a step does to the conversation: the epochs grow, and the messages are followed by rows in their order. -/
structure Grows (g g' : Group) : Prop where
  keyEpoch : g.keyEpoch ≤ g'.keyEpoch
  closedEpoch : g.closedEpoch ≤ g'.closedEpoch
  lastSeq : g.lastSeq ≤ g'.lastSeq
  messages : ∀ row ∈ g'.messages, row.messageClass ≠ .system → row ∈ g.messages ∨
    g.lastSeq < row.seq ∧ row.seq ≤ g'.lastSeq ∧ g.closedEpoch < row.epoch ∧ row.epoch ≤ g'.keyEpoch

theorem Follows.grows (h : Follows g g') : Grows g g' := by
  refine ⟨h.keyEpoch.ge, h.closedEpoch, h.lastSeq, fun row hrow hclass => ?_⟩
  obtain ⟨rows, hrows, hsystem⟩ := h.messages
  rw [hrows] at hrow
  exact .inl ((mem_append.1 hrow).resolve_right fun hnew => hclass (hsystem row hnew))

theorem Turn.grows (h : Turn g g') : Grows g g' := by
  refine ⟨h.keyEpoch, h.closedEpoch, ?_, ?_⟩
  · cases h with
    | wrote _ hfollows _ _ => exact hfollows.lastSeq
    | keyed _ _ | rotated _ _ _ _ => exact Int.le_refl _
  · cases h with
    | wrote _ hfollows _ _ => exact hfollows.grows.messages
    | keyed _ _ | rotated _ _ _ _ => exact fun row hrow _ => .inl hrow

theorem Stored.grows (h : Stored g row g') : Grows g g' := by
  obtain ⟨hdeleted, hrekey, hseq, hepoch, rfl⟩ := h
  refine ⟨Int.le_refl _, Int.le_refl _, ?_, fun message hmessage _ => ?_⟩
  · dsimp only
    omega
  · refine (mem_append.1 hmessage).imp id fun hnew => ?_
    rw [mem_singleton.1 hnew]
    dsimp only
    have hopen := Stored.open ⟨hdeleted, hrekey, hseq, hepoch, rfl⟩
    omega

theorem step_grows (h : step w a = some w') : Grows w.group w'.group := by
  cases step_does h with
  | changed access call change g' hrun heffect => exact heffect.follows.grows
  | joined user createdBy g' hfollows hadmits => exact hfollows.grows
  | sent sender out row g' hstored => exact hstored.grows
  | answered n request access gate floor _ hrequest hgroup hlog => exact hgroup ▸ (Turn.refl w.group).grows
  | turned _ _ hturn hlog => exact hturn.grows

/-! ## Rows of a user who is not admitted again -/

def KeepsJoins (ms ms' : Members) : Prop :=
  ∀ user m, ms.find user = some m →
    ∃ m', ms'.find user = some m' ∧ m'.joinedSeq = m.joinedSeq ∧ m'.joinedEpoch = m.joinedEpoch

theorem KeepsJoins.trans {ms' ms'' : Members} (h : KeepsJoins ms ms') (h' : KeepsJoins ms' ms'') :
    KeepsJoins ms ms'' := fun user m hm => by
  obtain ⟨m', hm', hseq, hepoch⟩ := h user m hm
  obtain ⟨m'', hm'', hseq', hepoch'⟩ := h' user m' hm'
  exact ⟨m'', hm'', hseq'.trans hseq, hepoch'.trans hepoch⟩

theorem KeepsJoins.put {old : Member} (hold : ms.find user = some old) (role : MemberRole)
    (state : MemberState) : KeepsJoins ms (ms.put { old with role := role, state := state }) := fun other m hm => by
  have huser := userId_of_find hold
  by_cases hother : other = user
  · subst hother
    rw [hold] at hm
    cases hm
    refine ⟨{ old with role := role, state := state }, ?_, rfl, rfl⟩
    rw [← huser]
    exact find_put_self ms { old with role := role, state := state }
  · have hne : other ≠ old.userId := huser ▸ hother
    exact ⟨m, by rw [find_put_of_ne ms (m := { old with role := role, state := state }) hne]; exact hm, rfl, rfl⟩

theorem Effect.keepsJoins (h : Effect access g call users g')
    (huser : user ∉ users) {m : Member} (hm : g.members.find user = some m) :
    ∃ m', g'.members.find user = some m' ∧ m'.joinedSeq = m.joinedSeq ∧ m'.joinedEpoch = m.joinedEpoch := by
  cases h with
  | same _ => exact ⟨m, hm, rfl, rfl⟩
  | left o _ ho _ _ hmembers _ => exact hmembers ▸ KeepsJoins.put ho _ _ user m hm
  | handedOver o heir _ ho _ _ hheir _ _ _ hmembers _ =>
    have hleft : KeepsJoins g.members (g.members.put { o with state := .left }) := .put ho _ _
    exact hmembers ▸ hleft.trans (.put hheir _ _) user m hm
  | removed _ _ o _ _ ho _ _ _ hmembers _ => exact hmembers ▸ KeepsJoins.put ho _ _ user m hm
  | unbanned _ o _ ho _ _ hmembers => exact hmembers ▸ KeepsJoins.put ho _ _ user m hm
  | promoted target o heir _ ho _ _ hne hheir _ _ hmembers =>
    have hdown : KeepsJoins g.members (g.members.put { o with role := .admin }) := .put ho _ _
    have hother : target ≠ o.userId := (userId_of_find ho).symm ▸ hne
    rw [← find_put_of_ne g.members (m := { o with role := .admin }) hother] at hheir
    exact hmembers ▸ hdown.trans (.put hheir _ _) user m hm
  | ranked _ _ o _ _ _ _ _ _ ho _ _ hmembers => exact hmembers ▸ KeepsJoins.put ho _ _ user m hm
  | accepted o _ ho _ _ hmembers | declined o _ _ ho _ _ hmembers => exact hmembers ▸ KeepsJoins.put ho _ _ user m hm
  | added _ _ _ _ hadmits => exact ⟨m, (hadmits.others user huser).trans hm, rfl, rfl⟩

theorem Effect.admits (h : Effect access g call users g') (huser : user ∈ users) : Admits g g' users := by
  cases h with
  | added _ _ _ _ hadmits => exact hadmits
  | _ => cases huser

/-! ## Hidden history -/

/-- Whether the history was hidden when the user was last admitted by `add` or an invite link. -/
def lastAdmitted (log : List Event) (user : String) : Option Bool :=
  log.findSome? fun
    | .admitted admitted hidden => if admitted = user then some hidden else none
    | _ => none

theorem lastAdmitted_memberEvents (g g' : Group) (users : List String) (log : List Event) (user : String) :
    lastAdmitted (memberEvents g g' users ++ log) user =
      if user ∈ users then some (!g.historyVisible) else lastAdmitted log user := by
  unfold lastAdmitted memberEvents
  rw [append_assoc, List.findSome?_append, List.findSome?_append]
  have hremoved : ((removedUsers g.members g'.members).map fun user => Event.removed user g'.closedEpoch).findSome?
      (fun | .admitted admitted hidden => if admitted = user then some hidden else none | _ => none) = none := by
    rw [List.findSome?_eq_none_iff]
    intro event hevent
    obtain ⟨removed, -, rfl⟩ := mem_map.1 hevent
    rfl
  rw [hremoved, Option.none_or]
  have hadmitted : (users.map fun user => Event.admitted user (!g.historyVisible)).findSome?
      (fun | .admitted admitted hidden => if admitted = user then some hidden else none | _ => none) =
        if user ∈ users then some (!g.historyVisible) else none := by
    induction users with
    | nil => rfl
    | cons first rest ih =>
      rw [map_cons, List.findSome?_cons, ih]
      by_cases hfirst : first = user
      · simp [hfirst]
      · simp [hfirst, Ne.symm hfirst]
  rw [hadmitted]
  split <;> rfl

/-- The join of a member cuts the messages: those before it are in earlier epochs, those after it are not. -/
structure Cut (g : Group) (m : Member) : Prop where
  joinedSeq : m.joinedSeq ≤ g.lastSeq
  closed : m.joinedEpoch - 1 ≤ g.closedEpoch
  messages : ∀ row ∈ g.messages, row.messageClass ≠ .system →
    (row.seq ≤ m.joinedSeq → row.epoch < m.joinedEpoch) ∧ (m.joinedSeq < row.seq → m.joinedEpoch ≤ row.epoch)

theorem Cut.grows {m m' : Member} (h : Cut g m) (hgrows : Grows g g') (hseq : m'.joinedSeq = m.joinedSeq)
    (hepoch : m'.joinedEpoch = m.joinedEpoch) : Cut g' m' := by
  have hjoined := h.joinedSeq
  have hclosed := h.closed
  have hlast := hgrows.lastSeq
  have hgrown := hgrows.closedEpoch
  refine ⟨by omega, by omega, fun row hrow hclass => ?_⟩
  rcases hgrows.messages row hrow hclass with hold | hnew
  · have hrow := h.messages row hold hclass
    rw [hseq, hepoch]
    exact hrow
  · omega

/-- The messages of members are in the order of the group, and the join of a hidden admission cuts them. -/
structure Hides (w : World) : Prop where
  messages : ∀ row ∈ w.group.messages, row.messageClass ≠ .system →
    row.seq ≤ w.group.lastSeq ∧ row.epoch ≤ w.group.keyEpoch
  cut : w.group.keyEpoch < i32Max → ∀ user, lastAdmitted w.log user = some true →
    ∃ m, w.group.members.find user = some m ∧ Cut w.group m

theorem Admits.cut (hadmits : Admits g g' users) (hfollows : Follows g g')
    (hmessages : ∀ row ∈ g.messages, row.messageClass ≠ .system → row.seq ≤ g.lastSeq ∧ row.epoch ≤ g.keyEpoch)
    (hmax : g.keyEpoch < i32Max) (hhidden : g.historyVisible = false) (huser : user ∈ users) :
    ∃ m, g'.members.find user = some m ∧ Cut g' m := by
  obtain ⟨m, hm, -, -, hseq, hepoch⟩ := hadmits.joined user huser
  have hnext : g.joinedEpoch = g.keyEpoch + 1 := by
    unfold Group.joinedEpoch saturatingSucc
    rw [if_neg (by simp [hhidden])]
    omega
  have hclosed := closedEpoch_of_rekey (.inr (hadmits.hidden hhidden))
  have hkey := hfollows.keyEpoch
  refine ⟨m, hm, hseq.trans_le hfollows.lastSeq, by omega, fun row hrow hclass => ?_⟩
  obtain ⟨rows, hrows, hsystem⟩ := hfollows.messages
  rw [hrows] at hrow
  have hold := (mem_append.1 hrow).resolve_right fun hnew => hclass (hsystem row hnew)
  have hbefore := hmessages row hold hclass
  omega

theorem Grows.messages_le (hgrows : Grows g g')
    (h : ∀ row ∈ g.messages, row.messageClass ≠ .system → row.seq ≤ g.lastSeq ∧ row.epoch ≤ g.keyEpoch) :
    ∀ row ∈ g'.messages, row.messageClass ≠ .system → row.seq ≤ g'.lastSeq ∧ row.epoch ≤ g'.keyEpoch := by
  intro row hrow hclass
  have hlast := hgrows.lastSeq
  have hkey := hgrows.keyEpoch
  rcases hgrows.messages row hrow hclass with hold | hnew
  · have hrow := h row hold hclass
    omega
  · omega

theorem hides_step (hhides : Hides w) (h : step w a = some w') : Hides w' := by
  have hgrows := step_grows h
  refine ⟨hgrows.messages_le hhides.messages, fun hmax user huser => ?_⟩
  have hbelow := Int.lt_of_le_of_lt hgrows.keyEpoch hmax
  -- a user who is not admitted by this step keeps the join
  have hkept (hbefore : lastAdmitted w.log user = some true)
      (hrow : ∀ m, w.group.members.find user = some m → ∃ m', w'.group.members.find user = some m' ∧
        m'.joinedSeq = m.joinedSeq ∧ m'.joinedEpoch = m.joinedEpoch) :
      ∃ m, w'.group.members.find user = some m ∧ Cut w'.group m := by
    obtain ⟨m, hm, hcut⟩ := hhides.cut hbelow user hbefore
    obtain ⟨m', hm', hseq, hepoch⟩ := hrow m hm
    exact ⟨m', hm', hcut.grows hgrows hseq hepoch⟩
  cases step_does h with
  | changed access call change g' hrun heffect =>
    rw [lastAdmitted_memberEvents] at huser
    split at huser
    · rename_i hadded
      exact (heffect.admits hadded).cut heffect.follows hhides.messages hbelow (by simpa using huser) hadded
    · rename_i hadded
      exact hkept huser fun m hm => heffect.keepsJoins hadded hm
  | joined joining createdBy g' hfollows hadmits =>
    rw [lastAdmitted_memberEvents] at huser
    split at huser
    · rename_i hadded
      exact hadmits.cut hfollows hhides.messages hbelow (by simpa using huser) hadded
    · rename_i hadded
      exact hkept huser fun m hm => ⟨m, (hadmits.others user hadded).trans hm, rfl, rfl⟩
  | sent sender out row g' hstored => exact hkept huser fun m hm => ⟨m, hstored.after ▸ hm, rfl, rfl⟩
  | answered n request access gate floor _ hrequest hgroup hlog =>
    rw [hlog] at huser
    exact hkept huser fun m hm => ⟨m, hgroup ▸ hm, rfl, rfl⟩
  | turned _ _ hturn hlog =>
    rw [hlog] at huser
    exact hkept huser fun m hm => ⟨m, hturn.members ▸ hm, rfl, rfl⟩

theorem group_messages {placed : List (String × MemberState)} {now : Int}
    (h : Group.group user placed now = .ok g) : ∀ row ∈ g.messages, row.messageClass = .system := by
  obtain ⟨⟨members, _⟩, -, h⟩ := bind_eq_ok h
  obtain ⟨⟨row, g₁⟩, hsystem, h⟩ := bind_eq_ok h
  cases h
  obtain ⟨rows, hrows, hclass⟩ := (insertSystem_eq_ok hsystem).1.messages
  rw [show g₁.recount.messages = rows from hrows]
  exact hclass

/-- In every state that a group can reach below the greatest epoch, the join of a user who was last admitted while the
history was hidden cuts the messages exactly, and the key epoch never decreases. -/
theorem hidden_history_is_cut {creator : String} {placed : List (String × MemberState)} {now clock : Int}
    {as : List Action} (hgroup : Group.group creator placed now = .ok g)
    (hrun : run step (World.start g clock) as = some w) (hmax : w.group.keyEpoch < i32Max) :
    (∀ user, lastAdmitted w.log user = some true → ∃ m, w.group.members.find user = some m ∧
      ∀ row ∈ w.group.messages, row.messageClass ≠ .system →
        (row.seq ≤ m.joinedSeq → row.epoch < m.joinedEpoch) ∧ (m.joinedSeq < row.seq → m.joinedEpoch ≤ row.epoch)) ∧
    ∀ as' w', run step w as' = some w' → w.group.keyEpoch ≤ w'.group.keyEpoch := by
  have hstart : Hides (World.start g clock) :=
    ⟨fun row hrow hclass => absurd (group_messages hgroup row hrow) hclass, nofun⟩
  have hhides := run_invariant hides_step hstart hrun
  refine ⟨fun user huser => ?_, fun as' w' hrun' => ?_⟩
  · obtain ⟨m, hm, hcut⟩ := hhides.cut hmax user huser
    exact ⟨m, hm, hcut.messages⟩
  · exact run_invariant (I := fun w' => w.group.keyEpoch ≤ w'.group.keyEpoch)
      (fun hle hstep => Int.le_trans hle (step_grows hstep).keyEpoch) (Int.le_refl _) hrun'

/-- A member is added while the history is hidden, between two messages. -/
def addedWhileHidden : List Action :=
  [.setHistory false, .ensureCurrent, .send "101" ⟨7, .post, 0, post_not_system⟩, .read "101",
    .run ⟨"101", .group, .owner, .active, ["101", "202"]⟩ (.add [("303", .active)]), .ensureCurrent,
    .send "101" ⟨8, .post, 1, post_not_system⟩]

theorem hidden_history_is_cut_added : ∃ w m, run step (World.start (pair .active 2) 0) addedWhileHidden = some w ∧
      w.log = [.stored ⟨4, some 8, "101", .post, 1, none⟩, .admitted "303" true,
        .stored ⟨2, some 7, "101", .post, 0, none⟩] ∧
      w.group.members.find "303" = some m ∧ ∀ row ∈ w.group.messages, row.messageClass ≠ .system →
        (row.seq ≤ m.joinedSeq → row.epoch < m.joinedEpoch) ∧ (m.joinedSeq < row.seq → m.joinedEpoch ≤ row.epoch) := by
  have hend : (run step (World.start (pair .active 2) 0) addedWhileHidden).map (fun w => (w.group.keyEpoch, w.log)) =
      some (1, [.stored ⟨4, some 8, "101", .post, 1, none⟩, .admitted "303" true,
        .stored ⟨2, some 7, "101", .post, 0, none⟩]) := by decide
  obtain ⟨w, hw, hend⟩ := Option.map_eq_some_iff.1 hend
  rw [Prod.mk.injEq] at hend
  have hmax : w.group.keyEpoch < i32Max := by
    rw [hend.1]
    decide
  obtain ⟨m, hm, hcut⟩ := (hidden_history_is_cut group_pair_active hw hmax).1 "303" (by rw [hend.2]; rfl)
  exact ⟨w, m, hw, hend.2, hm, hcut⟩

end SC.Proof.Chat.Groups
