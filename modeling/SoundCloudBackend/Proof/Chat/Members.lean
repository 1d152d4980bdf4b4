import SoundCloudBackend.Framework.Run
import SoundCloudBackend.Impl.Chat.Epochs

/-!
# What a member change does

`Effect` lists what the transaction of each member change can do to the rows of
the group, and `effect_of_run` says that it does one of these. The owners, the
epochs and the hidden history are followed through a change by its effect only.
-/

namespace SC.Proof.Chat.Groups

open Impl.Chat.Groups
open List Option

variable {m : Member} {user target : String} {ms : Members} {role : MemberRole}
variable {leaving : String} {event : SystemEvent} {row : Message} {state : MemberState} {from_ : List MemberState}
variable {js : List Members.Joining} {joined : List Member}

/-! ## The table of members -/

theorem find?_replace (rows : List Member) (m : Member) (user : String) :
    (rows.map fun row => if row.userId = m.userId then m else row).find? (fun row => row.userId = user) =
      if user = m.userId then (rows.find? fun row => row.userId = user).map fun _ => m
      else rows.find? fun row => row.userId = user := by
  induction rows with
  | nil => split <;> rfl
  | cons first rest ih =>
    rw [map_cons, List.find?_cons, List.find?_cons, ih]
    by_cases hfirst : first.userId = m.userId <;> by_cases huser : user = m.userId
    · simp [hfirst, huser]
    · simp [hfirst, huser, Ne.symm huser]
    · simp [hfirst, huser]
    · simp [hfirst, huser]

theorem find_put_self (ms : Members) (m : Member) : (ms.put m).find m.userId = some m := by
  unfold Members.find Members.put
  dsimp only
  by_cases hm : m.userId ∈ ms.rows.map Member.userId
  · rw [if_pos hm, find?_replace, if_pos rfl]
    obtain ⟨row, hrow, hid⟩ := mem_map.1 hm
    have hsome : (ms.rows.find? fun row => row.userId = m.userId).isSome :=
      List.find?_isSome.2 ⟨row, hrow, decide_eq_true hid⟩
    obtain ⟨found, hfound⟩ := isSome_iff_exists.1 hsome
    rw [hfound]
    rfl
  · rw [if_neg hm]
    have hnone : ms.rows.find? (fun row => row.userId = m.userId) = none :=
      List.find?_eq_none.2 fun row hrow => by
        simpa using fun hid => hm (mem_map.2 ⟨row, hrow, hid⟩)
    rw [List.find?_append, hnone]
    simp

theorem find_put_of_ne (ms : Members) (h : user ≠ m.userId) : (ms.put m).find user = ms.find user := by
  unfold Members.find Members.put
  split
  · rw [find?_replace, if_neg h]
  · have hnone : ([m].find? fun row => row.userId = user) = none := by simp [h.symm]
    rw [List.find?_append, hnone, or_none]

theorem userId_of_find (h : ms.find user = some m) : m.userId = user := by
  simpa using List.find?_some h

theorem mem_of_find (h : ms.find user = some m) : m ∈ ms.rows :=
  mem_of_find?_eq_some h

theorem find_of_mem (h : m ∈ ms.rows) : ms.find m.userId = some m := by
  obtain ⟨rows, hnodup⟩ := ms
  unfold Members.find
  induction rows with
  | nil => cases h
  | cons first rest ih =>
    rw [map_cons, nodup_cons] at hnodup
    rcases mem_cons.1 h with rfl | hrest
    · simp
    · have hne : first.userId ≠ m.userId := fun heq => hnodup.1 (mem_map.2 ⟨m, hrest, heq.symm⟩)
      simpa [hne] using ih hnodup.2 hrest

theorem find_put {r : Member} :
    (ms.put m).find user = some r ↔ user = m.userId ∧ r = m ∨ user ≠ m.userId ∧ ms.find user = some r := by
  by_cases h : user = m.userId
  · subst h
    rw [find_put_self]
    simp [eq_comm]
  · rw [find_put_of_ne ms h]
    simp [h]

theorem successor_spec {heir : String} (h : ms.successor leaving = some heir) :
    heir ≠ leaving ∧ ∃ m, ms.find heir = some m ∧ m.state = .active := by
  obtain ⟨m, hm, rfl⟩ := map_eq_some_iff.1 h
  have hmem := (perm_insertionSort _ _).subset (mem_of_mem_head? hm)
  obtain ⟨hrow, hm⟩ := mem_filter.1 hmem
  have hm := of_decide_eq_true hm
  exact ⟨hm.2, m, find_of_mem hrow, hm.1⟩

theorem successor_isSome (h : m ∈ ms.rows) (hactive : m.state = .active)
    (hne : m.userId ≠ leaving) : (ms.successor leaving).isSome := by
  unfold Members.successor
  rw [isSome_map, isSome_head?]
  have hmem : m ∈ (ms.rows.filter fun m => m.state = .active ∧ m.userId ≠ leaving).insertionSort
      fun a b => Members.precedes a b :=
    (perm_insertionSort _ _).symm.subset (mem_filter.2 ⟨h, decide_eq_true ⟨hactive, hne⟩⟩)
  simpa using ne_nil_of_mem hmem

theorem left_not_live : MemberState.left ∉ live := by decide

/-! ## Effects -/

/-- What every member change keeps of the conversation. -/
structure Follows (g g' : Group) : Prop where
  deleted : g.deleted = true → g'.deleted = true
  keyEpoch : g'.keyEpoch = g.keyEpoch
  rekey : g.rekey = true → g'.rekey = true
  lastSeq : g.lastSeq ≤ g'.lastSeq
  keys : g'.keys ⊆ g.keys
  messages : ∃ rows, g'.messages = g.messages ++ rows ∧ ∀ row ∈ rows, row.messageClass = .system

theorem Follows.refl (g : Group) : Follows g g :=
  ⟨fun h => h, rfl, fun h => h, Int.le_refl _, List.Subset.refl _, [], (append_nil _).symm, nofun⟩

theorem Follows.trans {g g' g'' : Group} (h : Follows g g') (h' : Follows g' g'') : Follows g g'' where
  deleted := fun hd => h'.deleted (h.deleted hd)
  keyEpoch := h'.keyEpoch.trans h.keyEpoch
  rekey := fun hr => h'.rekey (h.rekey hr)
  lastSeq := Int.le_trans h.lastSeq h'.lastSeq
  keys := List.Subset.trans h'.keys h.keys
  messages := by
    obtain ⟨rows, hrows, hsystem⟩ := h.messages
    obtain ⟨rows', hrows', hsystem'⟩ := h'.messages
    refine ⟨rows ++ rows', by rw [hrows', hrows, append_assoc], fun row hrow => ?_⟩
    exact (mem_append.1 hrow).elim (hsystem row) (hsystem' row)

theorem follows_members (g : Group) (members : Members) (count : Nat) :
    Follows g { g with members := members, memberCount := count } :=
  ⟨fun h => h, rfl, fun h => h, Int.le_refl _, List.Subset.refl _, [], (append_nil _).symm, nofun⟩

theorem markRekey_eq {g : Group} (h : g.deleted = false) : g.markRekey = { g with rekey := true } := by
  unfold Group.markRekey
  rw [if_neg (by simp [h])]

theorem follows_rekey (g : Group) : Follows g { g with rekey := true } :=
  ⟨fun h => h, rfl, fun _ => rfl, Int.le_refl _, List.Subset.refl _, [], (append_nil _).symm, nofun⟩

theorem insertSystem_eq_ok {g g' : Group} (h : g.insertSystem event = .ok (row, g')) :
    Follows g g' ∧ g'.members = g.members ∧ g'.rekey = g.rekey ∧ g'.deleted = g.deleted ∧
      g'.historyVisible = g.historyVisible := by
  unfold Group.insertSystem at h
  split_ifs at h
  cases h
  refine ⟨⟨fun h => h, rfl, fun h => h, ?_, List.Subset.refl _, [_], rfl, fun row hrow => ?_⟩, rfl, rfl, rfl, rfl⟩
  · dsimp only
    omega
  · rw [mem_singleton.1 hrow]

theorem insertSystem_exists {g : Group} (h : g.deleted = false) (event : SystemEvent) :
    ∃ result, g.insertSystem event = .ok result := by
  unfold Group.insertSystem
  rw [if_neg (by simp [h])]
  exact ⟨_, rfl⟩

/-- The users are admitted, the others keep their rows. -/
structure Admits (g g' : Group) (users : List String) : Prop where
  others : ∀ user, user ∉ users → g'.members.find user = g.members.find user
  joined : ∀ user ∈ users, ∃ m, g'.members.find user = some m ∧ m.role = .member ∧ m.state ∈ live ∧
    m.joinedSeq = g.lastSeq ∧ m.joinedEpoch = g.joinedEpoch
  before : ∀ user ∈ users, ∀ m, g.members.find user = some m → m.state ≠ .active
  hidden : g.historyVisible = false → g'.rekey = true

/-- What the transaction of a call does to the group. -/
inductive Effect (access : Access) (g : Group) : Call → List String → Group → Prop
  | same (call : Call) : Effect access g call [] g
  | left (m : Member) (g' : Group) (hm : g.members.find access.userId = some m) (hlive : m.state ∈ live)
    (hfollows : Follows g g') (hmembers : g'.members = g.members.put { m with state := .left })
    (hrest : g'.deleted = true ∨ g'.rekey = true ∧ m.role ≠ .owner) : Effect access g .leave [] g'
  | handedOver (m heir : Member) (g' : Group) (hm : g.members.find access.userId = some m) (hlive : m.state ∈ live)
    (howner : m.role = .owner) (hheir : (g.members.put { m with state := .left }).find heir.userId = some heir)
    (hactive : heir.state = .active) (hne : heir.userId ≠ access.userId) (hfollows : Follows g g')
    (hmembers : g'.members = (g.members.put { m with state := .left }).put { heir with role := .owner })
    (hrekey : g'.rekey = true) : Effect access g .leave [] g'
  | removed (target : String) (ban : Bool) (m : Member) (next : MemberState) (g' : Group)
    (hm : g.members.find target = some m) (hrole : m.role ≠ .owner) (hnext : next ∉ live) (hfollows : Follows g g')
    (hmembers : g'.members = g.members.put { m with state := next })
    (hrekey : m.state ∈ live → g'.rekey = true) : Effect access g (.remove target ban) [] g'
  | unbanned (target : String) (m : Member) (g' : Group) (hm : g.members.find target = some m)
    (hstate : m.state = .banned) (hfollows : Follows g g')
    (hmembers : g'.members = g.members.put { m with state := .left }) : Effect access g (.unban target) [] g'
  | promoted (target : String) (a m : Member) (g' : Group) (ha : g.members.find access.userId = some a)
    (howner : a.role = .owner) (hactive : a.state = .active) (hne : target ≠ access.userId)
    (hm : g.members.find target = some m) (hstate : m.state = .active) (hfollows : Follows g g')
    (hmembers : g'.members = (g.members.put { a with role := .admin }).put { m with role := .owner }) :
    Effect access g (.setRole target .owner) [] g'
  | ranked (target : String) (role : MemberRole) (m : Member) (g' : Group) (hactor : access.isActor = true)
    (howner : access.role = .owner) (hne : target ≠ access.userId) (hrole : role ≠ .owner) (hdeleted : g.deleted = false)
    (hm : g.members.find target = some m) (hstate : m.state = .active) (hfollows : Follows g g')
    (hmembers : g'.members = g.members.put { m with role := role }) : Effect access g (.setRole target role) [] g'
  | accepted (m : Member) (g' : Group) (hm : g.members.find access.userId = some m) (hstate : m.state = .invited)
    (hfollows : Follows g g') (hmembers : g'.members = g.members.put { m with state := .active }) :
    Effect access g .accept [] g'
  | declined (m : Member) (g' : Group) (hdeleted : g.deleted = false) (hm : g.members.find access.userId = some m)
    (hstate : m.state = .invited) (hfollows : Follows g g') (hmembers : g'.members = g.members.put { m with state := .left }) :
    Effect access g .decline [] g'
  | added (placed : List (String × MemberState)) (users : List String) (g' : Group) (hfollows : Follows g g')
    (hadmits : Admits g g' users) : Effect access g (.add placed) users g'

/-! ## Statements -/

section Statements

variable {ms ms' : Members} {user : String}

theorem setState_eq_some (h : ms.setState user state from_ = some (role, ms')) :
    ∃ m, ms.find user = some m ∧ m.state ∈ from_ ∧ role = m.role ∧ ms' = ms.put { m with state := state } := by
  obtain ⟨m, hm, h⟩ := bind_eq_some_iff.1 h
  split_ifs at h with hstate
  cases h
  exact ⟨m, hm, hstate, rfl, rfl⟩

theorem activate_eq_some (h : ms.activate user from_ = some ms') :
    ∃ m, ms.find user = some m ∧ m.state ∈ from_ ∧ ms' = ms.put { m with state := .active } := by
  obtain ⟨m, hm, h⟩ := bind_eq_some_iff.1 h
  split_ifs at h with hstate
  cases h
  exact ⟨m, hm, hstate, rfl⟩

theorem setRole_eq_some (h : ms.setRole user role = some ms') :
    ∃ m, ms.find user = some m ∧ m.state = .active ∧ ms' = ms.put { m with role := role } := by
  obtain ⟨m, hm, h⟩ := bind_eq_some_iff.1 h
  split_ifs at h with hstate
  cases h
  exact ⟨m, hm, hstate, rfl⟩

theorem stepDown_eq_some (h : ms.stepDown user = some ms') :
    ∃ m, ms.find user = some m ∧ m.role = .owner ∧ m.state = .active ∧ ms' = ms.put { m with role := .admin } := by
  obtain ⟨m, hm, h⟩ := bind_eq_some_iff.1 h
  split_ifs at h with hstate
  cases h
  exact ⟨m, hm, hstate.1, hstate.2, rfl⟩

end Statements

/-! ## Calls -/

section Calls

variable {access : Access} {g g' : Group} {change : Impl.Chat.Groups.Change}

theorem handOver_eq_ok {rows : List Message} (hm : m ∈ g.members.rows) (hactive : m.state = .active)
    (hne : m.userId ≠ access.userId) (h : Group.handOver access g = .ok (rows, g')) :
    ∃ heir, g.members.find heir.userId = some heir ∧ heir.state = .active ∧ heir.userId ≠ access.userId ∧
      Follows g g' ∧ g'.members = g.members.put { heir with role := .owner } ∧ g'.deleted = g.deleted := by
  obtain ⟨user, hsuccessor⟩ := isSome_iff_exists.1 (successor_isSome hm hactive hne)
  obtain ⟨hother, heir, hheir, hstate⟩ := successor_spec hsuccessor
  unfold Group.handOver at h
  rw [hsuccessor] at h
  obtain ⟨⟨row, g₁⟩, hsystem, h⟩ := bind_eq_ok h
  cases h
  have hrole : (g.members.setRole user .owner).getD g.members = g.members.put { heir with role := .owner } := by
    unfold Members.setRole
    rw [hheir, bind_some, if_pos hstate]
    rfl
  rw [hrole] at hsystem
  obtain ⟨hfollows, hmembers, -, hdeleted, -⟩ := insertSystem_eq_ok hsystem
  have huser := userId_of_find hheir
  refine ⟨heir, by rw [huser]; exact hheir, hstate, by rw [huser]; exact hother, ?_, hmembers, hdeleted⟩
  exact (follows_members g _ g.memberCount).trans hfollows

theorem shred_eq (h : g.deleted = false) : g.shred = (true, { g with deleted := true, keys := [] }) := by
  unfold Group.shred
  rw [if_neg (by simp [h])]

theorem follows_shred (g : Group) : Follows g { g with deleted := true, keys := [] } :=
  ⟨fun _ => rfl, rfl, fun h => h, Int.le_refl _, nil_subset _, [], (append_nil _).symm, nofun⟩

theorem follows_recount (g : Group) : Follows g g.recount := follows_members g g.members g.members.activeCount

/-- The rest of `leave`: the group is deleted, or it is marked and an owner who left has an heir. -/
theorem departed_eq_ok {change' : Impl.Chat.Groups.Change} (hdeleted : g.deleted = false)
    (hothers : ∀ m ∈ g.members.rows, m.state = .active → m.userId ≠ access.userId)
    (h : Group.departed access role change g = .ok (change', g')) : change'.added = change.added ∧ Follows g g' ∧
      (g'.members = g.members ∧ (g'.deleted = true ∨ g'.rekey = true ∧ role ≠ .owner) ∨
        role = .owner ∧ g'.rekey = true ∧ ∃ heir, g.members.find heir.userId = some heir ∧ heir.state = .active ∧
          heir.userId ≠ access.userId ∧ g'.members = g.members.put { heir with role := .owner }) := by
  unfold Group.departed at h
  split at h
  · rw [shred_eq (g := g.recount) hdeleted] at h
    cases h
    exact ⟨rfl, (follows_recount g).trans (follows_shred g.recount), .inl ⟨rfl, .inl rfl⟩⟩
  · rename_i hcount
    obtain ⟨⟨rows, g₁⟩, hhand, h⟩ := bind_eq_ok h
    obtain ⟨⟨row, g₂⟩, hsystem, h⟩ := bind_eq_ok h
    cases h
    obtain ⟨other, hother, hactive⟩ := countP_pos_iff.1 (Nat.pos_of_ne_zero hcount)
    have hactive := of_decide_eq_true hactive
    split at hhand
    · rename_i howner
      obtain ⟨heir, hheir, hstate, hne, hfollows, hmembers, hdel⟩ :=
        handOver_eq_ok (g := g.recount) hother hactive (hothers other hother hactive) hhand
      rw [markRekey_eq (hdel.trans hdeleted)] at hsystem
      obtain ⟨hfollows', hmembers', hrekey, -, -⟩ := insertSystem_eq_ok hsystem
      refine ⟨rfl, ?_, .inr ⟨howner, hrekey, heir, hheir, hstate, hne, hmembers'.trans hmembers⟩⟩
      exact (follows_recount g).trans (hfollows.trans ((follows_rekey g₁).trans hfollows'))
    · rename_i hrole
      cases hhand
      rw [markRekey_eq (g := g.recount) hdeleted] at hsystem
      obtain ⟨hfollows', hmembers', hrekey, -, -⟩ := insertSystem_eq_ok hsystem
      refine ⟨rfl, ?_, .inl ⟨hmembers', .inr ⟨hrekey, hrole⟩⟩⟩
      exact (follows_recount g).trans ((follows_rekey g.recount).trans hfollows')

theorem leave_effect (h : Group.leave access g = .ok (change, g')) :
    change.added = [] ∧ Effect access g .leave [] g' := by
  unfold Group.leave at h
  split at h
  · cases h
  split at h
  · cases h
  rename_i hdeleted
  have hdeleted : g.deleted = false := by simpa using hdeleted
  cases hset : g.members.setState access.userId .left live with
  | none =>
    rw [hset] at h
    cases h
    exact ⟨rfl, .same _⟩
  | some result =>
    obtain ⟨role, members⟩ := result
    obtain ⟨m, hm, hlive, rfl, rfl⟩ := setState_eq_some hset
    rw [hset] at h
    -- the one who leaves is not active any more
    have hothers : ∀ other ∈ (g.members.put { m with state := .left }).rows, other.state = .active →
        other.userId ≠ access.userId := by
      intro other hother hactive heq
      have hfind := find_of_mem hother
      rw [heq, ← userId_of_find hm, find_put_self g.members { m with state := .left }] at hfind
      cases hfind
      cases hactive
    have hstart := follows_members g (g.members.put { m with state := .left }) g.memberCount
    obtain ⟨hadded, hfollows, hcases⟩ :=
      departed_eq_ok (g := { g with members := g.members.put { m with state := .left } }) hdeleted hothers h
    refine ⟨hadded, ?_⟩
    rcases hcases with ⟨hmembers, hrest⟩ | ⟨howner, hrekey, heir, hheir, hactive, hne, hmembers⟩
    · exact .left m g' hm hlive (hstart.trans hfollows) hmembers hrest
    · exact .handedOver m heir g' hm hlive howner hheir hactive hne (hstart.trans hfollows) hmembers hrekey

theorem mayRemove_ne_owner {actor target : MemberRole} (h : mayRemove actor target = true) : target ≠ .owner := by
  cases actor <;> cases target <;> simp_all [mayRemove]

theorem expelled_eq_ok {ban : Bool} (hdeleted : g.deleted = false)
    (h : Group.expelled access target ban state g = .ok (change, g')) :
    change.added = [] ∧ Follows g g' ∧ g'.members = g.members ∧ (state ∈ live → g'.rekey = true) := by
  unfold Group.expelled at h
  obtain ⟨⟨row, g₁⟩, hsystem, h⟩ := bind_eq_ok h
  cases h
  split at hsystem
  · rw [markRekey_eq hdeleted] at hsystem
    obtain ⟨hfollows, hmembers, hrekey, -, -⟩ := insertSystem_eq_ok hsystem
    exact ⟨rfl, (follows_rekey g).trans (hfollows.trans (follows_recount g₁)), hmembers, fun _ => hrekey⟩
  · rename_i hlive
    obtain ⟨hfollows, hmembers, -, -, -⟩ := insertSystem_eq_ok hsystem
    exact ⟨rfl, hfollows.trans (follows_recount g₁), hmembers, fun h => absurd h hlive⟩

theorem remove_effect {ban : Bool} (h : Group.remove access target ban g = .ok (change, g')) :
    change.added = [] ∧ Effect access g (.remove target ban) [] g' := by
  unfold Group.remove at h
  split at h
  · cases h
  split at h
  · cases h
  split at h
  · cases h
  rename_i hdeleted
  have hdeleted : g.deleted = false := by simpa using hdeleted
  cases hm : g.members.find target with
  | none =>
    rw [hm] at h
    cases h
  | some m =>
    rw [hm] at h
    dsimp only at h
    split at h
    · cases h
    rename_i hmay
    cases hset : g.members.setState target (Group.removal ban).1 (Group.removal ban).2 with
    | none =>
      rw [hset] at h
      split_ifs at h
      cases h
      exact ⟨rfl, .same _⟩
    | some result =>
      obtain ⟨role, members⟩ := result
      obtain ⟨m', hm', -, rfl, rfl⟩ := setState_eq_some hset
      obtain rfl : m = m' := some.inj (hm.symm.trans hm')
      rw [hset] at h
      have hnext : (Group.removal ban).1 ∉ live := by cases ban <;> decide
      have hrole := mayRemove_ne_owner (by simpa using hmay)
      have hstart := follows_members g (g.members.put { m with state := (Group.removal ban).1 }) g.memberCount
      obtain ⟨hadded, hfollows, hmembers, hrekey⟩ :=
        expelled_eq_ok (g := { g with members := g.members.put { m with state := (Group.removal ban).1 } }) hdeleted h
      exact ⟨hadded, .removed target ban m _ g' hm hrole hnext (hstart.trans hfollows) hmembers hrekey⟩

theorem unban_effect (h : Group.unban access target g = .ok (change, g')) :
    change.added = [] ∧ Effect access g (.unban target) [] g' := by
  unfold Group.unban at h
  split at h
  · cases h
  cases hset : g.members.setState target .left [.banned] with
  | none =>
    rw [hset] at h
    cases h
    exact ⟨rfl, .same _⟩
  | some result =>
    obtain ⟨role, members⟩ := result
    obtain ⟨m, hm, hstate, -, rfl⟩ := setState_eq_some hset
    rw [hset] at h
    cases h
    exact ⟨rfl, .unbanned target m _ hm (mem_singleton.1 hstate) (follows_members g _ g.memberCount) rfl⟩

theorem rolesSet_eq_ok {ms' : Members} (hne : target ≠ access.userId)
    (h : Group.rolesSet access target role ms = .ok ms') : ∃ m, ms.find target = some m ∧ m.state = .active ∧
      (role ≠ .owner ∧ ms' = ms.put { m with role := role } ∨
        role = .owner ∧ ∃ a, ms.find access.userId = some a ∧ a.role = .owner ∧ a.state = .active ∧
          ms' = (ms.put { a with role := .admin }).put { m with role := .owner }) := by
  unfold Group.rolesSet at h
  split at h
  · rename_i hrole
    subst hrole
    cases hdown : ms.stepDown access.userId with
    | none =>
      rw [hdown] at h
      cases h
    | some ms₁ =>
      rw [hdown] at h
      obtain ⟨a, ha, howner, hactive, rfl⟩ := stepDown_eq_some hdown
      cases hset : (ms.put { a with role := .admin }).setRole target .owner with
      | none =>
        dsimp only at h
        rw [hset] at h
        cases h
      | some ms₂ =>
        dsimp only at h
        rw [hset] at h
        cases h
        obtain ⟨m, hm, hstate, rfl⟩ := setRole_eq_some hset
        have hother : target ≠ a.userId := fun heq => hne (heq.trans (userId_of_find ha))
        rw [find_put_of_ne ms (m := { a with role := .admin }) hother] at hm
        exact ⟨m, hm, hstate, .inr ⟨rfl, a, ha, howner, hactive, rfl⟩⟩
  · rename_i hrole
    cases hset : ms.setRole target role with
    | none =>
      rw [hset] at h
      cases h
    | some ms₁ =>
      rw [hset] at h
      cases h
      obtain ⟨m, hm, hstate, rfl⟩ := setRole_eq_some hset
      exact ⟨m, hm, hstate, .inl ⟨hrole, rfl⟩⟩

theorem setRole_effect (h : Group.setRole access target role g = .ok (change, g')) :
    change.added = [] ∧ Effect access g (.setRole target role) [] g' := by
  unfold Group.setRole at h
  split at h
  · cases h
  rename_i hactor
  split at h
  · cases h
  rename_i hmay
  have hne : target ≠ access.userId := fun heq => hmay (.inr heq)
  split at h
  · cases h
  rename_i hdeleted
  obtain ⟨members, hset, h⟩ := bind_eq_ok h
  obtain ⟨⟨row, g₁⟩, hsystem, h⟩ := bind_eq_ok h
  cases h
  obtain ⟨hsystem, hmembers, -, -, -⟩ := insertSystem_eq_ok hsystem
  have hfollows := (follows_members g members g.memberCount).trans hsystem
  obtain ⟨m, hm, hstate, ⟨hrole, rfl⟩ | ⟨rfl, a, ha, howner, hactive, rfl⟩⟩ := rolesSet_eq_ok hne hset
  · exact ⟨rfl, .ranked target role m _ (by simpa using hactor) (not_not.1 fun h => hmay (.inl h)) hne hrole
      (by simpa using hdeleted) hm hstate hfollows hmembers⟩
  · exact ⟨rfl, .promoted target a m _ ha howner hactive hne hm hstate hfollows hmembers⟩

theorem accept_effect (h : Group.accept access g = .ok (change, g')) :
    change.added = [] ∧ Effect access g .accept [] g' := by
  unfold Group.accept at h
  split at h
  · cases h
  cases hset : g.members.activate access.userId [.invited] with
  | none =>
    rw [hset] at h
    split_ifs at h
    cases h
    exact ⟨rfl, .same _⟩
  | some members =>
    obtain ⟨m, hm, hstate, rfl⟩ := activate_eq_some hset
    rw [hset] at h
    obtain ⟨⟨row, g₁⟩, hsystem, h⟩ := bind_eq_ok h
    cases h
    obtain ⟨hfollows, hmembers, -, -, -⟩ := insertSystem_eq_ok hsystem
    refine ⟨rfl, .accepted m _ hm (mem_singleton.1 hstate) ?_ hmembers⟩
    exact (follows_members g _ g.memberCount).trans (hfollows.trans (follows_recount g₁))

theorem decline_effect (h : Group.decline access g = .ok (change, g')) :
    change.added = [] ∧ Effect access g .decline [] g' := by
  unfold Group.decline at h
  split at h
  · cases h
  rename_i hdeleted
  cases hset : g.members.setState access.userId .left [.invited] with
  | none =>
    rw [hset] at h
    split_ifs at h
    cases h
    exact ⟨rfl, .same _⟩
  | some result =>
    obtain ⟨role, members⟩ := result
    obtain ⟨m, hm, hstate, -, rfl⟩ := setState_eq_some hset
    rw [hset] at h
    cases h
    exact ⟨rfl, .declined m _ (by simpa using hdeleted) hm (mem_singleton.1 hstate)
      (follows_members g _ g.memberCount) rfl⟩

/-- What `join_many.sql` does: the new rows are written, over no row of a live or banned member and not twice. -/
structure Joins (row : Members.Joining → Member) (js : List Members.Joining) (joined : List Member) (ms : Members)
    (new : List Member) (ms' : Members) : Prop where
  others : ∀ user, user ∉ new.map Member.userId → ms'.find user = ms.find user
  fresh : ∀ m ∈ new, m.userId ∉ joined.map Member.userId
  found : ∀ m ∈ new, ms'.find m.userId = some m
  rows : ∀ m ∈ new, ∃ j ∈ js, m = row j
  before : ∀ m ∈ new, ∀ old, ms.find m.userId = some old → old.state ∈ [MemberState.left, .kicked]

theorem Joins.cons {row : Members.Joining → Member} (hrow : ∀ j, (row j).userId = j.userId) {j : Members.Joining}
    {new : List Member} {ms' : Members} (hfirst : j.userId ∉ joined.map Member.userId)
    (hold : ∀ old, ms.find j.userId = some old → old.state ∈ [MemberState.left, .kicked])
    (h : Joins row js (joined ++ [row j]) (ms.put (row j)) new ms') : Joins row (j :: js) joined ms (row j :: new) ms' := by
  have hfresh : ∀ m ∈ new, m.userId ∉ joined.map Member.userId ∧ m.userId ≠ (row j).userId := fun m hm => by
    simpa using h.fresh m hm
  have hself : (row j).userId ∉ new.map Member.userId := fun hmem => by
    obtain ⟨m, hm, hid⟩ := mem_map.1 hmem
    exact (hfresh m hm).2 hid
  refine ⟨fun user huser => ?_, ?_, ?_, ?_, ?_⟩
  · rw [map_cons, mem_cons, not_or] at huser
    rw [h.others user huser.2, find_put_of_ne ms huser.1]
  · exact forall_mem_cons.2 ⟨by rw [hrow]; exact hfirst, fun m hm => (hfresh m hm).1⟩
  · exact forall_mem_cons.2 ⟨(h.others _ hself).trans (find_put_self ms _), h.found⟩
  · refine forall_mem_cons.2 ⟨⟨j, mem_cons_self, rfl⟩, fun m hm => ?_⟩
    obtain ⟨i, hi, hm⟩ := h.rows m hm
    exact ⟨i, mem_cons_of_mem _ hi, hm⟩
  · refine forall_mem_cons.2 ⟨by rw [hrow]; exact hold, fun m hm old hold => ?_⟩
    rw [← find_put_of_ne ms (hfresh m hm).2] at hold
    exact h.before m hm old hold

theorem joinMany_eq_ok {row : Members.Joining → Member} (hrow : ∀ j, (row j).userId = j.userId)
    {ms' : Members} {joined' : List Member} (h : ms.joinMany row joined js = .ok (ms', joined')) :
    ∃ new, joined' = joined ++ new ∧ Joins row js joined ms new ms' := by
  induction js generalizing ms joined with
  | nil =>
    cases h
    refine ⟨[], (append_nil _).symm, fun _ _ => rfl, ?_, ?_, ?_, ?_⟩ <;> exact nofun
  | cons j rest ih =>
    unfold Members.joinMany at h
    split at h
    · cases h
    rename_i hfirst
    have hwrite (hold : ∀ old, ms.find j.userId = some old → old.state ∈ [MemberState.left, .kicked])
        (h : (ms.put (row j)).joinMany row (joined ++ [row j]) rest = .ok (ms', joined')) :
        ∃ new, joined' = joined ++ new ∧ Joins row (j :: rest) joined ms new ms' := by
      obtain ⟨new, hjoined, hjoins⟩ := ih h
      exact ⟨row j :: new, by rw [hjoined, append_assoc]; rfl, hjoins.cons hrow hfirst hold⟩
    cases hfind : ms.find j.userId with
    | none =>
      rw [hfind] at h
      exact hwrite (fun old hold => by rw [hfind] at hold; cases hold) h
    | some old =>
      rw [hfind] at h
      dsimp only at h
      split at h
      · rename_i hstate
        exact hwrite (fun old' hold => by rw [hfind] at hold; cases hold; exact hstate) h
      · obtain ⟨new, hjoined, hjoins⟩ := ih h
        refine ⟨new, hjoined, hjoins.others, hjoins.fresh, hjoins.found, fun m hm => ?_, hjoins.before⟩
        obtain ⟨i, hi, hm⟩ := hjoins.rows m hm
        exact ⟨i, mem_cons_of_mem _ hi, hm⟩

/-- Somebody is admitted to a group that is marked if the history is hidden, and a system row tells it. -/
theorem welcome_eq_ok {members : Members} (hdeleted : g.deleted = false)
    (h : (if g.historyVisible then { g with members := members }
      else ({ g with members := members } : Group).markRekey).insertSystem event = .ok (row, g')) :
    Follows g g' ∧ g'.members = members ∧ (g.historyVisible = false → g'.rekey = true) := by
  have hstart := follows_members g members g.memberCount
  split at h
  · rename_i hvisible
    obtain ⟨hfollows, hmembers, -, -, -⟩ := insertSystem_eq_ok h
    exact ⟨hstart.trans hfollows, hmembers, fun hhidden => by rw [hvisible] at hhidden; cases hhidden⟩
  · rw [markRekey_eq (g := { g with members := members }) hdeleted] at h
    obtain ⟨hfollows, hmembers, hrekey, -, -⟩ := insertSystem_eq_ok h
    exact ⟨hstart.trans ((follows_rekey _).trans hfollows), hmembers, fun _ => hrekey⟩

theorem add_effect {placed : List (String × MemberState)} (hplaced : ∀ one ∈ placed, one.2 ∈ live)
    (h : Group.add access placed g = .ok (change, g')) : Effect access g (.add placed) change.added g' := by
  unfold Group.add at h
  split at h
  · cases h
  split at h
  · cases h
    exact .same _
  split at h
  · cases h
  rename_i hdeleted
  have hdeleted : g.deleted = false := by simpa using hdeleted
  split at h
  · cases h
  dsimp only at h
  generalize hjoin : Members.joinMany _ g.members [] _ = result at h
  cases result with
  | error error => cases h
  | ok result =>
    obtain ⟨members, joined⟩ := result
    obtain ⟨new, rfl, hjoins⟩ := joinMany_eq_ok (fun _ => rfl) hjoin
    cases joined with
    | nil =>
      cases h
      exact .same _
    | cons first rest =>
      unfold Group.welcomed at h
      obtain ⟨⟨row, g₁⟩, hsystem, h⟩ := bind_eq_ok h
      cases h
      obtain ⟨hfollows, rfl, hrekey⟩ := welcome_eq_ok hdeleted hsystem
      refine .added placed _ _ (hfollows.trans (follows_recount g₁)) ⟨hjoins.others, ?_, ?_, hrekey⟩
      · intro user huser
        obtain ⟨m, hm, rfl⟩ := mem_map.1 huser
        obtain ⟨j, hj, hrow⟩ := hjoins.rows m hm
        obtain ⟨one, hone, rfl⟩ := mem_map.1 hj
        exact ⟨m, hjoins.found m hm, by rw [hrow]; rfl, by rw [hrow]; exact hplaced one hone, by rw [hrow]; rfl,
          by rw [hrow]; rfl⟩
      · intro user huser old hold hactive
        obtain ⟨m, hm, rfl⟩ := mem_map.1 huser
        have hstate := hjoins.before m hm old hold
        rw [hactive] at hstate
        revert hstate
        decide

theorem admitMember_eq_ok {createdBy : String}
    (h : Group.admitMember user createdBy g = .ok (row, g')) : Follows g g' ∧ Admits g g' [user] := by
  unfold Group.admitMember at h
  split at h
  · cases h
  rename_i hdeleted
  have hdeleted : g.deleted = false := by simpa using hdeleted
  split at h
  · cases h
  split at h
  · cases h
  · cases h
  rename_i hactive _
  obtain ⟨⟨row, g₁⟩, hsystem, h⟩ := bind_eq_ok h
  cases h
  obtain ⟨hfollows, hmembers, hrekey⟩ := welcome_eq_ok hdeleted hsystem
  refine ⟨hfollows.trans (follows_members g₁ g₁.members g₁.members.liveTotal), fun other hother => ?_, ?_, ?_, hrekey⟩
  · refine (congrArg (Members.find · other) hmembers).trans (find_put_of_ne g.members ?_)
    exact fun heq => hother (mem_singleton.2 heq)
  · intro other hother
    rw [mem_singleton.1 hother]
    exact ⟨_, (congrArg (Members.find · user) hmembers).trans (find_put_self g.members _), rfl, mem_cons_self, rfl, rfl⟩
  · intro other hother m hm hstate
    rw [mem_singleton.1 hother] at hm
    exact hactive (by rw [hm, map_some, hstate])

theorem effect_of_run {call : Call} (hplaced : ∀ one ∈ call.placed, one.2 ∈ live)
    (h : call.run access g = .ok (change, g')) : Effect access g call change.added g' := by
  cases call with
  | leave => exact (leave_effect h).1 ▸ (leave_effect h).2
  | remove target ban => exact (remove_effect h).1 ▸ (remove_effect h).2
  | unban target => exact (unban_effect h).1 ▸ (unban_effect h).2
  | setRole target role => exact (setRole_effect h).1 ▸ (setRole_effect h).2
  | accept => exact (accept_effect h).1 ▸ (accept_effect h).2
  | decline => exact (decline_effect h).1 ▸ (decline_effect h).2
  | add placed => exact add_effect hplaced h

end Calls

end SC.Proof.Chat.Groups
