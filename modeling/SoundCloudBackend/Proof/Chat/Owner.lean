import SoundCloudBackend.Proof.Chat.GroupSteps

/-!
# The owner of a group

`set_role` knows that its caller is the owner from the access row it was given; under
the lock it looks again only when it passes the role on. With an access row read before
that, a former owner can so take the role from the one owner there is. `KeepsOwner` says
of a step that it is no such change.
-/

namespace SC.Proof.Chat.Groups

open Impl.Chat.Groups

variable {ms ms' : Members} {owner : String} {w w' : World} {a : Action}
variable {m : Member} {g : Group} {users : List String} {user : String} {access : Access}

def IsOwner (ms : Members) (user : String) : Prop :=
  ∃ m, ms.find user = some m ∧ m.state = .active ∧ m.role = .owner

/-- The one active owner; no other active or invited member has the role. -/
structure Sole (ms : Members) (owner : String) : Prop where
  isOwner : IsOwner ms owner
  only : ∀ user m, ms.find user = some m → m.state ∈ live → m.role = .owner → user = owner

theorem sole_iff : Sole ms owner ↔ (∃ m ∈ ms.rows, m.userId = owner ∧ m.state = .active ∧ m.role = .owner) ∧
    ∀ m ∈ ms.rows, m.state ∈ live → m.role = .owner → m.userId = owner := by
  constructor
  · rintro ⟨⟨o, ho, hstate⟩, honly⟩
    exact ⟨⟨o, mem_of_find ho, userId_of_find ho, hstate⟩, fun m hm => honly _ m (find_of_mem hm)⟩
  · rintro ⟨⟨o, ho, hid, hstate⟩, honly⟩
    refine ⟨⟨o, hid ▸ find_of_mem ho, hstate⟩, fun user m hm hlive hrole => ?_⟩
    exact (userId_of_find hm).symm.trans (honly m (mem_of_find hm) hlive hrole)

instance : Decidable (Sole ms owner) := decidable_of_iff _ sole_iff.symm

theorem Sole.existsUnique (h : Sole ms owner) : ∃! user, IsOwner ms user :=
  ⟨owner, h.isOwner, fun user ⟨m, hm, hstate, hrole⟩ => h.only user m hm (hstate ▸ List.mem_cons_self) hrole⟩

theorem Sole.put (h : Sole ms owner) (hne : m.userId ≠ owner) (hrow : m.state ∈ live → m.role ≠ .owner) :
    Sole (ms.put m) owner := by
  obtain ⟨o, ho, hactive, hrole⟩ := h.isOwner
  refine ⟨⟨o, by rw [find_put_of_ne ms hne.symm]; exact ho, hactive, hrole⟩, fun user r hr hlive howner => ?_⟩
  rcases find_put.1 hr with ⟨-, rfl⟩ | ⟨-, hr⟩
  · exact absurd howner (hrow hlive)
  · exact h.only user r hr hlive howner

theorem Sole.passed {o heir : Member} (h : Sole ms owner) (ho : o.userId = owner)
    (hrow : o.state ∈ live → o.role ≠ .owner) (hactive : heir.state = .active) :
    Sole ((ms.put o).put { heir with role := .owner }) heir.userId := by
  refine ⟨⟨_, find_put_self (ms.put o) { heir with role := .owner }, hactive, rfl⟩, fun user r hr hlive howner => ?_⟩
  rcases find_put.1 hr with ⟨huser, -⟩ | ⟨-, hr⟩
  · exact huser
  rcases find_put.1 hr with ⟨-, rfl⟩ | ⟨hne, hr⟩
  · exact absurd howner (hrow hlive)
  · exact absurd ((h.only user r hr hlive howner).trans ho.symm) hne

theorem Sole.admits {g' : Group} (h : Sole g.members owner) (hadmits : Admits g g' users) :
    Sole g'.members owner := by
  obtain ⟨o, ho, hactive, hrole⟩ := h.isOwner
  have howner : owner ∉ users := fun hmem => hadmits.before owner hmem o ho hactive
  refine ⟨⟨o, by rw [hadmits.others owner howner]; exact ho, hactive, hrole⟩, fun user m hm hlive hm' => ?_⟩
  by_cases huser : user ∈ users
  · obtain ⟨joined, hjoined, hmember, -⟩ := hadmits.joined user huser
    rw [hjoined] at hm
    cases hm
    rw [hmember] at hm'
    cases hm'
  · rw [hadmits.others user huser] at hm
    exact h.only user m hm hlive hm'

theorem Sole.ne_of_role (h : Sole ms owner) (hm : ms.find user = some m)
    (hrole : m.role ≠ .owner) : user ≠ owner := by
  rintro rfl
  obtain ⟨o, ho, -, howner⟩ := h.isOwner
  rw [hm] at ho
  cases ho
  exact hrole howner

theorem Sole.ne_of_state (h : Sole ms owner) (hm : ms.find user = some m)
    (hstate : m.state ≠ .active) : user ≠ owner := by
  rintro rfl
  obtain ⟨o, ho, hactive, -⟩ := h.isOwner
  rw [hm] at ho
  cases ho
  exact hstate hactive

/-- A change that passes the checks of `set_role` and takes the role from an owner without passing it on. -/
structure Dethrones (access : Access) (target : String) (role : MemberRole) (g : Group) : Prop where
  isActor : access.isActor = true
  owner : access.role = .owner
  other : target ≠ access.userId
  role : role ≠ .owner
  exists_ : g.deleted = false
  isOwner : IsOwner g.members target

theorem Sole.effect {g' : Group} {call : Call} (h : Sole g.members owner)
    (hcall : ∀ target role, call = .setRole target role → ¬ Dethrones access target role g)
    (heffect : Effect access g call users g') : g'.deleted = true ∨ ∃ owner, Sole g'.members owner := by
  cases heffect with
  | same _ => exact .inr ⟨owner, h⟩
  | left m _ hm _ _ hmembers hrest =>
    rcases hrest with hdeleted | ⟨-, hrole⟩
    · exact .inl hdeleted
    · have hne := h.ne_of_role hm hrole
      rw [← userId_of_find hm] at hne
      exact .inr ⟨owner, hmembers ▸ h.put hne fun hlive => absurd hlive left_not_live⟩
  | handedOver m heir _ hm hlive howner _ hactive _ _ hmembers _ =>
    have hid := (userId_of_find hm).trans (h.only _ m hm hlive howner)
    exact .inr ⟨heir.userId, hmembers ▸ h.passed hid (fun hlive => absurd hlive left_not_live) hactive⟩
  | removed target _ m next _ hm hrole hnext _ hmembers _ =>
    have hne := h.ne_of_role hm hrole
    rw [← userId_of_find hm] at hne
    exact .inr ⟨owner, hmembers ▸ h.put hne fun hlive => absurd hlive hnext⟩
  | unbanned target m _ hm hstate _ hmembers =>
    have hne := h.ne_of_state hm (by rw [hstate]; decide)
    rw [← userId_of_find hm] at hne
    exact .inr ⟨owner, hmembers ▸ h.put hne fun hlive => absurd hlive left_not_live⟩
  | promoted target a m _ ha howner hactive _ _ hstate _ hmembers =>
    have hid := (userId_of_find ha).trans (h.only _ a ha (hactive ▸ List.mem_cons_self) howner)
    exact .inr ⟨m.userId, hmembers ▸ h.passed hid (fun _ => show MemberRole.admin ≠ .owner by decide) hstate⟩
  | ranked target role m _ hactor howner hne hrole hdeleted hm hstate _ hmembers =>
    have hother : m.userId ≠ owner := fun heq => by
      have htarget := (userId_of_find hm).symm.trans heq
      exact hcall target role rfl ⟨hactor, howner, hne, hrole, hdeleted, htarget ▸ h.isOwner⟩
    exact .inr ⟨owner, hmembers ▸ h.put hother fun _ => hrole⟩
  | accepted m _ hm hstate _ hmembers =>
    have hne := h.ne_of_state hm (by rw [hstate]; decide)
    have hrole : m.role ≠ .owner := fun howner => hne (h.only _ m hm (hstate ▸ by decide) howner)
    rw [← userId_of_find hm] at hne
    exact .inr ⟨owner, hmembers ▸ h.put hne fun _ => hrole⟩
  | declined m _ _ hm hstate _ hmembers =>
    have hne := h.ne_of_state hm (by rw [hstate]; decide)
    rw [← userId_of_find hm] at hne
    exact .inr ⟨owner, hmembers ▸ h.put hne fun hlive => absurd hlive left_not_live⟩
  | added _ _ _ _ hadmits => exact .inr ⟨owner, h.admits hadmits⟩

/-! ## Runs -/

/-- The step takes the role from no owner without passing it on. -/
def KeepsOwner (w : World) : Action → Prop
  | .run access (.setRole target role) => ¬ Dethrones access target role w.group
  | _ => True

def Owned (w : World) : Prop := w.group.deleted = true ∨ ∃ owner, Sole w.group.members owner

theorem owned_step (howned : Owned w) (hkeeps : KeepsOwner w a) (h : step w a = some w') : Owned w' := by
  rcases howned with hdeleted | ⟨owner, hsole⟩
  · left
    cases step_does h with
    | changed access call change g' hrun heffect => exact heffect.follows.deleted hdeleted
    | joined user createdBy g' hfollows hadmits => exact hfollows.deleted hdeleted
    | sent sender out row g' hstored => exact hstored.after ▸ hdeleted
    | answered n request access gate floor _ hrequest hgroup hlog => exact hgroup ▸ hdeleted
    | turned _ _ hturn hlog => exact hturn.deleted.trans hdeleted
  · cases step_does h with
    | changed access call change g' hrun heffect =>
      exact hsole.effect (fun target role hcall => by subst hcall; exact hkeeps) heffect
    | joined user createdBy g' hfollows hadmits => exact .inr ⟨owner, hsole.admits hadmits⟩
    | sent sender out row g' hstored => exact .inr ⟨owner, hstored.after ▸ hsole⟩
    | answered n request access gate floor _ hrequest hgroup hlog => exact .inr ⟨owner, hgroup ▸ hsole⟩
    | turned _ _ hturn hlog => exact .inr ⟨owner, hturn.members ▸ hsole⟩

theorem Dethrones.setRole {target : String} {role : MemberRole} (h : Dethrones access target role g) :
    ∃ change g', Group.setRole access target role g = .ok (change, g') ∧ g'.deleted = false ∧
      ∃ m, g.members.find target = some m ∧ g'.members = g.members.put { m with role := role } := by
  obtain ⟨m, hm, hstate, -⟩ := h.isOwner
  have hset : g.members.setRole target role = some (g.members.put { m with role := role }) := by
    unfold Members.setRole
    rw [hm, Option.bind_some, if_pos hstate]
  have hroles : Group.rolesSet access target role g.members = .ok (g.members.put { m with role := role }) := by
    unfold Group.rolesSet
    rw [if_neg h.role, hset]
    rfl
  obtain ⟨⟨row, g'⟩, hsystem⟩ := insertSystem_exists (g := { g with members := g.members.put { m with role := role } })
    h.exists_ (.role access.userId target role)
  obtain ⟨-, hmembers, -, hdeleted, -⟩ := insertSystem_eq_ok hsystem
  unfold Group.setRole
  rw [if_neg (by simp [h.isActor]), if_neg (by simp [h.owner, h.other]), if_neg (by simp [h.exists_]), hroles]
  exact ⟨_, g', by dsimp only [bind, Except.bind]; rw [hsystem]; rfl, hdeleted.trans h.exists_, m, hm, hmembers⟩

theorem not_owned_step (howned : Owned w) (hkeeps : ¬ KeepsOwner w a) (h : step w a = some w') :
    ¬ (w'.group.deleted = true ∨ ∃! user, IsOwner w'.group.members user) := by
  unfold KeepsOwner at hkeeps
  split at hkeeps
  · rename_i access target role
    have hdethrones := not_not.1 hkeeps
    obtain ⟨change, g', hrun, hdeleted, m, hm, hmembers⟩ := hdethrones.setRole
    obtain ⟨owner, hsole⟩ := howned.resolve_left (by rw [hdethrones.exists_]; decide)
    simp only [step, Call.run, hrun] at h
    split_ifs at h
    cases h
    rintro (hd | ⟨user, ⟨o, ho, hactive, howner⟩, -⟩)
    · exact absurd (hdeleted.symm.trans hd) (by decide)
    -- an owner that is left would be another one
    rw [hmembers] at ho
    rcases find_put.1 ho with ⟨-, rfl⟩ | ⟨hne, ho⟩
    · exact hdethrones.role howner
    · obtain ⟨o', ho', hactive', howner'⟩ := hdethrones.isOwner
      have htarget := hsole.only target o' ho' (hactive' ▸ List.mem_cons_self) howner'
      have huser := hsole.only user o ho (hactive ▸ List.mem_cons_self) howner
      exact hne (huser.trans (htarget.symm.trans (userId_of_find hm).symm))
  · exact absurd trivial hkeeps

/-- A group that starts with one owner has one active owner in every state of a run, until it is deleted, exactly if no
step takes the role from the owner without passing it on. -/
theorem one_owner_iff {g : Group} {clock : Int} {owner : String} {as : List Action} (hstart : Sole g.members owner)
    (h : run step (World.start g clock) as = some w) :
    Always step (fun w => w.group.deleted = true ∨ ∃! user, IsOwner w.group.members user) (World.start g clock) as ↔
      Meets step KeepsOwner (World.start g clock) as :=
  always_iff_meets (I := Owned) (fun howned => howned.imp_right fun ⟨_, hsole⟩ => hsole.existsUnique)
    owned_step not_owned_step (.inr ⟨owner, hstart⟩) h

def ownerAccess : Access := ⟨"101", .group, .owner, .active, ["101", "202"]⟩

/-- The role is passed on, and there is one owner all along. -/
theorem one_owner_handed_over :
    Always step (fun w => w.group.deleted = true ∨ ∃! user, IsOwner w.group.members user)
      (World.start (pair .active 2) 0) [.read "101", .run ownerAccess (.setRole "202" .owner)] :=
  (one_owner_iff (show Sole _ "101" by decide) rfl).2
    (meets_cons rfl trivial (meets_cons rfl (fun h => h.role rfl) (meets_nil _)))

/-- The owner passes the role on, and takes it from the next owner with the access row that it read before. -/
def demotedHeir : List Action :=
  [.read "101", .run ownerAccess (.setRole "202" .owner), .run ownerAccess (.setRole "202" .admin)]

theorem stale_access_leaves_no_owner :
    Sole (pair .active 2).members "101" ∧ ∃ w, run step (World.start (pair .active 2) 0) demotedHeir = some w ∧
      w.group.deleted = false ∧ ∀ user, ¬ IsOwner w.group.members user := by
  have hend : (run step (World.start (pair .active 2) 0) demotedHeir).map
      (fun w => (w.group.deleted, w.group.members.rows)) =
        some (false, [⟨"101", .admin, .active, 0, 0, none⟩, ⟨"202", .admin, .active, 0, 0, some "101"⟩]) := by decide
  obtain ⟨w, hw, hend⟩ := Option.map_eq_some_iff.1 hend
  rw [Prod.mk.injEq] at hend
  refine ⟨by decide, w, hw, hend.1, fun user ⟨m, hm, howner⟩ => ?_⟩
  have hrow := mem_of_find hm
  rw [hend.2] at hrow
  have hadmins : ∀ m ∈ [(⟨"101", .admin, .active, 0, 0, none⟩ : Member), ⟨"202", .admin, .active, 0, 0, some "101"⟩],
      m.role ≠ .owner := by decide
  exact hadmins m hrow howner.2

end SC.Proof.Chat.Groups
