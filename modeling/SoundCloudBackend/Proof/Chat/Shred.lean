import SoundCloudBackend.Proof.Chat.GroupSteps

/-!
# A shredded group stays shredded

When the owner deletes the group or its last active member leaves, the group is marked as deleted
and its keys are destroyed. Calls that read their access before, sends, rotations and key requests
under way go on; none of them brings back a key or stores a message. Only `unban`, which takes no
lock, still changes a member.
-/

namespace SC.Proof.Chat.Groups

open Impl.Chat.Groups
open List

variable {g g' : Group} {w w' w'' : World} {a : Action} {access : Access} {call : Call}
  {change : Impl.Chat.Groups.Change}
variable {row : Message}

/-- Nobody gets in, no message is stored and no key is handed out. -/
def Quiet : Event → Prop
  | .removed _ _ => True
  | .admitted _ _ | .stored _ => False
  | .answered _ epochs => epochs = []

/-- From `w` to `w'` nothing but members changed, and all events were quiet. -/
structure Shut (w w' : World) : Prop where
  group : w'.group = { w.group with members := w'.group.members }
  log : ∃ events, w'.log = events ++ w.log ∧ ∀ e ∈ events, Quiet e

theorem Shut.of_eq (hgroup : w'.group = w.group) (hlog : w'.log = w.log) : Shut w w' :=
  ⟨by rw [hgroup], [], hlog, nofun⟩

theorem Shut.trans (h : Shut w w') (h' : Shut w' w'') : Shut w w'' := by
  obtain ⟨hgroup, events, hlog, hquiet⟩ := h
  obtain ⟨hgroup', events', hlog', hquiet'⟩ := h'
  refine ⟨by rw [hgroup', hgroup], events' ++ events, by rw [hlog', hlog, append_assoc], fun e he => ?_⟩
  exact (mem_append.1 he).elim (hquiet' e) (hquiet e)

theorem run_of_deleted (hg : g.deleted = true) (h : call.run access g = .ok (change, g')) :
    g' = { g with members := g'.members } ∧ change.added = [] := by
  cases call with
  | unban target =>
    simp only [Call.run, Group.unban] at h
    split at h <;> cases h
    exact ⟨rfl, rfl⟩
  | _ =>
    simp only [Call.run, Group.leave, Group.remove, Group.setRole, Group.accept, Group.decline, Group.add, hg, if_true] at h
    repeat' split at h
    all_goals first
      | (cases h; exact ⟨rfl, rfl⟩)
      | cases h

theorem advance_shut {n : Nat} (hw : w.group.deleted = true) (hkeys : w.group.keys = [])
    (h : advanceRequest w n = some w') : Shut w w' := by
  have hensure : w.group.ensureCurrent w.clock = .error .notFound := if_pos hw
  revert h
  fun_cases advanceRequest w n <;> intro h <;> cases h
  case case3 hok => cases hensure.symm.trans hok
  case case6 =>
    refine ⟨rfl, [_], rfl, fun e he => ?_⟩
    rw [mem_singleton.1 he]
    simp [Quiet, Group.listKeys, hkeys]
  all_goals exact .of_eq rfl rfl

/-- One step of a shredded group. -/
theorem step_shut (hw : w.group.deleted = true) (hkeys : w.group.keys = []) (h : step w a = some w') : Shut w w' := by
  cases a with
  | read user =>
    obtain ⟨access, -, rfl⟩ := Option.map_eq_some_iff.1 h
    exact .of_eq rfl rfl
  | run access call =>
    simp only [step] at h
    split_ifs at h
    split at h
    · cases h
      exact .of_eq rfl rfl
    · rename_i change g' hrun
      cases h
      obtain ⟨hgroup, hadded⟩ := run_of_deleted hw hrun
      refine ⟨hgroup, _, rfl, fun e he => ?_⟩
      rw [memberEvents, hadded, map_nil, nil_append] at he
      obtain ⟨user, -, rfl⟩ := mem_map.1 he
      trivial
  | advance n => exact advance_shut hw hkeys h
  | request n request =>
    simp only [step, Group.keyAccess, if_pos hw] at h
    split at h <;> cases h
    exact .of_eq rfl rfl
  | _ =>
    -- the transaction finds the group deleted and fails, or changes nothing
    have hrotate (epoch : Int) : w.group.rotateIfDue epoch w.clock = none := if_neg (by simp [hw])
    simp only [step, Group.admitMember, Group.store, Group.insertSystem, Group.ensureCurrent, hrotate, Group.markRekey,
      if_pos hw, if_pos (Or.inl hw)] at h
    cases h
    exact .of_eq rfl rfl

/-! ## The shredding -/

theorem insertSystem_live {event : SystemEvent} (h : g.insertSystem event = .ok (row, g')) :
    g'.deleted = false := by
  unfold Group.insertSystem at h
  split_ifs at h with hlive
  cases h
  exact Bool.eq_false_iff.2 hlive

theorem admitMember_live {user createdBy : String} (h : g.admitMember user createdBy = .ok (row, g')) :
    g'.deleted = false := by
  unfold Group.admitMember at h
  repeat' split at h
  all_goals first
    | (obtain ⟨⟨row, g₁⟩, hsystem, h⟩ := bind_eq_ok h; cases h; have := insertSystem_live hsystem; exact this)
    | cases h

theorem departed_shreds {role : MemberRole} {change' : Impl.Chat.Groups.Change} (hg : g.deleted = false)
    (h : Group.departed access role change g = .ok (change', g')) (hdead : g'.deleted = true) : g'.keys = [] := by
  unfold Group.departed at h
  split at h
  · rw [shred_eq (g := g.recount) hg] at h
    cases h
    rfl
  · obtain ⟨⟨rows, g₁⟩, -, h⟩ := bind_eq_ok h
    obtain ⟨⟨row, g₂⟩, hsystem, h⟩ := bind_eq_ok h
    cases h
    have hlive := insertSystem_live hsystem
    cases hlive.symm.trans hdead

theorem run_shreds (hg : g.deleted = false) (h : call.run access g = .ok (change, g')) (hdead : g'.deleted = true) :
    g'.keys = [] := by
  have hsame (hlive : g'.deleted = false) : g'.keys = [] := by cases hlive.symm.trans hdead
  cases call with
  | leave =>
    simp only [Call.run, Group.leave] at h
    repeat' split at h
    all_goals first
      | exact departed_shreds (by exact hg) h hdead
      | (cases h; exact hsame hg)
      | cases h
  | setRole target role =>
    simp only [Call.run, Group.setRole] at h
    repeat' split at h
    all_goals first
      | cases h
      | skip
    obtain ⟨members, -, h⟩ := bind_eq_ok h
    obtain ⟨⟨row, g₁⟩, hsystem, h⟩ := bind_eq_ok h
    cases h
    exact hsame (insertSystem_live hsystem)
  | _ =>
    simp only [Call.run, Group.remove, Group.expelled, Group.unban, Group.accept, Group.decline, Group.add,
      Group.welcomed] at h
    repeat' split at h
    all_goals first
      | (obtain ⟨⟨row, g₁⟩, hsystem, h⟩ := bind_eq_ok h; cases h; have := insertSystem_live hsystem; exact hsame this)
      | (cases h; exact hsame hg)
      | cases h

theorem step_shreds (hkeys : w.group.deleted = true → w.group.keys = []) (h : step w a = some w') :
    w'.group.deleted = true → w'.group.keys = [] := by
  intro hdead
  cases hw : w.group.deleted with
  | true => rw [(step_shut hw (hkeys hw) h).group, hkeys hw]
  | false =>
    cases step_does h with
    | changed access call change g' hrun heffect => exact run_shreds hw hrun hdead
    | joined user createdBy g' hfollows hadmits =>
      rw [step] at h
      split at h
      · rw [← congrArg World.group (Option.some.inj h)] at hdead
        cases hw.symm.trans hdead
      · rename_i row g₁ hadmit
        have hlive := admitMember_live hadmit
        rw [← congrArg World.group (Option.some.inj h)] at hdead
        cases hlive.symm.trans hdead
    | sent sender out row g' hstored =>
      rw [hstored.after] at hdead
      cases hw.symm.trans hdead
    | answered n request access gate floor _ hrequest hgroup hlog => cases hw.symm.trans (hgroup ▸ hdead)
    | turned _ _ hturn hlog => cases hw.symm.trans (hturn.deleted.symm.trans hdead)

theorem shred_of_deleted (hg : g.deleted = true) : g.shred.2 = g := by rw [Group.shred, if_pos hg]

theorem groupStep_cases {a : GroupAction} (h : groupStep w a = some w') :
    (∃ action, step w action = some w') ∨ w' = w ∨ w' = { w with group := w.group.shred.2 } := by
  cases a with
  | call action => exact .inl ⟨action, h⟩
  | forEveryone access =>
    refine .inr ?_
    simp only [groupStep, Group.forEveryone] at h
    split at h
    · split at h
      · exact .inl (Option.some.inj h).symm
      · rename_i deleted g hrun
        split_ifs at hrun
        obtain ⟨-, -, hshred⟩ := map_eq_ok hrun
        exact .inr (by rw [hshred, Option.some.inj h])
    · cases h

theorem groupStep_shreds {a : GroupAction} (hkeys : w.group.deleted = true → w.group.keys = [])
    (h : groupStep w a = some w') : w'.group.deleted = true → w'.group.keys = [] := by
  intro hdead
  rcases groupStep_cases h with ⟨action, hstep⟩ | rfl | rfl
  · exact step_shreds hkeys hstep hdead
  · exact hkeys hdead
  · cases hg : w.group.deleted with
    | true => exact (congrArg Group.keys (shred_of_deleted hg)).trans (hkeys hg)
    | false => exact congrArg (fun r => r.2.keys) (shred_eq hg)

theorem groupStep_shut {a : GroupAction} (hw : w.group.deleted = true) (hkeys : w.group.keys = [])
    (h : groupStep w a = some w') : Shut w w' := by
  rcases groupStep_cases h with ⟨action, hstep⟩ | rfl | rfl
  · exact step_shut hw hkeys hstep
  · exact .of_eq rfl rfl
  · exact .of_eq (shred_of_deleted hw) rfl

/-- Once a group is deleted, it has no keys, and whatever calls of its members are under way or made later,
none of them adds a message, admits anybody or hands out a key. -/
theorem shredded_for_good {clock : Int} {as bs : List GroupAction} (hg : g.deleted = false)
    (h : run groupStep (.start g clock) as = some w) (hdeleted : w.group.deleted = true)
    (h' : run groupStep w bs = some w') : w'.group.keys = [] ∧ Shut w w' := by
  have hkeys : w.group.keys = [] :=
    run_invariant (I := fun w => w.group.deleted = true → w.group.keys = []) groupStep_shreds
      (fun hdead => by cases hg.symm.trans hdead) h hdeleted
  have hshut : Shut w w' := by
    refine run_invariant (I := Shut w) (fun {w₁ a w₂} h₁ hstep => h₁.trans (groupStep_shut ?_ ?_ hstep)) (.of_eq rfl rfl) h'
    · rw [h₁.group, hdeleted]
    · rw [h₁.group, hkeys]
  exact ⟨by rw [hshut.group, hkeys], hshut⟩

/-- The owner deletes the group while a key request is under way, which had its key made. -/
def deletedDuringRequest : List GroupAction :=
  [.call (.request 0 ⟨"202", ⟨0, true⟩, none, 640⟩), .call (.advance 0), .call (.read "101"),
    .forEveryone ⟨"101", .group, .owner, .active, ["101", "202"]⟩]

def afterDeletion : List GroupAction :=
  [.call (.advance 0), .call (.advance 0), .call (.send "202" ⟨7, .post, 0, post_not_system⟩)]

theorem shredded_for_good_requested : ∃ w w', run groupStep (.start (pair .active 2) 0) deletedDuringRequest = some w ∧
    run groupStep w afterDeletion = some w' ∧ w'.log = [.answered "202" []] ∧ w'.group.keys = [] ∧ Shut w w' := by
  have hend : (run groupStep (.start (pair .active 2) 0) deletedDuringRequest).bind (fun w =>
      (run groupStep w afterDeletion).map fun w' => (w.group.deleted, w'.log)) =
        some (true, [.answered "202" []]) := by decide
  obtain ⟨w, hw, hend⟩ := Option.bind_eq_some_iff.1 hend
  obtain ⟨w', hw', hend⟩ := Option.map_eq_some_iff.1 hend
  obtain ⟨hdeleted, hlog⟩ := Prod.mk.inj hend
  exact ⟨w, w', hw, hw', hlog, shredded_for_good rfl hw hdeleted hw'⟩

end SC.Proof.Chat.Groups
