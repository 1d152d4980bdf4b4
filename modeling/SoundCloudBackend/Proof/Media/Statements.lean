import SoundCloudBackend.Proof.Media.Moves

/-!
# The statements on media

Each statement keeps the invariant of `Moves.lean`, run without `greatest`: those that
release bytes, those that move media between statuses that do not count, commits and
restores, and the statements that are no moves.
-/

namespace SC.Proof.Media

open Impl.Replication (Uuid)
open Impl.Media
open List Option Function Bool

variable {row : Row} {moved : List (Row × Row)} {user : String} {u u' : Usage} {next : Row → Status} {t' : Tables}
variable {ids : List Uuid} {kind : Kind} {r : Reserve} {today : Int}

/-! ## Releases -/

def plain (x _ : Int) : Int := x

section Releases

variable {t : Tables}

theorem sameStatus_part {root : Row} (h : Agrees row root) : sameStatus row root = sameStatus root root := by
  simp [sameStatus, h.status]

theorem roots_of_filter {p : Row → Prop} [DecidablePred p] (h : ∀ root, p root → root.kind ≠ .thumb) :
    ∀ root ∈ t.media.filter (p ·), root ∈ t.media ∧ root.kind ≠ .thumb := by
  intro root hroot
  obtain ⟨hmem, hp⟩ := mem_filter.1 hroot
  exact ⟨hmem, h root (of_decide_eq_true hp)⟩

theorem isSome_charge (t : Tables) (user : String) (f : Usage → Usage) (other : String) :
    (t.charge user f other).isSome = (t.usage other).isSome := by
  by_cases he : other = user
  · subst he
    rw [Tables.charge, update_self, isSome_map]
  · rw [Tables.charge, update_of_ne he]

theorem isSome_chargeOwners (t : Tables) (q : Row → Bool) (moved : List (Row × Row)) (f : String → Usage → Usage)
    (user : String) : (t.chargeOwners q moved f user).isSome = (t.usage user).isSome := by
  rw [Tables.chargeOwners]
  split
  · exact isSome_map
  · rfl

theorem Releases.none
    (hs : ∀ r ∈ moved, was user Status.stored r.2 = false) (hr : ∀ r ∈ moved, was user isReserved r.2 = false) :
    Releases moved user u u := by
  refine ⟨?_, ?_, ?_⟩
  · rw [movedTally_eq_zero hs, sub_zero]
  · rw [movedTally_eq_zero hr, sub_zero]
  · rw [movedTally_eq_zero hs, sub_zero]

theorem releases_chargeOwners {q : Row → Bool} {f : String → Usage → Usage}
    (hs : ∀ r ∈ moved, r.2.status.stored = true → q r.2 = true)
    (hr : ∀ r ∈ moved, isReserved r.2.status = true → q r.2 = true)
    (hf : ∀ user u, Releases moved user u (f user u)) (hu : t.usage user = some u)
    (hu' : t.chargeOwners q moved f user = some u') : Releases moved user u u' := by
  rw [Tables.chargeOwners] at hu'
  split at hu'
  · rw [hu] at hu'
    cases hu'
    exact hf user u
  · rename_i hany
    cases hu.symm.trans hu'
    have hnone (c : Status → Bool) (hq : ∀ r ∈ moved, c r.2.status = true → q r.2 = true) :
        ∀ r ∈ moved, was user c r.2 = false := by
      intro r hr
      rw [was, decide_eq_false_iff_not]
      rintro ⟨howner, hc⟩
      exact hany (any_eq_true.2 ⟨r, hr, by simp [hq r hr hc, howner]⟩)
    exact .none (hnone _ hs) (hnone _ hr)

theorem giveUp_move (t : Tables) (due : Row → Bool) : Move t.media sameStatus (giveUpRoots t due)
      (fun _ row => { row with status := .deleting, deleteAfter := none, leaseUntil := none, restorableUntil := none })
      (fun _ => .deleting) where
  root := roots_of_filter fun _ hp => hp.2.2
  part _ _ _ _ hagree := sameStatus_part hagree
  keeps _ _ := ⟨rfl, rfl, rfl, rfl, rfl⟩
  status _ _ _ _ := rfl
  restorable _ _ _ := rfl

theorem Inv.giveUp (h : Inv t) (due : Row → Bool) : Inv (giveUp plain t due) := by
  have hm := giveUp_move t due
  have hstatus : ∀ r ∈ joinedRows (rootOf sameStatus (giveUpRoots t due)) t.media,
      r.2.status = .reserved ∨ r.2.status = .uploaded := by
    intro r hr
    have hp := (mem_filter.1 (hm.of_moved h.families hr).1).2
    simpa using (of_decide_eq_true hp).2.1
  refine h.release hm (fun _ _ => ⟨rfl, rfl⟩) (isSome_chargeOwners t _ _ _) fun user u u' hu hu' => ?_
  refine releases_chargeOwners (fun _ _ _ => rfl) (fun _ _ _ => rfl) (fun user u => ⟨?_, ?_, ?_⟩) hu hu'
  · refine congrArg (u.bytes - ·) ((sumOf_eq _ _).trans (movedTally_congr fun r hr => ?_))
    obtain hr | hr := hstatus r hr <;> simp [was, hr, Status.stored]
  · refine congrArg (u.reserved - ·) ((sumOf_eq _ _).trans (movedTally_congr fun r hr => ?_))
    obtain hr | hr := hstatus r hr <;> simp [was, hr, isReserved]
  · refine congrArg (u.files - ·) ((hm.rootsOf h.families _).trans (movedTally_congr fun r hr => ?_))
    obtain hr | hr := hstatus r hr <;> simp [was, hr, Status.stored]

theorem mediaMarkLost_move (t : Tables) (ids : List Uuid) (store : Int) :
    Move t.media sameStatus (lostRoots t ids store)
      (fun _ row => { row with status := .lost, deleteAfter := none, leaseUntil := none }) (fun _ => .lost) where
  root := roots_of_filter fun _ hp => hp.2.2.1
  part _ _ _ _ hagree := sameStatus_part hagree
  keeps _ _ := ⟨rfl, rfl, rfl, rfl, rfl⟩
  status _ _ _ _ := rfl
  restorable _ _ h := h

theorem Inv.mediaMarkLost (h : Inv t) (ids : List Uuid) (store : Int) : Inv (mediaMarkLost plain t ids store) := by
  have hm := mediaMarkLost_move t ids store
  have hstatus : ∀ r ∈ joinedRows (rootOf sameStatus (lostRoots t ids store)) t.media,
      r.2.status = .attached ∨ r.2.status = .uploaded := by
    intro r hr
    have hp := (mem_filter.1 (hm.of_moved h.families hr).1).2
    simpa using (of_decide_eq_true hp).2.2.2
  refine h.release hm (fun _ _ => ⟨rfl, rfl⟩) (isSome_chargeOwners t _ _ _) fun user u u' hu hu' => ?_
  refine releases_chargeOwners (fun _ _ _ => rfl) (fun _ _ _ => rfl) (fun user u => ⟨?_, ?_, ?_⟩) hu hu'
  · refine congrArg (u.bytes - ·) ((sumOf_eq _ _).trans (movedTally_congr fun r hr => ?_))
    obtain hr | hr := hstatus r hr <;> simp [was, hr, Status.stored]
  · refine (sub_eq_self.2 (movedTally_eq_zero fun r hr => ?_)).symm
    obtain hr | hr := hstatus r hr <;> simp [was, hr, isReserved]
  · refine congrArg (u.files - ·) ((hm.rootsOf h.families _).trans (movedTally_congr fun r hr => ?_))
    obtain hr | hr := hstatus r hr <;> simp [was, hr, Status.stored]

theorem settled_uncounted (t : Tables) (root : Row) :
    (settled t root).stored = false ∧ isReserved (settled t root) = false := by
  unfold settled
  split <;> exact ⟨rfl, rfl⟩

theorem settle_move (t : Tables) (ids : List Uuid) :
    Move t.media (fun media root => sameStatus media root && decide (settled t root ≠ root.status))
      (settleRoots t ids)
      (fun root row => { row with status := settled t root, leaseUntil := none, deleteAfter := none }) (settled t) where
  root := roots_of_filter fun _ hp => hp.2.1
  part _ _ _ _ hagree := by rw [sameStatus_part hagree]
  keeps _ _ := ⟨rfl, rfl, rfl, rfl, rfl⟩
  status _ _ _ _ := rfl
  restorable _ _ h := h

theorem Inv.settle (h : Inv t) (ids : List Uuid) : Inv (settle plain t ids) := by
  have hm := settle_move t ids
  have hstatus : ∀ r ∈ joinedRows (rootOf (fun media root => sameStatus media root &&
      decide (settled t root ≠ root.status)) (settleRoots t ids)) t.media,
      r.2.status = .attached ∨ r.2.status = .held ∨ r.2.status = .lost := by
    intro r hr
    have hp := (mem_filter.1 (hm.of_moved h.families hr).1).2
    simpa using (of_decide_eq_true hp).2.2.1
  refine h.release hm (fun root _ => settled_uncounted t root) (isSome_chargeOwners t _ _ _) fun user u u' hu hu' => ?_
  refine releases_chargeOwners ?_ ?_ (fun user u => ⟨?_, ?_, ?_⟩) hu hu'
  · intro r hr
    obtain hr | hr | hr := hstatus r hr <;> simp [hr, Status.stored]
  · intro r hr
    obtain hr | hr | hr := hstatus r hr <;> simp [hr, isReserved]
  · refine congrArg (u.bytes - ·) ((sumOf_eq _ _).trans (movedTally_congr fun r hr => ?_))
    obtain hr | hr | hr := hstatus r hr <;> simp [was, hr, Status.stored]
  · refine (sub_eq_self.2 (movedTally_eq_zero fun r hr => ?_)).symm
    obtain hr | hr | hr := hstatus r hr <;> simp [was, hr, isReserved]
  · refine congrArg (u.files - ·) ((hm.rootsOf h.families _).trans (movedTally_congr fun r hr => ?_))
    obtain hr | hr | hr := hstatus r hr <;> simp [was, hr, Status.stored]

theorem deleteRows_move (t : Tables) (user : String) (ids : List Uuid) :
    Move t.media sameStatus (deleteRoots t user ids)
      (fun root row =>
        { row with
          status := .deleting
          restorableUntil := if root.status.stored then some (t.clock + restoreWindow) else none
          leaseUntil := none
          deleteAfter := none }) (fun _ => .deleting) where
  root := roots_of_filter fun _ hp => hp.2.2.1
  part _ _ _ _ hagree := sameStatus_part hagree
  keeps _ _ := ⟨rfl, rfl, rfl, rfl, rfl⟩
  status _ _ _ _ := rfl
  restorable _ _ _ := rfl

theorem Inv.deleteRows (h : Inv t) (user : String) (ids : List Uuid) : Inv (deleteRows plain t user ids) := by
  have hm := deleteRows_move t user ids
  have howner : ∀ r ∈ joinedRows (rootOf sameStatus (deleteRoots t user ids)) t.media, r.2.ownerUser = user := by
    intro r hr
    have hp := (mem_filter.1 (hm.of_moved h.families hr).1).2
    exact (of_decide_eq_true hp).2.1
  have hother {other : String} (hne : other ≠ user) (c : Status → Bool) :
      ∀ r ∈ joinedRows (rootOf sameStatus (deleteRoots t user ids)) t.media, was other c r.2 = false := by
    intro r hr
    simp [was, howner r hr, hne.symm]
  refine h.release hm (fun _ _ => ⟨rfl, rfl⟩) ?_ fun other u u' hu hu' => ?_
  · intro other
    split
    · exact isSome_charge t user _ other
    · rfl
  · split at hu'
    · by_cases hne : other = user
      · subst hne
        rw [Tables.charge, update_self, hu] at hu'
        cases hu'
        refine ⟨?_, ?_, ?_⟩
        · refine congrArg (u.bytes - ·) ((sumOf_eq _ _).trans (movedTally_congr fun r hr => ?_))
          simp [was, howner r hr]
        · refine congrArg (u.reserved - ·) ((sumOf_eq _ _).trans (movedTally_congr fun r hr => ?_))
          simp [was, howner r hr, isReserved]
        · refine congrArg (u.files - ·) ((hm.rootsOf h.families _).trans (movedTally_congr fun r hr => ?_))
          simp [was, howner r hr]
      · rw [Tables.charge, update_of_ne hne] at hu'
        cases hu.symm.trans hu'
        exact .none (hother hne _) (hother hne _)
    · -- no root is moved, so no row is
      rename_i hzero
      cases hu.symm.trans hu'
      have hempty : ∀ r ∈ joinedRows (rootOf sameStatus (deleteRoots t user ids)) t.media, False := by
        intro r hr
        refine hzero ?_
        rw [rootsOf]
        exact_mod_cast length_pos_of_mem (mem_dedup.2 (mem_map_of_mem (mem_filter.2 ⟨hr, rfl⟩)))
      exact .none (fun r hr => (hempty r hr).elim) (fun r hr => (hempty r hr).elim)

end Releases

/-! ## Moves that leave the counters alone -/

section Uncounted

variable {t : Tables}

theorem hold_move (t : Tables) (ids : List Uuid) :
    Move t.media (holdKeeps t) (holdLive t ids) (fun _ row => { row with status := .held, restorableUntil := none })
      (fun _ => .held) where
  root := roots_of_filter fun _ hp => hp.2.1
  part row root _ _ hagree := by simp [holdKeeps, hagree.status]
  keeps _ _ := ⟨rfl, rfl, rfl, rfl, rfl⟩
  status _ _ _ _ := rfl
  restorable _ _ _ := rfl

theorem Inv.hold (h : Inv t) (ids : List Uuid) (report : Uuid) : Inv (hold t ids report) := by
  have hmoved := h.move_uncounted (hold_move t ids) ?_ fun _ _ => ⟨rfl, rfl⟩
  · exact ⟨hmoved.families, hmoved.owners, hmoved.counts, hmoved.quota⟩
  · intro root _ hon
    rw [(of_decide_eq_true hon).1]
    exact ⟨rfl, rfl⟩

theorem mediaClaim_move (t : Tables) (ids : List Uuid) :
    Move t.media (fun media _ => media.status = .deleting) (claimPicked t ids)
      (fun _ row => { row with leaseUntil := some (t.clock + claimLease), restorableUntil := none })
      (fun _ => .deleting) where
  root := roots_of_filter fun _ hp => hp.2.2.1
  part row root _ _ hagree := by rw [hagree.status]
  keeps _ _ := ⟨rfl, rfl, rfl, rfl, rfl⟩
  status _ _ hon _ := of_decide_eq_true hon
  restorable _ _ _ := rfl

theorem Inv.mediaClaim (h : Inv t) (ids : List Uuid) : Inv (mediaClaim t ids) := by
  refine h.move_uncounted (mediaClaim_move t ids) (fun root _ hon => ?_) fun _ _ => ⟨rfl, rfl⟩
  rw [of_decide_eq_true hon]
  exact ⟨rfl, rfl⟩

theorem mediaWithdrawn_move (t : Tables) (ids : List Uuid) :
    Move t.media (fun media _ => media.status = .deleting ∧ media.restorableUntil.all (· ≤ t.clock)) (withdrawnDue t ids)
      (fun _ row =>
        { row with
          status := if t.onHold (row.parentId.getD row.id) then .held else .deleting
          restorableUntil := none
          leaseUntil := none })
      (fun root => if t.onHold root.id then .held else .deleting) where
  root := roots_of_filter fun _ hp => hp.2.2.1
  part row root _ _ hagree := by rw [hagree.status, hagree.restorable]
  keeps _ _ := ⟨rfl, rfl, rfl, rfl, rfl⟩
  status root row _ hfamily := by
    obtain ⟨hparent, hid⟩ | hparent := hfamily <;> simp [*]
  restorable _ _ _ := rfl

theorem Inv.mediaWithdrawn (h : Inv t) (ids : List Uuid) : Inv (mediaWithdrawn t ids) := by
  refine h.move_uncounted (mediaWithdrawn_move t ids) (fun root _ hon => ?_) fun root _ => ?_
  · rw [(of_decide_eq_true hon).1]
    exact ⟨rfl, rfl⟩
  · split <;> exact ⟨rfl, rfl⟩

end Uncounted

/-! ## Commits and restores -/

section Gains

variable {t : Tables}

theorem commitFlip_move (t : Tables) (user : String) (id : Uuid) (rootKey : String) (thumbKey : Option String) :
    Move t.media (fun media _ => media.ownerUser = user ∧ media.status = .reserved) (commitRoots t id)
      (fun _ row =>
        { row with
          status := .uploaded
          objectKey := if row.id = id then rootKey else thumbKey.getD row.objectKey
          deleteAfter := some (t.clock + attachWindow) })
      (fun _ => .uploaded) where
  root := roots_of_filter fun _ hp => hp.2.1
  part row root _ _ hagree := by rw [hagree.status, hagree.owner]
  keeps _ _ := ⟨rfl, rfl, rfl, rfl, rfl⟩
  status _ _ _ _ := rfl
  restorable _ _ h := h

/-- The counters of a user whose roots are all moved from a status that does not count to a stored one. -/
theorem Charged.gain (howner : ∀ r ∈ moved, r.2.ownerUser = user) (hwas : ∀ r ∈ moved, r.2.status.stored = false)
    (hnext : ∀ r ∈ moved, (next r.2).stored = true ∧ isReserved (next r.2) = false)
    (hb : u'.bytes = u.bytes + movedTally Row.bytes (fun _ => true) moved)
    (hr : u'.reserved = u.reserved - movedTally Row.bytes (was user isReserved) moved)
    (hf : u'.files = u.files + movedTally rootWeight (fun _ => true) moved) : Charged next moved user u u' := by
  have hlost (weight : Row → Int) : movedTally weight (was user Status.stored) moved = 0 :=
    movedTally_eq_zero fun r hr => by simp [was, hwas r hr]
  have hgain (weight : Row → Int) :
      movedTally weight (becomes next user Status.stored) moved = movedTally weight (fun _ => true) moved :=
    movedTally_congr fun r hr => by simp [becomes, howner r hr, (hnext r hr).1]
  have hreserved : movedTally Row.bytes (becomes next user isReserved) moved = 0 :=
    movedTally_eq_zero fun r hr => by simp [becomes, (hnext r hr).2]
  refine ⟨?_, ?_, ?_⟩
  · rw [hb, hlost, hgain, sub_zero]
  · rw [hr, hreserved, add_zero]
  · rw [hf, hlost, hgain, sub_zero]

theorem Charged.none (howner : ∀ r ∈ moved, r.2.ownerUser ≠ user) : Charged next moved user u u := by
  have hlost (weight : Row → Int) (c : Status → Bool) : movedTally weight (was user c) moved = 0 :=
    movedTally_eq_zero fun r hr => by simp [was, howner r hr]
  have hgain (weight : Row → Int) (c : Status → Bool) : movedTally weight (becomes next user c) moved = 0 :=
    movedTally_eq_zero fun r hr => by simp [becomes, howner r hr]
  refine ⟨?_, ?_, ?_⟩ <;> rw [hlost, hgain, sub_zero, add_zero]

theorem commitFlip_files {user : String} {id : Uuid} {rootKey : String} {thumbKey : Option String} (h : Inv t) :
    (((joinedRows (rootOf (fun media _ => media.ownerUser = user ∧ media.status = .reserved) (commitRoots t id))
      t.media).filter fun r => r.1.id = id).length : Int) = movedTally rootWeight (fun _ => true)
      (joinedRows (rootOf (fun media _ => media.ownerUser = user ∧ media.status = .reserved) (commitRoots t id))
        t.media) := by
  have hm := commitFlip_move t user id rootKey thumbKey
  have hweight : ∀ r ∈ joinedRows (rootOf (fun media _ => media.ownerUser = user ∧ media.status = .reserved)
      (commitRoots t id)) t.media, rootWeight r.1 = if decide (r.1.id = id) then 1 else 0 := by
    rintro ⟨row, root⟩ hr
    obtain ⟨hrow, hj⟩ := mem_joinedRows.1 hr
    obtain ⟨hroot, -, hfamily⟩ := hm.of_rootOf h.families hrow hj
    have hid : root.id = id := (of_decide_eq_true (mem_filter.1 hroot).2).1
    have hkind := (hm.root root hroot).2
    obtain rfl | ⟨hparent, -⟩ := hfamily
    · simp [rootWeight, hkind, hid]
    · have hthumb : row.kind = .thumb := (h.families.thumb row hrow).2 (by rw [hparent]; rfl)
      have hne : row.id ≠ id := fun he =>
        hkind (h.families.ext hrow (hm.root root hroot).1 (he.trans hid.symm) ▸ hthumb)
      simp [rootWeight, hthumb, hne]
  rw [movedTally, map_congr_left fun r hr => by rw [if_pos rfl, hweight r hr],
    ← sum_filter_map (fun r : Row × Row => decide (r.1.id = id)) fun _ => 1]
  simp

theorem Inv.commitFlip (h : Inv t) {id : Uuid} {rootKey : String} {thumbKey : Option String}
    (hc : commitFlip plain t user id rootKey thumbKey = some t') : Inv t' := by
  have hm := commitFlip_move t user id rootKey thumbKey
  have hfiles := @commitFlip_files t user id rootKey thumbKey h
  have hselected : ∀ r ∈ joinedRows (rootOf (fun media _ => media.ownerUser = user ∧ media.status = .reserved)
      (commitRoots t id)) t.media, r.2.ownerUser = user ∧ r.2.status = .reserved := by
    rintro ⟨row, root⟩ hr
    obtain ⟨hrow, hj⟩ := mem_joinedRows.1 hr
    obtain ⟨-, hon, -⟩ := hm.of_rootOf h.families hrow hj
    obtain ⟨-, howner, hstatus, -⟩ := hm.of_moved h.families hr
    obtain ⟨huser, hreserved⟩ := of_decide_eq_true hon
    exact ⟨howner ▸ huser, hstatus ▸ hreserved⟩
  unfold Impl.Media.commitFlip at hc
  dsimp only at hc
  split at hc
  · cases hc
  split at hc
  · cases hc
    refine h.move hm ?_ fun other u u' hu hu' => ?_
    · intro other
      split
      · exact isSome_charge t user _ other
      · rfl
    · split at hu'
      · by_cases hne : other = user
        · subst hne
          rw [Tables.charge, update_self, hu] at hu'
          cases hu'
          refine ⟨Charged.gain (fun r hr => (hselected r hr).1) (fun r hr => ?_) (fun _ _ => ⟨rfl, rfl⟩) ?_ ?_ ?_, ?_⟩
          · rw [(hselected r hr).2]
            rfl
          · rw [← sumOf_eq]
          · refine congrArg (u.reserved - ·) ((sumOf_eq _ _).trans (movedTally_congr fun r hr => ?_))
            simp [was, hselected r hr, isReserved]
          · rw [← hfiles]
          · have hquota := h.quota other u hu
            simp only [plain]
            omega
        · rw [Tables.charge, update_of_ne hne] at hu'
          cases hu.symm.trans hu'
          exact ⟨.none fun r hr he => hne (he.symm.trans (hselected r hr).1), h.quota other u hu⟩
      · rename_i hzero
        cases hu.symm.trans hu'
        refine ⟨.none fun r hr => absurd ?_ hzero, h.quota other u hu⟩
        have hroot := hm.root_moved h.families hr
        have hid : r.2.id = id :=
          (of_decide_eq_true (mem_filter.1 (hm.of_moved h.families hr).1).2).1
        exact_mod_cast length_pos_of_mem (mem_filter.2 ⟨hroot, decide_eq_true hid⟩)
  · cases hc

theorem restoreRows_move (t : Tables) (user : String) (ids : List Uuid) :
    Move t.media (fun media _ => restorable t media) (restoreRoots t user ids)
      (fun root row =>
        { row with
          status := if t.referenced root.id then .attached else .uploaded
          deleteAfter := if t.referenced root.id then none else some (t.clock + attachWindow)
          restorableUntil := none })
      (fun root => if t.referenced root.id then .attached else .uploaded) where
  root := roots_of_filter fun _ hp => hp.2.2.1
  part row root _ _ hagree := by rw [restorable, restorable, hagree.status, hagree.restorable]
  keeps _ _ := ⟨rfl, rfl, rfl, rfl, rfl⟩
  status _ _ _ _ := rfl
  restorable _ _ _ := rfl

theorem restoreRows_files (h : Inv t) (user : String) (ids : List Uuid) :
    ((restoreRoots t user ids).length : Int) = movedTally rootWeight (fun _ => true)
      (joinedRows (rootOf (fun media _ => restorable t media) (restoreRoots t user ids)) t.media) := by
  have hm := restoreRows_move t user ids
  rw [← hm.rootsOf h.families, rootsOf]
  have hids : ((restoreRoots t user ids).map Row.id).Nodup := h.families.ids.sublist (filter_sublist.map _)
  have hperm : List.Perm ((restoreRoots t user ids).map Row.id)
      (((joinedRows (rootOf (fun media _ => restorable t media) (restoreRoots t user ids)) t.media).filter
        fun _ => true).map fun r => r.2.id).dedup := by
    refine (perm_ext_iff_of_nodup hids (nodup_dedup _)).2 fun id => ?_
    rw [List.mem_dedup, List.mem_map, List.mem_map]
    constructor
    · rintro ⟨root, hroot, rfl⟩
      obtain ⟨hmem, hkind⟩ := hm.root root hroot
      have hself := hm.rootOf_root h.families hmem hkind
      rw [if_pos ⟨hroot, (of_decide_eq_true (mem_filter.1 hroot).2).2.2.2.1⟩] at hself
      exact ⟨(root, root), mem_filter.2 ⟨mem_joinedRows.2 ⟨hmem, hself⟩, rfl⟩, rfl⟩
    · rintro ⟨r, hr, rfl⟩
      exact ⟨r.2, (hm.of_moved h.families (mem_filter.1 hr).1).1, rfl⟩
  rw [← hperm.length_eq, length_map]

theorem Inv.restoreRows (h : Inv t) (hr : restoreRows t user ids = some t') : Inv t' := by
  have hm := restoreRows_move t user ids
  have hfiles := restoreRows_files h user ids
  have hselected : ∀ r ∈ joinedRows (rootOf (fun media _ => restorable t media) (restoreRoots t user ids)) t.media,
      r.2.ownerUser = user ∧ r.2.status = .deleting := by
    intro r hr
    obtain ⟨-, howner, -, hrest, -⟩ :=
      of_decide_eq_true (mem_filter.1 (hm.of_moved h.families hr).1).2
    exact ⟨howner, (of_decide_eq_true hrest).1⟩
  unfold Impl.Media.restoreRows at hr
  dsimp only at hr
  split at hr
  · cases hr
  rename_i u hu
  split_ifs at hr with hfits
  cases hr
  refine h.move hm (isSome_charge t user _) fun other u₁ u' hu₁ hu' => ?_
  by_cases hne : other = user
  · subst hne
    rw [Tables.charge, update_self, hu] at hu'
    cases hu.symm.trans hu₁
    cases hu'
    refine ⟨Charged.gain (fun r hr => (hselected r hr).1) (fun r hr => ?_) (fun r _ => ?_) ?_ ?_ ?_, ?_⟩
    · rw [(hselected r hr).2]
      rfl
    · split <;> exact ⟨rfl, rfl⟩
    · rw [← sumOf_eq]
    · refine (sub_eq_self.2 (movedTally_eq_zero fun r hr => ?_)).symm
      simp [was, hselected r hr, isReserved]
    · rw [← hfiles]
    · have hquota := hfits.2
      dsimp only
      omega
  · rw [Tables.charge, update_of_ne hne] at hu'
    cases hu₁.symm.trans hu'
    exact ⟨.none fun r hr he => hne (he.symm.trans (hselected r hr).1), h.quota other _ hu₁⟩

end Gains

/-! ## The other statements -/

section Others

variable {t : Tables}

theorem Inv.refresh (h : Inv t) (id : Uuid) : Inv (refresh t id) := by
  refine h.map (fun row => ?_) (fun row _ root _ _ _ hagree => ?_) fun row => ?_
  · split <;> exact ⟨rfl, rfl, rfl, rfl, rfl⟩
  · constructor
    · split <;> split <;> exact hagree.owner
    · split <;> split <;> exact hagree.status
    · split <;> split <;> exact hagree.restorable
  · split <;> exact ⟨rfl, rfl⟩

theorem attach_root (h : Inv t)
    (hids : ids.all (· ∈ ((t.media.filter fun row => row.id ∈ ids ∧ row.kind ≠ .thumb).filter fun row =>
      row.kind = kind ∧ row.status.stored).map Row.id)) (hrow : row ∈ t.media) (hid : row.id ∈ ids) :
    row.kind ≠ .thumb := by
  have hmem := of_decide_eq_true (all_eq_true.1 hids row.id hid)
  obtain ⟨root, hroot, he⟩ := mem_map.1 hmem
  obtain ⟨hroot, hkind⟩ := mem_filter.1 (mem_filter.1 hroot).1
  exact h.families.ext hroot hrow he ▸ (of_decide_eq_true hkind).2

theorem Inv.attach (h : Inv t) {conversation : Uuid} {seq : Int}
    (ha : attach t kind ids conversation seq = some t') : Inv t' := by
  unfold Impl.Media.attach at ha
  dsimp only at ha
  split_ifs at ha with hids
  cases ha
  have hmap := @Inv.map t h (fun row => if (row.id ∈ ids ∨ row.parentId.any (· ∈ ids)) ∧ row.status = .uploaded then
    { row with status := .attached, deleteAfter := none } else row) ?_ ?_ ?_
  · exact ⟨hmap.families, hmap.owners, hmap.counts, hmap.quota⟩
  · intro row
    split <;> exact ⟨rfl, rfl, rfl, rfl, rfl⟩
  · intro row hrow root hroot hkind hparent hagree
    -- a thumb is taken with its root, since its own id is not among those given
    have hsame : ((row.id ∈ ids ∨ row.parentId.any (· ∈ ids)) ∧ row.status = .uploaded) ↔
        ((root.id ∈ ids ∨ root.parentId.any (· ∈ ids)) ∧ root.status = .uploaded) := by
      have hthumb : row.kind = .thumb := (h.families.thumb row hrow).2 (by rw [hparent]; rfl)
      have hnot : row.id ∉ ids := fun hid => attach_root h hids hrow hid hthumb
      simp [hnot, hparent, h.families.parent_none hroot hkind, hagree.status]
    by_cases hcond : (root.id ∈ ids ∨ root.parentId.any (· ∈ ids)) ∧ root.status = .uploaded
    · rw [if_pos hcond, if_pos (hsame.2 hcond)]
      exact ⟨hagree.owner, rfl, hagree.restorable⟩
    · rw [if_neg hcond, if_neg fun hc => hcond (hsame.1 hc)]
      exact hagree
  · intro row
    split
    · rename_i hcond
      rw [hcond.2]
      exact ⟨rfl, rfl⟩
    · exact ⟨rfl, rfl⟩

theorem Inv.mediaDropDone (h : Inv t) (ids : List Uuid) : Inv (mediaDropDone t ids) := by
  have htally (weight : Row → Int) (c : Status → Bool) (user : String) (hc : c .deleting = false) :
      tally weight c user (Impl.Media.mediaDropDone t ids).media = tally weight c user t.media := by
    rw [tally, Impl.Media.mediaDropDone, sum_filter_map, tally]
    refine congrArg List.sum (map_congr_left fun row _ => ?_)
    by_cases hs : row.status = .deleting <;> simp [hs, hc]
  refine ⟨⟨?_, ?_, ?_, ?_, ?_⟩, ?_, ?_, h.quota⟩
  · exact h.families.ids.sublist (filter_sublist.map _)
  · exact fun row hrow => h.families.thumb row (mem_filter.1 hrow).1
  · intro row hrow id hid
    obtain ⟨hrow, hkept⟩ := mem_filter.1 hrow
    obtain ⟨root, hroot, rfl, hkind, hagree⟩ := h.families.part row hrow id hid
    refine ⟨root, mem_filter.2 ⟨hroot, ?_⟩, rfl, hkind, hagree⟩
    -- a root that is dropped takes its thumb along
    have hkept := of_decide_eq_true hkept
    refine decide_eq_true fun hdrop => hkept ⟨hagree.status.trans hdrop.1, .inr ?_⟩
    rw [h.families.parent_none hroot hkind] at hdrop
    rw [hid]
    simpa using hdrop.2
  · exact h.families.single.sublist (filter_sublist.filterMap _)
  · exact fun row hrow => h.families.bytes row (mem_filter.1 hrow).1
  · exact fun row hrow => h.owners row (mem_filter.1 hrow).1
  · intro user u hu
    obtain ⟨hb, hr, hf⟩ := h.counts user u hu
    exact ⟨hb.trans (htally _ _ _ rfl).symm, hr.trans (htally _ _ _ rfl).symm, hf.trans (htally _ _ _ rfl).symm⟩

theorem tally_append (weight : Row → Int) (c : Status → Bool) (user : String) (a b : List Row) :
    tally weight c user (a ++ b) = tally weight c user a + tally weight c user b := by
  rw [tally, map_append, sum_append, tally, tally]

theorem tally_eq_zero {weight : Row → Int} {c : Status → Bool} {media : List Row}
    (h : ∀ row ∈ media, ¬ (row.ownerUser = user ∧ c row.status = true)) : tally weight c user media = 0 := by
  rw [tally, map_congr_left fun row hrow => if_neg (h row hrow)]
  simp

theorem mem_rows {now : Int} (h : row ∈ r.rows now) :
    row.ownerUser = r.user ∧ row.status = .reserved ∧ row.restorableUntil = none ∧
      ((row.id = r.id ∧ row.kind = r.kind ∧ row.parentId = none) ∨
        (row.kind = .thumb ∧ row.parentId = some r.id)) := by
  obtain rfl | h := mem_cons.1 h
  · exact ⟨rfl, rfl, rfl, .inl ⟨rfl, rfl, rfl⟩⟩
  · obtain ⟨thumb, -, rfl⟩ := map_eq_some_iff.1 (mem_toList.1 h)
    exact ⟨rfl, rfl, rfl, .inr ⟨rfl, rfl⟩⟩

theorem families_reserve {now : Int} (h : Families t.media)
    (hc : constraints (t.media ++ r.rows now) = true) : Families (t.media ++ r.rows now) := by
  rw [constraints, and_eq_true, and_eq_true, decide_eq_true_eq, decide_eq_true_eq, List.all_eq_true] at hc
  obtain ⟨⟨hids, -⟩, hbytes⟩ := hc
  have hnew : ∀ row ∈ t.media, row.id ≠ r.id := by
    rw [List.map_append, List.nodup_append] at hids
    exact fun row hrow => hids.2.2 _ (List.mem_map_of_mem hrow) _ List.mem_cons_self
  refine ⟨hids, fun row hrow => ?_, fun row hrow id hid => ?_, ?_, fun row hrow => of_decide_eq_true (hbytes row hrow)⟩
  · obtain hrow | hrow := List.mem_append.1 hrow
    · exact h.thumb row hrow
    · obtain ⟨-, -, -, ⟨-, hkind, hparent⟩ | ⟨hkind, hparent⟩⟩ := mem_rows hrow
      · simp [hkind, hparent, r.root]
      · simp [hkind, hparent]
  · obtain hrow | hrow := List.mem_append.1 hrow
    · obtain ⟨root, hroot, hrest⟩ := h.part row hrow id hid
      exact ⟨root, List.mem_append_left _ hroot, hrest⟩
    · obtain ⟨howner, hstatus, hrest, ⟨-, -, hparent⟩ | ⟨-, hparent⟩⟩ := mem_rows hrow
      · exact nomatch hparent.symm.trans hid
      · cases hparent.symm.trans hid
        exact ⟨_, List.mem_append_right _ List.mem_cons_self, rfl, r.root, howner, hstatus, hrest⟩
  · rw [List.filterMap_append, List.nodup_append]
    refine ⟨h.single, ?_, fun id hid id' hid' he => ?_⟩
    · cases hthumb : r.thumb <;> simp [Reserve.rows, hthumb]
    · obtain ⟨row, hrow, hparent⟩ := List.mem_filterMap.1 hid
      obtain ⟨root, hroot, hrootId, -⟩ := h.part row hrow id hparent
      obtain ⟨row', hrow', hparent'⟩ := List.mem_filterMap.1 hid'
      obtain ⟨-, -, -, ⟨-, -, hnone⟩ | ⟨-, hsome⟩⟩ := mem_rows hrow'
      · exact nomatch hnone.symm.trans hparent'
      · cases hsome.symm.trans hparent'
        exact hnew root hroot (hrootId.trans he)

theorem tally_rows (r : Reserve) (now : Int) (user : String) :
    tally Row.bytes isReserved user (r.rows now) = (if r.user = user then r.total else 0) ∧
      tally Row.bytes Status.stored user (r.rows now) = 0 ∧ tally rootWeight Status.stored user (r.rows now) = 0 := by
  refine ⟨?_, tally_eq_zero fun row hrow hs => ?_, tally_eq_zero fun row hrow hs => ?_⟩
  · cases hthumb : r.thumb <;> by_cases hu : r.user = user <;>
      simp [tally, Reserve.rows, Reserve.total, hthumb, hu, isReserved]
  · rw [(mem_rows hrow).2.1] at hs
    exact false_ne_true hs.2
  · rw [(mem_rows hrow).2.1] at hs
    exact false_ne_true hs.2

theorem reserveQuota_eq_some {usage : Option Usage} {bytes : Int} (h : reserveQuota usage bytes today = some u') :
    u'.bytes = usage.elim 0 Usage.bytes ∧ u'.reserved = usage.elim 0 Usage.reserved + bytes ∧
      u'.files = usage.elim 0 Usage.files ∧ u'.bytes + u'.reserved ≤ quotaBytes := by
  unfold reserveQuota at h
  split at h
  · split_ifs at h with hfits
    cases h
    exact ⟨rfl, (zero_add _).symm, rfl, by dsimp only; omega⟩
  · rename_i u
    dsimp only at h
    generalize (if u.day = today then u.dayBytes else 0) = dayBytes at h
    split_ifs at h with hfits
    cases h
    exact ⟨rfl, rfl, rfl, by dsimp only; omega⟩

theorem Inv.reserve (h : Inv t) (hr : reserve t r today = some t') : Inv t' := by
  unfold Impl.Media.reserve at hr
  dsimp only at hr
  split at hr
  · cases hr
  split_ifs at hr with hc
  obtain ⟨u', hquota, rfl⟩ := map_eq_some_iff.1 hr
  obtain ⟨hb, hres, hf, hfits⟩ := reserveQuota_eq_some hquota
  have hold : Counts t.media r.user ⟨(t.usage r.user).elim 0 Usage.bytes, (t.usage r.user).elim 0 Usage.reserved,
      (t.usage r.user).elim 0 Usage.files, 0, 0⟩ := by
    cases hu : t.usage r.user with
    | none =>
      have hno (c : Status → Bool) : ∀ row ∈ t.media, ¬ (row.ownerUser = r.user ∧ c row.status = true) := by
        intro row hrow hs
        have := h.owners row hrow
        rw [hs.1, hu] at this
        exact nomatch this
      exact ⟨(tally_eq_zero (hno _)).symm, (tally_eq_zero (hno _)).symm, (tally_eq_zero (hno _)).symm⟩
    | some u => exact ⟨(h.counts _ u hu).bytes, (h.counts _ u hu).reserved, (h.counts _ u hu).files⟩
  have hself : update t.usage r.user (some u') r.user = some u' := update_self _ _ _
  refine ⟨families_reserve h.families hc, fun row hrow => ?_, fun user u hu => ?_, fun user u hu => ?_⟩
  · by_cases hne : row.ownerUser = r.user
    · rw [hne]
      exact isSome_iff_exists.2 ⟨u', hself⟩
    · obtain hrow | hrow := mem_append.1 hrow
      · have := h.owners row hrow
        rwa [← update_of_ne hne (some u') t.usage] at this
      · exact absurd (mem_rows hrow).1 hne
  · obtain ⟨hrows, hstored, hfiles⟩ := tally_rows r t.clock user
    by_cases hne : user = r.user
    · subst hne
      cases some.inj (hself.symm.trans hu)
      rw [if_pos rfl] at hrows
      refine ⟨?_, ?_, ?_⟩
      · rw [tally_append, hstored, add_zero, hb, ← hold.bytes]
      · rw [tally_append, hrows, hres, ← hold.reserved]
      · rw [tally_append, hfiles, add_zero, hf, ← hold.files]
    · have hu : t.usage user = some u := (update_of_ne hne _ _).symm.trans hu
      obtain ⟨hb, hres, hf⟩ := h.counts user u hu
      rw [if_neg fun he => hne he.symm] at hrows
      refine ⟨?_, ?_, ?_⟩
      · rw [tally_append, hstored, add_zero, hb]
      · rw [tally_append, hrows, add_zero, hres]
      · rw [tally_append, hfiles, add_zero, hf]
  · by_cases hne : user = r.user
    · subst hne
      cases some.inj (hself.symm.trans hu)
      exact hfits
    · exact h.quota user u ((update_of_ne hne _ _).symm.trans hu)

end Others

end SC.Proof.Media
