import SoundCloudBackend.Proof.Playlist.Replay

/-!
# What a reduction keeps

`reduce` replays the pending operations on the remote list. The operations that it does
not refuse run one after the other (`foldl_reduceStep_kept`), each of them keeps the list
free of duplicates and adds or removes at most the track it names (`mem_applied`), and a
refused one leaves the list alone, also where `apply` takes a track out before it looks
for the second anchor. `reduction_disciplined` puts this together for whole sequences.
-/

namespace SC.Proof.Playlist

open Impl.Playlist
open List

variable {l l' : List TrackId} {is : List Intent} {t : TrackId}
variable {ops : List PendingOperation}

/-! ## Runs -/

theorem run_applied_nodup (hl : l.Nodup) (hs : ∀ i ∈ is, Intent.AnchorsApart i) (h : run applied l is = some l') :
    l'.Nodup := by
  induction is generalizing l with
  | nil => exact Option.some.inj h ▸ hl
  | cons i is ih =>
    obtain ⟨m, hm, hrest⟩ := Option.bind_eq_some_iff.1 h
    have hi := hs i mem_cons_self
    exact ih (applied_nodup hl hi hm) (fun j hj => hs j (mem_cons_of_mem _ hj)) hrest

theorem mem_of_run_applied (hl : l.Nodup) (hs : ∀ i ∈ is, Intent.AnchorsApart i) (h : run applied l is = some l')
    (hr : .remove t ∉ is) (ht : t ∈ l) : t ∈ l' := by
  induction is generalizing l with
  | nil => exact Option.some.inj h ▸ ht
  | cons i is ih =>
    obtain ⟨m, hm, hrest⟩ := Option.bind_eq_some_iff.1 h
    have hi := hs i mem_cons_self
    rw [mem_cons, not_or] at hr
    have htm : t ∈ m := (mem_applied hl hi hm).2 (.inr ⟨ht, Ne.symm hr.1⟩)
    exact ih (applied_nodup hl hi hm) (fun j hj => hs j (mem_cons_of_mem _ hj)) hrest hr.2 htm

theorem added_of_run_applied (hl : l.Nodup) (hs : ∀ i ∈ is, Intent.AnchorsApart i) (h : run applied l is = some l')
    (ht : t ∈ l') : t ∈ l ∨ ∃ Q, .add t Q ∈ is := by
  induction is generalizing l with
  | nil => exact .inl (Option.some.inj h ▸ ht)
  | cons i is ih =>
    obtain ⟨m, hm, hrest⟩ := Option.bind_eq_some_iff.1 h
    have hi := hs i mem_cons_self
    rcases ih (applied_nodup hl hi hm) (fun j hj => hs j (mem_cons_of_mem _ hj)) hrest with htm | ⟨Q, hQ⟩
    · rcases (mem_applied hl hi hm).1 htm with ⟨Q, rfl⟩ | ⟨htl, -⟩
      · exact .inr ⟨Q, mem_cons_self⟩
      · exact .inl htl
    · exact .inr ⟨Q, mem_cons_of_mem _ hQ⟩

/-! ## The reduction -/

theorem le_committedPrefix (resolved : List ResolvedOperation) (floor : Int) : floor ≤ committedPrefix resolved floor := by
  induction resolved generalizing floor with
  | nil => exact Int.le_refl _
  | cons r resolved ih =>
    rw [committedPrefix]
    split
    · exact Int.le_trans (Int.le_max_left _ _) (ih _)
    · exact Int.le_refl _

def Resolution.isConflict (r : Resolution) : Bool :=
  r.conflictCode.isSome

def unrefused (ops : List PendingOperation) (r : Reduction) : List PendingOperation :=
  ((ops.zip r.operations).filter fun p => !Resolution.isConflict p.2.resolution).map Prod.fst

theorem reduce_eq {remote : List TrackId} {ops : List PendingOperation} {floor : Int} {s : ReduceState}
    (hs : (ops.map PendingOperation.intent).foldl reduceStep ⟨remote, [], false⟩ = s) :
    (reduce remote ops floor).candidate = s.candidate ∧
      (reduce remote ops floor).operations = (ops.zip (if s.candidate = remote then
        s.resolutions.map fun r => if r = .pending then .committed else r else s.resolutions)).map fun p =>
          ⟨p.1.operationId, p.1.sequence, p.2⟩ := by
  subst hs
  exact ⟨rfl, rfl⟩

theorem resolution_of_loop (s : ReduceState) {r : Resolution} (h : r ∈ (is.foldl reduceStep s).resolutions) :
    r ∈ s.resolutions ∨ r = .pending ∨ Resolution.isConflict r = true := by
  induction is generalizing s with
  | nil => exact .inl h
  | cons i is ih =>
    rcases ih (reduceStep s i) h with hr | hr
    · rw [reduceStep] at hr
      split at hr
      · simp only [mem_append, mem_singleton] at hr
        exact hr.imp_right .inl
      · simp only [mem_append, mem_singleton] at hr
        refine hr.imp_right fun hr => .inr ?_
        rw [hr]
        rfl
    · exact .inr hr

theorem unrefused_eq {r : Reduction} (rs : List Resolution)
    (hrs : ∀ x ∈ rs, x = .pending ∨ Resolution.isConflict x = true) (f : Resolution → Resolution)
    (hf : ∀ x, Resolution.isConflict (f x) = Resolution.isConflict x)
    (h : r.operations = (ops.zip (rs.map f)).map fun p => ⟨p.1.operationId, p.1.sequence, p.2⟩) :
    unrefused ops r = kept ops rs := by
  rw [unrefused, h, kept]
  clear h
  induction ops generalizing rs with
  | nil => rfl
  | cons o ops ih =>
    cases rs with
    | nil => rfl
    | cons x rs =>
      have ih := ih rs fun y hy => hrs y (mem_cons_of_mem _ hy)
      simp only [map_cons, zip_cons_cons]
      rcases hrs x mem_cons_self with rfl | hx
      · have hpending : Resolution.isConflict Resolution.pending = false := rfl
        rw [filter_cons_of_pos (by simp [hf, hpending]), filter_cons_of_pos (by simp), map_cons,
          map_cons, ih]
      · have hne : x ≠ .pending := by
          rintro rfl
          cases hx
        rw [filter_cons_of_neg (by simp [hf, hx]), filter_cons_of_neg (by simpa using hne), ih]

/-- What a reduction keeps: its candidate is free of duplicates, it answers for every operation in order, refused ones do
not show in the candidate, tracks come and go only by an add or a remove, the rest is committed exactly if the candidate
is the remote list, and the watermark does not fall. -/
structure Disciplined (remote : List TrackId) (ops : List PendingOperation) (floor : Int) (r : Reduction) : Prop where
  nodup : r.candidate.Nodup
  listed : r.operations.map (fun o => (o.operationId, o.sequence)) = ops.map fun o => (o.operationId, o.sequence)
  conflicts_left_out : ∀ floor', (reduce remote (unrefused ops r) floor').candidate = r.candidate
  kept : ∀ t ∈ remote, (∀ o ∈ ops, o.intent ≠ .remove t) → t ∈ r.candidate
  known : ∀ t ∈ r.candidate, t ∈ remote ∨ ∃ o ∈ ops, ∃ Q, o.intent = .add t Q
  committed : ∀ o ∈ r.operations,
    o.resolution = .committed ↔ Resolution.isConflict o.resolution = false ∧ r.candidate = remote
  watermark : floor ≤ r.committedThroughSequence

theorem isConflict_commit (x : Resolution) :
    Resolution.isConflict (if x = .pending then .committed else x) = Resolution.isConflict x := by
  split
  · rename_i hx
    rw [hx]
    rfl
  · rfl

theorem length_resolutions (is : List Intent) (s : ReduceState) :
    (is.foldl reduceStep s).resolutions.length = s.resolutions.length + is.length := by
  induction is generalizing s with
  | nil => rfl
  | cons i is ih =>
    rw [foldl_cons, ih, reduceStep]
    split <;> simp <;> omega

/-- A reduction resolves each operation once, in their order. -/
theorem operations_listed (remote : List TrackId) (ops : List PendingOperation) (floor : Int) :
    (reduce remote ops floor).operations.map (fun o => (o.operationId, o.sequence)) =
      ops.map fun o => (o.operationId, o.sequence) := by
  obtain ⟨-, hops⟩ := @reduce_eq remote ops floor _ rfl
  have hzip : ∀ rs : List Resolution, rs.length = ops.length →
      ((ops.zip rs).map fun p => (p.1.operationId, p.1.sequence)) = ops.map fun o => (o.operationId, o.sequence) := by
    intro rs hrs
    conv_rhs => rw [← map_fst_zip (Nat.le_of_eq hrs.symm), map_map]
    rfl
  rw [hops, map_map]
  refine hzip _ ?_
  split <;> simp [length_resolutions]

/-- Once the loop is done, an operation is committed if it is not refused and the replay gave the remote list back. -/
theorem committed_iff {remote : List TrackId} {floor : Int} {o : ResolvedOperation}
    (ho : o ∈ (reduce remote ops floor).operations) : o.resolution = .committed ↔
      Resolution.isConflict o.resolution = false ∧ (reduce remote ops floor).candidate = remote := by
  obtain ⟨hcand, hops⟩ := @reduce_eq remote ops floor _ rfl
  rw [hops] at ho
  obtain ⟨p, hp, rfl⟩ := mem_map.1 ho
  have hres := (of_mem_zip hp).2
  have hloop : ∀ x ∈ ((ops.map PendingOperation.intent).foldl reduceStep ⟨remote, [], false⟩).resolutions,
      x = .pending ∨ Resolution.isConflict x = true := fun x hx =>
    (resolution_of_loop _ hx).resolve_left (by simp)
  rw [hcand]
  split at hres
  · rename_i hconv
    obtain ⟨x, hx, hxp⟩ := mem_map.1 hres
    simp only [← hxp, hconv, and_true, isConflict_commit]
    rcases hloop x hx with rfl | hx
    · simp [Resolution.isConflict, Resolution.conflictCode]
    · cases x with
      | pending | committed => cases hx
      | conflict code => simp [Resolution.isConflict, Resolution.conflictCode]
  · rename_i hconv
    simp only [hconv, and_false, iff_false]
    intro hp
    rcases hloop _ hres with h | h
    · cases hp.symm.trans h
    · rw [hp] at h
      cases h

/-- Reduction preserves membership and order discipline, for every duplicate-free remote list and every sequence of
operations whose anchors differ from their targets. -/
theorem reduction_disciplined {remote : List TrackId} {ops : List PendingOperation} (floor : Int)
    (hremote : remote.Nodup) (hapart : ∀ o ∈ ops, Intent.AnchorsApart o.intent) :
    Disciplined remote ops floor (reduce remote ops floor) := by
  have hapart' : ∀ i ∈ ops.map PendingOperation.intent, Intent.AnchorsApart i := by
    intro i hi
    obtain ⟨o, ho, rfl⟩ := mem_map.1 hi
    exact hapart o ho
  obtain ⟨hcand, hops⟩ := @reduce_eq remote ops floor _ rfl
  obtain ⟨rs, hrs, hkept, hrun⟩ := foldl_reduceStep_kept ⟨remote, [], false⟩ hremote hapart'
  rw [nil_append] at hrs
  have happlied : ∀ i ∈ accepted remote (ops.map PendingOperation.intent), Intent.AnchorsApart i := fun i hi =>
    hapart' i (mem_accepted hi)
  refine ⟨?_, operations_listed remote ops floor, fun floor' => ?_, fun t ht hr => ?_, fun t ht => ?_,
    fun o ho => committed_iff ho, le_committedPrefix _ _⟩
  · rw [hcand]
    exact run_applied_nodup hremote happlied hrun
  · have hpending : ∀ x ∈ rs, x = .pending ∨ Resolution.isConflict x = true := fun x hx =>
      (resolution_of_loop _ (hrs ▸ hx)).resolve_left (by simp)
    have hunrefused : unrefused ops (reduce remote ops floor) = kept ops rs := by
      rw [hrs] at hops
      split at hops
      · exact unrefused_eq rs hpending _ isConflict_commit hops
      · exact unrefused_eq rs hpending id (fun _ => rfl) (by rwa [map_id])
    obtain ⟨lost, hfold⟩ := foldl_reduceStep_of_run ⟨remote, [], false⟩ hrun
    rw [hunrefused, (@reduce_eq remote (kept ops rs) floor' _ rfl).1, kept_map, hcand, hkept, hfold]
  · rw [hcand]
    refine mem_of_run_applied hremote happlied hrun (fun hmem => ?_) ht
    obtain ⟨o, ho, hoi⟩ := mem_map.1 (mem_accepted hmem)
    exact hr o ho hoi
  · rw [hcand] at ht
    refine (added_of_run_applied hremote happlied hrun ht).imp_right ?_
    rintro ⟨Q, hQ⟩
    obtain ⟨o, ho, hoi⟩ := mem_map.1 (mem_accepted hQ)
    exact ⟨o, ho, Q, hoi⟩

/-- A refused move, an addition and a reorder that names a track twice. -/
def mixedOperations : List PendingOperation :=
  [⟨1, 1, .move "a" (.anchored (some "x") none)⟩, ⟨2, 2, .add "d" (.anchored (some "c") none)⟩,
    ⟨3, 3, .reorder ["b", "b", "a"]⟩]

theorem reduction_disciplined_refused :
    Disciplined ["a", "b", "c"] mixedOperations 0 (reduce ["a", "b", "c"] mixedOperations 0) ∧
      (reduce ["a", "b", "c"] mixedOperations 0).candidate = ["b", "a", "c", "d"] ∧
      (reduce ["a", "b", "c"] mixedOperations 0).operations =
        [⟨1, 1, .conflict moveAnchorMissing⟩, ⟨2, 2, .pending⟩, ⟨3, 3, .pending⟩] := by
  refine ⟨reduction_disciplined 0 (by decide) fun o ho => ?_, by decide, by decide⟩
  simp only [mixedOperations, mem_cons, not_mem_nil, or_false] at ho
  rcases ho with rfl | rfl | rfl
  · simp [Intent.AnchorsApart, Placement.anchors]
  · simp [Intent.AnchorsApart, Placement.anchors]
  · trivial

end SC.Proof.Playlist
