import Mathlib.Data.List.Dedup
import SoundCloudBackend.Framework.Run
import SoundCloudBackend.Impl.Playlist.Projection

/-!
# The stored projection is the folded list

The rows are a set; what they read as is their order by position, and any strictly
ascending arrangement of them is that order (`orderByPosition_eq`). Each of the four write
paths is compared with it: `writeProjection_reads` says that the rows then read
`new_tracks`, and `writeProjection_touches` that every row that came or went has its
position in `positions`. `membershipOpRows_refines` connects the rows with the list model
of the journal, and `membershipOpRows_run` does so for runs of commands.
-/

namespace SC.Proof.Playlist

open Impl.Playlist
open List Option

variable {rows rows' : List ProjectionRow} {oldTracks newTracks : List TrackId} {positions : List Int}
variable {r : ProjectionRow}

/-! ## Order -/

theorem orderByPosition_perm (rows : List ProjectionRow) : (orderByPosition rows).Perm rows :=
  perm_insertionSort _ rows

theorem orderByPosition_sorted (rows : List ProjectionRow) :
    (orderByPosition rows).Pairwise fun r r' => r.position ≤ r'.position := by
  have : Std.Total fun r r' : ProjectionRow => r.position ≤ r'.position := ⟨fun r r' => Int.le_total _ _⟩
  have : IsTrans ProjectionRow fun r r' => r.position ≤ r'.position := ⟨fun _ _ _ => Int.le_trans⟩
  exact pairwise_insertionSort _ rows

theorem orderByPosition_ascending (h : (rows.map ProjectionRow.position).Nodup) :
    (orderByPosition rows).Pairwise fun r r' => r.position < r'.position := by
  have hnodup : ((orderByPosition rows).map ProjectionRow.position).Nodup :=
    ((orderByPosition_perm rows).map _).nodup_iff.2 h
  refine (orderByPosition_sorted rows).imp₂ (fun r r' hle hne => ?_) (pairwise_map.1 hnodup)
  exact Int.lt_iff_le_and_ne.2 ⟨hle, hne⟩

theorem orderByPosition_eq {sorted : List ProjectionRow}
    (hsorted : sorted.Pairwise fun r r' => r.position < r'.position) (h : rows.Perm sorted) :
    orderByPosition rows = sorted := by
  have hperm := (orderByPosition_perm rows).trans h
  have hnodup : (sorted.map ProjectionRow.position).Nodup :=
    pairwise_map.2 (hsorted.imp fun hlt => Int.ne_of_lt hlt)
  refine List.Perm.eq_of_pairwise (fun r r' hr hr' hle hge => ?_) (orderByPosition_sorted rows)
    (hsorted.imp Int.le_of_lt) hperm
  exact inj_on_of_nodup_map hnodup (hperm.subset hr) hr' (Int.le_antisymm hle hge)

theorem length_tracksByPosition (rows : List ProjectionRow) : (tracksByPosition rows).length = rows.length := by
  rw [tracksByPosition, length_map, (orderByPosition_perm rows).length_eq]

theorem mem_tracksByPosition {t : TrackId} : t ∈ tracksByPosition rows ↔ ∃ r ∈ rows, r.scTrackId = t := by
  simp only [tracksByPosition, List.mem_map, (orderByPosition_perm rows).mem_iff]

/-! ## Numbered rows -/

theorem numbered_cons (start : Int) (t : TrackId) (ts : List TrackId) :
    numbered start (t :: ts) = ⟨start, t⟩ :: numbered (start + 1) ts := by
  simp only [numbered, zipIdx_cons, map_cons, Nat.zero_add, Int.natCast_zero, Int.add_zero, zipIdx_succ,
    List.map_map, List.cons.injEq, true_and]
  refine List.map_congr_left fun entry _ => ?_
  simp only [Function.comp_apply, ProjectionRow.mk.injEq, and_true]
  omega

theorem numbered_tracks (start : Int) (ts : List TrackId) : (numbered start ts).map ProjectionRow.scTrackId = ts := by
  induction ts generalizing start with
  | nil => rfl
  | cons t ts ih => rw [numbered_cons, map_cons, ih]

theorem le_of_mem_numbered {start : Int} {ts : List TrackId} (h : r ∈ numbered start ts) : start ≤ r.position := by
  induction ts generalizing start with
  | nil => cases h
  | cons t ts ih =>
    rw [numbered_cons, mem_cons] at h
    rcases h with rfl | h
    · exact Int.le_refl _
    · have := ih h
      omega

theorem numbered_ascending (start : Int) (ts : List TrackId) :
    (numbered start ts).Pairwise fun r r' => r.position < r'.position := by
  induction ts generalizing start with
  | nil => exact List.Pairwise.nil
  | cons t ts ih =>
    rw [numbered_cons, pairwise_cons]
    refine ⟨fun r hr => ?_, ih _⟩
    have := le_of_mem_numbered hr
    simp only
    omega

theorem le_maxPosition (hr : r ∈ rows) : r.position ≤ maxPosition rows := by
  have hmem : r.position ∈ rows.map ProjectionRow.position := mem_map_of_mem hr
  cases hmax : (rows.map ProjectionRow.position).max? with
  | none => simp [List.max?_eq_none_iff.1 hmax] at hmem
  | some m =>
    rw [maxPosition, hmax]
    exact (List.max?_eq_some_iff.1 hmax).2 _ hmem

/-! ## The write paths -/

theorem insertRows_eq_some {inserted : List ProjectionRow} (h : insertRows rows inserted = some rows') :
    rows' = rows ++ inserted ∧ ProjectionValid rows' := by
  rw [insertRows] at h
  split_ifs at h with hvalid
  obtain rfl := some.inj h
  exact ⟨rfl, hvalid⟩

/-- What a write path does: the new rows, the rows that came and the rows that went. -/
inductive Written (rows : List ProjectionRow) (newTracks : List TrackId) : List ProjectionRow → List Int → Prop
  | unchanged (h : newTracks = tracksByPosition rows) : Written rows newTracks rows []
  | appended (added : List TrackId) (h : newTracks = tracksByPosition rows ++ added)
      (hvalid : ProjectionValid (rows ++ numbered (maxPosition rows + 1) added)) :
      Written rows newTracks (rows ++ numbered (maxPosition rows + 1) added)
        ((numbered (maxPosition rows + 1) added).map ProjectionRow.position)
  | deleted (h : (tracksByPosition rows).filter (· ∈ newTracks) = newTracks) :
      Written rows newTracks (rows.filter fun r => r.scTrackId ∈ newTracks)
        ((rows.filter fun r => r.scTrackId ∉ newTracks).map ProjectionRow.position)
  | rewritten (hvalid : ProjectionValid (numbered 0 newTracks)) :
      Written rows newTracks (numbered 0 newTracks)
        (rows.map ProjectionRow.position ++ (numbered 0 newTracks).map ProjectionRow.position)

theorem written_of_writeProjection (h : writeProjection rows (tracksByPosition rows) newTracks = some (rows', positions)) :
    Written rows newTracks rows' positions := by
  have hdropped : ∀ r ∈ rows, r.scTrackId ∈ (tracksByPosition rows).filter (fun member => member ∉ newTracks) ↔
      r.scTrackId ∉ newTracks := by
    intro r hr
    simp only [mem_filter, decide_eq_true_eq, and_iff_right_iff_imp]
    exact fun _ => mem_tracksByPosition.2 ⟨r, hr, rfl⟩
  rw [writeProjection] at h
  split at h
  · rename_i hsame
    cases h
    exact .unchanged hsame
  · split at h
    · rename_i hprefix
      obtain ⟨rows₁, hinsert, heq⟩ := map_eq_some_iff.1 h
      obtain ⟨rfl, hvalid⟩ := insertRows_eq_some hinsert
      cases heq
      refine .appended _ ?_ hvalid
      conv_lhs => rw [← take_append_drop (tracksByPosition rows).length newTracks, hprefix.2]
    · split at h
      · rename_i hkept
        simp only [some.injEq, Prod.mk.injEq] at h
        obtain ⟨rfl, rfl⟩ := h
        have hgone : (rows.filter fun r => r.scTrackId ∈ (tracksByPosition rows).filter fun m => m ∉ newTracks) =
            rows.filter fun r => r.scTrackId ∉ newTracks :=
          filter_congr fun r hr => by simp only [hdropped r hr]
        have hstay : (rows.filter fun r => r.scTrackId ∉ (tracksByPosition rows).filter fun m => m ∉ newTracks) =
            rows.filter fun r => r.scTrackId ∈ newTracks :=
          filter_congr fun r hr => by simp only [hdropped r hr, Decidable.not_not]
        rw [hgone, hstay]
        exact .deleted hkept.2
      · obtain ⟨rows₁, hinsert, heq⟩ := map_eq_some_iff.1 h
        obtain ⟨rfl, hvalid⟩ := insertRows_eq_some hinsert
        cases heq
        exact .rewritten hvalid

theorem Written.valid (h : Written rows newTracks rows' positions) (hrows : ProjectionValid rows) :
    ProjectionValid rows' := by
  cases h with
  | unchanged => exact hrows
  | appended added _ hvalid => exact hvalid
  | deleted =>
    have hsub : (rows.filter fun r => decide (r.scTrackId ∈ newTracks)).Sublist rows := filter_sublist
    exact ⟨hrows.positions.sublist (hsub.map _), fun r hr => hrows.nonnegative r (hsub.subset hr),
      fun r hr => hrows.integer r (hsub.subset hr), hrows.tracks.sublist (hsub.map _)⟩
  | rewritten hvalid => exact hvalid

theorem Written.reads (h : Written rows newTracks rows' positions) (hrows : ProjectionValid rows) :
    tracksByPosition rows' = newTracks := by
  have hasc := orderByPosition_ascending hrows.positions
  cases h with
  | unchanged h => exact h.symm
  | appended added h hvalid =>
    have hsorted : (orderByPosition rows ++ numbered (maxPosition rows + 1) added).Pairwise
        fun r r' => r.position < r'.position := by
      refine pairwise_append.2 ⟨hasc, numbered_ascending _ _, fun r hr r' hr' => ?_⟩
      have hmax := le_maxPosition ((orderByPosition_perm rows).subset hr)
      have hnew := le_of_mem_numbered hr'
      omega
    rw [tracksByPosition, orderByPosition_eq hsorted ((orderByPosition_perm rows).symm.append_right _), map_append,
      numbered_tracks, h]
    rfl
  | deleted h =>
    have hperm := (orderByPosition_perm rows).symm.filter fun r => decide (r.scTrackId ∈ newTracks)
    rw [tracksByPosition, orderByPosition_eq (hasc.sublist filter_sublist) hperm]
    conv_rhs => rw [← h, tracksByPosition, List.filter_map]
    rfl
  | rewritten hvalid =>
    rw [tracksByPosition, orderByPosition_eq (numbered_ascending 0 newTracks) (List.Perm.refl _), numbered_tracks]

theorem Written.touches (h : Written rows newTracks rows' positions) (hr : ¬ (r ∈ rows ↔ r ∈ rows')) :
    r.position ∈ positions := by
  cases h with
  | unchanged => exact absurd Iff.rfl hr
  | appended added _ _ =>
    refine mem_map_of_mem ?_
    by_contra hnot
    exact hr ⟨mem_append_left _, fun hmem => (mem_append.1 hmem).resolve_right hnot⟩
  | deleted h =>
    have hmem : r ∈ rows := by
      by_contra hnot
      exact hr ⟨fun hmem => absurd hmem hnot, fun hmem => (mem_filter.1 hmem).1⟩
    refine mem_map_of_mem (mem_filter.2 ⟨hmem, ?_⟩)
    by_contra hnot
    exact hr ⟨fun _ => mem_filter.2 ⟨hmem, by simpa using hnot⟩, fun _ => hmem⟩
  | rewritten _ =>
    rw [← map_append]
    refine mem_map_of_mem (mem_append.2 ?_)
    by_contra hnot
    rw [not_or] at hnot
    exact hr ⟨fun h => absurd h hnot.1, fun h => absurd h hnot.2⟩

/-! ## The kind -/

variable {s s' : JournalTables} {args : MembershipOp} {out : OpOutput} {touched : List Touched}

theorem ensureStateRow_rows (s : JournalTables) (playlistExists : Bool) :
    (ensureStateRow s playlistExists).1.rows = s.rows := by
  simp only [ensureStateRow]
  split
  · rfl
  · split <;> rfl

theorem ensureStateRow_journal (s : JournalTables) (playlistExists : Bool) :
    (ensureStateRow s playlistExists).1.journal = ensureState s.journal playlistExists := by
  obtain ⟨state, operations, rows, runs⟩ := s
  cases state with
  | some state => rfl
  | none =>
    simp only [ensureStateRow, ensureState, JournalTables.journal]
    split
    · simp only [length_tracksByPosition]
    · rfl

/-- The tracks that the operations of a request make of the stored ones. -/
def foldedTracks (s : JournalTables) (args : MembershipOp) : List TrackId :=
  (args.operations.map Submitted.operation).foldl playlistMembershipApply (tracksByPosition s.rows)

theorem membershipOpRows_refines (hrows : ProjectionValid s.rows)
    (h : membershipOpRows s args = some (s', out, touched)) :
    membershipOp s.journal args = some (s'.journal, out) := by
  obtain ⟨s₁, created, hensured⟩ : ∃ s₁ created, ensureStateRow s args.playlistExists = (s₁, created) := ⟨_, _, rfl⟩
  have hkeep : s₁.rows = s.rows := by rw [← ensureStateRow_rows s args.playlistExists, hensured]
  have hjournal : ensureState s.journal args.playlistExists = s₁.journal := by rw [← ensureStateRow_journal, hensured]
  rw [← hkeep] at hrows
  simp only [membershipOpRows, hensured] at h
  simp only [membershipOp, hjournal]
  -- The journal is not unfolded in the goal; what the rows say is said of it instead.
  have hjstate : s₁.journal.state = s₁.state := rfl
  have hjoperations : s₁.journal.operations = s₁.operations := rfl
  have hjprojection : s₁.journal.projection = tracksByPosition s₁.rows := rfl
  rw [hjstate, hjoperations, hjprojection]
  cases hstate : s₁.state with
  | none =>
    simp only [hstate] at h ⊢
    cases h
    rfl
  | some state =>
    simp only [hstate] at h ⊢
    cases hhead : args.operations.head? with
    | none =>
      simp only [hhead] at h ⊢
      cases h
      rfl
    | some first =>
      simp only [hhead] at h ⊢
      cases hfind : s₁.operations.find? fun o => decide (o.idempotencyKey = first.idempotencyKey) with
      | some replayed =>
        simp only [hfind] at h ⊢
        by_cases hconflict : replayed.outcome = .conflict
        · rw [if_pos hconflict] at h ⊢
          cases h
          rfl
        · rw [if_neg hconflict] at h ⊢
          cases h
          rfl
      | none =>
        simp only [hfind] at h ⊢
        split at h
        · cases h
        rename_i hunique
        refine (if_neg hunique).trans ?_
        by_cases hrefused : (refusalOf state args).isSome = true
        · rw [if_pos hrefused] at h ⊢
          cases h
          rfl
        · rw [if_neg hrefused] at h ⊢
          obtain ⟨⟨rows', positions⟩, hwrite, heq⟩ := map_eq_some_iff.1 h
          cases heq
          have hreads := (written_of_writeProjection hwrite).reads hrows
          simp only [JournalTables.journal, hreads]

theorem membershipOpRows_applied (h : membershipOpRows s args = some (s', out, touched))
    (happlied : out.status = .applied) :
    ∃ positions state, writeProjection s.rows (tracksByPosition s.rows) (foldedTracks s args) = some (s'.rows, positions) ∧
      s'.state = some state ∧ state.projectionTrackCount = (foldedTracks s args).length ∧
      ∀ p ∈ positions, Touched.projection p ∈ touched := by
  have hkeep := ensureStateRow_rows s args.playlistExists
  simp only [membershipOpRows] at h
  simp only [foldedTracks, ← hkeep]
  generalize ensureStateRow s args.playlistExists = ensured at h ⊢
  obtain ⟨s₁, created⟩ := ensured
  simp only at h ⊢
  split at h
  · cases h
    cases happlied
  · rename_i state hstate
    split at h
    · cases h
      cases happlied
    · split at h
      · split at h <;> cases h <;> cases happlied
      · split at h
        · cases h
        split at h
        · cases h
          cases happlied
        · rename_i hrefused
          obtain ⟨⟨rows', positions⟩, hwrite, heq⟩ := map_eq_some_iff.1 h
          cases heq
          refine ⟨positions, _, hwrite, rfl, ?_, fun p hp => mem_append_right _ ?_⟩
          · have hnone : (refusalOf state args).isNone = true := by simpa using hrefused
            simp only [appendState, hnone, if_true]
          · refine mem_map_of_mem ?_
            rw [mem_insertionSort, mem_dedup]
            exact hp

/-- The stored projection after an applied command: it reads as the folded list, with one row for each position, the
count of its rows in the state, and the key of every row that came or went in `touched`. -/
structure ProjectionFolded (s s' : JournalTables) (args : MembershipOp) (touched : List Touched) : Prop where
  reads : tracksByPosition s'.rows = foldedTracks s args
  positions : (s'.rows.map ProjectionRow.position).Nodup
  count : ∃ state, s'.state = some state ∧ state.projectionTrackCount = s'.rows.length
  touched : ∀ r, ¬ (r ∈ s.rows ↔ r ∈ s'.rows) → Touched.projection r.position ∈ touched

theorem projection_folded (hrows : ProjectionValid s.rows) (h : membershipOpRows s args = some (s', out, touched))
    (happlied : out.status = .applied) : ProjectionFolded s s' args touched := by
  obtain ⟨positions, state, hwrite, hstate, hcount, htouched⟩ := membershipOpRows_applied h happlied
  have hwritten := written_of_writeProjection hwrite
  have hreads := hwritten.reads hrows
  refine ⟨hreads, (hwritten.valid hrows).positions, ⟨state, hstate, ?_⟩, fun r hr => htouched _ (hwritten.touches hr)⟩
  rw [hcount, ← hreads, length_tracksByPosition]

def gapped : JournalTables :=
  ⟨some { projectionTrackCount := 3 }, [], [⟨5, "c"⟩, ⟨0, "a"⟩, ⟨2, "b"⟩], []⟩

/-- A request to take the second track out and to put another one at the end. -/
def swapTracks : MembershipOp :=
  ⟨0, [⟨1, 1, (Operation.remove "b").row⟩, ⟨2, 2, (Operation.add "d" (.boundary .back)).row⟩], none, true, true, fun _ => true⟩

theorem projection_folded_gapped :
    ∃ s' out touched, membershipOpRows gapped swapTracks = some (s', out, touched) ∧ out.status = .applied ∧
      ProjectionFolded gapped s' swapTracks touched :=
  ⟨_, _, _, rfl, rfl, projection_folded (by decide) rfl rfl⟩

/-! ## Runs of commands -/

theorem membershipOpRows_rows (h : membershipOpRows s args = some (s', out, touched)) : s'.rows = s.rows ∨
      ∃ positions, writeProjection s.rows (tracksByPosition s.rows) (foldedTracks s args) = some (s'.rows, positions) := by
  have hkeep := ensureStateRow_rows s args.playlistExists
  by_cases happlied : out.status = .applied
  · obtain ⟨positions, -, hwrite, -⟩ := membershipOpRows_applied h happlied
    exact .inr ⟨positions, hwrite⟩
  · simp only [membershipOpRows] at h
    repeat' split at h
    all_goals first
      | (cases h; exact .inl hkeep)
      | cases h
      | (obtain ⟨_, _, heq⟩ := map_eq_some_iff.1 h; cases heq; exact absurd rfl happlied)

/-- Commands on the rows, with the outputs so far. -/
def rowsStep (s : JournalTables × List OpOutput) (args : MembershipOp) : Option (JournalTables × List OpOutput) :=
  (membershipOpRows s.1 args).map fun (s', out, _) => (s', s.2 ++ [out])

def commandStep (s : Journal × List OpOutput) (args : MembershipOp) : Option (Journal × List OpOutput) :=
  (membershipOp s.1 args).map fun (s', out) => (s', s.2 ++ [out])

/-- Every run of commands on the rows is a run on the lists that they read as, with the same outputs. -/
theorem membershipOpRows_run {commands : List MembershipOp} {outs : List OpOutput} (hrows : ProjectionValid s.rows)
    (h : run rowsStep (s, []) commands = some (s', outs)) :
    run commandStep (s.journal, []) commands = some (s'.journal, outs) ∧ ProjectionValid s'.rows := by
  have hkeep {s args s'} (hs : ProjectionValid s.1.rows) (hstep : rowsStep s args = some s') :
      ProjectionValid s'.1.rows := by
    obtain ⟨⟨s₁, out, touched⟩, hop, rfl⟩ := map_eq_some_iff.1 hstep
    rcases membershipOpRows_rows hop with hsame | ⟨positions, hwrite⟩
    · exact hsame ▸ hs
    · exact (written_of_writeProjection hwrite).valid hs
  refine ⟨run_simulates (f := fun s => (s.1.journal, s.2)) hkeep (fun {s args s'} hs hstep => ?_) hrows h,
    run_invariant (I := fun s => ProjectionValid s.1.rows) hkeep hrows h⟩
  obtain ⟨⟨s₁, out, touched⟩, hop, rfl⟩ := map_eq_some_iff.1 hstep
  exact map_eq_some_iff.2 ⟨_, membershipOpRows_refines hs hop, rfl⟩

theorem membershipOpRows_run_gapped : ∃ s' outs, run rowsStep (gapped, []) [swapTracks, swapTracks] = some (s', outs) ∧
    outs.map OpOutput.status = [.applied, .replayed] ∧
    run commandStep (gapped.journal, []) [swapTracks, swapTracks] = some (s'.journal, outs) :=
  ⟨_, _, rfl, rfl, (membershipOpRows_run (by decide) rfl).1⟩

end SC.Proof.Playlist
