import SoundCloudBackend.Proof.Playlist.Agree
import SoundCloudBackend.Proof.Playlist.Projection

/-!
# Replace and order edits

`derive_order` asks for a new order by anchored additions, removals and at most one
reorder. The additions put in what was submitted and leave the rest where it is
(`mem_adds`, `filter_adds`), the removals take out what was not submitted
(`applyAll_removes`), and the reorder writes the submitted tracks over their slots
(`submitted_in_order`), whether it is emitted or would change nothing
(`applyAll_deriveOrder`).
-/

namespace SC.Proof.Playlist

open Impl.Playlist
open List

variable {l p s : List TrackId} {t : TrackId}
variable {members : List TrackId} {previous : Option TrackId} {q : TrackId → Bool} {ops : List Operation}

theorem applyAll_append (l : List TrackId) (os os' : List Operation) :
    applyAll l (os ++ os') = applyAll (applyAll l os) os' :=
  foldl_append

/-! ## Additions -/

theorem mem_adds (hmem : ∀ u ∈ members, u ∈ l) :
    t ∈ applyAll l (deriveAdds members previous s) ↔ t ∈ l ∨ t ∈ s := by
  induction s generalizing l previous with
  | nil => simp [deriveAdds, applyAll]
  | cons x s ih =>
    rw [deriveAdds.eq_def]
    by_cases hx : x ∈ members
    · have hxl : t = x → t ∈ l := fun h => h ▸ hmem x hx
      simp only [hx, if_true, ih hmem, mem_cons]
      tauto
    · simp only [hx, if_false]
      refine (ih fun u hu => mem_add_apply.2 (.inr (hmem u hu))).trans ?_
      rw [mem_add_apply, mem_cons, or_assoc, or_left_comm]

theorem nodup_adds (hl : l.Nodup) : (applyAll l (deriveAdds members previous s)).Nodup := by
  induction s generalizing l previous with
  | nil => exact hl
  | cons x s ih =>
    rw [deriveAdds.eq_def]
    by_cases hx : x ∈ members
    · simp only [hx, if_true]
      exact ih hl
    · simp only [hx, if_false]
      exact ih (apply_nodup hl trivial)

theorem filter_add_apply {x : TrackId} (hx : q x = false) (P : Placement) :
    ((Operation.add x P).apply l).filter q = l.filter q := by
  cases h : positionOf l x with
  | none =>
    simp only [Operation.apply, h, insertIdx_split (insertPosition_le l P), filter_append]
    rw [filter_cons_of_neg (by simp [hx]), ← filter_append, take_append_drop]
  | some i => simp only [Operation.apply, h]

theorem filter_adds
    (hq : ∀ u ∈ s, q u = false) : (applyAll l (deriveAdds members previous s)).filter q = l.filter q := by
  induction s generalizing l previous with
  | nil => rfl
  | cons x s ih =>
    have hs : ∀ u ∈ s, q u = false := fun u hu => hq u (mem_cons_of_mem _ hu)
    rw [deriveAdds.eq_def]
    by_cases hx : x ∈ members
    · simp only [hx, if_true]
      exact ih hs
    · simp only [hx, if_false]
      exact (ih hs).trans (filter_add_apply (hq x mem_cons_self) _)

/-! ## Removals -/

theorem remove_apply (hl : l.Nodup) (x : TrackId) : (Operation.remove x).apply l = l.filter fun u => u ≠ x := by
  cases h : positionOf l x with
  | none =>
    simp only [Operation.apply, h]
    refine (filter_eq_self.2 fun u hu => ?_).symm
    simpa using fun hux : u = x => positionOf_eq_none.1 h (hux ▸ hu)
  | some i => simp only [Operation.apply, h, eraseIdx_positionOf hl h]

theorem applyAll_removes (hl : l.Nodup) (ts : List TrackId) :
    applyAll l (ts.map .remove) = l.filter fun u => u ∉ ts := by
  induction ts generalizing l with
  | nil => simp [applyAll]
  | cons x ts ih =>
    have hstep : applyAll l ((x :: ts).map .remove) = applyAll ((Operation.remove x).apply l) (ts.map .remove) := rfl
    rw [hstep, remove_apply hl, ih (hl.filter _), filter_filter]
    refine filter_congr fun u _ => ?_
    simp only [mem_cons, not_or, ne_eq, Bool.decide_and, Bool.and_comm]

/-! ## The reorder -/

theorem applyAll_deriveOrder (s p : List TrackId) (replace : Bool) :
    ∃ projected, projected = applyAll p (deriveAdds p none s ++
        if replace then (p.filter fun t => t ∉ s).map .remove else []) ∧
      applyAll p (deriveOrder s p replace) = (Operation.reorder s).apply projected := by
  refine ⟨_, rfl, ?_⟩
  simp only [deriveOrder]
  generalize deriveAdds p none s ++ _ = operations
  split
  · rw [applyAll_append]
    rfl
  · rename_i hsame
    exact (Decidable.not_not.1 hsame).symm

/-- A reorder of tracks that are all there: they come in the given order, the others stay in theirs. -/
theorem submitted_in_order (hl : l.Nodup) (hs : s.Nodup) (hsub : ∀ t ∈ s, t ∈ l) :
    ((Operation.reorder s).apply l).filter (· ∈ s) = s ∧
      ((Operation.reorder s).apply l).filter (fun t => t ∉ s) = l.filter fun t => t ∉ s := by
  have hnamed : s.filter (· ∈ l) = s := filter_eq_self.2 fun t ht => by simpa using hsub t ht
  have hlen := length_named hl hs
  rw [hnamed] at hlen
  rw [reorder_apply, hnamed]
  have hp : ∀ t ∈ s, (fun t => decide (t ∈ s)) t = true := fun t ht => by simpa using ht
  refine ⟨filter_refill hlen hp, ?_⟩
  simpa only [decide_not] using filter_not_refill hp

theorem mem_reorder_apply (hl : l.Nodup) (hs : s.Nodup) : t ∈ (Operation.reorder s).apply l ↔ t ∈ l := by
  rw [reorder_apply, (reorder_perm hl hs).mem_iff]

/-! ## What the client asked for -/

theorem derive_order_eq (h : derive (.order s) p = .ok ops) : ops = deriveOrder s p false := by
  simp only [derive] at h
  split_ifs at h
  exact (Except.ok.inj h).symm

theorem derive_replace_eq (h : derive (.replace s) p = .ok ops) : ops = deriveOrder s p true := by
  simp only [derive] at h
  split_ifs at h
  exact (Except.ok.inj h).symm

theorem applyAll_replace (hp : p.Nodup) (hs : s.Nodup) : applyAll p (deriveOrder s p true) = s := by
  obtain ⟨projected, hprojected, hresult⟩ := applyAll_deriveOrder s p true
  rw [if_pos rfl, applyAll_append, applyAll_removes (nodup_adds hp)] at hprojected
  have hnodup : projected.Nodup := hprojected ▸ (nodup_adds hp).filter _
  have hmem : ∀ t, t ∈ projected ↔ t ∈ s := by
    intro t
    rw [hprojected, mem_filter, mem_adds fun _ => id]
    simp only [mem_filter, decide_eq_true_eq, not_and, Decidable.not_not]
    tauto
  rw [hresult]
  have horder := (submitted_in_order hnodup hs fun t ht => (hmem t).2 ht).1
  rwa [filter_eq_self.2] at horder
  intro t ht
  simpa using (hmem t).1 ((mem_reorder_apply hnodup hs).1 ht)

/-- What an order request gives: the tracks of both lists, the submitted ones in their order and the others in theirs. -/
structure Ordered (s p result : List TrackId) : Prop where
  nodup : result.Nodup
  mem_iff : ∀ t, t ∈ result ↔ t ∈ p ∨ t ∈ s
  submitted : result.filter (· ∈ s) = s
  others : result.filter (fun t => t ∉ s) = p.filter fun t => t ∉ s

theorem applyAll_order (hp : p.Nodup) (hs : s.Nodup) : Ordered s p (applyAll p (deriveOrder s p false)) := by
  obtain ⟨projected, hprojected, hresult⟩ := applyAll_deriveOrder s p false
  rw [if_neg Bool.false_ne_true, append_nil] at hprojected
  have hnodup : projected.Nodup := hprojected ▸ nodup_adds hp
  have hmem : ∀ t, t ∈ projected ↔ t ∈ p ∨ t ∈ s := by
    intro t
    rw [hprojected, mem_adds fun _ => id]
  have hothers : projected.filter (fun t => t ∉ s) = p.filter fun t => t ∉ s := by
    rw [hprojected]
    exact filter_adds fun u hu => by simpa using hu
  obtain ⟨hsubmitted, hkept⟩ := submitted_in_order hnodup hs fun t ht => (hmem t).2 (.inr ht)
  rw [hresult]
  refine ⟨apply_nodup hnodup hs, fun t => ?_, hsubmitted, hkept.trans hothers⟩
  rw [mem_reorder_apply hnodup hs, hmem]

theorem remove_notMem_adds (members : List TrackId) (previous : Option TrackId) (s : List TrackId) (t : TrackId) :
    Operation.remove t ∉ deriveAdds members previous s := by
  induction s generalizing previous with
  | nil => simp [deriveAdds]
  | cons x s ih =>
    rw [deriveAdds.eq_def]
    by_cases hx : x ∈ members
    · simp only [hx, if_true]
      exact ih _
    · simpa [hx] using ih (some x)

theorem remove_notMem_order (s p : List TrackId) (t : TrackId) : Operation.remove t ∉ deriveOrder s p false := by
  have hadds := remove_notMem_adds p none s t
  simp only [deriveOrder, Bool.false_eq_true, if_false, append_nil]
  split
  · simpa using hadds
  · exact hadds

/-- Replace and order edits do what the client asked: the operations of a replace lead to the submitted list, those of an
order to the submitted tracks in their order among the other ones, and no order removes a track. -/
theorem edits_as_asked : (∀ s p ops, s.Nodup → p.Nodup → derive (.replace s) p = .ok ops → applyAll p ops = s) ∧
    (∀ s p ops, s.Nodup → p.Nodup → derive (.order s) p = .ok ops → Ordered s p (applyAll p ops)) ∧
    ∀ s p ops t, derive (.order s) p = .ok ops → Operation.remove t ∉ ops := by
  refine ⟨?_, ?_, ?_⟩
  · intro s p ops hs hp h
    rw [derive_replace_eq h]
    exact applyAll_replace hp hs
  · intro s p ops hs hp h
    rw [derive_order_eq h]
    exact applyAll_order hp hs
  · intro s p ops t h
    rw [derive_order_eq h]
    exact remove_notMem_order s p t

/-- One track removed, one added and two swapped; and the same request as an order, which keeps the removed track. -/
theorem edits_as_asked_swap :
    applyAll ["a", "b", "c"] [.add "d" (.anchored (some "c") none), .remove "b", .reorder ["c", "d", "a"]] =
        ["c", "d", "a"] ∧
      Ordered ["c", "d", "a"] ["a", "b", "c"] (applyAll ["a", "b", "c"]
        [.add "d" (.anchored (some "c") none), .reorder ["c", "d", "a"]]) :=
  ⟨edits_as_asked.1 _ _ _ (by decide) (by decide) (by rfl), edits_as_asked.2.1 _ _ _ (by decide) (by decide) (by rfl)⟩

/-! ## From the request to the rows -/

theorem tracksByPosition_nodup {rows : List ProjectionRow} (h : ProjectionValid rows) : (tracksByPosition rows).Nodup :=
  ((orderByPosition_perm rows).map _).nodup_iff.2 h.tracks

/-- An edit whose command is applied: the rows then read what the api made of its list, and the jobs that replay the
same operations on the former list push this list. -/
theorem edit_stored {edit : TrackEdit} {ops : List Operation} {st st' : JournalTables} {args : MembershipOp}
    {out : OpOutput} {touched : List Touched} {pending : List PendingOperation} (committed : Int)
    (hrows : ProjectionValid st.rows) (he : TrackEdit.DuplicateFree edit)
    (hd : derive edit (tracksByPosition st.rows) = .ok ops)
    (hargs : args.operations.map Submitted.operation = ops.map Operation.row)
    (hpending : pending.map (fun o => some o.intent) = ops.map fun o => o.row.intent)
    (h : membershipOpRows st args = some (st', out, touched)) (happlied : out.status = .applied) :
    tracksByPosition st'.rows = applyAll (tracksByPosition st.rows) ops ∧
      (reduce (tracksByPosition st.rows) pending committed).candidate = tracksByPosition st'.rows := by
  have hp := tracksByPosition_nodup hrows
  have happ := derive_applies hp he hd
  obtain ⟨positions, -, hwrite, -⟩ := membershipOpRows_applied h happlied
  have hstored : tracksByPosition st'.rows = applyAll (tracksByPosition st.rows) ops := by
    rw [(written_of_writeProjection hwrite).reads hrows, foldedTracks, hargs]
    exact foldl_kind hp happ
  have hintents : pending.map PendingOperation.intent = ops.map Operation.toIntent := by
    refine map_injective_iff.2 (fun _ _ => Option.some.inj) ?_
    rw [← map_row_intent happ, ← hpending, map_map]
    rfl
  refine ⟨hstored, hstored ▸ (reduce_of_pending ops.length committed ?_).1⟩
  rw [hintents, foldl_reduceStep hp happ, nil_append]

/-- The operations that replace `[a, b, c]` by `[c, d, a]`. -/
def replaceTracks : MembershipOp :=
  ⟨0, [⟨1, 1, (Operation.add "d" (.anchored (some "c") none)).row⟩, ⟨2, 2, (Operation.remove "b").row⟩,
    ⟨3, 3, (Operation.reorder ["c", "d", "a"]).row⟩], none, true, true, fun _ => true⟩

theorem edit_stored_gapped : ∃ st' out touched, membershipOpRows gapped replaceTracks = some (st', out, touched) ∧
    out.status = .applied ∧ tracksByPosition st'.rows = ["c", "d", "a"] := by
  have happlied : (membershipOpRows gapped replaceTracks).map (fun r => r.2.1.status) = some .applied := by decide +kernel
  obtain ⟨⟨st', out, touched⟩, h, happlied⟩ := Option.map_eq_some_iff.1 happlied
  have hd : derive (.replace ["c", "d", "a"]) (tracksByPosition gapped.rows) =
      .ok [.add "d" (.anchored (some "c") none), .remove "b", .reorder ["c", "d", "a"]] := by decide +kernel
  have hpending : [⟨1, 1, .add "d" (.anchored (some "c") none)⟩, ⟨2, 2, .remove "b"⟩, ⟨3, 3, .reorder ["c", "d", "a"]⟩].map
      (fun o : PendingOperation => some o.intent) = [Operation.add "d" (.anchored (some "c") none), .remove "b",
        .reorder ["c", "d", "a"]].map fun o => o.row.intent := by decide
  have he : TrackEdit.DuplicateFree (.replace ["c", "d", "a"]) := show ["c", "d", "a"].Nodup by decide
  have hstored := (edit_stored 0 (by decide) he hd rfl hpending h happlied).1
  exact ⟨st', out, touched, h, happlied, hstored.trans (by decide +kernel)⟩

end SC.Proof.Playlist
