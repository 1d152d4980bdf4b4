import SoundCloudBackend.Proof.Playlist.Lists

/-!
# Three implementations of an operation

The api, the SQL kind and jobs each apply an operation to a list of tracks. The
first two agree on every operation and every duplicate-free list
(`kind_apply_row`). Jobs refuses or falls back where the others carry on, so it
agrees where an operation `Applies`; what `derive` emits applies, operation
after operation on the evolving list (`derive_applies`).
-/

namespace SC.Proof.Playlist

open Impl.Playlist
open List Option

variable {l : List TrackId} {x : TrackId}
variable {ids : List TrackId} {ops : List Operation}
variable {p : Placement} {i : Nat} {u b a : TrackId} {o : Operation}

/-! ## Api and SQL -/

theorem arrayPosition_some (l : List TrackId) (x : TrackId) :
    arrayPosition l (some x) = (positionOf l x).map (· + 1) := rfl

theorem slotOf_anchored (l : List TrackId) (r : OperationRow) (hb : r.boundary = none) :
    slotOf l r = insertPosition l (.anchored r.leftAnchorTrackId r.rightAnchorTrackId) := by
  have hright : (arrayPosition l r.rightAnchorTrackId).map (· - 1) = r.rightAnchorTrackId.bind (positionOf l) := by
    cases r.rightAnchorTrackId with
    | none => rfl
    | some t =>
      rw [arrayPosition_some, Option.map_map]
      exact map_id' ..
  have hleft : arrayPosition l r.leftAnchorTrackId = (r.leftAnchorTrackId.bind (positionOf l)).map (· + 1) := by
    cases r.leftAnchorTrackId <;> rfl
  simp only [slotOf, hb, hright, hleft, insertPosition]

theorem slotOf_add (l : List TrackId) (x : TrackId) (p : Placement) :
    slotOf l (Operation.add x p).row = insertPosition l p := by
  cases p with
  | boundary b => cases b <;> rfl
  | anchored left right => exact slotOf_anchored l _ rfl

theorem slotOf_move (l : List TrackId) (x : TrackId) (p : Placement) :
    slotOf l (Operation.move x p).row = insertPosition l p := by
  cases p with
  | boundary b => cases b <;> rfl
  | anchored left right => exact slotOf_anchored l _ rfl

theorem refill_congr {p q : TrackId → Bool} {ns : List TrackId} (h : ∀ t ∈ l, p t = q t) :
    refill p l ns = refill q l ns := by
  induction l generalizing ns with
  | nil => rfl
  | cons y l ih =>
    have htail : ∀ t ∈ l, p t = q t := fun t ht => h t (mem_cons_of_mem _ ht)
    simp only [refill, h y mem_cons_self, ih htail]

theorem reorder_apply (l ids : List TrackId) :
    (Operation.reorder ids).apply l = refill (· ∈ ids) l (ids.filter (· ∈ l)) := by
  simp only [Operation.apply, writeSlots_eq_refill]
  exact refill_congr fun t ht => by simp [ht]

theorem kind_apply_row (hl : l.Nodup) (o : Operation) : playlistMembershipApply l o.row = o.apply l := by
  cases o with
  | add x p =>
    have hk : playlistMembershipApply l (Operation.add x p).row =
        if (arrayPosition l (some x)).isSome then l
        else insertAtSlot l (slotOf l (Operation.add x p).row) (some x) := rfl
    rw [hk, arrayPosition_some, slotOf_add]
    cases h : positionOf l x with
    | none => simp [Operation.apply, h, insertAtSlot_eq (insertPosition_le l p)]
    | some i => simp [Operation.apply, h]
  | remove x =>
    have hk : playlistMembershipApply l (Operation.remove x).row = l.filter fun t => t ≠ x := rfl
    rw [hk]
    cases h : positionOf l x with
    | none =>
      simp only [Operation.apply, h]
      refine filter_eq_self.2 fun t ht => ?_
      have := positionOf_eq_none.1 h
      simp only [ne_eq, decide_not, Bool.not_eq_true', decide_eq_false_iff_not]
      rintro rfl
      exact this ht
    | some i => simp only [Operation.apply, h, eraseIdx_positionOf hl h]
  | move x p =>
    have hk : playlistMembershipApply l (Operation.move x p).row =
        if (arrayPosition l (some x)).isNone then l
        else insertAtSlot (l.filter fun t => t ≠ x) (slotOf (l.filter fun t => t ≠ x) (Operation.move x p).row)
          (some x) := rfl
    rw [hk, arrayPosition_some, slotOf_move]
    cases h : positionOf l x with
    | none => simp [Operation.apply, h]
    | some i =>
      simp only [Operation.apply, h, eraseIdx_positionOf hl h, map_some, isNone_some,
        Bool.false_eq_true, if_false]
      exact insertAtSlot_eq (insertPosition_le _ p)
  | reorder ids =>
    have hk : playlistMembershipApply l (Operation.reorder ids).row = reorderBySlots l ids := rfl
    rw [hk, reorderBySlots_eq_refill, reorder_apply]

/-! ## Members and duplicates -/

def Operation.DuplicateFree : Operation → Prop
  | .reorder ids => ids.Nodup
  | _ => True

theorem insertIdx_split (hi : i ≤ l.length) (x : TrackId) : l.insertIdx i x = l.take i ++ x :: l.drop i := by
  have h := insertIdx_length (l.take i) (l.drop i) x
  rwa [take_append_drop, length_take, Nat.min_eq_left hi] at h

theorem mem_insertIdx_le (hi : i ≤ l.length) : u ∈ l.insertIdx i x ↔ u = x ∨ u ∈ l := by
  rw [insertIdx_split hi, mem_append, mem_cons, or_left_comm, ← mem_append, take_append_drop]

theorem nodup_insertIdx (hi : i ≤ l.length) (hl : l.Nodup) (hx : x ∉ l) : (l.insertIdx i x).Nodup := by
  rw [insertIdx_split hi, nodup_middle, take_append_drop]
  exact nodup_cons.2 ⟨hx, hl⟩

theorem mem_add_apply : u ∈ (Operation.add x p).apply l ↔ u = x ∨ u ∈ l := by
  cases h : positionOf l x with
  | none => simp only [Operation.apply, h, mem_insertIdx_le (insertPosition_le l p)]
  | some i =>
    have hx : x ∈ l := positionOf_isSome.1 (by simp [h])
    simp only [Operation.apply, h]
    exact ⟨.inr, fun hu => hu.elim (· ▸ hx) id⟩

theorem length_named (hl : l.Nodup) (hids : ids.Nodup) :
    (ids.filter (· ∈ l)).length = (l.filter (· ∈ ids)).length := by
  refine List.Perm.length_eq ((perm_ext_iff_of_nodup (hids.filter _) (hl.filter _)).2 fun t => ?_)
  simp [and_comm]

theorem reorder_perm (hl : l.Nodup) (hids : ids.Nodup) : (refill (· ∈ ids) l (ids.filter (· ∈ l))).Perm l := by
  refine (refill_perm (length_named hl hids)).trans ?_
  have h : (ids.filter (· ∈ l)).Perm (l.filter (· ∈ ids)) :=
    (perm_ext_iff_of_nodup (hids.filter _) (hl.filter _)).2 fun t => by simp [and_comm]
  exact (h.append_right _).trans (filter_append_perm _ l)

theorem apply_nodup (hl : l.Nodup) (ho : Operation.DuplicateFree o) : (o.apply l).Nodup := by
  cases o with
  | add x p =>
    cases h : positionOf l x with
    | none =>
      simp only [Operation.apply, h]
      exact nodup_insertIdx (insertPosition_le l p) hl (positionOf_eq_none.1 h)
    | some i => simpa only [Operation.apply, h] using hl
  | remove x =>
    cases h : positionOf l x with
    | none => simpa only [Operation.apply, h] using hl
    | some i =>
      simp only [Operation.apply, h, eraseIdx_positionOf hl h]
      exact hl.filter _
  | move x p =>
    cases h : positionOf l x with
    | none => simpa only [Operation.apply, h] using hl
    | some i =>
      simp only [Operation.apply, h, eraseIdx_positionOf hl h]
      exact nodup_insertIdx (insertPosition_le _ p) (hl.filter _) (by simp)
  | reorder ids =>
    rw [reorder_apply]
    exact (reorder_perm hl ho).nodup_iff.2 hl

/-! ## Api and jobs -/

def Operation.toIntent : Operation → Intent
  | .add x p => .add x p
  | .remove x => .remove x
  | .move x p => .move x p
  | .reorder ids => .reorder ids

/-- What jobs needs to apply an operation without a conflict or a fallback. -/
def Applies (l : List TrackId) : Operation → Prop
  | .add _ p => (resolvePlacement l p).isSome
  | .remove _ => True
  | .move x p =>
    x ∈ l ∧ anchorsAreInverted l p = false ∧ (resolvePlacement l p).isSome ∧
      (resolvePlacement (l.filter fun t => t ≠ x) p).isSome
  | .reorder ids => ids.Nodup ∧ ∃ t ∈ ids, t ∈ l

theorem Applies.duplicateFree (h : Applies l o) : Operation.DuplicateFree o := by
  cases o with
  | reorder ids => exact h.1
  | _ => trivial

theorem insertPosition_of_isSome (h : (resolvePlacement l p).isSome) :
    resolvePlacement l p = some (insertPosition l p) := by
  obtain ⟨i, hi⟩ := isSome_iff_exists.1 h
  rw [insertPosition_eq, hi, getD_some]

theorem presentInOrderFrom_eq (l taken : List TrackId) (hids : ids.Nodup)
    (hd : ∀ t ∈ ids, t ∉ taken) : presentInOrderFrom l taken ids = ids.filter (· ∈ l) := by
  induction ids generalizing taken with
  | nil => rfl
  | cons t ids ih =>
    rw [nodup_cons] at hids
    have hrest : ∀ t ∈ ids, t ∉ taken := fun u hu => hd u (mem_cons_of_mem _ hu)
    by_cases ht : t ∈ l
    · have htake : ∀ u ∈ ids, u ∉ t :: taken := by
        intro u hu hm
        rcases mem_cons.1 hm with rfl | hm
        · exact hids.1 hu
        · exact hrest u hu hm
      rw [presentInOrderFrom, if_pos ⟨ht, hd t mem_cons_self⟩, ih _ hids.2 htake,
        filter_cons_of_pos (by simpa using ht)]
    · rw [presentInOrderFrom, if_neg (fun h => ht h.1), ih _ hids.2 hrest, filter_cons_of_neg (by simpa using ht)]

theorem presentInOrder_eq (l : List TrackId) (hids : ids.Nodup) : presentInOrder l ids = ids.filter (· ∈ l) :=
  presentInOrderFrom_eq l [] hids fun _ _ => not_mem_nil

theorem intent_apply (hl : l.Nodup) (h : Applies l o) :
    (Operation.toIntent o).apply l = (o.apply l, .ok false) := by
  cases o with
  | add x p =>
    simp only [Operation.toIntent, Intent.apply, Operation.apply, insertPosition_of_isSome h]
    cases hx : positionOf l x with
    | none => rw [if_neg (positionOf_eq_none.1 hx)]
    | some i => rw [if_pos (positionOf_isSome.1 (by simp [hx]))]
  | remove x => cases hx : positionOf l x <;> simp only [Operation.toIntent, Intent.apply, Operation.apply, hx]
  | move x p =>
    obtain ⟨hmem, hinv, hres, hres'⟩ := h
    obtain ⟨i, hi⟩ := isSome_iff_exists.1 (positionOf_isSome.2 hmem)
    have hsome : (resolvePlacement l p).isNone = false := by simpa using hres
    simp only [Operation.toIntent, Intent.apply, Operation.apply, hi, hinv, hsome, eraseIdx_positionOf hl hi,
      insertPosition_of_isSome hres', Bool.false_eq_true, if_false]
  | reorder ids =>
    obtain ⟨hids, t, ht, htl⟩ := h
    have hne : (ids.filter (· ∈ l)).isEmpty = false := by
      rw [isEmpty_eq_false_iff]
      exact ne_nil_of_mem (mem_filter.2 ⟨ht, by simpa using htl⟩)
    simp only [Operation.toIntent, Intent.apply, Operation.apply, presentInOrder_eq l hids, hne, Bool.false_eq_true,
      if_false]

/-! ## What `derive` emits -/

/-- Each operation applies to the list that those before it leave. -/
def AppliesAll : List TrackId → List Operation → Prop
  | _, [] => True
  | l, o :: os => Applies l o ∧ AppliesAll (o.apply l) os

theorem appliesAll_append {os os' : List Operation} :
    AppliesAll l (os ++ os') ↔ AppliesAll l os ∧ AppliesAll (applyAll l os) os' := by
  induction os generalizing l with
  | nil => simp [AppliesAll, applyAll]
  | cons o os ih =>
    simp only [cons_append, AppliesAll, ih, and_assoc]
    rfl

theorem appliesAll_removes (l ts : List TrackId) : AppliesAll l (ts.map .remove) := by
  induction ts generalizing l with
  | nil => trivial
  | cons t ts ih => exact ⟨trivial, ih _⟩

theorem appliesAll_adds {members submitted : List TrackId} {previous : Option TrackId}
    (hmem : ∀ t ∈ members, t ∈ l) (hprev : ∀ t, previous = some t → t ∈ l) :
    AppliesAll l (deriveAdds members previous submitted) := by
  induction submitted generalizing l previous with
  | nil => trivial
  | cons t rest ih =>
    by_cases ht : t ∈ members
    · rw [deriveAdds.eq_def]
      simp only [ht, if_true]
      exact ih hmem fun u hu => some.inj hu ▸ hmem t ht
    · rw [deriveAdds.eq_def]
      simp only [ht, if_false]
      refine ⟨?_, ih (fun u hu => ?_) fun u hu => ?_⟩
      · cases previous with
        | none => rfl
        | some left =>
          have hleft := positionOf_isSome.2 (hprev left rfl)
          simpa [Applies, resolvePlacement] using hleft
      · exact mem_add_apply.2 (.inr (hmem u hu))
      · exact mem_add_apply.2 (.inl (some.inj hu).symm)

theorem deriveOrder_applies {submitted p : List TrackId} (hs : submitted.Nodup) (replace : Bool) :
    AppliesAll p (deriveOrder submitted p replace) := by
  have hremoves : ∀ l, AppliesAll l (if replace then (p.filter fun t => t ∉ submitted).map .remove else []) := by
    intro l
    split
    · exact appliesAll_removes _ _
    · trivial
  have hops := appliesAll_append.2 ⟨@appliesAll_adds p p submitted none (fun _ => id) (by simp), hremoves _⟩
  simp only [deriveOrder]
  generalize deriveAdds p none submitted ++ _ = operations at hops ⊢
  split
  · rename_i hchange
    rw [appliesAll_append]
    refine ⟨hops, ⟨hs, ?_⟩, trivial⟩
    -- with no submitted track in the list the reorder would have changed nothing
    by_contra hnone
    refine hchange ?_
    rw [reorder_apply, filter_eq_nil_iff.2, refill_nil_right]
    exact fun t ht htl => hnone ⟨t, ht, by simpa using htl⟩
  · exact hops

theorem positionOf_lt_split {l₁ l₂ : List TrackId} {j : Nat} (hj : positionOf (l₁ ++ l₂) b = some j) :
    j < l₁.length ↔ b ∈ l₁ := by
  obtain ⟨k₁, k₂, hk, rfl, hb⟩ := positionOf_eq_some hj
  constructor
  · intro hlt
    have hget : (l₁ ++ l₂)[k₁.length]? = some b := by rw [hk]; simp
    rw [List.getElem?_append_left hlt] at hget
    exact mem_of_getElem? hget
  · intro hmem
    by_contra hle
    have htake : l₁ = k₁.take l₁.length := by
      have h := congrArg (List.take l₁.length) hk
      rwa [take_append_of_le_length (Nat.le_refl _), take_length,
        take_append_of_le_length (Nat.le_of_not_lt hle)] at h
    rw [htake] at hmem
    exact hb (mem_of_mem_take hmem)

theorem anchorsAreInverted_iff (hl : l.Nodup) :
    anchorsAreInverted l (.anchored (some a) (some b)) = true ↔ Before l b a := by
  cases ha : positionOf l a with
  | none =>
    simp only [anchorsAreInverted, ha, Bool.false_eq_true, false_iff]
    exact fun h => positionOf_eq_none.1 ha h.mem.2
  | some i =>
    cases hb : positionOf l b with
    | none =>
      simp only [anchorsAreInverted, ha, hb, Bool.false_eq_true, false_iff]
      exact fun h => positionOf_eq_none.1 hb h.mem.1
    | some j =>
      obtain ⟨l₁, l₂, rfl, rfl, -⟩ := positionOf_eq_some ha
      simp only [anchorsAreInverted, ha, hb, decide_eq_true_eq, gt_iff_lt]
      rw [positionOf_lt_split hb, mem_front_iff hl]

theorem resolvePlacement_of_left (ha : a ∈ l) (right : Option TrackId) :
    (resolvePlacement l (.anchored (some a) right)).isSome := by
  obtain ⟨i, hi⟩ := isSome_iff_exists.1 (positionOf_isSome.2 ha)
  simp [resolvePlacement, hi]

theorem applies_move_between {x : TrackId} {w₁ w₂ : List TrackId} (hl : l.Nodup) (hx : x ∈ l)
    (hw : (l.filter fun t => t ≠ x) = w₁ ++ a :: b :: w₂) : Applies l (.move x (.anchored (some a) (some b))) := by
  have ha : a ∈ l.filter fun t => t ≠ x := hw ▸ mem_append_right _ mem_cons_self
  have hbefore : Before (l.filter fun t => t ≠ x) a b := by
    rw [hw, before_append]
    exact .inr (.inl (.inl ⟨rfl, mem_cons_self⟩))
  refine ⟨hx, ?_, resolvePlacement_of_left (mem_of_mem_filter ha) _, resolvePlacement_of_left ha _⟩
  have hnot : ¬ Before l b a := (before_filter.1 hbefore).1.asymm hl
  rw [← anchorsAreInverted_iff hl] at hnot
  simpa using hnot

theorem split_at {w : List TrackId} {k : Nat} (h : k + 1 < w.length) :
    w = w.take k ++ w[k] :: w[k + 1] :: w.drop (k + 2) := by
  rw [← drop_eq_getElem_cons h, ← drop_eq_getElem_cons (by omega), take_append_drop]

theorem deriveMove_applies (hl : l.Nodup) (x : TrackId) (toIndex : Int) : AppliesAll l (deriveMove x toIndex l) := by
  rw [deriveMove]
  cases hpos : positionOf l x with
  | none => trivial
  | some start =>
    have hx : x ∈ l := positionOf_isSome.1 (by simp [hpos])
    simp only [eraseIdx_positionOf hl hpos]
    generalize hw : (l.filter fun t => decide (t ≠ x)) = w
    generalize htarget : (min (max toIndex 0) (w.length : Int)).toNat = target
    have hle : target ≤ w.length := by omega
    split
    · trivial
    · refine ⟨?_, trivial⟩
      split
      · exact ⟨hx, rfl, rfl, rfl⟩
      · split
        · exact ⟨hx, rfl, rfl, rfl⟩
        · obtain ⟨k, rfl⟩ : ∃ k, target = k + 1 := ⟨target - 1, by omega⟩
          have hk : k + 1 < w.length := by omega
          rw [Nat.add_sub_cancel, List.getElem?_eq_getElem hk, List.getElem?_eq_getElem (Nat.lt_of_succ_lt hk)]
          exact applies_move_between hl hx (hw.trans (split_at hk))

/-- The lists of an edit are duplicate-free, as `track_ids_of` makes them. -/
def TrackEdit.DuplicateFree : TrackEdit → Prop
  | .order ids | .replace ids => ids.Nodup
  | _ => True

theorem derive_applies {edit : TrackEdit} (hl : l.Nodup) (he : TrackEdit.DuplicateFree edit)
    (h : derive edit l = .ok ops) : AppliesAll l ops := by
  have hlimit : ∀ {os : List Operation}, (if os.length > maxDerivedOperations then
      .error "playlist edit derives too many operations" else Except.ok os) = .ok ops → os = ops := by
    intro os h
    split_ifs at h
    exact Except.ok.inj h
  rw [← hlimit h]
  cases edit with
  | add t =>
    simp only
    split
    · trivial
    · exact ⟨rfl, trivial⟩
  | remove t =>
    simp only
    split
    · exact ⟨trivial, trivial⟩
    · trivial
  | move t toIndex => exact deriveMove_applies hl t toIndex
  | order ids => exact deriveOrder_applies he false
  | replace ids => exact deriveOrder_applies he true

/-! ## Agreement -/

theorem row_intent (h : Applies l o) : o.row.intent = some (Operation.toIntent o) := by
  have hplacement : ∀ {x : TrackId} {p : Placement}, (resolvePlacement l p).isSome →
      (Operation.add x p).row.placement = some p ∧ (Operation.move x p).row.placement = some p := by
    intro x p hp
    cases p with
    | boundary b => cases b <;> exact ⟨rfl, rfl⟩
    | anchored left right =>
      cases left with
      | some a => exact ⟨rfl, rfl⟩
      | none =>
        cases right with
        | some b => exact ⟨rfl, rfl⟩
        | none => cases hp
  cases o with
  | add x p => exact congrArg (Option.bind · fun p => some (Intent.add x p)) (@hplacement x p h).1
  | remove x => rfl
  | move x p => exact congrArg (Option.bind · fun p => some (Intent.move x p)) (@hplacement x p h.2.2.1).2
  | reorder ids =>
    obtain ⟨-, t, ht, -⟩ := h
    cases ids with
    | nil => cases ht
    | cons u ids => rfl

theorem foldl_kind (hl : l.Nodup) (h : AppliesAll l ops) :
    (ops.map Operation.row).foldl playlistMembershipApply l = applyAll l ops := by
  induction ops generalizing l with
  | nil => rfl
  | cons o ops ih =>
    rw [map_cons, foldl_cons, kind_apply_row hl, ih (apply_nodup hl h.1.duplicateFree) h.2]
    rfl

theorem foldl_reduceStep (hl : l.Nodup) (h : AppliesAll l ops) (rs : List Resolution)
    (lost : Bool) : (ops.map Operation.toIntent).foldl reduceStep ⟨l, rs, lost⟩ =
      ⟨applyAll l ops, rs ++ List.replicate ops.length .pending, lost⟩ := by
  induction ops generalizing l rs with
  | nil => simp [applyAll]
  | cons o ops ih =>
    have hstep : reduceStep ⟨l, rs, lost⟩ (Operation.toIntent o) = ⟨o.apply l, rs ++ [.pending], lost⟩ := by
      simp only [reduceStep, intent_apply hl h.1, Bool.or_false]
    rw [map_cons, foldl_cons, hstep, ih (apply_nodup hl h.1.duplicateFree) h.2, append_assoc]
    rfl

theorem map_row_intent (h : AppliesAll l ops) :
    ops.map (fun o => o.row.intent) = (ops.map Operation.toIntent).map some := by
  induction ops generalizing l with
  | nil => rfl
  | cons o ops ih => rw [map_cons, row_intent h.1, ih h.2, map_cons, map_cons]

theorem reduce_of_pending {remote : List TrackId} {ops : List PendingOperation} {candidate : List TrackId}
    (n : Nat) (committed : Int) (h : (ops.map PendingOperation.intent).foldl reduceStep ⟨remote, [], false⟩ =
      ⟨candidate, List.replicate n .pending, false⟩) :
    (reduce remote ops committed).candidate = candidate ∧ (reduce remote ops committed).anchorsLost = false ∧
      ∀ o ∈ (reduce remote ops committed).operations, ∀ code, o.resolution ≠ .conflict code := by
  simp only [reduce, h, true_and]
  intro o ho code hcode
  obtain ⟨q, hq, rfl⟩ := mem_map.1 ho
  have hr := (of_mem_zip hq).2
  split at hr
  · obtain ⟨r, hr, hrq⟩ := mem_map.1 hr
    rw [eq_of_mem_replicate hr, if_pos rfl] at hrq
    simp [← hrq] at hcode
  · simp [eq_of_mem_replicate hr] at hcode

/-- The operations that the api derives from an edit are read back by jobs, and the api, the SQL kind
and the replay on the same list agree on what they do. -/
theorem derived_operations_agree {edit : TrackEdit} {p : List TrackId} {ops : List Operation}
    {pending : List PendingOperation} (committed : Int) (hp : p.Nodup) (he : TrackEdit.DuplicateFree edit)
    (hd : derive edit p = .ok ops)
    (hpending : pending.map (fun o => some o.intent) = ops.map fun o => o.row.intent) :
    (∀ o ∈ ops, o.row.intent.isSome) ∧
      (ops.map Operation.row).foldl playlistMembershipApply p = applyAll p ops ∧
      (reduce p pending committed).candidate = applyAll p ops ∧
      (reduce p pending committed).anchorsLost = false ∧
      ∀ o ∈ (reduce p pending committed).operations, ∀ code, o.resolution ≠ .conflict code := by
  have happ := derive_applies hp he hd
  have hread := map_row_intent happ
  have hintents : pending.map PendingOperation.intent = ops.map Operation.toIntent := by
    refine map_injective_iff.2 (fun _ _ => some.inj) ?_
    rw [← hread, ← hpending, List.map_map]
    rfl
  refine ⟨fun o ho => ?_, foldl_kind hp happ, ?_⟩
  · have hmem : o.row.intent ∈ (ops.map Operation.toIntent).map some := hread ▸ mem_map_of_mem ho
    obtain ⟨i, -, hi⟩ := mem_map.1 hmem
    rw [← hi]
    rfl
  · refine reduce_of_pending ops.length committed ?_
    rw [hintents, foldl_reduceStep hp happ, nil_append]

/-- Replacing `[a, b, c]` by `[c, d, a]` adds `d`, removes `b` and reorders. -/
theorem derived_operations_agree_replace : derive (.replace ["c", "d", "a"]) ["a", "b", "c"] =
        .ok [.add "d" (.anchored (some "c") none), .remove "b", .reorder ["c", "d", "a"]] ∧
      (reduce ["a", "b", "c"]
        [⟨1, 1, .add "d" (.anchored (some "c") none)⟩, ⟨2, 2, .remove "b"⟩, ⟨3, 3, .reorder ["c", "d", "a"]⟩] 0).candidate =
        ["c", "d", "a"] :=
  have hd : derive (.replace ["c", "d", "a"]) ["a", "b", "c"] =
      .ok [.add "d" (.anchored (some "c") none), .remove "b", .reorder ["c", "d", "a"]] := by decide
  have he : TrackEdit.DuplicateFree (.replace ["c", "d", "a"]) :=
    show ["c", "d", "a"].Nodup by decide
  ⟨hd, ((derived_operations_agree 0 (by decide) he hd (by decide)).2.2.1).trans (by decide)⟩

end SC.Proof.Playlist
