import SoundCloudBackend.Proof.Playlist.Agree

/-!
# What an operation changes

A placement points to a gap of the list (`At`), and to only one (`At.unique`);
an addition may also fall back to an end of it (`Gap`). `applied_changes` says
for each kind of operation what it does when jobs does not refuse it, and the
lemmas after it what it leaves alone.
-/

namespace SC.Proof.Playlist

open Impl.Playlist
open List Option

variable {l l' u v : List TrackId} {x y t : TrackId} {P Q : Placement} {i : Intent}
variable {ids : List TrackId} {q : TrackId → Bool}

/-! ## Shape of an operation -/

def Placement.anchors : Placement → List TrackId
  | .boundary _ => []
  | .anchored left right => left.toList ++ right.toList

/-- The end of the list that a placement goes to if its anchors are gone. -/
def Placement.fallbackEnd : Placement → Boundary
  | .boundary b => b
  | .anchored (some _) _ => .back
  | .anchored none _ => .front

/-- `playlist_membership_operations_shape_valid` and `anchor_target_distinct`. -/
def Intent.ShapeValid : Intent → Prop
  | .add x P | .move x P => P ≠ .anchored none none ∧ x ∉ Placement.anchors P
  | .remove _ => True
  | .reorder ids => ids ≠ []

/-- `anchor_target_distinct`: an operation does not name its own track as an anchor. -/
def Intent.AnchorsApart : Intent → Prop
  | .add x P | .move x P => x ∉ Placement.anchors P
  | .remove _ | .reorder _ => True

theorem Intent.ShapeValid.apart (h : Intent.ShapeValid i) : Intent.AnchorsApart i := by
  cases i with
  | add x P => exact h.2
  | remove x => trivial
  | move x P => exact h.2
  | reorder ids => trivial

theorem Intent.ShapeValid.ne_reorder (h : Intent.ShapeValid i) : i ≠ .reorder [] := by
  rintro rfl
  exact h rfl

/-! ## One operation -/

def applied (l : List TrackId) (i : Intent) : Option (List TrackId) :=
  match i.apply l with
  | (l', .ok _) => some l'
  | (_, .error _) => none

theorem mem_presentInOrderFrom (l taken : List TrackId) {t : TrackId} :
    t ∈ presentInOrderFrom l taken ids ↔ t ∈ ids ∧ t ∈ l ∧ t ∉ taken := by
  induction ids generalizing taken with
  | nil => simp [presentInOrderFrom]
  | cons n ids ih =>
    rw [presentInOrderFrom]
    split
    · rename_i h
      rw [mem_cons, ih, mem_cons, mem_cons, not_or]
      by_cases hn : t = n
      · subst hn
        simp [h]
      · simp [hn]
    · rename_i h
      rw [ih, mem_cons]
      by_cases hn : t = n
      · subst hn
        simp only [true_or, true_and, and_iff_right_iff_imp]
        exact fun ht => absurd ht h
      · simp [hn]

theorem mem_presentInOrder {t : TrackId} : t ∈ presentInOrder l ids ↔ t ∈ ids ∧ t ∈ l := by
  simp [presentInOrder, mem_presentInOrderFrom]

theorem nodup_presentInOrderFrom (l taken ids : List TrackId) : (presentInOrderFrom l taken ids).Nodup := by
  induction ids generalizing taken with
  | nil => exact nodup_nil
  | cons n ids ih =>
    rw [presentInOrderFrom]
    split
    · refine nodup_cons.2 ⟨fun h => ?_, ih _⟩
      exact ((mem_presentInOrderFrom _ _).1 h).2.2 mem_cons_self
    · exact ih _

theorem nodup_presentInOrder (l ids : List TrackId) : (presentInOrder l ids).Nodup :=
  nodup_presentInOrderFrom l [] ids

/-! ## Gaps -/

/-- The gap between `u` and `v` is where the placement points. -/
def At (u v : List TrackId) : Placement → Prop
  | .boundary .front => u = []
  | .boundary .back => v = []
  | .anchored left right =>
    (∃ a w, left = some a ∧ u = w ++ [a]) ∨
      ((∀ a, left = some a → a ∉ u ++ v) ∧ ∃ b w, right = some b ∧ v = b :: w)

/-- The gap between `u` and `v` is where an addition goes: next to an anchor, or with no anchor there
to its end of the list. -/
def Gap (u v : List TrackId) (Q : Placement) : Prop :=
  (∃ t ∈ Placement.anchors Q, (∃ w, u = w ++ [t]) ∨ ∃ w, v = t :: w) ∨
    ((∀ t ∈ Placement.anchors Q, t ∉ u ++ v) ∧
      ((u = [] ∧ Placement.fallbackEnd Q = .front) ∨ (v = [] ∧ Placement.fallbackEnd Q = .back)))

theorem resolvePlacement_split {i : Nat} (h : resolvePlacement l P = some i) :
    ∃ u v, l = u ++ v ∧ u.length = i ∧ At u v P := by
  cases P with
  | boundary b =>
    cases b with
    | front => exact ⟨[], l, rfl, some.inj h, rfl⟩
    | back => exact ⟨l, [], (append_nil l).symm, some.inj h, rfl⟩
  | anchored left right =>
    simp only [resolvePlacement, or_eq_some_iff, map_eq_some_iff, map_eq_none_iff,
      bind_eq_some_iff, bind_eq_none_iff] at h
    rcases h with ⟨j, ⟨a, rfl, ha⟩, rfl⟩ | ⟨hnone, b, rfl, hb⟩
    · obtain ⟨l₁, l₂, rfl, rfl, -⟩ := positionOf_eq_some ha
      exact ⟨l₁ ++ [a], l₂, by simp, by simp, .inl ⟨a, l₁, rfl, rfl⟩⟩
    · obtain ⟨l₁, l₂, rfl, rfl, -⟩ := positionOf_eq_some hb
      refine ⟨l₁, b :: l₂, rfl, rfl, .inr ⟨fun a ha => ?_, b, l₂, rfl, rfl⟩⟩
      exact positionOf_eq_none.1 (hnone a ha)

theorem At.gap (h : At u v P) : Gap u v P := by
  cases P with
  | boundary b =>
    cases b with
    | front => exact .inr ⟨by simp [Placement.anchors], .inl ⟨h, rfl⟩⟩
    | back => exact .inr ⟨by simp [Placement.anchors], .inr ⟨h, rfl⟩⟩
  | anchored left right =>
    rcases h with ⟨a, w, rfl, rfl⟩ | ⟨-, b, w, rfl, rfl⟩
    · exact .inl ⟨a, by simp [Placement.anchors], .inl ⟨w, rfl⟩⟩
    · exact .inl ⟨b, by simp [Placement.anchors], .inr ⟨w, rfl⟩⟩

theorem At.filter (h : At u v P) (hq : ∀ t ∈ Placement.anchors P, q t) : At (u.filter q) (v.filter q) P := by
  cases P with
  | boundary b =>
    cases b with
    | front => exact filter_eq_nil_iff.2 (by simp [show u = [] from h])
    | back => exact filter_eq_nil_iff.2 (by simp [show v = [] from h])
  | anchored left right =>
    rcases h with ⟨a, w, rfl, rfl⟩ | ⟨hnone, b, w, rfl, rfl⟩
    · have ha : q a := hq a (by simp [Placement.anchors])
      exact .inl ⟨a, w.filter q, rfl, by simp [ha]⟩
    · have hb : q b := hq b (by simp [Placement.anchors])
      refine .inr ⟨fun a ha hmem => hnone a ha ?_, b, w.filter q, rfl, by simp [hb]⟩
      rw [← filter_append] at hmem
      exact mem_of_mem_filter hmem

theorem At.unique {u' v' : List TrackId} (h : At u v P) (h' : At u' v' P) (heq : u ++ v = u' ++ v')
    (hnodup : (u ++ v).Nodup) : u = u' ∧ v = v' := by
  cases P with
  | boundary b =>
    cases b with
    | front =>
      obtain rfl : u = [] := h
      obtain rfl : u' = [] := h'
      exact ⟨rfl, heq⟩
    | back =>
      obtain rfl : v = [] := h
      obtain rfl : v' = [] := h'
      exact ⟨by simpa using heq, rfl⟩
  | anchored left right =>
    rcases h with ⟨a, w, rfl, rfl⟩ | ⟨hnone, b, w, rfl, rfl⟩ <;>
      rcases h' with ⟨a', w', ha', rfl⟩ | ⟨hnone', b', w', hb', rfl⟩
    · obtain rfl := some.inj ha'
      simp only [append_assoc, singleton_append] at heq hnodup
      obtain ⟨rfl, rfl⟩ := split_unique hnodup heq
      exact ⟨rfl, rfl⟩
    · exact absurd (by simp [← heq]) (hnone' a rfl)
    · exact absurd (by simp [heq]) (hnone a' ha')
    · obtain rfl := some.inj hb'
      obtain ⟨rfl, rfl⟩ := split_unique hnodup heq
      exact ⟨rfl, rfl⟩

/-! ## What an operation changes -/

/-- What an operation that is not refused does to a duplicate-free list. -/
def Changes (l l' : List TrackId) : Intent → Prop
  | .add x Q => (x ∈ l ∧ l' = l) ∨ (x ∉ l ∧ ∃ u v, l = u ++ v ∧ l' = u ++ x :: v ∧ Gap u v Q)
  | .remove x => l' = l.filter fun t => t ≠ x
  | .move x P =>
    x ∈ l ∧ anchorsAreInverted l P = false ∧ (resolvePlacement l P).isSome ∧
      ∃ u v, (l.filter fun t => t ≠ x) = u ++ v ∧ l' = u ++ x :: v ∧ At u v P
  | .reorder ids => (∃ t ∈ ids, t ∈ l) ∧ l' = refill (· ∈ ids) l (presentInOrder l ids)

theorem insertIdx_of_length {i : Nat} (hl : l = u ++ v) (hi : u.length = i) : l.insertIdx i x = u ++ x :: v := by
  subst hl hi
  exact insertIdx_length u v x

theorem resolvePlacement_isSome :
    (resolvePlacement l P).isSome ↔ (∃ b, P = .boundary b) ∨ ∃ t ∈ Placement.anchors P, t ∈ l := by
  cases P with
  | boundary b => cases b <;> simp [resolvePlacement]
  | anchored left right =>
    have hpos : ∀ o : Option TrackId, (o.bind (positionOf l)).isSome ↔ ∃ t ∈ o.toList, t ∈ l := by
      intro o
      cases o with
      | none => simp
      | some t => simp [positionOf_isSome]
    simp only [resolvePlacement, isSome_or, isSome_map, Bool.or_eq_true, hpos, Placement.anchors,
      mem_append, reduceCtorEq, exists_false, false_or]
    constructor
    · rintro (⟨t, ht, h⟩ | ⟨t, ht, h⟩)
      · exact ⟨t, .inl ht, h⟩
      · exact ⟨t, .inr ht, h⟩
    · rintro ⟨t, ht | ht, h⟩
      · exact .inl ⟨t, ht, h⟩
      · exact .inr ⟨t, ht, h⟩

theorem gap_fallback (h : resolvePlacement l Q = none) :
    ∃ u v, l = u ++ v ∧ u.length = fallbackPosition l Q ∧ Gap u v Q := by
  have hgone : ∀ t ∈ Placement.anchors Q, t ∉ l := fun t ht htl => by
    have := resolvePlacement_isSome.2 (.inr ⟨t, ht, htl⟩)
    simp [h] at this
  have hfront : Placement.fallbackEnd Q = .front → ∃ u v, l = u ++ v ∧ u.length = 0 ∧ Gap u v Q :=
    fun h => ⟨[], l, rfl, rfl, .inr ⟨hgone, .inl ⟨rfl, h⟩⟩⟩
  have hback : Placement.fallbackEnd Q = .back → ∃ u v, l = u ++ v ∧ u.length = l.length ∧ Gap u v Q :=
    fun h => ⟨l, [], (append_nil l).symm, rfl, .inr ⟨by simpa using hgone, .inr ⟨rfl, h⟩⟩⟩
  cases Q with
  | boundary b =>
    cases b with
    | front => exact hfront rfl
    | back => exact hback rfl
  | anchored left right =>
    cases left with
    | none => exact hfront rfl
    | some a => exact hback rfl

theorem resolvePlacement_filter_isSome (hx : x ∉ Placement.anchors P) (h : (resolvePlacement l P).isSome) :
    (resolvePlacement (l.filter fun t => t ≠ x) P).isSome := by
  rw [resolvePlacement_isSome] at h ⊢
  refine h.imp_right fun ⟨t, ht, htl⟩ => ⟨t, ht, mem_filter.2 ⟨htl, ?_⟩⟩
  simp only [ne_eq, decide_eq_true_eq]
  rintro rfl
  exact hx ht

theorem applied_reorder (h : presentInOrder l ids ≠ []) :
    applied l (.reorder ids) = some (refill (· ∈ ids) l (presentInOrder l ids)) := by
  simp only [applied, Intent.apply, isEmpty_eq_false_iff.2 h, Bool.false_eq_true, if_false, writeSlots_eq_refill]
  exact congrArg some (refill_congr fun t ht => by simp [mem_presentInOrder, ht])

theorem applied_changes (hl : l.Nodup) (hi : Intent.AnchorsApart i) (hne : i ≠ .reorder [])
    (h : applied l i = some l') : Changes l l' i := by
  cases i with
  | add x Q =>
    simp only [applied, Intent.apply] at h
    by_cases hx : x ∈ l
    · simp only [hx, if_true, some.injEq] at h
      exact .inl ⟨hx, h.symm⟩
    · simp only [hx, if_false] at h
      refine .inr ⟨hx, ?_⟩
      cases hr : resolvePlacement l Q with
      | none =>
        obtain ⟨u, v, huv, hlen, hgap⟩ := gap_fallback hr
        simp only [hr, some.injEq, insertIdx_of_length huv hlen] at h
        exact ⟨u, v, huv, h.symm, hgap⟩
      | some i =>
        obtain ⟨u, v, huv, hlen, hat⟩ := resolvePlacement_split hr
        simp only [hr, some.injEq, insertIdx_of_length huv hlen] at h
        exact ⟨u, v, huv, h.symm, hat.gap⟩
  | remove x =>
    simp only [applied, Intent.apply] at h
    cases hx : positionOf l x with
    | none =>
      simp only [hx, some.injEq] at h
      subst h
      exact (filter_eq_self.2 fun t ht => by
        simpa using fun htx : t = x => positionOf_eq_none.1 hx (htx ▸ ht)).symm
    | some i =>
      simp only [hx, some.injEq, eraseIdx_positionOf hl hx] at h
      exact h.symm
  | move x P =>
    simp only [applied, Intent.apply] at h
    cases hx : positionOf l x with
    | none => simp [hx] at h
    | some i =>
      simp only [hx, eraseIdx_positionOf hl hx] at h
      cases hinv : anchorsAreInverted l P with
      | true => simp [hinv] at h
      | false =>
        cases hres : resolvePlacement l P with
        | none => simp [hinv, hres] at h
        | some j =>
          have hsome : (resolvePlacement l P).isSome := by simp [hres]
          obtain ⟨k, hk⟩ := isSome_iff_exists.1 (resolvePlacement_filter_isSome hi hsome)
          obtain ⟨u, v, huv, hlen, hat⟩ := resolvePlacement_split hk
          simp only [hinv, hres, hk, isNone_some, Bool.false_eq_true, if_false, some.injEq,
            insertIdx_of_length huv hlen] at h
          exact ⟨positionOf_isSome.1 (by simp [hx]), hinv, hsome, u, v, huv, h.symm, hat⟩
  | reorder ids =>
    cases hnamed : presentInOrder l ids with
    | nil =>
      have hids : ids ≠ [] := fun hids => hne (hids ▸ rfl)
      simp [applied, Intent.apply, hnamed, hids] at h
    | cons n named =>
      have hn : n ∈ presentInOrder l ids := by simp [hnamed]
      rw [applied_reorder (ne_nil_of_mem hn)] at h
      exact ⟨⟨n, mem_presentInOrder.1 hn⟩, (some.inj h).symm⟩

theorem Intent.ShapeValid.changes (hi : Intent.ShapeValid i) (hl : l.Nodup) (h : applied l i = some l') : Changes l l' i :=
  applied_changes hl hi.apart hi.ne_reorder h

theorem applied_move_isSome (hx : x ∈ l) (hne : x ∉ Placement.anchors P) (hinv : anchorsAreInverted l P = false)
    (hres : (resolvePlacement l P).isSome) (hl : l.Nodup) : ∃ l', applied l (.move x P) = some l' := by
  obtain ⟨i, hi⟩ := isSome_iff_exists.1 (positionOf_isSome.2 hx)
  obtain ⟨k, hk⟩ := isSome_iff_exists.1 (resolvePlacement_filter_isSome hne hres)
  have hsome : (resolvePlacement l P).isNone = false := by simpa using hres
  simp only [applied, Intent.apply, hi, hinv, hsome, eraseIdx_positionOf hl hi, hk, Bool.false_eq_true, if_false]
  exact ⟨_, rfl⟩

/-! ## What it leaves alone -/

/-- The tracks whose place or membership an operation changes. -/
def Intent.names : Intent → List TrackId
  | .add x _ | .remove x | .move x _ => [x]
  | .reorder ids => ids

theorem presentInOrder_perm (hl : l.Nodup) (ids : List TrackId) :
    (presentInOrder l ids).Perm (l.filter (· ∈ ids)) :=
  (perm_ext_iff_of_nodup (nodup_presentInOrder l ids) (hl.filter _)).2 fun t => by
    simp [mem_presentInOrder, and_comm]

theorem refill_presentInOrder_perm (hl : l.Nodup) (ids : List TrackId) :
    (refill (· ∈ ids) l (presentInOrder l ids)).Perm l := by
  have h := presentInOrder_perm hl ids
  exact (refill_perm h.length_eq).trans ((h.append_right _).trans (filter_append_perm _ l))

theorem Changes.filter (h : Changes l l' i) (hq : ∀ t ∈ Intent.names i, q t = false) :
    l'.filter q = l.filter q := by
  have hne : ∀ {x : TrackId}, q x = false → (l.filter fun t => t ≠ x).filter q = l.filter q := by
    intro x hx
    rw [List.filter_filter]
    refine filter_congr fun t _ => ?_
    by_cases ht : t = x
    · subst ht
      simp [hx]
    · simp [ht]
  cases i with
  | add x Q =>
    have hx : q x = false := hq x (by simp [Intent.names])
    rcases h with ⟨-, rfl⟩ | ⟨-, u, v, rfl, rfl, -⟩
    · rfl
    · simp [hx]
  | remove x =>
    obtain rfl : l' = l.filter fun t => t ≠ x := h
    exact hne (hq x (by simp [Intent.names]))
  | move x P =>
    have hx : q x = false := hq x (by simp [Intent.names])
    obtain ⟨-, -, -, u, v, huv, rfl, -⟩ := h
    rw [← hne hx, huv]
    simp [hx]
  | reorder ids =>
    obtain ⟨-, rfl⟩ := h
    have hsub : ∀ m : List TrackId, m.filter q = (m.filter fun y => !decide (y ∈ ids)).filter q := by
      intro m
      rw [List.filter_filter]
      refine filter_congr fun t _ => ?_
      by_cases ht : t ∈ ids
      · simp [hq t ht]
      · simp [ht]
    rw [hsub, filter_not_refill fun n hn => by simpa using (mem_presentInOrder.1 hn).1, ← hsub]

theorem Changes.nodup (h : Changes l l' i) (hl : l.Nodup) : l'.Nodup := by
  cases i with
  | add x Q =>
    rcases h with ⟨-, rfl⟩ | ⟨hx, u, v, rfl, rfl, -⟩
    · exact hl
    · exact nodup_middle.2 (nodup_cons.2 ⟨hx, hl⟩)
  | remove x =>
    obtain rfl : l' = l.filter fun t => t ≠ x := h
    exact hl.filter _
  | move x P =>
    obtain ⟨-, -, -, u, v, huv, rfl, -⟩ := h
    rw [nodup_middle, ← huv, nodup_cons]
    exact ⟨by simp, hl.filter _⟩
  | reorder ids =>
    obtain ⟨-, rfl⟩ := h
    exact (refill_presentInOrder_perm hl ids).nodup_iff.2 hl

theorem Changes.mem_iff (h : Changes l l' i) (hl : l.Nodup) :
    t ∈ l' ↔ (∃ Q, i = .add t Q) ∨ (t ∈ l ∧ i ≠ .remove t) := by
  cases i with
  | add x Q =>
    rcases h with ⟨hx, rfl⟩ | ⟨-, u, v, rfl, rfl, -⟩
    · simp only [Intent.add.injEq, ne_eq, reduceCtorEq, not_false_eq_true, and_true, exists_and_left, exists_eq', iff_or_self]
      exact fun hxt => hxt ▸ hx
    · simp [or_left_comm, eq_comm]
  | remove x =>
    obtain rfl : l' = l.filter fun t => t ≠ x := h
    by_cases ht : t = x
    · simp [ht]
    · simp [ht, Ne.symm ht]
  | move x P =>
    obtain ⟨hx, -, -, u, v, huv, rfl, -⟩ := h
    have hsplit : t ∈ u ++ v ↔ t ∈ l ∧ t ≠ x := by simp [← huv]
    rw [mem_append, mem_cons, or_left_comm, ← mem_append, hsplit]
    by_cases ht : t = x
    · subst ht
      simp [hx]
    · simp [ht]
  | reorder ids =>
    obtain ⟨-, rfl⟩ := h
    rw [(refill_presentInOrder_perm hl ids).mem_iff]
    simp

theorem applied_reorder_nil : applied l (.reorder []) = some l := rfl

theorem applied_nodup (hl : l.Nodup) (hi : Intent.AnchorsApart i) (h : applied l i = some l') : l'.Nodup := by
  by_cases hne : i = .reorder []
  · subst hne
    exact some.inj (applied_reorder_nil.symm.trans h) ▸ hl
  · exact (applied_changes hl hi hne h).nodup hl

theorem mem_applied (hl : l.Nodup) (hi : Intent.AnchorsApart i) (h : applied l i = some l') :
    t ∈ l' ↔ (∃ Q, i = .add t Q) ∨ (t ∈ l ∧ i ≠ .remove t) := by
  by_cases hne : i = .reorder []
  · subst hne
    simp [some.inj (applied_reorder_nil.symm.trans h)]
  · exact (applied_changes hl hi hne h).mem_iff hl

end SC.Proof.Playlist
