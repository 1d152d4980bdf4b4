import SoundCloudBackend.Framework.Lists
import SoundCloudBackend.Impl.Playlist.Kind
import SoundCloudBackend.Impl.Playlist.Reduce

/-!
# The list operations of the playlist code

What `position_of`, the placements and the two ways to write a reordered list
do, in terms of splits of the list and of `SC.refill`:

* `positionOf_append`, `positionOf_eq_none`: where a track is;
* `insertPosition_le`, `resolvePlacement_le`: placements stay inside the list;
* `writeSlots_eq_refill`, `reorderBySlots_eq_refill`: the loop over the slots
  and the SQL join write the same list.
-/

namespace SC.Proof.Playlist

open Impl.Playlist
open List Option

variable {l l₁ l₂ ns : List TrackId} {a x : TrackId}
variable {i : Nat}

theorem positionOf_eq_none : positionOf l a = none ↔ a ∉ l := by
  simp only [positionOf, List.findIdx?_eq_none_iff, decide_eq_false_iff_not]
  constructor
  · exact fun h ha => h a ha rfl
  · rintro h y hy rfl
    exact h hy

theorem positionOf_append (h : a ∉ l₁) : positionOf (l₁ ++ a :: l₂) a = some l₁.length := by
  induction l₁ with
  | nil => simp [positionOf, List.findIdx?_cons]
  | cons b l₁ ih =>
    have hb : b ≠ a := fun hba => h (hba ▸ mem_cons_self)
    have ih := ih fun ha => h (mem_cons_of_mem _ ha)
    simp only [positionOf] at ih
    simp [positionOf, List.findIdx?_cons, hb, ih]

theorem positionOf_eq_some (h : positionOf l a = some i) : ∃ l₁ l₂, l = l₁ ++ a :: l₂ ∧ l₁.length = i ∧ a ∉ l₁ := by
  have ha : a ∈ l := by
    by_contra hna
    simp [positionOf_eq_none.2 hna] at h
  obtain ⟨l₁, l₂, rfl, hl₁⟩ := eq_append_cons_of_mem ha
  rw [positionOf_append hl₁] at h
  exact ⟨l₁, l₂, rfl, some.inj h, hl₁⟩

theorem positionOf_isSome : (positionOf l a).isSome ↔ a ∈ l := by
  rw [isSome_iff_ne_none, ne_eq, positionOf_eq_none, not_not]

theorem positionOf_lt (h : positionOf l a = some i) : i < l.length := by
  obtain ⟨l₁, l₂, rfl, rfl, -⟩ := positionOf_eq_some h
  simp

theorem eraseIdx_positionOf (hl : l.Nodup) (h : positionOf l a = some i) :
    l.eraseIdx i = l.filter fun y => y ≠ a := by
  obtain ⟨l₁, l₂, rfl, rfl, hl₁⟩ := positionOf_eq_some h
  have hl₂ : a ∉ l₂ := fun ha => by simp [nodup_middle, nodup_cons, ha] at hl
  have hne : ∀ {m : List TrackId}, a ∉ m → m.filter (fun y => decide (y ≠ a)) = m := fun {m} hm =>
    filter_eq_self.2 fun y hy => by
      simp only [ne_eq, decide_not, Bool.not_eq_true', decide_eq_false_iff_not]
      rintro rfl
      exact hm hy
  rw [eraseIdx_length, filter_append, filter_cons_of_neg (by simp), hne hl₁, hne hl₂]

/-! ## Placements -/

theorem resolvePlacement_le {p : Placement} (h : resolvePlacement l p = some i) : i ≤ l.length := by
  cases p with
  | boundary b => cases b <;> cases h <;> simp
  | anchored left right =>
    simp only [resolvePlacement, or_eq_some_iff, map_eq_some_iff, bind_eq_some_iff] at h
    rcases h with ⟨j, ⟨b, -, hb⟩, rfl⟩ | ⟨-, b, -, hb⟩
    · exact positionOf_lt hb
    · exact Nat.le_of_lt (positionOf_lt hb)

/-- The api and jobs resolve a placement alike; the api falls back to the end of the list. -/
theorem insertPosition_eq (l : List TrackId) (p : Placement) :
    insertPosition l p = (resolvePlacement l p).getD l.length := by
  cases p with
  | boundary b => cases b <;> rfl
  | anchored left right => rfl

theorem insertPosition_le (l : List TrackId) (p : Placement) : insertPosition l p ≤ l.length := by
  rw [insertPosition_eq]
  cases h : resolvePlacement l p with
  | none => exact Nat.le_refl _
  | some i => exact resolvePlacement_le h

theorem insertAtSlot_eq (hi : i ≤ l.length) : insertAtSlot l i (some x) = l.insertIdx i x := by
  have h := insertIdx_length (l.take i) (l.drop i) x
  rw [take_append_drop, length_take, Nat.min_eq_left hi] at h
  simp [insertAtSlot, h]

/-! ## Reordering -/

/-- The positions of the members that satisfy `p`, counted from `k`. -/
def slotsFrom (p : TrackId → Bool) (k : Nat) (l : List TrackId) : List Nat :=
  ((l.zipIdx k).filter fun m => p m.1).map Prod.snd

theorem slotsFrom_cons (p : TrackId → Bool) (k : Nat) (x : TrackId) (l : List TrackId) :
    slotsFrom p k (x :: l) = if p x then k :: slotsFrom p (k + 1) l else slotsFrom p (k + 1) l := by
  by_cases h : p x <;> simp [slotsFrom, zipIdx_cons, h]

theorem le_of_mem_slotsFrom {p : TrackId → Bool} {k : Nat} (h : i ∈ slotsFrom p k l) : k ≤ i := by
  induction l generalizing k with
  | nil => simp [slotsFrom] at h
  | cons x l ih =>
    rw [slotsFrom_cons] at h
    split at h
    · rcases mem_cons.1 h with rfl | h
      · exact Nat.le_refl _
      · exact Nat.le_of_succ_le (ih h)
    · exact Nat.le_of_succ_le (ih h)

theorem foldl_set_eq_refill (p : TrackId → Bool) (pre l ns : List TrackId) :
    ((slotsFrom p pre.length l).zip ns).foldl (fun list q => list.set q.1 q.2) (pre ++ l) = pre ++ refill p l ns := by
  induction l generalizing pre ns with
  | nil => simp [slotsFrom, refill]
  | cons x l ih =>
    rw [slotsFrom_cons]
    by_cases hx : p x
    · cases ns with
      | nil => simp
      | cons n ns =>
        have := ih (pre ++ [n]) ns
        simpa [refill, hx] using this
    · have := ih (pre ++ [x]) ns
      simpa [refill, hx] using this

theorem writeSlots_eq_refill (l named : List TrackId) :
    writeSlots l (slotsOf l named) named = refill (· ∈ named) l named :=
  foldl_set_eq_refill (fun t => decide (t ∈ named)) [] l named

theorem join_ranks {α β : Type} (xs : List α) (ys : List β) (k : Nat) :
    (xs.zipIdx k).filterMap (fun s => ((ys.zipIdx k).find? fun n => n.2 = s.2).map fun n => (s.1, n.1)) =
      xs.zip ys := by
  induction xs generalizing ys k with
  | nil => rfl
  | cons x xs ih =>
    cases ys with
    | nil => simp
    | cons y ys =>
      rw [zipIdx_cons, zipIdx_cons, filterMap_cons, List.find?_cons_of_pos (by simp), zip_cons_cons,
        ← ih ys (k + 1)]
      simp only [map_some]
      congr 1
      -- a later slot has a later rank than the first name
      refine filterMap_congr fun s hs => ?_
      have hk : k + 1 ≤ s.2 := by
        have := le_snd_of_mem_zipIdx hs
        omega
      rw [List.find?_cons_of_neg (by simp; omega)]

theorem lookup_eq_refill (p : TrackId → Bool) (k : Nat) (l ns : List TrackId) :
    (l.zipIdx k).map (fun m => (((slotsFrom p k l).zip ns).lookup m.2).getD m.1) = refill p l ns := by
  induction l generalizing ns k with
  | nil => rfl
  | cons x l ih =>
    rw [slotsFrom_cons, zipIdx_cons, map_cons]
    by_cases hx : p x
    · cases ns with
      | nil => simp
      | cons n ns =>
        simp only [hx, if_true, zip_cons_cons, lookup_cons_self, getD_some, refill]
        rw [← ih (k + 1) ns]
        congr 1
        refine map_congr_left fun m hm => ?_
        have hk : k + 1 ≤ m.2 := le_snd_of_mem_zipIdx hm
        have hne : (m.2 == k) = false := by simp; omega
        simp [lookup_cons, hne]
    · have hnone : ((slotsFrom p (k + 1) l).zip ns).lookup k = none := by
        rw [lookup_eq_none_iff]
        intro q hq
        have := le_of_mem_slotsFrom (of_mem_zip hq).1
        simp
        omega
      simp only [hx, Bool.false_eq_true, if_false, hnone, getD_none, refill]
      rw [ih (k + 1) ns]

theorem reorderBySlots_eq_refill (l ordered : List TrackId) :
    reorderBySlots l ordered = refill (· ∈ ordered) l (ordered.filter (· ∈ l)) := by
  rw [← lookup_eq_refill _ 1]
  simp only [reorderBySlots, withOrdinality]
  rw [join_ranks]
  rfl

end SC.Proof.Playlist
