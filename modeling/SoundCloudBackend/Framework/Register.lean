import Mathlib.Data.Set.Function

/-!
# Last-writer-wins registers

A register keeps one of the images it was sent: the one whose version is
greatest (`Latest`). A register with graves may also be told that every image
up to some version is deleted; it then keeps the latest image only while that
one is above all graves (`Holds`). Both notions depend on the sets of images
and graves, not on the order or the number of their arrivals.
-/

namespace SC

variable {ι V : Type*} [LinearOrder V] {v : ι → V} {I : Set ι} {T : Set V} {x y : ι} {t : V}

/-- `x` is an image in `I` whose version is greatest. -/
def Latest (v : ι → V) (I : Set ι) (x : ι) : Prop :=
  x ∈ I ∧ ∀ y ∈ I, v y ≤ v x

theorem Latest.insert_le (h : Latest v I x) (hy : v y ≤ v x) : Latest v (insert y I) x := by
  refine ⟨Set.mem_insert_of_mem _ h.1, ?_⟩
  rintro z (rfl | hz)
  · exact hy
  · exact h.2 z hz

theorem Latest.insert_ge (h : Latest v I x) (hy : v x ≤ v y) : Latest v (insert y I) y := by
  refine ⟨Set.mem_insert _ _, ?_⟩
  rintro z (rfl | hz)
  · exact le_rfl
  · exact (h.2 z hz).trans hy

theorem latest_singleton : Latest v {x} x :=
  ⟨rfl, by rintro _ rfl; exact le_rfl⟩

/-- If versions identify images, there is at most one latest image. -/
theorem Latest.unique (h : Latest v I x) (h' : Latest v I y) (hv : Set.InjOn v I) : x = y :=
  hv h.1 h'.1 (le_antisymm (h'.2 x h.1) (h.2 y h'.1))

/-- What a register holds after the images `I` and the graves `T`: the latest image if that is
above every grave, and nothing if every image is below some grave. -/
def Holds (v : ι → V) (I : Set ι) (T : Set V) : Option ι → Prop
  | some x => Latest v I x ∧ ∀ t ∈ T, t < v x
  | none => ∀ y ∈ I, ∃ t ∈ T, v y ≤ t

namespace Holds

theorem insert_newer (h : Holds v I T (some x)) (hy : v x < v y) : Holds v (insert y I) T (some y) :=
  ⟨h.1.insert_ge hy.le, fun t ht => (h.2 t ht).trans hy⟩

theorem insert_older (h : Holds v I T (some x)) (hy : v y ≤ v x) : Holds v (insert y I) T (some x) :=
  ⟨h.1.insert_le hy, h.2⟩

theorem insert_buried (h : Holds v I T none) (ht : t ∈ T) (hy : v y ≤ t) : Holds v (insert y I) T none := by
  rintro z (rfl | hz)
  · exact ⟨t, ht, hy⟩
  · exact h z hz

theorem insert_first (h : Holds v I T none) (hy : ∀ t ∈ T, t < v y) : Holds v (insert y I) T (some y) := by
  refine ⟨⟨Set.mem_insert _ _, ?_⟩, hy⟩
  rintro z (rfl | hz)
  · exact le_rfl
  · obtain ⟨t, ht, hle⟩ := h z hz
    exact hle.trans (hy t ht).le

theorem bury (h : Holds v I T (some x)) (ht : v x ≤ t) : Holds v I (insert t T) none :=
  fun y hy => ⟨t, Set.mem_insert _ _, (h.1.2 y hy).trans ht⟩

theorem bury_below (h : Holds v I T (some x)) (ht : t < v x) : Holds v I (insert t T) (some x) := by
  refine ⟨h.1, ?_⟩
  rintro u (rfl | hu)
  · exact ht
  · exact h.2 u hu

theorem bury_none (h : Holds v I T none) : Holds v I (insert t T) none := by
  intro y hy
  obtain ⟨u, hu, hle⟩ := h y hy
  exact ⟨u, Set.mem_insert_of_mem _ hu, hle⟩

/-- What a register holds is determined by the sets of images and graves. -/
theorem eq_some_iff {r : Option ι} (h : Holds v I T r) (hv : Set.InjOn v I) :
    r = some x ↔ Latest v I x ∧ ∀ t ∈ T, t < v x := by
  cases r with
  | none =>
    refine ⟨nofun, ?_⟩
    rintro ⟨hx, ht⟩
    obtain ⟨t, htT, hle⟩ := h x hx.1
    exact absurd hle (ht t htT).not_ge
  | some y =>
    constructor
    · rintro ⟨⟩
      exact h
    · rintro ⟨hx, -⟩
      rw [h.1.unique hx hv]

end Holds

end SC
