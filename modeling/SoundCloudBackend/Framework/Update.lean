import Mathlib.Algebra.BigOperators.Group.List.Basic
import Mathlib.Algebra.Ring.Int.Defs
import Mathlib.Data.List.Dedup

/-!
# Updates of a table from a join

`UPDATE … FROM … RETURNING` on a table that is a list of rows: `join` gives the row
of the other side that a row is joined with, if there is one, `updateFrom` sets the
joined rows and `joinedRows` returns them. `sum_updateFrom` is what an update does to
a sum over the table, in terms of the returned rows; `length_dedup_map` counts the
distinct keys of returned rows by representatives.
-/

namespace SC

open List

variable {α β κ : Type*}
variable {join : α → Option β} {rows : List α}
variable {a : α} {b : β} {set : β → α → α}

/-- The rows that an update returns, each with what it is joined with. -/
def joinedRows (join : α → Option β) (rows : List α) : List (α × β) :=
  rows.filterMap fun a => (join a).map fun b => (a, b)

/-- The row after the update. -/
def updateRow (join : α → Option β) (set : β → α → α) (a : α) : α :=
  match join a with
  | some b => set b a
  | none => a

/-- The table after the update. -/
def updateFrom (join : α → Option β) (set : β → α → α) (rows : List α) : List α := rows.map (updateRow join set)

theorem mem_joinedRows : (a, b) ∈ joinedRows join rows ↔ a ∈ rows ∧ join a = some b := by
  simp only [joinedRows, mem_filterMap, Option.map_eq_some_iff, Prod.mk.injEq]
  constructor
  · rintro ⟨a', ha', b', hb', rfl, rfl⟩
    exact ⟨ha', hb'⟩
  · rintro ⟨ha, hb⟩
    exact ⟨a, ha, b, hb, rfl, rfl⟩

theorem joinedRows_cons_none (h : join a = none) : joinedRows join (a :: rows) = joinedRows join rows := by
  simp [joinedRows, h]

theorem joinedRows_cons_some (h : join a = some b) :
    joinedRows join (a :: rows) = (a, b) :: joinedRows join rows := by
  simp [joinedRows, h]

/-- The returned rows are rows of the table, in its order. -/
theorem joinedRows_sublist (join : α → Option β) (rows : List α) : ((joinedRows join rows).map Prod.fst).Sublist rows := by
  induction rows with
  | nil => exact .slnil
  | cons a rows ih =>
    cases hj : join a with
    | none =>
      rw [joinedRows_cons_none hj]
      exact ih.cons a
    | some b =>
      rw [joinedRows_cons_some hj]
      exact ih.cons_cons a

theorem updateRow_some (h : join a = some b) :
    updateRow join set a = set b a := by
  rw [updateRow, h]

theorem updateRow_none (h : join a = none) : updateRow join set a = a := by
  rw [updateRow, h]

/-- A sum over the table loses and gains what the returned rows lose and gain. -/
theorem sum_updateFrom {f : α → Int} {lost gained : α × β → Int}
    (h : ∀ r ∈ joinedRows join rows, f (set r.2 r.1) = f r.1 - lost r + gained r) :
    ((updateFrom join set rows).map f).sum =
      (rows.map f).sum - ((joinedRows join rows).map lost).sum + ((joinedRows join rows).map gained).sum := by
  induction rows with
  | nil => rfl
  | cons a rows ih =>
    cases hj : join a with
    | none =>
      rw [joinedRows_cons_none hj] at h ⊢
      simp only [updateFrom, map_cons, sum_cons, updateRow_none hj] at ih ⊢
      rw [ih h]
      omega
    | some b =>
      rw [joinedRows_cons_some hj] at h ⊢
      have ha := h (a, b) mem_cons_self
      simp only [updateFrom, map_cons, sum_cons, updateRow_some hj] at ih ha ⊢
      rw [ih fun r hr => h r (mem_cons_of_mem _ hr)]
      omega

/-- The sum over selected rows, as a sum over all rows. -/
theorem sum_filter_map (p : α → Bool) (f : α → Int) (rows : List α) :
    ((rows.filter p).map f).sum = (rows.map fun a => if p a then f a else 0).sum := by
  induction rows with
  | nil => rfl
  | cons a rows ih =>
    cases hp : p a with
    | true => simp only [filter_cons_of_pos hp, map_cons, sum_cons, ih, hp, if_true]
    | false =>
      simp only [filter_cons_of_neg (by simp [hp] : ¬ p a = true), map_cons, sum_cons, ih, hp,
        Bool.false_eq_true, if_false, zero_add]

/-- Distinct keys are counted by representatives, one for each key. -/
theorem length_dedup_map [DecidableEq κ] {key : α → κ} {rep : α → Bool}
    (hrep : ∀ a ∈ rows, ∃ b ∈ rows, rep b = true ∧ key b = key a) (hone : ((rows.filter rep).map key).Nodup) :
    (rows.map key).dedup.length = (rows.filter rep).length := by
  have hperm : List.Perm (rows.map key).dedup ((rows.filter rep).map key) := by
    refine (perm_ext_iff_of_nodup (nodup_dedup _) hone).2 fun k => ?_
    rw [mem_dedup, mem_map, mem_map]
    constructor
    · rintro ⟨a, ha, rfl⟩
      obtain ⟨b, hb, hbrep, hkey⟩ := hrep a ha
      exact ⟨b, mem_filter.2 ⟨hb, hbrep⟩, hkey⟩
    · rintro ⟨b, hb, rfl⟩
      exact ⟨b, (mem_filter.1 hb).1, rfl⟩
  rw [hperm.length_eq, length_map]

end SC
