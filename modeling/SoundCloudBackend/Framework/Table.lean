import Mathlib.Data.List.Basic

/-!
# Tables and row changes

A table with a primary key is a function from keys to rows. A `Change` is the
image of one row operation, as a log of the table carries it. A change is
`Legal` where the operation it records could have run: an insert of a free
key, an update or a delete of a row that is there. A sequence of changes is
applied in its order, and acts on a key only by the changes that write it
(`applyAll_of_notMem`).
-/

namespace SC

open Function

/-- One row operation. An update may also move the row to a new key. -/
inductive Change (K V : Type*) where
  | insert (k : K) (v : V)
  | update (old new : K) (v : V)
  | delete (k : K)
  deriving DecidableEq

namespace Change

variable {K V : Type*} [DecidableEq K] {t : K → Option V} {c : Change K V} {cs ds : List (Change K V)} {k : K}

/-- The table after the operation. -/
def apply (t : K → Option V) : Change K V → K → Option V
  | insert k v => Function.update t k (some v)
  | update old new v => Function.update (Function.update t old none) new (some v)
  | delete k => Function.update t k none

/-- The table after a sequence of operations. -/
def applyAll (t : K → Option V) (cs : List (Change K V)) : K → Option V :=
  cs.foldl apply t

/-- The keys an operation writes. -/
def keys : Change K V → List K
  | insert k _ => [k]
  | update old new _ => [old, new]
  | delete k => [k]

/-- The operation leaves the row at its key. -/
def KeepsKey : Change K V → Prop
  | update old new _ => old = new
  | _ => True

/-- The operation could have run on the table. -/
def Legal (t : K → Option V) : Change K V → Prop
  | insert k _ => t k = none
  | update old new _ => t old ≠ none ∧ (old ≠ new → t new = none)
  | delete k => t k ≠ none

/-- The operations could have run on the table, one after the other. -/
def LegalAll (t : K → Option V) : List (Change K V) → Prop
  | [] => True
  | c :: cs => Legal t c ∧ LegalAll (apply t c) cs

@[simp] theorem applyAll_cons : applyAll t (c :: cs) = applyAll (apply t c) cs := rfl

theorem apply_of_notMem (h : k ∉ c.keys) : apply t c k = t k := by
  cases c with
  | insert k' v => exact Function.update_of_ne (by simpa [keys] using h) ..
  | update old new v =>
    simp only [keys, List.mem_cons, List.not_mem_nil, or_false, not_or] at h
    rw [apply, update_of_ne h.2, update_of_ne h.1]
  | delete k' => exact Function.update_of_ne (by simpa [keys] using h) ..

/-- A key that no operation writes keeps its row. -/
theorem applyAll_of_notMem (h : ∀ c ∈ cs, k ∉ c.keys) : applyAll t cs k = t k := by
  induction cs generalizing t with
  | nil => rfl
  | cons c cs ih =>
    rw [applyAll_cons, ih fun d hd => h d (List.mem_cons_of_mem _ hd)]
    exact apply_of_notMem (h c List.mem_cons_self)

end Change

end SC
