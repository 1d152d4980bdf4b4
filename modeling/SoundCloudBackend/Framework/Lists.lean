import Mathlib.Data.List.Nodup
import Mathlib.Data.List.Perm.Basic

/-!
# Editing duplicate-free lists

`Before l u v` says that `u` stands before `v` in `l`. An edit of a
duplicate-free list is described by what it does to `Before`: removing other
members keeps it (`before_filter`), and a new member stands behind what is in
front of its position (`before_insert_left`). A member is where it is by the
members in front of it (`mem_front_iff`, `split_unique`).

`refill p l ns` writes the names `ns` over the members of `l` that satisfy `p`,
in order, and leaves the rest of the list in place.
-/

namespace SC

open List

variable {α : Type*} {l l₁ l₂ ns : List α} {u v x a : α} {p : α → Bool}

/-! ## Relative order -/

/-- `u` stands before `v` in the list. -/
def Before : List α → α → α → Prop
  | [], _, _ => False
  | w :: l, u, v => (u = w ∧ v ∈ l) ∨ Before l u v

@[simp] theorem before_nil : ¬ Before [] u v := id

theorem before_cons : Before (a :: l) u v ↔ (u = a ∧ v ∈ l) ∨ Before l u v := Iff.rfl

theorem Before.mem (h : Before l u v) : u ∈ l ∧ v ∈ l := by
  induction l with
  | nil => cases h
  | cons a l ih =>
    rcases h with ⟨rfl, hv⟩ | h
    · exact ⟨mem_cons_self, mem_cons_of_mem _ hv⟩
    · exact ⟨mem_cons_of_mem _ (ih h).1, mem_cons_of_mem _ (ih h).2⟩

theorem before_append : Before (l₁ ++ l₂) u v ↔ Before l₁ u v ∨ Before l₂ u v ∨ (u ∈ l₁ ∧ v ∈ l₂) := by
  induction l₁ with
  | nil => simp
  | cons a l₁ ih =>
    simp only [cons_append, before_cons, ih, mem_append, mem_cons]
    tauto

theorem before_filter : Before (l.filter p) u v ↔ Before l u v ∧ p u ∧ p v := by
  induction l with
  | nil => simp
  | cons a l ih =>
    by_cases ha : p a
    · rw [filter_cons_of_pos ha, before_cons, before_cons, ih, mem_filter]
      constructor
      · rintro (⟨rfl, hv, hp⟩ | ⟨h, hp⟩)
        · exact ⟨Or.inl ⟨rfl, hv⟩, ha, hp⟩
        · exact ⟨Or.inr h, hp⟩
      · rintro ⟨⟨rfl, hv⟩ | h, hu, hp⟩
        · exact Or.inl ⟨rfl, hv, hp⟩
        · exact Or.inr ⟨h, hu, hp⟩
    · rw [filter_cons_of_neg ha, before_cons, ih]
      constructor
      · exact fun ⟨h, hp⟩ => ⟨Or.inr h, hp⟩
      · rintro ⟨⟨rfl, -⟩ | h, hu, hp⟩
        · exact absurd hu ha
        · exact ⟨h, hu, hp⟩

theorem Before.asymm (hl : l.Nodup) (h : Before l u v) : ¬ Before l v u := by
  induction l with
  | nil => cases h
  | cons a l ih =>
    rw [nodup_cons] at hl
    rintro (⟨rfl, hu⟩ | h')
    · rcases h with ⟨rfl, hv⟩ | h
      · exact hl.1 hv
      · exact hl.1 h.mem.2
    · rcases h with ⟨rfl, hv⟩ | h
      · exact hl.1 h'.mem.2
      · exact ih hl.2 h h'

theorem Before.ne (hl : l.Nodup) (h : Before l u v) : u ≠ v := by
  rintro rfl
  exact h.asymm hl h

/-- A new member and those in front of it. -/
theorem before_insert_left (hx : x ∉ l₁ ++ l₂) (hu : u ≠ x) : Before (l₁ ++ x :: l₂) u x ↔ u ∈ l₁ := by
  simp only [mem_append, not_or] at hx
  simp only [before_append, before_cons, mem_cons, true_or, and_true]
  constructor
  · rintro (h | (⟨rfl, -⟩ | h) | h)
    · exact absurd h.mem.2 hx.1
    · exact absurd rfl hu
    · exact absurd h.mem.2 hx.2
    · exact h
  · exact fun h => Or.inr (Or.inr h)

theorem mem_front_iff (hl : (l₁ ++ a :: l₂).Nodup) : u ∈ l₁ ↔ Before (l₁ ++ a :: l₂) u a := by
  rw [nodup_middle, nodup_cons] at hl
  by_cases hu : u = a
  · subst hu
    refine ⟨fun h => absurd (mem_append_left _ h) hl.1, fun h => ?_⟩
    exact absurd rfl (h.ne (nodup_middle.2 (nodup_cons.2 hl)))
  · exact (before_insert_left hl.1 hu).symm

/-- A member splits a duplicate-free list in one way. -/
theorem split_unique {l₁' l₂' : List α} (hl : (l₁ ++ a :: l₂).Nodup) (h : l₁ ++ a :: l₂ = l₁' ++ a :: l₂') :
    l₁ = l₁' ∧ l₂ = l₂' := by
  have hl' : (l₁' ++ a :: l₂').Nodup := h ▸ hl
  rw [nodup_middle, nodup_cons, mem_append, not_or] at hl hl'
  induction l₁ generalizing l₁' with
  | nil =>
    cases l₁' with
    | nil => exact ⟨rfl, (List.cons.inj h).2⟩
    | cons b l₁' => exact absurd ((List.cons.inj h).1 ▸ mem_cons_self) hl'.1.1
  | cons b l₁ ih =>
    cases l₁' with
    | nil => exact absurd ((List.cons.inj h).1 ▸ mem_cons_self) hl.1.1
    | cons c l₁' =>
      obtain ⟨rfl, htail⟩ := List.cons.inj h
      simp only [mem_cons, not_or, cons_append, nodup_cons] at hl hl'
      obtain ⟨rfl, rfl⟩ := ih ⟨⟨hl.1.1.2, hl.1.2⟩, hl.2.2⟩ htail ⟨⟨hl'.1.1.2, hl'.1.2⟩, hl'.2.2⟩
      exact ⟨rfl, rfl⟩

/-! ## Positions -/

theorem insertIdx_length (l₁ l₂ : List α) (x : α) : (l₁ ++ l₂).insertIdx l₁.length x = l₁ ++ x :: l₂ := by
  induction l₁ with
  | nil => rfl
  | cons a l₁ ih => simp [ih]

theorem eraseIdx_length (l₁ l₂ : List α) (x : α) : (l₁ ++ x :: l₂).eraseIdx l₁.length = l₁ ++ l₂ := by
  induction l₁ with
  | nil => rfl
  | cons a l₁ ih => simp [ih]

/-! ## Writing names over members -/

/-- Write the names over the members that satisfy `p`, in order. -/
def refill (p : α → Bool) : List α → List α → List α
  | [], _ => []
  | x :: l, ns =>
    if p x then
      match ns with
      | [] => x :: refill p l []
      | n :: ns => n :: refill p l ns
    else x :: refill p l ns

theorem refill_cons_of_neg (hx : p x = false) : refill p (x :: l) ns = x :: refill p l ns := by
  simp [refill, hx]

@[simp] theorem refill_nil_right : refill p l [] = l := by
  induction l with
  | nil => rfl
  | cons x l ih => by_cases hx : p x <;> simp [refill, hx, ih]

theorem mem_refill (h : a ∈ refill p l ns) : a ∈ l ∨ a ∈ ns := by
  induction l generalizing ns with
  | nil => cases h
  | cons x l ih =>
    by_cases hx : p x
    · cases ns with
      | nil => simpa using h
      | cons n ns =>
        simp only [refill, hx, if_true, mem_cons] at h ⊢
        rcases h with h | h
        · exact Or.inr (Or.inl h)
        · exact (ih h).imp Or.inr Or.inr
    · simp only [refill, hx, Bool.false_eq_true, if_false, mem_cons] at h ⊢
      rcases h with h | h
      · exact Or.inl (Or.inl h)
      · exact (ih h).imp_left Or.inr

/-- The names are what `p` finds afterwards, if they satisfy it and there is one for each member. -/
theorem filter_refill (hlen : ns.length = (l.filter p).length) (hp : ∀ n ∈ ns, p n) :
    (refill p l ns).filter p = ns := by
  induction l generalizing ns with
  | nil => simpa [refill, eq_comm] using hlen
  | cons x l ih =>
    by_cases hx : p x
    · cases ns with
      | nil => simp [hx] at hlen
      | cons n ns =>
        have hn := hp n mem_cons_self
        simp only [refill, hx, if_true, filter_cons_of_pos hn]
        rw [ih (by simpa [hx] using hlen) fun m hm => hp m (mem_cons_of_mem _ hm)]
    · simp only [refill, hx, Bool.false_eq_true, if_false, filter_cons_of_neg hx]
      exact ih (by simpa [hx] using hlen) hp

/-- What is written replaces the members that satisfied `p`. -/
theorem refill_perm (hlen : ns.length = (l.filter p).length) :
    (refill p l ns).Perm (ns ++ l.filter fun y => !p y) := by
  induction l generalizing ns with
  | nil =>
    obtain rfl := length_eq_zero_iff.1 hlen
    exact .nil
  | cons x l ih =>
    by_cases hx : p x
    · cases ns with
      | nil => simp [hx] at hlen
      | cons n ns => simpa [refill, hx] using ih (by simpa [hx] using hlen)
    · simpa [refill, hx] using ((ih (by simpa [hx] using hlen)).cons x).trans perm_middle.symm

/-- The other members stay. -/
theorem filter_not_refill (hp : ∀ n ∈ ns, p n) :
    (refill p l ns).filter (fun y => !p y) = l.filter fun y => !p y := by
  induction l generalizing ns with
  | nil => rfl
  | cons x l ih =>
    by_cases hx : p x
    · cases ns with
      | nil => simp [refill, hx]
      | cons n ns =>
        have hn := hp n mem_cons_self
        simpa [refill, hx, hn] using ih fun m hm => hp m (mem_cons_of_mem _ hm)
    · simpa [refill, hx] using ih hp

/-- A filter that keeps the slots and the names commutes with writing. -/
theorem filter_refill_comm {q : α → Bool} (hl : ∀ y ∈ l, p y → q y) (hn : ∀ n ∈ ns, q n) :
    (refill p l ns).filter q = refill p (l.filter q) ns := by
  induction l generalizing ns with
  | nil => rfl
  | cons x l ih =>
    have hl' : ∀ y ∈ l, p y → q y := fun y hy => hl y (mem_cons_of_mem _ hy)
    by_cases hx : p x
    · have hqx := hl x mem_cons_self hx
      cases ns with
      | nil => simp
      | cons n ns =>
        have hqn := hn n mem_cons_self
        simp [refill, hx, hqx, hqn, ih hl' fun m hm => hn m (mem_cons_of_mem _ hm)]
    · by_cases hqx : q x <;> simp [refill, hx, hqx, ih hl' hn]

theorem refill_append (l₁ l₂ ns : List α) :
    refill p (l₁ ++ l₂) ns = refill p l₁ ns ++ refill p l₂ (ns.drop (l₁.filter p).length) := by
  induction l₁ generalizing ns with
  | nil => rfl
  | cons x l₁ ih =>
    by_cases hx : p x
    · cases ns with
      | nil => simp
      | cons n ns => simp [refill, hx, ih]
    · simp [refill, hx, ih]

/-! ## Taking a member out -/

/-- A list is the member at an index and the others. -/
theorem perm_cons_eraseIdx {i : Nat} (h : l[i]? = some x) : l.Perm (x :: l.eraseIdx i) := by
  obtain ⟨hi, rfl⟩ := List.getElem?_eq_some_iff.1 h
  exact (getElem_cons_eraseIdx_perm hi).symm

/-- The lists of a list are the one at an index and the others, also after it was replaced. -/
theorem flatten_set_perm {ls : List (List α)} {i : Nat} {m m' : List α} (h : ls[i]? = some m) :
    ls.flatten.Perm (m ++ (ls.eraseIdx i).flatten) ∧ (ls.set i m').flatten.Perm (m' ++ (ls.eraseIdx i).flatten) :=
  ⟨(perm_cons_eraseIdx h).flatten, (set_perm_cons_eraseIdx (List.getElem?_eq_some_iff.1 h).1 m').flatten⟩

end SC
