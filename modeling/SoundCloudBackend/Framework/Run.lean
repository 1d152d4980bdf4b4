import Mathlib.Data.List.Basic

/-!
# Runs of a step function

A system is a step function `σ → α → Option σ`: `none` says that the action
is not enabled in the state. A run is a list of actions taken one after the
other. An invariant is proved once for a step and carried to every run by
`run_invariant`; `Meets` says of a run that each of its steps was taken in a
state that satisfies a side condition, and `run_invariant_of_meets` is the
same rule for such runs. `Always` says of a run that all its states have a
property, and `always_iff_meets` that a side condition is exactly what this needs.
-/

namespace SC

open Option

variable {σ α : Type*} {step : σ → α → Option σ}
variable {ok : σ → α → Prop} {s s' : σ} {as : List α}
variable {I P : σ → Prop} {ε : Type} {x : Except ε α}

/-- The state after a list of actions, if each of them was enabled in turn. -/
def run (step : σ → α → Option σ) : σ → List α → Option σ
  | s, [] => some s
  | s, a :: as => (step s a).bind fun s' => run step s' as

/-- Each step of the run from `s` is taken in a state that meets `ok`. -/
def Meets (step : σ → α → Option σ) (ok : σ → α → Prop) : σ → List α → Prop
  | _, [] => True
  | s, a :: as => ok s a ∧ ∀ s', step s a = some s' → Meets step ok s' as

@[simp] theorem run_nil (s : σ) : run step s [] = some s := rfl

@[simp] theorem run_cons (s : σ) (a : α) (as : List α) :
    run step s (a :: as) = (step s a).bind fun s' => run step s' as := rfl

@[simp] theorem meets_nil (s : σ) : Meets step ok s [] := trivial

theorem meets_cons {a : α} (h : step s a = some s') (ha : ok s a)
    (has : Meets step ok s' as) : Meets step ok s (a :: as) :=
  ⟨ha, fun _ h' => Option.some.inj (h.symm.trans h') ▸ has⟩

theorem meets_of_forall (h : ∀ a ∈ as, ∀ s, ok s a) : Meets step ok s as := by
  induction as generalizing s with
  | nil => trivial
  | cons a as ih =>
    rw [List.forall_mem_cons] at h
    exact ⟨h.1 s, fun _ _ => ih h.2⟩

instance Meets.decidable {ok : σ → α → Prop} [∀ s, DecidablePred (ok s)] : ∀ s as, Decidable (Meets step ok s as)
  | _, [] => isTrue trivial
  | s, a :: as =>
    match h : step s a with
    | none => decidable_of_iff (ok s a) ⟨fun ha => ⟨ha, fun _ h' => nomatch h.symm.trans h'⟩, And.left⟩
    | some s' =>
      have : Decidable (Meets step ok s' as) := Meets.decidable s' as
      decidable_of_iff (ok s a ∧ Meets step ok s' as) ⟨fun hm => meets_cons h hm.1 hm.2, fun hm => ⟨hm.1, hm.2 s' h⟩⟩

/-- What every step keeps, every run keeps, if its steps meet the side condition. -/
theorem run_invariant_of_meets (hstep : ∀ {s a s'}, I s → ok s a → step s a = some s' → I s')
    (hs : I s) (hm : Meets step ok s as) (h : run step s as = some s') : I s' := by
  induction as generalizing s with
  | nil => cases h; exact hs
  | cons a as ih =>
    obtain ⟨s₁, h₁, h₂⟩ := bind_eq_some_iff.1 h
    exact ih (hstep hs hm.1 h₁) (hm.2 _ h₁) h₂

/-- What every step keeps, every run keeps. -/
theorem run_invariant (hstep : ∀ {s a s'}, I s → step s a = some s' → I s')
    (hs : I s) (h : run step s as = some s') : I s' := by
  induction as generalizing s with
  | nil => cases h; exact hs
  | cons a as ih =>
    obtain ⟨s₁, h₁, h₂⟩ := bind_eq_some_iff.1 h
    exact ih (hstep hs h₁) h₂

/-- A side condition that follows from another one by an invariant. -/
theorem Meets.imp {ok' : σ → α → Prop} (hstep : ∀ {s a s'}, I s → step s a = some s' → I s')
    (himp : ∀ {s a}, I s → ok s a → ok' s a) (hs : I s) (hm : Meets step ok s as) : Meets step ok' s as := by
  induction as generalizing s with
  | nil => exact trivial
  | cons a as ih => exact ⟨himp hs hm.1, fun s' h => ih (hstep hs h) (hm.2 s' h)⟩

/-- What every step keeps of the state and the actions so far, every run has. -/
theorem run_trace {I : List α → σ → Prop} (hstep : ∀ {as s a s'}, I as s → step s a = some s' → I (as ++ [a]) s')
    {bs : List α} (hs : I bs s) (h : run step s as = some s') : I (bs ++ as) s' := by
  induction as generalizing s bs with
  | nil => cases h; simpa using hs
  | cons a as ih =>
    obtain ⟨s₁, h₁, h₂⟩ := bind_eq_some_iff.1 h
    have := ih (hstep hs h₁) h₂
    rwa [List.append_assoc] at this

/-- Steps that a map takes to steps of another system make runs of it. -/
theorem run_simulates {τ : Type*} {step' : τ → α → Option τ} {f : σ → τ}
    (hkeep : ∀ {s a s'}, I s → step s a = some s' → I s')
    (hsim : ∀ {s a s'}, I s → step s a = some s' → step' (f s) a = some (f s')) (hs : I s)
    (h : run step s as = some s') : run step' (f s) as = some (f s') := by
  induction as generalizing s with
  | nil => exact congrArg (fun s => some (f s)) (Option.some.inj h)
  | cons a as ih =>
    obtain ⟨s₁, h₁, h₂⟩ := bind_eq_some_iff.1 h
    exact bind_eq_some_iff.2 ⟨f s₁, hsim hs h₁, ih (hkeep hs h₁) h₂⟩

/-- If some step makes a measure smaller wherever the goal is not reached, some run reaches it. -/
theorem run_reaches {μ : σ → Nat} {ok : α → Prop}
    (h : ∀ s, ¬ P s → ∃ a s', ok a ∧ step s a = some s' ∧ μ s' < μ s) (s : σ) :
    ∃ as s', (∀ a ∈ as, ok a) ∧ run step s as = some s' ∧ P s' := by
  induction hn : μ s using Nat.strongRecOn generalizing s with
  | _ n ih =>
    by_cases hP : P s
    · exact ⟨[], s, by simp, rfl, hP⟩
    · obtain ⟨a, s₁, ha, hstep, hlt⟩ := h s hP
      obtain ⟨as, s', has, hrun, hgoal⟩ := ih _ (hn ▸ hlt) s₁ rfl
      exact ⟨a :: as, s', List.forall_mem_cons.2 ⟨ha, has⟩, bind_eq_some_iff.2 ⟨s₁, hstep, hrun⟩, hgoal⟩

theorem run_append (s : σ) (as bs : List α) : run step s (as ++ bs) = (run step s as).bind fun s' => run step s' bs := by
  induction as generalizing s with
  | nil => rfl
  | cons a as ih =>
    cases h : step s a with
    | none => simp [h]
    | some s₁ => simpa [h] using ih s₁

/-- A step with an observer, which notes what it sees of each action without acting itself. -/
def observed {τ : Type*} (step : σ → α → Option σ) (see : σ → τ → α → τ) (s : σ × τ) (a : α) : Option (σ × τ) :=
  (step s.1 a).map fun s' => (s', see s.1 s.2 a)

/-- Every run can be observed. -/
theorem run_observed {τ : Type*} {see : σ → τ → α → τ} (h : run step s as = some s') (t : τ) :
    ∃ t', run (observed step see) (s, t) as = some (s', t') := by
  induction as generalizing s t with
  | nil => exact ⟨t, congrArg (fun s => some (s, t)) (Option.some.inj h)⟩
  | cons a as ih =>
    obtain ⟨s₁, h₁, h₂⟩ := bind_eq_some_iff.1 h
    obtain ⟨t', h'⟩ := ih h₂ (see s t a)
    exact ⟨t', by simpa [observed, h₁] using h'⟩

/-- Every state of the run from `s` satisfies `P`, the first and the last included. -/
def Always (step : σ → α → Option σ) (P : σ → Prop) : σ → List α → Prop
  | s, [] => P s
  | s, a :: as => P s ∧ ∀ s', step s a = some s' → Always step P s' as

theorem Always.head (h : Always step P s as) : P s := by
  cases as with
  | nil => exact h
  | cons a as => exact h.1

/-- A property holds in every state of a run exactly if every step of it meets a side condition, when a step that meets
it keeps an invariant with the property, and a step that does not loses the property. -/
theorem always_iff_meets (hI : ∀ {s}, I s → P s)
    (hkeep : ∀ {s a s'}, I s → ok s a → step s a = some s' → I s')
    (hlose : ∀ {s a s'}, I s → ¬ ok s a → step s a = some s' → ¬ P s') (hs : I s) (h : run step s as = some s') :
    Always step P s as ↔ Meets step ok s as := by
  induction as generalizing s with
  | nil => exact ⟨fun _ => trivial, fun _ => hI hs⟩
  | cons a as ih =>
    obtain ⟨s₁, h₁, h₂⟩ := bind_eq_some_iff.1 h
    constructor
    · intro halways
      have hok : ok s a := Classical.not_not.1 fun hok => hlose hs hok h₁ (halways.2 s₁ h₁).head
      exact meets_cons h₁ hok ((ih (hkeep hs hok h₁) h₂).1 (halways.2 s₁ h₁))
    · intro hmeets
      refine ⟨hI hs, fun s₂ h' => ?_⟩
      obtain rfl := Option.some.inj (h₁.symm.trans h')
      exact (ih (hkeep hs hmeets.1 h₁) h₂).2 (hmeets.2 _ h₁)

/-! ## Computations that can fail -/

/-- A sequence that succeeds succeeds in both parts. -/
theorem bind_eq_ok {ε α β : Type} {x : Except ε α} {f : α → Except ε β} {b : β} (h : (x >>= f) = .ok b) :
    ∃ a, x = .ok a ∧ f a = .ok b := by
  cases x with
  | error e => cases h
  | ok a => exact ⟨a, rfl, h⟩

theorem map_eq_ok {ε α β : Type} {x : Except ε α} {f : α → β} {b : β} (h : x.map f = .ok b) : ∃ a, x = .ok a ∧ f a = b := by
  cases x with
  | error e => cases h
  | ok a => exact ⟨a, rfl, Except.ok.inj h⟩

theorem toOption_eq_some {ε α : Type} {x : Except ε α} {a : α} (h : x.toOption = some a) : x = .ok a := by
  cases x with
  | error e => cases h
  | ok b => exact congrArg Except.ok (Option.some.inj h)

end SC
