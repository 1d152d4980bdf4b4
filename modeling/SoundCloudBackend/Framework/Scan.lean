import Mathlib.Data.List.DropRight

/-!
# Scanning texts

The first occurrence of a pattern (`cutAt`), what is trimmed from the end of a text, and scans
that rewrite a text word by word with a state (`scan`): the words are the maximal runs
without a gap, and the gaps between them are copied. A scan of a text is the scan of its front and then of the
rest, wherever a word begins (`scan_append`).
-/

namespace SC

open List Option

variable {α σ : Type}
variable {c : α}

/-! ## The first occurrence of a pattern -/

section Cut

variable {pat u v a b : List α} {x : α}

theorem prefix_of_prefix_append (hx : x ∉ pat) (h : pat <+: u ++ x :: v) : pat <+: u := by
  by_cases hlength : pat.length ≤ u.length
  · exact prefix_of_prefix_length_le h (prefix_append u _) hlength
  · have hlonger : u ++ [x] <+: pat := prefix_of_prefix_length_le (by simp) h (by simp; omega)
    exact absurd (hlonger.subset (by simp)) hx

variable [DecidableEq α]

/-- What stands before the first occurrence of `pat`, and what behind it. -/
def cutAt (pat : List α) : List α → Option (List α × List α)
  | [] => if pat = [] then some ([], []) else none
  | c :: cs =>
    if pat.isPrefixOf (c :: cs) then some ([], (c :: cs).drop pat.length)
    else (cutAt pat cs).map fun (before, after) => (c :: before, after)

theorem cutAt_eq_some (h : cutAt pat u = some (a, b)) : u = a ++ pat ++ b := by
  induction u generalizing a with
  | nil =>
    unfold cutAt at h
    split_ifs at h
    cases h
    simpa using Eq.symm ‹pat = []›
  | cons c cs ih =>
    unfold cutAt at h
    split at h
    · rename_i hpat
      cases h
      obtain ⟨rest, hrest⟩ := isPrefixOf_iff_prefix.1 hpat
      rw [← hrest, nil_append, drop_left]
    · obtain ⟨⟨a', b'⟩, hcut, h⟩ := map_eq_some_iff.1 h
      cases h
      rw [ih hcut]
      rfl

theorem cutAt_cons_of_starts (h : pat <+: c :: u) : cutAt pat (c :: u) = some ([], (c :: u).drop pat.length) :=
  if_pos <| isPrefixOf_iff_prefix.2 h

theorem cutAt_cons_of_not_starts (h : ¬ pat <+: c :: u) :
    cutAt pat (c :: u) = (cutAt pat u).map fun (before, after) => (c :: before, after) :=
  if_neg fun hpat => h <| isPrefixOf_iff_prefix.1 hpat

/-- Behind an occurrence of `pat` the first one is found, with all that follows. -/
theorem cutAt_append_pattern (hpat : pat ≠ []) (u v : List α) :
    ∃ a b, cutAt pat (u ++ pat ++ v) = some (a, b ++ v) := by
  induction u with
  | nil =>
    obtain ⟨c, rest, rfl⟩ := exists_cons_of_ne_nil hpat
    refine ⟨[], [], ?_⟩
    rw [nil_append, cons_append, cutAt_cons_of_starts ⟨v, rfl⟩, ← cons_append, drop_left,
      nil_append]
  | cons c u ih =>
    by_cases hstarts : pat <+: c :: (u ++ pat ++ v)
    · refine ⟨[], (c :: (u ++ pat)).drop pat.length, ?_⟩
      rw [cons_append, cons_append, cutAt_cons_of_starts hstarts, ← cons_append,
        drop_append_of_le_length (by simp; omega)]
    · obtain ⟨a, b, hcut⟩ := ih
      exact ⟨c :: a, b, by rw [cons_append, cons_append, cutAt_cons_of_not_starts hstarts, hcut]; rfl⟩

theorem cutAt_isSome_of_part (hpat : pat ≠ []) (h : (cutAt pat u).isSome) (hpart : u <:+: v) :
    (cutAt pat v).isSome := by
  obtain ⟨⟨a, b⟩, hcut⟩ := isSome_iff_exists.1 h
  obtain ⟨front, back, rfl⟩ := hpart
  obtain ⟨a', b', hfound⟩ := cutAt_append_pattern hpat (front ++ a) (b ++ back)
  rw [cutAt_eq_some hcut]
  simp only [append_assoc] at hfound ⊢
  rw [hfound]
  rfl

/-- The first occurrence stays the first one if the text goes on. -/
theorem cutAt_append (h : cutAt pat u = some (a, b)) (v : List α) : cutAt pat (u ++ v) = some (a, b ++ v) := by
  induction u generalizing a with
  | nil =>
    unfold cutAt at h
    split_ifs at h with hpat
    cases h
    subst hpat
    cases v <;> rfl
  | cons c cs ih =>
    by_cases hstarts : pat <+: c :: cs
    · rw [cutAt_cons_of_starts hstarts] at h
      cases h
      have hlonger : pat <+: c :: (cs ++ v) := hstarts.trans (prefix_append (c :: cs) v)
      rw [cons_append, cutAt_cons_of_starts hlonger, ← cons_append,
        drop_append_of_le_length hstarts.length_le]
    · rw [cutAt_cons_of_not_starts hstarts] at h
      obtain ⟨⟨a', b'⟩, hcut, h⟩ := map_eq_some_iff.1 h
      cases h
      -- The text is long enough already for an occurrence at its start.
      have hlength := congrArg List.length (cutAt_eq_some hcut)
      have hlonger : ¬ pat <+: c :: (cs ++ v) := fun hpat => hstarts (prefix_of_prefix_length_le hpat
        (prefix_append (c :: cs) v) (by simp only [length_append, length_cons] at hlength ⊢; omega))
      rw [cons_append, cutAt_cons_of_not_starts hlonger, ih hcut]
      rfl

/-- No occurrence begins in `u`. -/
theorem cutAt_append_of_head (hpat : pat ≠ []) (h : ∀ c ∈ u, pat.head? ≠ some c) (v : List α) :
    cutAt pat (u ++ v) = (cutAt pat v).map fun (before, after) => (u ++ before, after) := by
  induction u with
  | nil => simp
  | cons c cs ih =>
    have hstarts : ¬ pat <+: c :: (cs ++ v) := by
      rintro ⟨rest, hrest⟩
      obtain ⟨d, pat, rfl⟩ := exists_cons_of_ne_nil hpat
      exact h c mem_cons_self (congrArg some (List.cons.inj hrest).1)
    rw [cons_append, cutAt_cons_of_not_starts hstarts, ih fun d hd => h d (mem_cons_of_mem c hd),
      Option.map_map]
    rfl

/-- No occurrence ends in `v`. -/
theorem cutAt_append_of_last (hpat : pat ≠ []) (h : ∀ c ∈ v, pat.getLast? ≠ some c) (u : List α) :
    cutAt pat (u ++ v) = (cutAt pat u).map fun (before, after) => (before, after ++ v) := by
  cases hcut : cutAt pat u with
  | some found => exact cutAt_append hcut v
  | none =>
    have habsent : ∀ a b, u ≠ a ++ pat ++ b := by
      rintro a b rfl
      obtain ⟨a', b', hfound⟩ := cutAt_append_pattern hpat a b
      rw [hfound] at hcut
      cases hcut
    cases hlonger : cutAt pat (u ++ v) with
    | none => rfl
    | some found =>
      obtain ⟨rest, hrest, hv⟩ | ⟨rest, hu, -⟩ := append_eq_append_iff.1 (cutAt_eq_some hlonger)
      · rcases eq_nil_or_concat rest with rfl | ⟨front, c, rfl⟩
        · exact absurd (by simpa using hrest.symm) (habsent found.1 [])
        · have hlast : pat.getLast? = some c := by
            have := congrArg List.getLast? hrest
            simpa [List.getLast?_append, hpat] using this
          exact absurd hlast (h c (by rw [hv]; simp))
      · exact absurd hu (habsent found.1 rest)

/-- No occurrence contains `x`. -/
theorem cutAt_append_of_not_mem (hpat : pat ≠ []) (hx : x ∉ pat) (u v : List α) :
    cutAt pat (u ++ x :: v) = (cutAt pat u).elim ((cutAt pat v).map fun (before, after) => (u ++ x :: before, after))
      fun (before, after) => some (before, after ++ x :: v) := by
  induction u with
  | nil =>
    have hstarts : ¬ pat <+: x :: v := fun h => hpat (prefix_nil.1 (prefix_of_prefix_append (u := []) hx h))
    rw [nil_append, cutAt_cons_of_not_starts hstarts, cutAt, if_neg hpat]
    rfl
  | cons c u ih =>
    by_cases hstarts : pat <+: c :: u
    · rw [cutAt_append (cutAt_cons_of_starts hstarts), cutAt_cons_of_starts hstarts]
      rfl
    · have hlonger : ¬ pat <+: c :: (u ++ x :: v) := fun h => hstarts (prefix_of_prefix_append hx h)
      rw [cons_append, cutAt_cons_of_not_starts hlonger, cutAt_cons_of_not_starts hstarts, ih]
      cases cutAt pat u with
      | some found => rfl
      | none =>
        rw [Option.map_none, Option.elim_none, Option.elim_none, Option.map_map]
        rfl

end Cut

/-! ## Trimming -/

section Trim

variable (p : α → Bool)

theorem rdropWhile_append_of_all {u v : List α} (h : ∀ c ∈ v, p c) : (u ++ v).rdropWhile p = u.rdropWhile p := by
  rw [List.rdropWhile, reverse_append, dropWhile_append_of_pos fun c hc => h c (mem_reverse.1 hc)]
  rfl

theorem rdropWhile_append_of_not_all {u v : List α} (h : ¬ ∀ c ∈ v, p c) :
    (u ++ v).rdropWhile p = u ++ v.rdropWhile p := by
  have hne : (v.reverse.dropWhile p).isEmpty = false := by
    rw [isEmpty_eq_false_iff]
    exact fun hnil => h fun c hc => dropWhile_eq_nil_iff.1 hnil c (mem_reverse.2 hc)
  rw [List.rdropWhile, reverse_append, dropWhile_append, if_neg (by simp [hne]), reverse_append,
    reverse_reverse]
  rfl

theorem rtakeWhile_append_of_not_all {u v : List α} (h : ¬ ∀ c ∈ v, p c) :
    (u ++ v).rtakeWhile p = v.rtakeWhile p := by
  have hcut : (u ++ v).rdropWhile p ++ (u ++ v).rtakeWhile p = u ++ (v.rdropWhile p ++ v.rtakeWhile p) := by
    rw [rdropWhile_append_rtakeWhile, rdropWhile_append_rtakeWhile]
  rw [rdropWhile_append_of_not_all p h, append_assoc] at hcut
  exact append_cancel_left (append_cancel_left hcut)

end Trim

theorem intercalate_append (sep : List α) {xs ys : List (List α)} (hx : xs ≠ []) (hy : ys ≠ []) :
    sep.intercalate (xs ++ ys) = sep.intercalate xs ++ sep ++ sep.intercalate ys := by
  induction xs with
  | nil => exact absurd rfl hx
  | cons x xs ih =>
    by_cases hxs : xs = []
    · subst hxs
      rw [singleton_append, intercalate_cons_of_ne_nil hy, intercalate_singleton]
    · rw [cons_append, intercalate_cons_of_ne_nil (by simp [hxs]), ih hxs,
        intercalate_cons_of_ne_nil hxs]
      simp only [append_assoc]

/-! ## Word by word -/

section Words

variable (gap : α → Bool) (f : List α → σ → Option (List α × σ))

/-- The scan with enough fuel. -/
def scanFuel : Nat → σ → List α → Option (List α × σ)
  | 0, s, _ => some ([], s)
  | fuel + 1, s, rest =>
    if rest.isEmpty then some ([], s)
    else
      let tail := rest.dropWhile fun c => !gap c
      (f (rest.takeWhile fun c => !gap c) s).bind fun (out, s) =>
        (scanFuel fuel s (tail.dropWhile gap)).map fun (outs, s) => (out ++ tail.takeWhile gap ++ outs, s)

/-- Each word is rewritten by `f`, which hands the state on to the next one. The rest gets shorter with each word. -/
def scan (s : σ) (rest : List α) : Option (List α × σ) := scanFuel gap f rest.length s rest

variable {gap f} {s : σ} {u v w rest : List α}

theorem length_rest_lt (h : rest ≠ []) : ((rest.dropWhile fun c => !gap c).dropWhile gap).length < rest.length := by
  obtain ⟨c, cs, rfl⟩ := exists_cons_of_ne_nil h
  cases hc : gap c with
  | true =>
    rw [dropWhile_cons_of_neg (by simp [hc]), dropWhile_cons_of_pos hc]
    exact Nat.lt_succ_of_le (dropWhile_sublist gap).length_le
  | false =>
    rw [dropWhile_cons_of_pos (by simp [hc])]
    exact Nat.lt_succ_of_le ((dropWhile_sublist gap).trans (dropWhile_sublist _)).length_le

theorem scanFuel_eq {n m : Nat} (hn : rest.length ≤ n) (hm : rest.length ≤ m) :
    scanFuel gap f n s rest = scanFuel gap f m s rest := by
  induction n generalizing m s rest with
  | zero =>
    obtain rfl := length_eq_zero_iff.1 (Nat.le_zero.1 hn)
    cases m <;> rfl
  | succ n ih =>
    cases m with
    | zero =>
      obtain rfl := length_eq_zero_iff.1 (Nat.le_zero.1 hm)
      rfl
    | succ m =>
      by_cases hrest : rest = []
      · subst hrest
        rfl
      · have hlt : ((rest.dropWhile fun c => !gap c).dropWhile gap).length < rest.length := length_rest_lt hrest
        have hsame : ∀ s, scanFuel gap f n s ((rest.dropWhile fun c => !gap c).dropWhile gap) =
            scanFuel gap f m s ((rest.dropWhile fun c => !gap c).dropWhile gap) :=
          fun s => ih (by omega) (by omega)
        simp only [scanFuel, hsame]

theorem scan_nil : scan gap f s [] = some ([], s) := rfl

theorem scan_of_ne_nil (h : rest ≠ []) :
    scan gap f s rest = (f (rest.takeWhile fun c => !gap c) s).bind fun (out, s) =>
      (scan gap f s ((rest.dropWhile fun c => !gap c).dropWhile gap)).map fun (outs, s) =>
        (out ++ (rest.dropWhile fun c => !gap c).takeWhile gap ++ outs, s) := by
  have hlt : ((rest.dropWhile fun c => !gap c).dropWhile gap).length < rest.length := length_rest_lt h
  obtain ⟨c, cs, rfl⟩ := exists_cons_of_ne_nil h
  unfold scan
  rw [length_cons, scanFuel, if_neg (by simp)]
  refine bind_congr fun (out, s) _ => ?_
  dsimp only
  rw [scanFuel_eq (n := cs.length) (Nat.le_of_lt_succ hlt) (Nat.le_refl _)]

/-- A run ends within `u`, or at the start of `v`. -/
theorem span_append {p : α → Bool} (h : (∃ c ∈ u, p c = false) ∨ ∀ c ∈ v.head?, p c = false) :
    (u ++ v).takeWhile p = u.takeWhile p ∧ (u ++ v).dropWhile p = u.dropWhile p ++ v := by
  by_cases hall : ∀ c ∈ u, p c = true
  · have hv : ∀ c ∈ v.head?, p c = false :=
      h.resolve_left fun ⟨c, hc, hfalse⟩ => by rw [hall c hc] at hfalse; cases hfalse
    have hnone : v.takeWhile p = [] ∧ v.dropWhile p = v := by
      cases v with
      | nil => exact ⟨rfl, rfl⟩
      | cons c cs =>
        have hc := hv c rfl
        exact ⟨takeWhile_cons_of_neg (by simp [hc]), dropWhile_cons_of_neg (by simp [hc])⟩
    rw [takeWhile_append_of_pos hall, dropWhile_append_of_pos hall, hnone.1, hnone.2, append_nil,
      takeWhile_eq_self_iff.2 hall, dropWhile_eq_nil_iff.2 hall]
    exact ⟨rfl, rfl⟩
  · have hdrop : (u.dropWhile p).isEmpty = false :=
      isEmpty_eq_false_iff.2 fun hnil => hall (dropWhile_eq_nil_iff.1 hnil)
    have hle : u.takeWhile p <+: u := takeWhile_prefix p
    have htake : ¬ (u.takeWhile p).length = u.length := fun hlength =>
      hall (takeWhile_eq_self_iff.1 (hle.eq_of_length hlength))
    rw [takeWhile_append, if_neg htake, dropWhile_append, if_neg (by simp [hdrop])]
    exact ⟨rfl, rfl⟩

theorem getLast?_of_suffix (h : v <:+ u) (hc : c ∈ v.getLast?) : c ∈ u.getLast? := by
  obtain ⟨front, rfl⟩ := h
  rw [List.getLast?_append, mem_def.1 hc]
  rfl

/-- A word at the start of a text, and the gap behind it. -/
theorem scan_word (hw : w ≠ []) (hword : ∀ c ∈ w, gap c = false) (hv : ∀ c ∈ v.head?, gap c = true) :
    scan gap f s (w ++ v) = (f w s).bind fun (out, s) =>
      (scan gap f s (v.dropWhile gap)).map fun (outs, s) => (out ++ v.takeWhile gap ++ outs, s) := by
  have hpos : ∀ c ∈ w, (!gap c) = true := fun c hc => by rw [hword c hc]; rfl
  obtain ⟨htake, hdrop⟩ := span_append (p := fun c => !gap c) (u := w) (.inr fun c hc => by rw [hv c hc]; rfl)
  rw [scan_of_ne_nil (by simp [hw]), htake, hdrop, takeWhile_eq_self_iff.2 hpos, dropWhile_eq_nil_iff.2 hpos,
    nil_append]

/-- A text is scanned in two parts, the second of which begins with a word. -/
theorem scan_append (hu : ∀ c ∈ u.getLast?, gap c = true) (hv : ∀ c ∈ v.head?, gap c = false) :
    scan gap f s (u ++ v) = (scan gap f s u).bind fun (out, s) =>
      (scan gap f s v).map fun (outs, s) => (out ++ outs, s) := by
  induction hn : u.length using Nat.strong_induction_on generalizing u s with
  | _ n ih =>
    by_cases hnil : u = []
    · subst hnil
      rw [nil_append, scan_nil, bind_some]
      dsimp only
      cases scan gap f s v <;> rfl
    · obtain ⟨last, hlast⟩ := isSome_iff_exists.1 (List.getLast?_isSome.2 hnil)
      have hgap := hu last hlast
      obtain ⟨htake, hdrop⟩ := span_append (p := fun c => !gap c) (u := u) (v := v)
        (.inl ⟨last, mem_of_getLast? hlast, by rw [hgap]; rfl⟩)
      obtain ⟨htake', hdrop'⟩ := span_append (p := gap) (u := u.dropWhile fun c => !gap c) (v := v) (.inr hv)
      have hsuffix : (u.dropWhile fun c => !gap c).dropWhile gap <:+ u :=
        (dropWhile_suffix gap).trans (dropWhile_suffix _)
      rw [scan_of_ne_nil (by simp [hnil]), scan_of_ne_nil hnil, htake, hdrop, htake', hdrop', bind_assoc]
      refine bind_congr fun (out, s) _ => ?_
      dsimp only
      rw [ih _ (hn ▸ length_rest_lt hnil) (fun c hc => hu c (getLast?_of_suffix hsuffix hc)) rfl]
      cases scan gap f s ((u.dropWhile fun c => !gap c).dropWhile gap) with
      | none => rfl
      | some found =>
        simp only [bind_some, map_some]
        cases scan gap f found.2 v with
        | none => rfl
        | some rest => simp

theorem head?_dropWhile {p : α → Bool} (h : c ∈ (u.dropWhile p).head?) : p c = false := by
  have hnot := List.head?_dropWhile_not p u
  rw [mem_def.1 h] at hnot
  exact hnot

/-- `w` is a word of a text, between `u` and `v`. -/
structure IsWord (gap : α → Bool) (u w v : List α) : Prop where
  before : ∀ c ∈ u.getLast?, gap c = true
  nonempty : w ≠ []
  word : ∀ c ∈ w, gap c = false
  after : ∀ c ∈ v.head?, gap c = true

/-- A scan reaches a word with the state that the text before leaves. -/
theorem scan_at (h : IsWord gap u w v) :
    scan gap f s (u ++ (w ++ v)) = (scan gap f s u).bind fun (front, s) => (f w s).bind fun (out, s) =>
      (scan gap f s (v.dropWhile gap)).map fun (outs, s) => (front ++ (out ++ v.takeWhile gap ++ outs), s) := by
  have hhead : ∀ c ∈ (w ++ v).head?, gap c = false := by
    obtain ⟨c, cs, rfl⟩ := List.exists_cons_of_ne_nil h.nonempty
    rintro d ⟨⟩
    exact h.word c List.mem_cons_self
  rw [scan_append h.before hhead]
  refine Option.bind_congr fun (front, s) _ => ?_
  dsimp only
  rw [scan_word h.nonempty h.word h.after, Option.map_bind]
  refine Option.bind_congr fun (out, s) _ => ?_
  simp only [Function.comp_apply, Option.map_map]
  rfl

/-- A word and a gap at the start of a text. -/
theorem scan_word_gap {g : List α} (hne : g ≠ []) (hword : ∀ c ∈ w, gap c = false) (hgap : ∀ c ∈ g, gap c = true)
    (hu : ∀ c ∈ u.head?, gap c = false) : scan gap f s (w ++ (g ++ u)) = (f w s).bind fun (out, s) =>
      (scan gap f s u).map fun (outs, s) => (out ++ g ++ outs, s) := by
  have hpos : ∀ c ∈ w, (!gap c) = true := fun c hc => by rw [hword c hc]; rfl
  have hhead : ∀ c ∈ (g ++ u).head?, (!gap c) = false := by
    obtain ⟨c, cs, rfl⟩ := exists_cons_of_ne_nil hne
    rintro d ⟨⟩
    rw [hgap c mem_cons_self]
    rfl
  obtain ⟨htake, hdrop⟩ := span_append (p := fun c => !gap c) (u := w) (.inr hhead)
  obtain ⟨htake', hdrop'⟩ := span_append (p := gap) (u := g) (.inr hu)
  rw [scan_of_ne_nil (by simp [hne]), htake, hdrop, takeWhile_eq_self_iff.2 hpos, dropWhile_eq_nil_iff.2 hpos,
    nil_append, htake', hdrop', takeWhile_eq_self_iff.2 hgap, dropWhile_eq_nil_iff.2 hgap,
    nil_append]

/-- A scan fails at a word that it reaches. -/
theorem scan_eq_none_iff (hf : ∀ s, f [] s = some ([], s)) :
    scan gap f s rest = none ↔ ∃ u w v s', rest = u ++ (w ++ v) ∧ IsWord gap u w v ∧
      (scan gap f s u).map Prod.snd = some s' ∧ f w s' = none := by
  constructor
  · intro h
    induction hn : rest.length using Nat.strong_induction_on generalizing rest s with
    | _ n ih =>
      have hne : rest ≠ [] := by
        rintro rfl
        cases h
      have hlt : ((rest.dropWhile fun c => !gap c).dropWhile gap).length < rest.length := length_rest_lt hne
      have hsplit : rest = rest.takeWhile (fun c => !gap c) ++ rest.dropWhile fun c => !gap c :=
        takeWhile_append_dropWhile.symm
      have hword : ∀ c ∈ rest.takeWhile fun c => !gap c, gap c = false :=
        fun c hc => by simpa using mem_takeWhile_imp hc
      have hgap : ∀ c ∈ (rest.dropWhile fun c => !gap c).head?, gap c = true :=
        fun c hc => by simpa using head?_dropWhile hc
      rw [scan_of_ne_nil hne] at h
      generalize rest.takeWhile (fun c => !gap c) = w at *
      generalize rest.dropWhile (fun c => !gap c) = t at *
      cases hw : f w s with
      | none =>
        refine ⟨[], w, t, s, hsplit, ⟨nofun, ?_, hword, hgap⟩, rfl, hw⟩
        rintro rfl
        rw [hf] at hw
        cases hw
      | some found =>
        obtain ⟨out, s₁⟩ := found
        rw [hw, bind_some] at h
        obtain ⟨u, w', v, s', hrest, hat, hstate, hnone⟩ := ih _ (hn ▸ hlt) (map_eq_none_iff.1 h) rfl
        have ht : t = t.takeWhile gap ++ (u ++ (w' ++ v)) := by rw [← hrest, takeWhile_append_dropWhile]
        have hg : ∀ c ∈ t.takeWhile gap, gap c = true := fun c hc => mem_takeWhile_imp hc
        have hhead : ∀ c ∈ (u ++ (w' ++ v)).head?, gap c = false := fun c hc => head?_dropWhile (hrest ▸ hc)
        -- Behind the first word there is a gap, as another word follows.
        have hgne : t.takeWhile gap ≠ [] := by
          intro hnil
          rw [hnil, nil_append] at ht
          obtain ⟨c, cs, hcs⟩ := exists_cons_of_ne_nil (show u ++ (w' ++ v) ≠ [] by simp [hat.nonempty])
          have hfalse := hhead c (by rw [hcs]; rfl)
          rw [hgap c (by rw [ht, hcs]; rfl)] at hfalse
          cases hfalse
        generalize t.takeWhile gap = g at *
        subst ht
        refine ⟨w ++ (g ++ u), w', v, s', by simp [hsplit], ⟨fun c hc => ?_, hat.nonempty, hat.word, hat.after⟩, ?_,
          hnone⟩
        · rcases eq_nil_or_concat u with rfl | ⟨front, last, rfl⟩
          · rw [append_nil, List.getLast?_append_of_ne_nil _ hgne] at hc
            exact hg c (mem_of_getLast? hc)
          · refine hat.before c ?_
            rw [← append_assoc, List.getLast?_append_of_ne_nil _ (by simp)] at hc
            exact hc
        · have hu : ∀ c ∈ u.head?, gap c = false := by
            cases u with
            | nil => nofun
            | cons d u => exact hhead
          rw [scan_word_gap hgne hword hg hu, hw, bind_some, ← hstate]
          dsimp only
          cases scan gap f s₁ u <;> rfl
  · rintro ⟨u, w, v, s', rfl, hword, hstate, hnone⟩
    obtain ⟨⟨front, s''⟩, hfront, rfl⟩ := map_eq_some_iff.1 hstate
    rw [scan_at hword, hfront, bind_some]
    dsimp only
    rw [hnone]
    rfl

end Words

end SC
