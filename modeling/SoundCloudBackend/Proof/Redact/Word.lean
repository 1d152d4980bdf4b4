import SoundCloudBackend.Impl.Redact.Scrub

/-!
# What a word tells of a URL

`url_text` cuts a URL at its first `?` or `#` and drops the userinfo of its authority, but only
for the first `://` of a word: behind a quote or a closing bracket the word is copied
(`urlText_append_of_closer`), and a URL in the path of another one is a path
(`urlText_path`). Before that `word_text` strips wrappers such as `.` and `;` from the end of a
word, also those of a query.
-/

namespace SC.Proof.Redact.Scrub

open Impl.Redact.Scrub
open List

variable {c : Char}

/-! ## URLs -/

theorem gap_of_alphanum (h : c.isAlphanum = true) : isGap c = false := by
  have hn : c.toNat = c.val.toNat := rfl
  have hranges : 'A'.val.toNat = 65 ∧ 'Z'.val.toNat = 90 ∧ 'a'.val.toNat = 97 ∧ 'z'.val.toNat = 122 ∧
      '0'.val.toNat = 48 ∧ '9'.val.toNat = 57 := by decide
  have h : (decide (c.val ≥ 'A'.val ∧ c.val ≤ 'Z'.val) || (decide (c.val ≥ 'a'.val) && decide (c.val ≤ 'z'.val)) ||
      (decide (c.val ≥ '0'.val) && decide (c.val ≤ '9'.val))) = true := h
  simp only [Bool.or_eq_true, Bool.and_eq_true, decide_eq_true_eq, ge_iff_le, UInt32.le_iff_toNat_le] at h
  cases hgap : isGap c with
  | false => rfl
  | true =>
    simp only [isGap, Impl.isWhitespace, Bool.or_eq_true, decide_eq_true_eq] at hgap
    rcases hgap with hgap | rfl
    · omega
    · revert h
      decide

theorem wrapper_of_closer (h : isCloser c = true) : isWrapper c = true := by
  simp only [isCloser, isWrapper, decide_eq_true_eq, mem_cons, not_mem_nil, or_false] at h ⊢
  tauto

/-- Whether `url_text` panics: the character before the scheme has more than one byte. -/
def splits (before : List Char) : Bool := (before.rdropWhile Char.isAlphanum).getLast?.any fun c => c.utf8Size ≠ 1

def isMark (c : Char) : Bool := c = '?' || c = '#'

def located (rest : List Char) : List Char :=
  let location := rest.takeWhile fun c => c ≠ '?' && c ≠ '#'
  ((location.takeWhile fun c => c ≠ '/').rtakeWhile fun c => c ≠ '@') ++ pathText (location.dropWhile fun c => c ≠ '/')

theorem urlText_eq (before after : List Char) : urlText before after = if splits before then none else
      some (before ++ "://".toList ++ located (after.takeWhile fun c => !isCloser c) ++
        after.dropWhile fun c => !isCloser c) := by
  unfold urlText
  dsimp only
  rw [rdropWhile_append_rtakeWhile]
  simp only [located, append_assoc]
  rfl

variable {before g t s : List Char}

theorem urlText_append_of_closer (h : ∃ c ∈ g, isCloser c = true) :
    urlText before (g ++ t) = (urlText before g).map (· ++ t) := by
  obtain ⟨c, hc, hcloser⟩ := h
  obtain ⟨htake, hdrop⟩ := span_append (p := fun c => !isCloser c) (u := g) (v := t)
    (.inl ⟨c, hc, by rw [hcloser]; rfl⟩)
  rw [urlText_eq, urlText_eq, htake, hdrop]
  split
  · rfl
  · rw [Option.map_some, ← append_assoc]

theorem urlText_append_of_mark (hopen : ∀ c ∈ g, isCloser c = false) (h : ∃ c ∈ g, isMark c = true) :
    urlText before (g ++ t) = (urlText before g).map (· ++ t.dropWhile fun c => !isCloser c) := by
  obtain ⟨c, hc, hmark⟩ := h
  have hpos : ∀ c ∈ g, (!isCloser c) = true := fun c hc => by rw [hopen c hc]; rfl
  have hlocated : ∀ t, located (g ++ t) = located g := by
    intro t
    obtain ⟨htake, -⟩ := span_append (p := fun c => decide (c ≠ '?') && decide (c ≠ '#')) (u := g) (v := t)
      (.inl ⟨c, hc, by
        simp only [isMark, Bool.or_eq_true, decide_eq_true_eq] at hmark
        rcases hmark with rfl | rfl <;> decide⟩)
    unfold located
    rw [htake]
  rw [urlText_eq, urlText_eq, takeWhile_append_of_pos hpos, dropWhile_append_of_pos hpos, hlocated,
    takeWhile_eq_self_iff.2 hpos, dropWhile_eq_nil_iff.2 hpos]
  split
  · rfl
  · rw [Option.map_some, append_nil]

theorem urlText_userinfo (h : ∀ c ∈ s, isCloser c = false ∧ c ∉ ['/', '?', '#']) :
    urlText before (s ++ '@' :: t) = urlText before ('@' :: t) := by
  have hopen : ∀ c ∈ s, (!isCloser c) = true := fun c hc => by rw [(h c hc).1]; rfl
  have hmark : ∀ c ∈ s, (decide (c ≠ '?') && decide (c ≠ '#')) = true := fun c hc => by have := (h c hc).2; simp_all
  have hslash : ∀ c ∈ s, decide (c ≠ '/') = true := fun c hc => by have := (h c hc).2; simp_all
  have hlocated : ∀ t, located (s ++ '@' :: t) = located ('@' :: t) := by
    intro t
    unfold located
    rw [takeWhile_append_of_pos hmark, takeWhile_cons_of_pos (by decide)]
    dsimp only
    rw [takeWhile_append_of_pos hslash, dropWhile_append_of_pos hslash,
      takeWhile_cons_of_pos (by decide),
      rtakeWhile_append_of_not_all _ fun hall => absurd (hall '@' mem_cons_self) (by decide)]
  rw [urlText_eq, urlText_eq, takeWhile_append_of_pos hopen, dropWhile_append_of_pos hopen,
    takeWhile_cons_of_pos (by decide), hlocated]

theorem pathText_append (p q : List Char) : pathText (p ++ '/' :: q) = pathText p ++ '/' :: pathText q := by
  unfold pathText
  rw [splitOn_append_cons_self, map_append, intercalate_append]
  · rw [append_assoc]
    rfl
  · exact fun hnil => splitOn_ne_nil '/' p (map_eq_nil_iff.1 hnil)
  · exact fun hnil => splitOn_ne_nil '/' q (map_eq_nil_iff.1 hnil)

theorem secretShaped_userinfo (hc : c ∈ ['a', 'b']) (t : List Char) :
    secretShaped (c :: '@' :: t) = false ∧ shareToken (c :: '@' :: t) = false := by
  have hstart : "eyJ".toList.isPrefixOf (c :: '@' :: t) = false ∧ "s-".toList.isPrefixOf (c :: '@' :: t) = false := by
    simp only [mem_cons, not_mem_nil, or_false] at hc
    rcases hc with rfl | rfl <;> exact ⟨rfl, rfl⟩
  have hplain : (c :: '@' :: t).all (fun c => c.isAlphanum || decide (c = '-')) = false := by
    rw [all_cons, all_cons]
    exact Bool.and_false _
  constructor
  · rw [secretShaped, hstart.1, hplain]
    simp
  · rw [shareToken, hstart.2]
    simp

theorem pathText_segment (hc : c ∈ ['a', 'b']) (h : '/' ∉ t) : pathText (c :: '@' :: t) = c :: '@' :: t := by
  have hseg : '/' ∉ c :: '@' :: t := by
    simp only [mem_cons, not_mem_nil, or_false, not_or] at hc ⊢
    exact ⟨by rcases hc with rfl | rfl <;> decide, by decide, h⟩
  obtain ⟨hshaped, hshare⟩ := secretShaped_userinfo hc t
  rw [pathText, splitOn_eq_singleton hseg, map_singleton, intercalate_singleton, hshaped, hshare]
  rfl

theorem pathText_userinfo (t : List Char) : ∃ rest, ∀ c ∈ ['a', 'b'], pathText (c :: '@' :: t) = c :: rest := by
  have hsplit : t.takeWhile (fun c => c ≠ '/') ++ t.dropWhile (fun c => c ≠ '/') = t := takeWhile_append_dropWhile
  have hfirst : '/' ∉ t.takeWhile fun c => c ≠ '/' := fun hmem => by simpa using mem_takeWhile_imp hmem
  cases hrest : t.dropWhile fun c => decide (c ≠ '/') with
  | nil =>
    rw [hrest, append_nil] at hsplit
    exact ⟨'@' :: t, fun c hc => pathText_segment hc (hsplit ▸ hfirst)⟩
  | cons d rest =>
    have hd : d = '/' := by
      simpa using head?_dropWhile (show d ∈ (t.dropWhile fun c => decide (c ≠ '/')).head? by rw [hrest]; rfl)
    subst hd
    rw [hrest] at hsplit
    refine ⟨'@' :: (t.takeWhile (fun c => c ≠ '/') ++ '/' :: pathText rest), fun c hc => ?_⟩
    have hpath := pathText_append (c :: '@' :: t.takeWhile fun c => c ≠ '/') rest
    rw [pathText_segment hc hfirst, cons_append, cons_append, hsplit] at hpath
    exact hpath

/-- What follows `://` behind a path of a URL is a part of this path, the userinfo too. -/
theorem urlText_path (hopen : ∀ c ∈ g, isCloser c = false ∧ isMark c = false) (t : List Char)
    (hsplits : splits before = false) :
    ∃ x y, ∀ c ∈ ['a', 'b'], urlText before (g ++ '/' :: c :: '@' :: t) = some (x ++ c :: y) := by
  have hpos : ∀ c ∈ g, (!isCloser c) = true := fun c hc => by rw [(hopen c hc).1]; rfl
  have hmark : ∀ c ∈ g, (decide (c ≠ '?') && decide (c ≠ '#')) = true := fun c hc => by
    have := (hopen c hc).2
    simp_all [isMark]
  obtain ⟨rest, hrest⟩ := pathText_userinfo ((t.takeWhile fun c => !isCloser c).takeWhile fun c => c ≠ '?' && c ≠ '#')
  refine ⟨before ++ "://".toList ++ ((g.takeWhile fun c => c ≠ '/').rtakeWhile fun c => c ≠ '@') ++
    pathText (g.dropWhile fun c => c ≠ '/') ++ ['/'], rest ++ t.dropWhile fun c => !isCloser c, fun c hc => ?_⟩
  have hc' : isCloser c = false ∧ (decide (c ≠ '?') && decide (c ≠ '#')) = true := by
    simp only [mem_cons, not_mem_nil, or_false] at hc
    rcases hc with rfl | rfl <;> decide
  obtain ⟨htake, hdrop⟩ := span_append (p := fun c => decide (c ≠ '/')) (u := g)
    (v := '/' :: c :: '@' :: ((t.takeWhile fun c => !isCloser c).takeWhile fun c => c ≠ '?' && c ≠ '#'))
    (.inr (by rintro d ⟨⟩; decide))
  have hmore : ∀ (p : Char → Bool) (t : List Char), p '/' = true → p c = true → p '@' = true →
      ('/' :: c :: '@' :: t).takeWhile p = '/' :: c :: '@' :: t.takeWhile p ∧
        ('/' :: c :: '@' :: t).dropWhile p = t.dropWhile p := by
    intro p t hslash hletter hat
    simp [hslash, hletter, hat]
  obtain ⟨hurl, hsuffix⟩ := hmore (fun c => !isCloser c) t (by decide) (by rw [hc'.1]; rfl) (by decide)
  obtain ⟨hlocation, -⟩ := hmore (fun c => decide (c ≠ '?') && decide (c ≠ '#')) (t.takeWhile fun c => !isCloser c)
    (by decide) hc'.2 (by decide)
  rw [urlText_eq, hsplits, takeWhile_append_of_pos hpos, dropWhile_append_of_pos hpos, hurl, hsuffix, located,
    takeWhile_append_of_pos hmark, hlocation, htake, hdrop, pathText_append, hrest c hc]
  simp

/-! ## Words -/

def colons : List Char := "://".toList

def core (word : List Char) : List Char := (word.dropWhile isWrapper).rdropWhile isWrapper

variable {isAlphanumeric : Char → Bool} {x y : List Char} {m : Char} {hide : Bool}

theorem coreText_url {wordText : List Char → Bool → Option (List Char × Bool)} {core after : List Char}
    (h : cutAt colons core = some (before, after)) : coreText isAlphanumeric wordText core hide =
      if hide then some (mask, false) else (urlText before after).map fun out => (out, false) := by
  have hcolon : ':' ∈ core := by
    rw [cutAt_eq_some h]
    simp [colons]
  have hne : core.isEmpty = false := isEmpty_eq_false_iff.2 (ne_nil_of_mem hcolon)
  have hscheme : core.map Char.toLower ∉ ["bearer".toList, "oauth".toList, "basic".toList] := by
    intro hmem
    have hlower : ':' ∈ core.map Char.toLower := mem_map.2 ⟨':', hcolon, rfl⟩
    simp only [mem_cons, not_mem_nil, or_false] at hmem
    rcases hmem with heq | heq | heq <;> · rw [heq] at hlower; revert hlower; decide
  have hcut : cutAt "://".toList core = some (before, after) := h
  rw [coreText, hne, if_neg (by decide), if_neg hscheme, hcut]

theorem core_part (word : List Char) : core word <:+: word := by
  have hend : core word <+: word.dropWhile isWrapper := rdropWhile_prefix isWrapper _
  exact hend.isInfix.trans (dropWhile_suffix isWrapper).isInfix

theorem wordText_eq {word : List Char} (h : word ≠ []) : ∃ fuel, wordText isAlphanumeric word hide =
      (coreText isAlphanumeric (wordFuel isAlphanumeric fuel) (core word) hide).map fun (out, hide) =>
        (word.takeWhile isWrapper ++ out ++ (word.dropWhile isWrapper).rtakeWhile isWrapper, hide) := by
  obtain ⟨c, rest, rfl⟩ := exists_cons_of_ne_nil h
  exact ⟨rest.length, rfl⟩

/-- What of `s ++ y` at the end of a word belongs to its core. -/
def inside (s y : List Char) : List Char :=
  if y.any fun c => !isWrapper c then s ++ y.rdropWhile isWrapper else s.rdropWhile isWrapper

/-- What of `s ++ y` at the end of a word is stripped from it. -/
def trail (s y : List Char) : List Char :=
  if y.any fun c => !isWrapper c then y.rtakeWhile isWrapper else s.rtakeWhile isWrapper ++ y

theorem inside_append_trail (s y : List Char) : inside s y ++ trail s y = s ++ y := by
  unfold inside trail
  split
  · rw [append_assoc, rdropWhile_append_rtakeWhile]
  · rw [← append_assoc, rdropWhile_append_rtakeWhile]

theorem rdropWhile_inside (hlast : x.getLast? = some m) (hm : isWrapper m = false) :
    (x ++ (s ++ y)).rdropWhile isWrapper = x ++ inside s y := by
  have hx : ¬ ∀ c ∈ x, isWrapper c = true := fun hall => by
    rw [hall m (mem_of_getLast? hlast)] at hm
    cases hm
  have hkept : x.rdropWhile isWrapper = x := by
    refine rdropWhile_eq_self_iff.2 fun hne => ?_
    rw [List.getLast?_eq_some_getLast hne] at hlast
    rw [Option.some.inj hlast, hm]
    decide
  unfold inside
  split
  · rename_i hy
    have hy : ¬ ∀ c ∈ y, isWrapper c = true := by simpa using hy
    rw [← append_assoc, rdropWhile_append_of_not_all _ hy, append_assoc]
  · rename_i hy
    have hy : ∀ c ∈ y, isWrapper c = true := by simpa using hy
    rw [← append_assoc, rdropWhile_append_of_all _ hy]
    by_cases hs : ∀ c ∈ s, isWrapper c = true
    · rw [rdropWhile_append_of_all _ hs, hkept, rdropWhile_eq_nil_iff.2 hs, append_nil]
    · rw [rdropWhile_append_of_not_all _ hs]

theorem core_append (hlast : x.getLast? = some m) (hm : isWrapper m = false) :
    core (x ++ (s ++ y)) = x.dropWhile isWrapper ++ inside s y ∧
      ((x ++ (s ++ y)).dropWhile isWrapper).rtakeWhile isWrapper = trail s y := by
  obtain ⟨-, hdrop⟩ := span_append (p := isWrapper) (u := x) (v := s ++ y)
    (.inl ⟨m, mem_of_getLast? hlast, hm⟩)
  have hne : x.dropWhile isWrapper ≠ [] := fun hnil => by
    rw [dropWhile_eq_nil_iff.1 hnil m (mem_of_getLast? hlast)] at hm
    cases hm
  have hlast' : (x.dropWhile isWrapper).getLast? = some m := by
    obtain ⟨last, hm'⟩ := Option.isSome_iff_exists.1 (List.getLast?_isSome.2 hne)
    rw [hm', ← hlast, Option.mem_def.1 (getLast?_of_suffix (dropWhile_suffix isWrapper) hm')]
  have hcore := rdropWhile_inside (s := s) (y := y) hlast' hm
  refine ⟨by rw [core, hdrop, hcore], ?_⟩
  have hwhole : x.dropWhile isWrapper ++ inside s y ++ (x.dropWhile isWrapper ++ (s ++ y)).rtakeWhile isWrapper =
      x.dropWhile isWrapper ++ inside s y ++ trail s y := by
    rw [← hcore, rdropWhile_append_rtakeWhile, hcore, append_assoc, inside_append_trail]
  rw [hdrop]
  exact append_cancel_left hwhole

theorem wordText_url {f : List Char} (hlast : x.getLast? = some m) (hm : isWrapper m = false)
    (hcut : cutAt colons (x.dropWhile isWrapper) = some (f, g)) : wordText isAlphanumeric (x ++ (s ++ y)) hide =
      (if hide then some mask else urlText f (g ++ inside s y)).map fun out =>
        (x.takeWhile isWrapper ++ out ++ trail s y, false) := by
  obtain ⟨hcore, htrail⟩ := core_append (s := s) (y := y) hlast hm
  obtain ⟨htake, -⟩ := span_append (p := isWrapper) (u := x) (v := s ++ y)
    (.inl ⟨m, mem_of_getLast? hlast, hm⟩)
  have hne : x ++ (s ++ y) ≠ [] := ne_nil_of_mem (mem_append_left _ (mem_of_getLast? hlast))
  obtain ⟨fuel, hword⟩ := @wordText_eq isAlphanumeric hide _ hne
  rw [hword, hcore, htrail, htake, coreText_url (cutAt_append hcut _)]
  cases hide with
  | true => rfl
  | false => cases urlText f (g ++ inside s y) <;> rfl

/-! ## What a word tells of a secret -/

def Plain (s : List Char) : Prop := ∀ c ∈ s, isGap c = false ∧ isWrapper c = false ∧ c ∉ ['/', '?', '#']

instance (s : List Char) : Decidable (Plain s) :=
  List.decidableBAll (fun c => isGap c = false ∧ isWrapper c = false ∧ c ∉ ['/', '?', '#']) s

/-- The start `x` of a word leads into a part that does not stay: from its first `://` on nothing ends the URL, and the
part follows at once or behind a `?` or `#`. -/
def reaches (x : List Char) : Bool :=
  (cutAt colons x).any fun (_, g) => (g.all fun c => !isCloser c) && (g.isEmpty || g.any isMark)

/-- The end of a word is stripped up to `y` or less. -/
def closed (s y : List Char) : Bool := (y.any fun c => !isWrapper c) || s.getLast?.all fun c => !isWrapper c

/-- A secret `s` of a URL in a word, between `x` and `y`; `g` is what follows the first `://` of the word in `x`. -/
structure Within (x s y f g : List Char) : Prop where
  ends : ∃ m, x.getLast? = some m ∧ isWrapper m = false
  cut : cutAt colons (x.dropWhile isWrapper) = some (f, g)
  open_ : ∀ c ∈ s, isCloser c = false
  /-- It is behind a `?` or `#`, or it is the userinfo of a URL. -/
  kind : (∃ c ∈ g, isMark c = true) ∨
    (∀ c ∈ s, c ∉ ['/', '?', '#']) ∧ y.head? = some '@' ∧ (g = [] ∨ g.getLast? = some '/')

variable {f s' : List Char}

theorem Plain.open_ (h : Plain s') : ∀ c ∈ s', isCloser c = false := by
  intro c hc
  cases hcloser : isCloser c with
  | false => rfl
  | true => exact absurd (wrapper_of_closer hcloser) (by rw [(h c hc).2.1]; decide)

theorem Plain.within (hplain : Plain s') (h : Within x s y f g) : Within x s' y f g where
  ends := h.ends
  cut := h.cut
  open_ := hplain.open_
  kind := h.kind.imp_right fun hkind => ⟨fun c hc => (hplain c hc).2.2, hkind.2⟩

theorem Plain.closed (h : Plain s') (y : List Char) : closed s' y = true := by
  unfold Scrub.closed
  cases hlast : s'.getLast? with
  | none => simp
  | some c => simp [(h c (mem_of_getLast? hlast)).2.1]

theorem plain_letter (h : c ∈ ['a', 'b']) : Plain [c] := by
  simp only [mem_cons, not_mem_nil, or_false] at h
  rcases h with rfl | rfl <;> decide

theorem trail_of_closed (h : closed s y = true) : trail s y = trail [] y := by
  unfold closed at h
  unfold trail
  split
  · rfl
  · rename_i hy
    rw [Bool.not_eq_true] at hy
    rw [hy, Bool.false_or] at h
    have hnone : s.rtakeWhile isWrapper = [] := by
      refine rtakeWhile_eq_nil_iff.2 fun hne => ?_
      rw [List.getLast?_eq_some_getLast hne] at h
      simpa using h
    rw [hnone]
    rfl

theorem trail_of_not_closed (h : closed s y = false) : ∃ c rest, trail s y = c :: rest ++ trail [] y := by
  unfold closed at h
  obtain ⟨hy, hs⟩ := Bool.or_eq_false_iff.1 h
  unfold trail
  rw [if_neg (by simp [hy]), if_neg (by simp [hy])]
  have hne : s.rtakeWhile isWrapper ≠ [] := by
    intro hnil
    have hlast := rtakeWhile_eq_nil_iff.1 hnil
    by_cases hempty : s = []
    · subst hempty
      cases hs
    · rw [List.getLast?_eq_some_getLast hempty] at hs
      exact hlast hempty (by simpa using hs)
  obtain ⟨c, rest, hrest⟩ := exists_cons_of_ne_nil hne
  exact ⟨c, rest, by rw [hrest]; rfl⟩

theorem cutAt_colons (x : List Char) :
    cutAt colons x = (cutAt colons (x.dropWhile isWrapper)).map fun (f, g) => (x.takeWhile isWrapper ++ f, g) := by
  have hlead : ∀ c ∈ x.takeWhile isWrapper, colons.head? ≠ some c := by
    rintro c hc ⟨⟩
    exact absurd (mem_takeWhile_imp hc) (by decide)
  have hcut := cutAt_append_of_head (by decide) hlead (x.dropWhile isWrapper)
  rwa [takeWhile_append_dropWhile] at hcut

theorem reaches_eq (h : cutAt colons (x.dropWhile isWrapper) = some (f, g)) :
    reaches x = ((g.all fun c => !isCloser c) && (g.isEmpty || g.any isMark)) := by
  rw [reaches, cutAt_colons, h]
  rfl

theorem dropWhile_inside (h : ∀ c ∈ s, isCloser c = false) :
    (inside s y).dropWhile (fun c => !isCloser c) = (inside [] y).dropWhile fun c => !isCloser c := by
  have hpos : ∀ c ∈ s, (!isCloser c) = true := fun c hc => by rw [h c hc]; rfl
  unfold inside
  split
  · rw [dropWhile_append_of_pos hpos]
    rfl
  · have hend : s.rdropWhile isWrapper <+: s := rdropWhile_prefix isWrapper s
    exact dropWhile_eq_nil_iff.2 fun c hc => hpos c (hend.subset hc)

theorem inside_userinfo (h : y.head? = some '@') : ∃ t, ∀ s, inside s y = s ++ '@' :: t := by
  obtain ⟨rest, rfl⟩ : ∃ rest, y = '@' :: rest := by
    cases y with
    | nil => cases h
    | cons c rest => exact ⟨rest, by cases h; rfl⟩
  have hat : (('@' :: rest).any fun c => !isWrapper c) = true := by
    rw [any_cons]
    exact Bool.true_or _
  refine ⟨inside [] rest, fun s => ?_⟩
  rw [inside, if_pos hat]
  exact congrArg (s ++ ·) (rdropWhile_inside (x := ['@']) (s := []) (y := rest) rfl (by decide))

theorem urlText_inside (h : Within x s y f g) (hreaches : reaches x = true) :
    urlText f (g ++ inside s y) = urlText f (g ++ inside [] y) := by
  rw [reaches_eq h.cut, Bool.and_eq_true, all_eq_true] at hreaches
  have hopen : ∀ c ∈ g, isCloser c = false := fun c hc => by simpa using hreaches.1 c hc
  by_cases hmark : ∃ c ∈ g, isMark c = true
  · rw [urlText_append_of_mark hopen hmark, urlText_append_of_mark hopen hmark, dropWhile_inside h.open_]
  · obtain ⟨hs, hat, -⟩ := h.kind.resolve_left hmark
    have hnil : g = [] := by
      rcases Bool.or_eq_true_iff.1 hreaches.2 with hempty | hany
      · exact isEmpty_iff.1 hempty
      · exact absurd (any_eq_true.1 hany) hmark
    obtain ⟨t, ht⟩ := inside_userinfo hat
    rw [hnil, nil_append, nil_append, ht, ht, urlText_userinfo fun c hc => ⟨h.open_ c hc, hs c hc⟩]
    rfl

theorem urlText_isSome (h : splits f = false) (t : List Char) : ∃ out, urlText f t = some out := by
  rw [urlText_eq, h]
  exact ⟨_, rfl⟩

theorem urlText_shows (h : Within x s y f g) (hreaches : reaches x = false) (hsplits : splits f = false) :
    ∃ u v, ∀ c ∈ ['a', 'b'], ∃ out, urlText f (g ++ inside [c] y) = some out ∧ out ++ trail [c] y = u ++ c :: v := by
  rw [reaches_eq h.cut] at hreaches
  by_cases hcloser : ∃ c ∈ g, isCloser c = true
  · obtain ⟨out, hout⟩ := urlText_isSome hsplits g
    refine ⟨out, y, fun c _ => ⟨out ++ inside [c] y, ?_, ?_⟩⟩
    · rw [urlText_append_of_closer hcloser, hout]
      rfl
    · rw [append_assoc, inside_append_trail]
      rfl
  · have hopen : ∀ c ∈ g, isCloser c = false := fun c hc => by simpa using fun htrue => hcloser ⟨c, hc, htrue⟩
    have hall : (g.all fun c => !isCloser c) = true := all_eq_true.2 fun c hc => by rw [hopen c hc]; rfl
    rw [hall, Bool.true_and, Bool.or_eq_false_iff] at hreaches
    obtain ⟨hne, hmark⟩ := hreaches
    have hmark : ∀ c ∈ g, isMark c = false := by simpa using hmark
    obtain ⟨-, hat, hlast⟩ := h.kind.resolve_left fun ⟨c, hc, htrue⟩ => by rw [hmark c hc] at htrue; cases htrue
    obtain ⟨t, ht⟩ := inside_userinfo hat
    have hlast := hlast.resolve_left (isEmpty_eq_false_iff.1 hne)
    obtain ⟨front, rfl⟩ := List.getLast?_eq_some_iff.1 hlast
    obtain ⟨u, v, huv⟩ := @urlText_path f front (fun c hc => ⟨hopen c (by simp [hc]), hmark c (by simp [hc])⟩) t hsplits
    refine ⟨u, v ++ trail [] y, fun c hc => ⟨u ++ c :: v, ?_, ?_⟩⟩
    · rw [ht, append_assoc]
      exact huv c hc
    · rw [trail_of_closed ((plain_letter hc).closed y), append_assoc, cons_append]

/-- A word that is masked or leads into the secret shows the same for every secret, but for what is stripped. -/
theorem wordText_shown (h : Within x s y f g) (hshown : hide = true ∨ reaches x = true) :
    wordText isAlphanumeric (x ++ (s ++ y)) hide =
      (if hide then some mask else urlText f (g ++ inside [] y)).map fun out =>
        (x.takeWhile isWrapper ++ out ++ trail s y, false) := by
  obtain ⟨m, hlast, hm⟩ := h.ends
  rw [wordText_url hlast hm h.cut]
  cases hide with
  | true => rfl
  | false => rw [urlText_inside h (hshown.resolve_left (by decide))]

/-- A word shows nothing of a secret exactly if no end of it is stripped, and the word is masked or leads into it. -/
theorem wordText_same_iff (h : Within x s y f g) (hsplits : hide = false → splits f = false) :
    (∀ s', Plain s' → wordText isAlphanumeric (x ++ (s' ++ y)) hide = wordText isAlphanumeric (x ++ (s ++ y)) hide) ↔
      closed s y = true ∧ (hide = true ∨ reaches x = true) := by
  constructor
  · intro hsame
    have hshown : hide = true ∨ reaches x = true := by
      cases hhide : hide with
      | true => exact .inl rfl
      | false =>
        subst hhide
        refine .inr (by_contra fun hnot => ?_)
        -- Two secrets are told apart.
        obtain ⟨m, hlast, hm⟩ := h.ends
        obtain ⟨u, v, huv⟩ := urlText_shows h (Bool.not_eq_true _ ▸ hnot) (hsplits rfl)
        obtain ⟨outA, hurlA, houtA⟩ := huv 'a' (by decide)
        obtain ⟨outB, hurlB, houtB⟩ := huv 'b' (by decide)
        have hletters := (hsame ['a'] (plain_letter (by decide))).trans (hsame ['b'] (plain_letter (by decide))).symm
        rw [wordText_url hlast hm h.cut, wordText_url hlast hm h.cut, if_neg (by decide), if_neg (by decide), hurlA,
          hurlB] at hletters
        have htexts := congrArg Prod.fst (Option.some.inj hletters)
        simp only [append_assoc, houtA, houtB, append_cancel_left_eq, List.cons.injEq] at htexts
        exact absurd htexts.1 (by decide)
    refine ⟨?_, hshown⟩
    -- Without the secret nothing of it can be stripped.
    refine by_contra fun hnot => ?_
    obtain ⟨c, rest, htrail⟩ := trail_of_not_closed (Bool.not_eq_true _ ▸ hnot)
    have hempty : Plain [] := by decide
    have hnone := hsame [] hempty
    obtain ⟨out, hout⟩ : ∃ out, (if hide then some mask else urlText f (g ++ inside [] y)) = some out := by
      cases hhide : hide with
      | true => exact ⟨mask, rfl⟩
      | false => exact urlText_isSome (hsplits hhide) _
    rw [wordText_shown (hempty.within h) hshown, wordText_shown h hshown, hout, htrail] at hnone
    have htexts := congrArg (List.length ∘ Prod.fst) (Option.some.inj hnone)
    simp only [Function.comp_apply, length_append, length_cons] at htexts
    omega
  · rintro ⟨hclosed, hshown⟩ s' hplain
    rw [wordText_shown (hplain.within h) hshown, wordText_shown h hshown, trail_of_closed hclosed,
      trail_of_closed (hplain.closed y)]

end SC.Proof.Redact.Scrub
