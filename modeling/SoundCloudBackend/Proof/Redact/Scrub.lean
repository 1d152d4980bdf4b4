import SoundCloudBackend.Proof.Redact.Word

/-!
# What a scrubbed line tells of a URL

A line is the same for every query or userinfo that a URL in it can have exactly if the word of
the URL is (`scrub_hides_iff`): the words before hand on whether it is masked, and the note
` for uri (…)` goes with all that stands in it. `text` panics on the line if it reaches a word with a
character of more than one byte right before the scheme of its first URL (`text_eq_none_iff`).
-/

namespace SC.Proof.Redact.Scrub

open Impl.Redact.Scrub
open List Option Bool

variable {isAlphanumeric : Char → Bool} {hide : Bool} {x y s f g : List Char}
variable {word line path u v : List Char}

/-! ## Where a scan panics -/

/-- A word of which `url_text` cuts a character, if it is not masked. -/
def broken (word : List Char) : Bool := (cutAt colons (core word)).any fun (before, _) => splits before

theorem fieldText_eq_none {wordText : List Char → Bool → Option (List Char × Bool)} {key value : List Char}
    {separator : Char} (h : fieldText isAlphanumeric wordText key separator value = none) :
    wordText value false = none := by
  unfold fieldText at h
  dsimp only at h
  split at h
  · cases h
  split at h
  · split at h <;> cases h
  split_ifs at h
  exact map_eq_none_iff.1 h

theorem broken_of_none {fuel : Nat} (h : wordFuel isAlphanumeric fuel word hide = none) :
    hide = false ∧ broken word = true := by
  induction fuel generalizing word hide with
  | zero => cases h
  | succ fuel ih =>
    have h : coreText isAlphanumeric (wordFuel isAlphanumeric fuel) (core word) hide = none :=
      map_eq_none_iff.1 h
    unfold coreText at h
    split at h
    · cases h
    split at h
    · cases h
    split at h
    · cases h
    rename_i hhide
    refine ⟨not_eq_true _ ▸ hhide, ?_⟩
    split at h
    · rename_i before after hcut
      rw [map_eq_none_iff, urlText_eq] at h
      split_ifs at h with hsplits
      rw [broken, colons, hcut]
      exact hsplits
    · rename_i hcut
      split at h
      · -- The value has no `://` either.
        rename_i separator value hvalue
        obtain ⟨-, hbroken⟩ := ih (fieldText_eq_none h)
        have hpart : core value <:+: core word := (core_part value).trans
          ((suffix_cons separator value).trans (hvalue ▸ dropWhile_suffix _)).isInfix
        have hsome : (cutAt colons (core value)).isSome := by
          cases hcolons : cutAt colons (core value) with
          | none => rw [broken, hcolons] at hbroken; cases hbroken
          | some found => rfl
        have hcore := cutAt_isSome_of_part (by decide) hsome hpart
        rw [colons, hcut] at hcore
        cases hcore
      · cases h

theorem wordText_eq_none_iff : wordText isAlphanumeric word hide = none ↔ hide = false ∧ broken word = true := by
  refine ⟨broken_of_none, ?_⟩
  rintro ⟨rfl, hbroken⟩
  cases hcut : cutAt colons (core word) with
  | none => rw [broken, hcut] at hbroken; cases hbroken
  | some found =>
    have hsplits : splits found.1 = true := by rwa [broken, hcut] at hbroken
    have hne : word ≠ [] := by
      rintro rfl
      cases hcut
    obtain ⟨fuel, hword⟩ := @wordText_eq isAlphanumeric false word hne
    rw [hword, coreText_url hcut, urlText_eq, hsplits]
    rfl

/-- A line on which `text` panics: it reaches a word, not masked, with a character of more than one byte right before
the scheme of its first URL. -/
def Panics (isAlphanumeric : Char → Bool) (line : List Char) : Prop :=
  ∃ u word v, stripUriNote line = u ++ (word ++ v) ∧ IsWord isGap u word v ∧
    (scan isGap (wordText isAlphanumeric) false u).map Prod.snd = some false ∧ broken word = true

theorem text_eq (h : ':' ∈ line) :
    text isAlphanumeric line = (scan isGap (wordText isAlphanumeric) false (stripUriNote line)).map Prod.fst := by
  have hany : (line.any fun c => c ∈ [':', '=', '/', '?', ' ', ',']) = true := any_eq_true.2 ⟨':', h, by decide⟩
  rw [text, hany, Bool.not_true, Bool.and_false, if_neg (by decide)]

theorem text_eq_none_iff (h : ':' ∈ line) : text isAlphanumeric line = none ↔ Panics isAlphanumeric line := by
  rw [text_eq h, map_eq_none_iff, scan_eq_none_iff fun _ => rfl]
  constructor
  · rintro ⟨u, word, v, hide, hline, hword, hstate, hnone⟩
    obtain ⟨rfl, hbroken⟩ := wordText_eq_none_iff.1 hnone
    exact ⟨u, word, v, hline, hword, hstate, hbroken⟩
  · rintro ⟨u, word, v, hline, hword, hstate, hbroken⟩
    exact ⟨u, word, v, false, hline, hword, hstate, wordText_eq_none_iff.2 ⟨rfl, hbroken⟩⟩

/-! ## Lines -/

def inUrl (c : Char) : Bool := !isGap c && !isCloser c

/-- A secret of a URL, with the URL before it and what marks its end: what stands behind the first `?` or `#`, or before
an `@` of the authority. -/
inductive Secret : (url secret mark : List Char) → Prop
  | query {scheme location query : List Char} {c : Char} (hscheme : scheme ≠ []) (hletters : scheme.all Char.isAlphanum)
      (hlocation : location.all fun c => inUrl c && !isMark c) (hmark : isMark c) (hquery : query.all inUrl) :
      Secret (scheme ++ colons ++ (location ++ [c])) query []
  | userinfo {scheme userinfo : List Char} (hscheme : scheme ≠ []) (hletters : scheme.all Char.isAlphanum)
      (huserinfo : userinfo.all fun c => inUrl c && c ∉ ['/', '?', '#']) :
      Secret (scheme ++ colons ++ []) userinfo ['@']

/-- What is left before and behind a URL when the note is stripped; `none` if the URL stands in the note. -/
def around (before after : List Char) : Option (List Char × List Char) :=
  match cutAt uriNote before with
  | some (front, note) => if ')' ∈ note then some (front ++ (note.dropWhile fun c => c ≠ ')').drop 1, after) else none
  | none => some (before, stripUriNote after)

variable {scheme rest front back front' back' : List Char}

theorem cutAt_uriNote (hletters : ∀ c ∈ scheme, c.isAlphanum = true) (hrest : ∀ c ∈ rest, c ≠ ' ') :
    cutAt uriNote (front ++ (scheme ++ ':' :: (rest ++ back))) =
      (cutAt uriNote front).elim ((cutAt uriNote back).map fun (a, b) => (front ++ (scheme ++ ':' :: (rest ++ a)), b))
        fun (a, b) => some (a, b ++ (scheme ++ ':' :: (rest ++ back))) := by
  have hlast : ∀ c ∈ scheme, uriNote.getLast? ≠ some c := by
    rintro c hc heq
    obtain rfl : '(' = c := some.inj heq
    exact absurd (hletters _ hc) (by decide)
  have hhead : ∀ c ∈ rest, uriNote.head? ≠ some c := fun c hc heq => hrest c hc (some.inj heq).symm
  rw [← append_assoc, cutAt_append_of_not_mem (by decide) (by decide), cutAt_append_of_last (by decide) hlast,
    cutAt_append_of_head (by decide) hhead]
  cases cutAt uriNote front with
  | some found => simp
  | none =>
    cases cutAt uriNote back with
    | none => rfl
    | some found => simp

theorem stripUriNote_around (hletters : ∀ c ∈ scheme, c.isAlphanum = true) (hrest : ∀ c ∈ rest, c ≠ ' ')
    (h : around front back = some (front', back')) :
    stripUriNote (front ++ (scheme ++ ':' :: (rest ++ back))) = front' ++ (scheme ++ ':' :: (rest ++ back')) := by
  unfold around at h
  rw [stripUriNote, cutAt_uriNote hletters hrest]
  split at h
  · rename_i a b hcut
    rw [hcut]
    split_ifs at h with hclose
    cases h
    obtain ⟨-, hdrop⟩ := span_append (p := fun c => decide (c ≠ ')')) (u := b)
      (v := scheme ++ ':' :: (rest ++ back)) (.inl ⟨')', hclose, by decide⟩)
    have hne : b.dropWhile (fun c => decide (c ≠ ')')) ≠ [] := fun hnil => by
      have hnot := dropWhile_eq_nil_iff.1 hnil ')' hclose
      revert hnot
      decide
    dsimp only [elim_some]
    rw [hdrop, drop_append_of_le_length (length_pos_iff.2 hne), append_assoc]
  · rename_i hcut
    cases h
    rw [hcut, stripUriNote]
    cases cutAt uriNote back with
    | none => rfl
    | some found => simp

theorem stripUriNote_in_note (h : around front back = none) :
    ∃ kept, ∀ scheme rest : List Char, (∀ c ∈ scheme, c.isAlphanum = true) → (∀ c ∈ rest, c ≠ ' ' ∧ c ≠ ')') →
      stripUriNote (front ++ (scheme ++ ':' :: (rest ++ back))) = kept := by
  unfold around at h
  split at h
  · rename_i a b hcut
    split_ifs at h with hclose
    refine ⟨a ++ (back.dropWhile fun c => c ≠ ')').drop 1, fun scheme rest hletters hrest => ?_⟩
    have hnot : ∀ c ∈ b ++ (scheme ++ ':' :: rest), decide (c ≠ ')') = true := by
      intro c hc
      refine decide_eq_true fun heq => ?_
      subst heq
      simp only [mem_append, mem_cons] at hc
      rcases hc with hc | hc | hc | hc
      · exact hclose hc
      · exact absurd (hletters _ hc) (by decide)
      · exact absurd hc (by decide)
      · exact (hrest _ hc).2 rfl
    rw [stripUriNote, cutAt_uriNote hletters fun c hc => (hrest c hc).1, hcut]
    dsimp only [elim_some]
    rw [show b ++ (scheme ++ ':' :: (rest ++ back)) = b ++ (scheme ++ ':' :: rest) ++ back by simp,
      dropWhile_append_of_pos hnot]
  · cases h

variable {url secret mark a b : List Char}

/-- A URL with a secret after its path, or with credentials before its host. -/
structure Parts (scheme path url secret mark : List Char) : Prop where
  url : url = scheme ++ ':' :: ('/' :: '/' :: path)
  letters : ∀ c ∈ scheme, c.isAlphanum = true
  chars : ∀ c ∈ path ++ (secret ++ mark), inUrl c = true
  last : ∃ m, ('/' :: path).getLast? = some m ∧ isWrapper m = false
  kind : (∃ c ∈ path, isMark c = true) ∨ (∀ c ∈ secret, c ∉ ['/', '?', '#']) ∧ mark = ['@'] ∧ path = []

theorem Secret.parts (h : Secret url secret mark) : ∃ scheme path, Parts scheme path url secret mark := by
  cases h with
  | @query scheme location query c _ hletters hlocation hmark hquery =>
    have hc : c = '?' ∨ c = '#' := by simpa [isMark] using hmark
    rw [List.all_eq_true] at hletters hlocation hquery
    refine ⟨scheme, location ++ [c], by simp [colons], hletters, ?_, ⟨c, ?_, ?_⟩, .inl ⟨c, by simp, hmark⟩⟩
    · intro d hd
      simp only [append_nil, mem_append, mem_singleton] at hd
      rcases hd with (hd | rfl) | hd
      · exact (and_eq_true_iff.1 (hlocation d hd)).1
      · rcases hc with rfl | rfl <;> decide
      · exact hquery d hd
    · rw [← cons_append, List.getLast?_concat]
    · rcases hc with rfl | rfl <;> decide
  | @userinfo scheme userinfo _ hletters huserinfo =>
    rw [List.all_eq_true] at hletters huserinfo
    refine ⟨scheme, [], by simp [colons], hletters, ?_, ⟨'/', rfl, by decide⟩,
      .inr ⟨fun c hc => of_decide_eq_true (and_eq_true_iff.1 (huserinfo c hc)).2, rfl, rfl⟩⟩
    intro d hd
    simp only [nil_append, mem_append, mem_singleton] at hd
    rcases hd with hd | rfl
    · exact (and_eq_true_iff.1 (huserinfo d hd)).1
    · decide

theorem Parts.within (h : Parts scheme path url secret mark) (a b : List Char) :
    ∃ f g, Within (a ++ url) secret (mark ++ b) f g := by
  obtain ⟨m, hlast, hm⟩ := h.last
  have hends : (a ++ url).getLast? = some m := by
    rw [h.url, show a ++ (scheme ++ ':' :: '/' :: '/' :: path) = a ++ scheme ++ [':', '/'] ++ '/' :: path by simp,
      List.getLast?_append_of_ne_nil _ (by simp)]
    exact hlast
  have hcolons : a ++ url = a ++ scheme ++ colons ++ path := by
    rw [h.url]
    simp [colons]
  obtain ⟨f₀, g₀, hcut₀⟩ := @cutAt_append_pattern _ colons _ (by decide) (a ++ scheme) path
  rw [← hcolons] at hcut₀
  have hsplit := cutAt_eq_some hcut₀
  rw [cutAt_colons] at hcut₀
  obtain ⟨⟨f, g⟩, hcut, heq⟩ := map_eq_some_iff.1 hcut₀
  obtain rfl : g = g₀ ++ path := congrArg Prod.snd heq
  refine ⟨f, g₀ ++ path, ⟨m, hends, hm⟩, hcut, fun c hc => ?_, ?_⟩
  · have hin := h.chars c (by simp [hc])
    simp only [inUrl, and_eq_true, not_eq_true'] at hin
    exact hin.2
  · obtain ⟨c, hc, hmark⟩ | ⟨hs, hmark, rfl⟩ := h.kind
    · exact .inl ⟨c, by simp [hc], hmark⟩
    refine .inr ⟨hs, by rw [hmark]; rfl, ?_⟩
    rw [append_nil] at hsplit ⊢
    -- What follows the first `://` ends as the URL does.
    rcases eq_nil_or_concat' g₀ with rfl | ⟨front, c, rfl⟩
    · exact .inl rfl
    · refine .inr ?_
      rw [hsplit, ← append_assoc, List.getLast?_concat] at hends
      rw [List.getLast?_concat, hends]
      exact hlast.symm

/-- What a line needs so that its scrubbed text shows nothing of a secret: the URL stands in a note, or, in the line
without its note, the end of the secret is not stripped from the word, and the word is masked or leads into it. -/
def Covered (isAlphanumeric : Char → Bool) (front url secret mark back : List Char) : Prop :=
  match around front back with
  | none => True
  | some (front, back) =>
    closed secret (mark ++ back.takeWhile fun c => !isGap c) = true ∧
      ((scan isGap (wordText isAlphanumeric) false (front.rdropWhile fun c => !isGap c)).map Prod.snd = some true ∨
        reaches (front.rtakeWhile (fun c => !isGap c) ++ url) = true)

theorem text_at {x y : List Char} (hcolon : ':' ∈ line)
    (hline : stripUriNote line = u ++ (x ++ (s ++ y) ++ v)) (hword : IsWord isGap u (x ++ (s ++ y)) v) :
    text isAlphanumeric line = (scan isGap (wordText isAlphanumeric) false u).bind fun (front, hide) =>
      (wordText isAlphanumeric (x ++ (s ++ y)) hide).bind fun (out, hide) =>
        (scan isGap (wordText isAlphanumeric) hide (v.dropWhile isGap)).map fun (outs, _) =>
          front ++ (out ++ v.takeWhile isGap ++ outs) := by
  rw [text_eq hcolon, hline, scan_at hword, Option.map_bind]
  refine Option.bind_congr fun (front, hide) _ => ?_
  dsimp only [Function.comp_apply]
  rw [Option.map_bind]
  refine Option.bind_congr fun (out, hide) _ => ?_
  dsimp only [Function.comp_apply]
  rw [Option.map_map]
  rfl

/-- A line shows nothing of a secret in one of its words exactly if the word shows nothing, or if `text` panics. -/
theorem text_same_iff {line : List Char → List Char} (h : Within x s y f g) (hcolon : ∀ s, ':' ∈ line s)
    (hline : ∀ s', s' = s ∨ Plain s' →
      stripUriNote (line s') = u ++ (x ++ (s' ++ y) ++ v) ∧ IsWord isGap u (x ++ (s' ++ y)) v) :
    (∀ s', Plain s' → text isAlphanumeric (line s') = text isAlphanumeric (line s)) ↔
      Panics isAlphanumeric (line s) ∨
        closed s y = true ∧
          ((scan isGap (wordText isAlphanumeric) false u).map Prod.snd = some true ∨ reaches x = true) := by
  obtain ⟨m, hlast, hm⟩ := h.ends
  have htext : ∀ s', s' = s ∨ Plain s' → text isAlphanumeric (line s') = _ :=
    fun s' hs' => text_at (hcolon s') (hline s' hs').1 (hline s' hs').2
  rw [← text_eq_none_iff (hcolon s)]
  cases hfront : scan isGap (wordText isAlphanumeric) false u with
  | none =>
    have hnone : ∀ s', s' = s ∨ Plain s' → text isAlphanumeric (line s') = none := fun s' hs' => by
      rw [htext s' hs', hfront]
      rfl
    exact iff_of_true (fun s' hplain => by rw [hnone s' (.inr hplain), hnone s (.inl rfl)]) (.inl (hnone s (.inl rfl)))
  | some found =>
    obtain ⟨front, hide⟩ := found
    have hshown : ∀ s', s' = s ∨ Plain s' → text isAlphanumeric (line s') =
        (wordText isAlphanumeric (x ++ (s' ++ y)) hide).bind fun (out, _) =>
          (scan isGap (wordText isAlphanumeric) false (v.dropWhile isGap)).map fun (outs, _) =>
            front ++ (out ++ v.takeWhile isGap ++ outs) := by
      intro s' hs'
      rw [htext s' hs', hfront, bind_some]
      dsimp only
      rw [wordText_url hlast hm h.cut]
      cases (if hide then some mask else urlText f (g ++ inside s' y)) <;> rfl
    have hpanics : (∀ s', s' = s ∨ Plain s' → text isAlphanumeric (line s') = none) →
        ((∀ s', Plain s' → text isAlphanumeric (line s') = text isAlphanumeric (line s)) ↔
          text isAlphanumeric (line s) = none ∨ closed s y = true ∧
            ((some (front, hide)).map Prod.snd = some true ∨ reaches x = true)) := fun hnone =>
      iff_of_true (fun s' hplain => by rw [hnone s' (.inr hplain), hnone s (.inl rfl)]) (.inl (hnone s (.inl rfl)))
    cases hback : scan isGap (wordText isAlphanumeric) false (v.dropWhile isGap) with
    | none =>
      refine hpanics fun s' hs' => ?_
      rw [hshown s' hs', hback]
      cases wordText isAlphanumeric (x ++ (s' ++ y)) hide <;> rfl
    | some found =>
      by_cases hbad : hide = false ∧ splits f = true
      · refine hpanics fun s' hs' => ?_
        rw [hshown s' hs', wordText_url hlast hm h.cut, hbad.1, if_neg (by decide), urlText_eq, hbad.2]
        rfl
      · have hsplits : hide = false → splits f = false := fun hhide =>
          not_eq_true _ ▸ fun htrue => hbad ⟨hhide, htrue⟩
        have hsome : ∀ s', ∃ out, wordText isAlphanumeric (x ++ (s' ++ y)) hide = some (out, false) := by
          intro s'
          rw [wordText_url hlast hm h.cut]
          cases hide with
          | true => exact ⟨_, rfl⟩
          | false =>
            obtain ⟨out, hout⟩ := urlText_isSome (hsplits rfl) (g ++ inside s' y)
            rw [if_neg (by decide), hout]
            exact ⟨_, rfl⟩
        obtain ⟨out, hout⟩ := hsome s
        have hsame : ∀ s', Plain s' → (text isAlphanumeric (line s') = text isAlphanumeric (line s) ↔
            wordText isAlphanumeric (x ++ (s' ++ y)) hide = wordText isAlphanumeric (x ++ (s ++ y)) hide) := by
          intro s' hplain
          obtain ⟨out', hout'⟩ := hsome s'
          rw [hshown s' (.inr hplain), hshown s (.inl rfl), hback, hout, hout']
          simp
        rw [forall_congr' fun s' => forall_congr' fun hplain => hsame s' hplain, wordText_same_iff h hsplits]
        have hnot : text isAlphanumeric (line s) ≠ none := by
          rw [hshown s (.inl rfl), hback, hout]
          nofun
        simp [hnot]

/-- What may stand where the secret stands, and what does, has no gap and no closing bracket. -/
theorem Parts.gapless (h : Parts scheme path url secret mark) (hs : s = secret ∨ Plain s) :
    ∀ c ∈ path ++ (s ++ mark), isGap c = false ∧ c ≠ ')' := by
  intro c hc
  have hin : inUrl c = true ∨ Plain [c] := by
    rcases hs with rfl | hplain
    · exact .inl (h.chars c hc)
    · simp only [mem_append] at hc
      rcases hc with hc | hc | hc
      · exact .inl (h.chars c (by simp [hc]))
      · exact .inr fun d hd => mem_singleton.1 hd ▸ hplain c hc
      · exact .inl (h.chars c (by simp [hc]))
  rcases hin with hin | hplain
  · simp only [inUrl, and_eq_true, not_eq_true'] at hin
    refine ⟨hin.1, ?_⟩
    rintro rfl
    exact absurd hin.2 (by decide)
  · obtain ⟨hgap, hwrapper, -⟩ := hplain c mem_cons_self
    refine ⟨hgap, ?_⟩
    rintro rfl
    exact absurd hwrapper (by decide)

theorem not_space_of_not_gap {c : Char} (h : isGap c = false) : c ≠ ' ' := by
  rintro rfl
  exact absurd h (by decide)

theorem Parts.isWord (h : Parts scheme path url secret mark) (hs : s = secret ∨ Plain s) (front back : List Char) :
    IsWord isGap (front.rdropWhile fun c => !isGap c)
      (front.rtakeWhile (fun c => !isGap c) ++ url ++ (s ++ (mark ++ back.takeWhile fun c => !isGap c)))
      (back.dropWhile fun c => !isGap c) where
  before c hc := by
    have hne : front.rdropWhile (fun c => !isGap c) ≠ [] := by
      intro hnil
      rw [hnil] at hc
      cases hc
    have hlast := rdropWhile_last_not (fun c => !isGap c) front hne
    rw [List.getLast?_eq_some_getLast hne] at hc
    cases hc
    simpa using hlast
  nonempty := by simp [h.url]
  word c hc := by
    have hurl : ∀ c ∈ url ++ (s ++ mark), isGap c = false := by
      intro c hc
      rw [h.url] at hc
      simp only [append_assoc, cons_append, mem_append, mem_cons] at hc
      rcases hc with hc | rfl | rfl | rfl | hc
      · exact gap_of_alphanum (h.letters c hc)
      · decide
      · decide
      · decide
      · exact (h.gapless hs c (by simpa using hc)).1
    simp only [mem_append] at hc hurl
    rcases hc with (hc | hc) | hc | hc | hc
    · simpa using mem_rtakeWhile_imp hc
    · exact hurl c (.inl hc)
    · exact hurl c (.inr (.inl hc))
    · exact hurl c (.inr (.inr hc))
    · simpa using mem_takeWhile_imp hc
  after c hc := by simpa using head?_dropWhile hc

/-- The scrubbed text of a line is the same for every secret that a URL in it can have, exactly if it is covered, or if
`text` panics on the line. -/
theorem scrub_hides_iff (h : Secret url secret mark) (front back : List Char) :
    (∀ s, Plain s → text isAlphanumeric (front ++ url ++ s ++ mark ++ back) =
        text isAlphanumeric (front ++ url ++ secret ++ mark ++ back)) ↔
      Panics isAlphanumeric (front ++ url ++ secret ++ mark ++ back) ∨
        Covered isAlphanumeric front url secret mark back := by
  obtain ⟨scheme, path, hparts⟩ := h.parts
  have hline : ∀ s, front ++ url ++ s ++ mark ++ back =
      front ++ (scheme ++ ':' :: ('/' :: '/' :: (path ++ (s ++ mark)) ++ back)) := fun s => by simp [hparts.url]
  have hcolon : ∀ s, ':' ∈ front ++ url ++ s ++ mark ++ back := fun s => by simp [hparts.url]
  have hrest : ∀ s, s = secret ∨ Plain s → ∀ c ∈ '/' :: '/' :: (path ++ (s ++ mark)), c ≠ ' ' ∧ c ≠ ')' := by
    intro s hs c hc
    simp only [mem_cons] at hc
    rcases hc with rfl | rfl | hc
    · decide
    · decide
    · obtain ⟨hgap, hclose⟩ := hparts.gapless hs c hc
      exact ⟨not_space_of_not_gap hgap, hclose⟩
  unfold Covered
  cases haround : around front back with
  | none =>
    obtain ⟨kept, hkept⟩ := stripUriNote_in_note haround
    have hsame : ∀ s, s = secret ∨ Plain s → stripUriNote (front ++ url ++ s ++ mark ++ back) = kept := fun s hs => by
      rw [hline]
      exact hkept scheme _ hparts.letters (hrest s hs)
    refine iff_of_true (fun s hplain => ?_) (.inr trivial)
    rw [text_eq (hcolon s), text_eq (hcolon secret), hsame s (.inr hplain), hsame secret (.inl rfl)]
  | some found =>
    obtain ⟨front', back'⟩ := found
    obtain ⟨f, g, hwithin⟩ := hparts.within (front'.rtakeWhile fun c => !isGap c) (back'.takeWhile fun c => !isGap c)
    refine text_same_iff hwithin hcolon fun s hs => ⟨?_, hparts.isWord hs front' back'⟩
    have hfront : front'.rdropWhile (fun c => !isGap c) ++ front'.rtakeWhile (fun c => !isGap c) = front' :=
      rdropWhile_append_rtakeWhile
    have hback : back'.takeWhile (fun c => !isGap c) ++ back'.dropWhile (fun c => !isGap c) = back' :=
      takeWhile_append_dropWhile
    rw [hline, stripUriNote_around hparts.letters (fun c hc => (hrest s hs c hc).1) haround, hparts.url]
    conv_lhs => rw [← hfront, ← hback]
    simp only [append_assoc, cons_append]

theorem scrub_hides_query :
    text Char.isAlphanum ("GET ".toList ++ "https://a/b?".toList ++ "key=y".toList ++ [] ++ " ok".toList) =
      text Char.isAlphanum ("GET ".toList ++ "https://a/b?".toList ++ "key=x".toList ++ [] ++ " ok".toList) := by
  have hsecret : Secret "https://a/b?".toList "key=x".toList [] :=
    @Secret.query "https".toList "a/b".toList "key=x".toList '?' (by decide) (by decide) (by decide) (by decide)
      (by decide)
  have hcovered : Covered Char.isAlphanum "GET ".toList "https://a/b?".toList "key=x".toList [] " ok".toList :=
    ⟨by decide, .inr (by decide)⟩
  exact (scrub_hides_iff hsecret "GET ".toList " ok".toList).2 (.inr hcovered) "key=y".toList (by decide)

/-- Two URLs in a word, with a bracket between them: the query of the second one is copied. -/
theorem second_url_shown : Secret "https://b/?".toList "x".toList [] ∧ Plain "y".toList ∧
      text Char.isAlphanum ("https://a/)".toList ++ "https://b/?".toList ++ "x".toList ++ [] ++ []) =
        some "https://a/)https://b/?x".toList ∧
      text Char.isAlphanum ("https://a/)".toList ++ "https://b/?".toList ++ "y".toList ++ [] ++ []) =
        some "https://a/)https://b/?y".toList :=
  ⟨@Secret.query "https".toList "b/".toList "x".toList '?' (by decide) (by decide) (by decide) (by decide) (by decide),
    by decide, by decide, by decide⟩

end SC.Proof.Redact.Scrub
