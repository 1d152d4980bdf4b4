import Mathlib.Data.List.Induction
import SoundCloudBackend.Framework.Run
import SoundCloudBackend.Proof.Playlist.Changes

/-!
# Replaying operations on their own result

After SoundCloud took the candidate of a replay, the operations left pending are
replayed on that candidate. A move or a reorder is put back in place by the second
replay only if no later operation has disturbed it (`Undisturbed`); otherwise this can
push another list or report a new conflict (`replay_disturbed_by_later_add`). Only the
operations that the first replay makes use of count (`effective`).

The second replay goes through lists `M` that differ from the candidate `C` only
in the tracks that the remaining operations move or remove (`Settling`). A moved
track stands in the filtered candidate where its placement says (`sits_of_run`), so
moving it in `M` puts it where it is in `C` (`At.unique`).
-/

namespace SC.Proof.Playlist

open Impl.Playlist
open List Option
open SC.Proof.Playlist.Placement SC.Proof.Playlist.Intent

variable {l l' u v L M C : List TrackId} {x y t : TrackId} {P Q : Placement} {i : Intent} {is : List Intent}
  {stands : TrackId → Prop}
variable {q : TrackId → Bool} {s c : List TrackId} {ops : List PendingOperation}

/-- The later operation leaves alone what the earlier one has put in place: it does not move or remove
a track that the earlier one placed, or one of its anchors, adds no track between them, and does not
bring back a track that the earlier one removed. -/
def Undisturbed (stands : TrackId → Prop) : Intent → Intent → Prop
  | .add _ _, _ => True
  | .remove x, .add y _ => y ≠ x
  | .remove _, _ => True
  | .move x P, .remove y => y ≠ x ∧ y ∉ anchors P
  | .move _ P, .move y _ => y ∉ anchors P
  | .move x P, .add y Q =>
    y ∉ anchors P ∧ x ∉ anchors Q ∧ (∀ t ∈ anchors Q, t ∉ anchors P) ∧
      (P = .boundary (fallbackEnd Q) → ∃ t ∈ anchors Q, stands t)
  | .move x P, .reorder ids => x ∉ ids ∧ ∀ t ∈ anchors P, t ∉ ids
  | .reorder ids, .add y _ | .reorder ids, .remove y | .reorder ids, .move y _ => y ∉ ids
  | .reorder ids, .reorder ids' => ∀ t ∈ ids, t ∉ ids'

/-- The operations that the replay on `l` does not refuse. -/
def accepted : List TrackId → List Intent → List Intent
  | _, [] => []
  | l, i :: is =>
    match applied l i with
    | some l' => i :: accepted l' is
    | none => accepted l is

/-- The operation finds nothing to do on `l`: its track is there already, or it is not there and `later` does not add it. -/
def idle (l : List TrackId) (later : List Intent) : Intent → Bool
  | .add x _ => x ∈ l
  | .remove x => x ∉ l ∧ later.all fun i => match i with
    | .add y _ => y ≠ x
    | _ => true
  | .move _ _ | .reorder _ => false

/-- The operations that have an effect in the replay on `l`: neither refused nor idle. -/
def effective : List TrackId → List Intent → List Intent
  | _, [] => []
  | l, i :: is =>
    match applied l i with
    | some l' => if idle l is i then effective l' is else i :: effective l' is
    | none => effective l is

/-- The track is in the list and no operation removes it. -/
def Standing (l : List TrackId) (is : List Intent) (t : TrackId) : Prop :=
  t ∈ l ∧ .remove t ∉ is

/-! ## A run of operations -/

def ChangesAll : List TrackId → List Intent → List TrackId → Prop
  | l, [], l' => l' = l
  | l, i :: is, l' => ∃ m, Changes l m i ∧ ChangesAll m is l'

theorem changesAll_append {is' : List Intent} :
    ChangesAll l (is ++ is') l' ↔ ∃ m, ChangesAll l is m ∧ ChangesAll m is' l' := by
  induction is generalizing l with
  | nil => simp [ChangesAll]
  | cons i is ih =>
    simp only [cons_append, ChangesAll, ih]
    constructor
    · rintro ⟨m, hm, m', hm', h⟩
      exact ⟨m', ⟨m, hm, hm'⟩, h⟩
    · rintro ⟨m', ⟨m, hm, hm'⟩, h⟩
      exact ⟨m, hm, m', hm', h⟩

theorem changesAll_concat : ChangesAll l (is ++ [i]) l' ↔ ∃ m, ChangesAll l is m ∧ Changes m l' i := by
  simp [changesAll_append, ChangesAll]

theorem ChangesAll.nodup (h : ChangesAll l is l') (hl : l.Nodup) : l'.Nodup := by
  induction is generalizing l with
  | nil =>
    obtain rfl : l' = l := h
    exact hl
  | cons i is ih =>
    obtain ⟨m, hm, hrest⟩ := h
    exact ih hrest (hm.nodup hl)

theorem ChangesAll.filter (h : ChangesAll l is l')
    (hq : ∀ i ∈ is, ∀ t ∈ names i, q t = false) : l'.filter q = l.filter q := by
  induction is generalizing l with
  | nil =>
    obtain rfl : l' = l := h
    rfl
  | cons i is ih =>
    obtain ⟨m, hm, hrest⟩ := h
    rw [ih hrest fun j hj => hq j (mem_cons_of_mem _ hj), hm.filter (hq i mem_cons_self)]

theorem ChangesAll.mem (h : ChangesAll l is l') (hl : l.Nodup) (ht : t ∈ l) (hr : .remove t ∉ is) : t ∈ l' := by
  induction is generalizing l with
  | nil =>
    obtain rfl : l' = l := h
    exact ht
  | cons i is ih =>
    obtain ⟨m, hm, hrest⟩ := h
    rw [mem_cons, not_or] at hr
    exact ih hrest (hm.nodup hl) ((hm.mem_iff hl).2 (.inr ⟨ht, Ne.symm hr.1⟩)) hr.2

theorem ChangesAll.notMem (h : ChangesAll l is l') (hl : l.Nodup) (ht : t ∉ l) (ha : ∀ Q, .add t Q ∉ is) : t ∉ l' := by
  induction is generalizing l with
  | nil =>
    obtain rfl : l' = l := h
    exact ht
  | cons i is ih =>
    obtain ⟨m, hm, hrest⟩ := h
    refine ih hrest (hm.nodup hl) (fun hmem => ?_) fun Q hQ => ha Q (mem_cons_of_mem _ hQ)
    rcases (hm.mem_iff hl).1 hmem with ⟨Q, rfl⟩ | ⟨htl, -⟩
    · exact ha Q mem_cons_self
    · exact ht htl

theorem ChangesAll.notMem_of_removed (h : ChangesAll l is l') (hl : l.Nodup) (hp : is.Pairwise (Undisturbed stands))
    (hr : .remove t ∈ is) : t ∉ l' := by
  induction is generalizing l with
  | nil => cases hr
  | cons i is ih =>
    obtain ⟨m, hm, hrest⟩ := h
    rw [pairwise_cons] at hp
    rcases mem_cons.1 hr with rfl | hr
    · have hout : t ∉ m := fun hmem => by simpa using (hm.mem_iff hl).1 hmem
      exact hrest.notMem (hm.nodup hl) hout fun Q hQ => hp.1 _ hQ rfl
    · exact ih hrest (hm.nodup hl) hp.2 hr

/-! ## Tracks that are put in place later -/

/-- The operation puts the track somewhere else, whatever its place was. -/
def touches (t : TrackId) : Intent → Bool
  | .move x _ | .remove x => x = t
  | .add _ _ | .reorder _ => false

/-- No operation of the list moves or removes the track. -/
def untouched (is : List Intent) (t : TrackId) : Bool :=
  is.all fun i => !touches t i

theorem filter_untouched_nil (l : List TrackId) : l.filter (untouched []) = l :=
  filter_eq_self.2 fun _ _ => rfl

theorem untouched_cons (i : Intent) (is : List Intent) :
    untouched (i :: is) = fun t => !touches t i && untouched is t := rfl

theorem untouched_concat (is : List Intent) (i : Intent) :
    untouched (is ++ [i]) = fun t => untouched is t && !touches t i := by
  funext t
  simp [untouched]

theorem untouched_concat_of (h : ∀ t, touches t i = false) : untouched (is ++ [i]) = untouched is := by
  simp only [untouched_concat, h, Bool.not_false, Bool.and_true]

theorem not_untouched (h : untouched is t = false) : (∃ P, .move t P ∈ is) ∨ .remove t ∈ is := by
  simp only [untouched, List.all_eq_false, Bool.not_eq_true', Bool.not_eq_false] at h
  obtain ⟨i, hi, ht⟩ := h
  cases i with
  | move x P =>
    obtain rfl : x = t := by simpa [touches] using ht
    exact .inl ⟨P, hi⟩
  | remove x =>
    obtain rfl : x = t := by simpa [touches] using ht
    exact .inr hi
  | add x P | reorder ids => simp [touches] at ht

theorem moved_of_mem (h : ChangesAll l is l') (hl : l.Nodup) (hp : is.Pairwise (Undisturbed stands)) (ht : t ∈ l')
    (hu : untouched is t = false) : ∃ P, .move t P ∈ is :=
  (not_untouched hu).resolve_right fun hr => h.notMem_of_removed hl hp hr ht

/-! ## A track that stays in its place -/

def Sits (l : List TrackId) (x : TrackId) (P : Placement) : Prop :=
  ∃ u v, l = u ++ x :: v ∧ At u v P

theorem Sits.filter (h : Sits l x P) (hx : q x) (hq : ∀ t ∈ anchors P, q t) : Sits (l.filter q) x P := by
  obtain ⟨u, v, rfl, hat⟩ := h
  exact ⟨u.filter q, v.filter q, by simp [hx], hat.filter hq⟩

theorem Gap.filter (h : Gap u v Q) (hq : ∀ t ∈ anchors Q, t ∈ u ++ v → q t) :
    Gap (u.filter q) (v.filter q) Q := by
  rcases h with ⟨t, ht, ⟨w, rfl⟩ | ⟨w, rfl⟩⟩ | ⟨hgone, h⟩
  · have := hq t ht (by simp)
    exact .inl ⟨t, ht, .inl ⟨w.filter q, by simp [this]⟩⟩
  · have := hq t ht (by simp)
    exact .inl ⟨t, ht, .inr ⟨w.filter q, by simp [this]⟩⟩
  · refine .inr ⟨fun t ht hmem => hgone t ht ?_, ?_⟩
    · rw [← filter_append] at hmem
      exact mem_of_mem_filter hmem
    · rcases h with ⟨rfl, h⟩ | ⟨rfl, h⟩
      · exact .inl ⟨rfl, h⟩
      · exact .inr ⟨rfl, h⟩

/-- What keeps an addition away from a track `x` placed by `P`: it names neither `x` nor an anchor of
`P`, and if it could fall back to the end where `x` stands, one of its anchors is there. -/
structure Away (l : List TrackId) (x : TrackId) (P : Placement) (y : TrackId) (Q : Placement) : Prop where
  added : y ∉ anchors P
  target : x ∉ anchors Q
  anchors : ∀ t ∈ anchors Q, t ∉ anchors P
  ends : P = .boundary (Placement.fallbackEnd Q) → ∃ t ∈ Placement.anchors Q, t ∈ l

/-- An addition that names neither side of a gap goes there only at an end of the list. -/
theorem Gap.elsewhere (h : Gap u v Q) (hu : ∀ t w, u = w ++ [t] → t ∉ anchors Q)
    (hv : ∀ t w, v = t :: w → t ∉ anchors Q)
    (hfront : u = [] → fallbackEnd Q = .front → ∃ t ∈ anchors Q, t ∈ u ++ v)
    (hback : v = [] → fallbackEnd Q = .back → ∃ t ∈ anchors Q, t ∈ u ++ v) : False := by
  rcases h with ⟨t, ht, ⟨w, hw⟩ | ⟨w, hw⟩⟩ | ⟨hgone, ⟨he, h⟩ | ⟨he, h⟩⟩
  · exact hu t w hw ht
  · exact hv t w hw ht
  · obtain ⟨t, ht, hmem⟩ := hfront he h
    exact hgone t ht hmem
  · obtain ⟨t, ht, hmem⟩ := hback he h
    exact hgone t ht hmem

theorem At.insert_left (hat : At (s ++ c) v P) (hgap : Gap s (c ++ x :: v) Q)
    (haway : Away (s ++ (c ++ x :: v)) x P y Q) : At (s ++ y :: c) v P := by
  cases P with
  | boundary b =>
    cases b with
    | back => exact hat
    | front =>
      obtain ⟨rfl, rfl⟩ := append_eq_nil_iff.1 hat
      refine (hgap.elsewhere (by simp) (fun t w h => ?_) (fun _ h => haway.ends (by rw [h])) (by simp)).elim
      obtain ⟨rfl, -⟩ := List.cons.inj h
      exact haway.target
  | anchored left right =>
    rcases hat with ⟨a, w, rfl, hw⟩ | ⟨hnone, b, w, rfl, rfl⟩
    · rcases eq_nil_or_concat c with rfl | ⟨c, a', rfl⟩
      · rw [append_nil] at hw
        subst hw
        refine (hgap.elsewhere (fun t w' h => ?_) (fun t w' h => ?_) (by simp) (by simp)).elim
        · have ht : t = a := by simpa using (append_inj' h rfl).2.symm
          exact fun hmem => haway.anchors t hmem (by simp [Placement.anchors, ht])
        · obtain ⟨rfl, -⟩ := List.cons.inj h
          exact haway.target
      · rw [concat_eq_append, ← append_assoc] at hw
        obtain ⟨rfl, ha⟩ := append_inj' hw rfl
        obtain rfl : a' = a := by simpa using ha
        exact .inl ⟨a', s ++ y :: c, rfl, by simp⟩
    · refine .inr ⟨fun a ha hmem => ?_, b, w, rfl, rfl⟩
      have hya : a ≠ y := fun h => haway.added (by simp [Placement.anchors, ha, ← h])
      have := hnone a ha
      simp [hya] at hmem this
      tauto

theorem At.insert_right (hat : At u (c ++ s) P) (hgap : Gap (u ++ x :: c) s Q)
    (haway : Away (u ++ x :: c ++ s) x P y Q) : At u (c ++ y :: s) P := by
  have hlast : ∀ t w, u ++ [x] = w ++ [t] → t ∉ Placement.anchors Q := by
    intro t w h
    obtain rfl : t = x := by simpa using (append_inj' h rfl).2.symm
    exact haway.target
  cases P with
  | boundary b =>
    cases b with
    | front => exact hat
    | back =>
      obtain ⟨rfl, rfl⟩ := append_eq_nil_iff.1 hat
      exact (hgap.elsewhere hlast (by simp) (by simp) fun _ h => haway.ends (by rw [h])).elim
  | anchored left right =>
    rcases hat with ⟨a, w, rfl, rfl⟩ | ⟨hnone, b, w, rfl, hw⟩
    · exact .inl ⟨a, w, rfl, rfl⟩
    · have hnone' : ∀ a, left = some a → a ∉ u ++ (c ++ y :: s) := by
        intro a ha hmem
        have hya : a ≠ y := fun h => haway.added (by simp [Placement.anchors, ha, ← h])
        have := hnone a ha
        simp [hya] at hmem this
        tauto
      cases c with
      | nil =>
        rw [nil_append] at hw
        subst hw
        refine (hgap.elsewhere hlast (fun t w' h => ?_) (by simp) (by simp)).elim
        obtain ⟨rfl, -⟩ := List.cons.inj h
        exact fun hmem => haway.anchors b hmem (by simp [Placement.anchors])
      | cons b' c =>
        obtain ⟨rfl, rfl⟩ := List.cons.inj hw
        exact .inr ⟨hnone', b', c ++ y :: s, rfl, rfl⟩

theorem Sits.insert {r : List TrackId} (h : Sits (s ++ r) x P) (hgap : Gap s r Q)
    (haway : Away (s ++ r) x P y Q) : Sits (s ++ y :: r) x P := by
  obtain ⟨u, v, heq, hat⟩ := h
  rcases append_eq_append_iff.1 heq with ⟨c, rfl, rfl⟩ | ⟨c, rfl, hc⟩
  · exact ⟨s ++ y :: c, v, by simp, hat.insert_left hgap haway⟩
  · cases c with
    | nil =>
      rw [append_nil] at hgap haway ⊢
      rw [nil_append] at hc
      subst hc
      exact ⟨u ++ [y], v, by simp, At.insert_left (c := []) (by simpa using hat) hgap haway⟩
    | cons x' c =>
      obtain ⟨rfl, rfl⟩ := List.cons.inj hc
      exact ⟨u, c ++ y :: r, by simp, hat.insert_right hgap haway⟩

theorem Sits.refill {p : TrackId → Bool} {ns : List TrackId} (h : Sits l x P) (hx : p x = false)
    (hp : ∀ t ∈ anchors P, p t = false) (hn : ∀ n ∈ ns, p n) : Sits (refill p l ns) x P := by
  obtain ⟨u, v, rfl, hat⟩ := h
  rw [refill_append, refill_cons_of_neg hx]
  refine ⟨_, _, rfl, ?_⟩
  cases P with
  | boundary b =>
    cases b with
    | front =>
      obtain rfl : u = [] := hat
      rfl
    | back =>
      obtain rfl : v = [] := hat
      rfl
  | anchored left right =>
    rcases hat with ⟨a, w, rfl, rfl⟩ | ⟨hnone, b, w, rfl, rfl⟩
    · have ha : p a = false := hp a (by simp [anchors])
      refine .inl ⟨a, SC.refill p w ns, rfl, ?_⟩
      rw [refill_append, refill_cons_of_neg ha]
      rfl
    · have hb : p b = false := hp b (by simp [anchors])
      have hnames : ∀ a, left = some a → a ∉ ns := by
        intro a ha hmem
        have hpa : p a = false := hp a (by simp [anchors, ha])
        simp [hn a hmem] at hpa
      refine .inr ⟨fun a ha hin => ?_, b, SC.refill p w _, rfl, refill_cons_of_neg hb⟩
      have hout := hnone a ha
      rw [mem_append, not_or] at hout
      rcases mem_append.1 hin with hin | hin
      · exact (mem_refill hin).elim hout.1 (hnames a ha)
      · exact (mem_refill hin).elim hout.2 fun h => hnames a ha (mem_of_mem_drop h)

/-- A moved track that no later operation touches is, among the tracks that no later operation
touches, where the move has put it. -/
theorem sits_of_run (hl : l.Nodup) (hs : Sits l x P) (h : ChangesAll l is C)
    (hp : (Intent.move x P :: is).Pairwise (Undisturbed stands)) (hstands : ∀ t, stands t → Standing l is t)
    (hx : untouched is x) : Sits (C.filter (untouched is)) x P := by
  -- the last operation is taken off: those before it have moved what lies between the track and its anchor
  induction is using List.reverseRecOn generalizing C with
  | nil =>
    obtain rfl : C = l := h
    rwa [filter_untouched_nil]
  | append_singleton is i ih =>
    obtain ⟨m, hm, hi⟩ := changesAll_concat.1 h
    rw [← cons_append, pairwise_append] at hp
    obtain ⟨hpre, -, hlast⟩ := hp
    have hU : Undisturbed stands (.move x P) i := hlast _ mem_cons_self i (by simp)
    have hlater : ∀ j ∈ is, Undisturbed stands j i := fun j hj => hlast j (mem_cons_of_mem _ hj) i (by simp)
    rw [untouched_concat, Bool.and_eq_true] at hx
    have hstands' : ∀ t, stands t → Standing l is t := fun t ht =>
      ⟨(hstands t ht).1, fun hr => (hstands t ht).2 (mem_append_left _ hr)⟩
    have ih := ih hm hpre hstands' hx.1
    have hmnodup := hm.nodup hl
    have hpis := (pairwise_cons.1 hpre).2
    have hpresent : ∀ t ∈ m, untouched is t = false → ∃ P, .move t P ∈ is := fun t =>
      moved_of_mem hm hl hpis
    -- a track moved or removed by the last operation leaves the filtered list
    have hdrop : (∀ t ∈ names i, touches t i) → (∀ t ∈ anchors P, !touches t i) →
        Sits (C.filter (untouched (is ++ [i]))) x P := by
      intro hnames hanchors
      rw [untouched_concat, hi.filter fun t ht => by simp [hnames t ht]]
      have := ih.filter (q := fun t => !touches t i) hx.2 hanchors
      simpa [List.filter_filter, Bool.and_comm] using this
    cases i with
    | remove y =>
      refine hdrop (by simp [names, touches]) fun t ht => ?_
      simpa [touches] using fun hyt : y = t => hU.2 (hyt ▸ ht)
    | move y P' =>
      refine hdrop (by simp [names, touches]) fun t ht => ?_
      simpa [touches] using fun hyt : y = t => hU (hyt ▸ ht)
    | add y Q =>
      rw [untouched_concat_of fun _ => rfl]
      rcases hi with ⟨-, rfl⟩ | ⟨-, s, r, rfl, rfl, hgap⟩
      · exact ih
      · by_cases hy : untouched is y
        · rw [filter_append] at ih
          rw [filter_append, filter_cons_of_pos hy]
          have hkeep : ∀ t ∈ anchors Q, t ∈ s ++ r → untouched is t := by
            intro t ht hmem
            by_contra hfalse
            obtain ⟨P', hP'⟩ := hpresent t hmem (by simpa using hfalse)
            exact (hlater _ hP').2.1 ht
          refine ih.insert (hgap.filter hkeep) ⟨hU.1, hU.2.1, hU.2.2.1, fun hend => ?_⟩
          obtain ⟨t, ht, hst⟩ := hU.2.2.2 hend
          have hmem : t ∈ s ++ r := hm.mem hl (hstands' t hst).1 (hstands' t hst).2
          rw [← filter_append]
          exact ⟨t, ht, mem_filter.2 ⟨hmem, hkeep t ht hmem⟩⟩
        · rw [filter_append] at ih
          rwa [filter_append, filter_cons_of_neg hy]
    | reorder ids =>
      obtain ⟨-, rfl⟩ := hi
      have hkeep : ∀ t ∈ m, t ∈ ids → untouched is t := by
        intro t hmem ht
        by_contra hfalse
        obtain ⟨P', hP'⟩ := hpresent t hmem (by simpa using hfalse)
        exact (hlater _ hP').1 ht
      rw [untouched_concat_of fun _ => rfl, filter_refill_comm (fun t ht hids => hkeep t ht (by simpa using hids)) fun n hn =>
        hkeep n (mem_presentInOrder.1 hn).2 (mem_presentInOrder.1 hn).1]
      refine ih.refill (by simpa using hU.1) (fun t ht => by simpa using hU.2 t ht) fun n hn => ?_
      simpa using (mem_presentInOrder.1 hn).1

/-! ## The second replay -/

theorem Sits.unique (h : Sits l x P) (h' : Sits l' x P) (hl : l.Nodup) (hl' : l'.Nodup)
    (heq : (l.filter fun t => t ≠ x) = l'.filter fun t => t ≠ x) : l = l' := by
  have hrest : ∀ {u v : List TrackId}, (u ++ x :: v).Nodup → ((u ++ x :: v).filter fun t => t ≠ x) = u ++ v := by
    intro u v hnodup
    rw [nodup_middle, nodup_cons] at hnodup
    rw [filter_append, filter_cons_of_neg (by simp), ← filter_append]
    exact filter_eq_self.2 fun t ht => by
      simpa using fun htx : t = x => hnodup.1 (htx ▸ ht)
  obtain ⟨u, v, rfl, hat⟩ := h
  obtain ⟨u', v', rfl, hat'⟩ := h'
  rw [hrest hl, hrest hl'] at heq
  obtain ⟨rfl, rfl⟩ := hat.unique hat' heq (nodup_cons.1 (nodup_middle.1 hl)).2
  rfl

/-- `M` is `C` up to the tracks that the operations `is` still move or remove. -/
structure Settling (is : List Intent) (M C : List TrackId) : Prop where
  nodup : M.Nodup
  agree : M.filter (untouched is) = C.filter (untouched is)
  mem : ∀ t, .remove t ∉ is → (t ∈ M ↔ t ∈ C)

theorem Settling.filter (h : Settling is M C) (hq : ∀ t, q t → untouched is t) : M.filter q = C.filter q := by
  have hsub : ∀ m : List TrackId, m.filter q = (m.filter (untouched is)).filter q := by
    intro m
    rw [List.filter_filter]
    refine filter_congr fun t _ => ?_
    cases hqt : q t with
    | false => rfl
    | true => simp [hq t hqt]
  rw [hsub, h.agree, ← hsub]

theorem touches_names (h : touches t i) : t ∈ names i := by
  cases i with
  | move x P | remove x => simpa [touches, names, eq_comm] using h
  | add x P | reorder ids => simp [touches] at h

theorem untouched_of_unnamed (h : ∀ i ∈ is, t ∉ names i) : untouched is t := by
  simp only [untouched, List.all_eq_true, Bool.not_eq_true']
  intro i hi
  by_contra ht
  exact h i hi (touches_names (by simpa using ht))

theorem applied_add_isSome (l : List TrackId) (x : TrackId) (Q : Placement) : ∃ l', applied l (.add x Q) = some l' := by
  simp only [applied, Intent.apply]
  split <;> rename_i heq
  · exact ⟨_, rfl⟩
  · split at heq
    · cases heq
    split at heq <;> cases heq

theorem placement_congr (hl : l.Nodup) (hl' : l'.Nodup)
    (h : l.filter (· ∈ anchors P) = l'.filter (· ∈ anchors P)) :
    anchorsAreInverted l P = anchorsAreInverted l' P ∧
      ((resolvePlacement l P).isSome ↔ (resolvePlacement l' P).isSome) := by
  have hmem : ∀ t ∈ anchors P, t ∈ l ↔ t ∈ l' := by
    intro t ht
    have hfilter : ∀ m : List TrackId, t ∈ m.filter (· ∈ anchors P) ↔ t ∈ m := fun m => by simp [ht]
    rw [← hfilter l, h, hfilter]
  constructor
  · cases P with
    | boundary b => rfl
    | anchored left right =>
      cases left with
      | none => rfl
      | some a =>
        cases right with
        | none => rfl
        | some b =>
          have hbefore : ∀ m : List TrackId,
              Before (m.filter (· ∈ anchors (.anchored (some a) (some b)))) b a ↔ Before m b a := fun m => by
            simp [before_filter, anchors]
          rw [Bool.eq_iff_iff, anchorsAreInverted_iff hl, anchorsAreInverted_iff hl', ← hbefore l, h, hbefore]
  · rw [resolvePlacement_isSome, resolvePlacement_isSome]
    refine or_congr_right (exists_congr fun t => and_congr_right fun ht => hmem t ht)

theorem anchor_unnamed (h : Undisturbed stands (.move x P) i) (ht : t ∈ anchors P) : t ∉ names i := by
  cases i with
  | add y Q => simpa [names] using fun hty : t = y => h.1 (hty ▸ ht)
  | remove y => simpa [names] using fun hty : t = y => h.2 (hty ▸ ht)
  | move y Q => simpa [names] using fun hty : t = y => h (hty ▸ ht)
  | reorder ids => exact h.2 t ht

theorem settle_move (hl : l.Nodup) (hshape : ShapeValid (.move x P)) (hL : Changes l L (.move x P))
    (hC : ChangesAll L is C) (hp : (Intent.move x P :: is).Pairwise (Undisturbed stands))
    (hstands : ∀ t, stands t → Standing L is t) (h : Settling (.move x P :: is) M C) :
    ∃ M', applied M (.move x P) = some M' ∧ Settling is M' C := by
  have hnodupL := hL.nodup hl
  have hnodupC := hC.nodup hnodupL
  have hlater := (pairwise_cons.1 hp).1
  have hfun : ∀ t, untouched (.move x P :: is) t = (untouched is t && decide (t ≠ x)) := by
    intro t
    simp [untouched_cons, touches, Bool.and_comm, eq_comm]
  -- the anchors stay where they are in both replays
  have hne : ∀ t ∈ anchors P, t ≠ x := fun t ht htx => hshape.2 (htx ▸ ht)
  have hanchor : ∀ t ∈ anchors P, untouched is t := fun t ht =>
    untouched_of_unnamed fun i hi => anchor_unnamed (hlater i hi) ht
  have hanchors : M.filter (· ∈ anchors P) = l.filter (· ∈ anchors P) := by
    rw [h.filter, hC.filter, hL.filter]
    · simpa [names] using hshape.2
    · intro i hi t ht
      simpa using fun hta => anchor_unnamed (hlater i hi) hta ht
    · intro t ht
      rw [decide_eq_true_eq] at ht
      simp [hfun, hanchor t ht, hne t ht]
  obtain ⟨hinv, hres⟩ := placement_congr h.nodup hl hanchors
  have hkept : .remove x ∉ is := fun hr => (hlater _ hr).1 rfl
  obtain ⟨hxl, hinvl, hresl, u, v, huv, rfl, hat⟩ := hL
  have hxM : x ∈ M := (h.mem x (by simpa using hkept)).2 (hC.mem hnodupL (by simp) hkept)
  obtain ⟨M', hM'⟩ := applied_move_isSome hxM hshape.2 (hinv.trans hinvl) (hres.2 hresl) h.nodup
  have hch := hshape.changes h.nodup hM'
  refine ⟨M', hM', hch.nodup h.nodup, ?_, fun t ht => ?_⟩
  · cases hx : untouched is x with
    | false =>
      have hsame : untouched (.move x P :: is) = untouched is := by
        funext t
        rw [hfun]
        by_cases htx : t = x
        · simp [htx, hx]
        · simp [htx]
      rw [hch.filter (by simpa [names] using hx), ← hsame, h.agree]
    | true =>
      have hrest : ∀ m : List TrackId,
          ((m.filter (untouched is)).filter fun t => t ≠ x) = m.filter (untouched (.move x P :: is)) := by
        intro m
        rw [List.filter_filter]
        exact filter_congr fun t _ => by rw [hfun, Bool.and_comm]
      have hsitsC := sits_of_run hnodupL ⟨u, v, rfl, hat⟩ hC hp hstands hx
      have hsitsM : Sits (M'.filter (untouched is)) x P := by
        obtain ⟨-, -, -, u', v', -, rfl, hat'⟩ := hch
        exact Sits.filter ⟨u', v', rfl, hat'⟩ hx hanchor
      refine hsitsM.unique hsitsC ((hch.nodup h.nodup).filter _) (hnodupC.filter _) ?_
      rw [hrest, hrest, ← h.agree]
      refine hch.filter fun t ht => ?_
      obtain rfl : t = x := by simpa [names] using ht
      simp [hfun]
  · rw [← h.mem t (by simpa using ht), hch.mem_iff h.nodup]
    simp

theorem mem_accepted (h : i ∈ accepted l is) : i ∈ is := by
  induction is generalizing l with
  | nil => exact h
  | cons j is ih =>
    rw [accepted] at h
    split at h
    · exact (mem_cons.1 h).elim (fun h => h ▸ mem_cons_self) fun h => mem_cons_of_mem _ (ih h)
    · exact mem_cons_of_mem _ (ih h)

theorem apply_of_refused (hl : l.Nodup) (hi : AnchorsApart i) (h : applied l i = none) :
    ∃ code, i.apply l = (l, .error code) := by
  cases i with
  | add x Q =>
    obtain ⟨l', hl'⟩ := applied_add_isSome l x Q
    cases hl'.symm.trans h
  | remove x =>
    cases hx : positionOf l x <;> simp [applied, Intent.apply, hx] at h
  | move x P =>
    cases hx : positionOf l x with
    | none => exact ⟨moveTargetMissing, by simp only [Intent.apply, hx]⟩
    | some i =>
      cases hinv : anchorsAreInverted l P with
      | true => exact ⟨moveAnchorInverted, by simp only [Intent.apply, hx, hinv, if_true]⟩
      | false =>
        cases hres : resolvePlacement l P with
        | none => exact ⟨moveAnchorMissing, by simp [Intent.apply, hx, hinv, hres]⟩
        | some j =>
          obtain ⟨l', hl'⟩ := applied_move_isSome (positionOf_isSome.1 (by simp [hx])) hi hinv (by simp [hres]) hl
          simp [hl'] at h
  | reorder ids =>
    cases hnamed : presentInOrder l ids with
    | nil =>
      have hids : ids ≠ [] := by
        rintro rfl
        simp [applied_reorder_nil] at h
      exact ⟨reorderTargetsMissing, by simp [Intent.apply, hnamed, hids]⟩
    | cons n named => simp [applied, Intent.apply, hnamed] at h

theorem reduceStep_of_applied {s : ReduceState} (h : applied s.candidate i = some l') :
    ∃ lost, reduceStep s i = ⟨l', s.resolutions ++ [.pending], lost⟩ := by
  simp only [applied] at h
  split at h <;> rename_i heq
  · cases h
    exact ⟨_, by rw [reduceStep, heq]⟩
  · cases h

/-- The operations with a pending resolution, as the next replay reads them. -/
def kept {α : Type} (ops : List α) (rs : List Resolution) : List α :=
  ((ops.zip rs).filter fun p => p.2 = .pending).map Prod.fst

/-- The operations that the loop of `reduce` leaves pending are those that it does not refuse, and they give the
candidate. -/
theorem foldl_reduceStep_kept (s : ReduceState) (hl : s.candidate.Nodup) (hs : ∀ i ∈ is, AnchorsApart i) :
    ∃ rs, (is.foldl reduceStep s).resolutions = s.resolutions ++ rs ∧ kept is rs = accepted s.candidate is ∧
      run applied s.candidate (accepted s.candidate is) = some (is.foldl reduceStep s).candidate := by
  induction is generalizing s with
  | nil => exact ⟨[], by simp [kept, accepted]⟩
  | cons i is ih =>
    have hi := hs i mem_cons_self
    have hrest : ∀ j ∈ is, AnchorsApart j := fun j hj => hs j (mem_cons_of_mem _ hj)
    cases happ : applied s.candidate i with
    | some l' =>
      obtain ⟨lost, hstep⟩ := reduceStep_of_applied happ
      obtain ⟨rs, hres, hkept, hrun⟩ := ih ⟨l', s.resolutions ++ [.pending], lost⟩
        (applied_nodup hl hi happ) hrest
      refine ⟨.pending :: rs, ?_, ?_, ?_⟩
      · rw [foldl_cons, hstep, hres]
        simp
      · simp only [accepted, happ, ← hkept]
        rfl
      · simp only [accepted, foldl_cons, hstep, run_cons, happ, bind_some, hrun]
    | none =>
      obtain ⟨code, hcode⟩ := apply_of_refused hl hi happ
      have hstep : reduceStep s i = ⟨s.candidate, s.resolutions ++ [.conflict code], s.anchorsLost⟩ := by
        rw [reduceStep, hcode]
      obtain ⟨rs, hres, hkept, hrun⟩ := ih ⟨s.candidate, s.resolutions ++ [.conflict code], s.anchorsLost⟩ hl hrest
      refine ⟨.conflict code :: rs, ?_, ?_, ?_⟩
      · rw [foldl_cons, hstep, hres]
        simp
      · simp only [accepted, happ, ← hkept]
        rfl
      · simp only [accepted, foldl_cons, hstep, happ, hrun]

theorem foldl_reduceStep_of_run (s : ReduceState) (h : run applied s.candidate is = some l') :
    ∃ lost, is.foldl reduceStep s = ⟨l', s.resolutions ++ List.replicate is.length .pending, lost⟩ := by
  induction is generalizing s with
  | nil =>
    obtain rfl := some.inj h
    exact ⟨s.anchorsLost, by simp⟩
  | cons i is ih =>
    obtain ⟨m, hm, hrest⟩ := bind_eq_some_iff.1 h
    obtain ⟨lost, hstep⟩ := reduceStep_of_applied hm
    obtain ⟨lost', hfold⟩ := ih ⟨m, s.resolutions ++ [.pending], lost⟩ hrest
    exact ⟨lost', by rw [foldl_cons, hstep, hfold, append_assoc]; rfl⟩

theorem kept_map {α β : Type} (f : α → β) (ops : List α) (rs : List Resolution) :
    (kept ops rs).map f = kept (ops.map f) rs := by
  rw [kept, kept, List.zip_map_left, List.filter_map, List.map_map, List.map_map]
  rfl

/-- The first replay gives the remote list back, or none of the operations that have an effect disturbs what an earlier
one has put in place. -/
def Harmless (remote : List TrackId) (is : List Intent) : Prop :=
  run applied remote (accepted remote is) = some remote ∨
    (effective remote is).Pairwise (Undisturbed (Standing remote (effective remote is)))

end SC.Proof.Playlist
