import SoundCloudBackend.Impl.Replication.LikesTracks

/-!
# A purge loses no newer intent

`Effect` says once what a replicated row does to the row it meets. The
invariant `Inv` then has three parts. Every version on its way is one that the
api wrote, and the api's own row is the newest. Receipts go ahead of their
deletes, so a row that a receipt covers has its delete still on the way. And
core `Follows` the api, unless a delete is on its way to the api or the key is
queued to be sent again.
-/

namespace SC.Proof.Replication.LikesTracks

open Impl.Replication Impl.Replication.LikesTracks
open List Option

variable {p : Int} {o r : Row} {role : Role} {node : Node} {row : Option Row} {w : Write} {i : Intent}
variable {m : FromCore} {rest : List FromCore} {q : List FromApi}

/-! ## Receipts -/

variable {purges : List Int} {v : Int}

theorem purged_iff : purged purges v = true ↔ ∃ p ∈ purges, v ≤ p := by
  unfold purged
  cases h : purges.max? with
  | none =>
    rw [List.max?_eq_none_iff] at h
    simp [h]
  | some pv =>
    obtain ⟨hmem, hle⟩ := List.max?_eq_some_iff.1 h
    simp only [any_some, decide_eq_true_eq]
    constructor
    · intro hv
      exact ⟨pv, hmem, hv⟩
    · rintro ⟨p, hp, hv⟩
      exact hv.trans (hle p hp)

theorem le_greatestPurged : v ≤ greatestPurged purges v := by
  unfold greatestPurged
  cases purges.max? with
  | none => exact le_rfl
  | some pv => exact le_max_left ..

theorem mem_le_greatestPurged (hp : p ∈ purges) : p ≤ greatestPurged purges v := by
  unfold greatestPurged
  cases h : purges.max? with
  | none =>
    rw [List.max?_eq_none_iff] at h
    simp [h] at hp
  | some pv => exact ((List.max?_eq_some_iff.1 h).2 p hp).trans (le_max_right ..)

theorem getD_max?_lt_iff (hv : 0 < v) : purges.max?.getD 0 < v ↔ ∀ p ∈ purges, p < v := by
  cases h : purges.max? with
  | none =>
    rw [List.max?_eq_none_iff] at h
    simp [h, hv]
  | some pv =>
    obtain ⟨hmem, hle⟩ := List.max?_eq_some_iff.1 h
    simp only [getD_some]
    constructor
    · intro hlt p hp
      exact (hle p hp).trans_lt hlt
    · intro hlt
      exact hlt pv hmem

theorem scdPurgeGuard_above {s : Store} (hr : s.row = some o) (hv : 0 < o.wantedV)
    (h : ∀ p ∈ s.purges, p < o.wantedV) : scdPurgeGuard s = { s with resend := true } := by
  simp only [scdPurgeGuard]
  split
  · rename_i hn
    cases hn.symm.trans hr
  · rename_i o' ho'
    obtain rfl := some.inj (hr.symm.trans ho')
    rw [if_pos ((getD_max?_lt_iff hv).2 h)]

theorem scdPurgeGuard_covered {s : Store} (hr : s.row = some o) (hv : 0 < o.wantedV)
    (h : ¬ ∀ p ∈ s.purges, p < o.wantedV) : scdPurgeGuard s = { s with row := none } := by
  simp only [scdPurgeGuard]
  split
  · rename_i hn
    cases hn.symm.trans hr
  · rename_i o' ho'
    obtain rfl := some.inj (hr.symm.trans ho')
    rw [if_neg (mt (getD_max?_lt_iff hv).1 h)]

/-! ## What a replicated row does -/

def stamp (i : Intent) : Int × Bool :=
  (i.wantedV, i.wantedState)

def Written (w : Write) (r : Row) : Prop :=
  w = .inserted r ∨ w = .updated r

/-- What the image `i` of a row does on a node: nothing, because the row is at least as new or a
receipt covers the image; or it writes a row that is the newer of the two. -/
inductive Effect (purges : List Int) (row : Option Row) (i : Intent) : Write → Prop where
  | nothing (h : ∀ o, row = some o → i.wantedV ≤ o.wantedV ∨ ∃ p ∈ purges, i.wantedV ≤ p) :
      Effect purges row i .nothing
  | wrote {w : Write} {r : Row} (hw : Written w r) (hp : ∀ p ∈ purges, p < i.wantedV)
      (hs : stamp r.toIntent = stamp i ∨ ∃ o, row = some o ∧ stamp r.toIntent = stamp o.toIntent)
      (hi : i.wantedV ≤ r.wantedV) (ho : ∀ o, row = some o → o.wantedV ≤ r.wantedV) : Effect purges row i w

theorem zzzSuppress_ne (h : r ≠ o) : zzzSuppress o r = .updated r :=
  if_neg h

theorem mergeRow_ne {new : Row} (h : mergeRow role node o new = some r) : r ≠ o := by
  simp only [mergeRow] at h
  split at h <;> [skip; cases h]
  rename_i hc
  obtain rfl := some.inj h
  rintro heq
  rcases hc with hv | ⟨hf, hc⟩ | ⟨hr, hc⟩
  · have := congrArg (fun x : Row => x.wantedV) heq
    simp only [Int.max_def] at this
    split at this <;> omega
  · have := congrArg (fun x : Row => x.createdAt) heq
    simp only [if_pos hf, Int.min_def] at this
    split at this <;> omega
  · have := congrArg (fun x : Row => x.toResults) heq
    simp only [if_neg hr] at this
    exact hc this

theorem scdMergeInsert_eq (role : Role) (node : Node) (purges : List Int) (row : Option Row) (new : Row) :
    scdMergeInsert role node purges row new = .ok
      (if purged purges new.wantedV then .nothing
      else match row with
        | none => .inserted new
        | some o => (mergeRow role node o new).elim .nothing .updated) := by
  unfold scdMergeInsert
  split
  · rfl
  · cases row with
    | none => rfl
    | some o =>
      cases h : mergeRow role node o new with
      | none => simp [mergeAttempts, h]
      | some r => simp [mergeAttempts, h, zzzSuppress_ne (mergeRow_ne h)]

theorem lt_of_not_purged (h : ¬ purged purges v = true) : ∀ p ∈ purges, p < v := by
  intro p hp
  by_contra hle
  exact h (purged_iff.2 ⟨p, hp, not_lt.1 hle⟩)

theorem effect_insert {new : Row} (h : scdMergeInsert role node purges row new = .ok w) :
    Effect purges row new.toIntent w ∧
      (row = none → (∀ p ∈ purges, p < new.wantedV) → w = .inserted new) := by
  rw [scdMergeInsert_eq] at h
  obtain rfl := Except.ok.inj h
  by_cases hp : purged purges new.wantedV = true
  · rw [if_pos hp]
    obtain ⟨p, hmem, hle⟩ := purged_iff.1 hp
    refine ⟨.nothing fun _ _ => .inr ⟨p, hmem, hle⟩, fun _ hlt => ?_⟩
    exact absurd (hlt p hmem) (not_lt.2 hle)
  · rw [if_neg hp]
    have hlt := lt_of_not_purged hp
    cases row with
    | none => exact ⟨.wrote (.inl rfl) hlt (.inl rfl) le_rfl (by simp), fun _ _ => rfl⟩
    | some o =>
      refine ⟨?_, by simp⟩
      dsimp only
      cases hm : mergeRow role node o new with
      | none =>
        refine .nothing fun o' ho' => .inl ?_
        obtain rfl := some.inj ho'
        by_contra hv
        simp [mergeRow, not_le.1 hv] at hm
      | some r =>
        simp only [mergeRow] at hm
        split at hm <;> [skip; cases hm]
        obtain rfl := some.inj hm
        refine .wrote (.inr rfl) hlt ?_ ?_ ?_
        · by_cases hv : new.wantedV > o.wantedV
          · exact .inl (by simp [stamp, hv, max_eq_right hv.le])
          · exact .inr ⟨o, rfl, by simp [stamp, hv, max_eq_left (not_lt.1 hv)]⟩
        · exact le_max_right ..
        · rintro o' ho'
          obtain rfl := some.inj ho'
          exact le_max_left ..

theorem effect_update {image : Row → Row}
    (hi : ∀ o, (image o).toIntent = i) : Effect purges row i (applyUpdate role purges row image) := by
  cases row with
  | none => exact .nothing (by simp)
  | some o =>
    have hv : (image o).wantedV = i.wantedV := congrArg Intent.wantedV (hi o)
    simp only [applyUpdate, scdMergeUpdate]
    by_cases hp : purged purges (image o).wantedV = true
    · rw [if_pos hp]
      refine .nothing fun _ _ => .inr ?_
      rw [← hv]
      exact purged_iff.1 hp
    · rw [if_neg hp, elim_some]
      have hlt : ∀ p ∈ purges, p < i.wantedV := hv ▸ lt_of_not_purged hp
      by_cases hk : (image o).wantedV < o.wantedV ∨ (role = .core ∧ (image o).wantedV = o.wantedV)
      · -- the stored intent stays
        have hle : i.wantedV ≤ o.wantedV := by omega
        rw [if_pos hk]
        generalize hr : (if role = .core then _ else _ : Row) = r
        have hro : r.toIntent = o.toIntent := by
          rw [← hr]
          split <;> rfl
        have hrv : r.wantedV = o.wantedV := congrArg Intent.wantedV hro
        by_cases hs : r = o
        · simp only [zzzSuppress, if_pos hs]
          exact .nothing fun o' ho' => .inl (by obtain rfl := some.inj ho'; exact hle)
        · rw [zzzSuppress_ne hs]
          refine .wrote (.inr rfl) hlt (.inr ⟨o, rfl, by rw [hro]⟩) (hrv ▸ hle) ?_
          rintro o' ho'
          obtain rfl := some.inj ho'
          exact hrv.ge
      · have hge : o.wantedV ≤ i.wantedV := by omega
        rw [if_neg hk]
        generalize hr : (if role = .core then _ else _ : Row) = r
        have hro : r.toIntent = i := by
          rw [← hr, ← hi o]
          split <;> rfl
        have hrv : r.wantedV = i.wantedV := congrArg Intent.wantedV hro
        by_cases hs : r = o
        · simp only [zzzSuppress, if_pos hs]
          exact .nothing fun o' ho' => .inl (by obtain rfl := some.inj ho'; rw [← hrv, hs])
        · rw [zzzSuppress_ne hs]
          refine .wrote (.inr rfl) hlt (.inl (by rw [hro])) hrv.ge ?_
          rintro o' ho'
          obtain rfl := some.inj ho'
          rw [hrv]
          exact hge

/-! ## Changes on their way -/

def intentOf : FromApi → Intent
  | .insert i => i
  | .update i => i
  | .repair r => r.toIntent

def inserts : FromApi → Bool
  | .insert _ => true
  | .update _ => false
  | .repair _ => true

def imageOf : FromCore → Option Row
  | .insert r => some r
  | .update r => some r
  | .repair r => some r
  | .delete => none
  | .receipt _ => none

def Heralded : List FromCore → Prop
  | [] => True
  | .receipt _ :: rest => .delete ∈ rest ∧ Heralded rest
  | _ :: rest => Heralded rest

theorem Heralded.tail (h : Heralded (m :: rest)) : Heralded rest := by
  cases m with
  | receipt p => exact h.2
  | _ => exact h

theorem Heralded.delete_mem {ms : List FromCore} (h : Heralded ms) (hp : .receipt p ∈ ms) : .delete ∈ ms := by
  induction ms with
  | nil => cases hp
  | cons m rest ih =>
    rcases mem_cons.1 hp with rfl | hp
    · exact mem_cons_of_mem _ h.1
    · exact mem_cons_of_mem _ (ih h.tail hp)

theorem Heralded.append {ms ms' : List FromCore} (h : Heralded ms) (h' : Heralded ms') : Heralded (ms ++ ms') := by
  induction ms with
  | nil => exact h'
  | cons m rest ih =>
    cases m with
    | receipt p => exact ⟨mem_append_left _ h.1, ih h.2⟩
    | _ => exact ih h

theorem imageOf_published (hw : Written w r) : ∃ m, w.published = [m] ∧ imageOf m = some r := by
  rcases hw with rfl | rfl
  · exact ⟨_, rfl, rfl⟩
  · exact ⟨_, rfl, rfl⟩

variable {s s' : State}

theorem applyOnCore_spec {m : FromApi} (h : s.applyOnCore m = .ok s') :
    ∃ w, s' = s.onCore w ∧ Effect s.core.purges s.core.row (intentOf m) w ∧
      (inserts m = true → s.core.row = none → (∀ p ∈ s.core.purges, p < (intentOf m).wantedV) →
        ∃ r, w = .inserted r) := by
  have hins : ∀ {i : Intent}, s.onCore <$> scdMergeInsert .core .core s.core.purges s.core.row (Row.ofIntent i) =
      .ok s' → ∃ w, s' = s.onCore w ∧ Effect s.core.purges s.core.row i w ∧
        (s.core.row = none → (∀ p ∈ s.core.purges, p < i.wantedV) → ∃ r, w = .inserted r) := by
    intro i h
    cases hw : scdMergeInsert .core .core s.core.purges s.core.row (Row.ofIntent i) with
    | error e =>
      rw [hw] at h
      cases h
    | ok w =>
      rw [hw] at h
      obtain ⟨he, hn⟩ := effect_insert hw
      exact ⟨w, (Except.ok.inj h).symm, he, fun hr hp => ⟨_, hn hr hp⟩⟩
  cases m with
  | insert i =>
    obtain ⟨w, hs, he, hn⟩ := hins h
    exact ⟨w, hs, he, fun _ => hn⟩
  | update i => exact ⟨_, (Except.ok.inj h).symm, effect_update fun _ => rfl, by simp [inserts]⟩
  | repair r =>
    obtain ⟨w, hs, he, hn⟩ := hins h
    exact ⟨w, hs, he, fun _ => hn⟩

theorem applyOnApi_image (hm : imageOf m = some r) (h : s.applyOnApi node m = .ok s') :
    ∃ w, s' = s.onApi w ∧ Effect s.api.purges s.api.row r.toIntent w := by
  have hins : ∀ {r : Row}, s.onApi <$> scdMergeInsert .api node s.api.purges s.api.row r = .ok s' →
      ∃ w, s' = s.onApi w ∧ Effect s.api.purges s.api.row r.toIntent w := by
    intro r h
    cases hw : scdMergeInsert .api node s.api.purges s.api.row r with
    | error e =>
      rw [hw] at h
      cases h
    | ok w =>
      rw [hw] at h
      exact ⟨w, (Except.ok.inj h).symm, (effect_insert hw).1⟩
  cases m with
  | insert r' =>
    obtain rfl := some.inj hm
    exact hins h
  | update r' =>
    obtain rfl := some.inj hm
    exact ⟨_, (Except.ok.inj h).symm, effect_update fun _ => rfl⟩
  | repair r' =>
    obtain rfl := some.inj hm
    exact hins h
  | delete | receipt p => cases hm

/-! ## The invariant -/

def Known (s : State) (i : Intent) : Prop :=
  ∃ j ∈ s.written, stamp j = stamp i

/-- Core has a row, or gets one that no receipt covers, and it has or gets the version `v`. -/
structure Follows (s : State) (v : Int) : Prop where
  row : s.core.row ≠ none ∨ ∃ m ∈ s.toCore, inserts m = true ∧ ∀ p ∈ s.core.purges, p < (intentOf m).wantedV
  version : (∃ c, s.core.row = some c ∧ c.wantedV = v) ∨ ∃ m ∈ s.toCore, (intentOf m).wantedV = v

/-- Both nodes and all messages hold written intents only, and the API holds the newest one. -/
structure Inv (s : State) : Prop where
  positive : ∀ i ∈ s.written, 0 < i.wantedV
  functional : ∀ i ∈ s.written, ∀ j ∈ s.written, i.wantedV = j.wantedV → i.wantedState = j.wantedState
  apiKnown : ∀ r, s.api.row = some r → Known s r.toIntent
  newest : ∀ r, s.api.row = some r → ∀ i ∈ s.written, i.wantedV ≤ r.wantedV
  gone : s.api.row = none → ∀ i ∈ s.written, ∃ p ∈ s.api.purges, i.wantedV ≤ p
  coreKnown : ∀ r, s.core.row = some r → Known s r.toIntent
  toCoreKnown : ∀ m ∈ s.toCore, Known s (intentOf m)
  toApiKnown : ∀ m ∈ s.toApi, ∀ r, imageOf m = some r → Known s r.toIntent
  receipts : ∀ p, p ∈ s.core.purges ↔ p ∈ s.api.purges ∨ .receipt p ∈ s.toApi
  receiptKnown : ∀ p ∈ s.core.purges, ∃ i ∈ s.written, i.wantedV = p
  above : ∀ r, s.core.row = some r → ∀ p ∈ s.core.purges, p < r.wantedV
  ordered : s.toCore.Pairwise fun m m' => (intentOf m).wantedV ≤ (intentOf m').wantedV
  heralded : Heralded s.toApi
  dying : ∀ r, s.api.row = some r → ∀ p ∈ s.api.purges, r.wantedV ≤ p → .delete ∈ s.toApi
  follows : ∀ r, s.api.row = some r → .delete ∈ s.toApi ∨ s.api.resend = true ∨ Follows s r.wantedV

theorem Known.version (h : Known s i) : ∃ j ∈ s.written, j.wantedV = i.wantedV := by
  obtain ⟨j, hj, he⟩ := h
  exact ⟨j, hj, congrArg Prod.fst he⟩

theorem known_mono {n : Intent} {api : Store} {toCore : List FromApi} (h : Known s i) :
    Known { s with api := api, toCore := toCore, written := n :: s.written } i := by
  obtain ⟨j, hj, he⟩ := h
  exact ⟨j, mem_cons_of_mem _ hj, he⟩

theorem inv_start : Inv State.start where
  positive := by simp [State.start]
  functional := by simp [State.start]
  apiKnown := by simp [State.start, Store.empty]
  newest := by simp [State.start, Store.empty]
  gone := by simp [State.start]
  coreKnown := by simp [State.start, Store.empty]
  toCoreKnown := by simp [State.start]
  toApiKnown := by simp [State.start]
  receipts := by simp [State.start, Store.empty]
  receiptKnown := by simp [State.start, Store.empty]
  above := by simp [State.start, Store.empty]
  ordered := .nil
  heralded := trivial
  dying := by simp [State.start, Store.empty]
  follows := by simp [State.start, Store.empty]

namespace Inv

theorem purges_of_no_delete (h : Inv s) (hd : .delete ∉ s.toApi) (hp : p ∈ s.core.purges) : p ∈ s.api.purges := by
  rcases (h.receipts p).1 hp with hp | hp
  · exact hp
  · exact absurd (h.heralded.delete_mem hp) hd

theorem lt_of_no_delete (h : Inv s) (hd : .delete ∉ s.toApi) (hr : s.api.row = some r) :
    ∀ p ∈ s.core.purges, p < r.wantedV := by
  intro p hp
  by_contra hle
  exact hd (h.dying r hr p (h.purges_of_no_delete hd hp) (not_lt.1 hle))

theorem write (h : Inv s) {n : Row} {m : FromApi} (hm : intentOf m = n.toIntent)
    (hins : s.api.row = none → inserts m = true) (hpos : 0 < n.wantedV)
    (hnew : ∀ j ∈ s.written, j.wantedV < n.wantedV) (hp : ∀ p ∈ s.api.purges, p < n.wantedV) :
    Inv { s with api := { s.api with row := some n }, toCore := s.toCore ++ [m], written := n.toIntent :: s.written } where
  positive := by
    rintro i (_ | ⟨_, hi⟩)
    · exact hpos
    · exact h.positive i hi
  functional := by
    rintro i (_ | ⟨_, hi⟩) j (_ | ⟨_, hj⟩) he
    · rfl
    · exact absurd he (hnew j hj).ne'
    · exact absurd he (hnew i hi).ne
    · exact h.functional i hi j hj he
  apiKnown := by
    rintro r ⟨⟩
    exact ⟨_, mem_cons_self .., rfl⟩
  newest := by
    rintro r ⟨⟩ i (_ | ⟨_, hi⟩)
    · exact le_rfl
    · exact (hnew i hi).le
  gone := nofun
  coreKnown r hr := known_mono (h.coreKnown r hr)
  toCoreKnown := by
    intro m' hm'
    rcases mem_append.1 hm' with hm' | hm'
    · exact known_mono (h.toCoreKnown m' hm')
    · obtain rfl := mem_singleton.1 hm'
      exact ⟨_, mem_cons_self .., by rw [hm]⟩
  toApiKnown m' hm' r hr := known_mono (h.toApiKnown m' hm' r hr)
  receipts := h.receipts
  receiptKnown p hp := by
    obtain ⟨i, hi, he⟩ := h.receiptKnown p hp
    exact ⟨i, mem_cons_of_mem _ hi, he⟩
  above := h.above
  ordered := by
    refine pairwise_append.2 ⟨h.ordered, pairwise_singleton .., ?_⟩
    intro m₁ h₁ m₂ h₂
    obtain rfl := mem_singleton.1 h₂
    obtain ⟨j, hj, he⟩ := (h.toCoreKnown m₁ h₁).version
    rw [hm, ← he]
    exact (hnew j hj).le
  heralded := h.heralded
  dying := by
    rintro r ⟨⟩ p hmem hle
    exact absurd (hp p hmem) (not_lt.2 hle)
  follows := by
    rintro r ⟨⟩
    have hlast : ∃ m' ∈ s.toCore ++ [m], (intentOf m').wantedV = n.wantedV :=
      ⟨m, mem_append_right _ (mem_singleton_self m), by rw [hm]⟩
    by_cases hd : .delete ∈ s.toApi
    · exact .inl hd
    cases hr : s.api.row with
    | none =>
      refine .inr (.inr ⟨.inr ⟨m, mem_append_right _ (mem_singleton_self m), hins hr, ?_⟩, .inr hlast⟩)
      intro p hmem
      rw [hm]
      exact hp p (h.purges_of_no_delete hd hmem)
    | some o =>
      rcases h.follows o hr with hd' | hres | hf
      · exact absurd hd' hd
      · exact .inr (.inl hres)
      · refine .inr (.inr ⟨hf.row.imp_right ?_, .inr hlast⟩)
        rintro ⟨m', hm', hi⟩
        exact ⟨m', mem_append_left _ hm', hi⟩

theorem popped (h : Inv s) (hq : q.Sublist s.toCore)
    (hf : ∀ a, s.api.row = some a → Follows s a.wantedV → Follows { s with toCore := q } a.wantedV) :
    Inv { s with toCore := q } :=
  { h with
    coreKnown := h.coreKnown
    toCoreKnown := fun m hm => h.toCoreKnown m (hq.subset hm)
    ordered := h.ordered.sublist hq
    follows := fun a ha => (h.follows a ha).imp_right (Or.imp_right (hf a ha)) }

theorem coreWrote (h : Inv s) (hq : q.Sublist s.toCore) {echo : FromCore}
    (he : imageOf echo = some r) (hk : Known s r.toIntent) (ha : ∀ p ∈ s.core.purges, p < r.wantedV)
    (hf : ∀ a, s.api.row = some a → Follows s a.wantedV →
      r.wantedV = a.wantedV ∨ ∃ m ∈ q, (intentOf m).wantedV = a.wantedV) :
    Inv { s with core := { s.core with row := some r }, toCore := q, toApi := s.toApi ++ [echo] } where
  positive := h.positive
  functional := h.functional
  apiKnown := h.apiKnown
  newest := h.newest
  gone := h.gone
  coreKnown := by
    rintro r' ⟨⟩
    exact hk
  toCoreKnown m hm := h.toCoreKnown m (hq.subset hm)
  toApiKnown := by
    intro m hm r' hr'
    rcases mem_append.1 hm with hm | hm
    · exact h.toApiKnown m hm r' hr'
    · obtain rfl := mem_singleton.1 hm
      obtain rfl := some.inj (he.symm.trans hr')
      exact hk
  receipts p := by
    rw [h.receipts p, mem_append, mem_singleton]
    have hne : .receipt p ≠ echo := by
      rintro rfl
      cases he
    simp [hne]
  receiptKnown := h.receiptKnown
  above := by
    rintro r' ⟨⟩
    exact ha
  ordered := h.ordered.sublist hq
  heralded := h.heralded.append (by cases echo <;> trivial)
  dying r' hr' p hp hle := mem_append_left _ (h.dying r' hr' p hp hle)
  follows r' hr' := by
    rcases h.follows r' hr' with hd | hres | hfol
    · exact .inl (mem_append_left _ hd)
    · exact .inr (.inl hres)
    · refine .inr (.inr ⟨.inl (by simp), ?_⟩)
      exact (hf r' hr' hfol).imp_left fun hv => ⟨r, rfl, hv⟩

theorem purged (h : Inv s) (ho : s.core.row = some o) : Inv { s with
      core := { s.core with row := none, purges := o.wantedV :: s.core.purges }
      toApi := s.toApi ++ [.receipt o.wantedV, .delete] } where
  positive := h.positive
  functional := h.functional
  apiKnown := h.apiKnown
  newest := h.newest
  gone := h.gone
  coreKnown := nofun
  toCoreKnown := h.toCoreKnown
  toApiKnown := by
    intro m hm r hr
    rcases mem_append.1 hm with hm | hm
    · exact h.toApiKnown m hm r hr
    · simp only [mem_cons, not_mem_nil, or_false] at hm
      rcases hm with rfl | rfl <;> cases hr
  receipts p := by
    simp only [mem_cons, h.receipts p, mem_append, FromCore.receipt.injEq, reduceCtorEq,
      not_mem_nil, or_false]
    tauto
  receiptKnown := by
    rintro p (_ | ⟨_, hp⟩)
    · exact (h.coreKnown o ho).version
    · exact h.receiptKnown p hp
  above := nofun
  ordered := h.ordered
  heralded := h.heralded.append ⟨mem_singleton_self _, trivial⟩
  dying _ _ _ _ _ := by simp
  follows _ _ := .inl (by simp)

theorem deliverToCore (h : Inv s) {m : FromApi} {rest : List FromApi} (hq : s.toCore = m :: rest)
    (hs : { s with toCore := rest }.applyOnCore m = .ok s') : Inv s' := by
  have hsub : rest.Sublist s.toCore := hq ▸ sublist_cons_self m rest
  have hmem : ∀ m', m' ∈ s.toCore ↔ m' = m ∨ m' ∈ rest := fun m' => by rw [hq, mem_cons]
  obtain ⟨w, rfl, he, hins⟩ := applyOnCore_spec hs
  have hle : ∀ a, s.api.row = some a → ∀ i, Known s i → i.wantedV ≤ a.wantedV := by
    intro a ha i hi
    obtain ⟨j, hj, hv⟩ := hi.version
    exact hv ▸ h.newest a ha j hj
  cases he with
  | nothing hno =>
    have hp := h.popped hsub ?_
    · simpa [State.onCore, Write.result, Write.published] using hp
    intro a ha hf
    -- the change did not make a row, so the one that will is still in the queue
    have hrow : s.core.row ≠ none ∨ ∃ m' ∈ rest, inserts m' = true ∧ ∀ p ∈ s.core.purges, p < (intentOf m').wantedV := by
      refine or_iff_not_imp_left.2 fun hn => ?_
      obtain ⟨m', hm', hi, hlt⟩ := hf.row.resolve_left hn
      rcases (hmem m').1 hm' with rfl | hm'
      · obtain ⟨r, hr⟩ := hins hi (not_not.1 hn) hlt
        cases hr
      · exact ⟨m', hm', hi, hlt⟩
    refine ⟨hrow, ?_⟩
    rcases hf.version with hc | ⟨m', hm', hv⟩
    · exact .inl hc
    rcases (hmem m').1 hm' with rfl | hm'
    · cases hc : s.core.row with
      | none =>
        obtain ⟨m₂, hm₂, -⟩ := hrow.resolve_left (by simp [hc])
        have h₁ := rel_of_pairwise_cons (hq ▸ h.ordered) hm₂
        have h₂ := hle a ha _ (h.toCoreKnown m₂ (hsub.subset hm₂))
        exact .inr ⟨m₂, hm₂, le_antisymm h₂ (hv ▸ h₁)⟩
      | some o =>
        have h₂ := hle a ha _ (h.coreKnown o hc)
        rcases hno o hc with hle' | ⟨p, hp, hle'⟩
        · exact .inl ⟨o, rfl, by omega⟩
        · have := h.above o hc p hp
          omega
    · exact .inr ⟨m', hm', hv⟩
  | wrote hw hlt hst hi ho =>
    rename_i r
    have hm : Known s (intentOf m) := h.toCoreKnown m ((hmem m).2 (.inl rfl))
    have hk : Known s r.toIntent := by
      rcases hst with hst | ⟨o, hro, hst⟩
      · obtain ⟨j, hj, hje⟩ := hm
        exact ⟨j, hj, hje.trans hst.symm⟩
      · obtain ⟨j, hj, hje⟩ := h.coreKnown o hro
        exact ⟨j, hj, hje.trans hst.symm⟩
    obtain ⟨echo, hpub, hecho⟩ := imageOf_published hw
    have hres : w.result s.core.row = some r := by
      rcases hw with rfl | rfl <;> rfl
    simp only [State.onCore, hpub, hres]
    refine h.coreWrote hsub hecho hk (fun p hp => (hlt p hp).trans_le hi) ?_
    intro a ha hf
    have hra := hle a ha _ hk
    rcases hf.version with ⟨c, hc, hv⟩ | ⟨m', hm', hv⟩
    · exact .inl (le_antisymm hra (hv ▸ ho c hc))
    · rcases (hmem m').1 hm' with rfl | hm'
      · exact .inl (le_antisymm hra (hv ▸ hi))
      · exact .inr ⟨m', hm', hv⟩

theorem stamp_kept (h : Inv s) (hi : Known s i) (he : Effect s.api.purges s.api.row i w) :
    (w.result s.api.row).map (fun r => stamp r.toIntent) = s.api.row.map fun r => stamp r.toIntent := by
  cases he with
  | nothing _ => rfl
  | wrote hw hlt hst hir ho =>
    rename_i r
    have hres : w.result s.api.row = some r := by
      rcases hw with rfl | rfl <;> rfl
    obtain ⟨j, hj, hji⟩ := hi
    have hjv : j.wantedV = i.wantedV := congrArg Prod.fst hji
    cases hrow : s.api.row with
    | none =>
      -- a receipt covers everything the api wrote
      obtain ⟨p, hp, hle⟩ := h.gone hrow j hj
      exact absurd (hlt p hp) (by omega)
    | some o =>
      rw [← hrow, hres, hrow, map_some, map_some, some_inj]
      rcases hst with hst | ⟨o', ho', hst⟩
      · have hle := h.newest o hrow j hj
        have hge := ho o hrow
        have hrv : r.wantedV = i.wantedV := congrArg Prod.fst hst
        obtain ⟨k, hk, hko⟩ := h.apiKnown o hrow
        have hkv : k.wantedV = o.wantedV := congrArg Prod.fst hko
        have hsame := h.functional j hj k hk (by omega)
        rw [hst, ← hji, ← hko]
        exact Prod.ext (by show j.wantedV = k.wantedV; omega) hsame
      · obtain rfl := some.inj (hrow.symm.trans ho')
        exact hst

theorem imageApplied (h : Inv s) (hq : s.toApi = m :: rest) (hm : imageOf m = some r)
    (hrow : row.map (fun r => stamp r.toIntent) = s.api.row.map fun r => stamp r.toIntent) :
    Inv { s with api := { s.api with row := row }, toApi := rest } := by
  have hsome : ∀ {r'}, row = some r' → ∃ o, s.api.row = some o ∧ stamp o.toIntent = stamp r'.toIntent := by
    intro r' hr'
    rw [hr', map_some] at hrow
    exact map_eq_some_iff.1 hrow.symm
  have hnone : row = none → s.api.row = none := by
    rintro rfl
    exact map_eq_none_iff.1 hrow.symm
  have hrest : ∀ {m'}, imageOf m' = none → m' ∈ s.toApi → m' ∈ rest := by
    intro m' hm' hmem
    rw [hq, mem_cons] at hmem
    refine hmem.resolve_left ?_
    rintro rfl
    rw [hm] at hm'
    cases hm'
  have hv : ∀ {o r' : Row}, stamp o.toIntent = stamp r'.toIntent → o.wantedV = r'.wantedV := congrArg Prod.fst
  exact
    { positive := h.positive
      functional := h.functional
      apiKnown := by
        intro r' hr'
        obtain ⟨o, ho, hst⟩ := hsome hr'
        obtain ⟨j, hj, hje⟩ := h.apiKnown o ho
        exact ⟨j, hj, hje.trans hst⟩
      newest := by
        intro r' hr' i hi
        obtain ⟨o, ho, hst⟩ := hsome hr'
        exact hv hst ▸ h.newest o ho i hi
      gone := fun hr => h.gone (hnone hr)
      coreKnown := h.coreKnown
      toCoreKnown := h.toCoreKnown
      toApiKnown := fun m' hm' => h.toApiKnown m' (hq ▸ mem_cons_of_mem _ hm')
      receipts := by
        intro p
        rw [h.receipts p]
        refine or_congr_right ⟨hrest rfl, fun hp => hq ▸ mem_cons_of_mem _ hp⟩
      receiptKnown := h.receiptKnown
      above := h.above
      ordered := h.ordered
      heralded := (hq ▸ h.heralded).tail
      dying := by
        intro r' hr' p hp hle
        obtain ⟨o, ho, hst⟩ := hsome hr'
        exact hrest rfl (h.dying o ho p hp (hv hst ▸ hle))
      follows := by
        intro r' hr'
        obtain ⟨o, ho, hst⟩ := hsome hr'
        rcases h.follows o ho with hd | hres | hf
        · exact .inl (hrest rfl hd)
        · exact .inr (.inl hres)
        · exact .inr (.inr (hv hst ▸ ⟨hf.row, hf.version⟩)) }

theorem receiptApplied (h : Inv s) (hq : s.toApi = .receipt p :: rest) :
    Inv { s with api := { s.api with purges := p :: s.api.purges }, toApi := rest } := by
  have hher : Heralded (.receipt p :: rest) := hq ▸ h.heralded
  exact
    { positive := h.positive
      functional := h.functional
      apiKnown := h.apiKnown
      newest := h.newest
      gone := by
        intro hr i hi
        obtain ⟨p', hp', hle⟩ := h.gone hr i hi
        exact ⟨p', mem_cons_of_mem _ hp', hle⟩
      coreKnown := h.coreKnown
      toCoreKnown := h.toCoreKnown
      toApiKnown := fun m' hm' => h.toApiKnown m' (hq ▸ mem_cons_of_mem _ hm')
      receipts := by
        intro p'
        rw [h.receipts p', hq, mem_cons, mem_cons, FromCore.receipt.injEq]
        tauto
      receiptKnown := h.receiptKnown
      above := h.above
      ordered := h.ordered
      heralded := hher.2
      dying := fun _ _ _ _ _ => hher.1
      follows := fun _ _ => .inl hher.1 }

/-- The api meets a delete: it deletes a row that a receipt covers, and queues any other to be
sent again. -/
theorem deleteApplied (h : Inv s) (hq : s.toApi = .delete :: rest) :
    Inv { s with api := scdPurgeGuard s.api, toApi := rest } := by
  have hpop : ∀ p, .receipt p ∈ s.toApi ↔ .receipt p ∈ rest := by
    intro p
    rw [hq, mem_cons]
    simp
  have hher : Heralded rest := (hq ▸ h.heralded).tail
  have htoApi : ∀ m ∈ rest, ∀ r, imageOf m = some r → Known s r.toIntent :=
    fun m hm => h.toApiKnown m (hq ▸ mem_cons_of_mem _ hm)
  cases hrow : s.api.row with
  | none =>
    simp only [scdPurgeGuard, hrow]
    exact { h with
      coreKnown := h.coreKnown, toCoreKnown := h.toCoreKnown
      toApiKnown := htoApi
      receipts := fun p => by rw [h.receipts p, hpop]
      heralded := hher
      dying := fun r hr => by cases hrow.symm.trans hr
      follows := fun r hr => by cases hrow.symm.trans hr }
  | some o =>
    have hpos : 0 < o.wantedV := by
      obtain ⟨j, hj, hv⟩ := (h.apiKnown o hrow).version
      exact hv ▸ h.positive j hj
    by_cases hlt : ∀ p ∈ s.api.purges, p < o.wantedV
    · rw [scdPurgeGuard_above hrow hpos hlt]
      exact { h with
        coreKnown := h.coreKnown, toCoreKnown := h.toCoreKnown
        toApiKnown := htoApi
        receipts := fun p => by rw [h.receipts p, hpop]
        heralded := hher
        dying := by
          intro r hr p hp hle
          obtain rfl := some.inj (hrow.symm.trans hr)
          exact absurd (hlt p hp) (not_lt.2 hle)
        follows := fun r hr => .inr (.inl rfl) }
    · rw [scdPurgeGuard_covered hrow hpos hlt]
      exact { h with
        apiKnown := nofun
        newest := nofun
        gone := by
          intro _ i hi
          push Not at hlt
          obtain ⟨p, hp, hle⟩ := hlt
          exact ⟨p, hp, (h.newest o hrow i hi).trans hle⟩
        coreKnown := h.coreKnown, toCoreKnown := h.toCoreKnown
        toApiKnown := htoApi
        receipts := fun p => by rw [h.receipts p, hpop]
        heralded := hher
        dying := nofun
        follows := nofun }

theorem drainApi (h : Inv s) : Inv (s.drain .api) := by
  simp only [State.drain]
  split <;> [skip; exact h]
  have hrepair : ∀ m ∈ s.api.row.toList.map FromApi.repair, ∃ r, s.api.row = some r ∧ m = .repair r := by
    intro m hm
    obtain ⟨r, hr, rfl⟩ := mem_map.1 hm
    exact ⟨r, mem_toList.1 hr, rfl⟩
  exact { h with
    coreKnown := h.coreKnown, toApiKnown := h.toApiKnown
    toCoreKnown := by
      intro m hm
      rcases mem_append.1 hm with hm | hm
      · exact h.toCoreKnown m hm
      · obtain ⟨r, hr, rfl⟩ := hrepair m hm
        exact h.apiKnown r hr
    ordered := by
      refine pairwise_append.2 ⟨h.ordered, by cases s.api.row <;> simp, ?_⟩
      intro m₁ h₁ m₂ h₂
      obtain ⟨r, hr, rfl⟩ := hrepair m₂ h₂
      obtain ⟨j, hj, he⟩ := (h.toCoreKnown m₁ h₁).version
      exact he ▸ h.newest r hr j hj
    follows := by
      intro r hr
      have hlast : .repair r ∈ s.toCore ++ s.api.row.toList.map FromApi.repair :=
        mem_append_right _ (mem_map.2 ⟨r, mem_toList.2 hr, rfl⟩)
      by_cases hd : .delete ∈ s.toApi
      · exact .inl hd
      · exact .inr (.inr ⟨.inr ⟨_, hlast, rfl, h.lt_of_no_delete hd hr⟩, .inr ⟨_, hlast, rfl⟩⟩) }

theorem drainCore (h : Inv s) : Inv (s.drain .core) := by
  simp only [State.drain]
  split <;> [skip; exact h]
  have hrepair : ∀ m ∈ s.core.row.toList.map FromCore.repair, ∃ r, s.core.row = some r ∧ m = .repair r := by
    intro m hm
    obtain ⟨r, hr, rfl⟩ := mem_map.1 hm
    exact ⟨r, mem_toList.1 hr, rfl⟩
  exact { h with
    coreKnown := h.coreKnown, toCoreKnown := h.toCoreKnown
    toApiKnown := by
      intro m hm r hr
      rcases mem_append.1 hm with hm | hm
      · exact h.toApiKnown m hm r hr
      · obtain ⟨r', hr', rfl⟩ := hrepair m hm
        obtain rfl := some.inj hr
        exact h.coreKnown r' hr'
    receipts := by
      intro p
      rw [h.receipts p, mem_append]
      refine or_congr_right ⟨.inl, fun hp => hp.resolve_right fun hp => ?_⟩
      obtain ⟨_, _, he⟩ := hrepair _ hp
      cases he
    heralded := h.heralded.append (by cases s.core.row <;> trivial)
    dying := fun r hr p hp hle => mem_append_left _ (h.dying r hr p hp hle)
    follows := fun r hr => by
      rcases h.follows r hr with hd | hres | hf
      · exact .inl (mem_append_left _ hd)
      · exact .inr (.inl hres)
      · exact .inr (.inr ⟨hf.row, hf.version⟩) }

theorem tap (h : Inv s) (node : Node) (wanted : Bool) (now clock clock' : Int) :
    Inv (s.tap node wanted now clock clock') := by
  unfold State.tap
  cases hrow : s.api.row with
  | none =>
    set new := scdVerInsert node clock s.api.purges
      (Row.ofIntent { createdAt := now, wantedState := wanted, wantedV := 0 }) with hnew
    have hlt : greatestPurged s.api.purges 0 < new.wantedV := lt_scdHlc ..
    have hp : ∀ p ∈ s.api.purges, p < new.wantedV := fun p hp => (mem_le_greatestPurged hp).trans_lt hlt
    refine h.write rfl (fun _ => rfl) (le_greatestPurged.trans_lt hlt) ?_ hp
    intro j hj
    obtain ⟨p, hmem, hle⟩ := h.gone hrow j hj
    exact hle.trans_lt (hp p hmem)
  | some o =>
    set new := scdVerUpdate node clock' s.api.purges o (State.tapUpdate node wanted now clock o) with hnew
    have hlt : o.wantedV < new.wantedV := by
      have h₁ : o.wantedV < (State.tapUpdate node wanted now clock o).wantedV := lt_scdHlc ..
      simp only [hnew, scdVerUpdate]
      split
      · refine lt_of_le_of_lt ?_ (lt_scdHlc ..)
        exact (le_max_left ..).trans le_greatestPurged
      · exact h₁.trans_le (le_max_right ..)
    have hall : ∀ j ∈ s.written, j.wantedV < new.wantedV := fun j hj => (h.newest o hrow j hj).trans_lt hlt
    refine h.write rfl (fun hn => by cases hn.symm.trans hrow) ?_ hall ?_
    · obtain ⟨j, hj, -⟩ := h.apiKnown o hrow
      exact (h.positive j hj).trans (hall j hj)
    · intro p hp
      obtain ⟨j, hj, rfl⟩ := h.receiptKnown p ((h.receipts p).2 (.inl hp))
      exact hall j hj

theorem result (h : Inv s) (w : ResultWrite) (clock : Int) : Inv (s.result w clock) := by
  unfold State.result
  cases hrow : s.core.row with
  | none => exact h
  | some o =>
    dsimp only
    cases hw : w.update o with
    | none => exact h
    | some new =>
      have hint : (scdVerUpdate .core clock s.core.purges o new).toIntent = o.toIntent := by
        cases w with
        | synced wanted now | likedAt t =>
          simp only [ResultWrite.update] at hw
          split at hw <;> [skip; cases hw]
          obtain rfl := some.inj hw
          simp [scdVerUpdate]
      have hv := congrArg Intent.wantedV hint
      refine h.coreWrote (List.Sublist.refl _) rfl (hint ▸ h.coreKnown o hrow)
        (fun p hp => hv ▸ h.above o hrow p hp) ?_
      intro a _ hf
      refine hf.version.imp_left ?_
      rintro ⟨c, hc, hcv⟩
      obtain rfl := some.inj (hrow.symm.trans hc)
      exact hv.trans hcv

theorem step (h : Inv s) {a : Action} (hs : s.step node a = some s') : Inv s' := by
  cases a with
  | tap wanted now clock clock' =>
    obtain rfl := some.inj hs
    exact h.tap ..
  | result w clock =>
    obtain rfl := some.inj hs
    exact h.result ..
  | purge seen =>
    obtain rfl := some.inj hs
    unfold State.purge
    split
    · exact h
    · rename_i o ho
      split
      · exact h
      · exact h.purged ho
  | deliverToCore =>
    simp only [State.step] at hs
    split at hs <;> [cases hs; skip]
    rename_i m rest hq
    exact h.deliverToCore hq (toOption_eq_some hs)
  | deliverToApi =>
    simp only [State.step] at hs
    split at hs <;> [cases hs; skip]
    rename_i m rest hq
    have hs := toOption_eq_some hs
    cases hm : imageOf m with
    | some r =>
      obtain ⟨w, rfl, he⟩ := applyOnApi_image hm hs
      have hk : Known s r.toIntent := h.toApiKnown m (hq ▸ mem_cons_self ..) r hm
      exact h.imageApplied hq hm (h.stamp_kept hk he)
    | none =>
      cases m with
      | delete =>
        obtain rfl := Except.ok.inj hs
        exact h.deleteApplied hq
      | receipt p =>
        obtain rfl := Except.ok.inj hs
        exact h.receiptApplied hq
      | _ => cases hm
  | drain role =>
    obtain rfl := some.inj hs
    cases role with
    | api => exact h.drainApi
    | core => exact h.drainCore

end Inv

/-- Whenever nothing is in flight and no resend waits, the api and core agree on the key: both
have the row with the greatest version the api wrote and the same wish, or neither has a row and a
receipt covers that version. -/
theorem quiet_agree {node : Node} {as : List Action} (h : run (State.step node) State.start as = some s)
    (hq : s.Quiet) : (s.written = [] ∧ s.api.row = none ∧ s.core.row = none) ∨
      ∃ v, s.Greatest v ∧
        ((∃ a c, s.api.row = some a ∧ s.core.row = some c ∧ a.wantedState = c.wantedState ∧
            a.wantedV = v ∧ c.wantedV = v) ∨
          (s.api.row = none ∧ s.core.row = none ∧ ∃ p ∈ s.core.purges, p ∈ s.api.purges ∧ v ≤ p)) := by
  have hi : Inv s := run_invariant (fun hi hs => Inv.step hi hs) inv_start h
  obtain ⟨hc, ha, hr, -⟩ := hq
  cases hrow : s.api.row with
  | some a =>
    obtain ⟨j, hj, hja⟩ := hi.apiKnown a hrow
    refine .inr ⟨a.wantedV, ⟨mem_map.2 ⟨j, hj, congrArg Prod.fst hja⟩, hi.newest a hrow⟩, .inl ?_⟩
    have hf : Follows s a.wantedV := by
      rcases hi.follows a hrow with hd | hres | hf
      · simp [ha] at hd
      · simp [hr] at hres
      · exact hf
    obtain ⟨c, hcrow, hcv⟩ : ∃ c, s.core.row = some c ∧ c.wantedV = a.wantedV := by
      simpa [hc] using hf.version
    obtain ⟨k, hk, hkc⟩ := hi.coreKnown c hcrow
    have hjv : j.wantedV = a.wantedV := congrArg Prod.fst hja
    have hkv : k.wantedV = c.wantedV := congrArg Prod.fst hkc
    have hjs : j.wantedState = a.wantedState := congrArg Prod.snd hja
    have hks : k.wantedState = c.wantedState := congrArg Prod.snd hkc
    refine ⟨a, c, rfl, hcrow, ?_, rfl, hcv⟩
    rw [← hjs, ← hks]
    exact hi.functional j hj k hk (by omega)
  | none =>
    have hcore : s.core.row = none := by
      by_contra hne
      obtain ⟨c, hcrow⟩ := ne_none_iff_exists'.1 hne
      obtain ⟨j, hj, hv⟩ := (hi.coreKnown c hcrow).version
      obtain ⟨p, hp, hle⟩ := hi.gone hrow j hj
      have := hi.above c hcrow p ((hi.receipts p).2 (.inl hp))
      omega
    cases hmax : (s.written.map Intent.wantedV).max? with
    | none =>
      rw [List.max?_eq_none_iff, map_eq_nil_iff] at hmax
      exact .inl ⟨hmax, rfl, hcore⟩
    | some v =>
      obtain ⟨hmem, hle⟩ := List.max?_eq_some_iff.1 hmax
      obtain ⟨j, hj, rfl⟩ := mem_map.1 hmem
      obtain ⟨p, hp, hjp⟩ := hi.gone hrow j hj
      refine .inr ⟨j.wantedV, ⟨hmem, fun i hm => hle _ (mem_map_of_mem hm)⟩, .inr ⟨rfl, hcore, p, ?_, hp, hjp⟩⟩
      exact (hi.receipts p).2 (.inl hp)

/-- A like is served and purged while its withdrawal is on the way: the update finds no row on core,
the api refuses the delete, and the resent row brings core the withdrawal. -/
theorem quiet_agree_resent : let row : Row := Row.ofIntent ⟨5, false, 50⟩
    let s : State := ⟨⟨some row, [18], false⟩, ⟨some row, [18], false⟩, [], [], [⟨5, false, 50⟩, ⟨5, true, 18⟩]⟩
    run (State.step .main) State.start
        [.tap true 5 1 1, .deliverToCore, .purge 18, .tap false 6 1 1, .deliverToCore, .deliverToApi, .deliverToApi,
          .deliverToApi, .drain .api, .deliverToCore, .deliverToApi] = some s ∧
      s.Quiet ∧
      ((s.written = [] ∧ s.api.row = none ∧ s.core.row = none) ∨
        ∃ v, s.Greatest v ∧
          ((∃ a c, s.api.row = some a ∧ s.core.row = some c ∧ a.wantedState = c.wantedState ∧
              a.wantedV = v ∧ c.wantedV = v) ∨
            (s.api.row = none ∧ s.core.row = none ∧ ∃ p ∈ s.core.purges, p ∈ s.api.purges ∧ v ≤ p))) := by
  intro row s
  have hrun : run (State.step .main) State.start
      [.tap true 5 1 1, .deliverToCore, .purge 18, .tap false 6 1 1, .deliverToCore, .deliverToApi, .deliverToApi,
        .deliverToApi, .drain .api, .deliverToCore, .deliverToApi] = some s := by decide
  have hquiet : s.Quiet := ⟨rfl, rfl, rfl, rfl⟩
  exact ⟨hrun, hquiet, quiet_agree hrun hquiet⟩

/-! ## Settling -/

def Settling : Action → Prop
  | .deliverToCore | .deliverToApi | .drain _ => True
  | _ => False

/-- What is left to do: a delete can call for a resend, which sends a row to core, and that a row to the api. -/
def toDo (s : State) : Nat :=
  2 * s.toCore.length + s.toApi.length + 3 * (s.toApi.count .delete + s.api.resend.toNat) + 2 * s.core.resend.toNat

theorem applyOnCore_ok (s : State) (m : FromApi) : ∃ w, s.applyOnCore m = .ok (s.onCore w) := by
  cases m <;> simp only [State.applyOnCore, scdMergeInsert_eq] <;> exact ⟨_, rfl⟩

theorem applyOnApi_ok (s : State) (node : Node) (m : FromCore) :
    ∃ api, s.applyOnApi node m = .ok { s with api := api } ∧
      api.resend.toNat ≤ [m].count .delete + s.api.resend.toNat := by
  cases m with
  | delete =>
    have hone := (scdPurgeGuard s.api).resend.toNat_le
    exact ⟨_, rfl, by simp only [count_singleton_self]; omega⟩
  | receipt v => exact ⟨_, rfl, Nat.le_add_left ..⟩
  | _ =>
    simp only [State.applyOnApi, scdMergeInsert_eq]
    exact ⟨_, rfl, Nat.le_add_left ..⟩

theorem settle_step (node : Node) (s : State) (h : ¬ s.Quiet) :
    ∃ a s', Settling a ∧ s.step node a = some s' ∧ toDo s' < toDo s := by
  cases hcore : s.toCore with
  | cons m rest =>
    obtain ⟨w, hw⟩ := applyOnCore_ok { s with toCore := rest } m
    refine ⟨.deliverToCore, _, trivial, by rw [State.step, hcore]; exact congrArg Except.toOption hw, ?_⟩
    have hpublished : w.published.length ≤ 1 ∧ w.published.count .delete = 0 := by cases w <;> simp [Write.published]
    simp only [toDo, State.onCore, hcore, length_cons, length_append, count_append]
    omega
  | nil =>
    cases hapi : s.toApi with
    | cons m rest =>
      obtain ⟨api, happly, hless⟩ := applyOnApi_ok { s with toApi := rest } node m
      refine ⟨.deliverToApi, _, trivial, by rw [State.step, hapi]; exact congrArg Except.toOption happly, ?_⟩
      have hcount := @count_append _ _ .delete [m] rest
      rw [singleton_append] at hcount
      simp only [toDo, hapi, length_cons, hcount]
      dsimp only at hless
      omega
    | nil =>
      by_cases hr : s.api.resend = true
      · refine ⟨.drain .api, _, trivial, rfl, ?_⟩
        have hone : s.api.row.toList.length ≤ 1 := by cases s.api.row <;> simp
        simp [toDo, State.drain, hr, hcore]
        omega
      · have hc : s.core.resend = true := by
          by_contra hc
          exact h ⟨hcore, hapi, by simpa using hr, by simpa using hc⟩
        refine ⟨.drain .core, _, trivial, rfl, ?_⟩
        cases hrow : s.core.row with
        | none => simp [toDo, State.drain, hc, hapi, hrow]
        | some row =>
          simp [toDo, State.drain, hc, hapi, hrow]
          omega

/-- From every state the replication by itself, without further taps, results and purges, can reach
one in which nothing is in flight and no resend waits. -/
theorem likes_settle (node : Node) (s : State) :
    ∃ as s', (∀ a ∈ as, Settling a) ∧ run (State.step node) s as = some s' ∧ s'.Quiet :=
  run_reaches (settle_step node) s

end SC.Proof.Replication.LikesTracks
