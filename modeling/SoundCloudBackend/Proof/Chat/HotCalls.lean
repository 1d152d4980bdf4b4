import Mathlib.Data.List.TakeWhile
import SoundCloudBackend.Framework.Run
import SoundCloudBackend.Impl.Chat.HotCalls
import SoundCloudBackend.Proof.Chat.Messages

/-!
# A forgotten conversation

`forget` empties the cache, but a `put` of the conversation that has read the tail before
writes it back. `Sound` is what every tail and every put in progress is like; `Clean`, that
none of them brings a forgotten row back, is kept by every step that is not such a `forget`
(`Clean.step`).
-/

namespace SC.Proof.Chat.HotCalls

open Impl.Chat Impl.Chat.HotCalls
open Impl.Replication (Uuid)
open List Function

variable {row : MessageRow} {rows rows' : List MessageRow} {w w' : World} {a : Action}
variable {r : MessageRow} {k : Nat} {c : Uuid} {call : PutCall}

/-! ## Tails -/

theorem drop_takeWhile_length (p : MessageRow → Bool) (rows : List MessageRow) :
    rows.drop (rows.takeWhile p).length = rows.dropWhile p := by
  have hleft := @drop_left _ (rows.takeWhile p) (rows.dropWhile p)
  rwa [takeWhile_append_dropWhile] at hleft

theorem insert_ascending (h : Ascending rows) (hinsert : HotCache.insert row rows = some rows') : Ascending rows' := by
  unfold HotCache.insert at hinsert
  split at hinsert
  · cases hinsert
    refine pairwise_map.2 (h.imp fun {r r'} hlt => ?_)
    have hseq : ∀ r : MessageRow, (if r.seq = row.seq then row else r).seq = r.seq := by
      intro r
      split
      · rename_i hr
        exact hr.symm
      · rfl
    rwa [hseq, hseq]
  · rename_i hnew
    have hne : ∀ r ∈ rows, r.seq ≠ row.seq := by simpa using hnew
    split at hinsert
    · split_ifs at hinsert
      cases hinsert
      exact pairwise_singleton _ _
    · cases hinsert
      have hsplit := takeWhile_append_dropWhile (p := fun cached => decide (cached.seq < row.seq)) (l := rows)
      rw [drop_takeWhile_length]
      rw [Ascending, ← hsplit, pairwise_append] at h
      obtain ⟨hfront, hback, hcross⟩ := h
      have holder : ∀ r ∈ rows.takeWhile fun cached => decide (cached.seq < row.seq), r.seq < row.seq := by
        intro r hr
        simpa using mem_takeWhile_imp hr
      have hnewer : ∀ r ∈ rows.dropWhile fun cached => decide (cached.seq < row.seq), row.seq < r.seq := by
        intro r hr
        -- the first row that is not older is newer, and the others come after it
        cases hd : rows.dropWhile fun cached => decide (cached.seq < row.seq) with
        | nil =>
          rw [hd] at hr
          cases hr
        | cons first rest =>
          rw [hd] at hr hback
          have hfirst : ¬ first.seq < row.seq := by
            have := head_dropWhile_not (l := rows) (fun cached => decide (cached.seq < row.seq))
              (by rw [hd]; exact cons_ne_nil _ _)
            simpa [hd] using this
          have hfirst' := hne first (dropWhile_subset _ (hd ▸ mem_cons_self))
          rcases mem_cons.1 hr with rfl | hr
          · omega
          · have := (pairwise_cons.1 hback).1 r hr
            omega
      refine pairwise_append.2 ⟨hfront, pairwise_cons.2 ⟨hnewer, hback⟩, fun r hr r' hr' => ?_⟩
      rcases mem_cons.1 hr' with rfl | hr'
      · exact holder r hr
      · exact hcross r hr r' hr'

theorem trim_sublist (rows : List MessageRow) : (HotCache.trim rows).Sublist rows := by
  induction rows with
  | nil => exact .slnil
  | cons first rest ih =>
    unfold HotCache.trim
    split
    · exact ih.cons first
    · exact .refl _

theorem trim_append {older kept : List MessageRow} (hrows : kept.length ≤ tailRows)
    (hbytes : kept.length ≤ 1 ∨ (kept.map MessageRow.weight).sum ≤ tailBytes) :
    ∃ older', HotCache.trim (older ++ kept) = older' ++ kept := by
  induction older with
  | nil =>
    refine ⟨[], ?_⟩
    cases kept with
    | nil => rfl
    | cons first rest =>
      rw [nil_append, HotCache.trim, if_neg]
      rw [length_cons] at hrows hbytes
      omega
  | cons first older ih =>
    rw [cons_append, HotCache.trim]
    split
    · exact ih
    · exact ⟨first :: older, rfl⟩

theorem mem_insert_self (hinsert : HotCache.insert row rows = some rows') : row ∈ rows' := by
  unfold HotCache.insert at hinsert
  split at hinsert
  · rename_i hany
    cases hinsert
    obtain ⟨r, hr, hseq⟩ := any_eq_true.1 hany
    exact mem_map.2 ⟨r, hr, if_pos (of_decide_eq_true hseq)⟩
  · split at hinsert
    · split_ifs at hinsert
      cases hinsert
      exact mem_singleton.2 rfl
    · cases hinsert
      exact mem_append_right _ mem_cons_self

theorem mem_insert_of_mem (hinsert : HotCache.insert row rows = some rows') (hr : r ∈ rows)
    (hseq : r.seq ≠ row.seq) : r ∈ rows' := by
  unfold HotCache.insert at hinsert
  split at hinsert
  · cases hinsert
    exact mem_map.2 ⟨r, hr, if_neg hseq⟩
  · split at hinsert
    · split_ifs at hinsert with hnil
      rw [hnil] at hr
      cases hr
    · cases hinsert
      rw [← takeWhile_append_dropWhile (p := fun cached => decide (cached.seq < row.seq)) (l := rows)] at hr
      rcases mem_append.1 hr with hr | hr
      · exact mem_append_left _ hr
      · refine mem_append_right _ (mem_cons_of_mem _ ?_)
        rwa [drop_takeWhile_length]

theorem insert_isSome (hr : r ∈ rows) (hasc : Ascending rows) (hle : r.seq ≤ row.seq) :
    (HotCache.insert row rows).isSome := by
  unfold HotCache.insert
  split
  · rfl
  · rename_i hnew
    cases rows with
    | nil => cases hr
    | cons first rest =>
      have hne : first.seq ≠ row.seq := by
        have hall : ∀ r ∈ first :: rest, r.seq ≠ row.seq := by simpa using hnew
        exact hall first mem_cons_self
      have hfirst : first.seq ≤ r.seq := by
        rcases mem_cons.1 hr with rfl | hr
        · exact Int.le_refl _
        · exact Int.le_of_lt ((pairwise_cons.1 hasc).1 r hr)
      rw [takeWhile_cons_of_pos (by simp only [decide_eq_true_eq]; omega)]
      rfl

/-! ## Every run -/

/-- A tail of a conversation: rows of completed puts, in order. -/
structure Tail (stored : List MessageRow) (c : Uuid) (rows : List MessageRow) : Prop where
  order : Ascending rows
  own : ∀ r ∈ rows, r.conversationId = c
  completed : ∀ r ∈ rows, r ∈ stored

/-- Every cached tail, and every tail a put has read, is a tail of the stored rows. -/
structure Sound (w : World) : Prop where
  cached : ∀ c rows, w.cache c = some rows → Tail w.stored c rows
  calls : ∀ call ∈ w.writing, Tail w.stored call.row.conversationId call.read

theorem sound_init : Sound init :=
  ⟨by simp [init], by simp [init]⟩

theorem Sound.read (h : Sound w) (c : Uuid) : Tail w.stored c ((w.cache c).getD []) := by
  cases hc : w.cache c with
  | none => exact ⟨List.Pairwise.nil, by simp, by simp⟩
  | some rows => exact h.cached c rows hc

theorem beginPut_eq_some (h : beginPut w row = some w') :
    w' = { w with writing := w.writing ++ [⟨row, (w.cache row.conversationId).getD []⟩] } := by
  rw [HotCalls.beginPut] at h
  split_ifs at h
  exact (Option.some.inj h).symm

theorem endPut_cases (h : endPut w k = some w') :
    ∃ call ∈ w.writing, w'.writing = w.writing.eraseIdx k ∧ w'.stored = call.row :: w.stored ∧
      (w'.forgotten = w.forgotten.filter fun row => row ≠ call.row) ∧
      ∀ c tail, w'.cache c = some tail → w.cache c = some tail ∨ c = call.row.conversationId ∧
        ∃ rows, HotCache.insert call.row call.read = some rows ∧ tail = HotCache.trim rows := by
  obtain ⟨call, hcall, rfl⟩ := Option.map_eq_some_iff.1 h
  refine ⟨call, mem_of_getElem? hcall, rfl, rfl, rfl, fun c tail hc => ?_⟩
  cases hinsert : HotCache.insert call.row call.read with
  | none =>
    simp only [hinsert] at hc
    exact .inl hc
  | some rows =>
    simp only [hinsert] at hc
    by_cases hid : c = call.row.conversationId
    · subst hid
      rw [update_self, Option.some.injEq] at hc
      exact .inr ⟨rfl, rows, rfl, hc.symm⟩
    · rw [update_of_ne hid] at hc
      exact .inl hc

theorem forget_cached {id : Uuid} {tail : List MessageRow} (h : w.cache.forget c id = some tail) :
    id ≠ c ∧ w.cache id = some tail := by
  by_cases hid : id = c
  · subst hid
    simp [HotCache.forget] at h
  · exact ⟨hid, by simpa [HotCache.forget, update_of_ne hid] using h⟩

theorem Sound.step (h : Sound w) (hstep : HotCalls.step w a = some w') : Sound w' := by
  cases a with
  | beginPut row =>
    obtain rfl := beginPut_eq_some hstep
    refine ⟨h.cached, fun call hcall => ?_⟩
    rcases mem_append.1 hcall with hcall | hcall
    · exact h.calls call hcall
    · obtain rfl := mem_singleton.1 hcall
      exact h.read row.conversationId
  | endPut k =>
    obtain ⟨call, hcall, hwriting, hstored, -, hcache⟩ := endPut_cases hstep
    have hmore : ∀ {c rows}, Tail w.stored c rows → Tail w'.stored c rows := fun ht =>
      ⟨ht.order, ht.own, fun r hr => hstored ▸ mem_cons_of_mem _ (ht.completed r hr)⟩
    refine ⟨fun c tail hc => ?_, fun other hother => ?_⟩
    · obtain hc | ⟨rfl, rows, hinsert, rfl⟩ := hcache c tail hc
      · exact hmore (h.cached c tail hc)
      · have hread := hmore (h.calls call hcall)
        have hmem : ∀ r ∈ HotCache.trim rows, r = call.row ∨ r ∈ call.read := fun r hr =>
          mem_of_mem_insert hinsert (mem_of_mem_trim hr)
        refine ⟨(insert_ascending hread.order hinsert).sublist (trim_sublist rows), fun r hr => ?_, fun r hr => ?_⟩
        · exact (hmem r hr).elim (fun hr => hr ▸ rfl) (hread.own r)
        · exact (hmem r hr).elim (fun hr => hstored ▸ hr ▸ mem_cons_self) (hread.completed r)
    · rw [hwriting] at hother
      exact hmore (h.calls other (mem_of_mem_eraseIdx hother))
  | forget c | evict c =>
    cases hstep
    exact ⟨fun id tail hid => h.cached id tail (forget_cached hid).2, h.calls⟩

/-! ## Careful runs -/

/-- The put writes back no other row than its own: it has read none of another place, or its row is older than all. -/
def Harmless (call : PutCall) : Prop :=
  (∀ r ∈ call.read, r.seq = call.row.seq) ∨ ∃ first ∈ call.read.head?, call.row.seq < first.seq

instance (call : PutCall) : Decidable (Harmless call) :=
  inferInstanceAs (Decidable (_ ∨ _))

/-- A conversation is forgotten while no put of it will write back what it has read. -/
def Careful (w : World) : Action → Prop
  | .forget c => ∀ call ∈ w.writing, call.row.conversationId = c → Harmless call
  | _ => True

theorem Harmless.eq_row (h : Harmless call) (hread : Ascending call.read)
    (hinsert : HotCache.insert call.row call.read = some rows) (hr : r ∈ rows) : r = call.row := by
  rcases h with hsame | ⟨first, hfirst, hlt⟩
  · rcases mem_of_mem_insert hinsert hr with rfl | hmem
    · rfl
    · exact eq_of_seq_eq (insert_ascending hread hinsert) hr (mem_insert_self hinsert) (hsame r hmem)
  · -- such a row is not stored at all
    exfalso
    obtain ⟨rest, hrest⟩ : ∃ rest, call.read = first :: rest := List.head?_eq_some_iff.1 hfirst
    rw [hrest] at hread hinsert
    have hnone : ((first :: rest).any fun cached => cached.seq = call.row.seq) = false := by
      rw [any_eq_false]
      intro r hr
      have hle : first.seq ≤ r.seq := by
        rcases mem_cons.1 hr with rfl | hr
        · exact Int.le_refl _
        · exact Int.le_of_lt ((pairwise_cons.1 hread).1 r hr)
      simp only [decide_eq_true_eq]
      omega
    have hhead : ¬ first.seq < call.row.seq := by omega
    simp only [HotCache.insert, hnone] at hinsert
    simp [hhead] at hinsert

/-- No tail holds a forgotten row, nor does what a put in progress has read, unless it does not write it back. -/
structure Clean (w : World) : Prop where
  sound : Sound w
  cached : ∀ c rows, w.cache c = some rows → ∀ r ∈ rows, r ∉ w.forgotten
  calls : ∀ call ∈ w.writing, Harmless call ∨ ∀ r ∈ call.read, r ∉ w.forgotten

theorem clean_init : Clean init :=
  ⟨sound_init, by simp [init], by simp [init]⟩

theorem Clean.endPut (h : Clean w) (hstep : HotCalls.endPut w k = some w') : Clean w' := by
  have hsound : Sound w' := h.sound.step (a := .endPut k) hstep
  obtain ⟨call, hcall, hwriting, -, hforgotten, hcache⟩ := endPut_cases hstep
  have hless : ∀ {r}, r ∉ w.forgotten → r ∉ w'.forgotten := fun hr hmem =>
    hr (mem_filter.1 (hforgotten ▸ hmem)).1
  have hrow : call.row ∉ w'.forgotten := by simp [hforgotten]
  refine ⟨hsound, fun c tail hc r hr => ?_, fun other hother => ?_⟩
  · obtain hc | ⟨rfl, rows, hinsert, rfl⟩ := hcache c tail hc
    · exact hless (h.cached c tail hc r hr)
    · have hr := mem_of_mem_trim hr
      rcases h.calls call hcall with hharmless | hread
      · rw [hharmless.eq_row (h.sound.calls call hcall).order hinsert hr]
        exact hrow
      · rcases mem_of_mem_insert hinsert hr with rfl | hr
        · exact hrow
        · exact hless (hread r hr)
  · rw [hwriting] at hother
    exact (h.calls other (mem_of_mem_eraseIdx hother)).imp_right fun hread r hr => hless (hread r hr)

theorem Clean.forget (h : Clean w) (hcareful : Careful w (.forget c)) : Clean (HotCalls.forget w c) := by
  have hother : ∀ {r : MessageRow}, r.conversationId ≠ c → r ∉ w.forgotten → r ∉ (HotCalls.forget w c).forgotten := by
    intro r hid hr hmem
    rcases mem_append.1 hmem with hmem | hmem
    · exact hid (by simpa using (mem_filter.1 hmem).2)
    · exact hr hmem
  refine ⟨h.sound.step (a := .forget c) rfl, fun id tail hid r hr => ?_, fun call hcall => ?_⟩
  · obtain ⟨hc, hcached⟩ := forget_cached hid
    have hown := (h.sound.cached id tail hcached).own r hr
    exact hother (hown ▸ hc) (h.cached id tail hcached r hr)
  · by_cases hc : call.row.conversationId = c
    · exact .inl (hcareful call hcall hc)
    · exact (h.calls call hcall).imp_right fun hread r hr =>
        hother ((h.sound.calls call hcall).own r hr ▸ hc) (hread r hr)

theorem Clean.step (h : Clean w) (hcareful : Careful w a) (hstep : HotCalls.step w a = some w') : Clean w' := by
  cases a with
  | beginPut row =>
    have hsound := h.sound.step hstep
    obtain rfl := beginPut_eq_some hstep
    refine ⟨hsound, h.cached, fun call hcall => ?_⟩
    rcases mem_append.1 hcall with hcall | hcall
    · exact h.calls call hcall
    · obtain rfl := mem_singleton.1 hcall
      refine .inr fun r hr => ?_
      cases hread : w.cache row.conversationId with
      | none => simp [hread] at hr
      | some tail => exact h.cached _ tail hread r (by simpa [hread] using hr)
  | endPut k => exact h.endPut hstep
  | forget c =>
    cases hstep
    exact h.forget hcareful
  | evict c =>
    have hsound := h.sound.step hstep
    cases hstep
    exact ⟨hsound, fun id tail hid => h.cached id tail (forget_cached hid).2, h.calls⟩

/-! ## Answers -/

/-- No answer of the cache holds a row that was put before a `forget` of its conversation and not again since. -/
def StaysForgotten (w : World) : Prop :=
  ∀ now c seq rows, w.cache.after now c seq = some rows → ∀ r ∈ rows, r ∉ w.forgotten

theorem Clean.staysForgotten (h : Clean w) : StaysForgotten w := by
  intro now c seq found hafter r hr
  unfold HotCache.after at hafter
  split at hafter
  · cases hafter
  · cases hafter
  · rename_i first rest hrows
    split_ifs at hafter
    obtain ⟨-, rfl⟩ := consecutive_eq_some hafter
    exact h.cached c _ hrows r (mem_filter.1 (mem_filter.1 hr).1).1

theorem not_staysForgotten {older newer : List MessageRow}
    (hcache : w.cache c = some (older ++ r :: newer)) (hasc : Ascending (older ++ r :: newer))
    (hbound : r.seq < 2 ^ 63) (hnewer : newer = [] ∨ ∃ last, newer = [last] ∧ last.seq = r.seq + 1)
    (hforgotten : r ∈ w.forgotten) : ¬ StaysForgotten w := by
  -- at a time when the row has not expired
  obtain ⟨now, hlive⟩ : ∃ now, r.expired now = false := by
    cases hexpires : r.expiresAt with
    | none => exact ⟨0, by simp [MessageRow.expired, hexpires]⟩
    | some at_ =>
      refine ⟨at_ - 1, ?_⟩
      simp only [MessageRow.expired, hexpires, Option.any_some, decide_eq_false_iff_not]
      omega
  obtain ⟨-, -, hcross⟩ := pairwise_append.1 hasc
  have holder : ∀ r' ∈ older, r'.seq < r.seq := fun r' hr' => hcross r' hr' r mem_cons_self
  have hfilter : (older ++ r :: newer).filter (fun row => row.seq > r.seq - 1) = r :: newer := by
    have hnil : older.filter (fun row => row.seq > r.seq - 1) = [] := by
      rw [filter_eq_nil_iff]
      intro r' hr'
      have := holder r' hr'
      simp only [decide_eq_true_eq]
      omega
    rw [filter_append, hnil, nil_append, filter_eq_self]
    intro r' hr'
    rcases mem_cons.1 hr' with rfl | hr'
    · simp only [decide_eq_true_eq]
      omega
    · obtain rfl | ⟨last, rfl, hlast⟩ := hnewer
      · cases hr'
      · obtain rfl := mem_singleton.1 hr'
        simp only [decide_eq_true_eq]
        omega
  obtain ⟨found, hfound, hr⟩ : ∃ found, HotCache.consecutive now (r.seq - 1 + 1) (r :: newer) = some found ∧
      r ∈ found := by
    rw [Int.sub_add_cancel]
    obtain rfl | ⟨last, rfl, hlast⟩ := hnewer
    · exact ⟨[r], by simp [HotCache.consecutive, hlive], mem_singleton.2 rfl⟩
    · refine ⟨r :: (if last.expired now then [] else [last]), ?_, mem_cons_self⟩
      simp [HotCache.consecutive, hlive, hlast]
  intro hserved
  refine hserved now c (r.seq - 1) found ?_ r hr hforgotten
  cases hrows : older ++ r :: newer with
  | nil => simp at hrows
  | cons first rest =>
    have hfirst : first.seq ≤ r.seq := by
      cases older with
      | nil =>
        rw [nil_append, List.cons.injEq] at hrows
        exact hrows.1 ▸ Int.le_refl _
      | cons r' older =>
        rw [cons_append, List.cons.injEq] at hrows
        exact hrows.1 ▸ Int.le_of_lt (holder r' mem_cons_self)
    simp only [HotCache.after, hcache, hrows]
    rw [if_neg (by omega), ← hrows, hfilter, hfound]

/-- The put writes back the row `r` it has read, and the newest rows follow it: its own row is the next one, or comes
late and `r` is the newest. -/
def WritesBack (call : PutCall) (r : MessageRow) : Prop :=
  r ∈ call.read ∧ r.seq < 2 ^ 63 ∧
    ((call.row.seq < r.seq ∧ (∀ r' ∈ call.read, r'.seq ≤ r.seq) ∧ ∃ r' ∈ call.read, r'.seq ≤ call.row.seq) ∨
      (call.row.seq = r.seq + 1 ∧ (∀ r' ∈ call.read, r'.seq ≤ call.row.seq) ∧
        r.weight + call.row.weight ≤ tailBytes))

theorem WritesBack.written (h : WritesBack call r) (hread : Ascending call.read) :
    ∃ rows older newer, HotCache.insert call.row call.read = some rows ∧ HotCache.trim rows = older ++ r :: newer ∧
      (newer = [] ∨ ∃ last, newer = [last] ∧ last.seq = r.seq + 1) := by
  obtain ⟨hr, -, hcases⟩ := h
  obtain ⟨rows, hrows⟩ : ∃ rows, HotCache.insert call.row call.read = some rows := by
    rw [← Option.isSome_iff_exists]
    obtain ⟨-, -, r', hr', hle⟩ | ⟨hnext, -⟩ := hcases
    · exact insert_isSome hr' hread hle
    · exact insert_isSome hr hread (by omega)
  have hasc := insert_ascending hread hrows
  have hne : r.seq ≠ call.row.seq := by omega
  obtain ⟨older, newer, rfl⟩ := append_of_mem (mem_insert_of_mem hrows hr hne)
  have habove : ∀ r' ∈ newer, r.seq < r'.seq := (pairwise_cons.1 (pairwise_append.1 hasc).2.1).1
  have hmem : ∀ r' ∈ newer, r' = call.row ∨ r' ∈ call.read := fun r' hr' =>
    mem_of_mem_insert hrows (mem_append_right _ (mem_cons_of_mem _ hr'))
  obtain ⟨hlate, hlast, -⟩ | ⟨hnext, hlast, hweight⟩ := hcases
  · have hnil : newer = [] := by
      refine eq_nil_iff_forall_not_mem.2 fun r' hr' => ?_
      have := habove r' hr'
      rcases hmem r' hr' with rfl | hr'
      · omega
      · have := hlast r' hr'
        omega
    subst hnil
    obtain ⟨older', htrim⟩ := @trim_append older [r] (by simp [tailRows]) (.inl (Nat.le_refl _))
    exact ⟨_, older', [], hrows, htrim, .inl rfl⟩
  · have hseq : ∀ r' ∈ newer, r'.seq = r.seq + 1 := by
      intro r' hr'
      have := habove r' hr'
      rcases hmem r' hr' with rfl | hr'
      · exact hnext
      · have := hlast r' hr'
        omega
    have hself : call.row ∈ newer := by
      rcases mem_append.1 (mem_insert_self hrows) with hmem | hmem
      · have := (pairwise_append.1 hasc).2.2 call.row hmem r mem_cons_self
        omega
      · exact (mem_cons.1 hmem).resolve_left fun heq => hne (heq ▸ rfl)
    have hsingle : newer = [call.row] := by
      have hnewer : Ascending newer := (pairwise_cons.1 (pairwise_append.1 hasc).2.1).2
      cases newer with
      | nil => cases hself
      | cons first rest =>
        cases rest with
        | nil => rw [mem_singleton.1 hself]
        | cons second rest =>
          have hlt := (pairwise_cons.1 hnewer).1 second mem_cons_self
          have := hseq first mem_cons_self
          have := hseq second (mem_cons_of_mem _ mem_cons_self)
          omega
    subst hsingle
    obtain ⟨older', htrim⟩ := @trim_append older [r, call.row] (by simp [tailRows]) (.inr (by simpa using hweight))
    exact ⟨_, older', [call.row], hrows, htrim, .inr ⟨_, rfl, hnext⟩⟩

theorem WritesBack.undone (h : WritesBack call r) (hsound : Sound w) (hcall : w.writing[k]? = some call) :
    ∃ w', run step w [.forget call.row.conversationId, .endPut k] = some w' ∧ ¬ StaysForgotten w' := by
  have hread := hsound.calls call (mem_of_getElem? hcall)
  obtain ⟨rows, older, newer, hrows, htrim, hnewer⟩ := h.written hread.order
  obtain ⟨hr, hbound, hcases⟩ := h
  have hcall' : (HotCalls.forget w call.row.conversationId).writing[k]? = some call := hcall
  have hrun : run step w [.forget call.row.conversationId, .endPut k] = some
      { cache := update (HotCalls.forget w call.row.conversationId).cache call.row.conversationId
          (some (older ++ r :: newer))
        writing := w.writing.eraseIdx k
        stored := call.row :: w.stored
        forgotten := (HotCalls.forget w call.row.conversationId).forgotten.filter fun row => row ≠ call.row } := by
    simp only [run_cons, run_nil, HotCalls.step, HotCalls.endPut, hcall', hrows, Option.map_some, Option.bind_some, htrim]
    rfl
  refine ⟨_, hrun, not_staysForgotten (update_self _ _ _) ?_ hbound hnewer ?_⟩
  · exact htrim ▸ (insert_ascending hread.order hrows).sublist (trim_sublist rows)
  · refine mem_filter.2 ⟨mem_append_left _ (mem_filter.2 ⟨hread.completed r hr, ?_⟩), ?_⟩
    · exact decide_eq_true (hread.own r hr)
    · have hne : r ≠ call.row := by
        rintro heq
        have := congrArg MessageRow.seq heq
        omega
      exact decide_eq_true hne

/-- In a run in which no `forget` lands in a put that will write back what it has read, what was forgotten is not served
until it is put again. One that lands in a put of the next message, or of a late one, is undone by it. -/
theorem forgotten_not_served {as : List Action} (h : run step init as = some w) :
    (Meets step Careful init as → StaysForgotten w) ∧
      ∀ k call r, w.writing[k]? = some call → WritesBack call r →
        ∃ w', run step w [.forget call.row.conversationId, .endPut k] = some w' ∧ ¬ StaysForgotten w' := by
  refine ⟨fun hmeets => ?_, fun k call r hcall hback => ?_⟩
  · exact (run_invariant_of_meets Clean.step clean_init hmeets h).staysForgotten
  · exact hback.undone (run_invariant Sound.step sound_init h) hcall

def sampleRow (seq : Int) : MessageRow := ⟨7, seq, "soundcloud:users:1", some [1, 2], none⟩

def separateRun : List Action :=
  [.beginPut (sampleRow 1), .endPut 0, .forget 7, .beginPut (sampleRow 2), .endPut 0]

instance (w : World) : DecidablePred (Careful w)
  | .forget _ => inferInstanceAs (Decidable (∀ call ∈ w.writing, _ → _))
  | .beginPut _ | .endPut _ | .evict _ => isTrue trivial

theorem forgotten_not_served_separate :
    ∃ w, run step init separateRun = some w ∧ Meets step Careful init separateRun ∧ sampleRow 1 ∈ w.forgotten ∧
      StaysForgotten w ∧ w.cache.after 0 7 0 = none ∧ w.cache.after 0 7 1 = some [sampleRow 2] := by
  have hmeets : Meets step Careful init separateRun := by decide
  exact ⟨_, rfl, hmeets, by decide, (forgotten_not_served rfl).1 hmeets, by decide, by decide⟩

/-- The conversation is forgotten while the second message is being put, and the first one is served afterwards. -/
theorem forgotten_served_again :
    ∃ w, run step init [.beginPut (sampleRow 1), .endPut 0, .beginPut (sampleRow 2), .forget 7, .endPut 0] = some w ∧
      sampleRow 1 ∈ w.forgotten ∧ w.cache.after 0 7 0 = some [sampleRow 1, sampleRow 2] :=
  ⟨_, rfl, by decide, by decide⟩

end SC.Proof.Chat.HotCalls
