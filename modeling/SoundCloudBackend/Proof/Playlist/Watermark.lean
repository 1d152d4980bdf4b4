import Mathlib.Data.List.Nodup
import SoundCloudBackend.Framework.Run
import SoundCloudBackend.Impl.Playlist.Observe
import SoundCloudBackend.Proof.Playlist.Reduction

/-!
# The watermark of the journal

`committed_operation_sequence` is moved by three rules: a refused append moves it
over the refused rows if nothing was open, `committed_prefix` moves it over the
resolved operations at the front of a replay, and `complete_state.sql` moves it
up to the first open row. `Sound` says that nothing open lies at or below it, and
every transaction keeps it; `completeState` makes it exact (`Balanced`) whatever
it was before, and an append keeps it exact.
-/

namespace SC.Proof.Playlist

open Impl.Playlist
open List Option Bool

variable {s s' : MembershipState} {ops ops' : List JournalRow} {j j' : Journal}
variable {o o' : JournalRow} {snapshot : PlaylistSnapshot} {result : PersistResult}

/-- Sequences are unique and at most the last one, and what is not resolved lies above the watermark. -/
structure Sound (s : MembershipState) (ops : List JournalRow) : Prop where
  unique : (ops.map JournalRow.sequence).Nodup
  bounded : ∀ o ∈ ops, o.sequence ≤ s.lastOperationSequence
  resolved : ∀ o ∈ ops, o.sequence ≤ s.committedOperationSequence → o.resolvedAt.isSome
  ordered : s.committedOperationSequence ≤ s.lastOperationSequence

/-- The watermark is behind exactly if an operation is not resolved. -/
def Balanced (s : MembershipState) (ops : List JournalRow) : Prop :=
  s.lastOperationSequence > s.committedOperationSequence ↔ ∃ o ∈ ops, o.resolvedAt = none

/-- The rows of the playlist are sound; without a state row there are no operations. -/
structure JournalSound (j : Journal) : Prop where
  empty : j.state = none → j.operations = []
  sound : ∀ s, j.state = some s → Sound s j.operations

def JournalBalanced (j : Journal) : Prop :=
  ∀ s, j.state = some s → Balanced s j.operations

theorem Sound.eq_of_sequence (h : Sound s ops) (ho : o ∈ ops) (ho' : o' ∈ ops)
    (hseq : o.sequence = o'.sequence) : o = o' :=
  inj_on_of_nodup_map h.unique ho ho' hseq

/-! ## Appending -/

theorem sequence_le_base (ho : o ∈ ops) : o.sequence ≤ baseSequence s ops := by
  obtain ⟨m, hm⟩ : ∃ m, (ops.map JournalRow.sequence).max? = some m := by
    rw [← isSome_iff_exists, isSome_max?_iff]
    exact ne_nil_of_mem (mem_map_of_mem ho)
  have hle := (List.max?_le_iff hm).1 (Int.le_refl m) _ (mem_map_of_mem ho)
  rw [baseSequence, hm, getD_some]
  exact Int.le_trans hle (Int.le_max_right _ _)

theorem last_le_base (s : MembershipState) (ops : List JournalRow) : s.lastOperationSequence ≤ baseSequence s ops :=
  Int.le_max_left _ _

theorem mem_appendedRows {at_ base : Int} {refusal : Option String} {subs : List Submitted}
    (ho : o ∈ appendedRows at_ base refusal subs) :
    base < o.sequence ∧ o.sequence ≤ base + subs.length ∧ (o.resolvedAt = none ↔ refusal = none) := by
  obtain ⟨⟨sub, i⟩, hi, rfl⟩ := mem_map.1 ho
  have hlt := snd_lt_of_mem_zipIdx hi
  simp only at hlt
  refine ⟨by simp only; omega, by simp only; omega, ?_⟩
  cases refusal <;> simp

theorem appendedRows_sequences (at_ base : Int) (refusal : Option String) (subs : List Submitted) :
    (appendedRows at_ base refusal subs).map JournalRow.sequence =
      (List.range subs.length).map fun i => base + (i + 1 : Nat) := by
  rw [appendedRows, List.map_map, List.range_eq_range', ← List.zipIdx_map_snd 0 subs, List.map_map]
  rfl

theorem membershipOp_cases {args : MembershipOp} {out : OpOutput} (h : membershipOp j args = some (j', out)) :
    j' = ensureState j args.playlistExists ∨
      ∃ s refusal newTracks, (ensureState j args.playlistExists).state = some s ∧ args.operations ≠ [] ∧
        j'.state = some (appendState s (baseSequence s (ensureState j args.playlistExists).operations)
          args.operations.length refusal newTracks) ∧
        j'.operations = (ensureState j args.playlistExists).operations ++
          appendedRows args.at_ (baseSequence s (ensureState j args.playlistExists).operations) refusal
            args.operations := by
  simp only [membershipOp] at h
  generalize ensureState j args.playlistExists = e at h ⊢
  cases hs : e.state with
  | none =>
    simp only [hs, some.injEq, Prod.mk.injEq] at h
    exact .inl h.1.symm
  | some s =>
    cases hfirst : args.operations.head? with
    | none =>
      simp only [hs, hfirst, some.injEq, Prod.mk.injEq] at h
      exact .inl h.1.symm
    | some first =>
      have hne : args.operations ≠ [] := by
        intro hnil
        simp [hnil] at hfirst
      simp only [hs, hfirst] at h
      cases hfound : e.operations.find? fun o => o.idempotencyKey = first.idempotencyKey with
      | some replayed =>
        simp only [hfound] at h
        left
        split at h <;> simp only [some.injEq, Prod.mk.injEq] at h <;> exact h.1.symm
      | none =>
        simp only [hfound] at h
        right
        refine ⟨s, refusalOf s args, (args.operations.map Submitted.operation).foldl playlistMembershipApply e.projection,
          rfl, hne, ?_⟩
        split at h
        · cases h
        split at h <;> simp only [some.injEq, Prod.mk.injEq] at h <;> rw [← h.1] <;> exact ⟨rfl, rfl⟩

theorem ensureState_cases (j : Journal) (b : Bool) : ensureState j b = j ∨ (j.state = none ∧ ensureState j b =
      { j with state := some { projectionTrackCount := j.projection.length } }) := by
  rw [ensureState]
  cases hs : j.state with
  | some s => exact .inl rfl
  | none =>
    cases b with
    | false => exact .inl rfl
    | true => exact .inr ⟨rfl, rfl⟩

theorem ensureState_sound (h : JournalSound j) (b : Bool) : JournalSound (ensureState j b) := by
  rcases ensureState_cases j b with he | ⟨hnone, he⟩ <;> rw [he]
  · exact h
  · refine ⟨fun hs => by simp at hs, fun s hs => ?_⟩
    obtain rfl := some.inj hs
    rw [h.empty hnone]
    exact ⟨nodup_nil, by simp, by simp, Int.le_refl _⟩

theorem ensureState_balanced (h : JournalSound j) (hb : JournalBalanced j) (b : Bool) :
    JournalBalanced (ensureState j b) := by
  rcases ensureState_cases j b with he | ⟨hnone, he⟩ <;> rw [he]
  · exact hb
  · intro s hs
    obtain rfl := some.inj hs
    simp [Balanced, h.empty hnone]

section Append

variable {at_ : Int} {refusal : Option String} {subs : List Submitted} {newTracks : List TrackId}

/-- The watermark after an append: over everything if the append was refused and nothing was behind. -/
theorem committed_appendState (h : Sound s ops) (subs : List Submitted) (refusal : Option String)
    (newTracks : List TrackId) :
    ((appendState s (baseSequence s ops) subs.length refusal newTracks).committedOperationSequence =
        s.committedOperationSequence ∧
      (refusal = none ∨ s.committedOperationSequence < s.lastOperationSequence)) ∨
    ((appendState s (baseSequence s ops) subs.length refusal newTracks).committedOperationSequence =
        baseSequence s ops + subs.length ∧
      refusal ≠ none ∧ s.committedOperationSequence = s.lastOperationSequence) := by
  simp only [appendState]
  by_cases hr : refusal = none
  · exact .inl ⟨by simp [hr], .inl hr⟩
  · have hsome : refusal.isSome := isSome_iff_ne_none.2 hr
    by_cases hc : s.committedOperationSequence = s.lastOperationSequence
    · exact .inr ⟨by rw [if_pos ⟨hsome, hc⟩], hr, hc⟩
    · refine .inl ⟨by rw [if_neg fun h => hc h.2], .inr ?_⟩
      have := h.ordered
      omega

theorem append_sound (h : Sound s ops) : Sound (appendState s (baseSequence s ops) subs.length refusal newTracks)
      (ops ++ appendedRows at_ (baseSequence s ops) refusal subs) := by
  have hlast := last_le_base s ops
  have hordered := h.ordered
  refine ⟨?_, fun o ho => ?_, fun o ho hle => ?_, ?_⟩
  · rw [map_append, nodup_append, appendedRows_sequences]
    refine ⟨h.unique, List.Nodup.map (fun a b hab => by omega) nodup_range, ?_⟩
    intro a ha b hb
    obtain ⟨o, ho, rfl⟩ := mem_map.1 ha
    obtain ⟨i, -, rfl⟩ := mem_map.1 hb
    have := sequence_le_base (s := s) ho
    omega
  · show o.sequence ≤ baseSequence s ops + subs.length
    rcases mem_append.1 ho with ho | ho
    · have := sequence_le_base (s := s) ho
      omega
    · exact (mem_appendedRows ho).2.1
  · rcases committed_appendState h subs refusal newTracks with
      ⟨hc, -⟩ | ⟨hc, hr, heq⟩ <;> rw [hc] at hle <;> rcases mem_append.1 ho with ho | ho
    · exact h.resolved o ho hle
    · have := (mem_appendedRows ho).1
      omega
    · exact h.resolved o ho (heq ▸ h.bounded o ho)
    · exact isSome_iff_ne_none.2 fun hn => hr ((mem_appendedRows ho).2.2.1 hn)
  · show _ ≤ baseSequence s ops + subs.length
    rcases committed_appendState h subs refusal newTracks with
      ⟨hc, -⟩ | ⟨hc, -⟩
    · rw [hc]
      omega
    · exact Int.le_of_eq hc

theorem append_committed_le (h : Sound s ops) : s.committedOperationSequence ≤
    (appendState s (baseSequence s ops) subs.length refusal newTracks).committedOperationSequence := by
  have hlast := last_le_base s ops
  have hordered := h.ordered
  rcases committed_appendState h subs refusal newTracks with
    ⟨hc, -⟩ | ⟨hc, -⟩
  · exact Int.le_of_eq hc.symm
  · rw [hc]
    omega

theorem append_balanced (h : Sound s ops) (hb : Balanced s ops) (hne : subs ≠ []) :
    Balanced (appendState s (baseSequence s ops) subs.length refusal newTracks)
      (ops ++ appendedRows at_ (baseSequence s ops) refusal subs) := by
  have hlast := last_le_base s ops
  have hordered := h.ordered
  have hpos : 0 < subs.length := length_pos_iff.2 hne
  have hlast' : (appendState s (baseSequence s ops) subs.length refusal newTracks).lastOperationSequence =
      baseSequence s ops + subs.length := rfl
  rw [Balanced, hlast']
  rcases committed_appendState h subs refusal newTracks with
    ⟨hc, hopen⟩ | ⟨hc, hr, heq⟩ <;> rw [hc]
  · refine iff_of_true (by omega) ?_
    rcases hopen with rfl | hbehind
    · obtain ⟨o, ho⟩ : ∃ o, o ∈ appendedRows at_ (baseSequence s ops) none subs :=
        exists_mem_of_ne_nil _ (by simp [appendedRows, hne])
      exact ⟨o, mem_append_right _ ho, (mem_appendedRows ho).2.2.2 rfl⟩
    · obtain ⟨o, ho, hopen⟩ := hb.1 hbehind
      exact ⟨o, mem_append_left _ ho, hopen⟩
  · refine iff_of_false (by omega) ?_
    rintro ⟨o, ho, hopen⟩
    rcases mem_append.1 ho with ho | ho
    · have := hb.2 ⟨o, ho, hopen⟩
      omega
    · exact hr ((mem_appendedRows ho).2.2.1 hopen)

end Append

/-! ## Resolving -/

theorem mem_resolveOperations {now : Int} {resolved : List ResolvedOperation} :
    o' ∈ resolveOperations now resolved ops → ∃ o ∈ ops, o'.sequence = o.sequence ∧
      (o'.resolvedAt = none → o.resolvedAt = none ∧
        ∀ r ∈ resolved, r.resolution.isTerminal → r.operationId ≠ o.operationId) := by
  intro h
  obtain ⟨o, ho, rfl⟩ := mem_map.1 h
  refine ⟨o, ho, ?_⟩
  cases hres : o.resolvedAt with
  | some t => simp [hres]
  | none =>
    simp only [isSome_none, false_eq_true, if_false]
    split
    · simp
    · rename_i hnone
      refine ⟨rfl, fun _ => ⟨trivial, fun r hr hterm hid => ?_⟩⟩
      rw [List.find?_eq_none] at hnone
      exact hnone r (mem_filter.2 ⟨hr, hterm⟩) (by simpa using hid)

theorem resolveOperations_sequences (now : Int) (resolved : List ResolvedOperation) (ops : List JournalRow) :
    (resolveOperations now resolved ops).map JournalRow.sequence = ops.map JournalRow.sequence := by
  rw [resolveOperations, List.map_map]
  refine List.map_congr_left fun o _ => ?_
  simp only [Function.comp]
  split
  · rfl
  · split <;> rfl

theorem committedPrefix_spec (resolved : List ResolvedOperation) (w : Int) :
    ∃ pre rest, resolved = pre ++ rest ∧ (∀ p ∈ pre, p.resolution.isTerminal) ∧
      (committedPrefix resolved w = w ∨ ∃ p ∈ pre, committedPrefix resolved w = p.sequence) := by
  induction resolved generalizing w with
  | nil => exact ⟨[], [], rfl, by simp, .inl rfl⟩
  | cons r resolved ih =>
    by_cases hr : r.resolution.isTerminal
    · obtain ⟨pre, rest, rfl, hterm, hw⟩ := ih (max w r.sequence)
      refine ⟨r :: pre, rest, rfl, ?_, ?_⟩
      · intro p hp
        rcases mem_cons.1 hp with rfl | hp
        · exact hr
        · exact hterm p hp
      · rw [committedPrefix, if_pos hr]
        rcases hw with hw | ⟨p, hp, hw⟩
        · rw [hw]
          by_cases hle : w ≤ r.sequence
          · exact .inr ⟨r, mem_cons_self, Int.max_eq_right hle⟩
          · exact .inl (Int.max_eq_left (by omega))
        · exact .inr ⟨p, mem_cons_of_mem _ hp, hw⟩
    · exact ⟨[], r :: resolved, rfl, by simp, .inl (by rw [committedPrefix, if_neg hr])⟩

/-- A reconciliation that may be written: its watermark does not pass the last sequence, and
everything open up to it is resolved. -/
structure Reconciles (s : MembershipState) (ops : List JournalRow) (r : Reconciliation) : Prop where
  bounded : r.committedThroughSequence ≤ s.lastOperationSequence
  resolved : ∀ o ∈ ops, o.resolvedAt = none → o.sequence ≤ r.committedThroughSequence →
    ∃ p ∈ r.operations, p.resolution.isTerminal ∧ p.operationId = o.operationId

theorem reconciles_of_kept (h : Sound s ops) {r : Reconciliation}
    (hr : r.committedThroughSequence = s.committedOperationSequence) : Reconciles s ops r where
  bounded := hr ▸ h.ordered
  resolved o ho hopen hle := by
    have := h.resolved o ho (hr ▸ hle)
    simp [hopen] at this

/-- A sorted list of resolutions, one for each open row, covers the rows up to its terminal prefix. -/
theorem reconciles_of_prefix (h : Sound s ops) {r : Reconciliation}
    (hsorted : r.operations.Pairwise fun a b => a.sequence ≤ b.sequence)
    (hfrom : ∀ p ∈ r.operations, ∃ o ∈ ops, o.operationId = p.operationId ∧ o.sequence = p.sequence)
    (hall : ∀ o ∈ ops, o.resolvedAt = none → ∃ p ∈ r.operations, p.operationId = o.operationId ∧ p.sequence = o.sequence)
    (hr : r.committedThroughSequence = committedPrefix r.operations s.committedOperationSequence) :
    Reconciles s ops r := by
  obtain ⟨pre, rest, hsplit, hterm, hw⟩ := committedPrefix_spec r.operations s.committedOperationSequence
  have hpre : ∀ p ∈ pre, p ∈ r.operations := fun p hp => hsplit ▸ mem_append_left _ hp
  rw [← hr] at hw
  rcases hw with hw | ⟨p, hp, hw⟩
  · exact reconciles_of_kept h hw
  · refine ⟨?_, fun o ho hopen hle => ?_⟩
    · obtain ⟨o, ho, -, hseq⟩ := hfrom p (hpre p hp)
      rw [hw, ← hseq]
      exact h.bounded o ho
    · obtain ⟨q, hq, hqid, hqseq⟩ := hall o ho hopen
      rw [hsplit] at hq
      rcases mem_append.1 hq with hq | hq
      · exact ⟨q, hpre q hq, hterm q hq, hqid⟩
      · -- a row behind the prefix has a sequence at least as great, so the two rows are the same
        rw [hsplit, pairwise_append] at hsorted
        have hpq := hsorted.2.2 p hp q hq
        obtain ⟨o', ho', hid', hseq'⟩ := hfrom p (hpre p hp)
        have heq : o' = o := h.eq_of_sequence ho' ho (by omega)
        exact ⟨p, hpre p hp, hterm p hp, by rw [← hid', heq]⟩

theorem minUnresolved_spec (ops : List JournalRow) : (minUnresolved ops = none ∧ ∀ o ∈ ops, o.resolvedAt ≠ none) ∨
      ∃ o ∈ ops, o.resolvedAt = none ∧ minUnresolved ops = some o.sequence ∧
        ∀ o' ∈ ops, o'.resolvedAt = none → o.sequence ≤ o'.sequence := by
  rw [minUnresolved]
  cases hmin : ((ops.filter fun o => o.resolvedAt.isNone).map JournalRow.sequence).min? with
  | none =>
    rw [List.min?_eq_none_iff, map_eq_nil_iff, filter_eq_nil_iff] at hmin
    exact .inl ⟨rfl, fun o ho hopen => hmin o ho (by simp [hopen])⟩
  | some m =>
    obtain ⟨hmem, hle⟩ := List.min?_eq_some_iff.1 hmin
    obtain ⟨o, ho, rfl⟩ := mem_map.1 hmem
    rw [mem_filter, isNone_iff_eq_none] at ho
    refine .inr ⟨o, ho.1, ho.2, rfl, fun o' ho' hopen => hle _ (mem_map_of_mem ?_)⟩
    exact mem_filter.2 ⟨ho', by simp [hopen]⟩

section Complete

variable {now : Int} {changed : Bool} {count : Int} {r : Reconciliation}

theorem open_above (h : Sound s ops) (hr : Reconciles s ops r)
    (ho' : o' ∈ resolveOperations now r.operations ops) (hopen : o'.resolvedAt = none) :
    s.committedOperationSequence < o'.sequence ∧ r.committedThroughSequence < o'.sequence := by
  obtain ⟨o, ho, hseq, hkeep⟩ := mem_resolveOperations ho'
  obtain ⟨hopen', hnot⟩ := hkeep hopen
  rw [hseq]
  constructor
  · by_contra hle
    have := h.resolved o ho (by omega)
    simp [hopen'] at this
  · by_contra hle
    obtain ⟨p, hp, hterm, hid⟩ := hr.resolved o ho hopen' (by omega)
    exact hnot p hp hterm hid

theorem complete_sound (h : Sound s ops) (hr : Reconciles s ops r) :
    Sound (completeState s (resolveOperations now r.operations ops) changed count r)
      (resolveOperations now r.operations ops) := by
  have hbounded : ∀ o' ∈ resolveOperations now r.operations ops, o'.sequence ≤ s.lastOperationSequence := by
    intro o' ho'
    obtain ⟨o, ho, hseq, -⟩ := mem_resolveOperations ho'
    exact hseq ▸ h.bounded o ho
  have hordered := h.ordered
  have hthrough := hr.bounded
  refine ⟨by rw [resolveOperations_sequences]; exact h.unique, hbounded, fun o ho hle => ?_, ?_⟩
  · rw [isSome_iff_ne_none]
    intro hopen
    obtain ⟨h₁, h₂⟩ := open_above h hr ho hopen
    simp only [completeState] at hle
    rcases minUnresolved_spec (resolveOperations now r.operations ops) with ⟨-, hnone⟩ | ⟨m, -, -, hm, hmin⟩
    · exact hnone o ho hopen
    · rw [hm, map_some, getD_some] at hle
      have := hmin o ho hopen
      omega
  · simp only [completeState]
    rcases minUnresolved_spec (resolveOperations now r.operations ops) with ⟨hm, -⟩ | ⟨m, hmem, -, hm, -⟩
    · rw [hm, map_none, getD_none]
      omega
    · have := hbounded m hmem
      rw [hm, map_some, getD_some]
      omega

theorem complete_balanced (h : Sound s ops) (hr : Reconciles s ops r) :
    Balanced (completeState s (resolveOperations now r.operations ops) changed count r)
      (resolveOperations now r.operations ops) := by
  have hsound : Sound (completeState s (resolveOperations now r.operations ops) changed count r)
      (resolveOperations now r.operations ops) := complete_sound h hr
  constructor
  · intro hlt
    rcases minUnresolved_spec (resolveOperations now r.operations ops) with ⟨hm, -⟩ | ⟨m, hmem, hopen, -⟩
    · simp only [completeState, hm, map_none, getD_none] at hlt
      omega
    · exact ⟨m, hmem, hopen⟩
  · rintro ⟨o, ho, hopen⟩
    have hle := hsound.bounded o ho
    by_contra hnot
    have := hsound.resolved o ho (by omega)
    simp [hopen] at this

theorem complete_committed_le : s.committedOperationSequence ≤
    (completeState s (resolveOperations now r.operations ops) changed count r).committedOperationSequence := by
  simp only [completeState]
  omega

end Complete

/-! ## The reconciliations -/

theorem mem_loadPendingOperations {through : Int} :
    o ∈ loadPendingOperations ops through ↔ o ∈ ops ∧ o.resolvedAt = none ∧ o.sequence ≤ through := by
  rw [loadPendingOperations, mem_mergeSort, mem_filter, and_eq_true, isNone_iff_eq_none,
    decide_eq_true_eq]

theorem sortBySequence_pairwise (resolved : List ResolvedOperation) :
    (sortBySequence resolved).Pairwise fun a b => a.sequence ≤ b.sequence := by
  have h := @pairwise_mergeSort _ (fun a b : ResolvedOperation => decide (a.sequence ≤ b.sequence))
    (fun a b c hab hbc => by simp only [decide_eq_true_eq] at *; omega)
    (fun a b => by simp only [or_eq_true, decide_eq_true_eq]; omega) resolved
  exact h.imp fun hab => by simpa using hab

theorem reducePending_reconciles {env : Surroundings} (h : Sound s ops) :
    Reconciles s ops (reducePendingOperations env (loadPendingOperations ops s.lastOperationSequence)
      s.committedOperationSequence snapshot) := by
  simp only [reducePendingOperations, reducedReconciliation]
  split
  · exact reconciles_of_kept h rfl
  · generalize hrows : loadPendingOperations ops s.lastOperationSequence = rows
    have hmem : ∀ {o}, o ∈ rows ↔ o ∈ ops ∧ o.resolvedAt = none ∧ o.sequence ≤ s.lastOperationSequence := by
      intro o
      rw [← hrows, mem_loadPendingOperations]
    generalize hpending : (rows.filterMap fun row => row.operation.intent.map fun intent =>
      (⟨row.operationId, row.sequence, intent⟩ : PendingOperation)) = pending
    have hkeys := operations_listed snapshot.trackIds pending s.committedOperationSequence
    refine reconciles_of_prefix h (sortBySequence_pairwise _) ?_ ?_ rfl
    · intro p hp
      rw [sortBySequence, mem_mergeSort, mem_append] at hp
      rcases hp with hp | hp
      · have hkey : (p.operationId, p.sequence) ∈ pending.map fun o => (o.operationId, o.sequence) :=
          hkeys ▸ mem_map_of_mem hp
        obtain ⟨q, hq, hqp⟩ := mem_map.1 hkey
        rw [← hpending] at hq
        obtain ⟨row, hrow, hintent⟩ := mem_filterMap.1 hq
        obtain ⟨i, -, rfl⟩ := map_eq_some_iff.1 hintent
        simp only [Prod.mk.injEq] at hqp
        exact ⟨row, (hmem.1 hrow).1, hqp⟩
      · obtain ⟨row, hrow, rfl⟩ := mem_map.1 hp
        exact ⟨row, (hmem.1 (mem_of_mem_filter hrow)).1, rfl, rfl⟩
    · intro o ho hopen
      have hrow : o ∈ rows := hmem.2 ⟨ho, hopen, h.bounded o ho⟩
      cases hintent : o.operation.intent with
      | some i =>
        have hq : (⟨o.operationId, o.sequence, i⟩ : PendingOperation) ∈ pending := by
          rw [← hpending]
          exact mem_filterMap.2 ⟨o, hrow, by rw [hintent]; rfl⟩
        have hkey := mem_map_of_mem (f := fun o : PendingOperation => (o.operationId, o.sequence)) hq
        rw [← hkeys] at hkey
        obtain ⟨p, hp, hpo⟩ := mem_map.1 hkey
        simp only [Prod.mk.injEq] at hpo
        refine ⟨p, ?_, hpo⟩
        rw [sortBySequence, mem_mergeSort]
        exact mem_append_left _ hp
      | none =>
        refine ⟨⟨o.operationId, o.sequence, .conflict operationMalformed⟩, ?_, rfl, rfl⟩
        rw [sortBySequence, mem_mergeSort]
        exact mem_append_right _ (mem_map.2 ⟨o, mem_filter.2 ⟨hrow, by simp [hintent]⟩, rfl⟩)

theorem reconcile_reconciles {env : Surroundings} {capture : ObservationCapture}
    (h : Sound s j.operations) (hfence : s.lastOperationSequence = capture.throughOperationSequence) :
    Reconciles s j.operations (reconcile env j s capture snapshot) := by
  simp only [reconcile, ← hfence]
  split
  · simp only [adoptLocalOverLegacy]
    split <;> exact reconciles_of_kept h rfl
  · split
    · exact reducePending_reconciles h
    · exact reconciles_of_kept h rfl

/-! ## Transactions -/

/-- What a transaction does to the state row and the operations: nothing, an append, or a reconciliation. -/
inductive JournalChange (j : Journal) : JournalAction → Journal → Prop where
  | append {args : MembershipOp} {j' : Journal} {s : MembershipState} {refusal : Option String}
      {newTracks : List TrackId} (hstate : (ensureState j args.playlistExists).state = some s)
      (hne : args.operations ≠ [])
      (hs : j'.state = some (appendState s (baseSequence s (ensureState j args.playlistExists).operations)
        args.operations.length refusal newTracks))
      (hops : j'.operations = (ensureState j args.playlistExists).operations ++
        appendedRows args.at_ (baseSequence s (ensureState j args.playlistExists).operations) refusal args.operations) :
      JournalChange j (.append args) j'
  | ensure {args : MembershipOp} {j' : Journal} (h : j' = ensureState j args.playlistExists) :
      JournalChange j (.append args) j'
  | persist {env : Surroundings} {capture : ObservationCapture} {snapshot : PlaylistSnapshot} {s : MembershipState}
      (hstate : j.state = some s) (hfence : s.lastOperationSequence = capture.throughOperationSequence) :
      JournalChange j (.persistSuccess env capture snapshot)
        (applyReconciliation env j s capture (reconcile env j s capture snapshot))
  | keep {a : JournalAction} {j' : Journal} (hops : j'.operations = j.operations)
      (hnone : j.state = none → j'.state = none)
      (hsome : ∀ s, j.state = some s → ∃ s', j'.state = some s' ∧
        s'.lastOperationSequence = s.lastOperationSequence ∧
        s'.committedOperationSequence = s.committedOperationSequence) :
      JournalChange j a j'

theorem lockRun_state {capture : ObservationCapture} {run : ReconcileRun} (h : lockRun j capture = some (run, s)) :
    j.state = some s := by
  obtain ⟨s', hs', hrun⟩ := bind_eq_some_iff.1 h
  obtain ⟨run', -, heq⟩ := bind_eq_some_iff.1 hrun
  cases heq
  exact hs'

theorem persistSuccess_cases {env : Surroundings} {capture : ObservationCapture}
    (h : persistSuccess env j capture snapshot = .ok (j', result)) :
    (result = .applied ∧ ∃ s, j.state = some s ∧ s.lastOperationSequence = capture.throughOperationSequence ∧
        j' = applyReconciliation env j s capture (reconcile env j s capture snapshot)) ∨
      (result ≠ .applied ∧ j'.state = j.state ∧ j'.operations = j.operations) := by
  simp only [persistSuccess] at h
  split at h
  · cases h
  split at h
  · cases h
  rename_i run s hlock
  have hstate := lockRun_state hlock
  split at h
  · cases h
    exact .inr ⟨by simp, rfl, rfl⟩
  · split at h
    · cases h
      exact .inr ⟨by simp, rfl, rfl⟩
    · split at h
      · cases h
        exact .inr ⟨by simp, rfl, rfl⟩
      · rename_i hfence
        cases h
        have hfence : fenceMatches run s env.owner capture = true := by simpa using hfence
        simp only [fenceMatches, decide_eq_true_eq] at hfence
        exact .inl ⟨rfl, s, hstate, hfence.2.2.2.2.2.1, rfl⟩

theorem persistFailure_cases {env : Surroundings} {capture : ObservationCapture} {failure : FailureObservation}
    (h : persistFailure env j capture failure = .ok (j', result)) :
    j'.operations = j.operations ∧ ∃ s, j.state = some s ∧ (j'.state = some s ∨
      j'.state = some { s with syncStatus := failure.stateStatus, conflictCode := failure.conflictCode }) := by
  simp only [persistFailure] at h
  split at h
  · cases h
  rename_i run s hlock
  have hstate := lockRun_state hlock
  split at h
  · cases h
    exact ⟨rfl, s, hstate, .inl hstate⟩
  · split at h <;> cases h
    · exact ⟨rfl, s, hstate, .inl hstate⟩
    · exact ⟨rfl, s, hstate, .inr rfl⟩

theorem capture_cases {env : Surroundings} {jobId : BitVec 128} {jobGeneration : Int}
    {ready : Option ObservationCapture} (h : capture env j jobId jobGeneration = .ok (j', ready)) :
    j'.operations = j.operations ∧ (j'.state = j.state ∨
      ∃ s generation, j.state = some s ∧ j'.state = some { s with reconcileGeneration := generation }) := by
  have hready : ∀ {env run s} {k : ObservationCapture → Journal × Option ObservationCapture},
      (do let ready ← readyCapture env run s; return k ready : Except RepositoryError _) = .ok (j', ready) →
        ∃ r, k r = (j', ready) := by
    intro env run s k h
    cases hr : readyCapture env run s with
    | error e => simp [hr, bind, Except.bind] at h
    | ok r =>
      simp only [hr, bind, Except.bind, pure, Except.pure, Except.ok.injEq] at h
      exact ⟨r, h⟩
  simp only [capture] at h
  split at h
  · cases h
    exact ⟨rfl, .inl rfl⟩
  · split at h
    · cases h
    rename_i s hs
    split at h
    · split at h
      · cases h
        exact ⟨rfl, .inl rfl⟩
      · split at h
        · cases h
          exact ⟨rfl, .inl rfl⟩
        · obtain ⟨r, hr⟩ := hready h
          cases hr
          exact ⟨rfl, .inl rfl⟩
    · obtain ⟨r, hr⟩ := hready h
      cases hr
      exact ⟨rfl, .inr ⟨s, _, hs, rfl⟩⟩

theorem journalStep_change {a : JournalAction} (h : journalStep j a = some j') : JournalChange j a j' := by
  have hfst : ∀ {β ε : Type} {x : Except ε (Journal × β)}, x.toOption.map Prod.fst = some j' →
      ∃ r, x = .ok (j', r) := by
    intro β ε x hx
    cases x with
    | error e => simp [Except.toOption] at hx
    | ok p =>
      obtain ⟨q, hq, rfl⟩ := map_eq_some_iff.1 hx
      cases hq
      exact ⟨p.2, rfl⟩
  cases a with
  | append args =>
    obtain ⟨⟨j₁, out⟩, hop, rfl⟩ := map_eq_some_iff.1 h
    rcases membershipOp_cases hop with hens | ⟨s, refusal, newTracks, hs, hne, hstate, hops⟩
    · exact .ensure hens
    · exact .append hs hne hstate hops
  | capture env jobId jobGeneration =>
    obtain ⟨r, hr⟩ := hfst h
    obtain ⟨hops, hstate | ⟨s, generation, hs, hstate⟩⟩ := capture_cases hr
    · exact .keep hops (fun hn => hstate.trans hn) fun s hs => ⟨s, hstate.trans hs, rfl, rfl⟩
    · refine .keep hops (fun hn => by simp [hn] at hs) fun s' hs' => ⟨_, hstate, ?_⟩
      obtain rfl := some.inj (hs.symm.trans hs')
      exact ⟨rfl, rfl⟩
  | persistSuccess env capture snapshot =>
    obtain ⟨r, hr⟩ := hfst h
    rcases persistSuccess_cases hr with ⟨-, s, hs, hfence, rfl⟩ | ⟨-, hstate, hops⟩
    · exact .persist hs hfence
    · exact .keep hops (fun hn => hstate.trans hn) fun s hs => ⟨s, hstate.trans hs, rfl, rfl⟩
  | persistFailure env capture failure =>
    obtain ⟨r, hr⟩ := hfst h
    obtain ⟨hops, s, hs, hstate⟩ := persistFailure_cases hr
    refine .keep hops (fun hn => by simp [hn] at hs) fun s' hs' => ?_
    obtain rfl := some.inj (hs.symm.trans hs')
    rcases hstate with hstate | hstate
    · exact ⟨s, hstate, rfl, rfl⟩
    · exact ⟨_, hstate, rfl, rfl⟩

/-! ## Runs -/

section Step

variable {a : JournalAction}

theorem change_sound (hc : JournalChange j a j') (h : JournalSound j) : JournalSound j' := by
  cases hc with
  | append hstate hne hs hops =>
    have hsound := (ensureState_sound h _).sound _ hstate
    refine ⟨fun hn => by simp [hn] at hs, fun s' hs' => ?_⟩
    obtain rfl := some.inj (hs.symm.trans hs')
    rw [hops]
    exact append_sound hsound
  | ensure hens => exact hens ▸ ensureState_sound h _
  | persist hstate hfence =>
    refine ⟨fun hn => by simp [applyReconciliation] at hn, fun s' hs' => ?_⟩
    obtain rfl := some.inj hs'
    have hsound := h.sound _ hstate
    exact complete_sound hsound (reconcile_reconciles hsound hfence)
  | keep hops hnone hsome =>
    cases hstate : j.state with
    | none =>
      refine ⟨fun _ => hops.trans (h.empty hstate), fun s' hs' => ?_⟩
      simp [hnone hstate] at hs'
    | some s =>
      obtain ⟨s', hs', hlast, hcommitted⟩ := hsome s hstate
      refine ⟨fun hn => by simp [hn] at hs', fun s'' hs'' => ?_⟩
      obtain rfl := some.inj (hs'.symm.trans hs'')
      have hsound := h.sound s hstate
      rw [hops]
      exact ⟨hsound.unique, hlast ▸ hsound.bounded, hcommitted ▸ hsound.resolved, by
        rw [hlast, hcommitted]; exact hsound.ordered⟩

theorem change_balanced (hc : JournalChange j a j') (h : JournalSound j) (hb : JournalBalanced j) :
    JournalBalanced j' := by
  cases hc with
  | append hstate hne hs hops =>
    have hsound := (ensureState_sound h _).sound _ hstate
    intro s' hs'
    obtain rfl := some.inj (hs.symm.trans hs')
    rw [hops]
    exact append_balanced hsound (ensureState_balanced h hb _ _ hstate) hne
  | ensure hens => exact hens ▸ ensureState_balanced h hb _
  | persist hstate hfence =>
    intro s' hs'
    obtain rfl := some.inj hs'
    have hsound := h.sound _ hstate
    exact complete_balanced hsound (reconcile_reconciles hsound hfence)
  | keep hops hnone hsome =>
    intro s'' hs''
    cases hstate : j.state with
    | none => simp [hnone hstate] at hs''
    | some s =>
      obtain ⟨s', hs', hlast, hcommitted⟩ := hsome s hstate
      obtain rfl := some.inj (hs'.symm.trans hs'')
      rw [Balanced, hops, hlast, hcommitted]
      exact hb s hstate

theorem change_committed_le (hc : JournalChange j a j') (h : JournalSound j) {s : MembershipState}
    (hs : j.state = some s) :
    ∃ s', j'.state = some s' ∧ s.committedOperationSequence ≤ s'.committedOperationSequence := by
  have hensure : ∀ b, (ensureState j b).state = some s ∧ (ensureState j b).operations = j.operations := by
    intro b
    rcases ensureState_cases j b with he | ⟨hnone, -⟩
    · rw [he]
      exact ⟨hs, rfl⟩
    · simp [hnone] at hs
  cases hc with
  | append hstate hne hs' hops =>
    obtain rfl := some.inj ((hensure _).1.symm.trans hstate)
    exact ⟨_, hs', append_committed_le ((ensureState_sound h _).sound _ hstate)⟩
  | ensure hens => exact ⟨s, hens ▸ (hensure _).1, Int.le_refl _⟩
  | persist hstate hfence =>
    obtain rfl := some.inj (hs.symm.trans hstate)
    exact ⟨_, rfl, complete_committed_le⟩
  | keep hops hnone hsome =>
    obtain ⟨s', hs', -, hcommitted⟩ := hsome s hs
    exact ⟨s', hs', Int.le_of_eq hcommitted.symm⟩

end Step

/-- In every run from a sound journal: sequences stay unique and bounded and nothing open lies at or
below the watermark, which never falls; a reconciliation leaves it exact whatever it was before, and an
append leaves it exact if it was. -/
theorem journal_watermark_exact {j₀ : Journal} {as : List JournalAction} (h₀ : JournalSound j₀)
    (hrun : run journalStep j₀ as = some j) : JournalSound j ∧ (JournalBalanced j₀ → JournalBalanced j) ∧
      ∀ a j', journalStep j a = some j' →
        (∀ s, j.state = some s →
          ∃ s', j'.state = some s' ∧ s.committedOperationSequence ≤ s'.committedOperationSequence) ∧
        (∀ env capture snapshot, a = .persistSuccess env capture snapshot →
          persistSuccess env j capture snapshot = .ok (j', .applied) → JournalBalanced j') ∧
        (∀ args, a = .append args → JournalBalanced j → JournalBalanced j') := by
  have hsound : JournalSound j := run_invariant (fun h hstep => change_sound (journalStep_change hstep) h) h₀ hrun
  refine ⟨hsound, fun hb₀ => ?_, fun a j' hstep => ⟨fun s hs => ?_, ?_, ?_⟩⟩
  · exact (run_invariant (I := fun j => JournalSound j ∧ JournalBalanced j)
      (fun h hstep => ⟨change_sound (journalStep_change hstep) h.1, change_balanced (journalStep_change hstep) h.1 h.2⟩)
      ⟨h₀, hb₀⟩ hrun).2
  · exact change_committed_le (journalStep_change hstep) hsound hs
  · rintro env capture snapshot rfl happlied
    rcases persistSuccess_cases happlied with ⟨-, s, hs, hfence, rfl⟩ | ⟨hne, -⟩
    · intro s' hs'
      obtain rfl := some.inj hs'
      exact complete_balanced (hsound.sound s hs) (reconcile_reconciles (hsound.sound s hs) hfence)
    · exact absurd rfl hne
  · rintro args rfl hb
    exact change_balanced (journalStep_change hstep) hsound hb

theorem journalSound_empty (projection : List TrackId) : JournalSound (Journal.empty projection) :=
  ⟨fun _ => rfl, nofun⟩

theorem journalBalanced_empty (projection : List TrackId) : JournalBalanced (Journal.empty projection) :=
  nofun

def removeRequest : MembershipOp where
  at_ := 1
  operations := [⟨1, 2, (Operation.remove "a").row⟩]
  expectedProjectionRevision := none
  playlistExists := true
  actorOwns := true
  inCatalog := fun _ => true

def removeObserved : List JournalAction :=
  let env : Surroundings := ⟨false, some "7", true, fun _ => true, false, false, ["a"], 2, 9, fun _ => 0⟩
  [.append removeRequest, .capture env 5 1, .persistSuccess env ⟨9, 5, 1, "7", 1, 0, 1⟩ ⟨"7", [], [], 0⟩]

/-- The remove of the only track is appended, and committed by a reconciliation that finds the track gone. -/
theorem journal_watermark_exact_append :
    ∃ j, run journalStep (Journal.empty ["a"]) removeObserved = some j ∧ JournalSound j ∧ JournalBalanced j ∧
      j.state.map (fun s => (s.lastOperationSequence, s.committedOperationSequence)) = some (1, 1) := by
  obtain ⟨j, hj, hstate⟩ := bind_eq_some_iff.1
    (show (run journalStep (Journal.empty ["a"]) removeObserved).bind
      (fun j => j.state.map fun s => (s.lastOperationSequence, s.committedOperationSequence)) = some (1, 1) by
        decide +kernel)
  have h := journal_watermark_exact (journalSound_empty ["a"]) hj
  exact ⟨j, hj, h.1, h.2.1 (journalBalanced_empty ["a"]), hstate⟩

end SC.Proof.Playlist
