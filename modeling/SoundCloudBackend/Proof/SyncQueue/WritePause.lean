import Mathlib.Algebra.Ring.Nat
import SoundCloudBackend.Framework.Run
import SoundCloudBackend.Impl.SyncQueue.WritePause

/-!
# A refused action goes out one probe at a time

An entry with a strike is only removed by a success, so that a refused action never goes out
unhindered (`Struck`). A probe moves the end of the pause to 120 seconds ahead, and every
operation but a success and a restored pause keeps it there (`perform_keeps_end`). A refusal
overwrites the end only where that is not earlier (`EntryOk`). The strikes count the refused
probes of a row, and the escalated pause follows them past the width of a shift (`longer_eq`).
-/

namespace SC.Proof.SyncQueue.WritePause

open Impl.SyncQueue.WritePause
open Option

variable {K : Type} [DecidableEq K] {entry : Option Pause} {p : Pause} {now : Nat} {op : Op}
variable {n : Nat} {seconds : Int}

def refuses : Op → Bool
  | .pauseRefused _ | .pauseLonger => true
  | _ => false

/-! ## Numbers -/

theorem fromSeconds_writePause : fromSeconds writePauseSeconds = 60 * second := by decide

theorem one_le_oneMore (strikes : Nat) : 1 ≤ oneMore strikes := by
  rw [oneMore, u32Max]
  omega

theorem two_pow_le_of_lt (h : n < 32) : 2 ^ n ≤ 2147483648 := by
  have : 2 ^ n ≤ 2 ^ 31 := Nat.pow_le_pow_right (by decide) (Nat.le_of_lt_succ h)
  simpa using this

theorem le_two_pow_of_le (h : 32 ≤ n) : 4294967296 ≤ 2 ^ n := by
  have : 2 ^ 32 ≤ 2 ^ n := Nat.pow_le_pow_right (by decide) h
  simpa using this

/-- The escalated pause after `n` strikes, also where the shift or the counter has reached its end. -/
theorem longer_eq (n : Nat) : longer (60 * second) (min n u32Max) = min (60 * 2 ^ n) 7200 * second := by
  by_cases hn : n < 32
  · have hmin : min n u32Max = n := Nat.min_eq_left (by rw [u32Max]; omega)
    have hpow := two_pow_le_of_lt hn
    have hmul : checkedMul (60 * second) (2 ^ n) = some (60 * second * 2 ^ n) := if_pos (by rw [second, u64Max]; omega)
    rw [hmin, longer, checkedShl, if_pos hn, Nat.one_shiftLeft, getD_some, hmul, getD_some,
      ← Nat.mul_min_mul_right, Nat.mul_right_comm]
    rfl
  · have hpow := le_two_pow_of_le (Nat.not_lt.1 hn)
    have hmin : ¬ min n u32Max < 32 := by
      rw [u32Max]
      omega
    have hright : min (60 * 2 ^ n) 7200 = 7200 := Nat.min_eq_right (by omega)
    rw [longer, checkedShl, if_neg hmin, hright]
    rfl

theorem longer_le (base strikes : Nat) : longer base strikes ≤ maxPause := Nat.min_le_right _ _

theorem probeHold_le_longer {strikes : Nat} (h : 1 ≤ strikes) : probeHold ≤ longer (60 * second) strikes := by
  by_cases hlt : strikes < 32
  · have hmin : min strikes u32Max = strikes := Nat.min_eq_left (by rw [u32Max]; omega)
    have hpow : 2 ^ 1 ≤ 2 ^ strikes := Nat.pow_le_pow_right (by decide) h
    have heq := longer_eq strikes
    rw [hmin] at heq
    rw [heq, probeHold, second]
    omega
  · rw [longer, checkedShl, if_neg hlt]
    decide

/-! ## Entries -/

theorem hold_escalates (h : (p.probing || p.strikes == 0 || decide (p.until_ ≤ now)) = true) :
    hold (some p) now seconds true = (wholeSeconds (longer (fromSeconds seconds) p.strikes),
      ⟨now + longer (fromSeconds seconds) p.strikes, oneMore p.strikes, false⟩) :=
  if_pos h

theorem hold_lasts (h : (p.probing || p.strikes == 0 || decide (p.until_ ≤ now)) = false) :
    hold (some p) now seconds true =
      (wholeSeconds (fromSeconds seconds), { p with until_ := max p.until_ (now + fromSeconds seconds) }) :=
  if_neg fun hescalates => Bool.false_ne_true (h.symm.trans hescalates)

def Struck (entry : Option Pause) : Prop := ∃ p, entry = some p ∧ 1 ≤ p.strikes

theorem struck_of_refuses (entry : Option Pause) (now : Nat) (h : refuses op) : Struck (perform entry now op).2 := by
  cases op with
  | pauseRefused seconds => exact ⟨_, rfl, Nat.le_max_right _ _⟩
  | pauseLonger =>
    refine ⟨_, rfl, ?_⟩
    simp only [pauseLongerEachTime, hold, Bool.true_and]
    split
    · exact one_le_oneMore _
    · rename_i hno
      simp only [Bool.or_eq_true, beq_iff_eq, decide_eq_true_eq, not_or] at hno
      exact Nat.pos_of_ne_zero hno.1.2
  | admitKey | restore remaining strikes | succeeded => cases h

theorem Struck.perform (h : Struck entry) (hop : op ≠ .succeeded) : Struck (perform entry now op).2 := by
  obtain ⟨p, rfl, hp⟩ := h
  cases op with
  | admitKey =>
    simp only [Impl.SyncQueue.WritePause.perform, admitKey]
    split
    · exact ⟨p, rfl, hp⟩
    · rw [if_neg (by omega)]
      exact ⟨_, rfl, hp⟩
  | pauseRefused seconds | pauseLonger => exact struck_of_refuses _ _ rfl
  | restore remaining strikes => exact ⟨_, rfl, Nat.le_max_right _ _⟩
  | succeeded => exact absurd rfl hop

theorem Struck.not_opened (h : Struck entry) : (admitKey entry now).1 ≠ .opened := by
  obtain ⟨p, rfl, hp⟩ := h
  simp only [admitKey]
  split
  · simp
  · rw [if_neg (by omega)]
    simp

/-- The pause lasts at least to an instant, and the entry has a strike. -/
def Lasts (until_ : Nat) (entry : Option Pause) : Prop := ∃ p, entry = some p ∧ 1 ≤ p.strikes ∧ until_ ≤ p.until_

theorem perform_keeps_end {t : Nat} (h : Lasts (t + probeHold) entry) (ht : t ≤ now) (hsucceeded : op ≠ .succeeded)
    (hrestore : ∀ remaining strikes, op ≠ .restore remaining strikes) : Lasts (t + probeHold) (perform entry now op).2 := by
  obtain ⟨p, rfl, hp, hend⟩ := h
  cases op with
  | admitKey =>
    simp only [Impl.SyncQueue.WritePause.perform, admitKey]
    split
    · exact ⟨p, rfl, hp, hend⟩
    · rw [if_neg (by omega)]
      exact ⟨_, rfl, hp, Nat.add_le_add_right ht _⟩
  | pauseRefused seconds => exact ⟨_, rfl, Nat.le_max_right _ _, Nat.le_trans hend (Nat.le_max_left _ _)⟩
  | pauseLonger =>
    obtain ⟨q, hq, hstrikes⟩ := struck_of_refuses (some p) now (rfl : refuses .pauseLonger = true)
    refine ⟨q, hq, hstrikes, ?_⟩
    obtain rfl : (hold (some p) now writePauseSeconds true).2 = q := some.inj hq
    simp only [hold, Bool.true_and, entryOr, getD_some, fromSeconds_writePause]
    split
    · exact Nat.add_le_add ht (probeHold_le_longer hp)
    · exact Nat.le_trans hend (Nat.le_max_left _ _)
  | restore remaining strikes => exact absurd rfl (hrestore remaining strikes)
  | succeeded => exact absurd rfl hsucceeded

theorem lasts_of_probe (h : (admitKey entry now).1 = .probe) : Lasts (now + probeHold) (admitKey entry now).2 := by
  cases entry with
  | none => cases h
  | some p =>
    simp only [admitKey] at h ⊢
    split at h
    · cases h
    rename_i hover
    rw [if_neg hover]
    split_ifs at h with hstrikes
    rw [if_neg hstrikes]
    exact ⟨_, rfl, Nat.pos_of_ne_zero hstrikes, Nat.le_refl _⟩

theorem over_of_probe {until_ : Nat} (hlasts : Lasts until_ entry) (h : (admitKey entry now).1 = .probe) : until_ ≤ now := by
  obtain ⟨p, rfl, -, hend⟩ := hlasts
  simp only [admitKey] at h
  split_ifs at h
  omega

structure EntryOk (now : Nat) (p : Pause) : Prop where
  struck : 1 ≤ p.strikes
  bounded : p.until_ ≤ now + maxPause
  probe : p.probing = true → p.until_ ≤ now + probeHold

theorem EntryOk.later {now' : Nat} (h : EntryOk now p) (hle : now ≤ now') : EntryOk now' p where
  struck := h.struck
  bounded := Nat.le_trans h.bounded (Nat.add_le_add_right hle _)
  probe hp := Nat.le_trans (h.probe hp) (Nat.add_le_add_right hle _)

theorem maxPause_bounds : probeHold ≤ maxPause ∧ 60 * second ≤ maxPause := by decide

theorem entryOk_perform (h : ∀ p, entry = some p → EntryOk now p) {q : Pause} (hq : (perform entry now op).2 = some q) :
    EntryOk now q := by
  have hor : (entryOr entry now).until_ ≤ now + maxPause := by
    cases entry with
    | none => exact Nat.le_add_right _ _
    | some p => exact (h p rfl).bounded
  cases op with
  | admitKey =>
    cases entry with
    | none => cases hq
    | some p =>
      have hp := h p rfl
      simp only [perform, admitKey] at hq
      split at hq
      · cases hq
        exact hp
      · rw [if_neg (Nat.ne_of_gt hp.struck)] at hq
        cases hq
        exact ⟨hp.struck, Nat.add_le_add_left maxPause_bounds.1 _, fun _ => Nat.le_refl _⟩
  | pauseRefused seconds =>
    cases hq
    exact ⟨Nat.le_max_right _ _, Nat.max_le.2 ⟨hor, (Nat.add_le_add_left (Nat.min_le_right _ _) _)⟩, nofun⟩
  | pauseLonger =>
    obtain ⟨q', hq', hstrikes⟩ := struck_of_refuses entry now (rfl : refuses .pauseLonger = true)
    obtain rfl : q' = q := some.inj (hq'.symm.trans hq)
    obtain rfl : (hold entry now writePauseSeconds true).2 = q' := some.inj hq'
    refine ⟨hstrikes, ?_, ?_⟩
    · simp only [hold, Bool.true_and, fromSeconds_writePause]
      split
      · exact Nat.add_le_add_left (longer_le _ _) _
      · exact Nat.max_le.2 ⟨hor, (Nat.add_le_add_left maxPause_bounds.2 _)⟩
    · simp only [hold, Bool.true_and]
      split
      · exact nofun
      · rename_i hno
        simp only [Bool.or_eq_true, not_or] at hno
        exact fun hp => absurd hp hno.1.1
  | restore remaining strikes =>
    cases hq
    exact ⟨Nat.le_max_right _ _, Nat.add_le_add_left (Nat.min_le_right _ _) _, nofun⟩
  | succeeded => cases hq

theorem refusal_keeps_end (h : EntryOk now p) (hop : refuses op) :
    ∃ q, (perform (some p) now op).2 = some q ∧ p.until_ ≤ q.until_ := by
  cases op with
  | pauseRefused seconds => exact ⟨_, rfl, Nat.le_max_left _ _⟩
  | pauseLonger =>
    refine ⟨_, rfl, ?_⟩
    simp only [pauseLongerEachTime, hold, Bool.true_and, entryOr, getD_some, fromSeconds_writePause]
    split
    · -- the pause of a probe, or one that has run out
      rename_i hescalates
      have hlong := probeHold_le_longer h.struck
      simp only [Bool.or_eq_true, beq_iff_eq] at hescalates
      rcases hescalates with (hprobe | hzero) | hover
      · exact Nat.le_trans (h.probe hprobe) (Nat.add_le_add_left hlong _)
      · exact absurd hzero (Nat.ne_of_gt h.struck)
      · exact Nat.le_trans (of_decide_eq_true hover) (Nat.le_add_right _ _)
    · exact Nat.le_max_left _ _
  | admitKey | restore remaining strikes | succeeded => cases hop

/-! ## Runs -/

variable {w w' : WritePauses K} {k : K} {e : Event K} {events : List (Event K)}

theorem step_eq_some (h : step w e = some w') : w.now ≤ e.time ∧
    w' = ⟨e.time, Function.update w.paused e.key (perform (w.paused e.key) e.time e.op).2⟩ := by
  rw [step] at h
  split_ifs at h with hle
  exact ⟨hle, (some.inj h).symm⟩

theorem step_entry (h : step w e = some w') :
    w'.paused k = if e.key = k then (perform (w.paused k) e.time e.op).2 else w.paused k := by
  obtain ⟨-, rfl⟩ := step_eq_some h
  by_cases hk : e.key = k
  · subst hk
    simp
  · simp [hk, Function.update_of_ne (Ne.symm hk)]

theorem run_entry {I : Option Pause → Prop} {allowed : Op → Prop} {t : Nat}
    (hkeeps : ∀ entry now op, t ≤ now → allowed op → I entry → I (perform entry now op).2)
    (hallowed : ∀ e ∈ events, e.key = k → allowed e.op) (hI : I (w.paused k)) (ht : t ≤ w.now)
    (h : run step w events = some w') : I (w'.paused k) := by
  induction events generalizing w with
  | nil => cases h; exact hI
  | cons e events ih =>
    obtain ⟨w₁, h₁, h₂⟩ := bind_eq_some_iff.1 h
    obtain ⟨hfirst, hrest⟩ := List.forall_mem_cons.1 hallowed
    obtain ⟨hle, heq⟩ := step_eq_some h₁
    refine ih hrest ?_ ?_ h₂
    · rw [step_entry h₁]
      split
      · rename_i hk
        exact hkeeps _ _ _ (Nat.le_trans ht hle) (hfirst hk) hI
      · exact hI
    · rw [heq]
      exact Nat.le_trans ht hle

theorem run_entryOk (h : run step start events = some w) : ∀ k p, w.paused k = some p → EntryOk w.now p := by
  refine run_invariant (I := fun w : WritePauses K => ∀ k p, w.paused k = some p → EntryOk w.now p) ?_ ?_ h
  · intro w e w' hw hstep k p hp
    rw [step_entry hstep] at hp
    obtain ⟨hle, rfl⟩ := step_eq_some hstep
    split at hp
    · exact entryOk_perform (fun q hq => (hw k q hq).later hle) hp
    · exact (hw k p hp).later hle
  · nofun

/-! ## Rows of refused probes -/

def probing (w : WritePauses K) (k : K) : Bool := ((w.paused k).map Pause.probing).getD false

/-- A row of probes: the key is admitted, and refused while a probe is out or the pause lasts. -/
def InRow (k : K) (w : WritePauses K) (e : Event K) : Prop :=
  e.key = k → e.op = .admitKey ∨ e.op = .pauseLonger ∧ (probing w k ∨ ∃ p, w.paused k = some p ∧ e.time < p.until_)

/-- The number of probes of a key that are refused in a run. -/
def refusedProbes (k : K) : WritePauses K → List (Event K) → Nat
  | _, [] => 0
  | w, e :: events =>
    (if e.key = k ∧ e.op = .pauseLonger ∧ probing w k then 1 else 0) +
      match step w e with
      | some w' => refusedProbes k w' events
      | none => 0

/-- The entry of a row after `n` escalated refusals. -/
def Counts (n : Nat) (entry : Option Pause) : Prop := ∃ p, entry = some p ∧ 1 ≤ p.strikes ∧ p.strikes = min n u32Max

theorem oneMore_min (n : Nat) : oneMore (min n u32Max) = min (n + 1) u32Max := by
  rw [oneMore]
  omega

theorem Counts.admitKey (h : Counts n entry) : Counts n (perform entry now .admitKey).2 := by
  obtain ⟨p, rfl, hp, hn⟩ := h
  simp only [perform, Impl.SyncQueue.WritePause.admitKey]
  split
  · exact ⟨p, rfl, hp, hn⟩
  · rw [if_neg (by omega)]
    exact ⟨_, rfl, hp, hn⟩

theorem Counts.refused_probe {n : Nat} (h : Counts n (some p)) (hprobe : p.probing = true) :
    perform (some p) now .pauseLonger =
      (.refused (min (60 * 2 ^ n) 7200) (min (n + 1) u32Max),
        some ⟨now + min (60 * 2 ^ n) 7200 * second, min (n + 1) u32Max, false⟩) := by
  obtain ⟨q, hq, hstrikes, hn⟩ := h
  obtain rfl : p = q := some.inj hq
  have hlonger : longer (60 * second) p.strikes = min (60 * 2 ^ n) 7200 * second := by rw [hn, longer_eq]
  have hwhole : wholeSeconds (min (60 * 2 ^ n) 7200 * second) = min (60 * 2 ^ n) 7200 := by
    have hpos : 0 < 2 ^ n := Nat.pow_pos (by decide)
    have hdiv : min (60 * 2 ^ n) 7200 * second / second = min (60 * 2 ^ n) 7200 := Nat.mul_div_cancel _ (by decide)
    have hbounds : 1 ≤ min (60 * 2 ^ n) 7200 ∧ min (60 * 2 ^ n) 7200 ≤ 7200 := by
      omega
    rw [wholeSeconds, hdiv, i64Max]
    omega
  have hmore : oneMore p.strikes = min (n + 1) u32Max := by rw [hn, oneMore_min]
  have hescalates : (p.probing || p.strikes == 0 || decide (p.until_ ≤ now)) = true := by simp [hprobe]
  simp only [perform, pauseLongerEachTime, hold_escalates hescalates, fromSeconds_writePause, hlonger, hwhole, hmore]

theorem Counts.of_step (h : Counts n (w.paused k)) (hrow : InRow k w e) (hstep : step w e = some w') :
    Counts (n + if e.key = k ∧ e.op = .pauseLonger ∧ probing w k then 1 else 0) (w'.paused k) := by
  rw [step_entry hstep]
  by_cases hk : e.key = k
  · rw [if_pos hk]
    rcases hrow hk with hop | ⟨hop, hheld⟩
    · simp only [hop, reduceCtorEq, false_and, and_false, if_false, Nat.add_zero]
      exact h.admitKey
    · obtain ⟨p, hp, hstrikes, hn⟩ := h
      simp only [hk, hop, true_and]
      cases hprobe : p.probing with
      | true =>
        have hout : probing w k = true := by simp [probing, hp, hprobe]
        have hcounts : Counts n (some p) := ⟨p, rfl, hstrikes, hn⟩
        rw [hp, hcounts.refused_probe hprobe, if_pos hout]
        refine ⟨_, rfl, ?_, rfl⟩
        rw [← oneMore_min]
        exact one_le_oneMore _
      | false =>
        have hnone : ¬ probing w k = true := by simp [probing, hp, hprobe]
        obtain ⟨q, hq, hlasts⟩ := hheld.resolve_left hnone
        obtain rfl : p = q := some.inj (hp.symm.trans hq)
        rw [if_neg hnone, Nat.add_zero, hp]
        refine ⟨_, rfl, ?_⟩
        -- the pause lasts and no probe is out, so nothing escalates
        have hno : (p.probing || p.strikes == 0 || decide (p.until_ ≤ e.time)) = false := by
          simp only [hprobe, Bool.false_or, Bool.or_eq_false_iff, beq_eq_false_iff_ne, decide_eq_false_iff_not]
          omega
        simp only [pauseLongerEachTime, hold_lasts hno]
        exact ⟨hstrikes, hn⟩
  · simp only [hk, false_and, if_false, Nat.add_zero]
    exact h

theorem Counts.of_run (h : Counts n (w.paused k)) (hrow : Meets step (InRow k) w events)
    (hrun : run step w events = some w') : Counts (n + refusedProbes k w events) (w'.paused k) := by
  induction events generalizing w n with
  | nil => cases hrun; exact h
  | cons e events ih =>
    obtain ⟨w₁, h₁, h₂⟩ := bind_eq_some_iff.1 hrun
    have := ih (h.of_step hrow.1 h₁) (hrow.2 w₁ h₁) h₂
    rw [Nat.add_assoc] at this
    simpa only [refusedProbes, h₁] using this

structure OneProbeAtATime (k : K) (w : WritePauses K) : Prop where
  /-- From a refusal to the next success the action is not admitted as open. -/
  not_opened : ∀ e w₁ mid w₂ t, e.key = k → refuses e.op → step w e = some w₁ → run step w₁ mid = some w₂ →
    (∀ x ∈ mid, x.key = k → x.op ≠ .succeeded) → answer w₂ ⟨t, k, .admitKey⟩ ≠ .admission .opened
  /-- Two probes without a success or a restored pause between them are 120 seconds apart. -/
  apart : ∀ t₁ w₁ mid w₂ t₂, answer w ⟨t₁, k, .admitKey⟩ = .admission .probe → step w ⟨t₁, k, .admitKey⟩ = some w₁ →
    run step w₁ mid = some w₂ →
    (∀ x ∈ mid, x.key = k → x.op ≠ .succeeded ∧ ∀ remaining strikes, x.op ≠ .restore remaining strikes) →
    answer w₂ ⟨t₂, k, .admitKey⟩ = .admission .probe → t₁ + 120 * second ≤ t₂
  /-- A refusal does not make the pause end earlier. -/
  not_shorter : ∀ e w₁ p, e.key = k → refuses e.op → step w e = some w₁ → w.paused k = some p →
    ∃ q, w₁.paused k = some q ∧ p.until_ ≤ q.until_
  bounded : ∀ p, w.paused k = some p → p.until_ ≤ w.now + 7200 * second
  /-- A first escalated refusal pauses for a minute, and each refused probe after it twice as long, to two hours. -/
  row : ∀ t₀ w₁, w.paused k = none → step w ⟨t₀, k, .pauseLonger⟩ = some w₁ →
    answer w ⟨t₀, k, .pauseLonger⟩ = .refused 60 1 ∧
    ∀ mid w₂ t w₃, run step w₁ mid = some w₂ → Meets step (InRow k) w₁ mid → probing w₂ k →
      step w₂ ⟨t, k, .pauseLonger⟩ = some w₃ →
      ∃ strikes q, answer w₂ ⟨t, k, .pauseLonger⟩ = .refused (min (60 * 2 ^ (refusedProbes k w₁ mid + 1)) 7200) strikes ∧
        w₃.paused k = some q ∧ q.until_ = t + min (60 * 2 ^ (refusedProbes k w₁ mid + 1)) 7200 * second

omit [DecidableEq K] in
theorem probing_eq_true (h : probing w k = true) : ∃ p, w.paused k = some p ∧ p.probing = true := by
  rw [probing] at h
  cases hp : w.paused k with
  | none => simp [hp] at h
  | some p => exact ⟨p, rfl, by simpa [hp] using h⟩

theorem first_refusal (now : Nat) :
    perform none now .pauseLonger = (.refused 60 1, some ⟨now + 60 * second, 1, false⟩) := by
  have hlonger : longer (fromSeconds writePauseSeconds) 0 = 60 * second := by decide
  have hinserted : hold none now writePauseSeconds true = hold (some ⟨now, 0, false⟩) now writePauseSeconds true := rfl
  simp only [perform, pauseLongerEachTime, hinserted, hold_escalates (p := ⟨now, 0, false⟩) rfl, hlonger]
  rfl

/-- In every state of a run refused actions go out one probe at a time. -/
theorem one_probe_at_a_time (k : K) (events : List (Event K)) (w : WritePauses K) (h : run step start events = some w) :
    OneProbeAtATime k w := by
  have hok := run_entryOk h
  refine ⟨?_, ?_, ?_, fun p hp => (hok k p hp).bounded, ?_⟩
  · intro e w₁ mid w₂ t hk hop hstep hrun hmid hopened
    have hstruck : Struck (w₁.paused k) := by
      rw [step_entry hstep, if_pos hk]
      exact struck_of_refuses _ _ hop
    have := run_entry (fun _ _ _ _ hne hs => hs.perform hne) hmid hstruck (Nat.zero_le _) hrun
    exact this.not_opened (Answer.admission.inj hopened)
  · intro t₁ w₁ mid w₂ t₂ hprobe hstep hrun hmid hprobe'
    have hlasts : Lasts (t₁ + probeHold) (w₁.paused k) := by
      rw [step_entry hstep, if_pos rfl]
      exact lasts_of_probe (Answer.admission.inj hprobe)
    have hnow : t₁ ≤ w₁.now := by
      rw [(step_eq_some hstep).2]
    have hkeeps : ∀ entry now op, t₁ ≤ now → (op ≠ .succeeded ∧ ∀ remaining strikes, op ≠ .restore remaining strikes) →
        Lasts (t₁ + probeHold) entry → Lasts (t₁ + probeHold) (perform entry now op).2 :=
      fun _ _ _ hle hne hs => perform_keeps_end hs hle hne.1 hne.2
    have := run_entry hkeeps hmid hlasts hnow hrun
    exact over_of_probe this (Answer.admission.inj hprobe')
  · intro e w₁ p hk hop hstep hp
    rw [step_entry hstep, if_pos hk, hp]
    exact refusal_keeps_end ((hok k p hp).later (step_eq_some hstep).1) hop
  · intro t₀ w₁ hnone hstep
    refine ⟨by rw [answer, hnone, first_refusal], fun mid w₂ t w₃ hrun hrow hprobe hlast => ?_⟩
    have hfirst : Counts 1 (w₁.paused k) := by
      rw [step_entry hstep, if_pos rfl, hnone, first_refusal]
      exact ⟨_, rfl, Nat.le_refl _, rfl⟩
    obtain ⟨p, hp, hprobing⟩ := probing_eq_true hprobe
    have hcounts := hfirst.of_run hrow hrun
    rw [hp, Nat.add_comm] at hcounts
    have hrefused := @Counts.refused_probe p t _ hcounts hprobing
    rw [step_entry hlast, if_pos rfl, answer, hp, hrefused]
    exact ⟨_, _, rfl, rfl, rfl⟩

/-- A refusal, a refused probe a minute later, and the probe after its pause of two minutes. -/
def probedTwice : List (Event String) :=
  [⟨0, "likes", .pauseLonger⟩, ⟨60 * second, "likes", .admitKey⟩, ⟨61 * second, "likes", .pauseLonger⟩,
    ⟨181 * second, "likes", .admitKey⟩]

theorem one_probe_after_refusal :
    ∃ w, run step start probedTwice = some w ∧ probing w "likes" = true ∧ OneProbeAtATime "likes" w :=
  ⟨_, rfl, by decide, one_probe_at_a_time "likes" probedTwice _ rfl⟩

/-- A restored pause that has run out lets a second probe out at the instant of the first. -/
theorem restored_pause_lets_probe_out : ∃ w₁ w₂, run step start [⟨0, "likes", .pauseLonger⟩] = some w₁ ∧
      answer w₁ ⟨60 * second, "likes", .admitKey⟩ = .admission .probe ∧
      run step w₁ [⟨60 * second, "likes", .admitKey⟩, ⟨60 * second, "likes", .restore 0 1⟩] = some w₂ ∧
      answer w₂ ⟨60 * second, "likes", .admitKey⟩ = .admission .probe :=
  ⟨_, _, rfl, by decide, rfl, by decide⟩

end SC.Proof.SyncQueue.WritePause
