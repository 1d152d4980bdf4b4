import SoundCloudBackend.Framework.Run
import SoundCloudBackend.Impl.SyncQueue.Comment

/-!
# A queued comment is posted at most once

The claims of a row number its executions. At most one of them, the poster
`p`, has recorded an attempt that may have had an effect. The executions
claimed before it have lost the lease and can change nothing, and those claimed
after it have seen its attempt and never send. `Inv p` says so, and that the
POSTs of `p` that arrived or may still arrive are at most one. The poster is
the next claim as long as there is none.
-/

namespace SC.Proof.SyncQueue.Comment

open Impl.SyncQueue (Row Lease)
open Impl.SyncQueue.Comment
open Option Function

variable {r r' : Row} {m : Mutation} {l : Nat} {w : Worker}
variable {n : Nat} {next : Option Worker} {s' : Queue}

/-! ## Rows -/

/-- What a statement other than those on the attempt keeps: the generation, the attempt, and the lease unless
it is given up. -/
structure Kept (r r' : Row) : Prop where
  generation : r'.generation = r.generation
  attempted : r'.attempted = r.attempted
  lease : ∀ lease', r'.lease = some lease' → ∃ lease, r.lease = some lease ∧ lease'.id = lease.id

theorem Kept.refl (r : Row) : Kept r r := ⟨rfl, rfl, fun lease h => ⟨lease, h, rfl⟩⟩

theorem Kept.of_released (hg : r'.generation = r.generation) (ha : r'.attempted = r.attempted)
    (hl : r'.lease = none) : Kept r r' :=
  ⟨hg, ha, fun lease' h => by rw [hl] at h; cases h⟩

theorem kept_forceDue (r : Row) : Kept r r.forceDue := by
  unfold Row.forceDue
  split
  · exact .of_released rfl rfl rfl
  · exact .refl r

theorem kept_adopt (r : Row) : Kept r (if r.fresh then r.adopt else r) := by
  split
  · exact ⟨rfl, rfl, fun lease h => ⟨lease, h, rfl⟩⟩
  · exact .refl r

theorem kept_release (m : Mutation) (r : Row) : Kept r (m.release r) := by
  unfold Mutation.release
  split
  · exact .of_released rfl rfl rfl
  · exact .refl r

theorem kept_finalize (h : m.finalize r = some r') : Kept r r' := by
  unfold Mutation.finalize at h
  split_ifs at h
  cases h
  exact kept_release m r

theorem kept_recordRemoteSuccess (h : m.recordRemoteSuccess r = some r') : Kept r r' := by
  unfold Mutation.recordRemoteSuccess at h
  split_ifs at h
  cases h
  exact ⟨rfl, rfl, fun lease h => ⟨lease, h, rfl⟩⟩

theorem kept_postpone (h : m.postpone r = some r') : Kept r r' := by
  unfold Mutation.postpone at h
  split_ifs at h
  cases h
  exact .of_released rfl rfl rfl

theorem kept_park (h : m.park r = some r') : Kept r r' := by
  unfold Mutation.park at h
  split_ifs at h
  cases h
  exact .of_released rfl rfl rfl

theorem lease_of_owns (h : m.owns r = true) : ∃ lease, r.lease = some lease ∧ lease.id = m.leaseId := by
  obtain ⟨lease, hl, hm⟩ := (any_eq_true ..).1 h
  exact ⟨lease, hl, (of_decide_eq_true hm).1⟩

theorem recordRemoteAttempt_eq_some (h : m.recordRemoteAttempt r = some r') :
    m.owns r = true ∧ r' = { r with attempted := some m.generation } := by
  unfold Mutation.recordRemoteAttempt at h
  split_ifs at h with hr
  exact ⟨hr.1, (some.inj h).symm⟩

theorem postponeUnattempted_eq_some (h : m.postponeUnattempted r = some r') :
    m.owns r = true ∧ r' = { r with lease := none, attempted := none } := by
  unfold Mutation.postponeUnattempted at h
  split_ifs at h with hr
  exact ⟨hr.1, (some.inj h).symm⟩

/-! ## The invariant -/

/-- The phases of an execution without an attempt of its own. -/
def Calm : Phase → Prop
  | .ready _ | .sending .. | .renewing | .rejecting => False
  | _ => True

/-- The phases of an execution that has seen the attempt of another one. -/
def Late : Phase → Prop
  | .claimed | .finalizing | .ending .park | .ending .postpone | .releasing => True
  | _ => False

/-- The effects and the POST in flight of the poster, by its phase. -/
def Spends (effects : Nat) (inFlight : Bool) : Phase → Prop
  | .claimed | .checked => False
  | .ready _ | .renewing | .rejecting | .ending .postponeUnattempted => effects = 0 ∧ inFlight = false
  | .sending .. => effects + inFlight.toNat = 1
  | _ => True

/-- How the execution under the lease `l` stands to the poster `p`. -/
structure Fits (g : Int) (p : Nat) (effects : Nat) (inFlight : Bool) (l : Nat) (w : Worker) : Prop where
  early : l < p → Calm w.phase
  poster : l = p → Spends effects inFlight w.phase
  late : p < l → w.m.attempted = some g ∧ Late w.phase

/-- A worker under lease `l` posts generation `g`. -/
structure Runs (g : Int) (nextLease l : Nat) (w : Worker) : Prop where
  claimed : l < nextLease
  leaseId : w.m.leaseId = l
  generation : w.m.generation = g

/-- The row of generation `g`; the attempt of the poster stays recorded. -/
structure RowOk (g : Int) (p nextLease : Nat) (r : Row) : Prop where
  generation : r.generation = g
  attempted : p < nextLease → r.attempted = some g
  lease : ∀ lease, r.lease = some lease → lease.id + 1 = nextLease

/-- Only lease `p` may post, and the post was sent at most once, those under way included. -/
structure Inv (g : Int) (p : Nat) (s : Queue) : Prop where
  row : ∀ r, s.row = some r → RowOk g p s.nextLease r
  runs : ∀ l w, s.worker l = some w → Runs g s.nextLease l w
  fits : ∀ l w, s.worker l = some w → Fits g p s.effects (s.inFlight p) l w
  bound : p ≤ s.nextLease
  inFlight : ∀ l, s.inFlight l = true → l = p ∧ p < s.nextLease
  spent : s.effects + (s.inFlight p).toNat ≤ 1
  unspent : p = s.nextLease → s.effects = 0

variable {g : Int} {p : Nat} {s : Queue}

theorem RowOk.kept (h : RowOk g p n r) (hk : Kept r r') : RowOk g p n r' where
  generation := hk.generation.trans h.generation
  attempted := fun hp => hk.attempted.trans (h.attempted hp)
  lease := fun lease' hl => by
    obtain ⟨lease, hr, hid⟩ := hk.lease lease' hl
    rw [hid]
    exact h.lease lease hr

theorem RowOk.owner (h : RowOk g p n r) (hw : Runs g n l w) (ho : w.m.owns r = true) : l + 1 = n := by
  obtain ⟨lease, hl, hid⟩ := lease_of_owns ho
  rw [← hw.leaseId, ← hid]
  exact h.lease lease hl

theorem Runs.phase {n : Nat} (h : Runs g n l w) (phase : Phase) :
    Runs g n l { w with phase := phase } := ⟨h.claimed, h.leaseId, h.generation⟩

theorem Inv.setRow (h : Inv g p s) {row : Option Row}
    (hrow : ∀ r', row = some r' → ∃ r, s.row = some r ∧ Kept r r') : Inv g p { s with row := row } :=
  { h with
    row := fun r' hr' => by
      obtain ⟨r, hr, hk⟩ := hrow r' hr'
      exact (h.row r hr).kept hk }

theorem worker_setWorker {l' : Nat}
    (h : (s.setWorker l next).worker l' = some w) : (l' = l ∧ next = some w) ∨ (l' ≠ l ∧ s.worker l' = some w) := by
  by_cases hl : l' = l
  · subst hl
    exact .inl ⟨rfl, by simpa [Queue.setWorker] using h⟩
  · exact .inr ⟨hl, by simpa [Queue.setWorker, hl] using h⟩

theorem Inv.setWorker (h : Inv g p s)
    (hnext : ∀ w, next = some w → Runs g s.nextLease l w ∧ Fits g p s.effects (s.inFlight p) l w) :
    Inv g p (s.setWorker l next) :=
  { h with
    runs := fun l' w hw => by
      rcases worker_setWorker hw with ⟨rfl, hnew⟩ | ⟨-, hold⟩
      · exact (hnext w hnew).1
      · exact h.runs l' w hold
    fits := fun l' w hw => by
      rcases worker_setWorker hw with ⟨rfl, hnew⟩ | ⟨-, hold⟩
      · exact (hnext w hnew).2
      · exact h.fits l' w hold }

theorem Inv.not_inFlight (h : Inv g p s) (hp : p = s.nextLease) (l : Nat) : s.inFlight l = false := by
  cases hl : s.inFlight l with
  | false => rfl
  | true =>
    have := (h.inFlight l hl).2
    omega

theorem Inv.perform (h : Inv g p s) (hw : s.worker l = some w) {next : Option Worker}
    {statement : Row → Option Row} (hkept : ∀ r r', statement r = some r' → Kept r r')
    (hnext : ∀ w', next = some w' → Runs g s.nextLease l w' ∧ Fits g p s.effects (s.inFlight p) l w')
    (hrelease : Fits g p s.effects (s.inFlight p) l { w with phase := .releasing }) :
    Inv g p (s.perform l w statement next) := by
  unfold Queue.perform
  split
  · rename_i r' hr'
    obtain ⟨r, hr, hs⟩ := bind_eq_some_iff.1 hr'
    refine Inv.setWorker (h.setRow fun r'' hr'' => ?_) hnext
    cases hr''
    exact ⟨r, hr, hkept r r' hs⟩
  · refine h.setWorker fun w' hw' => ?_
    cases hw'
    exact ⟨(h.runs l w hw).phase _, hrelease⟩

/-! ## Phases -/

section
variable {effects : Nat} {inFlight : Bool} {l : Nat} {w : Worker}

theorem Fits.releasing (h : Fits g p effects inFlight l w) :
    Fits g p effects inFlight l { w with phase := .releasing } :=
  ⟨fun _ => trivial, fun _ => trivial, fun hl => ⟨(h.late hl).1, trivial⟩⟩

theorem Fits.ending {e : Ending} (h : Fits g p effects inFlight l w) (he : e ≠ .postponeUnattempted) :
    Fits g p effects inFlight l { w with phase := .ending e } := by
  cases e with
  | postponeUnattempted => exact absurd rfl he
  | postpone | park => exact ⟨fun _ => trivial, fun _ => trivial, fun hl => ⟨(h.late hl).1, trivial⟩⟩

theorem Fits.finalizing (h : Fits g p effects inFlight l w) :
    Fits g p effects inFlight l { w with phase := .finalizing } :=
  ⟨fun _ => trivial, fun _ => trivial, fun hl => ⟨(h.late hl).1, trivial⟩⟩

theorem Fits.early_of_checked (h : Fits g p effects inFlight l w) (hw : w.phase = .checked) : l < p := by
  rcases Nat.lt_trichotomy l p with hl | hl | hl
  · exact hl
  · have := h.poster hl
    rw [hw] at this
    exact this.elim
  · have := (h.late hl).2
    rw [hw] at this
    exact this.elim

theorem Fits.spends {phase : Phase} (h : Fits g p effects inFlight l w) (hw : w.phase = phase) (hc : ¬Calm phase)
    (hl : ¬Late phase) : l = p ∧ Spends effects inFlight phase := by
  subst hw
  rcases Nat.lt_trichotomy l p with hlt | heq | hgt
  · exact absurd (h.early hlt) hc
  · exact ⟨heq, h.poster heq⟩
  · exact absurd (h.late hgt).2 hl

theorem Fits.of_poster {phase : Phase} (hl : l = p) (hs : Spends effects inFlight phase) :
    Fits g p effects inFlight l { w with phase := phase } :=
  ⟨fun h => absurd hl (by omega), fun _ => hs, fun h => absurd hl (by omega)⟩

theorem Fits.of_early {phase : Phase} (hl : l < p) (hc : Calm phase) :
    Fits g p effects inFlight l { w with phase := phase } :=
  ⟨fun _ => hc, fun h => by omega, fun h => by omega⟩

theorem Fits.of_ne (h : Fits g p effects inFlight l w) (hl : l ≠ p) (effects' : Nat) (inFlight' : Bool) :
    Fits g p effects' inFlight' l w :=
  ⟨h.early, fun h' => absurd h' hl, h.late⟩

end

/-! ## Steps -/

theorem inv_claim (h : Inv g p s) (hr : s.row = some r) : ∃ p', Inv g p' (s.claim r) := by
  have hrow := h.row r hr
  have hruns : ∀ l w, (s.claim r).worker l = some w → Runs g (s.nextLease + 1) l w := by
    intro l w hw
    rcases worker_setWorker hw with ⟨rfl, hnew⟩ | ⟨-, hold⟩
    · cases hnew
      exact ⟨Nat.lt_succ_self _, rfl, hrow.generation⟩
    · have := h.runs l w hold
      exact ⟨Nat.lt_succ_of_lt this.claimed, this.leaseId, this.generation⟩
  rcases Nat.lt_or_eq_of_le h.bound with hp | hp
  · refine ⟨p, ?_, hruns, ?_, Nat.le_succ_of_le h.bound, ?_, h.spent, fun heq => ?_⟩
    · intro r' hr'
      cases hr'
      exact ⟨hrow.generation, fun _ => hrow.attempted hp, fun lease hl => by cases hl; rfl⟩
    · intro l w hw
      rcases worker_setWorker hw with ⟨rfl, hnew⟩ | ⟨-, hold⟩
      · cases hnew
        exact ⟨fun hlt => by omega, fun heq => by omega, fun _ => ⟨hrow.attempted hp, trivial⟩⟩
      · exact h.fits l w hold
    · exact fun l hl => ⟨(h.inFlight l hl).1, Nat.lt_succ_of_lt hp⟩
    · change p = s.nextLease + 1 at heq
      omega
  · refine ⟨s.nextLease + 1, ?_, hruns, ?_, Nat.le_refl _, ?_, ?_, fun _ => h.unspent hp⟩
    · intro r' hr'
      cases hr'
      exact ⟨hrow.generation, fun hlt => absurd hlt (Nat.lt_irrefl _), fun lease hl => by cases hl; rfl⟩
    · intro l w hw
      have hlt := (hruns l w hw).claimed
      refine ⟨fun _ => ?_, fun heq => by omega, fun hgt => by omega⟩
      rcases worker_setWorker hw with ⟨rfl, hnew⟩ | ⟨-, hold⟩
      · cases hnew
        trivial
      · exact (h.fits l w hold).early (hp ▸ (h.runs l w hold).claimed)
    · intro l hl
      have := (h.not_inFlight hp l).symm.trans hl
      cases this
    · change s.effects + (s.inFlight (s.nextLease + 1)).toNat ≤ 1
      rw [h.not_inFlight hp, h.unspent hp]
      exact Nat.zero_le 1

theorem inv_recordRemoteAttempt (h : Inv g p s) (hw : s.worker l = some w) (hphase : w.phase = .checked) :
    ∃ p', Inv g p' (s.perform l w w.m.recordRemoteAttempt (some { w with phase := .ready false })) := by
  have hl := h.runs l w hw
  have hearly := (h.fits l w hw).early_of_checked hphase
  unfold Queue.perform
  split
  · rename_i r' hr'
    obtain ⟨r, hr, hs⟩ := bind_eq_some_iff.1 hr'
    obtain ⟨ho, rfl⟩ := recordRemoteAttempt_eq_some hs
    have hlast := (h.row r hr).owner hl ho
    have hp : p = s.nextLease := by
      have := h.bound
      omega
    refine ⟨l, ?_, ?_, ?_, Nat.le_of_lt hl.claimed, ?_, ?_, fun heq => ?_⟩
    · intro r'' hr''
      cases hr''
      exact ⟨(h.row r hr).generation, fun _ => congrArg some hl.generation, (h.row r hr).lease⟩
    · intro l' w' hw'
      rcases worker_setWorker hw' with ⟨rfl, hnew⟩ | ⟨-, hold⟩
      · cases hnew
        exact hl.phase _
      · exact h.runs l' w' hold
    · intro l' w' hw'
      rcases worker_setWorker hw' with ⟨rfl, hnew⟩ | ⟨hne, hold⟩
      · cases hnew
        exact .of_poster rfl ⟨h.unspent hp, h.not_inFlight hp _⟩
      · have hl' := (h.runs l' w' hold).claimed
        exact ⟨fun _ => (h.fits l' w' hold).early (by omega), fun heq => absurd heq hne, fun hgt => by omega⟩
    · intro l' hl'
      have := (h.not_inFlight hp l').symm.trans hl'
      cases this
    · change s.effects + (s.inFlight l).toNat ≤ 1
      rw [h.not_inFlight hp, h.unspent hp]
      exact Nat.zero_le 1
    · change l = s.nextLease at heq
      omega
  · refine ⟨p, h.setWorker fun w' hw' => ?_⟩
    cases hw'
    exact ⟨hl.phase _, (h.fits l w hw).releasing⟩

/-- An execution that forgets the attempt has none, or its own without an effect: there is no poster then. -/
theorem inv_postponeUnattempted (h : Inv g p s) (hw : s.worker l = some w)
    (hphase : w.phase = .ending .postponeUnattempted) :
    ∃ p', Inv g p' (s.perform l w w.m.postponeUnattempted none) := by
  have hl := h.runs l w hw
  have hfit := h.fits l w hw
  have hle : l ≤ p := by
    by_contra hgt
    have := (hfit.late (by omega)).2
    rw [hphase] at this
    exact this
  unfold Queue.perform
  split
  · rename_i r' hr'
    obtain ⟨r, hr, hs⟩ := bind_eq_some_iff.1 hr'
    obtain ⟨ho, rfl⟩ := postponeUnattempted_eq_some hs
    have hlast := (h.row r hr).owner hl ho
    have hnone : s.effects = 0 ∧ ∀ l', s.inFlight l' = false := by
      rcases Nat.lt_or_eq_of_le hle with hlt | rfl
      · have hp : p = s.nextLease := by
          have := h.bound
          omega
        exact ⟨h.unspent hp, h.not_inFlight hp⟩
      · have hspend := hfit.poster rfl
        rw [hphase] at hspend
        refine ⟨hspend.1, fun l' => ?_⟩
        cases hl' : s.inFlight l' with
        | false => rfl
        | true =>
          rw [(h.inFlight l' hl').1, hspend.2] at hl'
          cases hl'
    refine ⟨s.nextLease, ?_, ?_, ?_, Nat.le_refl _, ?_, ?_, fun _ => hnone.1⟩
    · intro r'' hr''
      cases hr''
      exact ⟨(h.row r hr).generation, fun hlt => absurd hlt (Nat.lt_irrefl _), nofun⟩
    · intro l' w' hw'
      rcases worker_setWorker hw' with ⟨-, hnew⟩ | ⟨-, hold⟩
      · cases hnew
      · exact h.runs l' w' hold
    · intro l' w' hw'
      rcases worker_setWorker hw' with ⟨-, hnew⟩ | ⟨hne, hold⟩
      · cases hnew
      · have hl' := (h.runs l' w' hold).claimed
        exact ⟨fun _ => (h.fits l' w' hold).early (by omega), fun heq => by omega, fun hgt => by omega⟩
    · intro l' hl'
      have := (hnone.2 l').symm.trans hl'
      cases this
    · change s.effects + (s.inFlight s.nextLease).toNat ≤ 1
      rw [hnone.1, hnone.2]
      exact Nat.zero_le 1
  · refine ⟨p, h.setWorker fun w' hw' => ?_⟩
    cases hw'
    exact ⟨hl.phase _, hfit.releasing⟩

theorem Inv.post (h : Inv g p s) (hw : s.worker p = some w) {effects : Nat} {inFlight : Bool}
    {phase : Phase} (hsum : effects + inFlight.toNat ≤ 1) (hspend : Spends effects inFlight phase) :
    Inv g p { (s.setWorker p (some { w with phase := phase })).setInFlight p inFlight with effects := effects } := by
  have hp := (h.runs p w hw).claimed
  have hflight : update s.inFlight p inFlight p = inFlight := by simp
  refine ⟨h.row, ?_, ?_, h.bound, ?_, ?_, fun heq => ?_⟩
  · intro l' w' hw'
    rcases worker_setWorker hw' with ⟨rfl, hnew⟩ | ⟨-, hold⟩
    · cases hnew
      exact (h.runs _ w hw).phase _
    · exact h.runs l' w' hold
  · intro l' w' hw'
    change Fits g p effects (update s.inFlight p inFlight p) l' w'
    rw [hflight]
    rcases worker_setWorker hw' with ⟨rfl, hnew⟩ | ⟨hne, hold⟩
    · cases hnew
      exact .of_poster rfl hspend
    · exact (h.fits l' w' hold).of_ne hne _ _
  · intro l' hl'
    by_cases heq : l' = p
    · exact ⟨heq, hp⟩
    · exact h.inFlight l' (by simpa [Queue.setInFlight, Queue.setWorker, heq] using hl')
  · change effects + (update s.inFlight p inFlight p).toNat ≤ 1
    rw [hflight]
    exact hsum
  · change p = s.nextLease at heq
    omega

theorem inv_respond (h : Inv g p s) (hw : s.worker l = some w) {renewed direct : Bool}
    (hphase : w.phase = .sending renewed direct) {answer : Answer} {s' : Queue}
    (hs : s.respond l w renewed direct answer = some s') : Inv g p s' := by
  have hfit := h.fits l w hw
  obtain ⟨rfl, hspend⟩ : l = p ∧ s.effects + (s.inFlight p).toNat = 1 := hfit.spends hphase id id
  unfold Queue.respond at hs
  simp only at hs
  split at hs
  · -- a refusal: the POST was on its way, and nothing else
    rename_i hrefused
    split_ifs at hs with hflight
    have hzero : s.effects = 0 := by
      rw [hflight] at hspend
      exact Nat.succ.inj hspend
    cases hs
    have hpost : ∀ inFlight, Spends s.effects inFlight (answer.next renewed direct) →
        Inv g l ((s.setWorker l (some { w with phase := answer.next renewed direct })).setInFlight l inFlight) :=
      fun inFlight hnext => by
        refine h.post hw ?_ hnext
        change s.effects + inFlight.toNat ≤ 1
        rw [hzero, Nat.zero_add]
        exact Bool.toNat_le inFlight
    cases answer with
    | written | clientError | unclear => cases hrefused
    | unauthorized => cases renewed <;> exact hpost _ ⟨hzero, rfl⟩
    | banned | subscriptionRequired | accountRateLimited => exact hpost _ ⟨hzero, rfl⟩
    | appRateLimited =>
      cases direct with
      | true => exact hpost _ ⟨hzero, rfl⟩
      | false =>
        refine hpost _ ?_
        simp [Answer.next, Spends, hzero]
  · split at hs
    · rename_i hwritten
      cases hs
      subst hwritten
      exact h.post hw (by rw [hspend]; exact Nat.le_refl 1) trivial
    · rename_i hrefused hwritten
      cases hs
      refine h.setWorker fun w' hw' => ?_
      cases hw'
      refine ⟨(h.runs l w hw).phase _, ?_⟩
      cases answer with
      | clientError | unclear => exact hfit.ending (by decide)
      | written => exact absurd rfl hwritten
      | unauthorized | banned | subscriptionRequired | accountRateLimited | appRateLimited => exact absurd rfl hrefused

theorem inv_land (h : Inv g p s) (hl : s.inFlight l = true) :
    Inv g p { s.setInFlight l false with effects := s.effects + 1 } := by
  obtain ⟨rfl, hp⟩ := h.inFlight l hl
  have hflight : update s.inFlight l false l = false := by simp
  have hspent := h.spent
  rw [hl] at hspent
  have hzero : s.effects = 0 := Nat.le_zero.1 (Nat.le_of_succ_le_succ hspent)
  refine ⟨h.row, h.runs, ?_, h.bound, ?_, ?_, fun heq => ?_⟩
  · intro l' w' hw'
    change Fits g l (s.effects + 1) (update s.inFlight l false l) l' w'
    rw [hflight]
    have hfit := h.fits l' w' hw'
    refine ⟨hfit.early, fun heq => ?_, hfit.late⟩
    have hspend := hfit.poster heq
    rw [hl] at hspend
    unfold Spends at hspend ⊢
    split at hspend
    · exact hspend
    · exact hspend
    · cases hspend.2
    · cases hspend.2
    · cases hspend.2
    · cases hspend.2
    · simp [hzero]
    · trivial
  · intro l' hl'
    by_cases heq : l' = l
    · exact ⟨heq, hp⟩
    · exact h.inFlight l' (by simpa [Queue.setInFlight, heq] using hl')
  · change s.effects + 1 + (update s.inFlight l false l).toNat ≤ 1
    rw [hflight, hzero]
    exact Nat.le_refl 1
  · change l = s.nextLease at heq
    omega

theorem inv_work (h : Inv g p s) (hw : s.worker l = some w) {s' : Queue}
    (hs : s.work l w = some s') : ∃ p', Inv g p' s' := by
  have hl := h.runs l w hw
  have hfit := h.fits l w hw
  have hmove : ∀ {phase}, Fits g p s.effects (s.inFlight p) l { w with phase := phase } →
      Inv g p (s.setWorker l (some { w with phase := phase })) := by
    intro phase hphase
    refine h.setWorker fun w' hw' => ?_
    cases hw'
    exact ⟨hl.phase _, hphase⟩
  unfold Queue.work at hs
  split at hs
  · rename_i hphase
    cases hs
    refine ⟨p, hmove ?_⟩
    split
    · exact hfit.finalizing
    · rename_i hresult
      split
      · exact hfit.ending (by decide)
      · -- an attempt is seen by those that come after it
        rename_i hambiguous
        have hle : l < p := by
          rcases Nat.lt_trichotomy l p with hlt | heq | hgt
          · exact hlt
          · have := hfit.poster heq
            rw [hphase] at this
            exact this.elim
          · have hseen := (hfit.late hgt).1
            rw [← hl.generation] at hseen
            simp [Mutation.hasAmbiguousRemoteAttempt, hresult, hseen] at hambiguous
        exact .of_early hle trivial
  · rename_i hphase
    cases hs
    exact inv_recordRemoteAttempt h hw hphase
  · rename_i hphase
    cases hs
    obtain ⟨rfl, hspend⟩ := hfit.spends hphase id id
    exact ⟨l, hmove (.of_poster rfl hspend)⟩
  · rename_i hphase
    cases hs
    obtain ⟨rfl, hspend⟩ := hfit.spends hphase id id
    refine ⟨l, hmove (.of_poster rfl ?_)⟩
    unfold Mutation.postponeBeforePost
    split
    · trivial
    · exact hspend
  · cases hs
    refine ⟨p, h.perform hw (fun r r' => kept_recordRemoteSuccess) (fun w' hw' => ?_) hfit.releasing⟩
    cases hw'
    exact ⟨hl.phase _, hfit.finalizing⟩
  · cases hs
    refine ⟨p, Inv.setWorker (h.setRow fun r' hr' => ?_) nofun⟩
    obtain ⟨r, hr, hf⟩ := bind_eq_some_iff.1 hr'
    exact ⟨r, hr, kept_finalize hf⟩
  · rename_i e hphase
    cases hs
    cases e with
    | postponeUnattempted => exact inv_postponeUnattempted h hw hphase
    | postpone => exact ⟨p, h.perform hw (fun r r' => kept_postpone) nofun hfit.releasing⟩
    | park => exact ⟨p, h.perform hw (fun r r' => kept_park) nofun hfit.releasing⟩
  · cases hs
    refine ⟨p, Inv.setWorker (h.setRow fun r' hr' => ?_) nofun⟩
    obtain ⟨r, hr, rfl⟩ := map_eq_some_iff.1 hr'
    exact ⟨r, hr, kept_release w.m r⟩
  · cases hs
  · cases hs

/-- An execution that is not done with its POST may be held up: it forgets its attempt. -/
theorem inv_hold (h : Inv g p s) (hw : s.worker l = some w)
    (hphase : w.phase = .checked ∨ (∃ renewed, w.phase = .ready renewed) ∨ w.phase = .renewing) :
    Inv g p (s.setWorker l (some { w with phase := w.m.postponeBeforePost })) := by
  have hfit := h.fits l w hw
  have hle : l < p ∨ (l = p ∧ s.effects = 0 ∧ s.inFlight p = false) := by
    rcases hphase with hphase | ⟨renewed, hphase⟩ | hphase
    · exact .inl (hfit.early_of_checked hphase)
    · exact .inr (hfit.spends hphase id id)
    · exact .inr (hfit.spends hphase id id)
  refine h.setWorker fun w' hw' => ?_
  cases hw'
  refine ⟨(h.runs l w hw).phase _, ?_⟩
  unfold Mutation.postponeBeforePost
  rcases hle with hlt | ⟨heq, hspend⟩
  · exact .of_early hlt trivial
  · split
    · exact .of_poster heq trivial
    · exact .of_poster heq hspend

theorem step_inv {a : Action} {s' : Queue} (h : Inv g p s) (hs : step s a = some s') : ∃ p', Inv g p' s' := by
  cases a with
  | forceDue =>
    cases hs
    refine ⟨p, h.setRow fun r' hr' => ?_⟩
    obtain ⟨r, hr, rfl⟩ := map_eq_some_iff.1 hr'
    exact ⟨r, hr, kept_forceDue r⟩
  | adopt =>
    cases hs
    refine ⟨p, h.setRow fun r' hr' => ?_⟩
    obtain ⟨r, hr, rfl⟩ := map_eq_some_iff.1 hr'
    exact ⟨r, hr, kept_adopt r⟩
  | settle =>
    cases hs
    exact ⟨p, h.setRow fun r' hr' => ⟨r', (filter_eq_some_iff.1 hr').1, .refl r'⟩⟩
  | claim =>
    obtain ⟨r, hr, hc⟩ := bind_eq_some_iff.1 hs
    split_ifs at hc
    cases hc
    exact inv_claim h hr
  | work l =>
    obtain ⟨w, hw, hs⟩ := bind_eq_some_iff.1 hs
    exact inv_work h hw hs
  | hold l =>
    obtain ⟨w, hw, hs⟩ := bind_eq_some_iff.1 hs
    split at hs
    · rename_i hphase
      cases hs
      exact ⟨p, inv_hold h hw (.inl hphase)⟩
    · rename_i renewed hphase
      cases hs
      exact ⟨p, inv_hold h hw (.inr (.inl ⟨renewed, hphase⟩))⟩
    · rename_i hphase
      cases hs
      exact ⟨p, inv_hold h hw (.inr (.inr hphase))⟩
    · cases hs
  | send l direct =>
    obtain ⟨w, hw, hs⟩ := bind_eq_some_iff.1 hs
    split at hs
    · rename_i renewed hphase
      cases hs
      have hfit := h.fits l w hw
      obtain ⟨rfl, hspend⟩ := hfit.spends hphase id id
      have hone : s.effects + true.toNat = 1 := congrArg (· + 1) hspend.1
      exact ⟨l, h.post hw (Nat.le_of_eq hone) hone⟩
    · cases hs
  | respond l answer =>
    obtain ⟨w, hw, hs⟩ := bind_eq_some_iff.1 hs
    split at hs
    · rename_i hphase
      exact ⟨p, inv_respond h hw hphase hs⟩
    · cases hs
  | invalid l =>
    obtain ⟨w, hw, hs⟩ := bind_eq_some_iff.1 hs
    have hpark : Inv g p (s.setWorker l (some { w with phase := .ending .park })) := by
      refine h.setWorker fun w' hw' => ?_
      cases hw'
      exact ⟨(h.runs l w hw).phase _, (h.fits l w hw).ending (by decide)⟩
    split at hs
    · cases hs
      exact ⟨p, hpark⟩
    · cases hs
      exact ⟨p, hpark⟩
    · cases hs
  | fail l =>
    obtain ⟨w, hw, hs⟩ := bind_eq_some_iff.1 hs
    split at hs
    · cases hs
      refine ⟨p, h.setWorker fun w' hw' => ?_⟩
      cases hw'
      exact ⟨(h.runs l w hw).phase _, (h.fits l w hw).ending (by decide)⟩
    · cases hs
  | land l =>
    simp only [step] at hs
    split_ifs at hs with hl
    cases hs
    exact ⟨p, inv_land h hl⟩
  | crash l =>
    cases hs
    exact ⟨p, h.setWorker nofun⟩
  | expire =>
    cases hs
    refine ⟨p, h.setRow fun r' hr' => ?_⟩
    obtain ⟨r, hr, rfl⟩ := map_eq_some_iff.1 hr'
    refine ⟨r, hr, rfl, rfl, fun lease' hl => ?_⟩
    obtain ⟨lease, hlease, rfl⟩ := map_eq_some_iff.1 hl
    exact ⟨lease, hlease, rfl⟩

/-! ## Runs -/

theorem inv_start (createdAt generation intentV : Int) (execGeneration : Option Int) (cancelled : Bool) :
    Inv generation 0 (.start (queued createdAt generation intentV execGeneration cancelled)) where
  row := fun r hr => by
    cases hr
    exact ⟨rfl, fun h => absurd h (Nat.lt_irrefl 0), nofun⟩
  runs := nofun
  fits := nofun
  bound := Nat.le_refl 0
  inFlight := nofun
  spent := Nat.zero_le 1
  unspent := fun _ => rfl

/-- SoundCloud takes a queued comment at most once, in every run of its row. -/
theorem comment_posted_at_most_once {createdAt generation intentV : Int} {execGeneration : Option Int}
    {cancelled : Bool} {as : List Action} {s : Queue}
    (h : run step (.start (queued createdAt generation intentV execGeneration cancelled)) as = some s) :
    s.effects ≤ 1 := by
  obtain ⟨p, hp⟩ : ∃ p, Inv generation p s :=
    run_invariant (I := fun s => ∃ p, Inv generation p s) (fun ⟨p, hp⟩ hs => step_inv hp hs)
      ⟨0, inv_start createdAt generation intentV execGeneration cancelled⟩ h
  exact Nat.le_trans (Nat.le_add_right ..) hp.spent

/-- The POST of an execution whose token was renewed arrives after its lease ran out; the execution that
claimed the row meanwhile parks it. -/
def lateRun : List Action :=
  [.claim, .work 0, .work 0, .send 0 false, .respond 0 .appRateLimited, .respond 0 .unauthorized, .expire, .claim,
    .work 0, .send 0 true, .work 1, .land 0, .work 1, .respond 0 .written, .work 0, .work 0]

theorem comment_posted_late : ∃ s, run step (.start (queued 0 1 0 none false)) lateRun = some s ∧
    s.effects = 1 ∧ s.effects ≤ 1 := by
  obtain ⟨s, hs⟩ := isSome_iff_exists.1
    (by decide : (run step (.start (queued 0 1 0 none false)) lateRun).isSome = true)
  refine ⟨s, hs, ?_, comment_posted_at_most_once hs⟩
  have : (run step (.start (queued 0 1 0 none false)) lateRun).map Queue.effects = some 1 := by decide
  rw [hs] at this
  exact some.inj this

end SC.Proof.SyncQueue.Comment

