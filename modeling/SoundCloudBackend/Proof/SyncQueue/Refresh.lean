import SoundCloudBackend.Framework.Run
import SoundCloudBackend.Impl.SyncQueue.Refresh

/-!
# Refreshes never overwrite a newer token pair

Every statement that changes the tokens or grants a lease also counts the
generation of the row up. So a snapshot of the current generation still has the
stored tokens, and a refresh that finds its lease and its generation is the
newest event of the row. `Inv` says both; a statement either `Keeps` what they
rest on, or `Advances` the generation with an event of its own.
-/

namespace SC.Proof.SyncQueue.Refresh

open Impl.SyncQueue.Refresh
open Option

variable {T : Type}
variable {i leaseId : Nat} {r : Refresher T} {generation : Int}
variable {next : Option (Refresher T)} {phase : Phase T} {row c c' : Connection T}
variable {now retryAfterSeconds expiresAt : Int} {failure : Failure} {tokens : Tokens T} {a : Action T}

/-! ## The history -/

def storedTokens (initial : Tokens T) : List (Event T) → Tokens T
  | [] => initial
  | .login _ tokens :: _ => tokens
  | .completion _ tokens :: _ => tokens
  | .claim .. :: rest => storedTokens initial rest

def newestLogin (initial : Int) : List (Event T) → Int
  | [] => initial
  | .login v _ :: _ => v
  | .claim .. :: rest => newestLogin initial rest
  | .completion .. :: rest => newestLogin initial rest

/-- What each event found when it happened: a login only older logins, a claim the refresh token that it
sends, and a completion its own claim with nothing since. -/
def Sound (initial : Connection T) : List (Event T) → Prop
  | [] => True
  | .login v _ :: rest => newestLogin initial.loginV rest < v ∧ Sound initial rest
  | .claim _ sent :: rest => sent = (storedTokens initial.tokens rest).refresh ∧ Sound initial rest
  | .completion leaseId _ :: rest => (∃ sent, rest.head? = some (.claim leaseId sent)) ∧ Sound initial rest

/-! ## The invariant -/

/-- The refresh calls under this lease, claimed at this generation. -/
def Calls (r : Refresher T) (leaseId : Nat) (generation : Int) : Prop :=
  r.phase = .calling leaseId generation ∨ ∃ answer, r.phase = .answered leaseId generation answer

def IsCall : Phase T → Prop
  | .calling .. | .answered .. => True
  | _ => False

/-- The refresh `i` has the lease of the row, and it has not run out. -/
def Holds (s : State T) (i : Nat) : Prop :=
  ∃ r leaseId generation expiresAt, s.refresher i = some r ∧ Calls r leaseId generation ∧
    s.row.lease = some ⟨leaseId, expiresAt⟩ ∧ s.clock < expiresAt

/-- A snapshot of the current generation has the tokens of the row. -/
structure Current (row snapshot : Connection T) : Prop where
  le : snapshot.refreshGeneration ≤ row.refreshGeneration
  tokens : snapshot.refreshGeneration = row.refreshGeneration → snapshot.tokens = row.tokens

/-- The claim of a refresh that calls; as long as it has the row, nothing happened since. -/
structure Claimed (row : Connection T) (log : List (Event T)) (nextLease : Nat) (r : Refresher T) (leaseId : Nat)
    (generation : Int) : Prop where
  lease : leaseId < nextLease
  bound : generation ≤ row.refreshGeneration
  logged : .claim leaseId r.snapshot.tokens.refresh ∈ log
  newest : row.heldBy leaseId generation = true → log.head? = some (.claim leaseId r.snapshot.tokens.refresh)

/-- The row is what its history says, and a generation is refreshed under one claim only. -/
structure Inv (initial : Connection T) (s : State T) : Prop where
  sound : Sound initial s.log
  tokens : s.row.tokens = storedTokens initial.tokens s.log
  loginV : s.row.loginV = newestLogin initial.loginV s.log
  lease : ∀ lease, s.row.lease = some lease → lease.id < s.nextLease
  snapshot : ∀ i r, s.refresher i = some r → Current s.row r.snapshot
  claimed : ∀ i r leaseId generation, s.refresher i = some r → Calls r leaseId generation →
    Claimed s.row s.log s.nextLease r leaseId generation
  unique : ∀ i j r r' leaseId generation generation', s.refresher i = some r → s.refresher j = some r' →
    Calls r leaseId generation → Calls r' leaseId generation' → i = j

variable {initial : Connection T} {s s' : State T}

theorem refresher_setRefresher {j : Nat} (h : (s.setRefresher i next).refresher j = some r) :
    (j = i ∧ next = some r) ∨ (j ≠ i ∧ s.refresher j = some r) := by
  by_cases hj : j = i
  · subst hj
    exact .inl ⟨rfl, by simpa [State.setRefresher] using h⟩
  · exact .inr ⟨hj, by simpa [State.setRefresher, hj] using h⟩

/-- The refresh `i` moves on with its claim or without one; its snapshot is as good as the row. -/
theorem Inv.setRefresher (h : Inv initial s)
    (hnext : ∀ r', next = some r' → Current s.row r'.snapshot ∧ ∀ leaseId generation, Calls r' leaseId generation →
    ∃ r, s.refresher i = some r ∧ r.snapshot = r'.snapshot ∧ Calls r leaseId generation) :
    Inv initial (s.setRefresher i next) := by
  have hcalls : ∀ {j r' leaseId generation}, (s.setRefresher i next).refresher j = some r' →
      Calls r' leaseId generation →
        ∃ r, s.refresher j = some r ∧ r.snapshot = r'.snapshot ∧ Calls r leaseId generation := by
    intro j r' leaseId generation hr' hc
    rcases refresher_setRefresher hr' with ⟨rfl, hnew⟩ | ⟨-, hold⟩
    · exact (hnext r' hnew).2 leaseId generation hc
    · exact ⟨r', hold, rfl, hc⟩
  refine { h with snapshot := ?_, claimed := ?_, unique := ?_ }
  · intro j r' hr'
    rcases refresher_setRefresher hr' with ⟨-, hnew⟩ | ⟨-, hold⟩
    · exact (hnext r' hnew).1
    · exact h.snapshot j r' hold
  · intro j r' leaseId generation hr' hc
    obtain ⟨r, hr, hsnap, hc⟩ := hcalls hr' hc
    have := h.claimed j r leaseId generation hr hc
    exact ⟨this.lease, this.bound, hsnap ▸ this.logged, hsnap ▸ this.newest⟩
  · intro j k r r' leaseId generation generation' hr hr' hc hc'
    obtain ⟨_, hr, -, hc⟩ := hcalls hr hc
    obtain ⟨_, hr', -, hc'⟩ := hcalls hr' hc'
    exact h.unique j k _ _ leaseId generation generation' hr hr' hc hc'

theorem Inv.setPhase (h : Inv initial s) (hr : s.refresher i = some r)
    (hphase : ∀ leaseId generation, Calls { r with phase := phase } leaseId generation → Calls r leaseId generation) :
    Inv initial (s.setPhase i r phase) := by
  refine h.setRefresher fun r' hr' => ?_
  cases hr'
  exact ⟨h.snapshot i r hr, fun leaseId generation hc => ⟨r, hr, rfl, hphase leaseId generation hc⟩⟩

theorem Inv.leave (h : Inv initial s) (hr : s.refresher i = some r)
    (hphase : ¬IsCall phase) : Inv initial (s.setPhase i r phase) := by
  refine h.setPhase hr fun leaseId generation hc => absurd ?_ hphase
  rcases hc with hc | ⟨answer, hc⟩
  · rw [show phase = .calling leaseId generation from hc]
    trivial
  · rw [show phase = .answered leaseId generation answer from hc]
    trivial

/-! ## The row -/

/-- A statement that keeps the tokens, the logins and the generation, and at most gives up the lease. -/
structure Keeps (c c' : Connection T) : Prop where
  tokens : c'.tokens = c.tokens
  loginV : c'.loginV = c.loginV
  generation : c'.refreshGeneration = c.refreshGeneration
  lease : c'.lease = c.lease ∨ c'.lease = none

theorem Inv.keeps (h : Inv initial s) (hrow : Keeps s.row row) : Inv initial { s with row := row } := by
  have hlease : ∀ lease, row.lease = some lease → s.row.lease = some lease := by
    intro lease hl
    rcases hrow.lease with heq | hnone
    · rw [← heq, hl]
    · rw [hnone] at hl
      cases hl
  refine ⟨h.sound, hrow.tokens.trans h.tokens, hrow.loginV.trans h.loginV, fun lease hl => h.lease lease (hlease lease hl),
    ?_, ?_, h.unique⟩
  · intro i r hr
    have hs := h.snapshot i r hr
    exact ⟨hrow.generation ▸ hs.le, fun heq => (hs.tokens (heq.trans hrow.generation)).trans hrow.tokens.symm⟩
  · intro i r leaseId generation hr hc
    have hcl := h.claimed i r leaseId generation hr hc
    refine ⟨hcl.lease, hrow.generation ▸ hcl.bound, hcl.logged, fun hheld => hcl.newest ?_⟩
    obtain ⟨hany, hgen⟩ := of_decide_eq_true hheld
    obtain ⟨lease, hl, hid⟩ := (any_eq_true ..).1 hany
    refine decide_eq_true ⟨?_, hrow.generation ▸ hgen⟩
    rw [hlease lease hl]
    exact hid

/-- A statement that counts the generation up, with the event that it is. A lease that it grants is new. -/
structure Advances (initial : Connection T) (s : State T) (row : Connection T) (e : Event T) (nextLease : Nat) :
    Prop where
  sound : Sound initial (e :: s.log)
  tokens : row.tokens = storedTokens initial.tokens (e :: s.log)
  loginV : row.loginV = newestLogin initial.loginV (e :: s.log)
  generation : row.refreshGeneration = s.row.refreshGeneration + 1
  granted : s.nextLease ≤ nextLease
  lease : ∀ lease, row.lease = some lease → lease.id < nextLease

theorem Inv.advances (h : Inv initial s) {e : Event T} {nextLease : Nat} (ha : Advances initial s row e nextLease) :
    Inv initial { s with row := row, log := e :: s.log, nextLease := nextLease } := by
  refine ⟨ha.sound, ha.tokens, ha.loginV, ha.lease, ?_, ?_, h.unique⟩
  · intro i r hr
    have hle := (h.snapshot i r hr).le
    have hgen := ha.generation
    exact ⟨by change _ ≤ row.refreshGeneration; omega,
      fun heq => by change _ = row.refreshGeneration at heq; omega⟩
  · intro i r leaseId generation hr hc
    have hcl := h.claimed i r leaseId generation hr hc
    have hbound := hcl.bound
    have hgen := ha.generation
    refine ⟨Nat.lt_of_lt_of_le hcl.lease ha.granted, by change _ ≤ row.refreshGeneration; omega,
      List.mem_cons_of_mem _ hcl.logged, fun hheld => ?_⟩
    have : row.refreshGeneration = generation := (of_decide_eq_true hheld).2
    omega

theorem Inv.setCalling (h : Inv initial s) (hr : s.refresher i = some r)
    (hclaimed : Claimed s.row s.log s.nextLease r leaseId generation)
    (hfresh : ∀ j r' generation', s.refresher j = some r' → ¬Calls r' leaseId generation') :
    Inv initial (s.setPhase i r (.calling leaseId generation)) := by
  have hnew : ∀ {l g}, Calls { r with phase := .calling leaseId generation } l g → l = leaseId ∧ g = generation := by
    intro l g hc
    rcases hc with hc | ⟨answer, hc⟩
    · cases hc
      exact ⟨rfl, rfl⟩
    · cases hc
  refine { h with snapshot := ?_, claimed := ?_, unique := ?_ }
  · intro j r' hr'
    rcases refresher_setRefresher hr' with ⟨-, hset⟩ | ⟨-, hold⟩
    · cases hset
      exact h.snapshot i r hr
    · exact h.snapshot j r' hold
  · intro j r' l g hr' hc
    rcases refresher_setRefresher hr' with ⟨-, hset⟩ | ⟨-, hold⟩
    · cases hset
      obtain ⟨rfl, rfl⟩ := hnew hc
      exact ⟨hclaimed.lease, hclaimed.bound, hclaimed.logged, hclaimed.newest⟩
    · exact h.claimed j r' l g hold hc
  · intro j k rj rk l g g' hj hk hcj hck
    rcases refresher_setRefresher hj with ⟨rfl, hset⟩ | ⟨-, hold⟩ <;>
      rcases refresher_setRefresher hk with ⟨rfl, hset'⟩ | ⟨-, hold'⟩
    · rfl
    · cases hset
      obtain ⟨rfl, rfl⟩ := hnew hcj
      exact absurd hck (hfresh k rk g' hold')
    · cases hset'
      obtain ⟨rfl, rfl⟩ := hnew hck
      exact absurd hcj (hfresh j rj g hold)
    · exact h.unique j k rj rk l g g' hold hold' hcj hck

/-! ## Steps -/

section
variable [DecidableEq T]

theorem keeps_markRejected (c : Connection T) (now : Int) (rejected : T) (retrySeconds : Int) :
    Keeps c (c.markRejected now rejected retrySeconds) := by
  unfold Connection.markRejected
  split <;> exact ⟨rfl, rfl, rfl, .inl rfl⟩

omit [DecidableEq T] in
theorem failRetryable_eq_some (h : c.failRetryable now leaseId generation failure retryAfterSeconds = some c') :
    Keeps c c' ∧ c'.lastRefreshErrorKind = some failure.kind := by
  unfold Connection.failRetryable at h
  split_ifs at h
  cases h
  exact ⟨⟨rfl, rfl, rfl, .inr rfl⟩, rfl⟩

omit [DecidableEq T] in
theorem failReauthorization_eq_some (h : c.failReauthorization now leaseId generation = some c') :
    Keeps c c' ∧ c.refreshGeneration = generation ∧
      ∃ expiresAt, c.lease = some ⟨leaseId, expiresAt⟩ ∧ now < expiresAt := by
  unfold Connection.failReauthorization at h
  split at h
  · rename_i hheld
    cases h
    obtain ⟨hany, hgen⟩ := of_decide_eq_true hheld.1
    obtain ⟨lease, hl, hid⟩ := (any_eq_true ..).1 hany
    have hlive : now < lease.expiresAt := by
      have := hheld.2
      simp only [Connection.vacant, hl, all_some, Bool.not_eq_true', decide_eq_false_iff_not] at this
      omega
    refine ⟨⟨rfl, rfl, rfl, .inr rfl⟩, hgen, lease.expiresAt, ?_, hlive⟩
    rw [hl, ← of_decide_eq_true hid]
  · cases h

omit [DecidableEq T] in
theorem completeRefresh_eq_some (h : c.completeRefresh now leaseId generation tokens expiresAt = some c') :
    c.heldBy leaseId generation = true ∧ c' = { c with
      tokens := tokens
      expiresAt := expiresAt
      refreshGeneration := c.refreshGeneration + 1
      refreshFailureCount := 0
      refreshRejectionCount := 0
      firstRefreshRejectionAt := none
      lease := none
      lastRefreshSuccessAt := some now
      lastRefreshErrorKind := none
      retryAt := none } := by
  unfold Connection.completeRefresh at h
  split_ifs at h with hheld
  exact ⟨hheld, (some.inj h).symm⟩

theorem inv_claim (h : Inv initial s) (hr : s.refresher i = some r) : Inv initial (s.claim i r) := by
  unfold State.claim
  split
  · rename_i row hrow
    unfold Connection.claimRefresh at hrow
    split_ifs at hrow with hguard
    cases hrow
    have hsent : r.snapshot.tokens.refresh = (storedTokens initial.tokens s.log).refresh := by
      rw [(h.snapshot i r hr).tokens hguard.1.symm, h.tokens]
    have hadv : Advances initial s { s.row with
        lease := some ⟨s.nextLease, s.clock + seconds refreshLeaseSeconds⟩
        refreshGeneration := s.row.refreshGeneration + 1 }
        (.claim s.nextLease r.snapshot.tokens.refresh) (s.nextLease + 1) :=
      ⟨⟨hsent, h.sound⟩, h.tokens, h.loginV, rfl, Nat.le_succ _, fun lease hl => by
        cases hl
        exact Nat.lt_succ_self _⟩
    refine (h.advances hadv).setCalling hr
      ⟨Nat.lt_succ_self _, Int.le_refl _, List.mem_cons_self .., fun _ => rfl⟩ ?_
    intro j r' generation' hr' hc
    exact Nat.lt_irrefl _ (h.claimed j r' s.nextLease generation' hr' hc).lease
  · exact h.leave hr id

omit [DecidableEq T] in
theorem inv_complete (h : Inv initial s) (hr : s.refresher i = some r)
    (hc : Calls r leaseId generation) (tokens : Tokens T) (expiresAt : Int) :
    Inv initial (s.complete i r leaseId generation tokens expiresAt) := by
  unfold State.complete
  split
  · rename_i row hrow
    obtain ⟨hheld, rfl⟩ := completeRefresh_eq_some hrow
    have hnewest := (h.claimed i r leaseId generation hr hc).newest hheld
    refine (h.advances ⟨?_, ?_, h.loginV, rfl, Nat.le_refl _, fun lease hl => by cases hl⟩).leave hr id
    · exact ⟨⟨_, hnewest⟩, h.sound⟩
    · rfl
  · exact h.leave hr id

omit [DecidableEq T] in
theorem inv_login (h : Inv initial s) (v : Int) (tokens : Tokens T) (expiresAt stamp : Int) :
    Inv initial (s.login v tokens expiresAt stamp) := by
  unfold State.login
  split
  · rename_i hv
    have hadv : Advances initial s (s.row.login v tokens expiresAt stamp) (.login v tokens) s.nextLease :=
      ⟨⟨h.loginV ▸ hv, h.sound⟩, rfl, rfl, rfl, Nat.le_refl _, nofun⟩
    exact h.advances hadv
  · exact h

omit [DecidableEq T] in
theorem inv_reject (h : Inv initial s) (hr : s.refresher i = some r) (leaseId : Nat)
    (generation : Int) : Inv initial (s.reject i r leaseId generation) := by
  unfold State.reject
  cases hrow : s.row.failReauthorization s.clock leaseId generation with
  | none => exact h.leave hr id
  | some row => exact (h.keeps (failReauthorization_eq_some hrow).1).leave hr id

theorem step_inv (h : Inv initial s) (hs : step s a = some s') : Inv initial s' := by
  cases a with
  | load i =>
    simp only [step] at hs
    split at hs
    · cases hs
      refine h.setRefresher fun r' hr' => ?_
      cases hr'
      refine ⟨⟨Int.le_refl _, fun _ => rfl⟩, fun leaseId generation hc => ?_⟩
      rcases hc with hc | ⟨answer, hc⟩ <;> cases hc
    · cases hs
  | check i credentials cooldown =>
    obtain ⟨r, hr, hs⟩ := bind_eq_some_iff.1 hs
    split at hs
    · split at hs <;> cases hs <;> exact h.leave hr id
    · cases hs
  | claim i =>
    obtain ⟨r, hr, hs⟩ := bind_eq_some_iff.1 hs
    split at hs
    · cases hs
      exact inv_claim h hr
    · cases hs
  | answer i answer =>
    obtain ⟨r, hr, hs⟩ := bind_eq_some_iff.1 hs
    split at hs
    · rename_i leaseId generation hphase
      cases hs
      refine h.setPhase hr fun l g hc => ?_
      rcases hc with hc | ⟨answer, hc⟩
      · cases hc
      · cases hc
        exact .inl hphase
    · cases hs
  | settle i =>
    obtain ⟨r, hr, hs⟩ := bind_eq_some_iff.1 hs
    split at hs
    · rename_i hphase
      cases hs
      exact inv_complete h hr (.inr ⟨_, hphase⟩) _ _
    · cases hs
      exact inv_reject h hr _ _
    · cases hs
      unfold State.fail
      split
      · rename_i row hrow
        exact (h.keeps (failRetryable_eq_some hrow).1).leave hr id
      · exact h.leave hr id
    · cases hs
  | reload i =>
    obtain ⟨r, hr, hs⟩ := bind_eq_some_iff.1 hs
    split at hs
    · cases hs
      exact h.leave hr id
    · cases hs
      exact h.leave hr id
    · cases hs
  | crash i =>
    cases hs
    exact h.setRefresher fun r' hr' => by cases hr'
  | markRejected rejected retrySeconds =>
    cases hs
    exact h.keeps (keeps_markRejected s.row s.clock rejected retrySeconds)
  | login v tokens expiresAt stamp =>
    cases hs
    exact inv_login h v tokens expiresAt stamp
  | tick wait =>
    cases hs
    exact { h with }

/-- What a step does to the row's lease and error. -/
inductive RowStep (s : State T) (a : Action T) (row : Connection T) : Prop
  | kept (hk : Keeps s.row row)
      (hkind : row.lastRefreshErrorKind = some .reauthorizationRequired →
        s.row.lastRefreshErrorKind = some .reauthorizationRequired)
  | granted (hv : s.row.vacant s.clock = true) (hkind : row.lastRefreshErrorKind = s.row.lastRefreshErrorKind)
  | renewed (hl : row.lease = none) (hkind : row.lastRefreshErrorKind = none)
  | rejected (i : Nat) (ha : a = .settle i) (hk : Keeps s.row row) (hh : Holds s i)

omit [DecidableEq T] in
theorem RowStep.refl (a : Action T) : RowStep s a s.row := .kept ⟨rfl, rfl, rfl, .inl rfl⟩ id

theorem rowStep_claim (a : Action T) : RowStep s a (s.claim i r).row := by
  unfold State.claim
  split
  · rename_i row hrow
    unfold Connection.claimRefresh at hrow
    split_ifs at hrow with hguard
    cases hrow
    exact .granted hguard.2.2.1 rfl
  · exact .refl a

omit [DecidableEq T] in
theorem rowStep_complete (a : Action T) : RowStep s a (s.complete i r leaseId generation tokens expiresAt).row := by
  unfold State.complete
  split
  · rename_i row hrow
    obtain ⟨-, rfl⟩ := completeRefresh_eq_some hrow
    exact .renewed rfl rfl
  · exact .refl a

omit [DecidableEq T] in
theorem rowStep_fail (a : Action T) :
    RowStep s a (s.fail i r leaseId generation failure retryAfterSeconds).row := by
  unfold State.fail
  split
  · rename_i row hrow
    obtain ⟨hk, hkind⟩ := failRetryable_eq_some hrow
    refine .kept hk fun hreauth => ?_
    rw [hkind] at hreauth
    cases failure <;> cases hreauth
  · exact .refl a

omit [DecidableEq T] in
theorem rowStep_reject (hr : s.refresher i = some r)
    (hc : Calls r leaseId generation) : RowStep s (.settle i) (s.reject i r leaseId generation).row := by
  unfold State.reject
  cases hrow : s.row.failReauthorization s.clock leaseId generation with
  | none => exact .refl _
  | some row =>
    obtain ⟨hk, -, expiresAt, hl, hlive⟩ := failReauthorization_eq_some hrow
    exact .rejected i rfl hk ⟨r, leaseId, generation, expiresAt, hr, hc, hl, hlive⟩

theorem step_row (hs : step s a = some s') : RowStep s a s'.row := by
  cases a with
  | load i =>
    simp only [step] at hs
    split at hs <;> cases hs
    exact .refl _
  | check i credentials cooldown =>
    obtain ⟨r, -, hs⟩ := bind_eq_some_iff.1 hs
    split at hs
    · split at hs <;> cases hs <;> exact .refl _
    · cases hs
  | claim i =>
    obtain ⟨r, -, hs⟩ := bind_eq_some_iff.1 hs
    split at hs <;> cases hs
    exact rowStep_claim _
  | answer i answer =>
    obtain ⟨r, -, hs⟩ := bind_eq_some_iff.1 hs
    split at hs <;> cases hs
    exact .refl _
  | settle i =>
    obtain ⟨r, hr, hs⟩ := bind_eq_some_iff.1 hs
    split at hs
    · cases hs
      exact rowStep_complete _
    · rename_i hphase
      cases hs
      exact rowStep_reject hr (.inr ⟨_, hphase⟩)
    · cases hs
      exact rowStep_fail _
    · cases hs
  | reload i =>
    obtain ⟨r, -, hs⟩ := bind_eq_some_iff.1 hs
    split at hs <;> cases hs <;> exact .refl _
  | crash i =>
    cases hs
    exact .refl _
  | markRejected rejected retrySeconds =>
    cases hs
    refine .kept (keeps_markRejected s.row s.clock rejected retrySeconds) fun hreauth => ?_
    simp only [Connection.markRejected] at hreauth
    split at hreauth
    · cases hreauth
    exact hreauth
  | login v tokens expiresAt stamp =>
    cases hs
    unfold State.login
    split
    · exact .renewed rfl rfl
    · exact .refl _
  | tick wait =>
    cases hs
    exact .refl _

/-! ## Runs -/

/-- What holds of a connection in every state of a run from the row `initial`. -/
structure Safe (initial : Connection T) (s : State T) : Prop where
  /-- At most one refresh has a lease that has not run out, and none takes it over. -/
  oneLease : ∀ i j, Holds s i → Holds s j → i = j
  granted : ∀ a s', step s a = some s' → s'.row.lease ≠ s.row.lease →
    s'.row.lease = none ∨ s.row.vacant s.clock = true
  sent : ∀ i r leaseId generation, s.refresher i = some r → Calls r leaseId generation →
    .claim leaseId r.snapshot.tokens.refresh ∈ s.log
  sound : Sound initial s.log
  tokens : s.row.tokens = storedTokens initial.tokens s.log
  loginV : s.row.loginV = newestLogin initial.loginV s.log
  reauthorization : ∀ a s', step s a = some s' →
    s.row.lastRefreshErrorKind ≠ some .reauthorizationRequired →
    s'.row.lastRefreshErrorKind = some .reauthorizationRequired → ∃ i, a = .settle i ∧ Holds s i

theorem Inv.safe (h : Inv initial s) : Safe initial s where
  oneLease := by
    rintro i j ⟨r, leaseId, generation, expiresAt, hr, hc, hl, -⟩ ⟨r', leaseId', generation', expiresAt', hr', hc', hl', -⟩
    obtain ⟨rfl, -⟩ : leaseId = leaseId' ∧ expiresAt = expiresAt' := by
      simpa using hl.symm.trans hl'
    exact h.unique i j r r' leaseId generation generation' hr hr' hc hc'
  granted := by
    intro a s' hs hne
    cases step_row hs with
    | kept hk _ => exact .inl (hk.lease.resolve_left hne)
    | granted hv _ => exact .inr hv
    | renewed hl _ => exact .inl hl
    | rejected _ _ hk _ => exact .inl (hk.lease.resolve_left hne)
  sent := fun i r leaseId generation hr hc => (h.claimed i r leaseId generation hr hc).logged
  sound := h.sound
  tokens := h.tokens
  loginV := h.loginV
  reauthorization := by
    intro a s' hs hnot hreauth
    cases step_row hs with
    | kept _ hkind => exact absurd (hkind hreauth) hnot
    | granted _ hkind => exact absurd (hkind.symm.trans hreauth) hnot
    | renewed _ hkind =>
      rw [hkind] at hreauth
      cases hreauth
    | rejected i ha _ hh => exact ⟨i, ha, hh⟩

omit [DecidableEq T] in
theorem inv_start (row : Connection T) (clock : Int) : Inv row (.start row clock) where
  sound := trivial
  tokens := rfl
  loginV := rfl
  lease := fun lease hl => by
    change row.lease = some lease at hl
    simp [State.start, hl]
  snapshot := fun i r hr => by cases hr
  claimed := fun i r leaseId generation hr => by cases hr
  unique := fun i j r r' leaseId generation generation' hr => by cases hr

/-- Refreshes, logins and rejections in any order keep the tokens of the newest login or completion. -/
theorem refreshes_safe {row : Connection T} {clock : Int} {as : List (Action T)}
    (h : run step (.start row clock) as = some s) : Safe row s :=
  (run_invariant step_inv (inv_start row clock) h).safe

end

/-- A login overtakes a refresh, an older login comes after it, and the next refresh completes. -/
def overtaken : List (Action Nat) :=
  [.load 0, .check 0 true none, .claim 0, .login 2 ⟨3, 4⟩ 0 0, .answer 0 (.refreshed ⟨5, 6⟩ 0), .settle 0,
    .reload 0, .login 1 ⟨7, 8⟩ 0 0, .load 1, .check 1 true none, .claim 1, .answer 1 (.refreshed ⟨9, 10⟩ 0), .settle 1]

def expiredRow : Connection Nat where
  tokens := ⟨1, 2⟩
  expiresAt := 0
  createdAt := 0
  loginV := 1
  refreshGeneration := 0
  refreshFailureCount := 0
  refreshRejectionCount := 0
  firstRefreshRejectionAt := none
  lease := none
  lastRefreshSuccessAt := none
  lastRefreshErrorKind := none
  retryAt := none

theorem refreshes_safe_overtaken : ∃ s, run step (.start expiredRow 5) overtaken = some s ∧ s.row.tokens = ⟨9, 10⟩ ∧
    s.log = [.completion 1 ⟨9, 10⟩, .claim 1 4, .login 2 ⟨3, 4⟩, .claim 0 2] ∧ Safe expiredRow s := by
  obtain ⟨s, hs⟩ := isSome_iff_exists.1 (by decide : (run step (.start expiredRow 5) overtaken).isSome = true)
  have hlog : (run step (.start expiredRow 5) overtaken).map (fun s => (s.row.tokens, s.log)) =
      some (⟨9, 10⟩, [.completion 1 ⟨9, 10⟩, .claim 1 4, .login 2 ⟨3, 4⟩, .claim 0 2]) := by decide
  rw [hs, map_some, some.injEq, Prod.mk.injEq] at hlog
  exact ⟨s, hs, hlog.1, hlog.2, refreshes_safe hs⟩

end SC.Proof.SyncQueue.Refresh
