import Mathlib.Logic.Function.Basic

/-!
# The refresh of a connection's tokens

One row of `soundcloud_connections` and the refreshes on it:
`ConnectionManager::refresh` (`jobs/src/handlers/sync_queue/connection.rs`) as a
program whose steps are the statements of `jobs/queries/sync_queue/connection/*.sql`,
`mark_rejected`, and the command `scd_cmd_connection_login`. Any number of
refreshes run at a time, and a call to SoundCloud may take any time. Times are in
microseconds.
-/

namespace SC.Impl.SyncQueue.Refresh

variable {T : Type} [DecidableEq T]

inductive ErrorKind where
  | rateLimited | timedOut | temporarilyUnavailable | tokenRejected | reauthorizationRequired
  deriving DecidableEq

structure Tokens (T : Type) where
  access : T
  refresh : T
  deriving DecidableEq

structure Lease where
  id : Nat
  expiresAt : Int
  deriving DecidableEq

structure Connection (T : Type) where
  tokens : Tokens T
  expiresAt : Int
  createdAt : Int
  loginV : Int
  refreshGeneration : Int
  refreshFailureCount : Int
  refreshRejectionCount : Int
  firstRefreshRejectionAt : Option Int
  lease : Option Lease
  lastRefreshSuccessAt : Option Int
  lastRefreshErrorKind : Option ErrorKind
  retryAt : Option Int
  deriving DecidableEq

def seconds (n : Int) : Int := n * 1000000

def minutes (n : Int) : Int := seconds (n * 60)

def refreshLeaseSeconds : Int := 60

inductive ConnectionError where
  | reauthorizationRequired
  | refreshInProgress (retryAfterSeconds : Int)
  | rateLimited (retryAfterSeconds : Int)
  | temporarilyUnavailable (retryAfterSeconds : Int)
  deriving DecidableEq

/-- The failures of a call that `fail_retryable` records. -/
inductive Failure where
  | rateLimited | timedOut | temporarilyUnavailable
  deriving DecidableEq

def Failure.kind : Failure → ErrorKind
  | .rateLimited => .rateLimited
  | .timedOut => .timedOut
  | .temporarilyUnavailable => .temporarilyUnavailable

/-- What `TokenRefreshClient::refresh` returns; tokens of another user are a failure. The time to wait after
a failure comes from the answer, the backoff and the cooldown of the application. -/
inductive Answer (T : Type) where
  | refreshed (tokens : Tokens T) (expiresAt : Int)
  | invalidGrant
  | failed (failure : Failure) (retryAfterSeconds : Int)
  deriving DecidableEq

/-! ## The row -/

def secondsUntil (now deadline : Int) : Option Int :=
  let milliseconds := (deadline - now).tdiv 1000
  if milliseconds > 0 then some ((milliseconds + 999) / 1000) else none

namespace Connection

variable (c : Connection T)

def tokenIsUsable (now : Int) : Bool :=
  c.expiresAt > now ∧ c.lastRefreshErrorKind ≠ some .tokenRejected ∧
    c.lastRefreshErrorKind ≠ some .reauthorizationRequired

def activeRefreshLeaseSeconds (now : Int) : Option Int := c.lease.bind fun lease => secondsUntil now lease.expiresAt

def retrySeconds (now : Int) : Option Int := c.retryAt.bind fun at_ => secondsUntil now at_

def waiting (now : Int) : Option ConnectionError :=
  match c.activeRefreshLeaseSeconds now with
  | some n => some (.refreshInProgress n)
  | none =>
    (c.retrySeconds now).map fun n =>
      if c.lastRefreshErrorKind = some .rateLimited then .rateLimited n else .temporarilyUnavailable n

/-- The checks of `refresh` before it claims. -/
def refuses (now : Int) (credentials : Bool) (cooldown : Option Int) : Option ConnectionError :=
  if c.lastRefreshErrorKind = some .reauthorizationRequired then some .reauthorizationRequired
  else
    match c.waiting now with
    | some error => some error
    | none => if credentials then cooldown.map .rateLimited else some .reauthorizationRequired

def vacant (now : Int) : Bool := c.lease.all fun lease => lease.expiresAt ≤ now

def heldBy (leaseId : Nat) (generation : Int) : Bool :=
  (c.lease.any fun lease => lease.id = leaseId) ∧ c.refreshGeneration = generation

/-- `claim_refresh.sql`; `none` if it changes no row, as below. -/
def claimRefresh (now : Int) (snapshot : Connection T) (leaseId : Nat) : Option (Connection T) :=
  if c.refreshGeneration = snapshot.refreshGeneration ∧ c.tokens.access = snapshot.tokens.access ∧ c.vacant now ∧
      c.lastRefreshErrorKind ≠ some .reauthorizationRequired ∧ (c.retryAt.all fun t => t ≤ now) then
    some { c with
      lease := some ⟨leaseId, now + seconds refreshLeaseSeconds⟩
      refreshGeneration := c.refreshGeneration + 1 }
  else none

def completeRefresh (now : Int) (leaseId : Nat) (generation : Int) (tokens : Tokens T) (expiresAt : Int) :
    Option (Connection T) :=
  if c.heldBy leaseId generation then
    some { c with
      tokens := tokens
      expiresAt := expiresAt
      refreshGeneration := c.refreshGeneration + 1
      refreshFailureCount := 0
      refreshRejectionCount := 0
      firstRefreshRejectionAt := none
      lease := none
      lastRefreshSuccessAt := some now
      lastRefreshErrorKind := none
      retryAt := none }
  else none

def failRetryable (now : Int) (leaseId : Nat) (generation : Int) (failure : Failure) (retryAfterSeconds : Int) :
    Option (Connection T) :=
  if c.heldBy leaseId generation then
    some { c with
      lease := none
      refreshFailureCount := c.refreshFailureCount + 1
      refreshRejectionCount := 0
      firstRefreshRejectionAt := none
      lastRefreshErrorKind := some failure.kind
      retryAt := some (now + seconds retryAfterSeconds) }
  else none

/-- The evidence of `fail_reauthorization.sql`: several rejections, over some time, of tokens that ran out. -/
def confirmed (now : Int) : Bool :=
  c.refreshRejectionCount ≥ 2 ∧ (c.firstRefreshRejectionAt.any fun t => t ≤ now - minutes 15) ∧
    c.lastRefreshSuccessAt.getD c.createdAt ≤ now - minutes 30 ∧ c.expiresAt ≤ now

def failReauthorization (now : Int) (leaseId : Nat) (generation : Int) : Option (Connection T) :=
  if c.heldBy leaseId generation ∧ !c.vacant now then
    some { c with
      lease := none
      refreshFailureCount := min c.refreshFailureCount 2147483646 + 1
      refreshRejectionCount := min c.refreshRejectionCount 2147483646 + 1
      firstRefreshRejectionAt := some (c.firstRefreshRejectionAt.getD now)
      lastRefreshErrorKind :=
        if c.confirmed now then some .reauthorizationRequired else some .temporarilyUnavailable
      retryAt := if c.confirmed now then none else some (now + minutes 10) }
  else none

def markRejected (now : Int) (rejected : T) (retrySeconds : Int) : Connection T :=
  if c.tokens.access = rejected ∧ c.lastRefreshErrorKind ≠ some .tokenRejected ∧
      c.lastRefreshErrorKind ≠ some .reauthorizationRequired ∧ c.vacant now then
    { c with
      refreshFailureCount := c.refreshFailureCount + 1
      lastRefreshErrorKind := some .tokenRejected
      retryAt := some (max (c.retryAt.getD (now + seconds retrySeconds)) (now + seconds retrySeconds)) }
  else c

/-- The row that `scd_cmd_connection_login` installs over an older login. -/
def login (v : Int) (tokens : Tokens T) (expiresAt stamp : Int) : Connection T :=
  { c with
    tokens := tokens
    expiresAt := expiresAt
    loginV := v
    refreshGeneration := c.refreshGeneration + 1
    refreshFailureCount := 0
    refreshRejectionCount := 0
    firstRefreshRejectionAt := none
    lease := none
    lastRefreshSuccessAt := some stamp
    lastRefreshErrorKind := none
    retryAt := none }

end Connection

/-! ## A refresh -/

abbrev Result (T : Type) := Except ConnectionError T

/-- The answer of a refresh whose claim found no row. -/
def afterLostClaim (now : Int) (previous current : Connection T) : Result T :=
  if current.tokenIsUsable now ∧ current.tokens.access ≠ previous.tokens.access then .ok current.tokens.access
  else .error (.refreshInProgress ((current.activeRefreshLeaseSeconds now).getD 1))

def reconcileRefreshRace (now : Int) (previous current : Connection T) : Result T :=
  if current.tokenIsUsable now ∧ (current.refreshGeneration ≠ previous.refreshGeneration ∨
      current.tokens.access ≠ previous.tokens.access) then .ok current.tokens.access
  else if current.lastRefreshErrorKind = some .reauthorizationRequired then .error .reauthorizationRequired
  else .error ((current.waiting now).getD (.temporarilyUnavailable 1))

def Failure.error (retryAfterSeconds : Int) : Failure → ConnectionError
  | .rateLimited => .rateLimited retryAfterSeconds
  | .timedOut | .temporarilyUnavailable => .temporarilyUnavailable retryAfterSeconds

inductive Phase (T : Type) where
  | loaded | admitted
  /-- The claim, or a later statement, found no row. -/
  | lost | racing
  | calling (leaseId : Nat) (generation : Int)
  | answered (leaseId : Nat) (generation : Int) (answer : Answer T)
  | returned (result : Result T)

/-- A refresh with the connection that it loaded; it sends the refresh token of that one. -/
structure Refresher (T : Type) where
  snapshot : Connection T
  phase : Phase T

/-- What happened to the row: a login that was installed, a claim with the refresh token that it sends, or a
completion that was stored. -/
inductive Event (T : Type) where
  | login (v : Int) (tokens : Tokens T)
  | claim (leaseId : Nat) (sent : T)
  | completion (leaseId : Nat) (tokens : Tokens T)
  deriving DecidableEq

/-- The row, the refreshes, the time, the next lease, and the history with the newest event first. -/
structure State (T : Type) where
  row : Connection T
  refresher : Nat → Option (Refresher T)
  clock : Int
  nextLease : Nat
  log : List (Event T)

namespace State

def start (row : Connection T) (clock : Int) : State T where
  row := row
  refresher := fun _ => none
  clock := clock
  nextLease := row.lease.elim 0 fun lease => lease.id + 1
  log := []

def setRefresher (s : State T) (i : Nat) (r : Option (Refresher T)) : State T :=
  { s with refresher := Function.update s.refresher i r }

def setPhase (s : State T) (i : Nat) (r : Refresher T) (phase : Phase T) : State T :=
  s.setRefresher i (some { r with phase := phase })

def claim (s : State T) (i : Nat) (r : Refresher T) : State T :=
  match s.row.claimRefresh s.clock r.snapshot s.nextLease with
  | some row =>
    { s.setPhase i r (.calling s.nextLease row.refreshGeneration) with
      row := row
      nextLease := s.nextLease + 1
      log := .claim s.nextLease r.snapshot.tokens.refresh :: s.log }
  | none => s.setPhase i r .lost

def complete (s : State T) (i : Nat) (r : Refresher T) (leaseId : Nat) (generation : Int) (tokens : Tokens T)
    (expiresAt : Int) : State T :=
  match s.row.completeRefresh s.clock leaseId generation tokens expiresAt with
  | some row =>
    { s.setPhase i r (.returned (.ok row.tokens.access)) with
      row := row
      log := .completion leaseId tokens :: s.log }
  | none => s.setPhase i r .racing

/-- `record_refresh_failure` of a failure to be tried again. -/
def fail (s : State T) (i : Nat) (r : Refresher T) (leaseId : Nat) (generation : Int) (failure : Failure)
    (retryAfterSeconds : Int) : State T :=
  match s.row.failRetryable s.clock leaseId generation failure retryAfterSeconds with
  | some row => { s.setPhase i r (.returned (.error (failure.error retryAfterSeconds))) with row := row }
  | none => s.setPhase i r .racing

/-- `record_refresh_failure` of a rejected refresh token. -/
def reject (s : State T) (i : Nat) (r : Refresher T) (leaseId : Nat) (generation : Int) : State T :=
  { s.setPhase i r .racing with
    row := (s.row.failReauthorization s.clock leaseId generation).getD s.row }

def login (s : State T) (v : Int) (tokens : Tokens T) (expiresAt stamp : Int) : State T :=
  if s.row.loginV < v then
    { s with row := s.row.login v tokens expiresAt stamp, log := .login v tokens :: s.log }
  else s

end State

/-! ## Runs -/

/-- A step of the refresh `i`, or a statement of someone else. -/
inductive Action (T : Type) where
  | load (i : Nat)
  /-- The checks on the loaded connection, its credentials and the cooldown of its application. -/
  | check (i : Nat) (credentials : Bool) (cooldown : Option Int)
  | claim (i : Nat)
  | answer (i : Nat) (answer : Answer T)
  | settle (i : Nat)
  /-- The reload after a statement that found no row. -/
  | reload (i : Nat)
  | crash (i : Nat)
  | markRejected (rejected : T) (retrySeconds : Int)
  | login (v : Int) (tokens : Tokens T) (expiresAt stamp : Int)
  | tick (wait : Nat)
  deriving DecidableEq

def step (s : State T) : Action T → Option (State T)
  | .load i =>
    match s.refresher i with
    | none => some (s.setRefresher i (some ⟨s.row, .loaded⟩))
    | some _ => none
  | .check i credentials cooldown =>
    (s.refresher i).bind fun r =>
      match r.phase with
      | .loaded =>
        match r.snapshot.refuses s.clock credentials cooldown with
        | some error => some (s.setPhase i r (.returned (.error error)))
        | none => some (s.setPhase i r .admitted)
      | _ => none
  | .claim i =>
    (s.refresher i).bind fun r =>
      match r.phase with
      | .admitted => some (s.claim i r)
      | _ => none
  | .answer i answer =>
    (s.refresher i).bind fun r =>
      match r.phase with
      | .calling leaseId generation => some (s.setPhase i r (.answered leaseId generation answer))
      | _ => none
  | .settle i =>
    (s.refresher i).bind fun r =>
      match r.phase with
      | .answered leaseId generation (.refreshed tokens expiresAt) =>
        some (s.complete i r leaseId generation tokens expiresAt)
      | .answered leaseId generation .invalidGrant => some (s.reject i r leaseId generation)
      | .answered leaseId generation (.failed failure retryAfterSeconds) =>
        some (s.fail i r leaseId generation failure retryAfterSeconds)
      | _ => none
  | .reload i =>
    (s.refresher i).bind fun r =>
      match r.phase with
      | .lost => some (s.setPhase i r (.returned (afterLostClaim s.clock r.snapshot s.row)))
      | .racing => some (s.setPhase i r (.returned (reconcileRefreshRace s.clock r.snapshot s.row)))
      | _ => none
  | .crash i => some (s.setRefresher i none)
  | .markRejected rejected retrySeconds =>
    some { s with row := s.row.markRejected s.clock rejected retrySeconds }
  | .login v tokens expiresAt stamp => some (s.login v tokens expiresAt stamp)
  | .tick wait => some { s with clock := s.clock + wait }

end SC.Impl.SyncQueue.Refresh
