import SoundCloudBackend.Impl.SyncQueue.Pair

/-!
# The worker of the sync queue

The statements of `jobs/queries/sync_queue/*.sql` on the two rows of a pair, and
`SyncQueueHandler::execute` (`jobs/src/handlers/sync_queue/mod.rs`) as a program
whose steps are those statements and the answers of SoundCloud. Flushes run one
after another, so there is one worker; it may crash at any step, and a write that
it sent may arrive until its lease expires.
-/

namespace SC.Impl.SyncQueue

open Function

def maxRetries : Nat := 5

/-- `ClaimedMutation`, the columns that the worker reads. The lease has the claimed generation. -/
structure Mutation where
  kind : Kind
  generation : Int
  leaseId : Nat
  retryCount : Nat
  completed : Option Int
  deriving DecidableEq

def Mutation.hasRemoteResult (m : Mutation) : Bool := m.completed = some m.generation

/-! ## Statements on a row -/

namespace Row

def ownedBy (r : Row) (m : Mutation) : Bool :=
  r.lease.any fun lease => lease.id = m.leaseId ∧ lease.generation = m.generation

def adopt (r : Row) : Row :=
  { r with execGeneration := some r.generation, retryCount := 0, dead := false, completed := none }

def claimable (r : Row) : Bool :=
  !r.dead && (r.lease.all fun lease => lease.expired) && !(r.cancelled && r.idle) && !r.fresh

def claim (r : Row) (leaseId : Nat) : Row :=
  { r with lease := some ⟨leaseId, r.generation, false⟩, execGeneration := some r.generation }

/-- `drop_superseded.sql`: the mirror wants the opposite of a row that was not attempted. The mirror of a
queued row is there: no transaction here deletes it. -/
def superseded (r : Row) (m : Mutation) (mirror : Option Mirror) : Bool :=
  r.ownedBy m ∧ r.generation = m.generation ∧ r.attempted ≠ some r.generation ∧ r.completed = none ∧
    (mirror.any fun mirror => mirror.wanted ≠ m.kind.state)

/-- `record_remote_attempt.sql`; `none` if it changes no row. -/
def recordRemoteAttempt (r : Row) (m : Mutation) : Option Row :=
  if r.ownedBy m ∧ r.generation = m.generation ∧ r.completed = none then
    some { r with attempted := some m.generation }
  else none

/-- `record_remote_success.sql`; `none` if it changes no row. -/
def recordRemoteSuccess (r : Row) (m : Mutation) : Option Row :=
  if r.ownedBy m ∧ r.generation = m.generation ∧ r.attempted = some m.generation ∧ r.completed = none then
    some { r with completed := some m.generation }
  else none

def readyToFinalize (r : Row) (m : Mutation) : Bool :=
  r.ownedBy m ∧ r.generation = m.generation ∧ r.completed = some m.generation

def releaseLease (r : Row) (m : Mutation) : Row :=
  if r.ownedBy m then { r with lease := none } else r

/-- `retry`: `retry.sql`, or else the release. -/
def retry (r : Row) (m : Mutation) : Row :=
  if r.ownedBy m ∧ r.generation = m.generation then { r with lease := none, retryCount := r.retryCount + 1 }
  else r.releaseLease m

/-- `postpone`: `postpone.sql`, or else the release. -/
def postpone (r : Row) (m : Mutation) : Row :=
  if r.ownedBy m ∧ r.generation = m.generation then { r with lease := none } else r.releaseLease m

/-- `postpone_unattempted`: the attempt of a like stays recorded. -/
def postponeUnattempted (r : Row) (m : Mutation) : Row :=
  if r.ownedBy m ∧ r.generation = m.generation ∧ r.completed = none then { r with lease := none }
  else r.releaseLease m

/-- `park`: `park.sql`, or else the release. -/
def park (r : Row) (m : Mutation) (retryCount : Nat) : Row :=
  if r.ownedBy m ∧ r.generation = m.generation then
    { r with lease := none, dead := true, retryCount := retryCount }
  else r.releaseLease m

def forceDue (r : Row) : Row :=
  if !r.dead && r.lease.all fun lease => lease.expired then { r with lease := none } else r

end Row

/-! ## The execution of a mutation -/

/-- What `write_remote` returns. After the first `unauthorized` the token is renewed, or that fails. -/
inductive Response where
  | written | targetMissing | paused
  | unauthorized (renewed : Bool)
  | banned | subscriptionRequired | accountRateLimited | rateLimited | other
  deriving DecidableEq

/-- Whether SoundCloud has made the change. A write that reports an error may have arrived. -/
def Response.applied (lands : Bool) : Response → Bool
  | .written => true
  | .targetMissing => false
  | .paused => false
  | _ => lands

/-- What `execute` and `record_action_failure` do after an error. -/
inductive Failure where
  | postpone | postponeUnattempted | retry
  deriving DecidableEq

inductive Phase where
  | claimed | checked
  | sending (refreshed : Bool)
  | written
  | failed (failure : Failure)
  | finalizing
  deriving DecidableEq

def Response.next (refreshed : Bool) : Response → Phase
  | .written => .written
  | .targetMissing => .written
  | .paused => .failed .postponeUnattempted
  | .unauthorized renewed => if !refreshed && renewed then .sending true else .failed .postpone
  | .banned => .failed .postpone
  | .subscriptionRequired => .failed .postponeUnattempted
  | .accountRateLimited => .failed .postponeUnattempted
  | .rateLimited => .failed .postpone
  | .other => .failed .retry

def Row.settleFailure (r : Row) (m : Mutation) : Failure → Row
  | .postpone => r.postpone m
  | .postponeUnattempted => r.postponeUnattempted m
  | .retry =>
    let retryCount := m.retryCount + 1
    if retryCount ≥ maxRetries then r.park m retryCount else r.retry m

inductive Worker where
  | idle
  | busy (m : Mutation) (phase : Phase)
  deriving DecidableEq

def Worker.isOn (k : Kind) : Worker → Bool
  | .idle => false
  | .busy m _ => m.kind = k

/-! ## The pair -/

/-- The two rows with the newest receipts of their purges, the mirror, the worker, the writes of crashed
workers that may still arrive, and whether SoundCloud has the like. -/
structure Pair where
  mirror : Option Mirror
  row : Kind → Option Row
  purged : Kind → Option Int
  worker : Worker
  landing : Kind → Bool
  remote : Bool
  clock : Int
  nextLease : Nat

namespace Pair

def start (mirror : Option Mirror) (remote : Bool) (clock : Int) : Pair where
  mirror := mirror
  row := fun _ => none
  purged := fun _ => none
  worker := .idle
  landing := fun _ => false
  remote := remote
  clock := clock
  nextLease := 0

def setRow (s : Pair) (k : Kind) (r : Row) : Pair := { s with row := update s.row k (some r) }

/-- `scd_purge_intent`, of a row that is there. -/
def purge (s : Pair) (k : Kind) (r : Row) : Pair :=
  { s with
    row := update s.row k none
    purged := update s.purged k (some (max r.intentV ((s.purged k).getD r.intentV))) }

def setWorker (s : Pair) (worker : Worker) : Pair := { s with worker := worker }

def live (s : Pair) (k : Kind) : Bool := (s.row k).any fun r => !r.dead

/-- `set_wanted_on`, or `clear_wanted` with `enqueue_on`. -/
def tap (s : Pair) (k : Kind) (now : Int) : Pair :=
  let annuls := annuls (s.row k.inverse)
  { s with
    mirror := some (wantMirror now k s.mirror)
    row := fun j =>
      if j = k then some (upsert now (s.purged k) annuls (s.row k))
      else cancelInverse now (s.purged j) (s.row j)
    clock := now }

def heal (s : Pair) (now : Int) : Pair :=
  match s.mirror with
  | none => { s with clock := now }
  | some mirror =>
    if mirror.stale && !s.live .like && !s.live .unlike then
      let k := Kind.ofState mirror.wanted
      { s.setRow k (healRow now (s.purged k) (s.row k)) with clock := now }
    else { s with clock := now }

def settle (s : Pair) (k : Kind) (r : Row) : Pair :=
  if r.cancelled && r.idle then
    if (s.mirror.any fun mirror => mirror.wanted) = k.state then
      s.setRow k ({ r with cancelled := false }.versioned s.clock (s.purged k))
    else s.purge k r
  else s

/-- The id of the row of `k` is the smaller one; `likeFirst` says so of the like. -/
def idFirst (likeFirst : Bool) : Kind → Bool
  | .like => likeFirst
  | .unlike => !likeFirst

/-- `(created_at, id) < (created_at, id)`: the row of `k` comes before the inverse one. -/
def first (likeFirst : Bool) (k : Kind) (r inverse : Row) : Bool :=
  r.createdAt < inverse.createdAt ∨ (r.createdAt = inverse.createdAt ∧ idFirst likeFirst k)

/-- `NOT EXISTS (… earlier …)` in `claim.sql`. -/
def isHead (likeFirst : Bool) (s : Pair) (k : Kind) (r : Row) : Bool :=
  (s.row k.inverse).all fun earlier => earlier.dead || !first likeFirst k.inverse earlier r

def finalize (s : Pair) (m : Mutation) : Pair :=
  match s.row m.kind with
  | none => s
  | some r =>
    if r.readyToFinalize m then
      { s with mirror := s.mirror.map (Mirror.settle m.kind) }.purge m.kind r
    else s.setRow m.kind (r.releaseLease m)

def leave (s : Pair) (m : Mutation) (change : Row → Row) : Pair :=
  match s.row m.kind with
  | none => s.setWorker .idle
  | some r => (s.setRow m.kind (change r)).setWorker .idle

/-- The next statement of the worker. While it sends, SoundCloud has to answer. -/
def work (s : Pair) (m : Mutation) : Phase → Option Pair
  | .claimed =>
    if m.hasRemoteResult then some (s.setWorker (.busy m .finalizing))
    else
      match s.row m.kind with
      | none => some (s.setWorker (.busy m .checked))
      | some r =>
        if r.superseded m s.mirror then some ((s.purge m.kind r).setWorker .idle)
        else some (s.setWorker (.busy m .checked))
  | .checked =>
    match (s.row m.kind).bind fun r => r.recordRemoteAttempt m with
    | some r => some ((s.setRow m.kind r).setWorker (.busy m (.sending false)))
    | none => some (s.leave m fun r => r.releaseLease m)
  | .sending _ => none
  | .written =>
    match (s.row m.kind).bind fun r => r.recordRemoteSuccess m with
    | some r => some ((s.setRow m.kind r).setWorker (.busy m .finalizing))
    | none => some (s.leave m fun r => r.releaseLease m)
  | .failed failure => some (s.leave m fun r => r.settleFailure m failure)
  | .finalizing => some ((s.finalize m).setWorker .idle)

end Pair

/-! ## Runs -/

/-- A transaction of the API, a statement of a flush, an answer of SoundCloud, or a fault. -/
inductive Action where
  /-- A tap, some microseconds after the transaction before it. -/
  | tap (k : Kind) (wait : Nat)
  | heal (wait : Nat)
  | forceDue | adopt (k : Kind) | settle (k : Kind) | claim (k : Kind)
  | work
  /-- The execution stops before it sends, for want of a token or of leave to write, or its last
  transaction fails. -/
  | hold
  | respond (response : Response) (lands : Bool)
  /-- The worker stops; a write that it has sent may be on its way. -/
  | crash (pending : Bool)
  | land (k : Kind) | lose (k : Kind)
  /-- The lease of a row runs out, after its writes have arrived or not. -/
  | expire (k : Kind)
  deriving DecidableEq

def pairStep (likeFirst : Bool) (s : Pair) : Action → Option Pair
  | .tap k wait => some (s.tap k (s.clock + 1 + wait))
  | .heal wait => some (s.heal (s.clock + 1 + wait))
  | .forceDue =>
    match s.worker with
    | .idle => some { s with row := fun k => (s.row k).map Row.forceDue }
    | .busy .. => none
  | .adopt k =>
    match s.worker, s.row k with
    | .idle, some r => if r.fresh then some (s.setRow k r.adopt) else none
    | _, _ => none
  | .settle k =>
    match s.worker, s.row k with
    | .idle, some r => some (s.settle k r)
    | _, _ => none
  | .claim k =>
    match s.worker, s.row k with
    | .idle, some r =>
      if r.claimable && s.isHead likeFirst k r then
        some { s.setRow k (r.claim s.nextLease) with
          worker := .busy ⟨k, r.generation, s.nextLease, r.retryCount, r.completed⟩ .claimed
          nextLease := s.nextLease + 1 }
      else none
    | _, _ => none
  | .work =>
    match s.worker with
    | .busy m phase => s.work m phase
    | .idle => none
  | .hold =>
    match s.worker with
    | .busy m .checked => some (s.leave m fun r => r.postpone m)
    | .busy m .finalizing => some (s.leave m fun r => r.postpone m)
    | _ => none
  | .respond response lands =>
    match s.worker with
    | .busy m (.sending refreshed) =>
      some { s with
        worker := .busy m (response.next refreshed)
        remote := if response.applied lands then m.kind.state else s.remote }
    | _ => none
  | .crash pending =>
    match s.worker with
    | .busy m (.sending _) =>
      some { s with worker := .idle, landing := update s.landing m.kind pending }
    | .busy _ _ => some (s.setWorker .idle)
    | .idle => none
  | .land k =>
    if s.landing k then some { s with remote := k.state, landing := update s.landing k false } else none
  | .lose k => some { s with landing := update s.landing k false }
  | .expire k =>
    match s.row k with
    | some r =>
      if s.landing k || s.worker.isOn k then none
      else some (s.setRow k { r with lease := r.lease.map fun lease => { lease with expired := true } })
    | none => none

end SC.Impl.SyncQueue
