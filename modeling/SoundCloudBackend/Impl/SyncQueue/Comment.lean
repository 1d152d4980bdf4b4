import SoundCloudBackend.Impl.SyncQueue.Worker

/-!
# The row of a queued comment

A comment gets a row of its own (`enqueue_on`), so its generation never changes.
SoundCloud cannot be asked whether a comment arrived: the worker records the
attempt before it sends the POST, and a worker that finds an attempt without a
result parks the row. The statements of `jobs/queries/sync_queue/*.sql` and
`SyncQueueHandler::execute` (`jobs/src/handlers/sync_queue/mod.rs`) are those of
the `comment` action here, with any number of executions at a time, each under
the lease that it claimed.
-/

namespace SC.Impl.SyncQueue.Comment

/-- The row that `enqueue_on` inserts, or its copy on the core. -/
def queued (createdAt generation intentV : Int) (execGeneration : Option Int) (cancelled : Bool) : Row where
  createdAt := createdAt
  generation := generation
  intentV := intentV
  execGeneration := execGeneration
  cancelled := cancelled
  dead := false
  retryCount := 0
  lease := none
  attempted := none
  completed := none

/-- `ClaimedMutation`, the columns that the worker reads. A result is stored with `completed`. -/
structure Mutation where
  generation : Int
  leaseId : Nat
  attempted : Option Int
  completed : Option Int
  deriving DecidableEq

/-! ## Statements on the row -/

namespace Mutation

variable (m : Mutation)

def hasRemoteResult : Bool := m.completed = some m.generation

def hasAmbiguousRemoteAttempt : Bool := m.attempted = some m.generation ∧ !m.hasRemoteResult

def owns (r : Row) : Bool := r.lease.any fun lease => lease.id = m.leaseId ∧ lease.generation = m.generation

def release (r : Row) : Row := if m.owns r then { r with lease := none } else r

/-- `record_remote_attempt.sql`; `none` if it changes no row, as below. -/
def recordRemoteAttempt (r : Row) : Option Row :=
  if m.owns r ∧ r.generation = m.generation ∧ r.completed = none then
    some { r with attempted := some m.generation }
  else none

def recordRemoteSuccess (r : Row) : Option Row :=
  if m.owns r ∧ r.generation = m.generation ∧ r.attempted = some m.generation ∧ r.completed = none then
    some { r with completed := some m.generation }
  else none

def postpone (r : Row) : Option Row :=
  if m.owns r ∧ r.generation = m.generation then some { r with lease := none } else none

/-- `postpone_unattempted.sql`: a comment forgets its attempt. -/
def postponeUnattempted (r : Row) : Option Row :=
  if m.owns r ∧ r.generation = m.generation ∧ r.completed = none then
    some { r with lease := none, attempted := none }
  else none

/-- `park.sql` with `SYNC_QUEUE_MAX_RETRIES`. -/
def park (r : Row) : Option Row :=
  if m.owns r ∧ r.generation = m.generation then
    some { r with lease := none, dead := true, retryCount := maxRetries }
  else none

/-- `finalize`: a comment leaves nothing else to apply, its row is purged. -/
def finalize (r : Row) : Option Row :=
  if m.owns r ∧ r.generation = m.generation ∧ r.completed = some m.generation then none
  else some (m.release r)

end Mutation

/-! ## The execution of a mutation -/

/-- What a POST is answered with. `clientError` is any other status of 4xx, and `unclear` what is left: an
answer of the server that is not one, an answer too large, or none. -/
inductive Answer where
  | written | unauthorized | banned | subscriptionRequired | accountRateLimited | appRateLimited
  | clientError | unclear
  deriving DecidableEq

def Answer.refused : Answer → Bool
  | .unauthorized | .banned | .subscriptionRequired | .accountRateLimited | .appRateLimited => true
  | .written | .clientError | .unclear => false

inductive Ending where
  | postpone | postponeUnattempted | park
  deriving DecidableEq

inductive Phase where
  | claimed | checked
  /-- The attempt is recorded and the write gate comes next, with a renewed token or not. -/
  | ready (renewed : Bool)
  /-- A POST is sent, through the proxy or directly. -/
  | sending (renewed direct : Bool)
  /-- `refresh_rejected_token`, and `reject_for_later` after it. -/
  | renewing | rejecting
  | written | finalizing
  | ending (ending : Ending)
  | releasing
  deriving DecidableEq

def Mutation.postponeBeforePost (m : Mutation) : Phase :=
  .ending (if m.hasAmbiguousRemoteAttempt then .postpone else .postponeUnattempted)

/-- The phase after an answer: `send_routed`, `execute` and `record_non_idempotent_failure`. -/
def Answer.next (renewed direct : Bool) : Answer → Phase
  | .written => .written
  | .unauthorized => if renewed then .rejecting else .renewing
  | .banned | .subscriptionRequired | .accountRateLimited => .ending .postponeUnattempted
  | .appRateLimited => if direct then .ending .postponeUnattempted else .sending renewed true
  | .clientError | .unclear => .ending .park

def Mutation.settle (m : Mutation) : Ending → Row → Option Row
  | .postpone => m.postpone
  | .postponeUnattempted => m.postponeUnattempted
  | .park => m.park

structure Worker where
  m : Mutation
  phase : Phase
  deriving DecidableEq

def Worker.claimed (r : Row) (l : Nat) : Worker := ⟨⟨r.generation, l, r.attempted, r.completed⟩, .claimed⟩

/-! ## Runs -/

/-- The row until it is purged, the executions and the POSTs that may still arrive by their leases, and how
often SoundCloud took the comment. -/
structure Queue where
  row : Option Row
  worker : Nat → Option Worker
  inFlight : Nat → Bool
  effects : Nat
  nextLease : Nat

namespace Queue

def start (r : Row) : Queue where
  row := some r
  worker := fun _ => none
  inFlight := fun _ => false
  effects := 0
  nextLease := 0

def setWorker (s : Queue) (l : Nat) (w : Option Worker) : Queue := { s with worker := Function.update s.worker l w }

def setInFlight (s : Queue) (l : Nat) (sent : Bool) : Queue :=
  { s with inFlight := Function.update s.inFlight l sent }

def claim (s : Queue) (r : Row) : Queue :=
  { { s with row := some (r.claim s.nextLease) }.setWorker s.nextLease (some (.claimed r s.nextLease)) with
    nextLease := s.nextLease + 1 }

def perform (s : Queue) (l : Nat) (w : Worker) (statement : Row → Option Row) (next : Option Worker) : Queue :=
  match s.row.bind statement with
  | some r => { s with row := some r }.setWorker l next
  | none => s.setWorker l (some { w with phase := .releasing })

/-- The next step of an execution by itself. Comments are never private and never superseded. -/
def work (s : Queue) (l : Nat) (w : Worker) : Option Queue :=
  match w.phase with
  | .claimed =>
    some (s.setWorker l (some { w with
      phase :=
        if w.m.hasRemoteResult then .finalizing
        else if w.m.hasAmbiguousRemoteAttempt then .ending .park
        else .checked }))
  | .checked => some (s.perform l w w.m.recordRemoteAttempt (some { w with phase := .ready false }))
  | .renewing => some (s.setWorker l (some { w with phase := .ready true }))
  | .rejecting => some (s.setWorker l (some { w with phase := w.m.postponeBeforePost }))
  | .written => some (s.perform l w w.m.recordRemoteSuccess (some { w with phase := .finalizing }))
  | .finalizing => some ({ s with row := s.row.bind w.m.finalize }.setWorker l none)
  | .ending e => some (s.perform l w (w.m.settle e) none)
  | .releasing => some ({ s with row := s.row.map w.m.release }.setWorker l none)
  | .ready _ | .sending .. => none

/-- An answer to the POST of the execution. A refusal says that the POST did not arrive, `written` that it
did. A proxied POST that the limit of the application stopped is sent again directly. -/
def respond (s : Queue) (l : Nat) (w : Worker) (renewed direct : Bool) (answer : Answer) : Option Queue :=
  let next := answer.next renewed direct
  let s' := s.setWorker l (some { w with phase := next })
  if answer.refused then
    if s.inFlight l then some (s'.setInFlight l (next = .sending renewed true)) else none
  else if answer = .written then
    some { s'.setInFlight l false with effects := s.effects + (s.inFlight l).toNat }
  else some s'

end Queue

/-- A statement of a flush, a step of an execution under its lease, an answer, or a fault. -/
inductive Action where
  | forceDue | adopt | settle | claim
  | work (l : Nat)
  | hold (l : Nat)
  | send (l : Nat) (direct : Bool)
  | respond (l : Nat) (answer : Answer)
  /-- The payload, or the result, is none of a comment. -/
  | invalid (l : Nat)
  | fail (l : Nat)
  /-- A POST takes effect, with or without the execution that sent it. -/
  | land (l : Nat)
  | crash (l : Nat)
  | expire
  deriving DecidableEq

def step (s : Queue) : Action → Option Queue
  | .forceDue => some { s with row := s.row.map Row.forceDue }
  | .adopt => some { s with row := s.row.map fun r => if r.fresh then r.adopt else r }
  | .settle => some { s with row := s.row.filter fun r => !(r.cancelled && r.idle) }
  | .claim => s.row.bind fun r => if r.claimable then some (s.claim r) else none
  | .work l => (s.worker l).bind fun w => s.work l w
  | .hold l =>
    (s.worker l).bind fun w =>
      match w.phase with
      | .checked | .ready _ | .renewing => some (s.setWorker l (some { w with phase := w.m.postponeBeforePost }))
      | _ => none
  | .send l direct =>
    (s.worker l).bind fun w =>
      match w.phase with
      | .ready renewed => some ((s.setWorker l (some { w with phase := .sending renewed direct })).setInFlight l true)
      | _ => none
  | .respond l answer =>
    (s.worker l).bind fun w =>
      match w.phase with
      | .sending renewed direct => s.respond l w renewed direct answer
      | _ => none
  | .invalid l =>
    (s.worker l).bind fun w =>
      match w.phase with
      | .ready _ | .finalizing => some (s.setWorker l (some { w with phase := .ending .park }))
      | _ => none
  | .fail l =>
    (s.worker l).bind fun w =>
      match w.phase with
      | .finalizing => some (s.setWorker l (some { w with phase := .ending .postpone }))
      | _ => none
  | .land l =>
    if s.inFlight l then some { s.setInFlight l false with effects := s.effects + 1 } else none
  | .crash l => some (s.setWorker l none)
  | .expire =>
    some { s with row := s.row.map fun r => { r with lease := r.lease.map fun lease => { lease with expired := true } } }

end SC.Impl.SyncQueue.Comment
