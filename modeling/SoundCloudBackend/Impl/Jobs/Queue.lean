import SoundCloudBackend.Framework.Run
import SoundCloudBackend.Impl.Replication.Tombstones
import Mathlib.Algebra.Group.Nat.Defs
import Mathlib.Data.List.Sort

/-!
# The background job queue

`JobRepository` of the worker service over the tables `background_jobs`,
`background_job_enqueues` and `background_job_failures`. Every SQL statement
is one step. A call of the repository that runs several statements
(`complete`, `fail`, `postpone`) is a `Call`, whose statements other steps
come between; a worker makes a call with any leased job that a claim ever
returned.

A timestamp is its number of microseconds and `now` is the time of the
statement. `FOR UPDATE SKIP LOCKED` skips the rows that `locked` names. A
statement that fails (a CHECK, the primary key) changes nothing and is no
step. The columns `leased_by` and `updated_at` are only written.
-/

namespace SC.Impl.Jobs

open Replication (Uuid)

inductive JobLane where
  | coreFast | coreBulk | lookup | maintenance | ops
  deriving DecidableEq

/-- The lease columns, which a CHECK keeps all set or all NULL. -/
structure Lease where
  id : Uuid
  generation : Int
  expiresAt : Int
  deriving DecidableEq

/-- A row of `background_jobs`, for kinds `K` and payloads `P`. -/
structure Job (K P : Type) where
  id : Uuid
  kind : K
  lane : JobLane
  dedupKey : Option String
  payload : P
  priority : Int
  generation : Int
  attempts : Int
  maxAttempts : Int
  availableAt : Int
  lease : Option Lease
  lastError : Option String
  createdAt : Int
  deriving DecidableEq

/-- A row of `background_job_failures`, with the key `(id, generation)`. -/
structure Failure (K P : Type) where
  id : Uuid
  kind : K
  lane : JobLane
  dedupKey : Option String
  payload : P
  priority : Int
  generation : Int
  attempts : Int
  maxAttempts : Int
  lastError : String
  createdAt : Int
  failedAt : Int
  deriving DecidableEq

structure NewJob (K P : Type) where
  id : Uuid
  kind : K
  dedupKey : Option String
  payload : P
  priority : Int
  maxAttempts : Int
  availableAt : Int
  deriving DecidableEq

/-- `LeasedJob`, what a claim returns. -/
structure LeasedJob (K P : Type) where
  id : Uuid
  kind : K
  dedupKey : Option String
  payload : P
  generation : Int
  attempts : Int
  maxAttempts : Int
  leaseId : Uuid
  deriving DecidableEq

inductive ClaimOrder (K : Type) where
  | priority | oldest
  | kind (k : K)
  deriving DecidableEq

inductive QueueError where
  | database | batchTooLarge | mixedLanes | invalidDedupKey
  deriving DecidableEq

inductive Completion where
  | completed | superseded | lostLease
  deriving DecidableEq

/-- A job that `background_jobs` took, under the row and generation that hold it, and a lease that
a claim granted. -/
inductive Event (K P : Type) where
  | accepted (id : Uuid) (generation : Int) (payload : P) (availableAt : Int)
  | granted (job : LeasedJob K P)
  deriving DecidableEq

/-! ## Times, keys and retries -/

def toI64 (n : Nat) : Except QueueError Int :=
  if n < 2 ^ 63 then .ok n else .error .batchTooLarge

def milliseconds (n : Int) : Int :=
  n * 1000

def maxDedupKeyLength : Nat := 1024

def validateDedupKey : Option String → Except QueueError Unit
  | some value =>
    if value.isEmpty ∨ value.utf8ByteSize > maxDedupKeyLength then .error .invalidDedupKey else .ok ()
  | none => .ok ()

def maxErrorLength : Nat := 2000

def truncate (value : String) (maximum : Nat) : String :=
  String.ofList (value.toList.take maximum)

/-- `retry_hash`: FNV-1a over the bytes of the id and of the attempt. -/
def retryHash (jobId : Uuid) (attempt : Int) : UInt64 :=
  let idBytes := (List.range 16).map fun i => (jobId >>> (8 * (15 - i))).toNat % 256
  let attemptBytes := (List.range 4).map fun i => ((attempt / 2 ^ (8 * i)) % 256).toNat
  (idBytes ++ attemptBytes).foldl (fun hash byte => (hash ^^^ UInt64.ofNat byte) * 0x100000001b3) 0xcbf29ce484222325

/-- `retry_delay`, in seconds. -/
def retryDelay (jobId : Uuid) (attempt : Int) : Nat :=
  let exponent := min (attempt - 1).toNat 8
  let base := 2 * 2 ^ exponent
  let jitter := (retryHash jobId attempt).toNat % (base / 4 + 1)
  min (base + jitter) (15 * 60)

def keyLe : List Int → List Int → Bool
  | [], _ => true
  | _ :: _, [] => false
  | a :: as, b :: bs => decide (a < b) || (decide (a = b) && keyLe as bs)

def orderBy {α : Type} (key : α → List Int) (rows : List α) : List α :=
  rows.insertionSort fun a b => keyLe (key a) (key b)

section Model

variable {K P : Type} [DecidableEq K] [DecidableEq P]

/-- `id = $1 AND lease_id = $2 AND lease_generation = $3`. -/
def LeasedJob.leases (job : LeasedJob K P) (r : Job K P) : Bool :=
  decide (r.id = job.id) && r.lease.any fun l => decide (l.id = job.leaseId ∧ l.generation = job.generation)

/-- `… AND generation = $3`: the leased job holds the row at its current generation. -/
def LeasedJob.holds (job : LeasedJob K P) (r : Job K P) : Bool :=
  job.leases r && decide (r.generation = job.generation)

def Job.failure (r : Job K P) (lastError : String) (now : Int) : Failure K P :=
  { r with lastError := lastError, failedAt := now }

/-- `INSERT INTO background_job_failures … ON CONFLICT (id, generation) DO UPDATE`. -/
def upsertFailure (failures : List (Failure K P)) (f : Failure K P) : List (Failure K P) :=
  f :: failures.filter fun x => ¬ (x.id = f.id ∧ x.generation = f.generation)

/-! ## Calls of several statements -/

/-- A call of the repository, at its next statement. `settle` is `fail` after
`has_released_newer_generation` answered false, and `release` is `release_superseded`. -/
inductive Call (K P : Type) where
  | postpone (job : LeasedJob K P) (error : String) (delay : Nat)
  | complete (job : LeasedJob K P)
  | fail (job : LeasedJob K P) (error : String) (retryable : Bool)
  | settle (job : LeasedJob K P) (error : String) (retryable : Bool)
  | heartbeat (job : LeasedJob K P) (leaseDuration : Nat)
  | release (job : LeasedJob K P)
  deriving DecidableEq

def Call.job : Call K P → LeasedJob K P
  | .postpone job .. => job
  | .complete job => job
  | .fail job .. => job
  | .settle job .. => job
  | .heartbeat job _ => job
  | .release job => job

inductive Reply where
  | completion (c : Completion)
  | alive (b : Bool)
  deriving DecidableEq

/-- The three tables, the calls in flight and the history of accepted and claimed jobs, the newest
first. -/
structure Queue (K P : Type) where
  jobs : List (Job K P)
  enqueues : List Uuid
  failures : List (Failure K P)
  calls : List (Call K P)
  log : List (Event K P)
  clock : Int

def Queue.empty (clock : Int) : Queue K P :=
  { jobs := [], enqueues := [], failures := [], calls := [], log := [], clock := clock }

namespace Queue

/-- `UPDATE background_jobs SET … WHERE …`, with the number of rows. -/
def update (q : Queue K P) (p : Job K P → Bool) (f : Job K P → Job K P) : Queue K P × Nat :=
  ({ q with jobs := q.jobs.map fun r => if p r then f r else r }, (q.jobs.filter p).length)

/-- `DELETE FROM background_jobs WHERE …`, with the rows. -/
def delete (q : Queue K P) (p : Job K P → Bool) : Queue K P × List (Job K P) :=
  ({ q with jobs := q.jobs.filter fun r => ¬ p r }, q.jobs.filter p)

/-! ## Enqueue -/

/-- The row that `ON CONFLICT (kind, dedup_key) WHERE dedup_key IS NOT NULL` meets. -/
def conflicting (q : Queue K P) (job : NewJob K P) : Option (Job K P) :=
  q.jobs.find? fun r => decide (r.kind = job.kind ∧ job.dedupKey.isSome ∧ r.dedupKey = job.dedupKey)

def inserted (lane : K → JobLane) (job : NewJob K P) (now : Int) : Job K P :=
  { id := job.id, kind := job.kind, lane := lane job.kind, dedupKey := job.dedupKey, payload := job.payload
    priority := job.priority, generation := 1, attempts := 0, maxAttempts := job.maxAttempts
    availableAt := job.availableAt, lease := none, lastError := none, createdAt := now }

/-- The `DO UPDATE` of `enqueue.sql`. -/
def coalesced (lane : K → JobLane) (job : NewJob K P) (r : Job K P) : Job K P :=
  { r with
    lane := lane job.kind
    payload := job.payload
    priority := max r.priority job.priority
    generation := r.generation + 1
    attempts := 0
    maxAttempts := job.maxAttempts
    availableAt :=
      if r.lease.any fun l => decide (l.generation = r.generation) then job.availableAt
      else min r.availableAt job.availableAt
    lastError := none }

/-- The insert branch of `enqueue.sql` and `enqueue_if_absent.sql`. -/
def insert (lane : K → JobLane) (q : Queue K P) (now : Int) (job : NewJob K P) : Except QueueError (Queue K P) :=
  if q.jobs.any fun r => decide (r.id = job.id) then .error .database
  else if job.maxAttempts ≤ 0 then .error .database
  else .ok { q with
    jobs := q.jobs ++ [inserted lane job now]
    enqueues := job.id :: q.enqueues
    log := .accepted job.id 1 job.payload job.availableAt :: q.log }

def enqueue (lane : K → JobLane) (q : Queue K P) (now : Int) (job : NewJob K P) : Except QueueError (Queue K P) := do
  validateDedupKey job.dedupKey
  if job.id ∈ q.enqueues then
    return q
  match q.conflicting job with
  | none => q.insert lane now job
  | some r =>
    if job.maxAttempts ≤ 0 then
      throw .database
    else
      return { (q.update (fun x => decide (x.id = r.id)) (coalesced lane job)).1 with
        enqueues := job.id :: q.enqueues
        log := .accepted r.id (r.generation + 1) job.payload job.availableAt :: q.log }

def enqueueIfAbsent (lane : K → JobLane) (q : Queue K P) (now : Int) (job : NewJob K P) :
    Except QueueError (Queue K P) := do
  validateDedupKey job.dedupKey
  if job.id ∈ q.enqueues then
    return q
  match q.conflicting job with
  | none => q.insert lane now job
  | some r =>
    return { (q.update (fun x => decide (x.id = r.id ∧ (x.priority < job.priority ∨ x.lane ≠ lane job.kind)))
        (fun x => { x with lane := lane job.kind, priority := max x.priority job.priority })).1 with
      enqueues := job.id :: q.enqueues }

/-! ## Claims -/

def singleLane (lane : K → JobLane) (k : K) (kinds : List K) : Except QueueError JobLane :=
  if kinds.any fun k' => lane k' ≠ lane k then .error .mixedLanes else .ok (lane k)

def claimKey (order : ClaimOrder K) (r : Job K P) : List Int :=
  match order with
  | .oldest => [r.availableAt, r.createdAt, -r.priority, r.id.toNat]
  | .priority | .kind _ => [-r.priority, r.availableAt, r.createdAt, r.id.toNat]

/-- The WHERE clause of `claim_priority.sql` and `claim_oldest.sql`, and of `claim_kind.sql`. -/
def claimable (now : Int) (kinds : List K) (order : ClaimOrder K) (lane : JobLane) (r : Job K P) : Bool :=
  decide (r.availableAt ≤ now ∧ r.attempts < r.maxAttempts ∧ r.lease = none) &&
    match order with
    | .kind k => decide (r.kind = k)
    | .priority | .oldest => decide (r.kind ∈ kinds ∧ r.lane = lane)

/-- The lane after a claim: only `claim_kind.sql` sets it. -/
def claimLane (lane : K → JobLane) (order : ClaimOrder K) (r : Job K P) : JobLane :=
  match order with
  | .kind k => lane k
  | .priority | .oldest => r.lane

def claimed (lane : K → JobLane) (order : ClaimOrder K) (now duration : Int) (leaseId : Uuid) (r : Job K P) : Job K P :=
  { r with
    lane := claimLane lane order r
    lease := some { id := leaseId, generation := r.generation, expiresAt := now + milliseconds duration }
    attempts := r.attempts + 1 }

def leased (r : Job K P) (leaseId : Uuid) : LeasedJob K P :=
  { r with leaseId := leaseId }

/-- The UPDATE of a claim on one candidate. -/
def grant (lane : K → JobLane) (order : ClaimOrder K) (now duration : Int) (uuid : Uuid → Uuid) (q : Queue K P)
    (id : Uuid) : Queue K P :=
  match q.jobs.find? fun r => decide (r.id = id) with
  | none => q
  | some r =>
    let r' := claimed lane order now duration (uuid id) r
    { (q.update (fun x => decide (x.id = id)) fun _ => r').1 with log := .granted (leased r' (uuid id)) :: q.log }

def candidates (q : Queue K P) (now : Int) (kinds : List K) (order : ClaimOrder K) (lane : JobLane) (limit : Nat)
    (locked : Uuid → Bool) : List Uuid :=
  ((orderBy (claimKey order)
    (q.jobs.filter fun r => claimable now kinds order lane r && !locked r.id)).take limit).map Job.id

/-- `claim`. `uuid` is the `gen_random_uuid()` of each candidate: it repeats no lease id. -/
def claim (lane : K → JobLane) (q : Queue K P) (now : Int) (kinds : List K) (order : ClaimOrder K) (limit duration : Nat)
    (locked : Uuid → Bool) (uuid : Uuid → Uuid) : Except QueueError (Queue K P) := do
  match kinds with
  | [] => return q
  | k :: _ =>
    if limit = 0 then
      return q
    let claimLane ← singleLane lane k kinds
    let _ ← toI64 limit
    let duration ← toI64 duration
    return (q.candidates now kinds order claimLane limit locked).foldl (grant lane order now duration uuid) q

def leaseIds (log : List (Event K P)) : List Uuid :=
  log.filterMap fun
    | .granted job => some job.leaseId
    | .accepted .. => none

/-- The lease ids of a claim are new and differ from each other. -/
def Fresh (q : Queue K P) (ids : List Uuid) (uuid : Uuid → Uuid) : Prop :=
  (ids.map uuid).Nodup ∧ ∀ id ∈ ids, uuid id ∉ leaseIds q.log

instance (q : Queue K P) (ids : List Uuid) (uuid : Uuid → Uuid) : Decidable (q.Fresh ids uuid) :=
  -- over the list: `Uuid` is finite, and the search over all of it would be found first
  haveI : Decidable (∀ id ∈ ids, uuid id ∉ leaseIds q.log) := List.decidableBAll ..
  inferInstanceAs (Decidable ((ids.map uuid).Nodup ∧ ∀ id ∈ ids, uuid id ∉ leaseIds q.log))

def unleased (r : Job K P) : Job K P :=
  { r with lease := none }

def releaseExpired (lane : K → JobLane) (q : Queue K P) (now : Int) (kinds : List K) (limit : Nat) (locked : Uuid → Bool) :
    Except QueueError (Queue K P) := do
  match kinds with
  | [] => return q
  | k :: _ =>
    if limit = 0 then
      return q
    let newLane ← singleLane lane k kinds
    let _ ← toI64 limit
    let expired := ((orderBy (fun r => [(r.lease.map Lease.expiresAt).getD 0, r.createdAt, r.id.toNat])
      (q.jobs.filter fun r => decide (r.attempts < r.maxAttempts) && (r.lease.any fun l => decide (l.expiresAt ≤ now)) &&
        decide (r.kind ∈ kinds) && !locked r.id)).take limit).map Job.id
    return (q.update (fun r => decide (r.id ∈ expired)) fun r =>
      { unleased r with lane := newLane, availableAt := min r.availableAt now }).1

def exhausted (now : Int) (r : Job K P) : Bool :=
  decide (r.attempts ≥ r.maxAttempts) && r.lease.all fun l => decide (l.expiresAt ≤ now)

def exhaustedError (r : Job K P) : String :=
  if r.lease.isSome then "lease expired after final attempt" else r.lastError.getD "attempts exhausted"

def recoverExhausted (q : Queue K P) (now : Int) (limit : Nat) (locked : Uuid → Bool) :
    Except QueueError (Queue K P) := do
  if limit = 0 then
    return q
  let _ ← toI64 limit
  let candidates := ((orderBy (fun r => r.lease.elim [0] (fun l => [1, l.expiresAt]) ++ [r.createdAt])
    (q.jobs.filter fun r => exhausted now r && !locked r.id)).take limit).map Job.id
  let (q', rows) := q.delete fun r => decide (r.id ∈ candidates)
  return { q' with failures := rows.foldl (fun fs r => upsertFailure fs (r.failure (exhaustedError r) now)) q.failures }

/-- `realign_lanes.sql` for the rows after `after`. -/
def realignLanes (lane : K → JobLane) (q : Queue K P) (after : Uuid) (step : Nat) (locked : Uuid → Bool) : Queue K P :=
  let scanned := ((orderBy (fun r => [(r.id.toNat : Int)]) (q.jobs.filter fun r => decide (after < r.id))).take step).map
    Job.id
  (q.update (fun r => decide (r.id ∈ scanned ∧ r.lane ≠ lane r.kind ∧ r.lease = none) && !locked r.id) fun r =>
    { r with lane := lane r.kind }).1

/-! ## The holder's statements -/

/-- `dead_letter.sql`, with the number of rows. -/
def deadLetter (q : Queue K P) (now : Int) (job : LeasedJob K P) (error : String) : Queue K P × Nat :=
  let (q', rows) := q.delete job.holds
  ({ q' with failures := rows.foldl (fun fs r => upsertFailure fs (r.failure error now)) q.failures }, rows.length)

def releaseSuperseded (q : Queue K P) (job : LeasedJob K P) : Queue K P × Nat :=
  q.update (fun r => job.leases r && decide (r.generation ≠ job.generation)) unleased

def clampDelay (delay : Nat) : Nat :=
  min (max delay 1000) 86400000

/-- The next statement of a call: the tables after it, and the rest of the call or what it returns. -/
def advance (q : Queue K P) (now : Int) : Call K P → Except QueueError (Queue K P × (Call K P ⊕ Reply))
  | .postpone job error delay => do
    let delay ← toI64 (clampDelay delay)
    let (q, updated) := q.update (fun r => job.holds r && r.lease.any fun l => decide (now < l.expiresAt)) fun r =>
      { unleased r with
        attempts := max (r.attempts - 1) 0
        availableAt := now + milliseconds delay
        lastError := some (truncate error maxErrorLength) }
    return (q, if updated = 1 then .inr (.completion .completed) else .inl (.release job))
  | .complete job =>
    let (q, deleted) := q.delete job.holds
    return (q, if deleted.length = 1 then .inr (.completion .completed) else .inl (.release job))
  | .fail job error retryable =>
    let (q, released) := q.releaseSuperseded job
    return (q, if released = 1 then .inr (.completion .superseded) else .inl (.settle job error retryable))
  | .settle job error retryable => do
    let error := truncate error maxErrorLength
    if !retryable || decide (job.attempts ≥ job.maxAttempts) then
      let (q, moved) := q.deadLetter now job error
      return (q, if moved = 1 then .inr (.completion .completed) else .inl (.release job))
    else
      let delay ← toI64 (retryDelay job.id job.attempts * 1000)
      let (q, updated) := q.update job.holds fun r =>
        { unleased r with availableAt := now + milliseconds delay, lastError := some error }
      return (q, if updated = 1 then .inr (.completion .completed) else .inl (.release job))
  | .heartbeat job leaseDuration => do
    let duration ← toI64 leaseDuration
    let (q, updated) := q.update job.holds fun r =>
      { r with lease := r.lease.map fun l => { l with expiresAt := now + milliseconds duration } }
    return (q, .inr (.alive (decide (updated = 1))))
  | .release job =>
    let (q, released) := q.releaseSuperseded job
    return (q, .inr (.completion (if released = 1 then .superseded else .lostLease)))

end Queue

/-! ## Steps -/

inductive Action (K P : Type) where
  | enqueue (job : NewJob K P)
  | enqueueIfAbsent (job : NewJob K P)
  | claim (kinds : List K) (order : ClaimOrder K) (limit duration : Nat) (locked : Uuid → Bool) (uuid : Uuid → Uuid)
  | releaseExpired (kinds : List K) (limit : Nat) (locked : Uuid → Bool)
  | recoverExhausted (limit : Nat) (locked : Uuid → Bool)
  | realignLanes (after : Uuid) (step : Nat) (locked : Uuid → Bool)
  /-- A worker starts a call with a leased job that a claim returned. -/
  | call (c : Call K P)
  | advance (i : Nat)

namespace Queue

/-- The calls in flight after the `i`th has run a statement. -/
def settleCall (calls : List (Call K P)) (i : Nat) : Call K P ⊕ Reply → List (Call K P)
  | .inl c => calls.set i c
  | .inr _ => calls.eraseIdx i

/-- A step at the time `now`, which does not go back. -/
def step (lane : K → JobLane) (q : Queue K P) (a : Int × Action K P) : Option (Queue K P) :=
  if a.1 < q.clock then
    none
  else
    let now := a.1
    let q := { q with clock := now }
    match a.2 with
    | .enqueue job => (q.enqueue lane now job).toOption
    | .enqueueIfAbsent job => (q.enqueueIfAbsent lane now job).toOption
    | .claim kinds order limit duration locked uuid =>
      if q.Fresh (q.jobs.map Job.id) uuid then
        (q.claim lane now kinds order limit duration locked uuid).toOption
      else none
    | .releaseExpired kinds limit locked => (q.releaseExpired lane now kinds limit locked).toOption
    | .recoverExhausted limit locked => (q.recoverExhausted now limit locked).toOption
    | .realignLanes after step locked => some (q.realignLanes lane after step locked)
    | .call c => if .granted c.job ∈ q.log then some { q with calls := q.calls ++ [c] } else none
    | .advance i =>
      match q.calls[i]? with
      | none => none
      | some c => ((q.advance now c).map fun r => { r.1 with calls := settleCall q.calls i r.2 }).toOption

end Queue

end Model

end SC.Impl.Jobs
