import SoundCloudBackend.Impl.Worker.Lease

/-!
# One call of `QueueHandler.handle`

The call from its `attach` to its end (`worker/bus/lane_runner.py`), with the heartbeat of
its lease (`worker/bus/lease.py`) and the publishing of its result (`worker/bus/outbox.py`).
A `Phase` is the await at which the call stands, and a `Turn` what it does from there to
the next one. `nak` is one step with its answer.
-/

namespace SC.Impl.Worker

/-! ## Awaits -/

inductive PublishWait where
  | reconnect
  | puback
  | backoff (wakeAt : Int)

/-- The variables of `_publish_until_acked`. -/
structure Publish where
  started : Int
  giveUp : Option Int
  backoff : Int
  wait : PublishWait

/-- The errors of a publish that ends without an answer of the stream. -/
inductive PublishError where
  | timedOut
  | connectionClosed
  deriving DecidableEq

/-- The loop a publish belongs to: `_publish_result` or `_publish_compact`. -/
inductive Job where
  | result (outcome : Outcome)
  | compact (outcome : Outcome)

/-- Where `Lease.ack` was called: in `_settle` after a join, or in `_publish_and_ack`. -/
inductive AckSite where
  | joined
  | published
  deriving DecidableEq

inductive AckWait where
  | reconnect
  | answer
  | pause (wakeAt : Int)

inductive Fault where
  | lastDelivery
  | alreadySettled
  deriving DecidableEq

/-- The await of a call: `owner.wait_settled()`; the race of the processor and the abort; the cancelled loser of the
race; the publish of a result; the sleep of a blocked lane; the ack; the heartbeat that is cancelled at the end. -/
inductive Phase where
  | joining (owner : Nat)
  | processing (work : Option Worked)
  | stopping (work : Option Worked)
  | cancelling
  | publishing (job : Job) (publish : Publish)
  | blocked (outcome : Outcome) (wakeAt : Int)
  | acking (site : AckSite) (attempt : Nat) (giveUpAt : Int) (wait : AckWait)
  | closing (fault : Option Fault)
  | ended (fault : Option Fault)

namespace Phase

def working : Phase → Bool
  | processing _ | stopping _ | cancelling | publishing _ _ | blocked _ _ => true
  | joining _ | acking _ _ _ _ | closing _ | ended _ => false

def isEnded : Phase → Bool
  | ended _ => true
  | _ => false

def runsWork : Phase → Bool
  | processing none | stopping none | cancelling => true
  | _ => false

end Phase

inductive Beat where
  | sleeping (wakeAt : Int)
  | sending
  | over

/-- A call with its lease. `sawStale` notes that its processor saw the lease stale. -/
structure Handle (κ : Type*) where
  lease : Lease κ
  phase : Phase
  beat : Beat
  sawStale : Bool

/-- A call between two awaits, with the events of this turn. -/
structure Turn (κ : Type*) extends Handle κ where
  now : Int
  connection : Connection
  events : List (Event κ)

/-- What `_encode_within_limit` finds: the body fits, it fits without the optional fields, or it cannot be sent. -/
inductive Encoding where
  | fits
  | trimmed
  | unfit

theorem modelOutputInvalid_mem : Reason.modelOutputInvalid ∈ failedReasons := by decide
theorem internalError_mem : Reason.internalError ∈ failedReasons := by decide
theorem engineRestarted_mem : Reason.engineRestarted ∈ failedReasons := by decide
theorem deadlineExceeded_mem : Reason.deadlineExceeded ∈ failedReasons := by decide

def encodeWithinLimit : Encoding → Outcome → Outcome
  | .fits, outcome => outcome
  | .trimmed, outcome => outcome
  | .unfit, _ => .failed .modelOutputInvalid modelOutputInvalid_mem

namespace Turn

variable {κ : Type*} (lane : Lane) (t : Turn κ)

/-! ## The lease -/

def isLastDelivery : Bool := lane.isLastDelivery t.lease.numDelivered

def isStale : Bool := t.lease.isStale lane t.connection t.now

/-- The note that `is_stale` leaves when it is true. -/
def markStale : Turn κ := { t with lease := { t.lease with stale := t.isStale lane } }

def emit (e : Event κ) : Turn κ := { t with events := t.events ++ [e] }

def goto (phase : Phase) : Turn κ := { t with phase := phase }

def settle (s : Settled) : Turn κ :=
  if t.lease.settled.isSome then t
  else
    { t with
      lease := { t.lease with settled := some s }
      events := t.events ++ [.settled s t.lease.numDelivered (t.isStale lane) t.connection.closed] }

/-- The `finally` of `handle` up to its await: the heartbeat is cancelled. -/
def leave (fault : Option Fault) : Turn κ := { t with phase := .closing fault, beat := .over }

def adopt (numDelivered : Nat) : Turn κ :=
  { t with
    lease := { t.lease with numDelivered := numDelivered, lastProgressAt := t.now, stale := false }
    events := t.events ++ [.adopted numDelivered t.now] }

/-- `Lease.release_transient`; its callers return after it. -/
def releaseTransient (delay : Int) (nakOk : Bool) : Turn κ :=
  if t.lease.settled.isSome then t.leave (some .alreadySettled)
  else if t.isStale lane || t.connection.suspicious || !t.connection.isConnected then
    ((t.markStale lane).settle lane .dropped).leave none
  else if t.isLastDelivery lane then t.leave (some .lastDelivery)
  else ((t.emit (.nak t.lease.numDelivered delay t.now)).settle lane (if nakOk then .nacked else .dropped)).leave none

def release (nakOk : Bool) : Turn κ := t.releaseTransient lane (lane.nakDelay t.lease.numDelivered) nakOk

/-- The end of `Lease.ack`, with or without an answer: the lease is settled as published. -/
def acked : Turn κ := (t.settle lane .published).leave none

/-- The loop of `Lease.ack` from its head to the next await. -/
def ackLoop (site : AckSite) (attempt : Nat) (giveUpAt : Int) : Turn κ :=
  if attempt < ackAttempts then
    if t.connection.isConnected then
      (t.emit (.ack t.lease.streamSeq)).goto (.acking site (attempt + 1) giveUpAt .answer)
    else if giveUpAt - t.now ≤ 0 ∨ t.connection.closed then t.acked lane
    else t.goto (.acking site attempt giveUpAt .reconnect)
  else t.acked lane

def ack (site : AckSite) : Turn κ :=
  if t.lease.settled.isSome then t.leave (some .alreadySettled)
  else t.ackLoop lane site 0 (t.now + lane.ackTimeout * ackAttempts)

/-! ## Publishing -/

def checkGiveUp (p : Publish) : Option PublishError :=
  if t.connection.closed then some .connectionClosed
  else if p.giveUp.any fun after => after ≤ t.now - p.started then some .timedOut
  else none

/-- The loop of `_publish_until_acked` from its head to the next await. -/
def publishLoop (p : Publish) : Except PublishError Publish :=
  if t.connection.isConnected then .ok { p with wait := .puback }
  else
    match t.checkGiveUp p with
    | some e => .error e
    | none => .ok { p with wait := .reconnect }

def publish (giveUp : Option Int) : Except PublishError Publish :=
  t.publishLoop { started := t.now, giveUp := giveUp, backoff := lane.backoffStart, wait := .reconnect }

/-- A `PublishTimedOut` in `_publish_result`. On the last delivery the loop publishes again without a limit, which can
only fail if the connection is closed. -/
def publishTimedOut (nakOk : Bool) (outcome : Outcome) (e : PublishError) : Turn κ :=
  if e = .connectionClosed ∨ t.isLastDelivery lane = false then t.release lane nakOk
  else
    match t.publish lane none with
    | .ok p => t.goto (.publishing (.result outcome) p)
    | .error _ => t.release lane nakOk

def publishResult (nakOk : Bool) (outcome : Outcome) : Turn κ :=
  match t.publish lane (if t.isLastDelivery lane then none else some lane.publishGiveUp) with
  | .ok p => t.goto (.publishing (.result outcome) p)
  | .error e => t.publishTimedOut lane nakOk outcome e

/-- `_publish_compact`; when it gives up, `handle` ends with the lease unsettled. -/
def publishCompact (outcome : Outcome) : Turn κ :=
  match t.publish lane none with
  | .ok p => t.goto (.publishing (.compact outcome) p)
  | .error _ => t.leave none

def publishFailed (nakOk : Bool) : Job → PublishError → Turn κ
  | .result outcome, e => t.publishTimedOut lane nakOk outcome e
  | .compact _, _ => t.leave none

def publishAgain (nakOk : Bool) (job : Job) (p : Publish) : Turn κ :=
  match t.publishLoop p with
  | .ok p => t.goto (.publishing job p)
  | .error e => t.publishFailed lane nakOk job e

def outcomeOf : Job → Outcome
  | .result outcome => outcome
  | .compact outcome => outcome

def store (job : Job) (acknowledged : Bool) : Turn κ :=
  t.emit (.stored t.lease.correlation t.lease.streamSeq (outcomeOf job).status acknowledged)

def storeIf (stored : Bool) (job : Job) : Turn κ := if stored then t.store job false else t

/-- `js.publish` returned: with a PubAck, with an error that rejects the result, or with another error, a timeout among
them, after which the result is in the stream or not. -/
inductive PubAnswer where
  | acked
  | rejected
  | timedOut (stored : Bool)
  | failed (stored : Bool)

/-- `_note_failure` and what follows it. -/
def publishBackoff (nakOk : Bool) (job : Job) (p : Publish) : Turn κ :=
  match t.checkGiveUp p with
  | some e => t.publishFailed lane nakOk job e
  | none =>
    t.goto (.publishing job
      { p with wait := .backoff (t.now + p.backoff), backoff := min (p.backoff * 2) lane.backoffCap })

def pubAnswer (nakOk : Bool) (job : Job) (p : Publish) : PubAnswer → Turn κ
  | .acked => ({ t.store job true with connection := t.connection.trust } : Turn κ).ack lane .published
  | .rejected =>
    match job with
    | .result _ => t.publishCompact lane (.failed .internalError internalError_mem)
    | .compact outcome => t.goto (.blocked outcome (t.now + lane.degradedProbe))
  | .timedOut stored =>
    ({ t.storeIf stored job with connection := t.connection.suspectIfConnected } : Turn κ).publishBackoff lane nakOk job p
  | .failed stored => (t.storeIf stored job).publishBackoff lane nakOk job p

/-! ## The outcome -/

/-- `_released_for_retry` is false: the last delivery of a lease that is not stale. -/
def keepsLast : Bool := t.isLastDelivery lane && !t.isStale lane

/-- `_publish_and_ack` up to its first await. -/
def publishAndAck (encoding : Encoding) (nakOk : Bool) (outcome : Outcome) : Turn κ :=
  t.publishResult lane nakOk (encodeWithinLimit encoding outcome)

/-- An outcome that can be tried again: `_transient`, and the end of `_outcome`. -/
def retryOr (encoding : Encoding) (nakOk : Bool) (outcome : Outcome) : Turn κ :=
  if t.keepsLast lane then t.publishAndAck lane encoding nakOk outcome else t.release lane nakOk

def takeOutcome (encoding : Encoding) (nakOk : Bool) : Worked → Turn κ
  | .dropped => (t.settle lane .dropped).leave none
  | .transient reason h => t.retryOr lane encoding nakOk (.failed reason (mem_failedReasons h))
  | .permanent reason _ => t.publishAndAck lane encoding nakOk (.of reason)
  | .crashed => t.retryOr lane encoding nakOk (.failed .internalError internalError_mem)
  | .outcome outcome =>
    if outcome.transient then t.retryOr lane encoding nakOk outcome
    else t.publishAndAck lane encoding nakOk outcome

def abortedOutcome : Outcome :=
  if .engineRestarted ∈ lane.reopenable then .failed .engineRestarted engineRestarted_mem
  else .failed .deadlineExceeded deadlineExceeded_mem

def abortOutcome (encoding : Encoding) (nakOk : Bool) : Turn κ :=
  if lane.maxDeliver ≤ 0 ∨ t.lease.numDelivered < lane.maxDeliver - 1 then
    t.releaseTransient lane lane.drainNakDelay nakOk
  else t.publishAndAck lane encoding nakOk (abortedOutcome lane)

/-! ## The heartbeat -/

/-- `Lease.heartbeat` at the head of its loop. -/
def beatLoop : Turn κ :=
  { t with beat := if t.lease.settled.isSome then .over else .sleeping (t.now + lane.heartbeat) }

def heartbeat : Turn κ :=
  if t.lease.settled.isSome then t.beatLoop lane
  else if t.isStale lane then (t.markStale lane).beatLoop lane
  else if !t.connection.isConnected || t.connection.suspicious then t.beatLoop lane
  else { t.emit (.inProgress t.now) with beat := .sending }

def beatAnswer (ok : Bool) : Turn κ :=
  if ok then
    ({ t with
      lease := { t.lease with lastProgressAt := t.now }
      events := t.events ++ [.progressed t.now] } : Turn κ).beatLoop lane
  else t.beatLoop lane

end Turn

/-! ## Turns -/

inductive AckAnswer where
  | ok
  | timedOut
  | failed

/-- What ends an await of a call. `dropIfStale` and `work` are its processor's: it looks at the lease, and it ends. -/
inductive Move where
  | dropIfStale
  | work (worked : Worked)
  | waited
  | resume (encoding : Encoding) (nakOk : Bool)
  | cancelled (encoding : Encoding) (nakOk : Bool)
  | reconnect (nakOk : Bool)
  | puback (answer : Turn.PubAnswer) (nakOk : Bool)
  | backoff (nakOk : Bool)
  | probe
  | ackReconnect
  | ackAnswer (answer : AckAnswer)
  | ackPause
  | finish
  | beat
  | beatAnswer (ok : Bool)

namespace Turn

variable {κ : Type*} (lane : Lane) (t : Turn κ)

/-- The turn of a call, if the await it stands at can end so. -/
def advance (abort : Bool) : Move → Option (Turn κ)
  | .dropIfStale =>
    if t.phase.runsWork then
      some (if t.isStale lane then { t.markStale lane with sawStale := true } else t)
    else none
  | .work worked =>
    match t.phase with
    | .processing none => some (t.goto (.processing (some worked)))
    | _ => none
  | .waited =>
    match t.phase with
    | .processing work => if work.isSome || abort then some (t.goto (.stopping work)) else none
    | _ => none
  | .resume encoding nakOk =>
    match t.phase with
    | .stopping (some worked) => some (t.takeOutcome lane encoding nakOk worked)
    | .stopping none => some (t.goto .cancelling)
    | _ => none
  | .cancelled encoding nakOk =>
    match t.phase with
    | .cancelling => some (t.abortOutcome lane encoding nakOk)
    | _ => none
  | .reconnect nakOk =>
    match t.phase with
    | .publishing job ⟨started, giveUp, backoff, .reconnect⟩ =>
      some (t.publishAgain lane nakOk job ⟨started, giveUp, backoff, .reconnect⟩)
    | _ => none
  | .puback answer nakOk =>
    match t.phase with
    | .publishing job ⟨started, giveUp, backoff, .puback⟩ =>
      some (t.pubAnswer lane nakOk job ⟨started, giveUp, backoff, .puback⟩ answer)
    | _ => none
  | .backoff nakOk =>
    match t.phase with
    | .publishing job ⟨started, giveUp, backoff, .backoff wakeAt⟩ =>
      if wakeAt ≤ t.now then some (t.publishAgain lane nakOk job ⟨started, giveUp, backoff, .backoff wakeAt⟩) else none
    | _ => none
  | .probe =>
    match t.phase with
    | .blocked outcome wakeAt => if wakeAt ≤ t.now then some (t.publishCompact lane outcome) else none
    | _ => none
  | .ackReconnect =>
    match t.phase with
    | .acking site attempt giveUpAt .reconnect =>
      some (if t.connection.isConnected then t.ackLoop lane site attempt giveUpAt else t.acked lane)
    | _ => none
  | .ackAnswer answer =>
    match t.phase with
    | .acking site attempt giveUpAt .answer =>
      match answer with
      | .ok => some (({ t with connection := t.connection.trust } : Turn κ).acked lane)
      | .timedOut =>
        some (({ t with connection := t.connection.suspectIfConnected } : Turn κ).ackLoop lane site attempt giveUpAt)
      | .failed =>
        some (if attempt < ackAttempts then t.goto (.acking site attempt giveUpAt (.pause (t.now + lane.ackRetryPause)))
          else t.acked lane)
    | _ => none
  | .ackPause =>
    match t.phase with
    | .acking site attempt giveUpAt (.pause wakeAt) =>
      if wakeAt ≤ t.now then some (t.ackLoop lane site attempt giveUpAt) else none
    | _ => none
  | .finish =>
    match t.phase with
    | .closing fault => some ((t.settle lane .dropped).goto (.ended fault))
    | _ => none
  | .beat =>
    match t.beat with
    | .sleeping wakeAt => if wakeAt ≤ t.now then some (t.heartbeat lane) else none
    | _ => none
  | .beatAnswer ok =>
    match t.beat with
    | .sending => some (t.beatAnswer lane ok)
    | _ => none

end Turn

end SC.Impl.Worker
