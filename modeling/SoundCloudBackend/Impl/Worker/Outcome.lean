import Mathlib.Data.List.Basic

/-!
# Outcomes of a task

`worker/domain/outcome.py`. An `Outcome` carries what its `__post_init__` checks; the
failures carry what their constructors check. The details and the result fields are not
looked at by the lane and are left out.
-/

namespace SC.Impl.Worker

inductive Status where
  | ok
  | empty
  | missing
  | rejected
  | failed
  deriving DecidableEq

inductive Reason where
  | emptyText
  | emptyReferenceText
  | silentAudio
  | audioTooShort
  | emptyVocab
  | tooFewUsers
  | audioNotFound
  | audioForbidden
  | objectNotFound
  | lowConfidence
  | tooFewLinesPlaced
  | noVocalDetected
  | unsupportedLanguage
  | lyricsMismatch
  | outOfOrder
  | placedInSilence
  | belowBaseline
  | invalidRequest
  | undecodableAudio
  | audioTooLong
  | audioTooLarge
  | textTooLongForModel
  | hashMismatch
  | modelOutputInvalid
  | deadlineExceeded
  | engineCrashed
  | outOfMemory
  | downloadFailed
  | objectStoreUnavailable
  | internalError
  | engineRestarted
  | workerLost
  | publicNodeTimeout
  deriving DecidableEq

def emptyReasons : List Reason :=
  [.emptyText, .emptyReferenceText, .silentAudio, .audioTooShort, .emptyVocab, .tooFewUsers]

def missingReasons : List Reason := [.audioNotFound, .audioForbidden, .objectNotFound]

def rejectedReasons : List Reason :=
  [.lowConfidence, .tooFewLinesPlaced, .noVocalDetected, .unsupportedLanguage, .lyricsMismatch, .outOfOrder,
    .placedInSilence, .belowBaseline]

def deterministicFailures : List Reason :=
  [.invalidRequest, .undecodableAudio, .audioTooLong, .audioTooLarge, .textTooLongForModel, .hashMismatch,
    .modelOutputInvalid]

def transientFailures : List Reason :=
  [.deadlineExceeded, .engineCrashed, .outOfMemory, .downloadFailed, .objectStoreUnavailable, .internalError]

def reopenableFailures : List Reason := [.engineRestarted, .workerLost, .publicNodeTimeout]

def failedReasons : List Reason := deterministicFailures ++ transientFailures ++ reopenableFailures

def reasonsByStatus : Status → List Reason
  | .ok => []
  | .empty => emptyReasons
  | .missing => missingReasons
  | .rejected => rejectedReasons
  | .failed => failedReasons

/-- `status_of`; the error for a reason without a status cannot be raised (`mem_reasonsByStatus`). -/
def statusOf (reason : Reason) : Status :=
  if reason ∈ emptyReasons then .empty
  else if reason ∈ missingReasons then .missing
  else if reason ∈ rejectedReasons then .rejected
  else .failed

theorem mem_reasonsByStatus (reason : Reason) : reason ∈ reasonsByStatus (statusOf reason) := by
  cases reason <;> decide

/-- What `Outcome.__post_init__` accepts. -/
def Outcome.Valid (status : Status) : Option Reason → Prop
  | none => status = .ok
  | some reason => reason ∈ reasonsByStatus status

structure Outcome where
  status : Status
  reason : Option Reason
  valid : Outcome.Valid status reason

namespace Outcome

def ok : Outcome := ⟨.ok, none, rfl⟩

def of (reason : Reason) : Outcome := ⟨statusOf reason, some reason, mem_reasonsByStatus reason⟩

def failed (reason : Reason) (h : reason ∈ failedReasons) : Outcome := ⟨.failed, some reason, h⟩

def transient (outcome : Outcome) : Bool := outcome.reason.any (· ∈ transientFailures)

end Outcome

theorem mem_failedReasons {reason : Reason} (h : reason ∈ transientFailures) : reason ∈ failedReasons :=
  List.mem_append_left _ (List.mem_append_right _ h)

/-- How `Processor.process` ends: with an outcome, a `TransientFailure`, a `PermanentFailure`, another exception, or
`LeaseDropped`. -/
inductive Worked where
  | outcome (outcome : Outcome)
  | transient (reason : Reason) (h : reason ∈ transientFailures)
  | permanent (reason : Reason) (h : reason ∉ transientFailures ∧ reason ∉ reopenableFailures)
  | crashed
  | dropped

end SC.Impl.Worker
