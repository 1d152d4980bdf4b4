import SoundCloudBackend.Impl.Playlist.Journal
import SoundCloudBackend.Impl.Playlist.Reduce
import SoundCloudBackend.Impl.Text

/-!
# Reconciling a playlist with SoundCloud

`jobs/src/handlers/playlist_observe/repository.rs`: a job captures the state of
a playlist (`capture`), reads the playlist from SoundCloud, and writes what it
found in one transaction that is fenced by the captured sequence
(`persistSuccess`, `persistFailure`). What a transaction reads of other tables
(`Surroundings`) is an input; an error undoes the transaction.
-/

namespace SC.Impl.Playlist

def operationMalformed : String := "operation_malformed"

inductive RepositoryError where
  | missingState | missingOwner | inconsistentSnapshot
  deriving DecidableEq

structure ObservationCapture where
  runId : BitVec 128
  jobId : BitVec 128
  jobGeneration : Int
  ownerId : String
  reconcileGeneration : Int
  baselineGeneration : Int
  throughOperationSequence : Int
  deriving DecidableEq

/-- The fields of `HydratedTrack` that `hydration_matches_snapshot` reads. -/
structure HydratedTrack where
  scTrackId : TrackId
  urn : String
  title : String
  deriving DecidableEq

structure PlaylistSnapshot where
  ownerId : String
  trackIds : List TrackId
  hydratedTracks : List HydratedTrack
  trackCount : Int
  deriving DecidableEq

def PlaylistSnapshot.isPartial (s : PlaylistSnapshot) : Bool :=
  0 ≤ s.trackCount ∧ (s.trackIds.length : Int) < s.trackCount

def hydrationMatchesSnapshot (s : PlaylistSnapshot) : Bool :=
  (s.hydratedTracks.map HydratedTrack.scTrackId).Nodup ∧
    s.hydratedTracks.all fun t =>
      t.scTrackId ∈ s.trackIds ∧ t.urn = "soundcloud:tracks:" ++ t.scTrackId ∧ trim t.title.toList ≠ []

/-- What a transaction reads of the other tables: whether the playlist was deleted, its owner, whether
the observed tracks and which lists are in the catalog, the legacy intents, the last observed list, the
clock, and the fingerprint function. -/
structure Surroundings where
  deleted : Bool
  owner : Option String
  catalogComplete : Bool
  listComplete : List TrackId → Bool
  hasLegacyIntents : Bool
  remoteLacksLocalTracks : Bool
  baseline : List TrackId
  now : Int
  newRunId : BitVec 128
  membershipFingerprint : List TrackId → BitVec 256

def normalizeOwner (value : String) : Option String :=
  let value := stripFront "soundcloud:users:" value
  if isCanonicalId value then some value else none

/-! ## Classification -/

inductive MembershipRelation where
  | equal | remoteSuperset | localSuperset | orderOnly | diverged
  deriving DecidableEq

def MembershipRelation.asStr : MembershipRelation → String
  | .equal => "equal"
  | .remoteSuperset => "remote_superset"
  | .localSuperset => "local_superset"
  | .orderOnly => "order_only"
  | .diverged => "membership_diverged"

def membershipRelation (here remote : List TrackId) : MembershipRelation :=
  if here = remote then .equal
  else if (∀ t ∈ here, t ∈ remote) ∧ ∀ t ∈ remote, t ∈ here then .orderOnly
  else if here.length < remote.length ∧ here.isSublist remote then .remoteSuperset
  else if remote.length < here.length ∧ remote.isSublist here then .localSuperset
  else .diverged

/-! ## Reconciliations -/

structure ReconciliationDecision where
  runDecision : RunDecision
  stateStatus : SyncStatus
  conflictCode : Option String
  reason : Option String
  replaceProjection : Bool
  deriving DecidableEq

structure Reconciliation where
  runDecision : RunDecision
  stateStatus : SyncStatus
  conflictCode : Option String
  reason : Option String
  projection : Option (List TrackId)
  candidateFingerprint : Option (BitVec 256)
  committedThroughSequence : Int
  operations : List ResolvedOperation
  deriving DecidableEq

def reconciliationDecision (isLegacy pendingOperations catalogComplete : Bool) (relation : MembershipRelation) :
    ReconciliationDecision :=
  if !catalogComplete then
    ⟨.incomplete, .conflict, some "catalog_incomplete", some "not every observed track has a durable catalog row",
      !isLegacy && !pendingOperations⟩
  else if pendingOperations then
    ⟨.shadowReady, .shadowReady, none, some "local operations require a later reducer", false⟩
  else if !isLegacy then ⟨.clean, .clean, none, none, true⟩
  else
    match relation with
    | .equal => ⟨.legacyEqual, .clean, none, none, false⟩
    | .remoteSuperset =>
      ⟨.remoteSuperset, .conflict, some "legacy_remote_superset",
        some "the remote playlist safely extends the local legacy projection", true⟩
    | .localSuperset =>
      ⟨.localSuperset, .conflict, some "legacy_local_superset",
        some "the local legacy projection contains tracks missing remotely", false⟩
    | .orderOnly =>
      ⟨.orderOnly, .conflict, some "legacy_order_only", some "the local and remote playlist orders differ", false⟩
    | .diverged =>
      ⟨.membershipDiverged, .conflict, some "legacy_membership_diverged",
        some "the local and remote playlist memberships diverged", false⟩

def plainReconciliation (decision : ReconciliationDecision) (snapshot : PlaylistSnapshot) (fingerprint : BitVec 256)
    (committedThrough : Int) : Reconciliation :=
  { runDecision := decision.runDecision
    stateStatus := decision.stateStatus
    conflictCode := decision.conflictCode
    reason := decision.reason
    projection := if decision.replaceProjection then some snapshot.trackIds else none
    candidateFingerprint := if decision.stateStatus ≠ .clean then some fingerprint else none
    committedThroughSequence := committedThrough
    operations := [] }

def reductionReason (stateStatus : SyncStatus) (pending : Nat) (remoteMoved : MembershipRelation) (anchorsLost : Bool) :
    Option String :=
  if stateStatus = .clean then none
  else
    let reason :=
      if stateStatus = .conflict then
        "a local operation could not be replayed onto the fresh remote playlist; remote membership is " ++
          remoteMoved.asStr
      else
        toString pending ++ " local operations rebased onto the fresh remote playlist; remote membership is " ++
          remoteMoved.asStr
    some (if anchorsLost then
      reason ++ "; an operation anchor was lost and its track kept a boundary position" else reason)

def sortBySequence (operations : List ResolvedOperation) : List ResolvedOperation :=
  operations.mergeSort fun a b => a.sequence ≤ b.sequence

def reducedReconciliation (fingerprint : List TrackId → BitVec 256) (reduction : Reduction)
    (malformed : List ResolvedOperation) (remoteMoved : MembershipRelation) (candidateComplete : Bool)
    (committedThrough : Int) : Reconciliation :=
  let operations := sortBySequence (reduction.operations ++ malformed)
  let candidateFingerprint := fingerprint reduction.candidate
  if !candidateComplete then
    { runDecision := .incomplete
      stateStatus := .conflict
      conflictCode := some "catalog_incomplete"
      reason := some "the rebased playlist still contains a track without a durable catalog row"
      projection := none
      candidateFingerprint := some candidateFingerprint
      committedThroughSequence := committedThrough
      operations := [] }
  else
    let (runDecision, stateStatus, conflictCode) : RunDecision × SyncStatus × Option String :=
      match operations.findSome? fun o => o.resolution.conflictCode with
      | some code => (.conflict, .conflict, some code)
      | none =>
        if reduction.outcome = .converged then (.clean, .clean, none) else (.shadowReady, .shadowReady, none)
    let pending := (operations.filter fun o => o.resolution = .pending).length
    { runDecision := runDecision
      stateStatus := stateStatus
      conflictCode := conflictCode
      reason := reductionReason stateStatus pending remoteMoved reduction.anchorsLost
      projection := some reduction.candidate
      candidateFingerprint := if stateStatus ≠ .clean then some candidateFingerprint else none
      committedThroughSequence := committedPrefix operations committedThrough
      operations := operations }

def loadPendingOperations (operations : List JournalRow) (through : Int) : List JournalRow :=
  (operations.filter fun o => o.resolvedAt.isNone && decide (o.sequence ≤ through)).mergeSort
    fun a b => a.sequence ≤ b.sequence

def reducePendingOperations (env : Surroundings) (rows : List JournalRow) (committed : Int)
    (snapshot : PlaylistSnapshot) : Reconciliation :=
  let operations := rows.filterMap fun row =>
    row.operation.intent.map fun intent => (⟨row.operationId, row.sequence, intent⟩ : PendingOperation)
  let malformed := (rows.filter fun row => row.operation.intent.isNone).map fun row =>
    (⟨row.operationId, row.sequence, .conflict operationMalformed⟩ : ResolvedOperation)
  let reduction := reduce snapshot.trackIds operations committed
  let remoteMoved := membershipRelation env.baseline snapshot.trackIds
  let candidateComplete := reduction.candidate = snapshot.trackIds || env.listComplete reduction.candidate
  reducedReconciliation env.membershipFingerprint reduction malformed remoteMoved candidateComplete committed

def adoptLocalOverLegacy (env : Surroundings) (rows : List JournalRow) (committed : Int)
    (localTrackIds : List TrackId) (snapshot : PlaylistSnapshot) : Reconciliation :=
  let removed := (rows.filter fun row => row.operation.kind = "remove").filterMap fun row => row.operation.trackId
  let candidate := localTrackIds ++ snapshot.trackIds.filter fun t => t ∉ localTrackIds ∧ t ∉ removed
  let candidateFingerprint := env.membershipFingerprint candidate
  if !env.listComplete candidate then
    { runDecision := .incomplete
      stateStatus := .conflict
      conflictCode := some "catalog_incomplete"
      reason := some "the local playlist still contains a track without a durable catalog row"
      projection := none
      candidateFingerprint := some candidateFingerprint
      committedThroughSequence := committed
      operations := [] }
  else
    { runDecision := .shadowReady
      stateStatus := .shadowReady
      conflictCode := none
      reason := some (
        if env.remoteLacksLocalTracks then
          "the edited local playlist is kept over its legacy intents until SoundCloud has its tracks"
        else "the edited local playlist replaced its unresolved legacy intents")
      projection := some candidate
      candidateFingerprint := some candidateFingerprint
      committedThroughSequence := committed
      operations := [] }

/-! ## Writing the outcome -/

def Resolution.outcome : Resolution → Outcome
  | .pending => .pending
  | .committed => .committed
  | .conflict _ => .conflict

/-- `resolve_operations`: the terminal operations are written to the rows that are still open. -/
def resolveOperations (now : Int) (resolved : List ResolvedOperation) (operations : List JournalRow) :
    List JournalRow :=
  let terminal := resolved.filter fun o => o.resolution.isTerminal
  operations.map fun row =>
    if row.resolvedAt.isSome then row
    else
      match terminal.find? fun o => o.operationId = row.operationId with
      | some o =>
        { row with outcome := o.resolution.outcome, conflictCode := o.resolution.conflictCode, resolvedAt := some now }
      | none => row

def minUnresolved (operations : List JournalRow) : Option Int :=
  ((operations.filter fun o => o.resolvedAt.isNone).map JournalRow.sequence).min?

def completeState (state : MembershipState) (operations : List JournalRow) (projectionChanged : Bool)
    (projectionCount : Int) (outcome : Reconciliation) : MembershipState :=
  { state with
    baselineGeneration := state.baselineGeneration + 1
    projectionRevision := state.projectionRevision + if projectionChanged then 1 else 0
    projectionTrackCount := projectionCount
    committedOperationSequence :=
      max (max state.committedOperationSequence outcome.committedThroughSequence)
        (((minUnresolved operations).map (· - 1)).getD state.lastOperationSequence)
    syncStatus := outcome.stateStatus
    conflictCode := outcome.conflictCode
    candidateFingerprint := outcome.candidateFingerprint }

/-- `complete_run.sql` and `mark_run_superseded.sql`: the decision of a run that is still `started`. -/
def decideRun (runs : List ReconcileRun) (id : BitVec 128) (decision : RunDecision) : List ReconcileRun :=
  runs.map fun run => if run.id = id ∧ run.decision = .started then { run with decision := decision } else run

/-! ## Transactions -/

inductive PersistResult where
  | applied | superseded | finished | emptyRead
  deriving DecidableEq

/-- `lock_run_for_persist.sql`: the run of the capture and the state row. -/
def lockRun (j : Journal) (capture : ObservationCapture) : Option (ReconcileRun × MembershipState) := do
  let state ← j.state
  let run ← j.runs.find? fun run =>
    run.id = capture.runId ∧ run.jobId = capture.jobId ∧ run.jobGeneration = capture.jobGeneration
  return (run, state)

def fenceMatches (run : ReconcileRun) (state : MembershipState) (owner : Option String)
    (capture : ObservationCapture) : Bool :=
  run.reconcileGeneration = capture.reconcileGeneration ∧
    state.reconcileGeneration = capture.reconcileGeneration ∧
    run.capturedBaselineGeneration = capture.baselineGeneration ∧
    state.baselineGeneration = capture.baselineGeneration ∧
    run.capturedThroughOperationSequence = capture.throughOperationSequence ∧
    state.lastOperationSequence = capture.throughOperationSequence ∧
    (owner.bind normalizeOwner).any (· = capture.ownerId)

def reconcile (env : Surroundings) (j : Journal) (state : MembershipState) (capture : ObservationCapture)
    (snapshot : PlaylistSnapshot) : Reconciliation :=
  let pendingOperations := state.lastOperationSequence > state.committedOperationSequence
  let rows := loadPendingOperations j.operations capture.throughOperationSequence
  if pendingOperations ∧ env.catalogComplete ∧ env.hasLegacyIntents then
    adoptLocalOverLegacy env rows state.committedOperationSequence j.projection snapshot
  else if pendingOperations ∧ env.catalogComplete then
    reducePendingOperations env rows state.committedOperationSequence snapshot
  else
    plainReconciliation
      (reconciliationDecision env.hasLegacyIntents pendingOperations env.catalogComplete
        (membershipRelation j.projection snapshot.trackIds))
      snapshot (env.membershipFingerprint snapshot.trackIds) state.committedOperationSequence

def applyReconciliation (env : Surroundings) (j : Journal) (state : MembershipState) (capture : ObservationCapture)
    (outcome : Reconciliation) : Journal :=
  let projection := outcome.projection.getD j.projection
  let operations := resolveOperations env.now outcome.operations j.operations
  { state := some (completeState state operations (projection ≠ j.projection) projection.length outcome)
    operations := operations
    projection := projection
    runs := decideRun j.runs capture.runId outcome.runDecision }

/-- `persist_success`. The rows that it counts after its updates are there by the lock and the fence. -/
def persistSuccess (env : Surroundings) (j : Journal) (capture : ObservationCapture) (snapshot : PlaylistSnapshot) :
    Except RepositoryError (Journal × PersistResult) :=
  if snapshot.ownerId ≠ capture.ownerId ∨
      ¬ (0 ≤ snapshot.trackCount ∧ (snapshot.trackIds.length : Int) ≤ snapshot.trackCount) ∨
      !hydrationMatchesSnapshot snapshot then
    .error .inconsistentSnapshot
  else
    match lockRun j capture with
    | none => .error .missingState
    | some (run, state) =>
      if env.deleted ∨ run.decision ≠ .started then .ok (j, .finished)
      else if snapshot.trackIds = [] ∧ snapshot.isPartial ∧ j.projection ≠ [] then .ok (j, .emptyRead)
      else if !fenceMatches run state env.owner capture then
        .ok ({ j with runs := decideRun j.runs capture.runId .superseded }, .superseded)
      else .ok (applyReconciliation env j state capture (reconcile env j state capture snapshot), .applied)

structure FailureObservation where
  runDecision : RunDecision
  stateStatus : SyncStatus
  conflictCode : Option String
  deriving DecidableEq

def persistFailure (env : Surroundings) (j : Journal) (capture : ObservationCapture) (failure : FailureObservation) :
    Except RepositoryError (Journal × PersistResult) :=
  match lockRun j capture with
  | none => .error .missingState
  | some (run, state) =>
    if env.deleted ∨ run.decision ≠ .started then .ok (j, .finished)
    else if !fenceMatches run state env.owner capture then
      .ok ({ j with runs := decideRun j.runs capture.runId .superseded }, .superseded)
    else
      .ok ({ j with
        state := some { state with syncStatus := failure.stateStatus, conflictCode := failure.conflictCode }
        runs := decideRun j.runs capture.runId failure.runDecision }, .applied)

/-- The capture of a run, if its owner is known (`required_owner`). -/
def readyCapture (env : Surroundings) (run : ReconcileRun) (state : MembershipState) :
    Except RepositoryError ObservationCapture :=
  match env.owner.bind normalizeOwner with
  | none => .error .missingOwner
  | some ownerId =>
    .ok ⟨run.id, run.jobId, run.jobGeneration, ownerId, run.reconcileGeneration, state.baselineGeneration,
      state.lastOperationSequence⟩

def restartRun (state : MembershipState) (run : ReconcileRun) : ReconcileRun :=
  { run with
    capturedBaselineGeneration := state.baselineGeneration
    capturedThroughOperationSequence := state.lastOperationSequence
    decision := .started }

/-- `capture`; `none` is a finished capture. -/
def capture (env : Surroundings) (j : Journal) (jobId : BitVec 128) (jobGeneration : Int) :
    Except RepositoryError (Journal × Option ObservationCapture) :=
  if env.deleted then .ok (j, none)
  else
    match j.state with
    | none => .error .missingState
    | some state =>
      match j.runs.find? fun run => run.jobId = jobId ∧ run.jobGeneration = jobGeneration with
      | some run =>
        if state.reconcileGeneration ≠ run.reconcileGeneration then
          .ok ({ j with runs := decideRun j.runs run.id .superseded }, none)
        else if run.decision ∉ [.started, .authRequired, .retryWait, .incomplete] then .ok (j, none)
        else do
          let ready ← readyCapture env run state
          return ({ j with runs := j.runs.map fun r => if r.id = run.id then restartRun state r else r }, some ready)
      | none => do
        -- advance_state.sql
        let generation := max state.reconcileGeneration ((j.runs.map ReconcileRun.reconcileGeneration).max?.getD 0) + 1
        let state := { state with reconcileGeneration := generation }
        let run : ReconcileRun :=
          ⟨env.newRunId, generation, jobId, jobGeneration, state.baselineGeneration, state.lastOperationSequence, .started⟩
        let ready ← readyCapture env run state
        return ({ j with state := some state, runs := j.runs ++ [run] }, some ready)

inductive JournalAction where
  | append (args : MembershipOp)
  | capture (env : Surroundings) (jobId : BitVec 128) (jobGeneration : Int)
  | persistSuccess (env : Surroundings) (capture : ObservationCapture) (snapshot : PlaylistSnapshot)
  | persistFailure (env : Surroundings) (capture : ObservationCapture) (failure : FailureObservation)

def journalStep (j : Journal) : JournalAction → Option Journal
  | .append args => (membershipOp j args).map Prod.fst
  | .capture env jobId jobGeneration => (capture env j jobId jobGeneration).toOption.map Prod.fst
  | .persistSuccess env capture snapshot => (persistSuccess env j capture snapshot).toOption.map Prod.fst
  | .persistFailure env capture failure => (persistFailure env j capture failure).toOption.map Prod.fst

def Journal.empty (projection : List TrackId) : Journal :=
  ⟨none, [], projection, []⟩

end SC.Impl.Playlist
