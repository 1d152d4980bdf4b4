import SoundCloudBackend.Impl.Playlist.Kind

/-!
# The journal of a playlist

The rows of one playlist in `playlist_membership_state`,
`playlist_membership_operations` and `playlist_track_projection`, and
`scd_cmd_playlist_membership_op` (`api/migrations/0252_kinds_user_mutations.sql`),
which appends operations to the journal and applies them to the projection.
Sequences are the integers of `bigint`. A transaction that breaks a unique key
is undone as a whole (`none`).
-/

namespace SC.Impl.Playlist

inductive Outcome where
  | pending | committed | conflict | superseded
  deriving DecidableEq

/-- A row of `playlist_membership_operations`. -/
structure JournalRow where
  operationId : BitVec 128
  sequence : Int
  idempotencyKey : BitVec 128
  operation : OperationRow
  outcome : Outcome
  conflictCode : Option String
  resolvedAt : Option Int
  deriving DecidableEq

inductive SyncStatus where
  | unhydrated | legacyReview | clean | pending | shadowReady | conflict | authRequired | retryWait
  deriving DecidableEq

/-- The row of `playlist_membership_state`, with its defaults. -/
structure MembershipState where
  baselineGeneration : Int := 0
  projectionRevision : Int := 0
  projectionTrackCount : Int := 0
  lastOperationSequence : Int := 0
  committedOperationSequence : Int := 0
  reconcileGeneration : Int := 0
  syncStatus : SyncStatus := .unhydrated
  conflictCode : Option String := none
  candidateFingerprint : Option (BitVec 256) := none
  deriving DecidableEq

inductive RunDecision where
  | started | authRequired | retryWait | incomplete | superseded
  | clean | conflict | shadowReady
  | legacyEqual | remoteSuperset | localSuperset | orderOnly | membershipDiverged
  deriving DecidableEq

structure ReconcileRun where
  id : BitVec 128
  reconcileGeneration : Int
  jobId : BitVec 128
  jobGeneration : Int
  capturedBaselineGeneration : Int
  capturedThroughOperationSequence : Int
  decision : RunDecision
  deriving DecidableEq

structure Journal where
  state : Option MembershipState
  operations : List JournalRow
  projection : List TrackId
  runs : List ReconcileRun
  deriving DecidableEq

/-! ## Appending -/

/-- An element of `args -> 'operations'`. -/
structure Submitted where
  operationId : BitVec 128
  idempotencyKey : BitVec 128
  operation : OperationRow
  deriving DecidableEq

/-- The arguments of the kind, and what it reads of the other tables: whether the playlist exists,
whether the actor owns it, and the tracks of the catalog. -/
structure MembershipOp where
  at_ : Int
  operations : List Submitted
  expectedProjectionRevision : Option Int
  playlistExists : Bool
  actorOwns : Bool
  inCatalog : TrackId → Bool

inductive OpStatus where
  | tracked | refused | replayed | applied
  deriving DecidableEq

structure OpOutput where
  status : OpStatus
  code : Option String
  appended : Nat
  projectionRevision : Int
  added : List TrackId
  deriving DecidableEq

def refusalOf (state : MembershipState) (args : MembershipOp) : Option String :=
  if ¬ (args.playlistExists ∧ args.actorOwns) then some "playlist_not_found"
  else if args.expectedProjectionRevision.isSome ∧ args.expectedProjectionRevision ≠ some state.projectionRevision then
    some "playlist_revision_conflict"
  else if args.operations.any fun o =>
      o.operation.kind = "add" && !(o.operation.trackId.any args.inCatalog) then
    some "playlist_track_not_in_catalog"
  else none

/-- `GREATEST(last_operation_sequence, coalesce(max(sequence), 0))`. -/
def baseSequence (state : MembershipState) (operations : List JournalRow) : Int :=
  max state.lastOperationSequence ((operations.map JournalRow.sequence).max?.getD 0)

def appendedRows (at_ base : Int) (refusal : Option String) (operations : List Submitted) : List JournalRow :=
  operations.zipIdx.map fun (o, i) =>
    { operationId := o.operationId
      sequence := base + (i + 1 : Nat)
      idempotencyKey := o.idempotencyKey
      operation := o.operation
      outcome := if refusal.isNone then .pending else .conflict
      conflictCode := refusal
      resolvedAt := if refusal.isSome then some at_ else none }

def appendState (state : MembershipState) (base : Int) (total : Nat) (refusal : Option String)
    (newTracks : List TrackId) : MembershipState :=
  { state with
    lastOperationSequence := base + total
    committedOperationSequence :=
      if refusal.isSome ∧ state.committedOperationSequence = state.lastOperationSequence then base + total
      else state.committedOperationSequence
    projectionRevision :=
      if refusal.isNone then state.projectionRevision + total else state.projectionRevision
    projectionTrackCount := if refusal.isNone then newTracks.length else state.projectionTrackCount
    syncStatus := if refusal.isNone then .pending else state.syncStatus
    conflictCode := if refusal.isNone then none else state.conflictCode
    candidateFingerprint := if refusal.isNone then none else state.candidateFingerprint }

/-- The primary key and `playlist_membership_operations_idempotency_uq`. -/
def keysUnique (operations : List JournalRow) : Bool :=
  (operations.map JournalRow.operationId).Nodup ∧ (operations.map JournalRow.idempotencyKey).Nodup

/-- `INSERT INTO playlist_membership_state ... ON CONFLICT DO NOTHING`. -/
def ensureState (j : Journal) (playlistExists : Bool) : Journal :=
  match j.state with
  | some _ => j
  | none => if playlistExists then { j with state := some { projectionTrackCount := j.projection.length } } else j

def membershipOp (j : Journal) (args : MembershipOp) : Option (Journal × OpOutput) :=
  let j := ensureState j args.playlistExists
  let total := args.operations.length
  match j.state with
  | none => some (j, ⟨.refused, some "playlist_not_found", 0, 0, []⟩)
  | some state =>
    match args.operations.head? with
    | none => some (j, ⟨.tracked, none, 0, state.projectionRevision, []⟩)
    | some first =>
      match j.operations.find? fun o => o.idempotencyKey = first.idempotencyKey with
      | some replayed =>
        if replayed.outcome = .conflict then
          some (j, ⟨.refused, replayed.conflictCode, 0, state.projectionRevision, []⟩)
        else some (j, ⟨.replayed, none, 0, state.projectionRevision, []⟩)
      | none =>
        let refusal := refusalOf state args
        let base := baseSequence state j.operations
        let newTracks := (args.operations.map Submitted.operation).foldl playlistMembershipApply j.projection
        let operations := j.operations ++ appendedRows args.at_ base refusal args.operations
        let state' := appendState state base total refusal newTracks
        if ¬ keysUnique operations then none
        else if refusal.isSome then
          some ({ j with state := some state', operations := operations },
            ⟨.refused, refusal, 0, state.projectionRevision, []⟩)
        else
          some ({ j with state := some state', operations := operations, projection := newTracks },
            ⟨.applied, none, total, state.projectionRevision + total, newTracks.filter fun t => t ∉ j.projection⟩)

end SC.Impl.Playlist
