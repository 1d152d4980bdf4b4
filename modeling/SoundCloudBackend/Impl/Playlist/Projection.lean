import Mathlib.Data.List.Sort
import SoundCloudBackend.Impl.Playlist.Journal

/-!
# The rows of the projection

`playlist_track_projection` holds a row for each track of a playlist, ordered by
`position`; positions may have gaps. `scd_cmd_playlist_membership_op` reads the tracks in
that order, folds the operations over them and writes the result back, if it can only the
rows at the end or the deleted ones (`writeProjection`). Its `touched` names the keys
whose rows it wrote, for the replication. `membershipOpRows` is the kind on these rows;
`membershipOp` is the same kind on the list that they read as.
-/

namespace SC.Impl.Playlist

/-- A row of `playlist_track_projection` of the playlist. -/
structure ProjectionRow where
  position : Int
  scTrackId : TrackId
  deriving DecidableEq

/-- The constraints of the table: the primary key, the type `integer`, the check
`position_nonnegative` and the unique index `member_uq`. -/
structure ProjectionValid (rows : List ProjectionRow) : Prop where
  positions : (rows.map ProjectionRow.position).Nodup
  nonnegative : ∀ r ∈ rows, 0 ≤ r.position
  integer : ∀ r ∈ rows, r.position ≤ 2147483647
  tracks : (rows.map ProjectionRow.scTrackId).Nodup

instance (rows : List ProjectionRow) : Decidable (ProjectionValid rows) :=
  decidable_of_iff
    ((rows.map ProjectionRow.position).Nodup ∧ (∀ r ∈ rows, 0 ≤ r.position) ∧ (∀ r ∈ rows, r.position ≤ 2147483647) ∧
      (rows.map ProjectionRow.scTrackId).Nodup)
    ⟨fun h => ⟨h.1, h.2.1, h.2.2.1, h.2.2.2⟩, fun h => ⟨h.positions, h.nonnegative, h.integer, h.tracks⟩⟩

def orderByPosition (rows : List ProjectionRow) : List ProjectionRow :=
  rows.insertionSort fun r r' => r.position ≤ r'.position

/-- `ARRAY(SELECT sc_track_id … ORDER BY position)`. -/
def tracksByPosition (rows : List ProjectionRow) : List TrackId :=
  (orderByPosition rows).map ProjectionRow.scTrackId

def maxPosition (rows : List ProjectionRow) : Int :=
  (rows.map ProjectionRow.position).max?.getD (-1)

/-- `INSERT INTO playlist_track_projection`; a row that breaks a constraint undoes the transaction. -/
def insertRows (rows inserted : List ProjectionRow) : Option (List ProjectionRow) :=
  if ProjectionValid (rows ++ inserted) then some (rows ++ inserted) else none

/-- The tracks numbered from `start`, `unnest(tracks) WITH ORDINALITY`. -/
def numbered (start : Int) (tracks : List TrackId) : List ProjectionRow :=
  tracks.zipIdx.map fun entry => ⟨start + entry.2, entry.1⟩

/-- The four ways to write `new_tracks`: the rows afterwards, and `positions`. -/
def writeProjection (rows : List ProjectionRow) (oldTracks newTracks : List TrackId) :
    Option (List ProjectionRow × List Int) :=
  if newTracks = oldTracks then some (rows, [])
  else if oldTracks.length < newTracks.length ∧ newTracks.take oldTracks.length = oldTracks then
    let appended := numbered (maxPosition rows + 1) (newTracks.drop oldTracks.length)
    (insertRows rows appended).map fun rows' => (rows', appended.map ProjectionRow.position)
  else
    let dropped := oldTracks.filter fun member => member ∉ newTracks
    if newTracks.length < oldTracks.length ∧ (oldTracks.filter fun member => member ∈ newTracks) = newTracks then
      let removed := rows.filter fun projection => projection.scTrackId ∈ dropped
      some (rows.filter fun projection => projection.scTrackId ∉ dropped, removed.map ProjectionRow.position)
    else
      let inserted := numbered 0 newTracks
      (insertRows [] inserted).map fun rows' =>
        (rows', rows.map ProjectionRow.position ++ inserted.map ProjectionRow.position)

inductive Touched where
  | membershipState
  | operation (operationId : BitVec 128)
  | projection (position : Int)
  deriving DecidableEq

/-- `SELECT DISTINCT unnest(positions) … ORDER BY position`. -/
def touchedPositions (positions : List Int) : List Touched :=
  (positions.dedup.insertionSort fun p p' => p ≤ p').map .projection

structure JournalTables where
  state : Option MembershipState
  operations : List JournalRow
  rows : List ProjectionRow
  runs : List ReconcileRun

def JournalTables.journal (s : JournalTables) : Journal :=
  ⟨s.state, s.operations, tracksByPosition s.rows, s.runs⟩

/-- `INSERT INTO playlist_membership_state … ON CONFLICT DO NOTHING`, and whether it inserted. -/
def ensureStateRow (s : JournalTables) (playlistExists : Bool) : JournalTables × Bool :=
  match s.state with
  | some _ => (s, false)
  | none =>
    if playlistExists then ({ s with state := some { projectionTrackCount := s.rows.length } }, true) else (s, false)

/-- `scd_cmd_playlist_membership_op`: the rows, the output and `touched`. -/
def membershipOpRows (s : JournalTables) (args : MembershipOp) : Option (JournalTables × OpOutput × List Touched) :=
  let (s, created) := ensureStateRow s args.playlistExists
  let touched : List Touched := if created then [.membershipState] else []
  let total := args.operations.length
  match s.state with
  | none => some (s, ⟨.refused, some "playlist_not_found", 0, 0, []⟩, touched)
  | some state =>
    match args.operations.head? with
    | none => some (s, ⟨.tracked, none, 0, state.projectionRevision, []⟩, touched)
    | some first =>
      match s.operations.find? fun o => o.idempotencyKey = first.idempotencyKey with
      | some replayed =>
        if replayed.outcome = .conflict then
          some (s, ⟨.refused, replayed.conflictCode, 0, state.projectionRevision, []⟩, touched)
        else some (s, ⟨.replayed, none, 0, state.projectionRevision, []⟩, touched)
      | none =>
        let refusal := refusalOf state args
        let base := baseSequence state s.operations
        let oldTracks := tracksByPosition s.rows
        let newTracks := (args.operations.map Submitted.operation).foldl playlistMembershipApply oldTracks
        let operations := s.operations ++ appendedRows args.at_ base refusal args.operations
        let state' := appendState state base total refusal newTracks
        let touched : List Touched := if touched = [] then [.membershipState] else touched
        let touched := touched ++ args.operations.map fun o => .operation o.operationId
        if ¬ keysUnique operations then none
        else if refusal.isSome then
          some ({ s with state := some state', operations := operations },
            ⟨.refused, refusal, 0, state.projectionRevision, []⟩, touched)
        else
          (writeProjection s.rows oldTracks newTracks).map fun (rows, positions) =>
            ({ s with state := some state', operations := operations, rows := rows },
              ⟨.applied, none, total, state.projectionRevision + total, newTracks.filter fun t => t ∉ oldTracks⟩,
              touched ++ touchedPositions positions)

end SC.Impl.Playlist
