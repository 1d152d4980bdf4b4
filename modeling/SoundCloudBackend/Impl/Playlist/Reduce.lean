import SoundCloudBackend.Impl.Playlist.Edit

/-!
# Replaying operations on the remote playlist

`jobs/src/handlers/playlist_observe/reduce.rs`: the pending operations of a
playlist are replayed on the list that SoundCloud has. An operation may be
refused with a conflict code; an addition whose anchors are gone goes to an end
of the list. If the replay gives the remote list back, everything that was not
refused is committed.
-/

namespace SC.Impl.Playlist

/-- `MOVE_TARGET_MISSING` and the other conflict codes. -/
def moveTargetMissing : String := "move_target_missing"
def moveAnchorMissing : String := "move_anchor_missing"
def moveAnchorInverted : String := "move_anchor_inverted"
def reorderTargetsMissing : String := "reorder_targets_missing"

inductive Intent where
  | add (trackId : TrackId) (placement : Placement)
  | remove (trackId : TrackId)
  | move (trackId : TrackId) (placement : Placement)
  | reorder (orderedTrackIds : List TrackId)
  deriving DecidableEq

/-- `reduce::Operation`. -/
structure PendingOperation where
  operationId : BitVec 128
  sequence : Int
  intent : Intent
  deriving DecidableEq

inductive Resolution where
  | pending | committed
  | conflict (code : String)
  deriving DecidableEq

def Resolution.isTerminal (r : Resolution) : Bool :=
  r ≠ .pending

def Resolution.conflictCode : Resolution → Option String
  | .conflict code => some code
  | _ => none

structure ResolvedOperation where
  operationId : BitVec 128
  sequence : Int
  resolution : Resolution
  deriving DecidableEq

inductive ReductionOutcome where
  | converged | rebased
  | conflicted (code : String)
  deriving DecidableEq

structure Reduction where
  candidate : List TrackId
  operations : List ResolvedOperation
  outcome : ReductionOutcome
  committedThroughSequence : Int
  anchorsLost : Bool
  deriving DecidableEq

def anchorsAreInverted (list : List TrackId) : Placement → Bool
  | .anchored (some left) (some right) =>
    match positionOf list left, positionOf list right with
    | some l, some r => l > r
    | _, _ => false
  | _ => false

def resolvePlacement (list : List TrackId) : Placement → Option Nat
  | .boundary .front => some 0
  | .boundary .back => some list.length
  | .anchored left right =>
    ((left.bind (positionOf list)).map (· + 1)).or (right.bind (positionOf list))

def fallbackPosition (list : List TrackId) : Placement → Nat
  | .anchored (some _) _ => list.length
  | .anchored none _ => 0
  | .boundary .front => 0
  | .boundary .back => list.length

/-- The loop of `present_in_order`; `taken` are the names already used. -/
def presentInOrderFrom (list taken : List TrackId) : List TrackId → List TrackId
  | [] => []
  | trackId :: rest =>
    if trackId ∈ list ∧ trackId ∉ taken then trackId :: presentInOrderFrom list (trackId :: taken) rest
    else presentInOrderFrom list taken rest

def presentInOrder (list orderedTrackIds : List TrackId) : List TrackId :=
  presentInOrderFrom list [] orderedTrackIds

/-- `apply`: the list after the intent, and whether its anchors were lost or a conflict code. A move
that finds its anchors gone once the track is taken out leaves it out. -/
def Intent.apply (list : List TrackId) : Intent → List TrackId × Except String Bool
  | .add trackId placement =>
    if trackId ∈ list then (list, .ok false)
    else
      match resolvePlacement list placement with
      | some position => (list.insertIdx position trackId, .ok false)
      | none => (list.insertIdx (fallbackPosition list placement) trackId, .ok true)
  | .remove trackId =>
    match positionOf list trackId with
    | some start => (list.eraseIdx start, .ok false)
    | none => (list, .ok false)
  | .move trackId placement =>
    match positionOf list trackId with
    | none => (list, .error moveTargetMissing)
    | some start =>
      if anchorsAreInverted list placement then (list, .error moveAnchorInverted)
      else if (resolvePlacement list placement).isNone then (list, .error moveAnchorMissing)
      else
        let without := list.eraseIdx start
        match resolvePlacement without placement with
        | some position => (without.insertIdx position trackId, .ok false)
        | none => (without, .error moveAnchorMissing)
  | .reorder orderedTrackIds =>
    let named := presentInOrder list orderedTrackIds
    if named.isEmpty then
      if orderedTrackIds.isEmpty then (list, .ok false) else (list, .error reorderTargetsMissing)
    else (writeSlots list (slotsOf list named) named, .ok false)

structure ReduceState where
  candidate : List TrackId
  resolutions : List Resolution
  anchorsLost : Bool
  deriving DecidableEq

def reduceStep (s : ReduceState) (intent : Intent) : ReduceState :=
  match intent.apply s.candidate with
  | (candidate, .ok lost) => ⟨candidate, s.resolutions ++ [.pending], s.anchorsLost || lost⟩
  | (candidate, .error code) => ⟨candidate, s.resolutions ++ [.conflict code], s.anchorsLost⟩

def committedPrefix : List ResolvedOperation → Int → Int
  | [], watermark => watermark
  | operation :: rest, watermark =>
    if operation.resolution.isTerminal then committedPrefix rest (max watermark operation.sequence)
    else watermark

def reduce (remote : List TrackId) (operations : List PendingOperation) (committedThrough : Int) : Reduction :=
  let s := (operations.map PendingOperation.intent).foldl reduceStep ⟨remote, [], false⟩
  let converged := s.candidate = remote
  let resolutions :=
    if converged then s.resolutions.map fun r => if r = .pending then .committed else r
    else s.resolutions
  let outcome :=
    match resolutions.findSome? Resolution.conflictCode with
    | some code => .conflicted code
    | none => if converged then .converged else .rebased
  let resolved := (operations.zip resolutions).map fun p => ⟨p.1.operationId, p.1.sequence, p.2⟩
  { candidate := s.candidate
    operations := resolved
    outcome := outcome
    committedThroughSequence := committedPrefix resolved committedThrough
    anchorsLost := s.anchorsLost }

/-! ## Reading the stored row -/

def OperationRow.placement (r : OperationRow) : Option Placement :=
  match r.boundary with
  | some "front" => some (.boundary .front)
  | some "back" => some (.boundary .back)
  | some _ => none
  | none =>
    if r.leftAnchorTrackId.isSome ∨ r.rightAnchorTrackId.isSome then
      some (.anchored r.leftAnchorTrackId r.rightAnchorTrackId)
    else none

def OperationRow.intent (r : OperationRow) : Option Intent :=
  match r.kind with
  | "add" => do return .add (← r.trackId) (← r.placement)
  | "remove" => do return .remove (← r.trackId)
  | "move" => do return .move (← r.trackId) (← r.placement)
  | "reorder" => do
    let orderedTrackIds ← r.orderedTrackIds
    if orderedTrackIds.isEmpty then none else some (.reorder orderedTrackIds)
  | _ => none

end SC.Impl.Playlist
