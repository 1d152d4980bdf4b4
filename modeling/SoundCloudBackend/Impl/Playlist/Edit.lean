import Mathlib.Data.List.Basic
import Mathlib.Data.List.InsertIdx

/-!
# Playlist edits on the api

`api/src/modules/playlists/edit.rs`: an edit of a playlist is turned into
operations (`derive`), each of which changes the list of tracks
(`Operation.apply`). An operation is stored as a row of
`playlist_membership_operations` (`Operation.row`, as `journal.rs` fills it in).
-/

namespace SC.Impl.Playlist

abbrev TrackId := String

inductive Boundary where
  | front | back
  deriving DecidableEq

def Boundary.asStr : Boundary → String
  | .front => "front"
  | .back => "back"

/-- Where a track goes: to an end, or next to other tracks. -/
inductive Placement where
  | boundary (b : Boundary)
  | anchored (left right : Option TrackId)
  deriving DecidableEq

inductive Operation where
  | add (trackId : TrackId) (placement : Placement)
  | remove (trackId : TrackId)
  | move (trackId : TrackId) (placement : Placement)
  | reorder (orderedTrackIds : List TrackId)
  deriving DecidableEq

inductive TrackEdit where
  | add (trackId : TrackId)
  | remove (trackId : TrackId)
  | move (trackId : TrackId) (toIndex : Int)
  | order (trackIds : List TrackId)
  | replace (trackIds : List TrackId)
  deriving DecidableEq

def positionOf (projection : List TrackId) (trackId : TrackId) : Option Nat :=
  projection.findIdx? fun member => member = trackId

def insertPosition (projection : List TrackId) : Placement → Nat
  | .boundary .front => 0
  | .boundary .back => projection.length
  | .anchored left right =>
    (((left.bind (positionOf projection)).map (· + 1)).or (right.bind (positionOf projection))).getD
      projection.length

def slotsOf (list named : List TrackId) : List Nat :=
  (list.zipIdx.filter fun member => member.1 ∈ named).map Prod.snd

/-- `for (slot, track_id) in slots.zip(named) { list[slot] = track_id }`. -/
def writeSlots (list : List TrackId) (slots : List Nat) (named : List TrackId) : List TrackId :=
  (slots.zip named).foldl (fun list p => list.set p.1 p.2) list

def Operation.apply (projection : List TrackId) : Operation → List TrackId
  | .add trackId placement =>
    match positionOf projection trackId with
    | none => projection.insertIdx (insertPosition projection placement) trackId
    | some _ => projection
  | .remove trackId =>
    match positionOf projection trackId with
    | some start => projection.eraseIdx start
    | none => projection
  | .move trackId placement =>
    match positionOf projection trackId with
    | some start =>
      let without := projection.eraseIdx start
      without.insertIdx (insertPosition without placement) trackId
    | none => projection
  | .reorder orderedTrackIds =>
    let named := orderedTrackIds.filter fun trackId => trackId ∈ projection
    writeSlots projection (slotsOf projection named) named

def applyAll (projection : List TrackId) (operations : List Operation) : List TrackId :=
  operations.foldl Operation.apply projection

def maxDerivedOperations : Nat := 4096

def deriveMove (trackId : TrackId) (toIndex : Int) (projection : List TrackId) : List Operation :=
  match positionOf projection trackId with
  | none => []
  | some start =>
    let without := projection.eraseIdx start
    let target := (min (max toIndex 0) without.length).toNat
    if target = start then []
    else
      let placement :=
        if target = 0 then .boundary .front
        else if target = without.length then .boundary .back
        else .anchored without[target - 1]? without[target]?
      [.move trackId placement]

/-- The additions of `derive_order`: each new track goes after the one submitted before it. -/
def deriveAdds (members : List TrackId) : Option TrackId → List TrackId → List Operation
  | _, [] => []
  | previous, trackId :: rest =>
    let placement : Placement :=
      match previous with
      | some left => .anchored (some left) none
      | none => .boundary .front
    if trackId ∈ members then deriveAdds members (some trackId) rest
    else .add trackId placement :: deriveAdds members (some trackId) rest

def deriveOrder (submitted projection : List TrackId) (replace : Bool) : List Operation :=
  let adds := deriveAdds projection none submitted
  let removes := if replace then (projection.filter fun t => t ∉ submitted).map .remove else []
  let operations := adds ++ removes
  let projected := applyAll projection operations
  let reorder : Operation := .reorder submitted
  if reorder.apply projected ≠ projected then operations ++ [reorder] else operations

def derive (edit : TrackEdit) (projection : List TrackId) : Except String (List Operation) :=
  let operations : List Operation :=
    match edit with
    | .add trackId => if trackId ∈ projection then [] else [.add trackId (.boundary .back)]
    | .remove trackId => if trackId ∈ projection then [.remove trackId] else []
    | .move trackId toIndex => deriveMove trackId toIndex projection
    | .order trackIds => deriveOrder trackIds projection false
    | .replace trackIds => deriveOrder trackIds projection true
  if operations.length > maxDerivedOperations then .error "playlist edit derives too many operations"
  else .ok operations

/-! ## The stored row -/

/-- The columns of `playlist_membership_operations` that say what an operation does; also the
fields of the JSON object that the kind receives. -/
structure OperationRow where
  kind : String
  trackId : Option TrackId
  leftAnchorTrackId : Option TrackId
  rightAnchorTrackId : Option TrackId
  boundary : Option String
  orderedTrackIds : Option (List TrackId)
  deriving DecidableEq

def Operation.kind : Operation → String
  | .add _ _ => "add"
  | .remove _ => "remove"
  | .move _ _ => "move"
  | .reorder _ => "reorder"

def Operation.trackId? : Operation → Option TrackId
  | .add trackId _ => some trackId
  | .remove trackId => some trackId
  | .move trackId _ => some trackId
  | .reorder _ => none

def Operation.placement? : Operation → Option Placement
  | .add _ placement => some placement
  | .move _ placement => some placement
  | .remove _ => none
  | .reorder _ => none

def Operation.leftAnchor (o : Operation) : Option TrackId :=
  match o.placement? with
  | some (.anchored left _) => left
  | _ => none

def Operation.rightAnchor (o : Operation) : Option TrackId :=
  match o.placement? with
  | some (.anchored _ right) => right
  | _ => none

def Operation.boundary? (o : Operation) : Option String :=
  match o.placement? with
  | some (.boundary b) => some b.asStr
  | _ => none

def Operation.orderedTrackIds? : Operation → Option (List TrackId)
  | .reorder orderedTrackIds => some orderedTrackIds
  | _ => none

def Operation.row (o : Operation) : OperationRow :=
  ⟨o.kind, o.trackId?, o.leftAnchor, o.rightAnchor, o.boundary?, o.orderedTrackIds?⟩

end SC.Impl.Playlist
