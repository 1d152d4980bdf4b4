import SoundCloudBackend.Impl.Playlist.Edit

/-!
# The stored projection

`playlist_membership_apply` (`api/migrations/0252_kinds_user_mutations.sql`)
changes the stored list of tracks by one operation, given as the JSON object
that the api sends. SQL arrays count from 1.
-/

namespace SC.Impl.Playlist

/-- `array_position(list, value)`; a `NULL` value is not found, since the lists hold no `NULL`. -/
def arrayPosition (list : List TrackId) (value : Option TrackId) : Option Nat :=
  value.bind fun v => (list.findIdx? fun member => member = v).map (· + 1)

def arrayRemove (list : List TrackId) (value : Option TrackId) : List TrackId :=
  match value with
  | none => list
  | some v => list.filter fun member => member ≠ v

def withOrdinality {α : Type} (xs : List α) : List (α × Nat) :=
  xs.zipIdx 1

/-- The reorder branch: the kept positions and the names, joined on their ranks. -/
def reorderBySlots (list ordered : List TrackId) : List TrackId :=
  let slots := withOrdinality (((withOrdinality list).filter fun kept => kept.1 ∈ ordered).map Prod.snd)
  let names := withOrdinality (ordered.filter fun named => named ∈ list)
  let renamed := slots.filterMap fun slot =>
    (names.find? fun name => name.2 = slot.2).map fun name => (slot.1, name.1)
  (withOrdinality list).map fun member => (renamed.lookup member.2).getD member.1

/-- The slot that a placement gives in `list`, from 0 for the front. -/
def slotOf (list : List TrackId) (operation : OperationRow) : Nat :=
  match operation.boundary with
  | some "front" => 0
  | some "back" => list.length
  | _ =>
    ((arrayPosition list operation.leftAnchorTrackId).or
      ((arrayPosition list operation.rightAnchorTrackId).map (· - 1))).getD list.length

/-- `list[1:slot] || track || list[slot + 1:]`; appending a `NULL` track appends a `NULL`, which no
operation of a well-formed row does. -/
def insertAtSlot (list : List TrackId) (slot : Nat) (track : Option TrackId) : List TrackId :=
  list.take slot ++ track.toList ++ list.drop slot

def playlistMembershipApply (list : List TrackId) (operation : OperationRow) : List TrackId :=
  match operation.kind with
  | "remove" => arrayRemove list operation.trackId
  | "reorder" => reorderBySlots list (operation.orderedTrackIds.getD [])
  | "move" =>
    if (arrayPosition list operation.trackId).isNone then list
    else
      let list := arrayRemove list operation.trackId
      insertAtSlot list (slotOf list operation) operation.trackId
  | _ =>
    if (arrayPosition list operation.trackId).isSome then list
    else insertAtSlot list (slotOf list operation) operation.trackId

end SC.Impl.Playlist
