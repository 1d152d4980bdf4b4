import Mathlib.Algebra.Order.Ring.Unbundled.Rat
import SoundCloudBackend.Impl.Text

/-!
# Listening rooms

`api/src/modules/rooms/model.rs` and `model/*.rs`: a room and its operations. An
operation that fails returns an error, and the caller drops the changed copy.
A JSON value is its serialized text, a playback rate (a finite `f64`) a rational.
-/

namespace SC.Impl.Rooms

/-- A user id: digits, or `lt:` and digits. -/
abbrev UserId := String

inductive AppError where
  | badRequest (message : String)
  | forbidden (message : String)
  | notFound (message : String)
  | conflict (message : String)
  | coded (status : Nat) (code message : String)
  deriving DecidableEq

structure Member where
  userId : UserId
  name : String
  avatarUrl : Option String
  joinedAt : Int
  readyUrn : Option String
  chatFromSeq : Int
  deriving DecidableEq

inductive PlaybackStatus where
  | idle | loading | playing | paused
  deriving DecidableEq

/-- `model::Playback`, with its defaults. -/
structure Playback where
  status : PlaybackStatus := .idle
  track : Option String := none
  trackUrn : Option String := none
  nextTrack : Option String := none
  positionMs : Int := 0
  at_ : Int := 0
  rate : Rat := 1
  crossfadeSec : Nat := 0
  deriving DecidableEq

structure Mute where
  userId : UserId
  untilMs : Int
  deriving DecidableEq

structure Perks where
  starHost : Bool
  capacity : Nat
  modsMax : Nat
  deriving DecidableEq

/-- `FREE_CAPACITY` and the other limits of `perks.rs`. -/
def freeCapacity : Nat := 10
def freeModsMax : Nat := 3
def starCapacity : Nat := 25
def starModsMax : Nat := 8
def coverAccents : Nat := 8

def Perks.free : Perks := ⟨false, freeCapacity, freeModsMax⟩

def Perks.star : Perks := ⟨true, starCapacity, starModsMax⟩

def Perks.of (starHost : Bool) : Perks :=
  if starHost then .star else .free

structure Cover where
  url : String
  accent : Nat
  deriving DecidableEq

inductive RoomImages where
  | members | mods | off
  deriving DecidableEq

inductive Backdrop where
  | preset (id : String)
  | image (mediaId : BitVec 128)
  deriving DecidableEq

structure Room where
  code : String
  hostId : UserId
  version : Nat
  createdAt : Int
  members : List Member
  playback : Playback
  isPublic : Bool
  title : Option String
  chatId : Option (BitVec 128)
  moderators : List UserId
  banned : List UserId
  muted : List Mute
  slowModeS : Option Nat
  chatEnabled : Bool
  links : Bool
  unlisted : Bool
  perks : Perks
  cover : Option Cover
  roomImages : Option RoomImages
  backdrop : Option Backdrop
  id : BitVec 128
  deriving DecidableEq

/-- `not_member` and the other errors. -/
def notMember : AppError := .coded 404 "room_not_member" "You are not in this room"
def bannedError : AppError := .coded 403 "room_banned" "You were banned from this room"
def roomFull : AppError := .coded 409 "room_full" "This listening room is full"
def notAllowed : AppError := .coded 403 "room_not_allowed" "Only the host or a moderator can do this"
def hostOnly : AppError := .coded 403 "room_host_only" "Only the host can do this"
def missing : AppError := .coded 404 "room_member_missing" "This person is not in the room"
def moderatorsFull : AppError :=
  .coded 409 "room_moderators_full" "This room has all the moderators it can have"
def starRequired : AppError := .coded 403 "room_star_required" "Only a STAR host can do this"
def invalid : AppError := .coded 400 "room_invalid" "This room setting is not valid"
def coolingDown : AppError :=
  .coded 403 "room_backdrop_cooldown" "The room image backdrop is paused for now"

/-! ## Members -/

structure Profile where
  name : String
  avatarUrl : Option String
  deriving DecidableEq

def cleanName (name fallback : String) : String :=
  let name := ((trim name.toList).filter fun c => !isControl c).take 64
  if name = [] then fallback else String.ofList name

def cleanAvatar (url : Option String) : Option String := do
  let url := String.ofList (trim (← url).toList)
  guard ("https://".toList.isPrefixOf url.toList ∧ url.utf8ByteSize ≤ 512)
  return url

def Member.new (userId : UserId) (profile : Profile) (now : Int) : Member :=
  ⟨userId, cleanName profile.name userId, cleanAvatar profile.avatarUrl, now, none, 0⟩

def Member.readingFrom (m : Member) (seq : Int) : Member :=
  { m with chatFromSeq := max seq 0 }

def Room.new (code : String) (host : Member) (isPublic : Bool) (now : Int) (id : BitVec 128) : Room where
  code := code
  hostId := host.userId
  version := 1
  createdAt := now
  members := [host]
  playback := {}
  isPublic := isPublic
  title := none
  chatId := none
  moderators := []
  banned := []
  muted := []
  slowModeS := none
  chatEnabled := true
  links := true
  unlisted := false
  perks := .free
  cover := none
  roomImages := none
  backdrop := none
  id := id

/-- `list.iter_mut().find(p)` and a change of what it finds. -/
def modifyFirst {α : Type} (p : α → Bool) (f : α → α) : List α → List α
  | [] => []
  | x :: xs => if p x then f x :: xs else x :: modifyFirst p f xs

namespace Room

def memberIds (r : Room) : List UserId := r.members.map Member.userId

def isMember (r : Room) (userId : UserId) : Bool := userId ∈ r.memberIds

def isHost (r : Room) (userId : UserId) : Bool := r.hostId = userId

def isBanned (r : Room) (userId : UserId) : Bool := userId ∈ r.banned

def capacity (r : Room) : Nat := r.perks.capacity

def isFull (r : Room) : Bool := r.capacity ≤ r.members.length

def keepMembersOnly (r : Room) : Room :=
  { r with moderators := r.moderators.filter fun id => id ∈ r.memberIds }

def setPublic (r : Room) (userId : UserId) (isPublic : Bool) : Except AppError Room :=
  if !r.isHost userId then .error (.forbidden "Only the host opens or closes the room")
  else .ok { r with isPublic := isPublic }

def dropAbsent (r : Room) (online : List UserId) (joinedAfter : Int) : Room :=
  keepMembersOnly { r with
    members := r.members.filter fun m => m.userId = r.hostId ∨ m.joinedAt > joinedAfter ∨ m.userId ∈ online }

/-- `join`. A member who is there already only gets the new name and avatar. -/
def join (r : Room) (member : Member) : Except AppError Room :=
  if r.isMember member.userId then
    .ok { r with
      members := modifyFirst (fun m => m.userId = member.userId)
        (fun m => { m with name := member.name, avatarUrl := member.avatarUrl }) r.members }
  else if r.isBanned member.userId then .error bannedError
  else if r.isFull then .error roomFull
  else .ok { r with members := r.members ++ [member] }

def remove (r : Room) (userId : UserId) : Room :=
  keepMembersOnly { r with members := r.members.filter fun m => m.userId ≠ userId }

def removes (r : Room) (userId : UserId) : Bool :=
  (r.remove userId).members.length ≠ r.members.length

end Room

end SC.Impl.Rooms
