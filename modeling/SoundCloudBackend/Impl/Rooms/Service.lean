import SoundCloudBackend.Impl.Rooms.Operations

/-!
# Joining and leaving a room

The store of `api/src/modules/rooms/store.rs` and `store/cas.rs`, the directory,
and the two calls of the service that race: `admit` (`service/admit.rs`) and
`leave` (`service/handoff.rs`, `service/end.rs`). A join runs as a whole. A leave
is a program whose steps are its calls of the store, and joins may run between
any two of them. Keys do not expire here.
-/

namespace SC.Impl.Rooms

open Function

/-- `ONLINE_WINDOW_MS`, `LEAVE_ATTEMPTS` and `CAS_ATTEMPTS`. -/
def onlineWindowMs : Int := 45000
def leaveAttempts : Nat := 4
def casAttempts : Nat := 8

def roomNotFound : AppError := .notFound "Room not found"
def tooQuick : AppError := .conflict "The room changed too quickly, try again"

def raced : AppError := .coded 409 "room_raced" "The room changed too quickly, try again"

def AppError.isRaced : AppError → Bool
  | .coded _ code _ => code = "room_raced"
  | _ => false

/-! ## The store and the directory -/

/-- The keys `rooms:{code}`, `rooms:{code}:seen`, `rooms:{code}:moved` and `rooms:host:{user}`. A room is
stored with its version. -/
structure Store where
  rooms : String → Option Room
  seen : String → List (UserId × Int)
  moved : String → Option String
  hosted : UserId → Option String

namespace Store

def load (st : Store) (code : String) : Option Room := st.rooms code

def version (st : Store) (code : String) : Option Nat := (st.rooms code).map Room.version

def movedTo (st : Store) (code : String) : Option String := st.moved code

/-- `seen_since`. No caller depends on the order of the result. -/
def seenSince (st : Store) (code : String) (since : Int) : List UserId :=
  ((st.seen code).filter fun entry => since ≤ entry.2).map Prod.fst

def touch (st : Store) (code : String) (userId : UserId) (now : Int) : Store :=
  { st with
    seen := update st.seen code (((st.seen code).filter fun entry => entry.1 ≠ userId) ++ [(userId, now)]) }

def forget (st : Store) (code : String) (userId : UserId) : Store :=
  { st with seen := update st.seen code ((st.seen code).filter fun entry => entry.1 ≠ userId) }

/-- `SWAP_SCRIPT` without a guard: the write of a room, unless the version is not the expected one. -/
def swap (st : Store) (code : String) (expected : Nat) (room : Room) : Option Store :=
  if st.version code = some expected then some { st with rooms := update st.rooms code (some room) }
  else none

/-- `forget_room`: an unconditional delete. -/
def forgetRoom (st : Store) (room : Room) : Store :=
  { st with
    rooms := update st.rooms room.code none
    seen := update st.seen room.code [] }

def releaseHost (st : Store) (userId : UserId) (code : String) : Store :=
  if st.hosted userId = some code then { st with hosted := update st.hosted userId none } else st

/-- `RoomDirectory::host_seen`, the part about the host. -/
def hostSeen (st : Store) (room : Room) : Store :=
  { st with hosted := update st.hosted room.hostId (some room.code) }

/-- `busy` in `host_candidates`: the user hosts another room that exists. -/
def isBusy (st : Store) (code : String) (userId : UserId) : Bool :=
  match st.hosted userId with
  | some other => other ≠ code ∧ (st.version other).isSome
  | none => false

/-- `host_candidates`, read at one moment. -/
def hostCandidates (st : Store) (room : Room) (host : UserId) (now : Int) : List UserId :=
  (st.seenSince room.code (now - onlineWindowMs)).filter fun userId =>
    userId ≠ host ∧ room.isMember userId ∧ !st.isBusy room.code userId

end Store

/-! ## Joins -/

/-- A call of `admit`, with the answers of `host_blocks` and `chat_last_seq`. -/
structure JoinRequest where
  userId : UserId
  profile : Profile
  publicOnly : Bool
  blocked : Bool
  lastSeq : Int
  deriving DecidableEq

def refusal (room : Room) (userId : UserId) (publicOnly : Bool) : Option AppError :=
  if publicOnly && (!room.isPublic || room.unlisted) then some roomNotFound
  else if room.isBanned userId then some (if publicOnly then roomNotFound else bannedError)
  else none

def admitChange (member : Member) (publicOnly : Bool) (checkedHost : UserId) (online : List UserId) (recent : Int)
    (room : Room) : Except AppError Room :=
  if room.isMember member.userId then room.join member
  else
    match refusal room member.userId publicOnly with
    | some error => .error error
    | none =>
      if room.hostId ≠ checkedHost then .error tooQuick
      else if room.members.length = room.capacity then (room.dropAbsent online recent).join member
      else room.join member

/-- The checks that `admit` makes before it changes the room. -/
def admitRefuses (room : Room) (req : JoinRequest) : Option AppError :=
  if room.isMember req.userId then none
  else
    match refusal room req.userId req.publicOnly with
    | some error => some error
    | none => if req.blocked then some roomNotFound else none

/-- `admit`, without another call in between: the swap finds the version that was loaded, and the view of
the joined room cannot fail. -/
def Store.admitUser (st : Store) (code : String) (req : JoinRequest) (now : Int) : Except AppError Store :=
  match st.load code with
  | none => .error roomNotFound
  | some room =>
    match admitRefuses room req with
    | some error => .error error
    | none => do
      let fromSeq := if room.isMember req.userId then 0 else req.lastSeq
      let member := (Member.new req.userId req.profile now).readingFrom fromSeq
      let recent := now - onlineWindowMs
      let online := st.seenSince code recent
      let after ← admitChange member req.publicOnly room.hostId online recent room
      let after := { after with version := room.version + 1 }
      return { st with rooms := update st.rooms code (some after) }.touch code req.userId now

/-! ## The program of a leave -/

/-- A change that `leave` makes through `RoomStore::update`. -/
inductive LeaveChange where
  | depart
  | handOff (candidates : List UserId) (expected : UserId) (perks : Perks)
  | settlePerks (host : UserId) (perks : Perks) (after : Room)
  deriving DecidableEq

/-- The closure of the change, for the user who leaves, and what it returns: the next host, if that is
not the expected one. -/
def LeaveChange.apply (user : UserId) : LeaveChange → Room → Except AppError (Room × Option UserId)
  | .depart, room => if room.isHost user then .error raced else .ok (room.remove user, none)
  | .handOff candidates expected perks, room =>
    if !room.isHost user then .ok (room.remove user, none)
    else
      match room.handOff user candidates with
      | none => .error raced
      | some (room, next) =>
        if next = expected then .ok ({ room with perks := perks }, none)
        else .ok ({ room with perks := .free }, some next)
  | .settlePerks host perks _, room => .ok (if room.hostId = host then { room with perks := perks } else room, none)

/-- Where a leave is, and what it holds in its variables. `left` counts the attempts of `leave` that are
left, `tries` those of `update`. -/
inductive LeavePc where
  /-- `leave`: the load that finds out whether the room moved. -/
  | resolve (code : String)
  /-- `leave_once`: the load. -/
  | attempt (code : String) (left : Nat)
  /-- `host_candidates`: the call of `seen_since`. -/
  | candidates (room : Room) (left : Nat)
  /-- `host_candidates`: the loop over the users online. -/
  | checking (room : Room) (online free : List UserId) (left : Nat)
  /-- `end`: the load. -/
  | endLoad (code : String)
  /-- `end`: the delete. -/
  | endForget (room : Room)
  /-- `end`: `RoomDirectory::close`. -/
  | endClose (room : Room)
  /-- `update`: the load and the change. -/
  | casLoad (code : String) (change : LeaveChange) (tries left : Nat)
  /-- `update`: the swap of the changed room for the loaded one. -/
  | casSwap (code : String) (change : LeaveChange) (loaded after : Room) (surprise : Option UserId) (tries left : Nat)
  /-- `leave_once`: the call of `forget`. -/
  | departed (code : String)
  /-- `hand_off`: the calls after the change. -/
  | tidy (after : Room)
  | done (outcome : Except AppError Unit)

/-- Where an error of `update` leads. The change of the perks only logs its errors. -/
def LeavePc.failed (code : String) (change : LeaveChange) (error : AppError) (left : Nat) : LeavePc :=
  match change with
  | .settlePerks _ _ after => .tidy after
  | _ => if error.isRaced then .attempt code left else .done (.error error)

def LeavePc.swapped (starPerks : UserId → Perks) (user : UserId) (code : String) (change : LeaveChange)
    (loaded after : Room) (surprise : Option UserId) (left : Nat) : LeavePc :=
  match change, surprise with
  | .depart, _ => if loaded.removes user then .departed code else .done (.ok ())
  | .handOff .., some next => .casLoad after.code (.settlePerks next (starPerks next) after) casAttempts left
  | .handOff .., none => .tidy after
  | .settlePerks _ _ after, _ => .tidy after

def leaveStep (starPerks : UserId → Perks) (user : UserId) (now : Int) (st : Store) :
    LeavePc → Option (Store × LeavePc)
  | .resolve code =>
    match st.load code with
    | some _ => some (st, .attempt code leaveAttempts)
    | none => some (st, .attempt ((st.movedTo code).getD code) leaveAttempts)
  | .attempt _ 0 => some (st, .done (.error raced))
  | .attempt code (left + 1) =>
    match st.load code with
    | none => some (st, .done (.ok ()))
    | some room =>
      if !room.isMember user then some (st, .done (.ok ()))
      else if room.members.length = 1 then some (st, .endLoad code)
      else if room.isHost user then some (st, .candidates room left)
      else some (st, .casLoad code .depart casAttempts left)
  | .candidates room left =>
    some (st, .checking room (st.seenSince room.code (now - onlineWindowMs)) [] left)
  | .checking room (userId :: online) free left =>
    if userId = user ∨ !room.isMember userId then some (st, .checking room online free left)
    else if st.isBusy room.code userId then some (st, .checking room online free left)
    else some (st, .checking room online (free ++ [userId]) left)
  | .checking room [] free left =>
    match room.nextHost user free with
    | none => some (st, .endLoad room.code)
    | some expected =>
      some (st, .casLoad room.code (.handOff free expected (starPerks expected)) casAttempts left)
  | .endLoad code =>
    match st.load code with
    | none => some (st, .done (.ok ()))
    | some room => some (st, .endForget room)
  | .endForget room => some (st.forgetRoom room, .endClose room)
  | .endClose room => some (st.releaseHost room.hostId room.code, .done (.ok ()))
  | .casLoad code change 0 left => some (st, .failed code change tooQuick left)
  | .casLoad code change (tries + 1) left =>
    match st.load code with
    | none => some (st, .failed code change roomNotFound left)
    | some room =>
      match change.apply user room with
      | .error error => some (st, .failed code change error left)
      | .ok (after, surprise) =>
        some (st, .casSwap code change room { after with version := room.version + 1 } surprise tries left)
  | .casSwap code change loaded after surprise tries left =>
    match st.swap code loaded.version after with
    | some st => some (st, .swapped starPerks user code change loaded after surprise left)
    | none => some (st, .casLoad code change tries left)
  | .departed code => some (st.forget code user, .done (.ok ()))
  | .tidy after => some (((st.forget after.code user).releaseHost user after.code).hostSeen after, .done (.ok ()))
  | .done _ => none

/-! ## Runs -/

structure World where
  store : Store
  clock : Int
  pc : LeavePc

/-- A step of the leave, a join of another user as a whole, or time that passes. -/
inductive Action where
  | leave
  | join (code : String) (req : JoinRequest)
  | tick (ms : Nat)

/-- A step of the system while `user` leaves. A join that fails changes nothing. -/
def worldStep (starPerks : UserId → Perks) (user : UserId) (w : World) : Action → Option World
  | .leave => (leaveStep starPerks user w.clock w.store w.pc).map fun (st, pc) => ⟨st, w.clock, pc⟩
  | .join code req =>
    if req.userId = user then none
    else
      match w.store.admitUser code req w.clock with
      | .ok st => some { w with store := st }
      | .error _ => some w
  | .tick ms => some { w with clock := w.clock + ms }

end SC.Impl.Rooms
