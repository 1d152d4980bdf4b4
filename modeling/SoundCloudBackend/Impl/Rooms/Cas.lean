import SoundCloudBackend.Impl.Rooms.Service

/-!
# Concurrent calls of the room store

`RoomStore::insert` (`api/src/modules/rooms/store.rs`), `update` and `relocate`
(`store/cas.rs`). A call loads a room in one step and runs its script, which is
atomic, in a later one; other calls run in between. A room is a hash with the
fields `v` and `body`, and a body is the room it encodes. The reply of a script
reaches its caller; a call whose connection fails before that returns an error.
Keys are deleted at any time, which is also how they expire.
-/

namespace SC.Impl.Rooms.Cas

open Function

/-! ## Scripts -/

structure Hash where
  v : Nat
  body : Room
  deriving DecidableEq

structure Guard where
  key : String
  token : String
  deriving DecidableEq

def roomKey (code : String) : String := "rooms:" ++ code

/-- The keys `rooms:{code}`, `rooms:{code}:seen` and `rooms:{code}:moved`, and the strings that guards name. -/
structure Redis where
  rooms : String → Option Hash
  seen : String → List (UserId × Int)
  moved : String → Option String
  strings : String → Option String

namespace Redis

def load (r : Redis) (code : String) : Option Room := (r.rooms code).map Hash.body

/-- `CREATE_SCRIPT`. -/
def create (r : Redis) (code : String) (version : Nat) (body : Room) : Redis × Int :=
  if (r.rooms code).isSome then (r, 0)
  else ({ r with rooms := update r.rooms code (some ⟨version, body⟩) }, 1)

/-- `SWAP_SCRIPT`. -/
def swap (r : Redis) (code guardKey : String) (expected version : Nat) (body : Room) (token : String) : Redis × Int :=
  if (r.rooms code).map Hash.v ≠ some expected then (r, 0)
  else if token ≠ "" ∧ r.strings guardKey ≠ some token then (r, -1)
  else ({ r with rooms := update r.rooms code (some ⟨version, body⟩) }, 1)

/-- `RENAME` of the key of the users seen, if it exists. -/
def renameSeen (r : Redis) (code new : String) : Redis :=
  if r.seen code = [] then r
  else { r with seen := update (update r.seen new (r.seen code)) code [] }

/-- `MOVE_SCRIPT`. -/
def move (r : Redis) (code new : String) (expected version : Nat) (body : Room) : Redis × Int :=
  if (r.rooms code).map Hash.v ≠ some expected then (r, 0)
  else if (r.rooms new).isSome then (r, 0)
  else
    let r := { r with rooms := update r.rooms new (some ⟨version, body⟩) }.renameSeen code new
    ({ r with
      rooms := update r.rooms code none
      moved := update r.moved code (some new) }, 1)

end Redis

/-! ## Calls -/

/-- A call of the store, with an outcome of type `T`. A change is an `FnMut`, so it may depend on the rooms that the
earlier attempts of its call gave it. -/
inductive Call (T : Type) where
  | insert (room : Room)
  | update (code : String) (guard : Option Guard) (change : List Room → Room → Except AppError (Room × T))
  | relocate (code : String) (change : List Room → Room → Except AppError Room)

inductive Value (T : Type) where
  | inserted (created : Bool)
  | updated (room : Room) (outcome : T)
  | relocated (room : Room)
  deriving DecidableEq

/-- Where a call is. `earlier` are the rooms of the attempts before, `tries` counts those that are left. -/
inductive Phase (T : Type) where
  | create
  | load (earlier : List Room) (tries : Nat)
  | swap (earlier : List Room) (tries : Nat) (loaded after : Room) (outcome : T)
  | move (earlier : List Room) (tries : Nat) (loaded after : Room)
  | done (result : Except AppError (Value T))

structure Process (T : Type) where
  call : Call T
  phase : Phase T

def Process.start {T : Type} (call : Call T) : Process T where
  call := call
  phase :=
    match call with
    | .insert _ => .create
    | .update .. | .relocate .. => .load [] casAttempts

/-- A write of a room and the call that made it, or a delete. -/
inductive Event where
  | inserted (call : Nat) (room : Room)
  | updated (call : Nat) (code : String) (change : Room → Except AppError Room)
  | relocated (call : Nat) (code new : String) (change : Room → Except AppError Room)
  | deleted (code : String)

/-- What a step of a call does: the keys and the call after it, and what it wrote. -/
structure Effect (T : Type) where
  redis : Redis
  phase : Phase T
  wrote : Option Event

def Effect.quiet {T : Type} (r : Redis) (phase : Phase T) : Effect T := ⟨r, phase, none⟩

/-- The conflict of a guard whose token is not there. -/
def changedElsewhere : AppError := .conflict "The room changed elsewhere, try again"

/-- The next step of call `n`; `newCode` is what `new_code` returns. -/
def Process.step {T : Type} (n : Nat) (newCode : String) (r : Redis) (p : Process T) : Option (Effect T) :=
  match p.call, p.phase with
  | .insert room, .create =>
    let (r, created) := r.create room.code room.version room
    some ⟨r, .done (.ok (.inserted (created = 1))), if created = 1 then some (.inserted n room) else none⟩
  | .update .., .load _ 0 => some (.quiet r (.done (.error tooQuick)))
  | .update code _ change, .load earlier (tries + 1) =>
    match r.load code with
    | none => some (.quiet r (.done (.error roomNotFound)))
    | some room =>
      match change earlier room with
      | .error error => some (.quiet r (.done (.error error)))
      | .ok (after, outcome) =>
        some (.quiet r (.swap earlier tries room { after with version := room.version + 1 } outcome))
  | .update code guard change, .swap earlier tries loaded after outcome =>
    let (guardKey, token) := guard.elim (roomKey code, "") fun guard => (guard.key, guard.token)
    let (r, swapped) := r.swap code guardKey loaded.version after.version after token
    if swapped = 1 then
      some ⟨r, .done (.ok (.updated after outcome)),
        some (.updated n code fun room => (change earlier room).map Prod.fst)⟩
    else if swapped = -1 then some (.quiet r (.done (.error changedElsewhere)))
    else some (.quiet r (.load (earlier ++ [loaded]) tries))
  | .relocate .., .load _ 0 => some (.quiet r (.done (.error tooQuick)))
  | .relocate code change, .load earlier (tries + 1) =>
    match r.load code with
    | none => some (.quiet r (.done (.error roomNotFound)))
    | some room =>
      match change earlier room with
      | .error error => some (.quiet r (.done (.error error)))
      | .ok after =>
        some (.quiet r (.move earlier tries room { after with code := newCode, version := room.version + 1 }))
  | .relocate code change, .move earlier tries loaded after =>
    let (r, moved) := r.move code after.code loaded.version after.version after
    if moved = 1 then
      some ⟨r, .done (.ok (.relocated after)), some (.relocated n code after.code (change earlier))⟩
    else some (.quiet r (.load (earlier ++ [loaded]) tries))
  | _, _ => none

/-! ## The system -/

/-- The keys, the calls by their numbers, and the writes so far, the last one first. -/
structure System (T : Type) where
  redis : Redis
  calls : Nat → Option (Process T)
  next : Nat
  log : List Event

def System.start {T : Type} : System T where
  redis := ⟨fun _ => none, fun _ => [], fun _ => none, fun _ => none⟩
  calls := fun _ => none
  next := 0
  log := []

inductive Action (T : Type) where
  | call (call : Call T)
  | step (n : Nat) (newCode : String)
  /-- A connection fails before the script of the call runs. -/
  | fail (n : Nat) (error : AppError)
  /-- `forget_room`, or a room that expires. -/
  | delete (code : String)
  /-- `touch`, `forget`, or a key that expires. -/
  | see (code : String) (users : List (UserId × Int))
  | forgetMoved (code : String)
  | setString (key : String) (value : Option String)

def System.advance {T : Type} (s : System T) (n : Nat) (call : Call T) (effect : Effect T) : System T where
  redis := effect.redis
  calls := update s.calls n (some ⟨call, effect.phase⟩)
  next := s.next
  log := effect.wrote.toList ++ s.log

def System.step {T : Type} (s : System T) : Action T → Option (System T)
  | .call call =>
    some { s with calls := update s.calls s.next (some (.start call)), next := s.next + 1 }
  | .step n newCode =>
    (s.calls n).bind fun p => (p.step n newCode s.redis).map fun effect => s.advance n p.call effect
  | .fail n error =>
    (s.calls n).bind fun p =>
      match p.phase with
      | .done _ => none
      | _ => some (s.advance n p.call (.quiet s.redis (.done (.error error))))
  | .delete code =>
    some { s with
      redis := { s.redis with rooms := update s.redis.rooms code none }
      log := .deleted code :: s.log }
  | .see code users => some { s with redis := { s.redis with seen := update s.redis.seen code users } }
  | .forgetMoved code => some { s with redis := { s.redis with moved := update s.redis.moved code none } }
  | .setString key value =>
    some { s with redis := { s.redis with strings := update s.redis.strings key value } }

/-! ## Codes -/

def Event.creates : Event → Option String
  | .inserted _ room => some room.code
  | .relocated _ _ new _ => some new
  | .updated .. | .deleted _ => none

def usedCodes (log : List Event) : List String := log.filterMap Event.creates

def Process.creates {T : Type} (p : Process T) : Option String :=
  match p.call, p.phase with
  | .insert room, .create => some room.code
  | .relocate .., .move _ _ _ after => some after.code
  | _, _ => none

/-- The step does not use the code of a room that was deleted. -/
def NeverReuses {T : Type} (s : System T) : Action T → Prop
  | .step n _ => ∀ code, (s.calls n).bind Process.creates = some code → code ∈ usedCodes s.log →
      (s.redis.rooms code).isSome
  | _ => True

end SC.Impl.Rooms.Cas
