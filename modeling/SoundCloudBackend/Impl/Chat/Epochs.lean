import SoundCloudBackend.Impl.Chat.Members

/-!
# The key epochs of a group

Sends (`chat/messages/store.rs`), rotations (`chat/epochs.rs`,
`chat/keys/rotate.rs`) and key requests (`chat/keys.rs`, `chat/keys/access.rs`,
`chat/history_gate.rs`), and the group as a system: calls read an `Access` row in
one step and run their transaction in a later one, a key request is four steps,
and all of them interleave. Keys are their epochs: what is wrapped and sealed is
left out. A time is in milliseconds.
-/

namespace SC.Impl.Chat.Groups

open Replication (Uuid)
open Function

/-- `EPOCH_MESSAGES_MAX` and `EPOCH_DAYS_MAX`, the limits of a group. -/
def epochMessagesMax : Int := 10000
def epochDaysMax : Int := 30

def days (n : Int) : Int := n * 24 * 60 * 60 * 1000

namespace Group

/-! ## Sends and rotations -/

/-- `Outgoing`; a sender sends no system messages. -/
structure Outgoing where
  clientId : Uuid
  messageClass : MessageClass
  epoch : Int
  notSystem : messageClass ≠ .system
  deriving DecidableEq

/-- The transaction of `store`; `none` if it rolls back, for a stale epoch or a client id that is stored already. -/
def store (sender : String) (out : Outgoing) (now : Int) (g : Group) : Option (Message × Group) :=
  -- `messages/advance.sql`
  if g.deleted ∨ g.keyEpoch ≠ out.epoch ∨ g.rekey ∨ g.epochMessages ≥ epochMessagesMax ∨
      g.epochStartedAt ≤ now - days epochDaysMax then none
  else if some out.clientId ∈ g.messages.map Message.clientId then none
  else
    let row : Message := ⟨g.lastSeq + 1, some out.clientId, sender, out.messageClass, out.epoch, none⟩
    some (row, { g with
      lastSeq := g.lastSeq + 1
      epochMessages := g.epochMessages + 1
      messages := g.messages ++ [row] })

def advanceEpoch (now : Int) (g : Group) : Group :=
  { g with keyEpoch := g.keyEpoch + 1, rekey := false, epochMessages := 0, epochStartedAt := now }

/-- `rotate_epoch.sql`; the greatest epoch has no successor. -/
def rotateIfDue (epoch : Int) (now : Int) (g : Group) : Option Group :=
  if g.keyEpoch = epoch ∧ !g.deleted ∧
      (g.rekey ∨ g.epochMessages ≥ epochMessagesMax ∨ g.epochStartedAt ≤ now - days epochDaysMax) ∧
      g.keyEpoch < i32Max then
    some (g.advanceEpoch now)
  else none

/-- `keys/insert.sql`. -/
def insertKey (epoch now : Int) (g : Group) : Group :=
  if epoch ∈ g.keys.map Key.epoch then g else { g with keys := g.keys ++ [⟨epoch, now⟩] }

def ensureCurrent (now : Int) (g : Group) : Except ChatError Group :=
  if g.deleted then .error .notFound
  else if g.rekey then
    if g.keyEpoch < i32Max then .ok ((g.insertKey (g.keyEpoch + 1) now).advanceEpoch now) else .error .internal
  else .ok (g.insertKey g.keyEpoch now)

/-! ## Key requests -/

/-- `keys::access::Access` of a group. -/
structure KeyAccess where
  needsKey : Bool
  memberFloor : Int
  deriving DecidableEq

def keyAccess (user : String) (g : Group) : Except ChatError KeyAccess :=
  if g.deleted then .error .notFound
  else
    match g.members.find user with
    | none => .error .notMember
    | some m =>
      if m.state ∈ live then
        .ok ⟨g.rekey || decide (g.keyEpoch ∉ g.keys.map Key.epoch), if g.historyVisible then 0 else m.joinedEpoch⟩
      else .error .notMember

/-- The device of a request: when it was registered, and whether its history is unlocked. -/
structure Device where
  createdAt : Int
  historyUnlocked : Bool
  deriving DecidableEq

def firstVisibleEpoch (device : Device) (now : Int) (g : Group) : Int :=
  if device.historyUnlocked ∨ now - device.createdAt ≥ 72 * 60 * 60 * 1000 then 0
  else (((g.keys.filter fun key => key.createdAt > device.createdAt).map Key.epoch).min?).getD g.keyEpoch

def pageSize (maxBytes : Nat) : Nat := max 1 (min (maxBytes / 160) 64)

/-- `keys/list.sql`. -/
def listKeys (floor : Int) (page : Nat) (g : Group) : List Int :=
  (((g.keys.map Key.epoch).filter fun epoch => epoch ≥ floor).insertionSort fun a b => a ≤ b).take page

end Group

structure KeyRequest where
  user : String
  device : Group.Device
  fromEpoch : Option Int
  maxBytes : Nat
  deriving DecidableEq

/-- Where a key request is: before `ensure_current`, before the read of the gate, before the read of the keys. -/
inductive KeyPhase where
  | ensure (access : Group.KeyAccess)
  | gate (access : Group.KeyAccess)
  | list (access : Group.KeyAccess) (gate : Int)
  deriving DecidableEq

/-! ## The system -/

inductive Call where
  | leave
  | remove (target : String) (ban : Bool)
  | unban (target : String)
  | setRole (target : String) (role : MemberRole)
  | accept
  | decline
  | add (placed : List (String × MemberState))
  deriving DecidableEq

/-- The transaction of a member change. -/
def Call.run (access : Access) : Call → Group → Except ChatError (Change × Group)
  | .leave => Group.leave access
  | .remove target ban => Group.remove access target ban
  | .unban target => Group.unban access target
  | .setRole target role => Group.setRole access target role
  | .accept => Group.accept access
  | .decline => Group.decline access
  | .add placed => Group.add access placed

def Call.placed : Call → List (String × MemberState)
  | .add placed => placed
  | _ => []

/-- The last epoch in which no message is stored any more. -/
def Group.closedEpoch (g : Group) : Int := if g.deleted ∨ g.rekey then g.keyEpoch else g.keyEpoch - 1

inductive Event where
  /-- A transaction made the user left, kicked or banned; `closed` is the last epoch that is over then. -/
  | removed (user : String) (closed : Int)
  /-- `add` or an invite link admitted the user, while the history was hidden or not. -/
  | admitted (user : String) (hidden : Bool)
  | stored (message : Message)
  | answered (user : String) (epochs : List Int)
  deriving DecidableEq

/-- The group, the access rows that calls read, the key requests under way, the clock, and the log, the last event
first. -/
structure World where
  group : Group
  reads : List Access
  requests : Nat → Option (KeyRequest × KeyPhase)
  clock : Int
  log : List Event

def World.start (group : Group) (clock : Int) : World := ⟨group, [], fun _ => none, clock, []⟩

inductive Action where
  | read (user : String)
  | run (access : Access) (call : Call)
  | join (user createdBy : String)
  | send (sender : String) (out : Group.Outgoing)
  | system (event : SystemEvent)
  | ensureCurrent
  | rotateIfDue (epoch : Int)
  | markRekey
  | setHistory (visible : Bool)
  | request (n : Nat) (request : KeyRequest)
  | advance (n : Nat)
  | tick (ms : Nat)
  deriving DecidableEq

/-- The users that are left, kicked or banned after a change and were something else before. -/
def removedUsers (before after : Members) : List String :=
  (after.rows.filter fun m => m.state ∉ live ∧ (before.find m.userId).map Member.state ≠ some m.state).map Member.userId

def memberEvents (g g' : Group) (added : List String) : List Event :=
  added.map (fun user => .admitted user (!g.historyVisible)) ++
    (removedUsers g.members g'.members).map fun user => .removed user g'.closedEpoch

def advanceRequest (w : World) (n : Nat) : Option World :=
  match w.requests n with
  | none => none
  | some (request, .ensure access) =>
    if access.needsKey then
      match w.group.ensureCurrent w.clock with
      | .error _ => some { w with requests := update w.requests n none }
      | .ok g => some { w with group := g, requests := update w.requests n (some (request, .gate access)) }
    else some { w with requests := update w.requests n (some (request, .gate access)) }
  | some (request, .gate access) =>
    let gate := w.group.firstVisibleEpoch request.device w.clock
    some { w with requests := update w.requests n (some (request, .list access gate)) }
  | some (request, .list access gate) =>
    let floor := max (max (request.fromEpoch.getD 0) access.memberFloor) gate
    some { w with
      requests := update w.requests n none
      log := .answered request.user (w.group.listKeys floor (Group.pageSize request.maxBytes)) :: w.log }

def step (w : World) : Action → Option World
  | .read user => (Access.load w.group user).map fun access => { w with reads := access :: w.reads }
  | .run access call =>
    -- `placements` returns active and invited members only
    if access ∈ w.reads ∧ (∀ one ∈ call.placed, one.2 ∈ live) then
      match call.run access w.group with
      | .error _ => some w
      | .ok (change, g) => some { w with group := g, log := memberEvents w.group g change.added ++ w.log }
    else none
  | .join user createdBy =>
    match w.group.admitMember user createdBy with
    | .error _ => some w
    | .ok (_, g) => some { w with group := g, log := memberEvents w.group g [user] ++ w.log }
  | .send sender out =>
    match w.group.store sender out w.clock with
    | none => some w
    | some (row, g) => some { w with group := g, log := .stored row :: w.log }
  | .system event =>
    match w.group.insertSystem event with
    | .error _ => some w
    | .ok (_, g) => some { w with group := g }
  | .ensureCurrent => some { w with group := (w.group.ensureCurrent w.clock).toOption.getD w.group }
  | .rotateIfDue epoch => some { w with group := (w.group.rotateIfDue epoch w.clock).getD w.group }
  | .markRekey => some { w with group := w.group.markRekey }
  | .setHistory visible =>
    some (if w.group.deleted then w else { w with group := { w.group with historyVisible := visible } })
  | .request n request =>
    if (w.requests n).isSome then none
    else
      match w.group.keyAccess request.user with
      | .error _ => some w
      | .ok access => some { w with requests := update w.requests n (some (request, .ensure access)) }
  | .advance n => advanceRequest w n
  | .tick ms => some { w with clock := w.clock + ms }

/-! ## The deletion for everyone -/

def mayDeleteForEveryone : ConversationKind → MemberRole → Except ChatError Unit
  | .direct, _ | .saved, _ => .ok ()
  | .group, role => if role = .owner then .ok () else .error .notMember
  | .room, _ | .public_, _ => .error .invalid

/-- `for_everyone` of `chat/conversations/remove.rs`, of a group. -/
def Group.forEveryone (access : Access) (g : Group) : Except ChatError (Bool × Group) :=
  if access.state ≠ .active then .error .notMember
  else (mayDeleteForEveryone access.kind access.role).map fun _ => g.shred

inductive GroupAction where
  | call (action : Action)
  | forEveryone (access : Access)
  deriving DecidableEq

/-- The system with the deletion. -/
def groupStep (w : World) : GroupAction → Option World
  | .call action => step w action
  | .forEveryone access =>
    if access ∈ w.reads then
      match w.group.forEveryone access with
      | .error _ => some w
      | .ok (_, g) => some { w with group := g }
    else none

end SC.Impl.Chat.Groups
