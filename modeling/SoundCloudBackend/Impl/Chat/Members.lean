import SoundCloudBackend.Impl.Chat.Answer

/-!
# The members of a group

One group with its rows in `chat.conversations`, `chat.members`,
`chat.messages` and `chat.conversation_keys`, and the member changes of
`chat/members/changes.rs` and `chat/invites.rs`. Each change is a transaction
under the lock of the conversation; it works with an `Access` row that its call
read before. An error rolls the transaction back. The column `accepted`, which no
change reads, and the media of a change are left out.
-/

namespace SC.Impl.Chat.Groups

open Replication (Uuid)
open List

/-- The constructors of `ChatError` that are returned here. -/
inductive ChatError where
  | invalid | notFound | notMember | unavailable | internal
  deriving DecidableEq

inductive MemberRole where
  | owner | admin | member
  deriving DecidableEq

inductive MemberState where
  | active | invited | left | kicked | banned
  deriving DecidableEq

def live : List MemberState := [.active, .invited]

def MemberRole.isAdmin : MemberRole → Bool
  | .owner | .admin => true
  | .member => false

def mayRemove : MemberRole → MemberRole → Bool
  | .owner, target => target ≠ .owner
  | .admin, target => target = .member
  | .member, _ => false

/-! ## The table of members -/

structure Member where
  userId : String
  role : MemberRole
  state : MemberState
  joinedSeq : Int
  joinedEpoch : Int
  invitedBy : Option String
  deriving DecidableEq

/-- The rows of the group, one for a user. -/
structure Members where
  rows : List Member
  nodup : (rows.map Member.userId).Nodup

namespace Members

def find (ms : Members) (user : String) : Option Member := ms.rows.find? fun m => m.userId = user

def put (ms : Members) (m : Member) : Members where
  rows :=
    if m.userId ∈ ms.rows.map Member.userId then ms.rows.map fun row => if row.userId = m.userId then m else row
    else ms.rows ++ [m]
  nodup := by
    split
    · have hids : (ms.rows.map fun row => if row.userId = m.userId then m else row).map Member.userId =
          ms.rows.map Member.userId := by
        rw [map_map]
        refine map_congr_left fun row _ => ?_
        by_cases hrow : row.userId = m.userId
        · simp [hrow]
        · simp [hrow]
      rw [hids]
      exact ms.nodup
    · rename_i hm
      rw [map_append]
      exact nodup_append.2 ⟨ms.nodup, nodup_singleton _, fun a ha b hb heq =>
        hm (mem_singleton.1 hb ▸ heq ▸ ha)⟩

/-- `set_state.sql`, which returns the role. -/
def setState (ms : Members) (user : String) (state : MemberState) (from_ : List MemberState) :
    Option (MemberRole × Members) :=
  (ms.find user).bind fun m => if m.state ∈ from_ then some (m.role, ms.put { m with state := state }) else none

/-- `accept.sql`. -/
def activate (ms : Members) (user : String) (from_ : List MemberState) : Option Members :=
  (ms.find user).bind fun m =>
    if m.state ∈ from_ then some (ms.put { m with state := .active }) else none

def setRole (ms : Members) (user : String) (role : MemberRole) : Option Members :=
  (ms.find user).bind fun m => if m.state = .active then some (ms.put { m with role := role }) else none

def stepDown (ms : Members) (owner : String) : Option Members :=
  (ms.find owner).bind fun m =>
    if m.role = .owner ∧ m.state = .active then some (ms.put { m with role := .admin }) else none

/-- The order of `successor.sql`. -/
def precedes (a b : Member) : Bool :=
  if a.role = .admin ∧ b.role ≠ .admin then true
  else if a.role ≠ .admin ∧ b.role = .admin then false
  else a.joinedSeq < b.joinedSeq || (a.joinedSeq = b.joinedSeq && a.userId ≤ b.userId)

def successor (ms : Members) (leaving : String) : Option String :=
  ((ms.rows.filter fun m => m.state = .active ∧ m.userId ≠ leaving).insertionSort fun a b => precedes a b).head?.map
    Member.userId

/-- The count of `conversations/recount.sql`. -/
def activeCount (ms : Members) : Nat := ms.rows.countP fun m => m.state = .active

/-- `live_total.sql`, also the count of `invites/recount.sql`. -/
def liveTotal (ms : Members) : Nat := ms.rows.countP fun m => m.state ∈ live

structure Joining where
  userId : String
  role : MemberRole
  state : MemberState
  deriving DecidableEq

def Joining.creator (userId : String) (role : MemberRole) : Joining := ⟨userId, role, .active⟩

def Joining.placed (userId : String) (state : MemberState) : Joining := ⟨userId, .member, state⟩

def Joining.row (joinedSeq joinedEpoch : Int) (invitedBy : String) (j : Joining) : Member where
  userId := j.userId
  role := j.role
  state := j.state
  joinedSeq := joinedSeq
  joinedEpoch := joinedEpoch
  invitedBy := if invitedBy = j.userId then none else some invitedBy

/-- `join_many.sql`, with the rows it returns. It fails at a row that it has written before. -/
def joinMany (row : Joining → Member) : Members → List Member → List Joining → Except ChatError (Members × List Member)
  | ms, joined, [] => .ok (ms, joined)
  | ms, joined, j :: rest =>
    if j.userId ∈ joined.map Member.userId then .error .internal
    else
      match ms.find j.userId with
      | none => joinMany row (ms.put (row j)) (joined ++ [row j]) rest
      | some old =>
        if old.state ∈ [MemberState.left, .kicked] then joinMany row (ms.put (row j)) (joined ++ [row j]) rest
        else joinMany row ms joined rest

end Members

/-! ## The group -/

inductive SystemEvent where
  | created (actor : String)
  | added (actor : String) (targets : List String)
  | joined (actor : String)
  | left (actor : String)
  | kicked (actor target : String)
  | banned (actor target : String)
  | role (actor target : String) (role : MemberRole)
  | renamed (actor : String)
  | ttl (actor : String) (ttlS : Option Int)
  | deleted (actor : String)
  deriving DecidableEq

def SystemEvent.actor : SystemEvent → String
  | .created actor | .added actor _ | .joined actor | .left actor | .kicked actor _ | .banned actor _
  | .role actor _ _ | .renamed actor | .ttl actor _ | .deleted actor => actor

inductive MessageClass where
  | post | edit | react | pin | meta_ | system
  deriving DecidableEq

/-- A row of `chat.messages`. The client id of a system row is a new one, and its body is an event. -/
structure Message where
  seq : Int
  clientId : Option Uuid
  senderUser : String
  messageClass : MessageClass
  epoch : Int
  event : Option SystemEvent
  deriving DecidableEq

structure Key where
  epoch : Int
  createdAt : Int
  deriving DecidableEq

/-- The row of the group in `chat.conversations`, with its members, messages and keys. -/
structure Group where
  deleted : Bool
  lastSeq : Int
  keyEpoch : Int
  rekey : Bool
  epochMessages : Int
  epochStartedAt : Int
  historyVisible : Bool
  memberCount : Nat
  members : Members
  keys : List Key
  messages : List Message

def i32Max : Int := 2 ^ 31 - 1

def saturatingSucc (epoch : Int) : Int := min (epoch + 1) i32Max

namespace Group

def recount (g : Group) : Group := { g with memberCount := g.members.activeCount }

/-- `invites/recount.sql`. -/
def recountLive (g : Group) : Group := { g with memberCount := g.members.liveTotal }

def markRekey (g : Group) : Group := if g.deleted then g else { g with rekey := true }

def shred (g : Group) : Bool × Group :=
  if g.deleted then (false, g) else (true, { g with deleted := true, keys := [] })

/-- `system::insert`. -/
def insertSystem (g : Group) (event : SystemEvent) : Except ChatError (Message × Group) :=
  if g.deleted then .error .notFound
  else
    let row : Message := ⟨g.lastSeq + 1, none, event.actor, .system, g.keyEpoch, some event⟩
    .ok (row, { g with lastSeq := g.lastSeq + 1, messages := g.messages ++ [row] })

end Group

structure Access where
  userId : String
  kind : ConversationKind
  role : MemberRole
  state : MemberState
  recipients : List String
  deriving DecidableEq

namespace Access

/-- `access.sql`. -/
def load (g : Group) (user : String) : Option Access :=
  if g.deleted then none
  else (g.members.find user).map fun m =>
    let recipients := (g.members.rows.filter fun r => r.state ∈ live).map Member.userId
    ⟨user, .group, m.role, m.state, recipients.insertionSort fun a b => a ≤ b⟩

def isGroup (access : Access) : Bool := access.kind = .group

/-- `active()?.admin()?`. -/
def isActor (access : Access) : Bool := access.state = .active && (access.isGroup && access.role.isAdmin)

def recipientsWith (access : Access) (extra : String) : List String :=
  if extra ∈ access.recipients then access.recipients else access.recipients ++ [extra]

end Access

/-- `Change`: what is told about a change. -/
structure Change where
  rows : List Message := []
  recipients : List String
  added : List String := []
  deleted : Bool := false
  requests : List String := []
  deriving DecidableEq

/-! ## Member changes -/

namespace Group

def inserted (now : Int) : Group := ⟨false, 0, 0, false, 0, now, true, 0, ⟨[], nodup_nil⟩, [], []⟩

def group (user : String) (placed : List (String × MemberState)) (now : Int) : Except ChatError Group := do
  let joining := .creator user .owner :: placed.map fun (member, state) => Members.Joining.placed member state
  let (members, _) ← (inserted now).members.joinMany (Members.Joining.row 0 0 user) [] joining
  let (_, g) ← { inserted now with members := members }.insertSystem (.created user)
  return g.recount

def handOver (access : Access) (g : Group) : Except ChatError (List Message × Group) :=
  match g.members.successor access.userId with
  | none => .ok ([], g)
  | some heir => do
    let g := { g with members := (g.members.setRole heir .owner).getD g.members }
    let (row, g) ← g.insertSystem (.role access.userId heir .owner)
    return ([row], g)

/-- The rest of `leave`, once the row is set. -/
def departed (access : Access) (role : MemberRole) (change : Change) (g : Group) : Except ChatError (Change × Group) :=
  if g.members.activeCount = 0 then
    let (deleted, g) := g.recount.shred
    .ok ({ change with deleted := deleted, requests := change.recipients }, g)
  else do
    let (rows, g) ← (if role = .owner then handOver access g.recount else .ok ([], g.recount))
    let (row, g) ← g.markRekey.insertSystem (.left access.userId)
    return ({ change with rows := rows ++ [row] }, g)

def leave (access : Access) (g : Group) : Except ChatError (Change × Group) :=
  if !access.isGroup then .error .invalid
  else if g.deleted then .error .notFound
  else
    let recipients := access.recipientsWith access.userId
    match g.members.setState access.userId .left live with
    | none => .ok ({ recipients := recipients }, g)
    | some (role, members) =>
      let requests := if access.state = .invited then [access.userId] else []
      departed access role { recipients := recipients, requests := requests } { g with members := members }

/-- The state that `remove` sets, and those it sets it from. -/
def removal (ban : Bool) : MemberState × List MemberState :=
  if ban then (.banned, [.active, .invited, .left, .kicked]) else (.kicked, live)

/-- The rest of `remove`, once the row is set; `state` is the one before. -/
def expelled (access : Access) (target : String) (ban : Bool) (state : MemberState) (g : Group) :
    Except ChatError (Change × Group) := do
  let g := if state ∈ live then g.markRekey else g
  let requests := if state = .invited then [target] else []
  let event := if ban then .banned access.userId target else .kicked access.userId target
  let (row, g) ← g.insertSystem event
  return ({ recipients := access.recipientsWith target, rows := [row], requests := requests }, g.recount)

def remove (access : Access) (target : String) (ban : Bool) (g : Group) : Except ChatError (Change × Group) :=
  if !access.isActor then .error .notMember
  else if target = access.userId then .error .invalid
  else if g.deleted then .error .notFound
  else
    match g.members.find target with
    | none => .error .notFound
    | some standing =>
      if !mayRemove access.role standing.role then .error .notMember
      else
        match g.members.setState target (removal ban).1 (removal ban).2 with
        | none =>
          if standing.state = (removal ban).1 then .ok ({ recipients := access.recipientsWith target }, g)
          else .error .notFound
        | some (_, members) => expelled access target ban standing.state { g with members := members }

/-- `unban`; it takes no lock. -/
def unban (access : Access) (target : String) (g : Group) : Except ChatError (Change × Group) :=
  if !access.isActor then .error .notMember
  else
    let members := (g.members.setState target .left [.banned]).elim g.members Prod.snd
    .ok ({ recipients := [access.userId] }, { g with members := members })

def rolesSet (access : Access) (target : String) (role : MemberRole) (ms : Members) : Except ChatError Members :=
  if role = .owner then
    match ms.stepDown access.userId with
    | none => .error .notMember
    | some ms => (ms.setRole target role).elim (.error .notFound) .ok
  else (ms.setRole target role).elim (.error .notFound) .ok

def setRole (access : Access) (target : String) (role : MemberRole) (g : Group) : Except ChatError (Change × Group) :=
  if !access.isActor then .error .notMember
  else if access.role ≠ .owner ∨ target = access.userId then .error .notMember
  else if g.deleted then .error .notFound
  else do
    let members ← rolesSet access target role g.members
    let (row, g) ← { g with members := members }.insertSystem (.role access.userId target role)
    return ({ recipients := access.recipients, rows := [row] }, g)

/-- `accept`, of a group. -/
def accept (access : Access) (g : Group) : Except ChatError (Change × Group) :=
  if g.deleted then .error .notFound
  else
    match g.members.activate access.userId [.invited] with
    | none => if access.state = .active then .ok ({ recipients := access.recipients }, g) else .error .notMember
    | some members => do
      let (row, g) ← { g with members := members }.insertSystem (.joined access.userId)
      return ({ recipients := access.recipients, requests := [access.userId], rows := [row] }, g.recount)

def decline (access : Access) (g : Group) : Except ChatError (Change × Group) :=
  if g.deleted then .error .notFound
  else
    let change : Change := { recipients := [access.userId], requests := [access.userId] }
    match g.members.setState access.userId .left [.invited] with
    | none => if access.state = .left then .ok (change, g) else .error .notMember
    | some (_, members) => .ok (change, { g with members := members })

def membersMax : Nat := 200

/-- The epoch from which somebody who joins may read. -/
def joinedEpoch (g : Group) : Int := if g.historyVisible then 0 else saturatingSucc g.keyEpoch

/-- The rest of `add`, once the rows are written. -/
def welcomed (access : Access) (joined : List Member) (g : Group) : Except ChatError (Change × Group) := do
  let g := if g.historyVisible then g else g.markRekey
  let targets := joined.map Member.userId
  let (row, g) ← g.insertSystem (.added access.userId targets)
  let invited := (joined.filter fun m => m.state = .invited).map Member.userId
  return (⟨[row], access.recipients ++ targets, targets, false, invited⟩, g.recount)

def add (access : Access) (placed : List (String × MemberState)) (g : Group) : Except ChatError (Change × Group) :=
  if !access.isActor then .error .notMember
  else if placed = [] then .ok ({ recipients := access.recipients }, g)
  else if g.deleted then .error .notFound
  else if g.members.liveTotal + placed.length > membersMax then .error .invalid
  else
    let joining := placed.map fun (user, state) => Members.Joining.placed user state
    match g.members.joinMany (Members.Joining.row g.lastSeq g.joinedEpoch access.userId) [] joining with
    | .error error => .error error
    | .ok (_, []) => .ok ({ recipients := access.recipients }, g)
    | .ok (members, joined) => welcomed access joined { g with members := members }

/-- `admit_member`, once the token of an invite of `createdBy` is consumed. -/
def admitMember (user createdBy : String) (g : Group) : Except ChatError (Message × Group) :=
  if g.deleted then .error .notFound
  else if g.memberCount ≥ membersMax then .error .unavailable
  else
    let row : Member := ⟨user, .member, .active, g.lastSeq, g.joinedEpoch, some createdBy⟩
    -- `add_member.sql`
    match (g.members.find user).map Member.state with
    | some .active | some .banned => .error .unavailable
    | _ => do
      let g' := { g with members := g.members.put row }
      let g' := if g.historyVisible then g' else g'.markRekey
      let (row, g') ← g'.insertSystem (.joined user)
      return (row, g'.recountLive)

end Group

end SC.Impl.Chat.Groups
