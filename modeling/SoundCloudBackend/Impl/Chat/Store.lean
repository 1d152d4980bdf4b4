import SoundCloudBackend.Impl.Chat.Epochs

/-!
# The messages of a conversation

`deliver` (`chat/messages.rs`) with the store of a message
(`chat/messages/store.rs`), system rows (`chat/messages/system.rs`) and the delete
for everyone (`chat/messages/redact.rs`), on one conversation. Each statement is a
step and all calls interleave. `advance.sql` and `advance_system.sql` lock the row
of the conversation until their transaction ends; what a transaction has written is
kept with its call and takes effect at the commit. Reads see what is committed.
Gates, limits and media of a message are answers from outside, and a connection of the
database can be lost at every step. A row that is stored, or found for a re-send, is
published afterwards; if that fails, the send answers `chat_busy`. A system row has the
text of its event as its body, and a client id from outside.
-/

namespace SC.Impl.Chat.Store

open Replication (Uuid)
open Chat.Groups (MemberState MessageClass i32Max days epochMessagesMax epochDaysMax)
open Function

/-! ## Rows -/

/-- The constructors of `ChatError` that are returned here; `refused` is the error of a gate or of the media. -/
inductive ChatError where
  | invalid | notFound | notMember | epochStale | internal
  | refused (code : String)
  deriving DecidableEq

abbrev Body := List UInt8

structure Row where
  seq : Int
  clientId : Uuid
  senderUser : String
  senderDevice : Option Uuid
  messageClass : MessageClass
  epoch : Int
  targetSeq : Option Int
  body : Option Body
  createdAt : Int
  expiresAt : Option Int
  deriving DecidableEq

structure Conversation where
  kind : ConversationKind
  deleted : Bool
  lastSeq : Int
  keyEpoch : Int
  rekey : Bool
  epochMessages : Int
  epochStartedAt : Int
  ttlS : Option Int
  metaCt : Option Body
  metaEpoch : Option Int
  deriving DecidableEq

def needsTarget : MessageClass → Bool
  | .edit | .react | .pin => true
  | .post | .meta_ | .system => false

/-- `Outgoing`, as `outgoing` accepts it. -/
structure Outgoing where
  clientId : Uuid
  messageClass : MessageClass
  epoch : Int
  targetSeq : Option Int
  body : Body
  notSystem : messageClass ≠ .system
  target : needsTarget messageClass = targetSeq.isSome

instance : DecidableEq Outgoing := fun a b =>
  decidable_of_iff (a.clientId = b.clientId ∧ a.messageClass = b.messageClass ∧ a.epoch = b.epoch ∧
    a.targetSeq = b.targetSeq ∧ a.body = b.body)
    ⟨fun h => by cases a; cases b; simp_all, fun h => by simp [h]⟩

structure Access where
  userId : String
  state : MemberState
  historyFloor : Int
  moderates : Bool
  deriving DecidableEq

structure Target where
  senderUser : String
  messageClass : MessageClass
  createdAt : Int
  expiresAt : Option Int
  deleted : Bool
  deriving DecidableEq

/-! ## Statements -/

structure Limits where
  messages : Int
  days : Int
  deriving DecidableEq

def limits : ConversationKind → Limits
  | .public_ => ⟨i32Max, 7⟩
  | _ => ⟨epochMessagesMax, epochDaysMax⟩

namespace Conversation

def advance (out : Outgoing) (now : Int) (c : Conversation) : Option Conversation :=
  if c.deleted = false ∧ c.keyEpoch = out.epoch ∧ c.rekey = false ∧ c.epochMessages < (limits c.kind).messages ∧
      c.epochStartedAt > now - Groups.days (limits c.kind).days then
    some { c with
      lastSeq := c.lastSeq + 1
      epochMessages := c.epochMessages + 1
      metaCt := if out.messageClass = .meta_ then some out.body else c.metaCt
      metaEpoch := if out.messageClass = .meta_ then some out.epoch else c.metaEpoch }
  else none

def advanceSystem (c : Conversation) : Option Conversation :=
  if c.deleted then none else some { c with lastSeq := c.lastSeq + 1 }

/-- `rotate_epoch.sql`; it fails at the greatest epoch. -/
def rotateIfDue (epoch now : Int) (c : Conversation) : Except ChatError Conversation :=
  if c.keyEpoch = epoch ∧ c.deleted = false ∧ (c.rekey ∨ c.epochMessages ≥ (limits c.kind).messages ∨
      c.epochStartedAt ≤ now - Groups.days (limits c.kind).days) then
    if c.keyEpoch < i32Max then
      .ok { c with keyEpoch := c.keyEpoch + 1, rekey := false, epochMessages := 0, epochStartedAt := now }
    else .error .internal
  else .ok c

def markRekey (c : Conversation) : Conversation := if c.deleted then c else { c with rekey := true }

end Conversation

/-- `insert.sql` inserts the row. -/
def Inserts (messages : List Row) (row : Row) : Prop := row.clientId ∉ messages.map Row.clientId

instance (messages : List Row) (row : Row) : Decidable (Inserts messages row) :=
  inferInstanceAs (Decidable (_ ∉ messages.map Row.clientId))

def existing (messages : List Row) (clientId : Uuid) (user : String) : Except ChatError (Option Row) :=
  match messages.find? fun row => row.clientId = clientId with
  | some row => if row.senderUser ≠ user then .error .invalid else .ok (some row)
  | none => .ok none

def target (messages : List Row) (seq : Int) : Option Target :=
  (messages.find? fun row => row.seq = seq).map fun row =>
    ⟨row.senderUser, row.messageClass, row.createdAt, row.expiresAt, row.body.isNone⟩

def visibleTarget (messages : List Row) (access : Access) : Option Int → Option Target
  | some seq => if seq > access.historyFloor then target messages seq else none
  | none => none

def editWindowHours : Int := 48

def hours (n : Int) : Int := n * 60 * 60 * 1000

def inheritedExpiry (messageClass : MessageClass) (user : String) (target : Option Target) (now : Int) :
    Except ChatError (Option Int) :=
  if needsTarget messageClass = false then .ok none
  else
    match target with
    | none => .error .notFound
    | some target =>
      if target.messageClass ≠ .post then .error .invalid
      else if target.deleted = true ∨ target.expiresAt.any (· ≤ now) then .error .notFound
      else if messageClass = .edit ∧ target.senderUser ≠ user then .error .notMember
      else if messageClass = .edit ∧ target.createdAt + hours editWindowHours < now then .error .invalid
      else .ok target.expiresAt

def expiry (messageClass : MessageClass) (ttlS inherited : Option Int) (at_ : Int) : Option Int :=
  match messageClass with
  | .post => ttlS.map fun seconds => at_ + seconds * 1000
  | .edit | .react | .pin => inherited
  | .meta_ | .system => none

def Outgoing.row (out : Outgoing) (access : Access) (device : Uuid) (inherited : Option Int) (c : Conversation)
    (now : Int) : Row where
  seq := c.lastSeq
  clientId := out.clientId
  senderUser := access.userId
  senderDevice := some device
  messageClass := out.messageClass
  epoch := out.epoch
  targetSeq := out.targetSeq
  body := some out.body
  createdAt := now
  expiresAt := expiry out.messageClass c.ttlS inherited now

structure Notice where
  actor : String
  body : Body
  clientId : Uuid
  targetSeq : Option Int
  expiresAt : Option Int
  deriving DecidableEq

def Notice.row (notice : Notice) (c : Conversation) (now : Int) : Row where
  seq := c.lastSeq
  clientId := notice.clientId
  senderUser := notice.actor
  senderDevice := none
  messageClass := .system
  epoch := c.keyEpoch
  targetSeq := notice.targetSeq
  body := some notice.body
  createdAt := now
  expiresAt := notice.expiresAt

def redacts (seq : Int) (row : Row) : Bool :=
  row.seq ≥ seq ∧ (row.seq = seq ∨ (row.targetSeq = some seq ∧ row.messageClass = .edit)) ∧ row.body ≠ none

/-- The rows after `redact.sql` has matched those of `seqs`. -/
def blank (seqs : List Int) (messages : List Row) : List Row :=
  messages.map fun row => if row.seq ∈ seqs then { row with body := none } else row

/-! ## Calls -/

/-- What a call answers: a row, an error before anything was published, `ChatError::Busy` because the publication of the
row failed, or the error of a lost connection. -/
inductive Answer where
  | row (row : Row)
  | error (error : ChatError)
  | busy (row : Row)
  | lost
  deriving DecidableEq

/-- What turned a send away: the gate of its media, or that of a room or the public chat. The row of a re-send is answered
all the same, and published again in the second case. -/
inductive Refusal where
  | media (error : ChatError)
  | gate (error : ChatError)
  deriving DecidableEq

/-- Where a send is. `insert`, `attach` and `commit` hold the lock, with the conversation as `advance.sql` left it. -/
inductive Phase where
  | refused (refusal : Refusal)
  | target
  | advance (inherited : Option Int)
  | insert (c : Conversation) (row : Row)
  | attach (c : Conversation) (row : Row)
  | commit (c : Conversation) (row : Row)
  | duplicate
  | stale
  | rotate
  | publish (row : Row)
  | done (answer : Answer)
  deriving DecidableEq

structure Send where
  access : Access
  device : Uuid
  out : Outgoing
  phase : Phase
  deriving DecidableEq

/-- Where a delete for everyone is: the rows that `redact.sql` found, then those that it locked, then with the system
row, which holds the lock of the conversation. -/
inductive DeletePhase where
  | read
  | redact (expiresAt : Option Int)
  | lock (found : List Int) (expiresAt : Option Int)
  | tell (seqs : List Int) (expiresAt : Option Int)
  | drop (seqs : List Int) (c : Conversation) (row : Row)
  | commit (seqs : List Int) (c : Conversation) (row : Row)
  | done
  deriving DecidableEq

structure Delete where
  access : Access
  seq : Int
  phase : DeletePhase
  deriving DecidableEq

inductive Owner where
  | send (n : Nat)
  | delete (n : Nat)
  | system (n : Nat)
  deriving DecidableEq

/-- The conversation and its calls. A transaction of another module that inserts system rows is kept with the rows that
it wrote. `rowLocks` has the rows that deletes have locked, and `stored` the rows in the order of their commits. -/
structure World where
  conversation : Conversation
  messages : List Row
  lock : Option Owner
  rowLocks : List (Nat × Int)
  sends : Nat → Option Send
  deletes : Nat → Option Delete
  systems : Nat → Option (Conversation × List Row)
  clock : Int
  stored : List (Owner × Row)

def World.start (c : Conversation) (clock : Int) : World :=
  ⟨{ c with lastSeq := 0 }, [], none, [], fun _ => none, fun _ => none, fun _ => none, clock, []⟩

/-- How a commit ends: it is done, or the connection is lost and it is applied or not. -/
inductive Outcome where
  | done
  | lost (applied : Bool)
  deriving DecidableEq

def Outcome.applies : Outcome → Bool
  | .done => true
  | .lost applied => applied

inductive Action where
  | send (n : Nat) (access : Access) (device : Uuid) (out : Outgoing) (refused : Option Refusal)
  | work (n : Nat)
  | attach (n : Nat) (error : Option ChatError)
  | commit (n : Nat) (outcome : Outcome)
  | publish (n : Nat) (published : Bool)
  | lose (n : Nat)
  | delete (n : Nat) (access : Access) (seq : Int)
  | workDelete (n : Nat) (notice : Uuid × Body)
  | drop (n : Nat) (dropped : Bool)
  | commitDelete (n : Nat) (outcome : Outcome)
  | loseDelete (n : Nat)
  | systemRow (n : Nat) (notice : Notice)
  | commitSystem (n : Nat) (outcome : Outcome)
  | rollbackSystem (n : Nat)
  | rotateIfDue (epoch : Int)
  | markRekey
  | setTtl (ttlS : Option Int)
  | shred
  | tick (ms : Nat)
  deriving DecidableEq

namespace World

def setSend (w : World) (n : Nat) (s : Send) (phase : Phase) : World :=
  { w with sends := update w.sends n (some { s with phase := phase }) }

def setDelete (w : World) (n : Nat) (d : Delete) (phase : DeletePhase) : World :=
  { w with deletes := update w.deletes n (some { d with phase := phase }) }

def commit (w : World) (owner : Owner) (c : Conversation) (rows : List Row) : World :=
  { w with
    conversation := c
    messages := w.messages ++ rows
    lock := none
    stored := w.stored ++ rows.map fun row => (owner, row) }

/-- Where a send goes on after `existing`: with the row of its client id if there is one. -/
def afterExisting (w : World) (s : Send) (found : Row → Phase) : Option Phase :=
  match existing w.messages s.out.clientId s.access.userId with
  | .error error => some (.done (.error error))
  | .ok row => row.map found

def work (w : World) (n : Nat) (s : Send) : Option World :=
  match s.phase with
  | .refused (.media error) =>
    some (w.setSend n s ((w.afterExisting s fun row => .done (.row row)).getD (.done (.error error))))
  | .refused (.gate error) => some (w.setSend n s ((w.afterExisting s .publish).getD (.done (.error error))))
  | .target =>
    match inheritedExpiry s.out.messageClass s.access.userId (visibleTarget w.messages s.access s.out.targetSeq)
      w.clock with
    | .error error => some (w.setSend n s (.done (.error error)))
    | .ok inherited => some (w.setSend n s (.advance inherited))
  | .advance inherited =>
    if w.lock = none then
      match w.conversation.advance s.out w.clock with
      | none => some (w.setSend n s .stale)
      | some c =>
        some { w.setSend n s (.insert c (s.out.row s.access s.device inherited c w.clock)) with lock := some (.send n) }
    else none
  | .insert c row =>
    if Inserts w.messages row then some (w.setSend n s (.attach c row))
    else some { w.setSend n s .duplicate with lock := none }
  | .duplicate => some (w.setSend n s ((w.afterExisting s .publish).getD (.done (.error .internal))))
  | .stale => some (w.setSend n s ((w.afterExisting s .publish).getD .rotate))
  | .rotate =>
    if w.lock = none then
      match w.conversation.rotateIfDue s.out.epoch w.clock with
      | .error error => some (w.setSend n s (.done (.error error)))
      | .ok c => some { w.setSend n s (.done (.error .epochStale)) with conversation := c }
    else none
  | .attach _ _ | .commit _ _ | .publish _ | .done _ => none

def endDelete (w : World) (n : Nat) (d : Delete) : World :=
  { w.setDelete n d .done with
    lock := if w.lock = some (.delete n) then none else w.lock
    rowLocks := w.rowLocks.filter fun held => held.1 ≠ n }

def workDelete (w : World) (n : Nat) (d : Delete) (notice : Uuid × Body) : Option World :=
  match d.phase with
  | .read =>
    if d.access.state ≠ .active then some (w.endDelete n d)
    else
      match visibleTarget w.messages d.access (some d.seq) with
      | none => some (w.endDelete n d)
      | some target =>
        if target.messageClass ≠ .post ∨ target.expiresAt.any (· ≤ w.clock) ∨
            (target.senderUser ≠ d.access.userId ∧ d.access.moderates = false) ∨ target.deleted = true then
          some (w.endDelete n d)
        else some (w.setDelete n d (.redact target.expiresAt))
  | .redact expiresAt => some (w.setDelete n d (.lock ((w.messages.filter (redacts d.seq)).map Row.seq) expiresAt))
  | .lock found expiresAt =>
    if w.rowLocks.any fun held => held.1 ≠ n ∧ held.2 ∈ found then none
    else
      -- a row that was redacted while the statement waited for its lock is left out
      let seqs := ((w.messages.filter (redacts d.seq)).map Row.seq).filter (· ∈ found)
      if seqs = [] then some (w.endDelete n d)
      else some { w.setDelete n d (.tell seqs expiresAt) with rowLocks := w.rowLocks ++ seqs.map fun seq => (n, seq) }
  | .tell seqs expiresAt =>
    if w.lock = none then
      match w.conversation.advanceSystem with
      | none => some (w.endDelete n d)
      | some c =>
        let row := Notice.row ⟨d.access.userId, notice.2, notice.1, some d.seq, expiresAt⟩ c w.clock
        if Inserts w.messages row then some { w.setDelete n d (.drop seqs c row) with lock := some (.delete n) }
        else some (w.endDelete n d)
    else none
  | .drop _ _ _ | .commit _ _ _ | .done => none

def endSend (w : World) (n : Nat) (s : Send) (answer : Answer) : World :=
  { w.setSend n s (.done answer) with lock := if w.lock = some (.send n) then none else w.lock }

/-- `insert_until` in a transaction of another module, which takes the lock if it does not hold it yet. -/
def systemRow (w : World) (n : Nat) (notice : Notice) : Option World :=
  if w.lock = none ∨ w.lock = some (.system n) then
    let (c, rows) := (w.systems n).getD (w.conversation, [])
    match c.advanceSystem with
    | none => none
    | some c =>
      let row := notice.row c w.clock
      if Inserts (w.messages ++ rows) row then
        some { w with lock := some (.system n), systems := update w.systems n (some (c, rows ++ [row])) }
      else none
  else none

end World

def step (w : World) : Action → Option World
  | .send n access device out refused =>
    if (w.sends n).isSome then none
    else some (w.setSend n ⟨access, device, out, .target⟩ (refused.elim .target .refused))
  | .work n => (w.sends n).bind fun s => w.work n s
  | .attach n error =>
    (w.sends n).bind fun s =>
      match s.phase with
      | .attach c row => some (error.elim (w.setSend n s (.commit c row)) fun error => w.endSend n s (.error error))
      | _ => none
  | .commit n outcome =>
    (w.sends n).bind fun s =>
      match s.phase with
      | .commit c row =>
        let after := if outcome.applies then w.commit (.send n) c [row] else w
        some (if outcome = .done then after.setSend n s (.publish row) else after.endSend n s .lost)
      | _ => none
  | .publish n published =>
    (w.sends n).bind fun s =>
      match s.phase with
      | .publish row => some (w.setSend n s (.done (if published then .row row else .busy row)))
      | _ => none
  | .lose n =>
    (w.sends n).bind fun s =>
      match s.phase with
      | .done _ => none
      | _ => some (w.endSend n s .lost)
  | .delete n access seq =>
    if (w.deletes n).isSome then none else some (w.setDelete n ⟨access, seq, .read⟩ .read)
  | .workDelete n notice => (w.deletes n).bind fun d => w.workDelete n d notice
  | .drop n dropped =>
    (w.deletes n).bind fun d =>
      match d.phase with
      | .drop seqs c row => some (if dropped then w.setDelete n d (.commit seqs c row) else w.endDelete n d)
      | _ => none
  | .commitDelete n outcome =>
    (w.deletes n).bind fun d =>
      match d.phase with
      | .commit seqs c row =>
        let after := if outcome.applies then { w with messages := blank seqs w.messages }.commit (.delete n) c [row] else w
        some (after.endDelete n d)
      | _ => none
  | .loseDelete n => (w.deletes n).map fun d => w.endDelete n d
  | .systemRow n notice => w.systemRow n notice
  | .commitSystem n outcome =>
    if w.lock = some (.system n) then
      (w.systems n).map fun (c, rows) =>
        let after := if outcome.applies then w.commit (.system n) c rows else { w with lock := none }
        { after with systems := update w.systems n none }
    else none
  | .rollbackSystem n =>
    if w.lock = some (.system n) then
      some { w with lock := none, systems := update w.systems n none }
    else none
  | .rotateIfDue epoch =>
    if w.lock = none then
      some { w with conversation := (w.conversation.rotateIfDue epoch w.clock).toOption.getD w.conversation }
    else none
  | .markRekey => if w.lock = none then some { w with conversation := w.conversation.markRekey } else none
  | .setTtl ttlS => if w.lock = none then some { w with conversation := { w.conversation with ttlS := ttlS } } else none
  | .shred => if w.lock = none then some { w with conversation := { w.conversation with deleted := true } } else none
  | .tick ms => some { w with clock := w.clock + ms }

end SC.Impl.Chat.Store
