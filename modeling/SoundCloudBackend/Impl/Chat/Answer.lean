import SoundCloudBackend.Impl.Chat.Changes
import Mathlib.Algebra.GroupWithZero.Nat
import Mathlib.Data.List.Sort

/-!
# The answer to a sync request

`build` (`chat/sync/answer.rs`) puts an answer together: the rows of the
conversations come from the hot cache of the process (`chat/hot_cache.rs`) or
from `api/queries/chat/sync/messages_after.sql`, and `assemble` fills the answer
change by change until its bytes are spent. Marks and typing notices, which
`decorate` adds, and the texts of devices are left out.
-/

namespace SC.Impl.Chat

open Replication (Uuid)
open Function

/-- `MessageRow`; `MessageView` keeps these fields. -/
structure MessageRow where
  conversationId : Uuid
  seq : Int
  senderUser : String
  body : Option (List UInt8)
  expiresAt : Option Int
  deriving DecidableEq

def MessageRow.expired (now : Int) (row : MessageRow) : Bool := row.expiresAt.any fun at_ => at_ ≤ now

def MessageRow.bodyLength (row : MessageRow) : Nat := row.body.elim 0 List.length

/-! ## The hot cache -/

/-- `TAIL_ROWS`, `TAIL_BYTES` and `ROW_OVERHEAD`. -/
def tailRows : Nat := 256
def tailBytes : Nat := 512 * 1024
def rowOverhead : Nat := 160

def MessageRow.weight (row : MessageRow) : Nat := rowOverhead + row.senderUser.utf8ByteSize + row.bodyLength

/-- `HotCache`: the newest rows of a conversation, if it is cached. -/
abbrev HotCache := Uuid → Option (List MessageRow)

namespace HotCache

/-- The loop of `put` that drops the oldest rows. -/
def trim : List MessageRow → List MessageRow
  | [] => []
  | row :: rest =>
    if rest.length + 1 > tailRows ∨ (((row :: rest).map MessageRow.weight).sum > tailBytes ∧ rest.length + 1 > 1) then
      trim rest
    else row :: rest

/-- The rows of `put` before they are trimmed; `none` for a row before all others. -/
def insert (row : MessageRow) (rows : List MessageRow) : Option (List MessageRow) :=
  if rows.any fun cached => cached.seq = row.seq then
    some (rows.map fun cached => if cached.seq = row.seq then row else cached)
  else
    match rows.takeWhile fun cached => cached.seq < row.seq with
    | [] => if rows = [] then some [row] else none
    | older => some (older ++ row :: rows.drop older.length)

def put (row : MessageRow) (cache : HotCache) : HotCache :=
  match insert row ((cache row.conversationId).getD []) with
  | some rows => update cache row.conversationId (some (trim rows))
  | none => cache

def forget (conversation : Uuid) (cache : HotCache) : HotCache := update cache conversation none

/-- A call of `put`, or a conversation that is forgotten. -/
inductive Op where
  | put (row : MessageRow)
  | forget (conversation : Uuid)
  deriving DecidableEq

def of (ops : List Op) : HotCache :=
  ops.foldl (fun cache op =>
    match op with
    | .put row => put row cache
    | .forget conversation => forget conversation cache) fun _ => none

/-- The loop of `after` over the newer rows: they follow one another without a gap. -/
def consecutive (now : Int) : Int → List MessageRow → Option (List MessageRow)
  | _, [] => some []
  | expected, row :: rest =>
    if row.seq ≠ expected then none
    else (consecutive now (expected + 1) rest).map fun rows => if row.expired now then rows else row :: rows

/-- `after`; `checked_add` fails at the greatest `i64`. -/
def after (now : Int) (conversation : Uuid) (seq : Int) (cache : HotCache) : Option (List MessageRow) :=
  match cache conversation with
  | none | some [] => none
  | some (first :: rest) =>
    if seq = 2 ^ 63 - 1 ∨ seq + 1 < first.seq then none
    else consecutive now (seq + 1) ((first :: rest).filter fun row => row.seq > seq)

end HotCache

/-! ## Rows -/

structure Fetch where
  conversation : Uuid
  after : Int
  deriving DecidableEq

def rowsPerConversation : Nat := 200

/-- The messages of each conversation in `chat.messages`, by their seq. -/
structure Messages where
  rows : Uuid → List MessageRow
  conversation : ∀ id, ∀ row ∈ rows id, row.conversationId = id
  order : ∀ id, (rows id).Pairwise fun row row' => row.seq < row'.seq

def page (stored : Messages) (now : Int) (fetch : Fetch) : List MessageRow :=
  ((stored.rows fetch.conversation).filter fun row => row.seq > fetch.after ∧ !row.expired now).take rowsPerConversation

def pick (budget : Int) : Int → List MessageRow → List MessageRow
  | _, [] => []
  | running, row :: rest =>
    let running := running + row.bodyLength + 256
    if running ≤ budget then row :: pick budget running rest else pick budget running rest

def messagesAfter (stored : Messages) (now : Int) (wanted : List Fetch) (budget : Nat) : List MessageRow :=
  pick (min (budget : Int) (2 ^ 63 - 1)) 0 (wanted.flatMap (page stored now))

abbrev Rows := Uuid → Option (List MessageRow)

def Rows.push (found : Rows) (row : MessageRow) : Rows :=
  update found row.conversationId (some ((found row.conversationId).getD [] ++ [row]))

def Rows.hit (cache : HotCache) (now : Int) (found : Rows) (fetch : Fetch) : Rows :=
  match cache.after now fetch.conversation fetch.after with
  | some rows => update found fetch.conversation (some rows)
  | none => found

def fetch (cache : HotCache) (stored : Messages) (now : Int) (wanted : List Fetch) (budget : Nat) : Rows :=
  let missed := wanted.filter fun fetch => (cache.after now fetch.conversation fetch.after).isNone
  (messagesAfter stored now missed budget).foldl Rows.push (wanted.foldl (Rows.hit cache now) fun _ => none)

/-! ## Assembly -/

inductive ConversationKind where
  | direct | group | room | public_ | saved
  deriving DecidableEq

inductive Seat where
  | live (floor : Int)
  | gone
  deriving DecidableEq

structure ConversationState where
  id : Uuid
  kind : ConversationKind
  lastSeq : Int
  keyEpoch : Int
  seat : Seat
  deriving DecidableEq

structure SyncConversation where
  id : Uuid
  lastSeq : Int
  keyEpoch : Int
  messages : List MessageRow
  more : Bool
  deriving DecidableEq

/-- The states that `seats::load` returns, by their ids. -/
def stateOf (states : List ConversationState) (id : Uuid) : Option ConversationState :=
  states.find? fun state => state.id = id

def seatOf (states : List ConversationState) (id : Uuid) : Seat := (stateOf states id).elim .gone fun state => state.seat

structure Inputs where
  versions : Versions
  deltas : List Delta
  states : List ConversationState
  known : Uuid → Option Int
  rows : Rows
  focus : Option Uuid
  includeFocus : Bool
  budget : Nat
  now : Int

/-- `Assembly`, with the answer so far. -/
structure Assembly where
  remaining : Int
  emitted : List Uuid
  pos : Nat
  convs : List SyncConversation
  gone : List Uuid
  goneMsgs : List (Uuid × Int)
  wantsDevices : Bool
  wantsRequests : Bool
  deriving DecidableEq

def isizeMax : Int := 2 ^ 63 - 1

def spend (remaining : Int) (cost : Nat) : Int := max (remaining - min (cost : Int) isizeMax) (-isizeMax - 1)

/-- `bytes::message`, and what a conversation or a gone one costs. -/
def MessageRow.cost (row : MessageRow) : Nat :=
  300 + row.senderUser.utf8ByteSize + row.body.elim 0 fun body => (body.length + 2) / 3 * 4

def conversationCost : Nat := 160
def goneCost : Nat := 48
def goneMessageCost : Nat := 64

/-- The loop of `entry`: the messages that the bytes left allow, and what is left after them. -/
def deliver (remaining : Int) : List MessageRow → List MessageRow × Int
  | [] => ([], remaining)
  | row :: rest =>
    if min (row.cost : Int) isizeMax > remaining then ([], remaining)
    else
      let (messages, left) := deliver (spend remaining row.cost) rest
      (row :: messages, left)

namespace Assembly

def entry (inputs : Inputs) (a : Assembly) (state : ConversationState) (floor : Int) : Assembly × SyncConversation :=
  let remaining := spend a.remaining conversationCost
  match inputs.known state.id with
  | none =>
    ({ a with remaining := remaining }, ⟨state.id, state.lastSeq, state.keyEpoch, [], state.lastSeq > floor⟩)
  | some known =>
    let after := max known floor
    let rows := (((inputs.rows state.id).getD []).filter fun row => row.seq > after ∧ !row.expired inputs.now)
      |>.insertionSort fun left right => left.seq ≤ right.seq
    let (messages, left) := deliver remaining rows
    let delivered := messages.getLast?.elim after MessageRow.seq
    let lastSeq := max state.lastSeq delivered
    ({ a with remaining := left }, ⟨state.id, lastSeq, state.keyEpoch, messages, delivered < lastSeq⟩)

def conversation (inputs : Inputs) (a : Assembly) (id : Uuid) : Assembly :=
  if id ∈ a.emitted then a
  else
    let a := { a with emitted := id :: a.emitted }
    match seatOf inputs.states id, stateOf inputs.states id with
    | .gone, _ => { a with gone := a.gone ++ [id], remaining := spend a.remaining goneCost }
    | .live floor, some state =>
      let (a, entry) := a.entry inputs state floor
      { a with convs := a.convs ++ [entry] }
    | .live _, none => a

def delta (inputs : Inputs) (a : Assembly) : Change → Assembly
  | .conversation id => a.conversation inputs id
  | .devices => { a with wantsDevices := true }
  | .requests => { a with wantsRequests := true }
  | .goneMessages id seqs =>
    seqs.foldl (fun a seq => { a with
      goneMsgs := a.goneMsgs ++ [(id, seq)]
      remaining := spend a.remaining goneMessageCost }) a

/-- The loop of `assemble` over the groups of one version; it says whether it came to the end. -/
def groups (inputs : Inputs) : Assembly → Bool → List (List Delta) → Assembly × Bool
  | a, _, [] => (a, true)
  | a, processed, group :: rest =>
    if processed ∧ a.remaining ≤ 0 then (a, false)
    else
      let a' := group.foldl (fun a d => a.delta inputs d.change) a
      groups inputs { a' with pos := group.head?.elim a'.pos Delta.version } true rest

def start (inputs : Inputs) : Assembly where
  remaining := min (inputs.budget : Int) isizeMax
  emitted := []
  pos := inputs.versions.version
  convs := []
  gone := []
  goneMsgs := []
  wantsDevices := false
  wantsRequests := false

/-- The conversation in focus comes first, if it is asked for. -/
def focused (inputs : Inputs) : Assembly :=
  match inputs.focus with
  | some focus => if inputs.includeFocus then (start inputs).conversation inputs focus else start inputs
  | none => start inputs

end Assembly

def assemble (inputs : Inputs) : Assembly :=
  let (a, complete) := (Assembly.focused inputs).groups inputs false
    (inputs.deltas.splitBy fun left right => left.version = right.version)
  if complete then { a with pos := inputs.versions.version } else a

/-! ## The build of an answer -/

structure Ask where
  known : List (Uuid × Int)
  focus : Option Uuid
  includeFocus : Bool
  budget : Nat
  seesPublic : Bool
  deriving DecidableEq

/-- The last entry of `known` for a conversation. -/
def Ask.knownOf (ask : Ask) (id : Uuid) : Option Int := (ask.known.reverse.find? fun entry => entry.1 = id).map Prod.snd

def answerOrder (ask : Ask) (deltas : List Delta) : List Uuid :=
  let focus := if ask.includeFocus then ask.focus.toList else []
  let changed := deltas.filterMap fun d =>
    match d.change with
    | .conversation id => some id
    | _ => none
  (focus ++ changed).foldl (fun seen id => if id ∈ seen then seen else seen ++ [id]) []

def fetchFor (state : ConversationState) (known : Uuid → Option Int) : Option Fetch :=
  match state.seat with
  | .gone => none
  | .live floor =>
    (known state.id).bind fun known =>
      let after := max known floor
      if state.lastSeq > after then some ⟨state.id, after⟩ else none

/-- A change that the caller does not see: of a public conversation, on a device without public chats. -/
def hides (ask : Ask) (states : List ConversationState) : Change → Bool
  | .conversation id => !ask.seesPublic && (stateOf states id).any fun state => state.kind = .public_
  | _ => false

def seen (ask : Ask) (states : List ConversationState) : List ConversationState :=
  states.filter fun state => ask.seesPublic || state.kind ≠ .public_

/-- The inputs of `assemble` in `build`; the rows are fetched some time before it. -/
def inputsOf (ask : Ask) (changes : Changes) (states : List ConversationState) (cache : HotCache) (stored : Messages)
    (fetchedAt now : Int) : Inputs where
  versions := changes.versions
  deltas := changes.deltas.filter fun d => !hides ask states d.change
  states := seen ask states
  known := ask.knownOf
  rows :=
    let wanted := (answerOrder ask changes.deltas).filterMap fun id =>
      (stateOf (seen ask states) id).bind fun state => fetchFor state ask.knownOf
    fetch cache stored fetchedAt wanted ask.budget
  focus := ask.focus.filter fun id => !hides ask states (.conversation id)
  includeFocus := ask.includeFocus
  budget := ask.budget
  now := now

def build (ask : Ask) (changes : Changes) (states : List ConversationState) (cache : HotCache) (stored : Messages)
    (fetchedAt now : Int) : Assembly :=
  assemble (inputsOf ask changes states cache stored fetchedAt now)

end SC.Impl.Chat
