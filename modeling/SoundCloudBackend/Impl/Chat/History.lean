import SoundCloudBackend.Impl.Chat.Store

/-!
# Pages of the history

`read` and `fit` (`chat/messages/page.rs`) with their two queries
(`api/queries/chat/messages/after.sql` and `before.sql`), on the messages of one
conversation. The floor of the reader's access and the encoding of a message by
`serde_json` are parameters, and a byte cap is any number. `walk` is a client that reads on
from the end of each page while there is more.
-/

namespace SC.Impl.Chat.History

open Replication (Uuid)
open Chat.Groups (MessageClass)
open Chat.Store (Body Row ChatError)

/-! ## Messages -/

structure MessageView where
  seq : Int
  clientId : Uuid
  sender : String
  senderDevice : Option Uuid
  messageClass : MessageClass
  epoch : Int
  targetSeq : Option Int
  body : Option Body
  ts : Int
  expiresAt : Option Int
  deriving DecidableEq

def MessageView.ofRow (row : Row) : MessageView where
  seq := row.seq
  clientId := row.clientId
  sender := row.senderUser
  senderDevice := row.senderDevice
  messageClass := row.messageClass
  epoch := row.epoch
  targetSeq := row.targetSeq
  body := row.body
  ts := row.createdAt
  expiresAt := row.expiresAt

/-- The messages of a conversation, in the order of its primary key. -/
structure Stored where
  rows : List Row
  order : rows.Pairwise fun row row' => row.seq < row'.seq

def live (now : Int) (row : Row) : Bool := row.expiresAt.all fun at_ => at_ > now

def Stored.after (stored : Stored) (now after : Int) (limit : Nat) : List Row :=
  (stored.rows.filter fun row => row.seq > after ∧ live now row).take limit

def Stored.before (stored : Stored) (now before floor : Int) (limit : Nat) : List Row :=
  (stored.rows.filter fun row => row.seq < before ∧ row.seq > floor ∧ live now row).reverse.take limit

/-! ## Pages -/

inductive Tier where
  | direct | relay | pro
  deriving DecidableEq

/-- `PAGE_ROWS_DEFAULT`, `PAGE_ROWS_MAX`, `PAGE_BYTES_MAX` and `PAGE_BYTES_MAX_PRO`. -/
def pageRowsDefault : Nat := 50
def pageRowsMax : Nat := 200
def pageBytesMax : Nat := 256 * 1024
def pageBytesMaxPro : Nat := 24 * 1024

def i64Max : Int := 9223372036854775807

def byteCap (tier : Tier) (maxBytes : Nat) : Nat :=
  let tierCap := if tier = .pro then pageBytesMaxPro else pageBytesMax
  if maxBytes > 0 then Nat.min tierCap maxBytes else tierCap

def rowsLimit : Option Nat → Nat
  | some limit => if limit > 0 then Nat.min limit pageRowsMax else pageRowsDefault
  | none => pageRowsDefault

structure HistoryQuery where
  after : Option Int
  before : Option Int
  limit : Option Nat
  deriving DecidableEq

structure HistoryPage where
  messages : List MessageView
  more : Bool
  deriving DecidableEq

def bytesOf (text : String) : List UInt8 := text.toUTF8.data.toList

/-- `PAGE_FRAME`: the bytes of an empty page. -/
def pageFrame : Nat := (bytesOf "\x7b\"messages\":[],\"more\":false\x7d").length

def HistoryPage.encode (json : MessageView → List UInt8) (page : HistoryPage) : List UInt8 :=
  bytesOf "\x7b\"messages\":[" ++ List.intercalate (bytesOf ",") (page.messages.map json) ++ bytesOf "],\"more\":" ++
    bytesOf (if page.more then "true" else "false") ++ bytesOf "\x7d"

/-- The loop of `fit`: the messages taken, and whether the bytes were spent before the rows. -/
def fitLoop (json : MessageView → List UInt8) (byteCap : Nat) :
    List Row → (used : Nat) → List MessageView → List MessageView × Bool
  | [], _, messages => (messages, false)
  | row :: rest, used, messages =>
    let view := MessageView.ofRow row
    let after := used + (json view).length + if messages = [] then 0 else 1
    if messages ≠ [] ∧ after > byteCap then (messages, true)
    else fitLoop json byteCap rest after (messages ++ [view])

def fit (json : MessageView → List UInt8) (rows : List Row) (limit byteCap : Nat) : HistoryPage :=
  let (messages, spent) := fitLoop json byteCap (rows.take limit) pageFrame []
  ⟨messages, rows.length > limit || spent⟩

def read (json : MessageView → List UInt8) (stored : Stored) (now floor : Int) (query : HistoryQuery) (byteCap : Nat) :
    Except ChatError HistoryPage :=
  let limit := rowsLimit query.limit
  match query.after, query.before with
  | some _, some _ => .error .invalid
  | some after, none =>
    .ok (fit json (stored.after now (if after < floor then floor else after) (limit + 1)) limit byteCap)
  | none, before =>
    let rows := stored.before now (before.getD i64Max) floor (limit + 1)
    let kept := rows.take limit
    let page := fit json kept kept.length byteCap
    .ok ⟨page.messages.reverse, page.more || rows.length > limit⟩

/-! ## Walks -/

/-- Pages read one after another, each from the `edge` of the one before; `none` if the fuel runs out first. -/
def walk (readAt : Option Int → Except ChatError HistoryPage) (edge : HistoryPage → Option MessageView) :
    (fuel : Nat) → Option Int → Option (List HistoryPage)
  | 0, _ => none
  | fuel + 1, start =>
    match readAt start with
    | .error _ => none
    | .ok page =>
      if page.more then
        match edge page with
        | some message => (walk readAt edge fuel (some message.seq)).map (page :: ·)
        | none => none
      else some [page]

/-- From the newest message, with `before` the first seq of the page before. -/
def walkBack (json : MessageView → List UInt8) (stored : Stored) (now floor : Int) (limit : Option Nat) (byteCap : Nat)
    (fuel : Nat) : Option (List HistoryPage) :=
  walk (fun before => read json stored now floor ⟨none, before, limit⟩ byteCap) (fun page => page.messages.head?) fuel
    none

/-- Forward, with `after` the last seq of the page before. -/
def walkForward (json : MessageView → List UInt8) (stored : Stored) (now floor : Int) (limit : Option Nat)
    (byteCap : Nat) (start : Int) (fuel : Nat) : Option (List HistoryPage) :=
  walk (fun after => read json stored now floor ⟨after, none, limit⟩ byteCap) (fun page => page.messages.getLast?) fuel
    (some start)

end SC.Impl.Chat.History
