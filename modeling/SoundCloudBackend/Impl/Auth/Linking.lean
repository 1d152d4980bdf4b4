import SoundCloudBackend.Impl.Replication.Commands

/-!
# Device links

`LinkService::create_bound` and `claim_bound` (`auth/link_service.rs`) over the functions
`auth_link_create` and `auth_link_claim` (`0314_auth_session_hash.sql`). A call of the service
reads the database up to three times: it looks for the source session, reads the bind that the
caller has to own (`source_proof`), and runs one of the two functions, which is one step under
its row locks. Between these steps anything may happen to the sessions. A time is in
microseconds. `Link.creator` and `Grant` are history: the call that made a link, and what a
claim found and made.
-/

namespace SC.Impl.Auth.Linking

open Replication (Uuid)

abbrev Bind := List UInt8

structure Session where
  connection : Option Uuid
  chatBind : Option Bind

inductive Mode where
  | pull
  | push
  deriving DecidableEq

inductive Status where
  | pending
  | claimed
  | failed (error : String)
  deriving DecidableEq

/-- What a call of the service has: the session it acts for, the bind it presents, `owns_bind`, and the bind of the
session that has passed it. -/
structure Caller where
  session : Option Uuid
  bind : Option Bind
  owns : Bind → Bool
  proof : Option Bind

structure Link where
  id : Uuid
  claimToken : String
  mode : Mode
  source : Option Uuid
  target : Option Uuid
  status : Status
  expiresAt : Nat
  chatBind : Option Bind
  creator : Caller

structure Db where
  sessions : Uuid → Option Session
  links : List Link

inductive SqlError where
  | invalidParameter (mode : Mode) (hasSource : Bool)
  | stringTooLong (message : String)
  | startsLimited (limit : Nat) (kind : String)
  | uniqueViolation

inductive AppError where
  | unauthorized (message : String)
  | badRequest (message : String)
  | notFound (message : String)
  | soundcloudReauthorizationRequired
  | database (error : SqlError)

def bindTooLong : SqlError := .stringTooLong "a chat bind holds at most 512 bytes"

/-- `octet_length(bind) > 512`, which is not true of a null. -/
def tooLong (bind : Option Bind) : Bool := bind.any fun bytes => 512 < bytes.length

def linkLifetime : Nat := 5 * 60 * 1000000

/-- What the database draws for a call: two identifiers, a secret, `now()`, and whether `auth_start_window` is full. -/
structure Draw where
  id : Uuid
  claimToken : String
  now : Nat
  limited : Bool

/-- The bind that `auth_link_create` stores: for a push only the one the source session has. -/
def createdBind (source : Option Session) (chatBind : Option Bind) : Option Bind :=
  match source with
  | none => chatBind
  | some session => if chatBind = session.chatBind then chatBind else none

def insertLink (db : Db) (link : Link) : Except SqlError Db :=
  if db.links.any fun other => other.id = link.id || other.claimToken = link.claimToken then .error .uniqueViolation
  else .ok { db with links := db.links ++ [link] }

/-- `auth_link_create`; `none` is an empty result. -/
def authLinkCreate (db : Db) (draw : Draw) (mode : Mode) (source : Option Uuid) (chatBind : Option Bind)
    (creator : Caller) : Except SqlError (Option (Db × Link)) := do
  if (mode == .push) != source.isSome then .error (.invalidParameter mode source.isSome)
  if tooLong chatBind then .error bindTooLong
  if draw.limited then .error (.startsLimited 3000 "link")
  let session := source.bind db.sessions
  if mode = .push ∧ (session.bind Session.connection).isNone then return none
  let link : Link :=
    { id := draw.id, claimToken := draw.claimToken, mode, source, target := none, status := .pending
      expiresAt := draw.now + linkLifetime, chatBind := createdBind session chatBind, creator }
  return some (← insertLink db link, link)

inductive Outcome where
  | unknown
  | expired (mode : Mode)
  | pullNeedsSource
  | pushWithoutSource
  | sourceMissing (mode : Mode)
  | reauthorize (mode : Mode)
  | claimed (session : Uuid) (mode : Mode)

/-- A link that is claimed: the row and the source session that were found, and the session that is made. -/
structure Grant where
  link : Link
  now : Nat
  sourceId : Uuid
  source : Session
  target : Uuid
  session : Session
  claimer : Caller

def claimSource (link : Link) (caller : Option Uuid) : Option Uuid :=
  match link.mode with
  | .pull => caller
  | .push => link.source

/-- Equality in SQL, as far as a `CASE` looks at it. -/
def sqlEq (a b : Option Bind) : Bool := a.isSome && a == b

def grantedBind (link : Link) (source : Session) (callerBind provenBind : Option Bind) : Option Bind :=
  match link.mode with
  | .pull => if sqlEq provenBind source.chatBind then link.chatBind else none
  | .push => if sqlEq link.chatBind source.chatBind then callerBind else none

def updateLink (db : Db) (id : Uuid) (change : Link → Link) : Db :=
  { db with links := db.links.map fun link => if link.id = id then change link else link }

/-- `auth_link_claim`, with what it grants. -/
def authLinkClaim (db : Db) (draw : Draw) (claimToken : String) (claimer : Caller) :
    Except SqlError (Db × Outcome × Option Grant) := do
  if tooLong claimer.bind || tooLong claimer.proof then .error bindTooLong
  match db.links.find? fun link => link.claimToken = claimToken && link.status = .pending with
  | none => return (db, .unknown, none)
  | some link =>
    if link.expiresAt < draw.now then
      return (updateLink db link.id fun row => { row with status := .failed "Expired" }, .expired link.mode, none)
    match claimSource link claimer.session with
    | none =>
      match link.mode with
      | .pull => return (db, .pullNeedsSource, none)
      | .push => return (db, .pushWithoutSource, none)
    | some sourceId =>
      match db.sessions sourceId with
      | none => return (db, .sourceMissing link.mode, none)
      | some source =>
        if source.connection.isNone then return (db, .reauthorize link.mode, none)
        let session : Session := ⟨source.connection, grantedBind link source claimer.bind claimer.proof⟩
        if (db.sessions draw.id).isSome then .error .uniqueViolation
        let claimed := updateLink { db with sessions := Function.update db.sessions draw.id (some session) } link.id
          fun row => { row with source := some sourceId, target := some draw.id, status := .claimed }
        return (claimed, .claimed draw.id link.mode, some ⟨link, draw.now, sourceId, source, draw.id, session, claimer⟩)

/-! ## The service -/

inductive Answer where
  | created (id : Uuid) (claimToken : String) (expiresAt : Nat)
  | claimed (session : Uuid) (mode : Mode)
  | refused (error : AppError)

def validateMode (mode : String) (source : Option Uuid) : Except AppError Mode :=
  match mode, source with
  | "push", some _ => .ok .push
  | "pull", none => .ok .pull
  | "push", none => .error (.badRequest "push mode requires source session")
  | "pull", some _ => .error (.badRequest "pull mode must not have source session at creation")
  | _, _ => .error (.badRequest "mode must be 'pull' or 'push'")

def claimError : Outcome → AppError
  | .unknown => .notFound "Invalid or already used link token"
  | .expired _ => .badRequest "Link token expired"
  | .pullNeedsSource => .unauthorized "pull claim requires source session"
  | .pushWithoutSource => .badRequest "push link has no source session"
  | .sourceMissing _ => .unauthorized "Source session not found"
  | .reauthorize _ => .soundcloudReauthorizationRequired
  | .claimed _ _ => .badRequest "Unknown link mode"

/-- `source_proof`: the bind of the session if the caller owns it. -/
def sourceProof (db : Db) (caller : Caller) : Option Bind :=
  (((caller.session.bind db.sessions).bind Session.chatBind)).filter caller.owns

inductive Request where
  | create (mode : Mode)
  | claim (claimToken : String)

inductive Stage where
  | check
  | prove
  | perform

structure Call where
  request : Request
  caller : Caller
  stage : Stage

/-- Where a call goes on once its source session was found: a pull presents its bind, all others prove it. -/
def stageAfterCheck (request : Request) (caller : Caller) : Stage :=
  match request, caller.bind with
  | _, none => .perform
  | .create .pull, some _ => .perform
  | _, some _ => .prove

/-- The `chat_bind` that `create_bound` passes on. -/
def presentedBind (mode : Mode) (caller : Caller) : Option Bind :=
  match mode, caller.bind with
  | _, none => none
  | .pull, some bind => some bind
  | .push, some _ => caller.proof

structure World where
  db : Db
  calls : List Call
  answers : List Answer
  grants : List Grant

def start (sessions : Uuid → Option Session) : World := ⟨⟨sessions, []⟩, [], [], []⟩

inductive Action where
  | createBound (mode : String) (source : Option Uuid) (bind : Option Bind) (owns : Bind → Bool)
  | claimBound (claimToken : String) (session : Option Uuid) (bind : Option Bind) (owns : Bind → Bool)
  | check (call : Nat)
  | prove (call : Nat)
  | perform (call : Nat) (draw : Draw)
  | setSession (id : Uuid) (session : Option Session)

def World.answer (w : World) (answer : Answer) : World := { w with answers := w.answers ++ [answer] }

def World.finish (w : World) (k : Nat) (answer : Answer) : World := { w with calls := w.calls.eraseIdx k }.answer answer

def checkSource (w : World) (k : Nat) (call : Call) : World :=
  match call.caller.session.bind w.db.sessions with
  | none => w.finish k (.refused (.unauthorized "Source session not found"))
  | some session =>
    if session.connection.isNone then w.finish k (.refused .soundcloudReauthorizationRequired)
    else { w with calls := w.calls.set k { call with stage := stageAfterCheck call.request call.caller } }

def proveSource (w : World) (k : Nat) (call : Call) : World :=
  let caller := { call.caller with proof := sourceProof w.db call.caller }
  { w with calls := w.calls.set k { call with caller, stage := .perform } }

def performCreate (w : World) (k : Nat) (draw : Draw) (mode : Mode) (caller : Caller) : World :=
  match authLinkCreate w.db draw mode caller.session (presentedBind mode caller) caller with
  | .error error => w.finish k (.refused (.database error))
  | .ok none => w.finish k (.refused (.unauthorized "Source session not found"))
  | .ok (some (db, link)) => { w with db }.finish k (.created link.id link.claimToken link.expiresAt)

def performClaim (w : World) (k : Nat) (draw : Draw) (claimToken : String) (caller : Caller) : World :=
  match authLinkClaim w.db draw claimToken caller with
  | .error error => w.finish k (.refused (.database error))
  | .ok (db, outcome, grant) =>
    let w := { w with db, grants := w.grants ++ grant.toList }
    match outcome with
    | .claimed session mode => w.finish k (.claimed session mode)
    | outcome => w.finish k (.refused (claimError outcome))

def step (w : World) : Action → Option World
  | .createBound mode source bind owns =>
    match validateMode mode source with
    | .error error => some (w.answer (.refused error))
    | .ok mode =>
      let caller : Caller := ⟨source, bind, owns, none⟩
      let stage := if source.isSome then .check else stageAfterCheck (.create mode) caller
      some { w with calls := w.calls ++ [⟨.create mode, caller, stage⟩] }
  | .claimBound claimToken session bind owns =>
    let caller : Caller := ⟨session, bind, owns, none⟩
    some { w with calls := w.calls ++ [⟨.claim claimToken, caller, stageAfterCheck (.claim claimToken) caller⟩] }
  | .check k =>
    match w.calls[k]? with
    | some ⟨request, caller, .check⟩ => some (checkSource w k ⟨request, caller, .check⟩)
    | _ => none
  | .prove k =>
    match w.calls[k]? with
    | some ⟨request, caller, .prove⟩ => some (proveSource w k ⟨request, caller, .prove⟩)
    | _ => none
  | .perform k draw =>
    match w.calls[k]? with
    | some ⟨.create mode, caller, .perform⟩ => some (performCreate w k draw mode caller)
    | some ⟨.claim claimToken, caller, .perform⟩ => some (performClaim w k draw claimToken caller)
    | _ => none
  | .setSession id session => some { w with db := { w.db with sessions := Function.update w.db.sessions id session } }

end SC.Impl.Auth.Linking
