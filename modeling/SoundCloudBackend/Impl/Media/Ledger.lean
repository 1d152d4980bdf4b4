import SoundCloudBackend.Framework.Update
import SoundCloudBackend.Impl.Replication.Tombstones

/-!
# Media and their quota

The tables `chat.media`, `chat.usage`, `chat.media_refs` and `chat.media_holds`
(`0316_chat_media.sql`) with the statements of `api/queries/chat/media` and of the
sweeps (`media_*.sql`) that move media between statuses and adjust the counters of their
owners. A step is a transaction that is committed. Which of the due rows a batch takes
is given by its ids.

The function `greatest` of the statements is a parameter, so that its effect can be
talked about; it is `max`.
-/

namespace SC.Impl.Media

open Replication (Uuid)

/-! ## Tables -/

inductive Kind where
  | image | thumb | avatar | backdrop
  deriving DecidableEq

inductive Status where
  | reserved | uploaded | attached | held | deleting | lost
  deriving DecidableEq

def Status.stored : Status → Bool
  | .uploaded | .attached => true
  | .reserved | .held | .deleting | .lost => false

/-- A row of `chat.media`. -/
structure Row where
  id : Uuid
  store : Int
  objectKey : String
  ownerUser : String
  originConversation : Uuid
  kind : Kind
  parentId : Option Uuid
  uploadId : Option Uuid
  bytes : Int
  status : Status
  leaseUntil : Option Int
  restorableUntil : Option Int
  deleteAfter : Option Int
  deriving DecidableEq

structure Usage where
  bytes : Int
  reserved : Int
  files : Int
  dayBytes : Int
  day : Int
  deriving DecidableEq

structure Ref where
  mediaId : Uuid
  conversationId : Uuid
  seq : Int
  deriving DecidableEq

structure Hold where
  mediaId : Uuid
  reportId : Uuid
  until_ : Int
  deriving DecidableEq

structure Tables where
  media : List Row
  usage : String → Option Usage
  refs : List Ref
  holds : List Hold
  clock : Int

def Tables.start (clock : Int) : Tables := ⟨[], fun _ => none, [], [], clock⟩

def quotaBytes : Int := 1073741824

def dayBytesMax : Int := 209715200

/-- `RESERVATION_TTL`, in milliseconds as all times. -/
def reservationTtl : Int := 3600000

def attachWindow : Int := 3600000

def restoreWindow : Int := 15000

def holdDays : Int := 30

/-- `interval '5 minutes'` of `media_claim.sql`. -/
def claimLease : Int := 300000

/-! ## Moves of roots with their parts -/

/-- The root that a row is joined with: it is the root, or a part of it. -/
def rootOf (on : Row → Row → Bool) (roots : List Row) (media : Row) : Option Row :=
  roots.find? fun root => decide (media.id = root.id ∨ media.parentId = some root.id) && on media root

def sameStatus (media root : Row) : Bool := media.status = root.status

def sumOf (q : Row → Bool) (moved : List (Row × Row)) : Int :=
  ((moved.filter fun r => q r.2).map fun r => r.1.bytes).sum

/-- `count(DISTINCT root)` of the moved rows whose root is selected. -/
def rootsOf (q : Row → Bool) (moved : List (Row × Row)) : Int :=
  ((moved.filter fun r => q r.2).map fun r => r.2.id).dedup.length

namespace Usage

def release (greatest : Int → Int → Int) (bytes reserved files : Int) (u : Usage) : Usage :=
  { u with
    bytes := greatest (u.bytes - bytes) 0
    reserved := greatest (u.reserved - reserved) 0
    files := greatest (u.files - files) 0 }

def releaseStored (greatest : Int → Int → Int) (bytes files : Int) (u : Usage) : Usage :=
  { u with bytes := greatest (u.bytes - bytes) 0, files := greatest (u.files - files) 0 }

end Usage

namespace Tables

def charge (t : Tables) (user : String) (f : Usage → Usage) : String → Option Usage :=
  Function.update t.usage user ((t.usage user).map f)

/-- The counters of each owner of a selected root are updated, if there are any. -/
def chargeOwners (t : Tables) (q : Row → Bool) (moved : List (Row × Row)) (f : String → Usage → Usage) :
    String → Option Usage :=
  fun user => if moved.any fun r => q r.2 && decide (r.2.ownerUser = user) then (t.usage user).map (f user) else t.usage user

def referenced (t : Tables) (id : Uuid) : Bool := t.refs.any fun ref => ref.mediaId = id

def onHold (t : Tables) (id : Uuid) : Bool := t.holds.any fun hold => hold.mediaId = id ∧ hold.until_ > t.clock

end Tables

/-! ## Reservations -/

structure Reserve where
  user : String
  id : Uuid
  store : Int
  key : String
  conversation : Uuid
  kind : Kind
  uploadId : Uuid
  bytes : Int
  thumb : Option (Uuid × String × Int)
  root : kind ≠ .thumb
  deriving DecidableEq

namespace Reserve

def total (r : Reserve) : Int := r.bytes + r.thumb.elim 0 fun thumb => thumb.2.2

def rows (r : Reserve) (now : Int) : List Row :=
  let root : Row := ⟨r.id, r.store, r.key, r.user, r.conversation, r.kind, none, some r.uploadId, r.bytes, .reserved,
    none, none, some (now + reservationTtl)⟩
  root :: (r.thumb.map fun thumb => ⟨thumb.1, r.store, thumb.2.1, r.user, r.conversation, .thumb, some r.id, none,
    thumb.2.2, .reserved, none, none, some (now + reservationTtl)⟩).toList

end Reserve

/-- The constraints of `chat.media`: the primary key, the unique object and the check of the bytes. -/
def constraints (media : List Row) : Bool :=
  decide (media.map Row.id).Nodup && decide (media.map fun row => (row.store, row.objectKey)).Nodup &&
    media.all fun row => decide (row.bytes > 0)

def reserveQuota (usage : Option Usage) (bytes today : Int) : Option Usage :=
  match usage with
  | none => if bytes ≤ quotaBytes ∧ bytes ≤ dayBytesMax then some ⟨0, bytes, 0, bytes, today⟩ else none
  | some u =>
    let dayBytes := if u.day = today then u.dayBytes else 0
    if bytes ≤ quotaBytes ∧ bytes ≤ dayBytesMax ∧ u.bytes + u.reserved + bytes ≤ quotaBytes ∧
        dayBytes + bytes ≤ dayBytesMax then
      some { u with reserved := u.reserved + bytes, dayBytes := dayBytes + bytes, day := today }
    else none

/-- The transaction of `reserve_rows`. -/
def reserve (t : Tables) (r : Reserve) (today : Int) : Option Tables :=
  let media := t.media ++ r.rows t.clock
  if t.media.any fun row => row.ownerUser = r.user ∧ row.uploadId = some r.uploadId ∧ row.status = .reserved ∧
      row.kind ≠ .thumb then none
  else if constraints media then
    (reserveQuota (t.usage r.user) r.total today).map fun u =>
      { t with media := media, usage := Function.update t.usage r.user (some u) }
  else none

/-- `reserve_refresh.sql`. -/
def refresh (t : Tables) (id : Uuid) : Tables :=
  { t with
    media := t.media.map fun row =>
      if (row.id = id ∨ row.parentId = some id) ∧ row.status = .reserved then
        { row with deleteAfter := some (t.clock + reservationTtl) }
      else row }

/-! ## Commits and references -/

/-- The root of `commit_flip.sql`, which `commit_row.sql` has found. -/
def commitRoots (t : Tables) (id : Uuid) : List Row :=
  t.media.filter fun root =>
    root.id = id ∧ root.kind ≠ .thumb ∧ root.status = .reserved ∧ root.deleteAfter.any (· > t.clock)

/-- `commit_flip.sql`. A part needs a key, and both keys must be new. -/
def commitFlip (greatest : Int → Int → Int) (t : Tables) (user : String) (id : Uuid) (rootKey : String)
    (thumbKey : Option String) : Option Tables :=
  let join := rootOf (fun media _ => media.ownerUser = user ∧ media.status = .reserved) (commitRoots t id)
  let moved := joinedRows join t.media
  let media := updateFrom join (fun _ row =>
    { row with
      status := .uploaded
      objectKey := if row.id = id then rootKey else thumbKey.getD row.objectKey
      deleteAfter := some (t.clock + attachWindow) }) t.media
  let files : Int := (moved.filter fun r => r.1.id = id).length
  let bytes := sumOf (fun _ => true) moved
  if (moved.any fun r => r.1.id ≠ id) ∧ thumbKey = none then none
  else if constraints media then
    some { t with
      media := media
      usage :=
        if files > 0 then
          t.charge user fun u =>
            { u with reserved := greatest (u.reserved - bytes) 0, bytes := u.bytes + bytes, files := u.files + files }
        else t.usage }
  else none

/-- `lock_usable` with `attach_refs.sql` and `attach_flip.sql`. -/
def attach (t : Tables) (kind : Kind) (ids : List Uuid) (conversation : Uuid) (seq : Int) : Option Tables :=
  let locked := t.media.filter fun row => row.id ∈ ids ∧ row.kind ≠ .thumb
  let usable := (locked.filter fun row => row.kind = kind ∧ row.status.stored).map Row.id
  if ids.all (· ∈ usable) then
    some { t with
      refs := t.refs ++ (ids.map fun id => ⟨id, conversation, seq⟩).filter (· ∉ t.refs)
      media := t.media.map fun row =>
        if (row.id ∈ ids ∨ row.parentId.any (· ∈ ids)) ∧ row.status = .uploaded then
          { row with status := .attached, deleteAfter := none }
        else row }
  else none

/-! ## Deletes and restores -/

def deleteRoots (t : Tables) (user : String) (ids : List Uuid) : List Row :=
  t.media.filter fun root =>
    root.id ∈ ids ∧ root.ownerUser = user ∧ root.kind ≠ .thumb ∧
      root.status ∈ [.reserved, .uploaded, .attached, .lost]

def deleteRows (greatest : Int → Int → Int) (t : Tables) (user : String) (ids : List Uuid) : Tables :=
  let join := rootOf sameStatus (deleteRoots t user ids)
  let moved := joinedRows join t.media
  { t with
    media := updateFrom join (fun root row =>
      { row with
        status := .deleting
        restorableUntil := if root.status.stored then some (t.clock + restoreWindow) else none
        leaseUntil := none
        deleteAfter := none }) t.media
    usage :=
      if rootsOf (fun _ => true) moved > 0 then
        t.charge user (Usage.release greatest (sumOf (·.status.stored) moved) (sumOf (·.status = .reserved) moved)
          (rootsOf (·.status.stored) moved))
      else t.usage }

def restorable (t : Tables) (row : Row) : Bool :=
  row.status = .deleting ∧ row.restorableUntil.any (· > t.clock)

def restoreRoots (t : Tables) (user : String) (ids : List Uuid) : List Row :=
  t.media.filter fun root =>
    root.id ∈ ids ∧ root.ownerUser = user ∧ root.kind ≠ .thumb ∧ restorable t root ∧ root.leaseUntil = none ∧
      t.media.all fun part => part.parentId = some root.id → restorable t part ∧ part.leaseUntil = none

/-- `restore_rows.sql`; a restore without files or over the quota is rolled back. -/
def restoreRows (t : Tables) (user : String) (ids : List Uuid) : Option Tables :=
  let roots := restoreRoots t user ids
  let join := rootOf (fun media _ => restorable t media) roots
  let bytes := sumOf (fun _ => true) (joinedRows join t.media)
  match t.usage user with
  | none => none
  | some u =>
    if roots ≠ [] ∧ u.bytes + u.reserved + bytes ≤ quotaBytes then
      some { t with
        media := updateFrom join (fun root row =>
          { row with
            status := if t.referenced root.id then .attached else .uploaded
            deleteAfter := if t.referenced root.id then none else some (t.clock + attachWindow)
            restorableUntil := none }) t.media
        usage := t.charge user fun u => { u with bytes := u.bytes + bytes, files := u.files + roots.length } }
    else none

/-- Where `settle.sql` moves a root. -/
def settled (t : Tables) (root : Row) : Status :=
  if root.status ∈ [.attached, .held] ∧ t.onHold root.id then .held else .deleting

def settleRoots (t : Tables) (ids : List Uuid) : List Row :=
  t.media.filter fun root =>
    root.id ∈ ids ∧ root.kind ≠ .thumb ∧ root.status ∈ [.attached, .held, .lost] ∧ t.referenced root.id = false

def settle (greatest : Int → Int → Int) (t : Tables) (ids : List Uuid) : Tables :=
  let join := rootOf (fun media root => sameStatus media root && decide (settled t root ≠ root.status))
    (settleRoots t ids)
  let moved := joinedRows join t.media
  { t with
    media := updateFrom join (fun root row =>
      { row with status := settled t root, leaseUntil := none, deleteAfter := none }) t.media
    usage := t.chargeOwners (·.status = .attached) moved fun user =>
      Usage.releaseStored greatest (sumOf (fun root => root.ownerUser = user ∧ root.status = .attached) moved)
        (rootsOf (fun root => root.ownerUser = user ∧ root.status = .attached) moved) }

/-- References are deleted and their media settled, as by `drop_for_messages`. -/
def dropRefs (greatest : Int → Int → Int) (t : Tables) (refs : List Ref) : Tables :=
  settle greatest { t with refs := t.refs.filter (· ∉ refs) } ((t.refs.filter (· ∈ refs)).map Ref.mediaId)

/-- The media that `hold.sql` holds. -/
def holdLive (t : Tables) (ids : List Uuid) : List Row :=
  t.media.filter fun root =>
    root.id ∈ ids ∧ root.kind ≠ .thumb ∧
      (root.status ∈ [.uploaded, .attached, .held] ∨ (root.status = .deleting ∧ root.leaseUntil = none))

/-- `hold.sql` takes the media back from its deletion. -/
def holdKeeps (t : Tables) (media root : Row) : Bool :=
  root.status = .deleting ∧ root.restorableUntil.all (· ≤ t.clock) ∧ media.status = .deleting ∧
    t.referenced root.id = false

def hold (t : Tables) (ids : List Uuid) (report : Uuid) : Tables :=
  let live := holdLive t ids
  let until_ := t.clock + holdDays * 86400000
  { t with
    holds :=
      (t.holds.map fun hold =>
        if hold.reportId = report ∧ hold.mediaId ∈ live.map Row.id then { hold with until_ := max hold.until_ until_ }
        else hold) ++
      ((live.filter fun root => t.holds.all fun hold => ¬ (hold.reportId = report ∧ hold.mediaId = root.id)).map
        fun root => ⟨root.id, report, until_⟩)
    media := updateFrom (rootOf (holdKeeps t) live) (fun _ row => { row with status := .held, restorableUntil := none }) t.media }

def releaseHolds (greatest : Int → Int → Int) (t : Tables) (report : Uuid) : Tables :=
  settle greatest { t with holds := t.holds.filter (·.reportId ≠ report) }
    ((t.holds.filter (·.reportId = report)).map Hold.mediaId)

/-! ## Sweeps -/

/-- The roots of `media_expire.sql` and `media_room_ended.sql`. -/
def giveUpRoots (t : Tables) (due : Row → Bool) : List Row :=
  t.media.filter fun root => due root ∧ root.status ∈ [.reserved, .uploaded] ∧ root.kind ≠ .thumb

/-- `media_expire.sql` and `media_room_ended.sql`: uploads that are not attached are given up. -/
def giveUp (greatest : Int → Int → Int) (t : Tables) (due : Row → Bool) : Tables :=
  let join := rootOf sameStatus (giveUpRoots t due)
  let moved := joinedRows join t.media
  { t with
    media := updateFrom join (fun _ row =>
      { row with status := .deleting, deleteAfter := none, leaseUntil := none, restorableUntil := none }) t.media
    usage := t.chargeOwners (fun _ => true) moved fun user =>
      Usage.release greatest (sumOf (fun root => root.ownerUser = user ∧ root.status = .uploaded) moved)
        (sumOf (fun root => root.ownerUser = user ∧ root.status = .reserved) moved)
        (rootsOf (fun root => root.ownerUser = user ∧ root.status = .uploaded) moved) }

def mediaExpire (greatest : Int → Int → Int) (t : Tables) (ids : List Uuid) : Tables :=
  giveUp greatest t fun root => root.id ∈ ids ∧ root.deleteAfter.any (· < t.clock)

def mediaRoomEnded (greatest : Int → Int → Int) (t : Tables) (ids : List Uuid) : Tables :=
  giveUp greatest t fun root => root.id ∈ ids

def lostRoots (t : Tables) (ids : List Uuid) (store : Int) : List Row :=
  t.media.filter fun root =>
    root.id ∈ ids ∧ root.store = store ∧ root.kind ≠ .thumb ∧ root.status ∈ [.attached, .uploaded]

def mediaMarkLost (greatest : Int → Int → Int) (t : Tables) (ids : List Uuid) (store : Int) : Tables :=
  let join := rootOf sameStatus (lostRoots t ids store)
  let moved := joinedRows join t.media
  { t with
    media := updateFrom join (fun _ row => { row with status := .lost, deleteAfter := none, leaseUntil := none }) t.media
    usage := t.chargeOwners (fun _ => true) moved fun user =>
      Usage.releaseStored greatest (sumOf (fun root => root.ownerUser = user) moved)
        (rootsOf (fun root => root.ownerUser = user) moved) }

/-- The left join of `media_recount.sql`: the roots of a user, each with its thumbs. -/
def rootsWithThumbs (t : Tables) (user : String) : List (Row × Option Row) :=
  (t.media.filter fun root => root.ownerUser = user ∧ root.kind ≠ .thumb).flatMap fun root =>
    match t.media.filter fun thumb => thumb.parentId = some root.id with
    | [] => [(root, none)]
    | thumbs => thumbs.map fun thumb => (root, some thumb)

def counted (t : Tables) (user : String) (u : Usage) : Usage :=
  let joined := rootsWithThumbs t user
  let sum (q : Row → Bool) : Int :=
    ((joined.filter fun r => q r.1).map fun r => r.1.bytes + r.2.elim 0 Row.bytes).sum
  { u with
    bytes := sum (·.status.stored)
    reserved := sum (·.status = .reserved)
    files := (joined.filter fun r => r.1.status.stored).length }

def mediaRecount (t : Tables) (users : List String) : Tables :=
  { t with usage := fun user => if user ∈ users then (t.usage user).map (counted t user) else t.usage user }

def claimPicked (t : Tables) (ids : List Uuid) : List Row :=
  t.media.filter fun root =>
    root.id ∈ ids ∧ root.status = .deleting ∧ root.kind ≠ .thumb ∧ root.leaseUntil.all (· ≤ t.clock) ∧
      root.restorableUntil.all (· ≤ t.clock) ∧ t.referenced root.id = false ∧ t.onHold root.id = false

/-- `media_claim.sql`, on those of the ids that it picks. -/
def mediaClaim (t : Tables) (ids : List Uuid) : Tables :=
  { t with
    media := updateFrom (rootOf (fun media _ => media.status = .deleting) (claimPicked t ids)) (fun _ row =>
      { row with leaseUntil := some (t.clock + claimLease), restorableUntil := none }) t.media }

/-- The roots of `media_withdrawn_due.sql` among the ids. -/
def withdrawnDue (t : Tables) (ids : List Uuid) : List Row :=
  t.media.filter fun root =>
    root.id ∈ ids ∧ root.status = .deleting ∧ root.kind ≠ .thumb ∧ root.restorableUntil.all (· ≤ t.clock) ∧
      (t.referenced root.id ∨ t.onHold root.id)

def mediaWithdrawn (t : Tables) (ids : List Uuid) : Tables :=
  { t with
    media := updateFrom
      (rootOf (fun media _ => media.status = .deleting ∧ media.restorableUntil.all (· ≤ t.clock)) (withdrawnDue t ids))
      (fun _ row =>
        { row with
          status := if t.onHold (row.parentId.getD row.id) then .held else .deleting
          restorableUntil := none
          leaseUntil := none }) t.media }

def mediaDropDone (t : Tables) (ids : List Uuid) : Tables :=
  { t with
    media := t.media.filter fun row =>
      ¬ (row.status = .deleting ∧ (row.id ∈ ids ∨ row.parentId.any (· ∈ ids))) }

/-! ## The system -/

inductive Action where
  | reserve (r : Reserve) (today : Int)
  | refresh (id : Uuid)
  | commitFlip (user : String) (id : Uuid) (rootKey : String) (thumbKey : Option String)
  | attach (kind : Kind) (ids : List Uuid) (conversation : Uuid) (seq : Int)
  | deleteRows (user : String) (ids : List Uuid)
  | restoreRows (user : String) (ids : List Uuid)
  | settle (ids : List Uuid)
  | dropRefs (refs : List Ref)
  | hold (ids : List Uuid) (report : Uuid)
  | releaseHolds (report : Uuid)
  | mediaExpire (ids : List Uuid)
  | mediaRoomEnded (ids : List Uuid)
  | mediaMarkLost (ids : List Uuid) (store : Int)
  | mediaRecount (users : List String)
  | mediaClaim (ids : List Uuid)
  | mediaWithdrawn (ids : List Uuid)
  | mediaDropDone (ids : List Uuid)
  | tick (ms : Nat)

/-- A transaction; `none` if it is rolled back. -/
def step (greatest : Int → Int → Int) (t : Tables) : Action → Option Tables
  | .reserve r today => reserve t r today
  | .refresh id => some (refresh t id)
  | .commitFlip user id rootKey thumbKey => commitFlip greatest t user id rootKey thumbKey
  | .attach kind ids conversation seq => attach t kind ids conversation seq
  | .deleteRows user ids => some (deleteRows greatest t user ids)
  | .restoreRows user ids => restoreRows t user ids
  | .settle ids => some (settle greatest t ids)
  | .dropRefs refs => some (dropRefs greatest t refs)
  | .hold ids report => some (hold t ids report)
  | .releaseHolds report => some (releaseHolds greatest t report)
  | .mediaExpire ids => some (mediaExpire greatest t ids)
  | .mediaRoomEnded ids => some (mediaRoomEnded greatest t ids)
  | .mediaMarkLost ids store => some (mediaMarkLost greatest t ids store)
  | .mediaRecount users => some (mediaRecount t users)
  | .mediaClaim ids => some (mediaClaim t ids)
  | .mediaWithdrawn ids => some (mediaWithdrawn t ids)
  | .mediaDropDone ids => some (mediaDropDone t ids)
  | .tick ms => some { t with clock := t.clock + ms }

end SC.Impl.Media
