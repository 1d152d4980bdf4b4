import SoundCloudBackend.Framework.Run
import SoundCloudBackend.Impl.Replication.Tombstones

/-!
# Replication of `user_likes_tracks`

One key of a table that both sides write: the api owns the intent columns
(`wanted_state`, `created_at`, `wanted_v`) and core the result columns. Core
purges an intent it has served with `scd_purge_intent`, which leaves a receipt
in `repl_purges` and deletes the row. The triggers are those of
`ops/replication/generated/triggers.sql`.

Core's subscription takes only what the api wrote itself (`origin = none`);
the api's takes everything (`origin = any`), so the api gets its own rows back
as core merged them. Each direction is a queue in commit order. A statement
that the apply runs itself (`scd.merging = 'on'`) passes `zz_merge`, and an
UPDATE or DELETE of a row that is not there does nothing.
-/

namespace SC.Impl.Replication.LikesTracks

/-- The columns of `user_likes_tracks` that the api writes and publishes. -/
structure Intent where
  createdAt : Int
  wantedState : Bool
  wantedV : Int
  deriving DecidableEq

/-- The columns of `user_likes_tracks` that core writes. -/
structure Results where
  progress : Bool
  syncedAt : Option Int
  likedAt : Option Int
  syncedForV : Int
  deriving DecidableEq

structure Row extends Intent, Results
  deriving DecidableEq

def Results.defaults : Results :=
  { progress := false, syncedAt := none, likedAt := none, syncedForV := 0 }

/-- The row that an image of the intent columns alone inserts. -/
def Row.ofIntent (i : Intent) : Row :=
  { toIntent := i, toResults := Results.defaults }

/-- What one node stores for the key: its row, the `purged_v` of its receipts in `repl_purges`,
and whether the key is in `repl_resend`. -/
structure Store where
  row : Option Row
  purges : List Int
  resend : Bool
  deriving DecidableEq

def Store.empty : Store :=
  { row := none, purges := [], resend := false }

/-- `greatest(v, (SELECT max(x.purged_v) FROM repl_purges x …))`: the maximum of an empty table is
NULL, which `greatest` ignores. -/
def greatestPurged (purges : List Int) (v : Int) : Int :=
  purges.max?.elim v (max v)

/-- `pv IS NOT NULL AND NEW.wanted_v <= pv`. -/
def purged (purges : List Int) (v : Int) : Bool :=
  purges.max?.any fun pv => v ≤ pv

/-! ## The triggers of local writes -/

/-- `scd_ver_user_likes_tracks` for an INSERT on the api. -/
def scdVerInsert (node : Node) (clock : Int) (purges : List Int) (new : Row) : Row :=
  { new with wantedV := scdHlc clock node (some (greatestPurged purges new.wantedV)) }

def scdVerUpdate (node : Node) (clock : Int) (purges : List Int) (old new : Row) : Row :=
  if (new.wantedState, new.createdAt) ≠ (old.wantedState, old.createdAt) then
    { new with wantedV := scdHlc clock node (some (greatestPurged purges (max old.wantedV new.wantedV))) }
  else
    { new with wantedV := max old.wantedV new.wantedV }

/-! ## The triggers of replicated writes -/

/-- What a replicated statement did to the row. -/
inductive Write where
  | nothing
  | inserted (new : Row)
  | updated (new : Row)
  deriving DecidableEq

/-- An UPDATE of `old` to `new` after the other triggers: `zzz_suppress` skips it if it changes
nothing. -/
def zzzSuppress (old new : Row) : Write :=
  if new = old then .nothing else .updated new

/-- `scd_merge_user_likes_tracks` for an UPDATE; `none` is `RETURN NULL`. -/
def scdMergeUpdate (role : Role) (purges : List Int) (old new : Row) : Option Row :=
  if purged purges new.wantedV then
    none
  else
    let new := if new.wantedV < old.wantedV ∨ (role = .core ∧ new.wantedV = old.wantedV) then
        { new with toIntent := old.toIntent }
      else new
    some (if role = .core then { new with toResults := old.toResults } else new)

/-- The apply of a replicated UPDATE, which skips a row that is not there. -/
def applyUpdate (role : Role) (purges : List Int) (row : Option Row) (image : Row → Row) : Write :=
  match row with
  | none => .nothing
  | some old => (scdMergeUpdate role purges old (image old)).elim .nothing (zzzSuppress old)

/-- The row that `scd_merge_user_likes_tracks` for an INSERT of `new` makes of the stored `o`, if
its test asks for an update. -/
def mergeRow (role : Role) (node : Node) (o new : Row) : Option Row :=
  let foreign := new.wantedV % 16 ≠ scdNodeOrd node ∨ new.wantedV = o.wantedV
  if new.wantedV > o.wantedV ∨ (foreign ∧ new.createdAt < o.createdAt) ∨
      (role ≠ .core ∧ new.toResults ≠ o.toResults) then
    some {
      wantedState := if new.wantedV > o.wantedV then new.wantedState else o.wantedState
      createdAt :=
        if foreign then min o.createdAt new.createdAt
        else if new.wantedV > o.wantedV then new.createdAt
        else o.createdAt
      wantedV := max o.wantedV new.wantedV
      toResults := if role = .core then o.toResults else new.toResults }
  else
    none

/-- `scd_merge_user_likes_tracks` for an INSERT that is not purged: the loop
`FOR attempt IN 1..n`. A count of 0 rows (here: an update that changes nothing) tries again. -/
def mergeAttempts (role : Role) (node : Node) (row : Option Row) (new : Row) : Nat → Except String Write
  | 0 => .error "scd: insert into public.user_likes_tracks still conflicts after 3 attempts"
  | n + 1 =>
    match row with
    | none => .ok (.inserted new)
    | some o =>
      match mergeRow role node o new with
      | none => .ok .nothing
      | some merged =>
        match zzzSuppress o merged with
        | .nothing => mergeAttempts role node row new n
        | w => .ok w

def scdMergeInsert (role : Role) (node : Node) (purges : List Int) (row : Option Row) (new : Row) :
    Except String Write :=
  if purged purges new.wantedV then .ok .nothing else mergeAttempts role node row new 3

def Write.result (row : Option Row) : Write → Option Row
  | .nothing => row
  | .inserted new => some new
  | .updated new => some new

/-- `scd_purge_guard_user_likes_tracks` on a replicated DELETE at the api: a row above every receipt
stays and is queued to be sent again. -/
def scdPurgeGuard (s : Store) : Store :=
  match s.row with
  | none => s
  | some old => if old.wantedV > s.purges.max?.getD 0 then { s with resend := true } else { s with row := none }

/-! ## The two nodes and what they send each other -/

inductive FromApi where
  | insert (i : Intent)
  | update (i : Intent)
  | repair (row : Row)
  deriving DecidableEq

inductive FromCore where
  | insert (row : Row)
  | update (row : Row)
  | delete
  | receipt (purgedV : Int)
  | repair (row : Row)
  deriving DecidableEq

/-- The change that a statement on core publishes. -/
def Write.published : Write → List FromCore
  | .nothing => []
  | .inserted new => [.insert new]
  | .updated new => [.update new]

/-- The api node and core with the queues between them. `written` keeps the intents the api wrote,
the newest first. -/
structure State where
  api : Store
  core : Store
  toCore : List FromApi
  toApi : List FromCore
  written : List Intent
  deriving DecidableEq

def State.start : State :=
  { api := Store.empty, core := Store.empty, toCore := [], toApi := [], written := [] }

inductive ResultWrite where
  /-- `like_track.sql` (`wanted`) and `unlike_track.sql`. -/
  | synced (wanted : Bool) (now : Int)
  /-- `catalog_collection/liked_at.sql`. -/
  | likedAt (time : Int)
  deriving DecidableEq

/-- The updated row; `none` where the statement's WHERE leaves the row out. -/
def ResultWrite.update (o : Row) : ResultWrite → Option Row
  | .synced wanted now =>
    if o.wantedState = wanted then
      some { o with progress := false, syncedAt := some now, syncedForV := o.wantedV }
    else none
  | .likedAt t => if o.likedAt ≠ some t then some { o with likedAt := some t } else none

inductive Action where
  /-- `set_wanted` (`wanted`) or `clear_wanted` on the api. -/
  | tap (wanted : Bool) (now clock clock' : Int)
  | result (w : ResultWrite) (clock : Int)
  /-- `scd_purge_intent_user_likes_tracks(k, seen)` on core. -/
  | purge (seen : Int)
  | deliverToCore
  | deliverToApi
  /-- `scd_drain_resend_counts` on a node reaches the key. -/
  | drain (role : Role)
  deriving DecidableEq

namespace State

/-- The SET list of `set_wanted` and `clear_wanted` on a stored row. -/
def tapUpdate (node : Node) (wanted : Bool) (now clock : Int) (o : Row) : Row :=
  { o with
    wantedState := wanted
    createdAt := if wanted then if o.wantedState then o.createdAt else now else o.createdAt
    wantedV := scdHlc clock node (some o.wantedV) }

/-- `set_wanted` and `clear_wanted`: `INSERT … ON CONFLICT DO UPDATE` on the api. -/
def tap (node : Node) (s : State) (wanted : Bool) (now clock clock' : Int) : State :=
  match s.api.row with
  | none =>
    let new := scdVerInsert node clock s.api.purges
      (Row.ofIntent { createdAt := now, wantedState := wanted, wantedV := 0 })
    { s with
      api := { s.api with row := some new }
      toCore := s.toCore ++ [.insert new.toIntent]
      written := new.toIntent :: s.written }
  | some o =>
    let new := scdVerUpdate node clock' s.api.purges o (tapUpdate node wanted now clock o)
    { s with
      api := { s.api with row := some new }
      toCore := s.toCore ++ [.update new.toIntent]
      written := new.toIntent :: s.written }

def result (s : State) (w : ResultWrite) (clock : Int) : State :=
  match s.core.row with
  | none => s
  | some o =>
    match w.update o with
    | none => s
    | some new =>
      let new := scdVerUpdate .core clock s.core.purges o new
      { s with core := { s.core with row := some new }, toApi := s.toApi ++ [.update new] }

def purge (s : State) (seen : Int) : State :=
  match s.core.row with
  | none => s
  | some o =>
    if o.wantedV ≠ seen then s
    else
      { s with
        core := { s.core with row := none, purges := o.wantedV :: s.core.purges }
        toApi := s.toApi ++ [.receipt o.wantedV, .delete] }

/-- What a replicated statement did on core, and its echo to the api. -/
def onCore (s : State) (w : Write) : State :=
  { s with core := { s.core with row := w.result s.core.row }, toApi := s.toApi ++ w.published }

def onApi (s : State) (w : Write) : State :=
  { s with api := { s.api with row := w.result s.api.row } }

/-- Core applies a change of the api. A repaired row passes `scd_on_repl_repair`, which keeps the
columns the api publishes, and `scd_apply_row` inserts it. -/
def applyOnCore (s : State) : FromApi → Except String State
  | .insert i => s.onCore <$> scdMergeInsert .core .core s.core.purges s.core.row (Row.ofIntent i)
  | .update i => .ok (s.onCore (applyUpdate .core s.core.purges s.core.row fun o => { o with toIntent := i }))
  | .repair r => s.onCore <$> scdMergeInsert .core .core s.core.purges s.core.row (Row.ofIntent r.toIntent)

def applyOnApi (node : Node) (s : State) : FromCore → Except String State
  | .insert r => s.onApi <$> scdMergeInsert .api node s.api.purges s.api.row r
  | .update r => .ok (s.onApi (applyUpdate .api s.api.purges s.api.row fun _ => r))
  | .delete => .ok { s with api := scdPurgeGuard s.api }
  | .receipt v => .ok { s with api := { s.api with purges := v :: s.api.purges } }
  | .repair r => s.onApi <$> scdMergeInsert .api node s.api.purges s.api.row r

/-- `scd_drain_resend_counts` for the key, on either node. -/
def drain (s : State) : Role → State
  | .api =>
    if s.api.resend then
      { s with
        api := { s.api with resend := false }
        toCore := s.toCore ++ s.api.row.toList.map .repair }
    else s
  | .core =>
    if s.core.resend then
      { s with
        core := { s.core with resend := false }
        toApi := s.toApi ++ s.core.row.toList.map .repair }
    else s

/-- A step of the system. A delivery needs a change in the queue; one whose apply fails stays. -/
def step (node : Node) (s : State) : Action → Option State
  | .tap wanted now clock clock' => some (s.tap node wanted now clock clock')
  | .result w clock => some (s.result w clock)
  | .purge seen => some (s.purge seen)
  | .deliverToCore =>
    match s.toCore with
    | [] => none
    | m :: rest => ({ s with toCore := rest }.applyOnCore m).toOption
  | .deliverToApi =>
    match s.toApi with
    | [] => none
    | m :: rest => ({ s with toApi := rest }.applyOnApi node m).toOption
  | .drain role => some (s.drain role)

def Quiet (s : State) : Prop :=
  s.toCore = [] ∧ s.toApi = [] ∧ s.api.resend = false ∧ s.core.resend = false

def Greatest (s : State) (v : Int) : Prop :=
  v ∈ s.written.map Intent.wantedV ∧ ∀ i ∈ s.written, i.wantedV ≤ v

end State

end SC.Impl.Replication.LikesTracks
