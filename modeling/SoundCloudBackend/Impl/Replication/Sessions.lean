import SoundCloudBackend.Impl.Replication.Tombstones

/-!
# Replication of `sessions`

`sessions` has two versioned groups of columns: `bind_v` stamps `chat_bind`,
`row_v` the rest. A delete wins over every row image, older or newer: a
tombstone of any version keeps the row out. The functions follow
`ops/replication/generated/triggers.sql`: `zz_ver` and `zz_tomb` act on local
statements, `zz_merge`, `zz_tomb_check` and `zzz_suppress` on replicated rows,
`zz_erase` on replicated tombstones. The trigger `zz_orphan` only counts rows
without a parent and is left out.
-/

namespace SC.Impl.Replication

open Function

/-- The replicated columns of `sessions` other than the key `id`. -/
structure Session where
  chatBind : Option (List UInt8)
  bindV : Int
  createdAt : Int
  soundcloudConnectionId : Option Uuid
  updatedAt : Int
  rowV : Int
  deriving DecidableEq

/-- What the triggers of `sessions` read and write on a node. -/
structure SessionNode where
  node : Node
  role : Role
  rows : Uuid → Option Session
  tombs : List (Tombstone Uuid)

namespace SessionNode

/-- `scd_ver_sessions` for an UPDATE of `old` to `new`; the wall clock is read once for each stamp. -/
def scdVerUpdate (node : Node) (clockBind clockRow : Int) (old new : Session) : Session :=
  { new with
    bindV :=
      if new.chatBind ≠ old.chatBind then scdHlc clockBind node (some (max old.bindV new.bindV))
      else max old.bindV new.bindV
    rowV :=
      if (new.createdAt, new.soundcloudConnectionId, new.updatedAt)
          ≠ (old.createdAt, old.soundcloudConnectionId, old.updatedAt) then
        scdHlc clockRow node (some (max old.rowV new.rowV))
      else max old.rowV new.rowV }

/-- `scd_merge_sessions` for an UPDATE of `old` to `new`: the row it returns. -/
def scdMergeUpdate (role : Role) (old new : Session) : Session :=
  let new :=
    if new.bindV < old.bindV ∨ (role = .core ∧ new.bindV = old.bindV) then
      { new with chatBind := old.chatBind, bindV := old.bindV }
    else new
  if new.rowV < old.rowV ∨ (role = .core ∧ new.rowV = old.rowV) then
    { new with
      createdAt := old.createdAt
      soundcloudConnectionId := old.soundcloudConnectionId
      updatedAt := old.updatedAt
      rowV := old.rowV }
  else new

/-- Whether a replicated image was stamped elsewhere or is the stored version: only then may it
lower `created_at`. -/
def mayLower (node : Node) (o new : Session) : Prop :=
  new.rowV % 16 ≠ scdNodeOrd node ∨ new.rowV = o.rowV

instance (node : Node) (o new : Session) : Decidable (mayLower node o new) :=
  inferInstanceAs (Decidable (_ ∨ _))

/-- The row that `scd_merge_sessions` writes over `o` for a replicated image `new`. -/
def scdMergeInto (node : Node) (o new : Session) : Session where
  chatBind := if new.bindV > o.bindV then new.chatBind else o.chatBind
  bindV := max o.bindV new.bindV
  createdAt :=
    if mayLower node o new then min o.createdAt new.createdAt
    else if new.rowV > o.rowV then new.createdAt else o.createdAt
  soundcloudConnectionId :=
    if new.rowV > o.rowV then new.soundcloudConnectionId else o.soundcloudConnectionId
  updatedAt := if new.rowV > o.rowV then new.updatedAt else o.updatedAt
  rowV := max o.rowV new.rowV

/-- `INSERT INTO sessions … ON CONFLICT DO NOTHING` under `scd.merging`, with its `ROW_COUNT`:
`zz_tomb_check` still acts. -/
def insertMerging (s : SessionNode) (id : Uuid) (new : Session) : SessionNode × Nat :=
  match newestTomb s.tombs id with
  | some _ => (s, 0)
  | none =>
    match s.rows id with
    | some _ => (s, 0)
    | none => ({ s with rows := update s.rows id (some new) }, 1)

/-- `UPDATE sessions … WHERE t.id = o.id` under `scd.merging`, with its `ROW_COUNT`:
`zzz_suppress` skips an update that changes nothing. -/
def updateMerging (s : SessionNode) (id : Uuid) (new : Session) : SessionNode × Nat :=
  match s.rows id with
  | none => (s, 0)
  | some o => if o = new then (s, 0) else ({ s with rows := update s.rows id (some new) }, 1)

/-- `scd_merge_sessions` for an INSERT: the loop `FOR attempt IN 1..n`. -/
def scdMergeInsert : Nat → SessionNode → Uuid → Session → Except String SessionNode
  | 0, _, _, _ => .error "scd: insert into public.sessions still conflicts after 3 attempts"
  | n + 1, s, id, new =>
    match s.rows id with
    | some o =>
      if new.bindV > o.bindV ∨ new.rowV > o.rowV ∨
          (mayLower s.node o new ∧ new.createdAt < o.createdAt) then
        match s.updateMerging id (scdMergeInto s.node o new) with
        | (s', 0) => scdMergeInsert n s' id new
        | (s', _) => .ok s'
      else .ok s
    | none =>
      match newestTomb s.tombs id with
      | some _ => .ok s
      | none =>
        match s.insertMerging id new with
        | (s', 0) => scdMergeInsert n s' id new
        | (s', _) => .ok s'

/-- `scd_erase_sessions(k, upto)`: it does not look at the version. -/
def scdErase (s : SessionNode) (id : Uuid) (_upto : Int) : SessionNode :=
  { s with rows := update s.rows id none }

/-- `scd_erase_repl_tombstones`: a replicated tombstone is stored, then erases the row. -/
def scdEraseReplTombstones (s : SessionNode) (t : Tombstone Uuid) : SessionNode :=
  scdErase { s with tombs := insertTombstone s.tombs t } t.pk t.v

/-- `scd_tomb_sessions` on a local delete of an existing row: the tombstone is stamped by
`scd_ver_repl_tombstones`, then the row goes. -/
def scdTomb (s : SessionNode) (id : Uuid) (old : Session) (clock now : Int) : SessionNode :=
  { s with
    tombs := s.tombs ++ [⟨id, scdVerReplTombstones clock s.node s.tombs id old.rowV, now⟩]
    rows := update s.rows id none }

/-- What happens to `sessions` on a node: local statements, and changes that the apply worker
delivers. -/
inductive Act where
  | localUpdate (id : Uuid) (new : Session) (clockBind clockRow : Int)
  | localDelete (id : Uuid) (clock now : Int)
  | insert (id : Uuid) (new : Session)
  | update (id : Uuid) (new : Session)
  | delete (id : Uuid)
  | tombstone (t : Tombstone Uuid)
  deriving DecidableEq

/-- One local statement or one replicated change. An update or a delete without a row does nothing. -/
def apply (s : SessionNode) : Act → Except String SessionNode
  | .localUpdate id new clockBind clockRow =>
    match s.rows id with
    | none => .ok s
    | some old =>
      .ok { s with rows := update s.rows id (some (scdVerUpdate s.node clockBind clockRow old new)) }
  | .localDelete id clock now =>
    match s.rows id with
    | none => .ok s
    | some old => .ok (scdTomb s id old clock now)
  | .insert id new => scdMergeInsert 3 s id new
  | .update id new =>
    match s.rows id with
    | none => .ok s
    | some old => .ok { s with rows := update s.rows id (some (scdMergeUpdate s.role old new)) }
  | .delete id => .ok { s with rows := update s.rows id none }
  | .tombstone t => .ok (scdEraseReplTombstones s t)

def applyAll (s : SessionNode) (as : List Act) : Except String SessionNode :=
  as.foldlM apply s

end SessionNode

end SC.Impl.Replication
