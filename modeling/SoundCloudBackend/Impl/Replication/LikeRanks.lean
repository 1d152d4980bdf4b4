import SoundCloudBackend.Impl.Replication.Tombstones

/-!
# Replication of `user_like_ranks`

The replica triggers of a last-writer-wins table with tombstones, as
`ops/replication/generated/triggers.sql` has them for `user_like_ranks`: a
replicated row goes through `zz_merge` and `zz_tomb_check`, a replicated
delete through `zz_tomb_guard`, a replicated tombstone through `zz_erase`.

A statement that a trigger runs itself (`scd.merging = 'on'`) passes the merge
trigger, so the functions ending in `Merging` model only the triggers that
still act on it. The counter `scd_resend_user_like_ranks` is `resent`.
-/

namespace SC.Impl.Replication

open Function

structure LikeKey where
  userId : String
  scTrackId : String
  deriving DecidableEq

/-- The other replicated columns of `user_like_ranks`. -/
structure LikeRank where
  likeCreatedAt : Int
  rank : Int
  rowV : Int
  deriving DecidableEq

/-- A row of `repl_resend`: a row or a tombstone to send again. -/
inductive Resend where
  | row (pk : LikeKey)
  | tombstone (pk : LikeKey) (v : Int)
  deriving DecidableEq

/-- What the triggers of `user_like_ranks` read and write on a node. -/
structure LikeNode where
  role : Role
  rows : LikeKey → Option LikeRank
  tombs : List (Tombstone LikeKey)
  resend : List Resend
  resent : Nat

namespace LikeNode

/-- `INSERT INTO repl_resend … ON CONFLICT DO NOTHING` and the counter. -/
def queueResend (s : LikeNode) (r : Resend) : LikeNode :=
  { s with resend := if r ∈ s.resend then s.resend else s.resend ++ [r], resent := s.resent + 1 }

/-- `NEW.row_v <= tv` for the newest tombstone `tv` of the key, if there is one. -/
def buriedBy (s : LikeNode) (k : LikeKey) (rowV : Int) : Option Int :=
  (newestTomb s.tombs k).filter fun tv => rowV ≤ tv

/-- `INSERT INTO user_like_ranks … ON CONFLICT DO NOTHING` under `scd.merging`, with its
`ROW_COUNT`: `zz_tomb_check` still acts. -/
def insertMerging (s : LikeNode) (k : LikeKey) (new : LikeRank) : LikeNode × Nat :=
  match s.buriedBy k new.rowV with
  | some tv => (s.queueResend (.tombstone k tv), 0)
  | none =>
    match s.rows k with
    | some _ => (s, 0)
    | none => ({ s with rows := update s.rows k (some new) }, 1)

/-- `UPDATE user_like_ranks … WHERE` the key, under `scd.merging`, with its `ROW_COUNT`:
`zzz_suppress` skips an update that changes nothing. -/
def updateMerging (s : LikeNode) (k : LikeKey) (new : LikeRank) : LikeNode × Nat :=
  match s.rows k with
  | none => (s, 0)
  | some o => if o = new then (s, 0) else ({ s with rows := update s.rows k (some new) }, 1)

/-- `scd_merge_user_like_ranks` for an UPDATE of `old` to `new`: the row it returns. -/
def scdMergeUpdate (role : Role) (old new : LikeRank) : LikeRank :=
  if new.rowV < old.rowV ∨ (role = .core ∧ new.rowV = old.rowV) then old else new

/-- `scd_merge_user_like_ranks` for an INSERT: the loop `FOR attempt IN 1..n`. -/
def scdMergeInsert : Nat → LikeNode → LikeKey → LikeRank → Except String LikeNode
  | 0, _, _, _ => .error "scd: insert into public.user_like_ranks still conflicts after 3 attempts"
  | n + 1, s, k, new =>
    match s.rows k with
    | some o =>
      if new.rowV > o.rowV then
        match s.updateMerging k
            { likeCreatedAt := if new.rowV > o.rowV then new.likeCreatedAt else o.likeCreatedAt
              rank := if new.rowV > o.rowV then new.rank else o.rank
              rowV := max o.rowV new.rowV } with
        | (s', 0) => scdMergeInsert n s' k new
        | (s', _) => .ok s'
      else .ok s
    | none =>
      match s.buriedBy k new.rowV with
      | some tv => .ok (s.queueResend (.tombstone k tv))
      | none =>
        match s.insertMerging k new with
        | (s', 0) => scdMergeInsert n s' k new
        | (s', _) => .ok s'

def scdErase (s : LikeNode) (k : LikeKey) (upto : Int) : LikeNode :=
  match s.rows k with
  | none => s
  | some o =>
    if o.rowV ≤ upto then { s with rows := update s.rows k none }
    else s.queueResend (.row k)

/-- `scd_tomb_guard_user_like_ranks` on a delete of an existing row. -/
def scdTombGuard (s : LikeNode) (k : LikeKey) (old : LikeRank) : LikeNode :=
  match newestTomb s.tombs k with
  | none => { s with rows := update s.rows k none }
  | some tv =>
    if old.rowV ≤ tv then { s with rows := update s.rows k none }
    else s.queueResend (.row k)

/-- `scd_erase_repl_tombstones`: a replicated tombstone is stored, then erases the row. -/
def scdEraseReplTombstones (s : LikeNode) (t : Tombstone LikeKey) : LikeNode :=
  scdErase { s with tombs := insertTombstone s.tombs t } t.pk t.v

/-- A change of `user_like_ranks` or of its tombstones, as the apply worker delivers it. An
update carries the new image, a delete only the key. -/
inductive Msg where
  | insert (k : LikeKey) (new : LikeRank)
  | update (k : LikeKey) (new : LikeRank)
  | delete (k : LikeKey)
  | tombstone (t : Tombstone LikeKey)
  deriving DecidableEq

def Msg.key : Msg → LikeKey
  | .insert k _ => k
  | .update k _ => k
  | .delete k => k
  | .tombstone t => t.pk

/-- The apply worker. It skips an update or a delete whose row does not exist. -/
def apply (s : LikeNode) : Msg → Except String LikeNode
  | .insert k new => scdMergeInsert 3 s k new
  | .update k new =>
    match s.rows k with
    | none => .ok s
    | some old => .ok { s with rows := update s.rows k (some (scdMergeUpdate s.role old new)) }
  | .delete k =>
    match s.rows k with
    | none => .ok s
    | some old => .ok (scdTombGuard s k old)
  | .tombstone t => .ok (scdEraseReplTombstones s t)

def applyAll (s : LikeNode) (ms : List Msg) : Except String LikeNode :=
  ms.foldlM apply s

end LikeNode

end SC.Impl.Replication
