import SoundCloudBackend.Impl.Replication.Commands

/-!
# Write-through between an api node and core

The api side of a C table, whose rows core owns. `scd_wt`
(`api/migrations/0205_scd_wt_output_race.sql`) runs an optimistic kind at once,
remembers the keys it touched in `cmd_pending` and ships the command with the
hash of each touched row. Row images from core go through the trigger
`zz_owner` (`scd_owner_search_terms` in `ops/replication/generated/triggers.sql`
is the one for a table whose only unique key is its primary key), which drops
what concerns a pending key. `cmd_done`, `cmd_reassert` and `cmd_purge` are
handled by `scd_on_cmd_done`, `scd_on_cmd_reassert` and `scd_on_cmd_purge`.

`System` puts the api and core together, with a first-in first-out channel in
each direction.
-/

namespace SC.Impl.Replication

open Function

structure Pending (K : Type) where
  pk : K
  key : CmdKey
  deriving DecidableEq

/-- A row of `cmd_outbox` on the api, with its `done_at`. -/
structure Shipped (K H Args : Type) where
  row : Outbox K H Args
  doneAt : Option Int
  deriving DecidableEq

/-- An api node: the rows of the C table and the command tables. -/
structure Api (K V H Args : Type) where
  node : Node
  rows : K → Option V
  cmdPending : List (Pending K)
  cmdOutbox : List (Shipped K H Args)

variable {K V H Args : Type} [DecidableEq K] [DecidableEq H]

namespace Api

def held (a : Api K V H Args) (k : K) : Bool :=
  a.cmdPending.any fun p => p.pk = k

def addPending (ps : List (Pending K)) (p : Pending K) : List (Pending K) :=
  if p ∈ ps then ps else ps ++ [p]

/-- `scd_row_hash(tbl, pk)` on the api; `NULL` without a row. -/
def rowHash (sch : Schema K V H Args) (a : Api K V H Args) (k : K) : Option H :=
  (a.rows k).map (sch.rowHash k)

/-- The end of `scd_wt`: remember the touched keys and ship the command. The primary key of
`cmd_outbox` refuses an id that was used before. -/
def ship (sch : Schema K V H Args) (a : Api K V H Args) (kind : String) (args : Args) (id : Uuid) (now : Int)
    (touched : List K) : Except String (Api K V H Args × Outbox K H Args) :=
  let key : CmdKey := ⟨a.node, id⟩
  if a.cmdOutbox.any fun o => o.row.key = key then
    .error "duplicate key value violates unique constraint \"cmd_outbox_pkey\""
  else
    let row : Outbox K H Args := ⟨key, kind, args, touched.map fun k => ⟨k, a.rowHash sch k⟩, now⟩
    .ok ({ a with
            cmdPending := touched.foldl (fun ps k => addPending ps ⟨k, key⟩) a.cmdPending
            cmdOutbox := a.cmdOutbox ++ [⟨row, none⟩] }, row)

/-- `scd_wt(kind, args)` on a split api node; `id` is what `gen_random_uuid()` returns. -/
def scdWt (sch : Schema K V H Args) (a : Api K V H Args) (kind : String) (args : Args) (id : Uuid) (now : Int) :
    Except String (Api K V H Args × Outbox K H Args) :=
  match sch.kinds kind with
  | none => .error ("scd_wt: unknown kind " ++ kind)
  | some kd =>
    if kd.optimistic then
      match kd.exec args a.rows with
      | .error e => .error e.message
      | .ok res => ship sch { a with rows := Change.applyAll a.rows res.changes } kind args id now res.touched
    else ship sch a kind args id now []

/-! ## The owner trigger -/

/-- `zz_owner` for an INSERT: the loop `FOR attempt IN 1..n`. -/
def ownerInsert : Nat → Api K V H Args → K → V → Except String (Api K V H Args)
  | 0, _, _, _ => .error "scd: insert into public.search_terms still conflicts after 3 attempts"
  | n + 1, a, k, v =>
    if a.held k then .ok a
    else
      match a.rows k with
      | some _ => .ok { a with rows := update a.rows k (some v) }
      | none =>
        -- under scd.merging: INSERT … ON CONFLICT DO NOTHING, with its ROW_COUNT
        match a.rows k with
        | some _ => ownerInsert n a k v
        | none => .ok { a with rows := update a.rows k (some v) }

/-- `zz_owner` for an UPDATE of the row at `old`, which exists. -/
def ownerUpdate (a : Api K V H Args) (old new : K) (v : V) : Except String (Api K V H Args) :=
  if new ≠ old then
    if a.held old then
      if a.held new then .ok a else ownerInsert 3 a new v
    else if a.held new then .ok { a with rows := update a.rows old none }
    else .ok { a with rows := update (update a.rows old none) new (some v) }
  else if a.held new then .ok a
  else .ok { a with rows := update a.rows new (some v) }

/-- The apply worker on a row image of the C table. It skips an update or a delete whose row does
not exist; `zz_owner` sees a delete at trigger depth 1. -/
def applyChange (a : Api K V H Args) : Change K V → Except String (Api K V H Args)
  | .insert k v => ownerInsert 3 a k v
  | .update old new v =>
    match a.rows old with
    | none => .ok a
    | some _ => ownerUpdate a old new v
  | .delete k =>
    match a.rows k with
    | none => .ok a
    | some _ => if a.held k then .ok a else .ok { a with rows := update a.rows k none }

def onCmdDone (a : Api K V H Args) (now : Int) (d : CmdDone) : Api K V H Args :=
  if d.key.node = a.node then
    { a with
      cmdPending := a.cmdPending.filter fun p => p.key ≠ d.key
      cmdOutbox := a.cmdOutbox.map fun o =>
        if o.row.key = d.key ∧ o.doneAt = none then { o with doneAt := some now } else o }
  else a

/-- `scd_on_cmd_reassert`: `scd_apply_row` inserts the row, through `zz_owner`. -/
def onCmdReassert (sch : Schema K V H Args) (a : Api K V H Args) (r : CmdReassert K V) :
    Except String (Api K V H Args) :=
  if r.key.node = a.node ∧ sch.tableClass r.pk = .c then ownerInsert 3 a r.pk r.row else .ok a

/-- `scd_on_cmd_purge`: the delete runs below trigger depth 1, so `zz_owner` lets it pass. -/
def onCmdPurge (sch : Schema K V H Args) (a : Api K V H Args) (p : CmdPurge K) : Api K V H Args :=
  if p.key.node = a.node ∧ sch.tableClass p.pk = .c ∧ ¬ a.held p.pk then
    { a with rows := update a.rows p.pk none }
  else a

def deliver (sch : Schema K V H Args) (a : Api K V H Args) (now : Int) : Msg K V → Except String (Api K V H Args)
  | .row c => a.applyChange c
  | .done d => .ok (a.onCmdDone now d)
  | .reassert r => a.onCmdReassert sch r
  | .purge p => .ok (a.onCmdPurge sch p)

end Api

/-! ## The system -/

/-- An api node and core, with the commands and the messages on their way. -/
structure System (K V H Args : Type) where
  api : Api K V H Args
  core : Core K V Args
  toCore : List (Outbox K H Args)
  toApi : List (Msg K V)

/-- The steps of the system. The clock readings are those of the node that acts. A write on core
is any row operation that keeps the key: the rule `c-key-update` (`ops/replication/README.md`) keeps
updates of primary keys out of the code of C tables, whose writers delete and insert instead. -/
inductive SysAct (K V Args : Type) where
  | wt (kind : String) (args : Args) (id : Uuid) (now : Int)
  | coreWrite (c : Change K V)
  | dispatch (now : Int)
  | deliver (now : Int)

instance (t : K → Option V) (c : Change K V) : Decidable (Change.Legal t c) :=
  match c with
  | .insert k _ => inferInstanceAs (Decidable (t k = none))
  | .update old new _ => inferInstanceAs (Decidable (t old ≠ none ∧ (old ≠ new → t new = none)))
  | .delete k => inferInstanceAs (Decidable (t k ≠ none))

instance (c : Change K V) : Decidable c.KeepsKey :=
  match c with
  | .insert _ _ => .isTrue trivial
  | .update old new _ => inferInstanceAs (Decidable (old = new))
  | .delete _ => .isTrue trivial

/-- One step. `none` is a step that is not enabled: an empty channel, a call that fails, a
transaction that is rolled back. -/
def System.step (sch : Schema K V H Args) (s : System K V H Args) : SysAct K V Args → Option (System K V H Args)
  | .wt kind args id now =>
    match s.api.scdWt sch kind args id now with
    | .ok (api, row) => some { s with api := api, toCore := s.toCore ++ [row] }
    | .error _ => none
  | .coreWrite c =>
    if Change.Legal s.core.rows c ∧ c.KeepsKey then
      some { s with core := { s.core with rows := c.apply s.core.rows }, toApi := s.toApi ++ [.row c] }
    else none
  | .dispatch now =>
    match s.toCore with
    | [] => none
    | r :: rest =>
      (s.core.scdDispatch sch now r).map fun d =>
        { s with core := d.core, toCore := rest, toApi := s.toApi ++ d.out }
  | .deliver now =>
    match s.toApi with
    | [] => none
    | m :: rest =>
      match s.api.deliver sch now m with
      | .ok api => some { s with api := api, toApi := rest }
      | .error _ => none

end SC.Impl.Replication
