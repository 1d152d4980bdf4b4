import SoundCloudBackend.Framework.Table
import SoundCloudBackend.Impl.Replication.Sessions

/-!
# Write-through commands on core

An api node ships a write as a command, a row of `cmd_outbox`. On core the
trigger `scd_dispatch` (`api/migrations/0261_scd_retention_r1.sql`) runs the
command's kind once, acknowledges it in `cmd_done`, and compares each touched
row with the hash the api sent along: a difference goes back as `cmd_reassert`
or `cmd_purge`. `scd_retention_batch` deletes old rows of these tables.

A kind is a function from its arguments and the rows of the database to the
row operations it runs, or an SQL error. `now()` and intervals are numbers of
microseconds. What a transaction publishes to the api is its list of messages.
-/

namespace SC.Impl.Replication

/-- `SQLSTATE`, split after the two characters of its class. -/
structure SqlState where
  cls : String
  code : String
  deriving DecidableEq

/-- An SQL error; `raced` is whether `scd_unique_race` finds the transaction that inserted the key. -/
structure SqlError where
  state : SqlState
  message : String
  raced : Bool
  deriving DecidableEq

def scdTransient (st : SqlState) : Bool :=
  st.cls ∈ ["08", "40", "53", "57", "58", "XX"] ∨ st = ⟨"55", "P03"⟩ ∨ st = ⟨"55", "006"⟩

def uniqueViolation : SqlState := ⟨"23", "505"⟩

def invalidParameterValue : SqlState := ⟨"22", "023"⟩

/-- What a kind returns: the operations it ran and the keys it lists as `touched`. -/
structure KindResult (K V : Type) where
  changes : List (Change K V)
  touched : List K

/-- A kind of command. Its operations are those of a run on the given rows, they keep the key of
a row, and every key they write is listed in `touched`. -/
structure Kind (K V Args : Type) [DecidableEq K] where
  optimistic : Bool
  exec : Args → (K → Option V) → Except SqlError (KindResult K V)
  legal : ∀ {args t r}, exec args t = .ok r → Change.LegalAll t r.changes
  keeps : ∀ {args t r}, exec args t = .ok r → ∀ c ∈ r.changes, c.KeepsKey
  listed : ∀ {args t r}, exec args t = .ok r → ∀ c ∈ r.changes, ∀ k ∈ c.keys, k ∈ r.touched

inductive TableClass where
  | c | other
  deriving DecidableEq

/-- What dispatch looks up: the kinds, and for each key the class of its table, whether the table
is reasserted always, and the hash of a row, which may fail. -/
structure Schema (K V H Args : Type) [DecidableEq K] where
  kinds : String → Option (Kind K V Args)
  tableClass : K → TableClass
  reassertAlways : K → Bool
  rowHash : K → V → H
  rowHashError : K → Option SqlError

structure CmdKey where
  node : Node
  id : Uuid
  deriving DecidableEq

/-- An entry of `cmd_outbox.touched`: a key and the hash of its row on the api. -/
structure Touched (K H : Type) where
  pk : K
  hash : Option H
  deriving DecidableEq

structure Outbox (K H Args : Type) where
  key : CmdKey
  kind : String
  args : Args
  touched : List (Touched K H)
  createdAt : Int
  deriving DecidableEq

inductive Status where
  | ok | dead
  deriving DecidableEq

structure CmdDone where
  key : CmdKey
  status : Status
  ackedAt : Int
  deriving DecidableEq

structure CmdReassert (K V : Type) where
  key : CmdKey
  pk : K
  row : V
  deriving DecidableEq

structure CmdPurge (K : Type) where
  key : CmdKey
  pk : K
  deriving DecidableEq

structure CmdDead (Args : Type) where
  key : CmdKey
  kind : String
  args : Args
  state : SqlState
  message : String
  diedAt : Int
  deriving DecidableEq

structure Core (K V Args : Type) where
  rows : K → Option V
  cmdDone : List CmdDone
  cmdReassert : List (CmdReassert K V)
  cmdPurge : List (CmdPurge K)
  cmdDead : List (CmdDead Args)

/-- What core publishes to the api, in commit order. -/
inductive Msg (K V : Type) where
  | row (c : Change K V)
  | done (d : CmdDone)
  | reassert (r : CmdReassert K V)
  | purge (p : CmdPurge K)
  deriving DecidableEq

variable {K V H Args : Type} [DecidableEq K] [DecidableEq H]

def hour : Int := 3600 * 1000000

def scdDedupWindow : Int := 7 * 24 * hour

namespace Core

/-- `INSERT INTO cmd_dead … ON CONFLICT DO NOTHING` and `UPDATE cmd_done SET status = 'dead'`. -/
def bury (c : Core K V Args) (now : Int) (r : Outbox K H Args) (st : SqlState) (message : String) :
    Core K V Args :=
  { c with
    cmdDead :=
      if c.cmdDead.any fun d => d.key = r.key then c.cmdDead
      else c.cmdDead ++ [⟨r.key, r.kind, r.args, st, message, now⟩]
    cmdDone := c.cmdDone.map fun d => if d.key = r.key then { d with status := .dead } else d }

/-- The inner block of `scd_dispatch`: look the kind up, refuse an old command, run the kind. The
flag says whether the kind was executed. -/
def runKind (sch : Schema K V H Args) (now : Int) (c : Core K V Args) (r : Outbox K H Args) :
    Bool × Except SqlError (KindResult K V) :=
  match sch.kinds r.kind with
  | none => (false, .error ⟨invalidParameterValue, "scd dispatch: unknown kind " ++ r.kind, false⟩)
  | some kind =>
    if r.createdAt < now - scdDedupWindow + hour then
      (false, .error ⟨invalidParameterValue, "scd dispatch: command " ++ Uuid.text r.key.id ++ " of "
        ++ r.key.node.text ++ " is older than the dedup window, replay it only if core never ran it", false⟩)
    else (true, kind.exec r.args c.rows)

/-- The body of the `touched` loop of `scd_dispatch` for one entry. -/
def compareKey (sch : Schema K V H Args) (key : CmdKey) (s : Core K V Args × List (Msg K V))
    (t : Touched K H) : Except SqlError (Core K V Args × List (Msg K V)) :=
  if sch.tableClass t.pk ≠ .c then .ok s
  else
    match sch.rowHashError t.pk with
    | some e => .error e
    | none =>
      match s.1.rows t.pk with
      | none =>
        if t.hash.isSome ∧ ¬ s.1.cmdPurge.any (fun p => p.key = key ∧ p.pk = t.pk) then
          .ok ({ s.1 with cmdPurge := s.1.cmdPurge ++ [⟨key, t.pk⟩] }, s.2 ++ [.purge ⟨key, t.pk⟩])
        else .ok s
      | some v =>
        if (sch.reassertAlways t.pk ∨ t.hash ≠ some (sch.rowHash t.pk v)) ∧
            ¬ s.1.cmdReassert.any (fun x => x.key = key ∧ x.pk = t.pk) then
          .ok ({ s.1 with cmdReassert := s.1.cmdReassert ++ [⟨key, t.pk, v⟩] },
            s.2 ++ [.reassert ⟨key, t.pk, v⟩])
        else .ok s

/-- A committed dispatch: the new state, what it publishes, and whether it executed the kind. -/
structure Dispatched (K V Args : Type) where
  core : Core K V Args
  out : List (Msg K V)
  executed : Bool

/-- `scd_dispatch` once the command is acknowledged: the `touched` loop and its handler. -/
def compareAll (sch : Schema K V H Args) (now : Int) (c : Core K V Args) (r : Outbox K H Args)
    (out : List (Msg K V)) (executed : Bool) : Option (Dispatched K V Args) :=
  match r.touched.foldlM (compareKey sch r.key) (c, out) with
  | .ok (c', out') => some ⟨c', out', executed⟩
  | .error e =>
    if scdTransient e.state then none
    else some ⟨c.bury now r e.state ("touched: " ++ e.message), out, executed⟩

/-- `scd_dispatch`. `none` is an error that leaves the trigger: the transaction is rolled back and
the command is delivered again. -/
def scdDispatch (sch : Schema K V H Args) (now : Int) (c : Core K V Args) (r : Outbox K H Args) :
    Option (Dispatched K V Args) :=
  match c.cmdDone.find? fun d => d.key = r.key with
  | some d =>
    compareAll sch now
      { c with
        cmdDone := c.cmdDone.filter (fun d => d.key ≠ r.key) ++ [d]
        cmdReassert := c.cmdReassert.filter fun x => x.key ≠ r.key
        cmdPurge := c.cmdPurge.filter fun x => x.key ≠ r.key }
      r [.done d] false
  | none =>
    let d : CmdDone := ⟨r.key, .ok, now⟩
    let acked := { c with cmdDone := c.cmdDone ++ [d] }
    match runKind sch now c r with
    | (executed, .ok res) =>
      compareAll sch now { acked with rows := Change.applyAll c.rows res.changes } r
        (.done d :: res.changes.map .row) executed
    | (executed, .error e) =>
      if scdTransient e.state then none
      else if e.state = uniqueViolation ∧ e.raced then none
      else compareAll sch now (acked.bury now r e.state e.message) r [.done d] executed

/-! ## Retention -/

/-- The tables of `scd_retention_batch` that hold commands. -/
inductive RetentionTable where
  | cmdReassert | cmdPurge | cmdDone | cmdDead
  deriving DecidableEq

/-- `ORDER BY at LIMIT batch FOR UPDATE SKIP LOCKED` over the candidate rows. -/
def oldest {α : Type} (rowAt : α → Int) (batch : Nat) (locked : α → Bool) (xs : List α) : List α :=
  ((xs.filter fun x => ¬ locked x).mergeSort fun x y => rowAt x ≤ rowAt y).take batch

def ackedAt (c : Core K V Args) (key : CmdKey) : Option Int :=
  (c.cmdDone.find? fun d => d.key = key).map CmdDone.ackedAt

/-- `scd_retention_batch(tbl, keep, batch)` on core; `held` is what `scd_retention_guard` reports
and `locked` tells the rows that other transactions hold. -/
def scdRetentionBatch [DecidableEq V] [DecidableEq Args] (now : Int) (c : Core K V Args)
    (tbl : RetentionTable) (keep : Int) (batch : Nat) (held : Option String) (locked : CmdKey → Bool) :
    Core K V Args :=
  let cutoff := now - max keep scdDedupWindow
  match tbl with
  | .cmdReassert =>
    if held.isSome then c
    else
      let old := c.cmdReassert.filter fun x => (c.ackedAt x.key).any fun t => t < cutoff
      let gone := oldest (fun x => (c.ackedAt x.key).getD 0) batch (fun x => locked x.key) old
      { c with cmdReassert := c.cmdReassert.filter fun x => x ∉ gone }
  | .cmdPurge =>
    if held.isSome then c
    else
      let old := c.cmdPurge.filter fun x => (c.ackedAt x.key).any fun t => t < cutoff
      let gone := oldest (fun x => (c.ackedAt x.key).getD 0) batch (fun x => locked x.key) old
      { c with cmdPurge := c.cmdPurge.filter fun x => x ∉ gone }
  | .cmdDone =>
    if held.isSome then c
    else
      let old := c.cmdDone.filter fun x =>
        x.ackedAt < cutoff ∧ ¬ c.cmdReassert.any (fun r => r.key = x.key) ∧
          ¬ c.cmdPurge.any (fun r => r.key = x.key)
      let gone := oldest CmdDone.ackedAt batch (fun x => locked x.key) old
      { c with cmdDone := c.cmdDone.filter fun x => x ∉ gone }
  | .cmdDead =>
    let old := c.cmdDead.filter fun x => x.diedAt < cutoff
    let gone := oldest CmdDead.diedAt batch (fun x => locked x.key) old
    { c with cmdDead := c.cmdDead.filter fun x => x ∉ gone }

end Core

/-! ## Core over time -/

structure CoreClock (K V Args : Type) where
  core : Core K V Args
  now : Int

/-- What core sees of the command tables: deliveries of commands, retention batches, time. -/
inductive CoreAct (K H Args : Type) where
  | deliver (r : Outbox K H Args)
  | retain (tbl : Core.RetentionTable) (keep : Int) (batch : Nat) (held : Option String)
      (locked : CmdKey → Bool)
  | advance (dt : Nat)

/-- One action, with the key of the command whose kind a committed transaction executed. -/
def CoreClock.step [DecidableEq V] [DecidableEq Args] (sch : Schema K V H Args) (s : CoreClock K V Args) :
    CoreAct K H Args → CoreClock K V Args × List CmdKey
  | .deliver r =>
    match s.core.scdDispatch sch s.now r with
    | none => (s, [])
    | some d => ({ s with core := d.core }, if d.executed then [r.key] else [])
  | .retain tbl keep batch held locked =>
    ({ s with core := s.core.scdRetentionBatch s.now tbl keep batch held locked }, [])
  | .advance dt => ({ s with now := s.now + dt }, [])

def CoreClock.steps [DecidableEq V] [DecidableEq Args] (sch : Schema K V H Args) (s : CoreClock K V Args)
    (as : List (CoreAct K H Args)) : CoreClock K V Args × List CmdKey :=
  as.foldl (fun s a => ((s.1.step sch a).1, s.2 ++ (s.1.step sch a).2)) (s, [])

end SC.Impl.Replication
