import SoundCloudBackend.Impl.Media.Ledger

/-!
# The commit of an upload

`commit_rows` (`chat/media/commit.rs`) with `ledger::commit` on one root, any number of
calls at once. Each statement, each object that is looked at, copied or deleted, and
each outcome of a database commit is a step. `commit_flip.sql` locks the root until its
transaction ends, and reads see what is committed. If the outcome of a commit is not
known, the transaction can be applied or rolled back at once, or stay open and end
later. An operation on an object that fails may have been done all the same.
-/

namespace SC.Impl.Media.Commit

open Replication (Uuid)
open Media
open Function

structure Object where
  id : Uuid
  key : String
  bytes : Int
  deriving DecidableEq

structure CommitRow where
  status : Status
  live : Bool
  root : Object
  thumb : Option Object

def CommitRow.objects (row : CommitRow) : List Object := row.root :: row.thumb.toList

def commitRow (t : Tables) (id : Uuid) (user : String) : Option CommitRow :=
  (t.media.find? fun root => root.id = id ∧ root.ownerUser = user ∧ root.kind ≠ .thumb).map fun root =>
    { status := root.status
      live := root.deleteAfter.any (· > t.clock)
      root := ⟨root.id, root.objectKey, root.bytes⟩
      thumb := (t.media.find? fun thumb => thumb.parentId = some root.id ∧ thumb.kind = .thumb).map fun thumb =>
        ⟨thumb.id, thumb.objectKey, thumb.bytes⟩ }

def commitFiles (t : Tables) (user : String) (id : Uuid) : Nat :=
  ((joinedRows (rootOf (fun media _ => media.ownerUser = user ∧ media.status = .reserved) (commitRoots t id))
    t.media).filter fun r => r.1.id = id).length

def keyOf (kept : List Object) (id : Uuid) (isRoot : Bool) : Option String :=
  (kept.find? fun object => decide (object.id = id) = isRoot).map Object.key

/-! ## Calls -/

/-- The errors of `commit_rows`; `failed` is that of a statement or of the object store. -/
inductive Failure where
  | notFound
  | mediaMissing (ids : List Uuid)
  | busyCommit
  | busyS3
  | failed
  deriving DecidableEq

inductive Answer where
  | ok
  | error (error : Failure)
  deriving DecidableEq

inductive Next where
  | committed (error : Failure)
  | answer
  | done (result : Answer)
  deriving DecidableEq

/-- Where a call is, with the uploads and its copies of them. `commit` has its transaction open, and `settle` is after a
commit with an unknown outcome. -/
inductive Phase where
  | read
  | missing (objects todo : List Object) (short : List Uuid)
  | copy (objects kept : List Object) (todo : List (Object × Object)) (made : List Object) (failed : Bool)
  | verify (objects kept todo : List Object) (short : Bool)
  | flip (objects kept : List Object)
  | commit (objects kept : List Object)
  | usage (objects : List Object)
  | settle (objects kept : List Object)
  | discard (todo : List Object) (next : Next)
  | committed (error : Failure)
  | answer
  | done (result : Answer)
  deriving DecidableEq

def Next.phase : Next → Phase
  | .committed error => .committed error
  | .answer => .answer
  | .done result => .done result

def discard (todo : List Object) (next : Next) : Phase := if todo = [] then next.phase else .discard todo next

structure Call where
  user : String
  phase : Phase
  deriving DecidableEq

/-- The transaction that has the root locked, with the tables that it commits. `lost` is set when its call does not wait
for it any more. -/
structure Transaction where
  call : Nat
  tables : Tables
  moves : Bool
  lost : Bool

/-- The tables, the object store with the sizes of its objects, and the calls. `uploads` are the keys that the owner can
write, `used` all keys ever made; `deleted` logs the keys asked to be deleted, and `moved` the calls that moved the
root. -/
structure World where
  root : Uuid
  tables : Tables
  objects : String → Option Int
  lock : Option Transaction
  calls : Nat → Option Call
  uploads : List String
  used : List String
  deleted : List String
  moved : List Nat

/-- The keys that the rows of the root name. -/
def named (t : Tables) (id : Uuid) : List String :=
  (t.media.filter fun row => row.id = id ∨ row.parentId = some id).map Row.objectKey

def World.start (t : Tables) (id : Uuid) (objects : String → Option Int) : World :=
  ⟨id, t, objects, none, fun _ => none, named t id, t.media.map Row.objectKey, [], []⟩

inductive Outcome where
  | done
  | lost (applied : Option Bool)
  deriving DecidableEq

inductive Action where
  | start (n : Nat) (user : String)
  | read (n : Nat) (lost : Bool)
  | head (n : Nat) (key : String) (failed : Bool)
  | copies (n : Nat) (keys : List String)
  | copy (n : Nat) (key : String) (failed : Option Bool)
  | flip (n : Nat)
  | rollback (n : Nat)
  | commit (n : Nat) (outcome : Outcome)
  | resolve (applied : Bool)
  | delete (n : Nat) (key : String) (applied : Bool)
  | late (key : String)
  | put (key : String) (bytes : Int)
  | tick (ms : Nat)
  deriving DecidableEq

namespace World

def setPhase (w : World) (n : Nat) (c : Call) (phase : Phase) : World :=
  { w with calls := update w.calls n (some { c with phase := phase }) }

def read (w : World) (n : Nat) (c : Call) (lost : Bool) : Option World :=
  let row := commitRow w.tables w.root c.user
  let stored := row.any fun row => row.status.stored
  match c.phase with
  | .read =>
    some <| w.setPhase n c <|
      if lost then .done (.error .failed)
      else
        match row with
        | none => .done (.error .notFound)
        | some row =>
          if row.status.stored then .answer
          else if row.status = .reserved ∧ row.live then .missing row.objects row.objects []
          else .done (.error .notFound)
  | .committed error =>
    some <| w.setPhase n c <|
      if lost then .done (.error .failed) else if stored then .answer else .done (.error error)
  | .settle objects kept =>
    some <| w.setPhase n c <|
      if lost then .done (.error .busyCommit)
      else
        match row with
        | none => discard (objects ++ kept) (.done (.error .notFound))
        | some row =>
          let unreferenced := (objects ++ kept).filter fun object => object.key ∉ row.objects.map Object.key
          if row.status.stored then discard unreferenced .answer else .done (.error .busyCommit)
  | .usage objects =>
    some <| w.setPhase n c <| discard objects (.done (if lost then .error .busyCommit else .ok))
  | .answer => some <| w.setPhase n c <| .done (if lost then .error .failed else .ok)
  | _ => none

def head (w : World) (n : Nat) (c : Call) (key : String) (failed : Bool) : Option World :=
  match c.phase with
  | .missing objects todo short =>
    (todo.find? fun object => object.key = key).map fun object =>
      w.setPhase n c <|
        if failed then .done (.error .failed)
        else
          let short := if w.objects key = some object.bytes then short else short ++ [object.id]
          if todo.erase object = [] ∧ short ≠ [] then
            .committed (.mediaMissing ((objects.map Object.id).filter (· ∈ short)))
          else .missing objects (todo.erase object) short
  | .verify objects kept todo short =>
    (todo.find? fun object => object.key = key).map fun object =>
      w.setPhase n c <|
        if failed then discard kept (.done (.error .failed))
        else
          let short := short || decide (w.objects key ≠ some object.bytes)
          if todo.erase object = [] then
            if short then discard kept (.done (.error .busyS3)) else .flip objects kept
          else .verify objects kept (todo.erase object) short
  | _ => none

def copies (w : World) (n : Nat) (c : Call) (keys : List String) : Option World :=
  match c.phase with
  | .missing objects [] [] =>
    if keys.length = objects.length ∧ keys.Nodup ∧ ∀ key ∈ keys, key ∉ w.used then
      let kept := objects.zipWith (fun object key => { object with key := key }) keys
      some { w.setPhase n c (.copy objects kept (objects.zip kept) [] false) with used := w.used ++ keys }
    else none
  | _ => none

/-- An upload is copied. `failed` says of a copy that fails whether it was done. -/
def copy (w : World) (n : Nat) (c : Call) (key : String) (failed : Option Bool) : Option World :=
  match c.phase with
  | .copy objects kept todo made anyFailed =>
    (todo.find? fun pair => pair.2.key = key).map fun pair =>
      let source := w.objects pair.1.key
      let done := source.isSome ∧ failed ≠ some false
      let made := if source.isSome ∧ failed = none then made ++ [pair.2] else made
      let anyFailed := anyFailed || failed.isSome
      let w := { w with objects := if done then update w.objects key source else w.objects }
      w.setPhase n c <|
        if todo.erase pair = [] then
          if made.length = kept.length then .verify objects kept kept false
          else discard made (if anyFailed then .done (.error .failed) else .committed .notFound)
        else .copy objects kept (todo.erase pair) made anyFailed
  | _ => none

/-- `commit_flip.sql` under the lock of the root. -/
def flip (w : World) (n : Nat) (c : Call) : Option World :=
  match c.phase with
  | .flip objects kept =>
    match keyOf kept w.root true with
    | none => some (w.setPhase n c (discard kept (.done (.error .failed))))
    | some rootKey =>
      match w.lock with
      | some _ => none
      | none =>
        match commitFlip max w.tables c.user w.root rootKey (keyOf kept w.root false) with
        | none => some (w.setPhase n c (discard kept (.done (.error .failed))))
        | some t =>
          some { w.setPhase n c (.commit objects kept) with
            lock := some ⟨n, t, decide (commitFiles w.tables c.user w.root > 0), false⟩ }
  | _ => none

def apply (w : World) (tx : Transaction) : World :=
  { w with
    tables := { tx.tables with clock := w.tables.clock }
    lock := none
    moved := if tx.moves then w.moved ++ [tx.call] else w.moved }

def commit (w : World) (n : Nat) (c : Call) (outcome : Outcome) : Option World :=
  match c.phase, w.lock with
  | .commit objects kept, some tx =>
    if tx.call = n ∧ tx.lost = false then
      match outcome with
      | .done =>
        let phase :=
          if tx.moves then
            if (tx.tables.usage c.user).isNone then .usage objects else discard objects (.done .ok)
          else discard kept (.committed .notFound)
        some ((w.apply tx).setPhase n c phase)
      | .lost (some true) => some ((w.apply tx).setPhase n c (.settle objects kept))
      | .lost (some false) => some ({ w with lock := none }.setPhase n c (.settle objects kept))
      | .lost none => some ({ w with lock := some { tx with lost := true } }.setPhase n c (.settle objects kept))
    else none
  | _, _ => none

/-- A statement of the transaction fails, and the transaction is rolled back. -/
def rollback (w : World) (n : Nat) (c : Call) : Option World :=
  match c.phase with
  | .flip _ kept => some (w.setPhase n c (discard kept (.done (.error .failed))))
  | .commit _ kept =>
    match w.lock with
    | some tx =>
      if tx.call = n ∧ tx.lost = false then
        some ({ w with lock := none }.setPhase n c (discard kept (.done (.error .failed))))
      else none
    | none => none
  | _ => none

def delete (w : World) (n : Nat) (c : Call) (key : String) (applied : Bool) : Option World :=
  match c.phase with
  | .discard todo next =>
    (todo.find? fun object => object.key = key).map fun object =>
      { w with
        objects := if applied then update w.objects key none else w.objects
        deleted := w.deleted ++ [key] }.setPhase n c (discard (todo.erase object) next)
  | _ => none

end World

def step (w : World) : Action → Option World
  | .start n user => if (w.calls n).isSome then none else some (w.setPhase n ⟨user, .read⟩ .read)
  | .read n lost => (w.calls n).bind fun c => w.read n c lost
  | .head n key failed => (w.calls n).bind fun c => w.head n c key failed
  | .copies n keys => (w.calls n).bind fun c => w.copies n c keys
  | .copy n key failed => (w.calls n).bind fun c => w.copy n c key failed
  | .flip n => (w.calls n).bind fun c => w.flip n c
  | .rollback n => (w.calls n).bind fun c => w.rollback n c
  | .commit n outcome => (w.calls n).bind fun c => w.commit n c outcome
  | .resolve applied =>
    match w.lock with
    | some tx => if tx.lost then some (if applied then w.apply tx else { w with lock := none }) else none
    | none => none
  | .delete n key applied => (w.calls n).bind fun c => w.delete n c key applied
  | .late key => if key ∈ w.deleted then some { w with objects := update w.objects key none } else none
  | .put key bytes =>
    if key ∈ w.uploads then some { w with objects := update w.objects key (some bytes) } else none
  | .tick ms => some { w with tables := { w.tables with clock := w.tables.clock + ms } }

end SC.Impl.Media.Commit
