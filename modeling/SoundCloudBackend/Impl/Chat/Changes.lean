import SoundCloudBackend.Impl.Replication.Tombstones

/-!
# The changes of a user's chats

Redis keeps for each user a version hash and a sorted set of the last changes,
each with the version of its last bump. `bump` is `chat/lua/bump.lua` on the two
keys of one user, `read` is `chat/sync/changes.lua`. The set is a list in its
order: by score, and by the member among equal scores.
-/

namespace SC.Impl.Chat

open Replication (Uuid)

/-- `Change`; `member` and `parse` make it a member of the set and back. -/
inductive Change where
  | conversation (id : Uuid)
  | devices
  | requests
  | goneMessages (id : Uuid) (seqs : List Int)
  deriving DecidableEq

structure Delta where
  version : Nat
  change : Change
  deriving DecidableEq

structure Versions where
  version : Nat
  floor : Nat
  requests : Option Nat
  fresh : Bool
  deriving DecidableEq

structure Changes where
  versions : Versions
  deltas : List Delta
  deriving DecidableEq

def deltasKept : Nat := 256

/-- The two keys of a user: the fields `v`, `f` and `rq` of the hash, and the set. A key without fields is
a key that is not there. -/
structure Store where
  v : Option Nat
  f : Option Nat
  rq : Option Nat
  deltas : List Delta
  deriving DecidableEq

namespace Store

def empty : Store := ⟨none, none, none, []⟩

/-- The place of a delta in the set. `before` is the order of the members, as bytes. -/
def place (before : Change → Change → Bool) (d : Delta) : List Delta → List Delta
  | [] => [d]
  | e :: rest =>
    if e.version < d.version ∨ (e.version = d.version ∧ before e.change d.change) then e :: place before d rest
    else d :: e :: rest

def zadd (before : Change → Change → Bool) (score : Nat) (deltas : List Delta) (member : Change) : List Delta :=
  place before ⟨score, member⟩ (deltas.filter fun d => d.change ≠ member)

def stored (s : Store) (now : Nat) : Nat × Nat :=
  match s.v with
  | none => (now, now)
  | some v => (v, s.f.getD v)

/-- The oldest changes beyond those kept are dropped, and the floor is raised to the newest of them. -/
def trim (floor : Nat) (deltas : List Delta) : Nat × List Delta :=
  let excess := deltas.length - deltasKept
  ((deltas.take excess).getLast?.elim floor fun d => max floor d.version, deltas.drop excess)

def bump (before : Change → Change → Bool) (now : Nat) (members : List Change) (s : Store) : Store :=
  let stored := s.stored now
  let version := max (stored.1 + 1) now
  let trimmed := trim stored.2 (members.foldl (zadd before version) s.deltas)
  { s with v := some version, f := some trimmed.1, deltas := trimmed.2 }

/-- `changes.lua`: a user without a version starts anew. -/
def read (now pos : Nat) (s : Store) : Store × Changes :=
  match s.v with
  | none => ({ s with v := some now, f := some now, deltas := [] }, ⟨⟨now, now, none, true⟩, []⟩)
  | some version =>
    let floor := s.f.getD version
    (s, ⟨⟨version, floor, s.rq, false⟩,
      if pos < version ∧ pos ≥ floor then s.deltas.filter fun d => d.version > pos else []⟩)

def rememberRequests (count : Nat) (s : Store) : Store := { s with rq := some count }

end Store

def needsReset (pos : Nat) (inc : Option Uuid) (incarnation : Uuid) (versions : Versions) : Bool :=
  versions.fresh ∨ inc ≠ some incarnation ∨ pos < versions.floor ∨ pos > versions.version

inductive Look where
  | reset (versions : Versions)
  | news (changes : Changes)
  | quiet
  deriving DecidableEq

/-- `look`, of what `read` returned. -/
def look (pos : Nat) (inc : Option Uuid) (incarnation : Uuid) (includeFocus : Bool) (changes : Changes) : Look :=
  if needsReset pos inc incarnation changes.versions then .reset changes.versions
  else if includeFocus ∨ changes.versions.version > pos then .news changes
  else .quiet

end SC.Impl.Chat
