import SoundCloudBackend.Impl.Replication.Tombstones

/-!
# The sync queue of one like

The rows of `sync_queue` and `user_likes_tracks` for one user and one track, in
one database, and the transactions of the API on them: a tap
(`api/src/modules/sync_queue/{service,mirror}.rs`,
`api/queries/sync_queue/service/*.sql`) and `heal_track_likes.sql`. The columns
that only delay the worker (`next_run_at`, `locked_at`, the ages that the healing
waits for) are left out: what they delay may happen at any time.
-/

namespace SC.Impl.SyncQueue

open Replication (scdHlc scdNodeOrd)

/-! ## Rows -/

/-- The `action_type` of a row: `like_track` or `unlike_track`. -/
inductive Kind where
  | like | unlike
  deriving DecidableEq

namespace Kind

def inverse : Kind → Kind
  | like => unlike
  | unlike => like

def state : Kind → Bool
  | like => true
  | unlike => false

def ofState (wanted : Bool) : Kind := if wanted then like else unlike

@[simp] theorem inverse_inverse (k : Kind) : k.inverse.inverse = k := by cases k <;> rfl

@[simp] theorem inverse_ne (k : Kind) : k.inverse ≠ k := by cases k <;> decide

theorem eq_or_eq_inverse (k j : Kind) : j = k ∨ j = k.inverse := by cases k <;> cases j <;> decide

@[simp] theorem state_ofState (wanted : Bool) : (ofState wanted).state = wanted := by cases wanted <;> rfl

end Kind

/-- `lease_id` and `lease_generation`, and whether the lease is older than its duration. -/
structure Lease where
  id : Nat
  generation : Int
  expired : Bool
  deriving DecidableEq

/-- A row of `sync_queue`. There is a `remote_result` exactly if there is a completed generation. -/
structure Row where
  createdAt : Int
  generation : Int
  intentV : Int
  execGeneration : Option Int
  cancelled : Bool
  dead : Bool
  retryCount : Nat
  lease : Option Lease
  attempted : Option Int
  completed : Option Int
  deriving DecidableEq

namespace Row

def idle (r : Row) : Bool := r.lease.isNone && r.attempted.isNone && r.completed.isNone

def fresh (r : Row) : Bool :=
  r.execGeneration ≠ some r.generation ∧ (r.execGeneration.isSome ∨ r.intentV > 0)

/-- The version that the trigger `scd_ver_sync_queue` gives a row whose intent changes. -/
def versioned (clock : Int) (purged : Option Int) (r : Row) : Row :=
  { r with intentV := scdHlc clock .core (some (max r.intentV (purged.getD r.intentV))) }

end Row

structure Mirror where
  wanted : Bool
  wantedV : Int
  syncedForV : Int
  deriving DecidableEq

/-- `settle_mirror`: `like_track.sql` and `unlike_track.sql`. -/
def Mirror.settle (k : Kind) (m : Mirror) : Mirror :=
  if m.wanted = k.state then { m with syncedForV := m.wantedV } else m

/-! ## Taps -/

/-- `set_wanted` or `clear_wanted`. The trigger stamps a change of the state once more. -/
def wantMirror (clock : Int) (k : Kind) : Option Mirror → Mirror
  | none => ⟨k.state, scdHlc clock .core (some 0), 0⟩
  | some m =>
    let v := scdHlc clock .core (some m.wantedV)
    { m with
      wanted := k.state
      wantedV := if m.wanted = k.state then v else scdHlc clock .core (some v) }

/-- `annuls` in `lock_pair.sql`, and the rows that `cancel_inverse.sql` changes. -/
def annuls (inverse : Option Row) : Bool := inverse.any fun r => !r.cancelled && r.idle

def upsert (now : Int) (purged : Option Int) (annuls : Bool) : Option Row → Row
  | none =>
    { createdAt := now
      generation := scdHlc now .core (some 0)
      intentV := scdHlc now .core (some (max 0 (purged.getD 0)))
      execGeneration := none
      cancelled := annuls
      dead := false
      retryCount := 0
      lease := none
      attempted := none
      completed := none }
  | some r =>
    if !annuls || r.cancelled then
      { r with
        generation := scdHlc now .core (some r.generation)
        cancelled := annuls
        createdAt := if r.cancelled then now else r.createdAt }.versioned now purged
    else r

def cancelInverse (now : Int) (purged : Option Int) (inverse : Option Row) : Option Row :=
  if annuls inverse then inverse.map fun r => { r with cancelled := true }.versioned now purged else inverse

/-! ## The healing -/

def scdPurgeFloor : Option Int → Int
  | none => 0
  | some v => (v / 16 + 1) * 16 + scdNodeOrd .core

def Mirror.stale (m : Mirror) : Bool := m.syncedForV < m.wantedV ∨ m.wantedV = 0

def healRow (now : Int) (purged : Option Int) : Option Row → Row
  | none =>
    { createdAt := now
      generation := 1
      intentV := scdPurgeFloor purged
      execGeneration := some 1
      cancelled := false
      dead := false
      retryCount := 0
      lease := none
      attempted := none
      completed := none }
  | some r => { r with generation := scdHlc now .core (some r.generation), cancelled := false }.versioned now purged

end SC.Impl.SyncQueue
