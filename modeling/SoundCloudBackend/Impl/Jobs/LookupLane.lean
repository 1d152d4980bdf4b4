import Mathlib.Data.List.Basic

/-!
# The lane of lyrics lookups

`LookupLane` of `lookup_lane.rs`: targeted and sweep lookups share a number of slots that the
write governor can cut. The counters are behind a mutex and a slot gives its counts back when
it is dropped. A call reads the cap before it takes the lock, so that the two are steps of
their own. `claim_targeted` owns its slots while the repository is asked; surplus slots, and
all of them after an error or when the call is dropped, are released one by one.
-/

namespace SC.Impl.Jobs.LookupLane

inductive LookupPath where
  | targeted
  | sweep
  deriving DecidableEq

structure Held where
  targeted : Nat
  reserved : Nat
  sweep : Nat
  sweepWants : Nat
  targetedWaiting : Bool
  deriving DecidableEq

structure Slot where
  path : LookupPath
  reserved : Bool
  deriving DecidableEq

inductive ClaimPhase where
  | asking
  | truncating (jobs : Nat)
  | failed
  deriving DecidableEq

structure Claim where
  slots : List Slot
  reserved : Nat
  phase : ClaimPhase
  deriving DecidableEq

/-- The lane, the governor's limit, and who owns the live slots: callers with a list of targeted slots, calls of
`claim_targeted`, and callers with one slot. `calls` are the calls that have read the cap. -/
structure Lane where
  base : Nat
  ceiling : Nat
  limit : Nat
  held : Held
  calls : List (LookupPath × Nat)
  lists : List (List Slot)
  claims : List Claim
  singles : List Slot

def usizeMax : Nat := 18446744073709551615

def divCeil (a b : Nat) : Nat := (a + b - 1) / b

def new (base ceiling limit : Nat) : Lane where
  base := max base 1
  ceiling
  limit
  held := ⟨0, 0, 0, 0, false⟩
  calls := []
  lists := []
  claims := []
  singles := []

def cap (w : Lane) : Nat :=
  min (max (divCeil (min (w.base * w.limit) usizeMax) (max w.ceiling 1)) 1) w.base

def sweepShare (cap : Nat) : Nat := divCeil cap 4

def sweepLimit (cap : Nat) (targetedWaiting : Bool) : Nat :=
  if targetedWaiting then sweepShare cap else max (cap - 1) (sweepShare cap)

/-- What `targeted_slots` leaves for a sweep that wants lookups. -/
def reserveFor (held : Held) (cap : Nat) : Nat := min held.sweepWants (sweepShare cap) - held.sweep

def targetedRoom (held : Held) (cap : Nat) : Nat := cap - (held.targeted + held.sweep + reserveFor held cap)

def sweepGrants (held : Held) (cap : Nat) : Bool :=
  !(decide (sweepLimit cap held.targetedWaiting ≤ held.sweep) || decide (cap ≤ held.targeted + held.sweep))

def release (held : Held) (slot : Slot) : Held :=
  let held :=
    match slot.path with
    | .targeted => { held with targeted := held.targeted - 1 }
    | .sweep => { held with sweep := held.sweep - 1 }
  if slot.reserved then { held with reserved := held.reserved - 1 } else held

/-- The locked part of `claim_targeted`. -/
def bind (held : Held) (slots reserved jobs : Nat) : Held :=
  { held with
    reserved := held.reserved - slots
    targetedWaiting := decide (0 < reserved) && decide (jobs = reserved) }

inductive Action where
  | setLimit (limit : Nat)
  | wants (lookups : Nat)
  | readCap (path : LookupPath)
  | grant (call : Nat)
  | dropList (list : Nat)
  | dropSingle (single : Nat)
  | claim (list : Nat)
  | answered (claim jobs : Nat)
  | failed (claim : Nat)
  | dropClaimed (claim : Nat)
  | bound (claim : Nat)
  deriving DecidableEq

/-- The locked part of `targeted_slots` or `sweep_slot`. -/
def grant (w : Lane) (path : LookupPath) (cap : Nat) : Lane :=
  match path with
  | .targeted =>
    let room := targetedRoom w.held cap
    { w with
      held := { w.held with targeted := w.held.targeted + room, reserved := w.held.reserved + room }
      lists := w.lists ++ [List.replicate room ⟨.targeted, true⟩] }
  | .sweep =>
    if sweepGrants w.held cap then
      { w with held := { w.held with sweep := w.held.sweep + 1 }, singles := w.singles ++ [⟨.sweep, false⟩] }
    else w

/-- The slot of a claim that is dropped next: all after an error, those after the last job of a truncation. -/
def surplus (claim : Claim) : Option Nat :=
  match claim.phase with
  | .asking => none
  | .truncating jobs => if jobs < claim.slots.length then some jobs else none
  | .failed => if claim.slots = [] then none else some 0

def step (w : Lane) : Action → Option Lane
  | .setLimit limit => some { w with limit }
  | .wants lookups => some { w with held := { w.held with sweepWants := lookups } }
  | .readCap path => some { w with calls := w.calls ++ [(path, cap w)] }
  | .grant k => w.calls[k]?.map fun call => grant { w with calls := w.calls.eraseIdx k } call.1 call.2
  | .dropList k =>
    match w.lists[k]? with
    | some (slot :: rest) => some { w with held := release w.held slot, lists := w.lists.set k rest }
    | _ => none
  | .dropSingle k =>
    w.singles[k]?.map fun slot => { w with held := release w.held slot, singles := w.singles.eraseIdx k }
  | .claim k =>
    w.lists[k]?.map fun slots =>
      { w with lists := w.lists.eraseIdx k, claims := w.claims ++ [⟨slots, slots.length, .asking⟩] }
  | .answered k jobs =>
    match w.claims[k]? with
    | some ⟨slots, reserved, .asking⟩ =>
      if jobs ≤ reserved then some { w with claims := w.claims.set k ⟨slots, reserved, .truncating jobs⟩ } else none
    | _ => none
  | .failed k =>
    match w.claims[k]? with
    | some ⟨slots, reserved, .asking⟩ => some { w with claims := w.claims.set k ⟨slots, reserved, .failed⟩ }
    | _ => none
  | .dropClaimed k =>
    w.claims[k]?.bind fun claim =>
    (surplus claim).bind fun i =>
    claim.slots[i]?.map fun slot =>
      { w with
        held := release w.held slot
        claims := w.claims.set k { claim with slots := claim.slots.eraseIdx i } }
  | .bound k =>
    match w.claims[k]? with
    | some ⟨slots, reserved, .truncating jobs⟩ =>
      if slots.length ≤ jobs then
        some { w with
          held := bind w.held slots.length reserved jobs
          claims := w.claims.eraseIdx k
          singles := w.singles ++ slots.map fun slot => { slot with reserved := false } }
      else none
    | _ => none

end SC.Impl.Jobs.LookupLane
