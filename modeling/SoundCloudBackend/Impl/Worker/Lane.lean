import SoundCloudBackend.Impl.Worker.Handler

/-!
# The calls of one lane

`QueueHandler.handle` on the messages of one lane, any number of calls at once, with
`Leases` (`worker/bus/lease.py`) and `Inflight` (`worker/bus/inflight.py`). A message is
its sequence number in the stream, and `key` gives the correlation key of its payload. A
step takes one call from an await to the next, runs a callback of a settled lease, or
changes the connection or the clock. Messages that do not parse get no lease and are left
out.
-/

namespace SC.Impl.Worker

open Function

variable {κ : Type*}

/-- The callbacks of `settled`: `Leases._forget` and `Inflight._release`. -/
inductive Callback where
  | forget (handle : Nat)
  | release (handle : Nat)

/-- The state of a lane. Calls are numbered in the order of their leases; `active` and `owners` are the dictionaries of
`Leases` and `Inflight`, and `log` lists what the calls did. -/
structure World (κ : Type*) where
  now : Int
  connection : Connection
  abort : Bool
  handles : List (Handle κ)
  active : Nat → Option Nat
  owners : κ → Option Nat
  callbacks : List Callback
  log : List (Nat × Event κ)

inductive Action where
  | deliver (streamSeq numDelivered : Nat)
  | wake (handle : Nat)
  | move (handle : Nat) (move : Move)
  | callback
  | abort
  | tick (elapsed : Nat)
  | connected (up : Bool)
  | onDisconnected
  | onReconnected
  | onClosed
  | suspect
  | trust

namespace World

variable [DecidableEq κ] (lane : Lane) (key : Nat → κ) (w : World κ)

def init : World κ where
  now := 0
  connection := ⟨true, false, false, none, []⟩
  abort := false
  handles := []
  active := fun _ => none
  owners := fun _ => none
  callbacks := []
  log := []

def turn (h : Handle κ) : Turn κ := { h with now := w.now, connection := w.connection, events := [] }

def isSettled (i : Nat) : Bool := w.handles[i]?.any fun h => h.lease.settled.isSome

/-- The world after a turn of call `i`; a lease that it settles schedules its callbacks. -/
def apply (i : Nat) (t : Turn κ) : World κ :=
  { w with
    connection := t.connection
    handles := w.handles.set i t.toHandle
    callbacks := if t.lease.settled.isSome && !w.isSettled i then w.callbacks ++ [.forget i, .release i] else w.callbacks
    log := w.log ++ t.events.map fun e => (i, e) }

/-- The lease `Inflight.join` waits for: the owner of the key, unless it is the lease itself or settled. -/
def waitsFor (i : Nat) (correlation : κ) : Option Nat :=
  (w.owners correlation).filter fun j => j ≠ i ∧ w.isSettled j = false

/-- `Inflight.join` from the head of its loop, and the start of the processor when it returns `None`. -/
def join (i : Nat) (t : Turn κ) : World κ :=
  match w.waitsFor i t.lease.correlation with
  | some j => w.apply i ((t.emit (.joined j)).goto (.joining j))
  | none =>
    { w.apply i (t.goto (.processing none)) with owners := update w.owners t.lease.correlation (some i) }

/-- The lease that `Leases.attach` gives a redelivery to. -/
def adopter (streamSeq : Nat) : Option Nat := (w.active streamSeq).filter fun i => w.isSettled i = false

def fresh (streamSeq numDelivered : Nat) : Handle κ where
  lease := ⟨streamSeq, key streamSeq, numDelivered, w.now, false, none⟩
  phase := .processing none
  beat := .sleeping (w.now + lane.heartbeat)
  sawStale := false

def attach (streamSeq numDelivered : Nat) : World κ :=
  { w with
    handles := w.handles ++ [w.fresh lane key streamSeq numDelivered]
    active := update w.active streamSeq (some w.handles.length) }

def deliver (streamSeq numDelivered : Nat) : Option (World κ) :=
  match w.adopter streamSeq with
  | some i => (w.handles[i]?).map fun h => w.apply i ((w.turn h).adopt numDelivered)
  | none =>
    some ((w.attach lane key streamSeq numDelivered).join w.handles.length
      ((w.turn (w.fresh lane key streamSeq numDelivered)).emit (.delivered streamSeq numDelivered w.now)))

def wake (i : Nat) : Option (World κ) := do
  let h ← w.handles[i]?
  match h.phase with
  | .joining j =>
    let owner ← w.handles[j]?
    match owner.lease.settled with
    | none => none
    | some .published => some (w.apply i (((w.turn h).emit (.told j)).ack lane .joined))
    | some _ => some (w.join i (w.turn h))
  | _ => none

/-- `Leases._forget`: the entry may be that of a later lease by now. -/
def forget (i : Nat) : World κ :=
  match w.handles[i]? with
  | none => w
  | some h =>
    if w.active h.lease.streamSeq = some i then { w with active := update w.active h.lease.streamSeq none }
    else w

/-- `Inflight._release`. -/
def release (i : Nat) : World κ :=
  match w.handles[i]? with
  | none => w
  | some h =>
    if w.owners h.lease.correlation = some i then
      { w with owners := update w.owners h.lease.correlation none }
    else w

def runCallback : Callback → World κ
  | .forget i => w.forget i
  | .release i => w.release i

def step : Action → Option (World κ)
  | .deliver streamSeq numDelivered => w.deliver lane key streamSeq numDelivered
  | .wake i => w.wake lane i
  | .move i m => do
    let h ← w.handles[i]?
    let t ← (w.turn h).advance lane w.abort m
    some (w.apply i t)
  | .callback =>
    match w.callbacks with
    | [] => none
    | c :: rest => some (({ w with callbacks := rest } : World κ).runCallback c)
  | .abort => some { w with abort := true }
  | .tick elapsed => some { w with now := w.now + elapsed }
  | .connected up =>
    if up && w.connection.closed then none else some { w with connection := { w.connection with isConnected := up } }
  | .onDisconnected => some { w with connection := w.connection.onDisconnected w.now }
  | .onReconnected => some { w with connection := w.connection.onReconnected w.now }
  | .onClosed => some { w with connection := w.connection.onClosed }
  | .suspect => some { w with connection := w.connection.suspect }
  | .trust => some { w with connection := w.connection.trust }

end World

end SC.Impl.Worker
