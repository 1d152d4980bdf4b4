import Mathlib.Algebra.Ring.Int.Defs
import SoundCloudBackend.Impl.Worker.Outcome

/-!
# Leases

`worker/bus/lease.py` and what it reads of the lane (`worker/contract.py`) and of the
connection (`worker/bus/connection.py`). A lease stands for one delivery of a message at
a time: `adopt` moves it to a redelivery while its handler runs. It is stale if the worker
was silent, or the connection was down, for longer than `ack_wait_s - heartbeat_s`; that
is kept once it was seen, until the next adoption.

Times are numbers of clock units, of which `Lane.second` make a second.
-/

namespace SC.Impl.Worker

inductive Settled where
  | published
  | nacked
  | dropped
  deriving DecidableEq

/-- A queue lane. `maxDeliver` is `ConsumerWatch.max_deliver`, which a consumer that drifted from the contract does not
change. -/
structure Lane where
  second : Int
  ackWait : Int
  heartbeat : Int
  maxDeliver : Int
  nakBase : Int
  nakCap : Int
  reopenable : List Reason

namespace Lane

variable (lane : Lane)

def window : Int := lane.ackWait - lane.heartbeat

def isLastDelivery (numDelivered : Nat) : Bool :=
  decide (0 < lane.maxDeliver) && decide (lane.maxDeliver ≤ numDelivered)

def nakDelay (numDelivered : Nat) : Int := min (lane.nakBase * 2 ^ (numDelivered - 1)) lane.nakCap

def publishGiveUp : Int := 60 * lane.second
def degradedProbe : Int := 60 * lane.second
def drainNakDelay : Int := 5 * lane.second
def ackTimeout : Int := 5 * lane.second
def ackRetryPause : Int := lane.second
def backoffStart : Int := lane.second
def backoffCap : Int := 60 * lane.second

end Lane

def ackAttempts : Nat := 3

/-! ## The connection -/

/-- `isConnected` is the client's; `disconnectedSince` and `outages` are kept by its callbacks. -/
structure Connection where
  isConnected : Bool
  closed : Bool
  suspicious : Bool
  disconnectedSince : Option Int
  outages : List (Int × Int)

namespace Connection

variable (c : Connection)

def history : Nat := 64

def longestOutageSince (now since : Int) : Int :=
  let past := c.outages.foldl
    (fun longest outage => if outage.2 > since then max longest (outage.2 - max outage.1 since) else longest) 0
  match c.disconnectedSince with
  | none => past
  | some start => max past (now - max start since)

def suspect : Connection := { c with suspicious := true }

def trust : Connection := { c with suspicious := false }

/-- A timeout is held against a connection that is up. -/
def suspectIfConnected : Connection := if c.isConnected then c.suspect else c

def onDisconnected (now : Int) : Connection :=
  { c with disconnectedSince := some (c.disconnectedSince.getD now) }

def onReconnected (now : Int) : Connection :=
  { c with
    disconnectedSince := none
    outages := match c.disconnectedSince with
      | none => c.outages
      | some start => (c.outages ++ [(start, now)]).drop (c.outages.length + 1 - history) }

/-- `_on_closed`; a closed client is not connected. -/
def onClosed : Connection := { c with closed := true, isConnected := false }

end Connection

/-! ## Leases -/

/-- `Lease`. `numDelivered` is that of its current message. -/
structure Lease (κ : Type*) where
  streamSeq : Nat
  correlation : κ
  numDelivered : Nat
  lastProgressAt : Int
  stale : Bool
  settled : Option Settled

/-- `Lease.is_stale`, without the note that it was seen. -/
def Lease.isStale {κ : Type*} (lease : Lease κ) (lane : Lane) (c : Connection) (now : Int) : Bool :=
  lease.stale ||
    !(decide (now - lease.lastProgressAt ≤ lane.window) &&
      decide (c.longestOutageSince now lease.lastProgressAt ≤ lane.window))

/-- What the worker does with a lease, for all to see. A `stored` result is one that reached the result stream under
`done_msg_id`, with or without a PubAck seen by the worker. `told` is the news that the owner it joined has published.
A `settled` lease records its delivery and whether it was stale or the connection closed at that moment. -/
inductive Event (κ : Type*) where
  | delivered (streamSeq numDelivered : Nat) (time : Int)
  | adopted (numDelivered : Nat) (time : Int)
  | inProgress (time : Int)
  | progressed (time : Int)
  | joined (owner : Nat)
  | told (owner : Nat)
  | stored (correlation : κ) (streamSeq : Nat) (status : Status) (acknowledged : Bool)
  | ack (streamSeq : Nat)
  | nak (numDelivered : Nat) (delay time : Int)
  | settled (settled : Settled) (numDelivered : Nat) (stale closed : Bool)
  deriving DecidableEq

end SC.Impl.Worker
