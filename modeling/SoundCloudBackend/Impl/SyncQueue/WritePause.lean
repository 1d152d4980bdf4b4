import Mathlib.Logic.Function.Basic

/-!
# Pauses of refused writes

`WritePauses` of `write_pause.rs`: after SoundCloud refused an action of an application, the
action is paused, and when the pause has run out one probe goes out at a time. Instants and
durations are nanoseconds. An operation reads the clock once and changes the entry of its key
under one lock, so that it is one step. `pause_longer_each_time` takes the lock again for the
strikes that it returns; they are those of the step here.
-/

namespace SC.Impl.SyncQueue.WritePause

def second : Nat := 1000000000

def maxPause : Nat := 2 * 60 * 60 * second

def probeHold : Nat := 120 * second

/-- `WRITE_PAUSE_SECONDS`, which the queue gives to `pause_longer_each_time`. -/
def writePauseSeconds : Int := 60

def u32Max : Nat := 4294967295
def u64Max : Nat := 18446744073709551615
def i64Max : Nat := 9223372036854775807

structure Pause where
  until_ : Nat
  strikes : Nat
  probing : Bool
  deriving DecidableEq

inductive Admission where
  | opened
  | probe
  | paused (seconds : Nat)
  deriving DecidableEq

/-- `Duration::from_secs(u64::try_from(seconds).unwrap_or(0).max(1))`. -/
def fromSeconds (seconds : Int) : Nat := max seconds.toNat 1 * second

def wholeSeconds (duration : Nat) : Nat := max (min (duration / second) i64Max) 1

def checkedShl (strikes : Nat) : Option Nat := if strikes < 32 then some (1 <<< strikes) else none

def checkedMul (base factor : Nat) : Option Nat := if base * factor / second ≤ u64Max then some (base * factor) else none

def longer (base strikes : Nat) : Nat :=
  min ((checkedMul base ((checkedShl strikes).getD u32Max)).getD maxPause) maxPause

def oneMore (strikes : Nat) : Nat := min (strikes + 1) u32Max

/-- The entry that a refusal finds or inserts. -/
def entryOr (entry : Option Pause) (now : Nat) : Pause := entry.getD ⟨now, 0, false⟩

/-- `hold`, with the seconds it returns. -/
def hold (entry : Option Pause) (now : Nat) (seconds : Int) (escalate : Bool) : Nat × Pause :=
  let pause := entryOr entry now
  let base := fromSeconds seconds
  if escalate && (pause.probing || pause.strikes == 0 || decide (pause.until_ ≤ now)) then
    let longer := longer base pause.strikes
    (wholeSeconds longer, ⟨now + longer, oneMore pause.strikes, false⟩)
  else (wholeSeconds base, { pause with until_ := max pause.until_ (now + base) })

def pauseLongerEachTime (entry : Option Pause) (now : Nat) (seconds : Int) : (Nat × Nat) × Pause :=
  let held := hold entry now seconds true
  ((held.1, held.2.strikes), held.2)

def pauseRefused (entry : Option Pause) (now : Nat) (seconds : Int) : (Nat × Nat) × Pause :=
  let pause := entryOr entry now
  let hold := min (fromSeconds seconds) maxPause
  let pause : Pause := ⟨max pause.until_ (now + hold), max pause.strikes 1, false⟩
  ((wholeSeconds (pause.until_ - now), pause.strikes), pause)

def restore (now remaining strikes : Nat) : Pause := ⟨now + min remaining maxPause, max strikes 1, false⟩

/-- `admit`, with the entry it leaves. -/
def admitKey (entry : Option Pause) (now : Nat) : Admission × Option Pause :=
  match entry with
  | none => (.opened, none)
  | some pause =>
    if pause.until_ - now ≠ 0 then (.paused (wholeSeconds (pause.until_ - now)), some pause)
    else if pause.strikes = 0 then (.opened, none)
    else (.probe, some { pause with until_ := now + probeHold, probing := true })

/-! ## Runs -/

/-- The operations of the application pauses; a success leaves no spacing. -/
inductive Op where
  | admitKey
  | pauseRefused (seconds : Int)
  | pauseLonger
  | restore (remaining strikes : Nat)
  | succeeded
  deriving DecidableEq

inductive Answer where
  | admission (answer : Admission)
  | refused (seconds strikes : Nat)
  | done
  deriving DecidableEq

def perform (entry : Option Pause) (now : Nat) : Op → Answer × Option Pause
  | .admitKey => ((admitKey entry now).1 |> .admission, (admitKey entry now).2)
  | .pauseRefused seconds =>
    let refused := pauseRefused entry now seconds
    (.refused refused.1.1 refused.1.2, some refused.2)
  | .pauseLonger =>
    let refused := pauseLongerEachTime entry now writePauseSeconds
    (.refused refused.1.1 refused.1.2, some refused.2)
  | .restore remaining strikes => (.done, some (restore now remaining strikes))
  | .succeeded => (.done, none)

structure WritePauses (K : Type) where
  now : Nat
  paused : K → Option Pause

structure Event (K : Type) where
  time : Nat
  key : K
  op : Op

variable {K : Type} [DecidableEq K]

def start : WritePauses K := ⟨0, fun _ => none⟩

def answer (w : WritePauses K) (e : Event K) : Answer := (perform (w.paused e.key) e.time e.op).1

def step (w : WritePauses K) (e : Event K) : Option (WritePauses K) :=
  if w.now ≤ e.time then
    some ⟨e.time, Function.update w.paused e.key (perform (w.paused e.key) e.time e.op).2⟩
  else none

end SC.Impl.SyncQueue.WritePause
