import SoundCloudBackend.Framework.Run
import SoundCloudBackend.Impl.Worker.Lease

/-!
# What may be done with a lease

The events of one lease, as a machine of its own that knows nothing of awaits: a `Ticket`
is opened by a delivery, answered by an acknowledged result or by the news of one, and
closed once. It is acked only when it is answered, nacked only before, and nothing is sent
for it after its window. `accept` takes one event; `tally_of_run` says what every accepted
list of events has.
-/

namespace SC.Proof.Worker

open Impl.Worker
open List

variable {κ : Type*}
variable {stage : Stage} {s : Settled}

inductive Stage where
  | new
  | opened
  | answered
  | nacking
  | closed (settled : Settled)
  deriving DecidableEq

namespace Stage

def running : Stage → Bool
  | opened | answered => true
  | new | nacking | closed _ => false

def settled : Stage → Option Settled
  | closed s => some s
  | new | opened | answered | nacking => none

def close : Stage → Settled → Bool
  | opened, .dropped => true
  | answered, .published => true
  | nacking, .nacked => true
  | nacking, .dropped => true
  | _, _ => false

theorem running_iff : stage.running ↔ stage = opened ∨ stage = answered := by
  cases stage <;> simp [running]

theorem close_iff : stage.close s ↔ stage = opened ∧ s = .dropped ∨ stage = answered ∧ s = .published ∨
      stage = nacking ∧ (s = .nacked ∨ s = .dropped) := by
  cases stage <;> cases s <;> simp [close]

end Stage

structure Task (κ : Type*) where
  window : Int
  streamSeq : Nat
  correlation : κ

structure Ticket where
  stage : Stage
  progressAt : Int

namespace Ticket

def start : Ticket := ⟨.new, 0⟩

variable [DecidableEq κ] (task : Task κ) (k : Ticket)

def accept : Event κ → Option Ticket
  | .delivered _ _ time => if k.stage = .new then some ⟨.opened, time⟩ else none
  | .adopted _ time => if k.stage.running then some ⟨k.stage, time⟩ else none
  | .progressed time => if k.stage.running then some ⟨k.stage, time⟩ else none
  | .inProgress time => if k.stage.running ∧ time - k.progressAt ≤ task.window then some k else none
  | .joined _ => if k.stage = .opened then some k else none
  | .told _ => if k.stage = .opened then some ⟨.answered, k.progressAt⟩ else none
  | .stored correlation _ _ acknowledged =>
    if k.stage = .opened ∧ correlation = task.correlation then
      some ⟨if acknowledged then .answered else .opened, k.progressAt⟩
    else none
  | .ack streamSeq => if k.stage = .answered ∧ streamSeq = task.streamSeq then some k else none
  | .nak _ _ time =>
    if k.stage = .opened ∧ time - k.progressAt ≤ task.window then some ⟨.nacking, k.progressAt⟩ else none
  | .settled s _ _ _ => if k.stage.close s then some ⟨.closed s, k.progressAt⟩ else none

end Ticket

/-! ## Reading a history -/

def isSettled : Event κ → Bool
  | .settled _ _ _ _ => true
  | _ => false

def isAck : Event κ → Bool
  | .ack _ => true
  | _ => false

def isNak : Event κ → Bool
  | .nak _ _ _ => true
  | _ => false

/-- The time of a delivery, an adoption or an `in_progress` that succeeded. -/
def progressTime : Event κ → Option Int
  | .delivered _ _ time => some time
  | .adopted _ time => some time
  | .progressed time => some time
  | _ => none

def lastProgress (es : List (Event κ)) : Option Int := (es.filterMap progressTime).getLast?

theorem lastProgress_append (es : List (Event κ)) (e : Event κ) :
    lastProgress (es ++ [e]) = (progressTime e).or (lastProgress es) := by
  unfold lastProgress
  rw [filterMap_append]
  cases h : progressTime e <;> simp [h]

/-- What an accepted history has when its ticket is at a stage. -/
structure Tally (task : Task κ) (es : List (Event κ)) (k : Ticket) : Prop where
  settled : es.countP isSettled = if k.stage.settled.isSome then 1 else 0
  naks : es.countP isNak ≤ if k.stage = .nacking ∨ k.stage = .closed .nacked ∨ k.stage = .closed .dropped then 1 else 0
  acks : k.stage ≠ .answered → k.stage ≠ .closed .published → es.countP isAck = 0
  answered : k.stage = .answered ∨ k.stage = .closed .published →
    (∃ streamSeq status, .stored task.correlation streamSeq status true ∈ es) ∨ ∃ owner, .told owner ∈ es
  untold : k.stage = .new ∨ k.stage = .opened → ∀ owner, .told owner ∉ es
  progress : k.stage ≠ .new → lastProgress es = some k.progressAt

theorem Tally.start (task : Task κ) : Tally task [] .start where
  settled := rfl
  naks := Nat.zero_le _
  acks _ _ := rfl
  answered h := by simp [Ticket.start] at h
  untold _ _ := not_mem_nil
  progress h := absurd rfl h

theorem countP_snoc (p : Event κ → Bool) (es : List (Event κ)) (e : Event κ) :
    (es ++ [e]).countP p = es.countP p + if p e then 1 else 0 := by
  rw [countP_append, countP_singleton]

variable [DecidableEq κ] {task : Task κ} {es : List (Event κ)} {e : Event κ} {k k' : Ticket}

section Accept

variable (ha : k.accept task e = some k')
include ha

/-- A closed ticket accepts nothing, and only a settlement closes one. -/
theorem accept_settled : k.stage.settled = none ∧ k'.stage.settled.isSome = isSettled e := by
  cases e <;> grind [Ticket.accept, Stage.settled, Stage.close_iff, Stage.running_iff, isSettled]

/-- A nak is sent once, before the ticket is closed without a result. -/
theorem accept_nak : (isNak e → k.stage = .opened ∧ k'.stage = .nacking) ∧
      (k.stage = .nacking → k'.stage = .closed .nacked ∨ k'.stage = .closed .dropped) := by
  cases e <;> grind [Ticket.accept, Stage.close_iff, Stage.running_iff, isNak]

/-- An answered ticket stays so until it is published, and only an answered one is acked. -/
theorem accept_ack (hanswered : k'.stage ≠ .answered) (hpublished : k'.stage ≠ .closed .published) :
    isAck e = false ∧ k.stage ≠ .answered ∧ k.stage ≠ .closed .published := by
  cases e <;> grind [Ticket.accept, Stage.close_iff, Stage.running_iff, isAck]

/-- A ticket is answered by an acknowledged result of its key, or by the news of one. -/
theorem accept_answered (h : k'.stage = .answered ∨ k'.stage = .closed .published) :
    k.stage = .answered ∨ (∃ streamSeq status, e = .stored task.correlation streamSeq status true) ∨
      ∃ owner, e = .told owner := by
  cases e <;> grind [Ticket.accept, Stage.close_iff, Stage.running_iff]

theorem accept_untold (h : k'.stage = .new ∨ k'.stage = .opened) :
    (k.stage = .new ∨ k.stage = .opened) ∧ ∀ owner, e ≠ .told owner := by
  cases e <;> grind [Ticket.accept, Stage.close_iff, Stage.running_iff]

/-- The ticket keeps the time of the last event that was progress; the first one is. -/
theorem accept_progress :
    progressTime e = some k'.progressAt ∨ progressTime e = none ∧ k.stage ≠ .new ∧ k'.progressAt = k.progressAt := by
  cases e <;> grind [Ticket.accept, Stage.close_iff, Stage.running_iff, progressTime]

end Accept

theorem Tally.accept (h : Tally task es k) (ha : k.accept task e = some k') : Tally task (es ++ [e]) k' := by
  obtain ⟨hopen, hsettled⟩ := accept_settled ha
  obtain ⟨hnak, hnacking⟩ := accept_nak ha
  refine ⟨?_, ?_, fun hne hne' => ?_, fun hanswered => ?_, fun hearly owner hmem => ?_, fun _ => ?_⟩
  · rw [countP_snoc, h.settled, hopen, hsettled]
    exact Nat.zero_add _
  · have hle := h.naks
    rw [countP_snoc]
    by_cases he : isNak e
    · obtain ⟨hbefore, hafter⟩ := hnak he
      rw [hbefore, if_neg (by decide)] at hle
      rw [if_pos he, if_pos (.inl hafter)]
      exact Nat.succ_le_succ hle
    · rw [if_neg he]
      refine Nat.le_trans hle ?_
      split_ifs with hbefore hafter
      · exact Nat.le_refl _
      · obtain hbefore | hbefore | hbefore := hbefore
        · exact absurd (.inr (hnacking hbefore)) hafter
        all_goals rw [hbefore] at hopen; cases hopen
      all_goals exact Nat.zero_le _
  · obtain ⟨he, hbefore⟩ := accept_ack ha hne hne'
    rw [countP_snoc, h.acks hbefore.1 hbefore.2, he]
    rfl
  · obtain hbefore | ⟨streamSeq, status, rfl⟩ | ⟨owner, rfl⟩ := accept_answered ha hanswered
    · exact (h.answered (.inl hbefore)).imp (fun ⟨streamSeq, status, hs⟩ => ⟨streamSeq, status, mem_append_left _ hs⟩)
        fun ⟨owner, ho⟩ => ⟨owner, mem_append_left _ ho⟩
    · exact .inl ⟨streamSeq, status, mem_append_right _ (mem_singleton_self _)⟩
    · exact .inr ⟨owner, mem_append_right _ (mem_singleton_self _)⟩
  · obtain ⟨hbefore, he⟩ := accept_untold ha hearly
    obtain hmem | hmem := mem_append.1 hmem
    · exact h.untold hbefore owner hmem
    · exact he owner (mem_singleton.1 hmem).symm
  · rw [lastProgress_append]
    obtain he | ⟨he, hbefore, hsame⟩ := accept_progress ha
    · rw [he]
      rfl
    · rw [he, hsame, h.progress hbefore]
      rfl

theorem tally_of_run (h : run (Ticket.accept task) .start es = some k) : Tally task es k :=
  run_trace (I := Tally task) Tally.accept (Tally.start task) h

theorem run_closed {progressAt : Int}
    (h : run (Ticket.accept task) ⟨.closed s, progressAt⟩ es = some k) : k = ⟨.closed s, progressAt⟩ := by
  cases es with
  | nil => exact (Option.some.inj h).symm
  | cons e es =>
    have hnone : Ticket.accept task ⟨.closed s, progressAt⟩ e = none := by
      cases e <;> simp [Ticket.accept, Stage.running, Stage.close]
    simp [hnone] at h

end SC.Proof.Worker
