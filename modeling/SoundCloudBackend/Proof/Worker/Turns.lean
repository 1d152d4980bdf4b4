import SoundCloudBackend.Impl.Worker.Handler
import SoundCloudBackend.Proof.Worker.Ticket

/-!
# Turns follow the ticket

Whatever a call of `handle` does between two awaits, the events of its lease are accepted
by a `Ticket`, and the await it stands at tells how far the ticket is (`Allows`). There is
one lemma for each function of the handler; `advance_kept` puts them together.
-/

namespace SC.Proof.Worker

open Impl.Worker
open List Option

variable {κ : Type*}
variable {abort : Bool} {e : Event κ} {phase : Phase}

def Allows (stage : Stage) (beat : Beat) : Phase → Prop
  | .joining _ | .processing _ | .stopping _ | .cancelling | .publishing _ _ | .blocked _ _ => stage = .opened
  | .acking _ _ _ _ => stage = .answered
  | .closing _ => beat = .over ∧ (stage = .opened ∨ ∃ s, stage = .closed s)
  | .ended _ => beat = .over ∧ ∃ s, stage = .closed s

def taskOf (lane : Lane) (lease : Lease κ) : Task κ := ⟨lane.window, lease.streamSeq, lease.correlation⟩

variable {lane : Lane} {t : Turn κ}

/-! ## Turns by their await -/

/-- What a turn can do to the connection: it is trusted again, or suspected. -/
inductive Trusted (c : Connection) : Connection → Prop
  | same : Trusted c c
  | trust : Trusted c c.trust
  | suspect : Trusted c c.suspectIfConnected

/-- The turns of `advance`, with what is known of the await they start from. -/
inductive Did (lane : Lane) (t : Turn κ) : Move → Turn κ → Prop
  | looked {m : Move} :
    t.phase.runsWork → Did lane t m (if t.isStale lane then { t.markStale lane with sawStale := true } else t)
  | beat {m : Move} : t.beat ≠ .over → Did lane t m (t.heartbeat lane)
  | beatAnswer {m : Move} {ok : Bool} : t.beat ≠ .over → Did lane t m (t.beatAnswer lane ok)
  | went {m : Move} {phase : Phase} : t.phase.working → phase.working → (∀ job p, phase ≠ .publishing job p) →
    Did lane t m (t.goto phase)
  | took {encoding : Encoding} {nakOk : Bool} {worked : Worked} :
    t.phase = .stopping (some worked) → Did lane t (.resume encoding nakOk) (t.takeOutcome lane encoding nakOk worked)
  | aborted {m : Move} {encoding : Encoding} {nakOk : Bool} :
    t.phase = .cancelling → Did lane t m (t.abortOutcome lane encoding nakOk)
  | publishAgain {m : Move} {nakOk : Bool} {job : Job} {p : Publish} :
    t.phase = .publishing job p → Did lane t m (t.publishAgain lane nakOk job p)
  | pubAnswer {m : Move} {nakOk : Bool} {job : Job} {p : Publish} {answer : Turn.PubAnswer} :
    t.phase = .publishing job p → Did lane t m (t.pubAnswer lane nakOk job p answer)
  | probed {m : Move} {outcome : Outcome} {wakeAt : Int} :
    t.phase = .blocked outcome wakeAt → Did lane t m (t.publishCompact lane outcome)
  | ackLoop {m : Move} {site : AckSite} {attempt : Nat} {giveUpAt : Int} {wait : AckWait} {c : Connection} :
    t.phase = .acking site attempt giveUpAt wait → Trusted t.connection c →
    Did lane t m (({ t with connection := c } : Turn κ).ackLoop lane site attempt giveUpAt)
  | acked {m : Move} {site : AckSite} {attempt : Nat} {giveUpAt : Int} {wait : AckWait} {c : Connection} :
    t.phase = .acking site attempt giveUpAt wait → Trusted t.connection c →
    Did lane t m (({ t with connection := c } : Turn κ).acked lane)
  | ackPaused {m : Move} {site : AckSite} {attempt : Nat} {giveUpAt : Int} {wait wait' : AckWait} :
    t.phase = .acking site attempt giveUpAt wait → Did lane t m (t.goto (.acking site attempt giveUpAt wait'))
  | finished {m : Move} {fault : Option Fault} :
    t.phase = .closing fault → Did lane t m ((t.settle lane .dropped).goto (.ended fault))

theorem did_of_advance {m : Move} {t' : Turn κ} (hm : t.advance lane abort m = some t') : Did lane t m t' := by
  cases m with
  | dropIfStale =>
    simp only [Turn.advance, ite_none_right_eq_some, some.injEq] at hm
    obtain ⟨hp, rfl⟩ := hm
    exact .looked hp
  | work worked =>
    simp only [Turn.advance] at hm
    split at hm <;> cases hm
    rename_i hp
    exact .went (hp ▸ rfl) rfl fun _ _ => Phase.noConfusion
  | waited =>
    simp only [Turn.advance] at hm
    split at hm
    · rename_i work hp
      simp only [ite_none_right_eq_some, some.injEq] at hm
      obtain ⟨-, rfl⟩ := hm
      exact .went (hp ▸ rfl) rfl fun _ _ => Phase.noConfusion
    · cases hm
  | resume encoding nakOk =>
    simp only [Turn.advance] at hm
    split at hm <;> cases hm
    · rename_i worked hp
      exact .took hp
    · rename_i hp
      exact .went (hp ▸ rfl) rfl fun _ _ => Phase.noConfusion
  | cancelled encoding nakOk =>
    simp only [Turn.advance] at hm
    split at hm <;> cases hm
    rename_i hp
    exact .aborted hp
  | reconnect nakOk =>
    simp only [Turn.advance] at hm
    split at hm <;> cases hm
    rename_i hp
    exact .publishAgain hp
  | puback answer nakOk =>
    simp only [Turn.advance] at hm
    split at hm <;> cases hm
    rename_i hp
    exact .pubAnswer hp
  | backoff nakOk =>
    simp only [Turn.advance] at hm
    split at hm
    · rename_i hp
      simp only [ite_none_right_eq_some, some.injEq] at hm
      obtain ⟨-, rfl⟩ := hm
      exact .publishAgain hp
    · cases hm
  | probe =>
    simp only [Turn.advance] at hm
    split at hm
    · rename_i hp
      simp only [ite_none_right_eq_some, some.injEq] at hm
      obtain ⟨-, rfl⟩ := hm
      exact .probed hp
    · cases hm
  | ackReconnect =>
    simp only [Turn.advance] at hm
    split at hm <;> cases hm
    rename_i hp
    split
    · exact .ackLoop hp .same
    · exact .acked hp .same
  | ackAnswer answer =>
    simp only [Turn.advance] at hm
    split at hm
    · rename_i hp
      cases answer with
      | ok =>
        cases hm
        exact .acked hp .trust
      | timedOut =>
        cases hm
        exact .ackLoop hp .suspect
      | failed =>
        cases hm
        split
        · exact .ackPaused hp
        · exact .acked hp .same
    · cases hm
  | ackPause =>
    simp only [Turn.advance] at hm
    split at hm
    · rename_i hp
      simp only [ite_none_right_eq_some, some.injEq] at hm
      obtain ⟨-, rfl⟩ := hm
      exact .ackLoop hp .same
    · cases hm
  | finish =>
    simp only [Turn.advance] at hm
    split at hm <;> cases hm
    rename_i hp
    exact .finished hp
  | beat =>
    simp only [Turn.advance] at hm
    split at hm
    · rename_i hb
      simp only [ite_none_right_eq_some, some.injEq] at hm
      obtain ⟨-, rfl⟩ := hm
      exact .beat (by simp [hb])
    · cases hm
  | beatAnswer ok =>
    simp only [Turn.advance] at hm
    split at hm <;> cases hm
    rename_i hb
    exact .beatAnswer (by simp [hb])

theorem silent_le (h : t.isStale lane = false) : t.now - t.lease.lastProgressAt ≤ lane.window := by
  simp only [Turn.isStale, Lease.isStale, Bool.or_eq_false_iff, Bool.not_eq_false', Bool.and_eq_true,
    decide_eq_true_eq] at h
  exact h.2.1

theorem heartbeat_phase : (t.heartbeat lane).phase = t.phase := by
  unfold Turn.heartbeat
  split
  · rfl
  · split
    · rfl
    · split <;> rfl

theorem beatAnswer_phase (ok : Bool) : (t.beatAnswer lane ok).phase = t.phase := by
  cases ok <;> rfl

theorem settle_beat (s : Settled) : (t.settle lane s).beat = t.beat := by
  unfold Turn.settle
  split <;> rfl

theorem acked_working : (t.acked lane).phase.working = false := rfl

theorem ackLoop_working (site : AckSite) (attempt : Nat) (giveUpAt : Int) :
    (t.ackLoop lane site attempt giveUpAt).phase.working = false := by
  unfold Turn.ackLoop
  split
  · split
    · rfl
    · split <;> rfl
  · rfl

theorem ack_working (site : AckSite) : (t.ack lane site).phase.working = false := by
  unfold Turn.ack
  split
  · rfl
  · exact ackLoop_working site _ _

variable [DecidableEq κ] {task : Task κ} {past news : List (Event κ)} {stage stage' : Stage}

/-- The events of a turn so far, after those of the `past`, lead the ticket of the lease to `stage`. The turn learns of no
owner beyond `news`. -/
structure Begun (lane : Lane) (task : Task κ) (past news : List (Event κ)) (t : Turn κ) (stage : Stage) : Prop where
  task_eq : taskOf lane t.lease = task
  follows : run (Ticket.accept task) .start (past ++ t.events) = some ⟨stage, t.lease.lastProgressAt⟩
  settled : t.lease.settled = stage.settled
  told : ∀ owner, .told owner ∈ t.events → .told owner ∈ news

/-- A turn that has come to an await where its ticket may be. -/
structure Fine (lane : Lane) (task : Task κ) (past news : List (Event κ)) (t : Turn κ) : Prop where
  begun : ∃ stage, Begun lane task past news t stage ∧ Allows stage t.beat t.phase
  alone : ∀ owner, t.phase ≠ .joining owner

namespace Begun

theorem emit (h : Begun lane task past news t stage)
    (he : Ticket.accept task ⟨stage, t.lease.lastProgressAt⟩ e = some ⟨stage', t.lease.lastProgressAt⟩)
    (hs : stage'.settled = stage.settled) (hn : ∀ owner, e = .told owner → .told owner ∈ news) :
    Begun lane task past news (t.emit e) stage' where
  task_eq := h.task_eq
  follows := by
    show run (Ticket.accept task) .start (past ++ (t.events ++ [e])) = some ⟨stage', t.lease.lastProgressAt⟩
    rw [← append_assoc, run_append, h.follows]
    simp [he]
  settled := h.settled.trans hs.symm
  told owner ho := by
    obtain ho | ho := mem_append.1 ho
    · exact h.told owner ho
    · exact hn owner (mem_singleton.1 ho).symm

theorem markStale (h : Begun lane task past news t stage) : Begun lane task past news (t.markStale lane) stage :=
  ⟨h.task_eq, h.follows, h.settled, h.told⟩

theorem goto (h : Begun lane task past news t stage) (phase : Phase) : Begun lane task past news (t.goto phase) stage :=
  ⟨h.task_eq, h.follows, h.settled, h.told⟩

theorem connection (h : Begun lane task past news t stage) (c : Connection) :
    Begun lane task past news { t with connection := c } stage :=
  ⟨h.task_eq, h.follows, h.settled, h.told⟩

theorem beat (h : Begun lane task past news t stage) (beat : Beat) :
    Begun lane task past news { t with beat := beat } stage :=
  ⟨h.task_eq, h.follows, h.settled, h.told⟩

theorem settle {s : Settled} (h : Begun lane task past news t stage) (hc : stage.close s) :
    Begun lane task past news (t.settle lane s) (.closed s) := by
  have hopen : t.lease.settled.isSome = false := by
    rw [h.settled]
    obtain ⟨rfl, -⟩ | ⟨rfl, -⟩ | ⟨rfl, -⟩ := Stage.close_iff.1 hc <;> rfl
  unfold Turn.settle
  rw [if_neg (by simp [hopen])]
  refine ⟨h.task_eq, ?_, rfl, ?_⟩
  · show run (Ticket.accept task) .start (past ++ (t.events ++ [_])) = _
    rw [← append_assoc, run_append, h.follows]
    simp [Ticket.accept, hc]
  · intro owner ho
    obtain ho | ho := mem_append.1 ho
    · exact h.told owner ho
    · cases mem_singleton.1 ho

theorem leave (h : Begun lane task past news t stage) (hs : stage = .opened ∨ ∃ s, stage = .closed s)
    (fault : Option Fault) : Fine lane task past news (t.leave fault) where
  begun := ⟨stage, ⟨h.task_eq, h.follows, h.settled, h.told⟩, rfl, hs⟩
  alone _ := Phase.noConfusion

theorem fine (h : Begun lane task past news t .opened) (hp : phase.working) :
    Fine lane task past news (t.goto phase) where
  begun := by
    refine ⟨.opened, h.goto phase, ?_⟩
    cases phase <;> first | rfl | cases hp
  alone owner ho := by
    have : phase = .joining owner := ho
    rw [this] at hp
    cases hp

theorem unsettled (h : Begun lane task past news t stage) (hs : stage.settled = none) : t.lease.settled.isSome = false := by
  rw [h.settled, hs]
  rfl

end Begun

/-! ## Lease -/

theorem Begun.window (h : Begun lane task past news t stage) : task.window = lane.window := by
  rw [← h.task_eq]
  rfl

theorem releaseTransient_fine (h : Begun lane task past news t .opened) (delay : Int) (nakOk : Bool) :
    Fine lane task past news (t.releaseTransient lane delay nakOk) := by
  unfold Turn.releaseTransient
  rw [if_neg (by simp [h.unsettled rfl])]
  split
  · exact (h.markStale.settle rfl).leave (.inr ⟨_, rfl⟩) _
  · rename_i hup
    simp only [Bool.or_eq_true, not_or, Bool.not_eq_true] at hup
    split
    · exact h.leave (.inl rfl) _
    · -- the lease is not stale, so the nak is within the window
      have hnak : Begun lane task past news (t.emit (.nak t.lease.numDelivered delay t.now)) .nacking :=
        h.emit (by simp [Ticket.accept, h.window, silent_le hup.1.1]) rfl (by simp)
      cases nakOk with
      | true | false => exact (hnak.settle rfl).leave (.inr ⟨_, rfl⟩) _

theorem release_fine (h : Begun lane task past news t .opened) (nakOk : Bool) :
    Fine lane task past news (t.release lane nakOk) :=
  releaseTransient_fine h _ nakOk

theorem acked_fine (h : Begun lane task past news t .answered) : Fine lane task past news (t.acked lane) :=
  (h.settle rfl).leave (.inr ⟨_, rfl⟩) none

theorem ackLoop_fine (h : Begun lane task past news t .answered) (site : AckSite) (attempt : Nat) (giveUpAt : Int) :
    Fine lane task past news (t.ackLoop lane site attempt giveUpAt) := by
  unfold Turn.ackLoop
  split
  · split
    · have hseq : t.lease.streamSeq = task.streamSeq := congrArg Task.streamSeq h.task_eq
      have hack : Begun lane task past news (t.emit (.ack t.lease.streamSeq)) .answered :=
        h.emit (by simp [Ticket.accept, hseq]) rfl (by simp)
      exact ⟨⟨_, hack.goto _, rfl⟩, fun _ => Phase.noConfusion⟩
    · split
      · exact acked_fine h
      · exact ⟨⟨_, h.goto _, rfl⟩, fun _ => Phase.noConfusion⟩
  · exact acked_fine h

theorem ack_fine (h : Begun lane task past news t .answered) (site : AckSite) :
    Fine lane task past news (t.ack lane site) := by
  unfold Turn.ack
  rw [if_neg (by simp [h.unsettled rfl])]
  exact ackLoop_fine h site _ _

/-! ## Publishing -/

theorem publishTimedOut_fine (h : Begun lane task past news t .opened) (nakOk : Bool) (outcome : Outcome)
    (e : PublishError) : Fine lane task past news (t.publishTimedOut lane nakOk outcome e) := by
  unfold Turn.publishTimedOut
  split
  · exact release_fine h nakOk
  · split
    · exact h.fine rfl
    · exact release_fine h nakOk

theorem publishResult_fine (h : Begun lane task past news t .opened) (nakOk : Bool) (outcome : Outcome) :
    Fine lane task past news (t.publishResult lane nakOk outcome) := by
  unfold Turn.publishResult
  split
  · exact h.fine rfl
  · exact publishTimedOut_fine h nakOk outcome _

theorem publishCompact_fine (h : Begun lane task past news t .opened) (outcome : Outcome) :
    Fine lane task past news (t.publishCompact lane outcome) := by
  unfold Turn.publishCompact
  split
  · exact h.fine rfl
  · exact h.leave (.inl rfl) none

theorem publishFailed_fine (h : Begun lane task past news t .opened) (nakOk : Bool) (job : Job) (e : PublishError) :
    Fine lane task past news (t.publishFailed lane nakOk job e) := by
  cases job with
  | result outcome => exact publishTimedOut_fine h nakOk outcome e
  | compact outcome => exact h.leave (.inl rfl) none

theorem publishAgain_fine (h : Begun lane task past news t .opened) (nakOk : Bool) (job : Job) (p : Publish) :
    Fine lane task past news (t.publishAgain lane nakOk job p) := by
  unfold Turn.publishAgain
  split
  · exact h.fine rfl
  · exact publishFailed_fine h nakOk job _

theorem publishBackoff_fine (h : Begun lane task past news t .opened) (nakOk : Bool) (job : Job) (p : Publish) :
    Fine lane task past news (t.publishBackoff lane nakOk job p) := by
  unfold Turn.publishBackoff
  split
  · exact publishFailed_fine h nakOk job _
  · exact h.fine rfl

theorem Begun.store (h : Begun lane task past news t .opened) (job : Job) (acknowledged : Bool) :
    Begun lane task past news (t.store job acknowledged) (if acknowledged then .answered else .opened) := by
  have hkey : t.lease.correlation = task.correlation := congrArg Task.correlation h.task_eq
  refine h.emit (by simp [Ticket.accept, hkey]) ?_ (by simp)
  cases acknowledged <;> rfl

theorem Begun.storeIf (h : Begun lane task past news t .opened) (stored : Bool) (job : Job) :
    Begun lane task past news (t.storeIf stored job) .opened := by
  cases stored with
  | true => exact h.store job false
  | false => exact h

theorem pubAnswer_fine (h : Begun lane task past news t .opened) (nakOk : Bool) (job : Job) (p : Publish)
    (answer : Turn.PubAnswer) : Fine lane task past news (t.pubAnswer lane nakOk job p answer) := by
  cases answer with
  | acked => exact ack_fine ((h.store job true).connection _) .published
  | rejected =>
    cases job with
    | result outcome => exact publishCompact_fine h _
    | compact outcome => exact h.fine rfl
  | timedOut stored => exact publishBackoff_fine ((h.storeIf stored job).connection _) nakOk job p
  | failed stored => exact publishBackoff_fine (h.storeIf stored job) nakOk job p

/-! ## The outcome -/

theorem publishAndAck_fine (h : Begun lane task past news t .opened) (encoding : Encoding) (nakOk : Bool)
    (outcome : Outcome) : Fine lane task past news (t.publishAndAck lane encoding nakOk outcome) :=
  publishResult_fine h nakOk _

theorem retryOr_fine (h : Begun lane task past news t .opened) (encoding : Encoding) (nakOk : Bool)
    (outcome : Outcome) : Fine lane task past news (t.retryOr lane encoding nakOk outcome) := by
  unfold Turn.retryOr
  split
  · exact publishAndAck_fine h encoding nakOk outcome
  · exact release_fine h nakOk

theorem takeOutcome_fine (h : Begun lane task past news t .opened) (encoding : Encoding) (nakOk : Bool)
    (worked : Worked) : Fine lane task past news (t.takeOutcome lane encoding nakOk worked) := by
  cases worked with
  | dropped => exact (h.settle rfl).leave (.inr ⟨_, rfl⟩) none
  | transient reason hr => exact retryOr_fine h encoding nakOk _
  | permanent reason hr => exact publishAndAck_fine h encoding nakOk _
  | crashed => exact retryOr_fine h encoding nakOk _
  | outcome outcome =>
    simp only [Turn.takeOutcome]
    split
    · exact retryOr_fine h encoding nakOk outcome
    · exact publishAndAck_fine h encoding nakOk outcome

theorem abortOutcome_fine (h : Begun lane task past news t .opened) (encoding : Encoding) (nakOk : Bool) :
    Fine lane task past news (t.abortOutcome lane encoding nakOk) := by
  unfold Turn.abortOutcome
  split
  · exact releaseTransient_fine h _ nakOk
  · exact publishAndAck_fine h encoding nakOk _

/-! ## The heartbeat and redeliveries -/

theorem Begun.beatLoop (h : Begun lane task past news t stage) : Begun lane task past news (t.beatLoop lane) stage :=
  h.beat _

theorem Begun.progress (h : Begun lane task past news t stage) {lease : Lease κ}
    (hl : taskOf lane lease = taskOf lane t.lease) (hs : lease.settled = t.lease.settled)
    (he : Ticket.accept task ⟨stage, t.lease.lastProgressAt⟩ e = some ⟨stage, lease.lastProgressAt⟩)
    (hn : ∀ owner, e ≠ .told owner) :
    Begun lane task past news { t with lease := lease, events := t.events ++ [e] } stage where
  task_eq := hl.trans h.task_eq
  follows := by
    rw [← append_assoc, run_append, h.follows]
    simp [he]
  settled := hs.trans h.settled
  told owner ho := by
    obtain ho | ho := mem_append.1 ho
    · exact h.told owner ho
    · exact absurd (mem_singleton.1 ho).symm (hn owner)

theorem Begun.adopt (h : Begun lane task past news t stage) (hr : stage.running) (numDelivered : Nat) :
    Begun lane task past news (t.adopt numDelivered) stage :=
  h.progress rfl rfl (by simp [Ticket.accept, hr]) (by simp)

theorem Begun.heartbeat (h : Begun lane task past news t stage) (hr : stage.running) :
    Begun lane task past news (t.heartbeat lane) stage := by
  unfold Turn.heartbeat
  split
  · exact h.beatLoop
  · split
    · exact h.markStale.beatLoop
    · rename_i hstale
      split
      · exact h.beatLoop
      · have hsilent := silent_le (Bool.eq_false_iff.2 hstale)
        exact (h.emit (by simp [Ticket.accept, hr, h.window, hsilent]) rfl (by simp)).beat _

theorem Begun.beatAnswer (h : Begun lane task past news t stage) (hr : stage.running) (ok : Bool) :
    Begun lane task past news (t.beatAnswer lane ok) stage := by
  cases ok with
  | true =>
    have hbeat : Begun lane task past news
        { t with lease := { t.lease with lastProgressAt := t.now }, events := t.events ++ [.progressed t.now] } stage :=
      h.progress rfl rfl (by simp [Ticket.accept, hr]) (by simp)
    exact hbeat.beatLoop
  | false => exact h.beatLoop

/-! ## All turns -/

/-- What a turn keeps: its events follow the ticket, and a call never joins or works again. -/
structure Kept (lane : Lane) (task : Task κ) (past : List (Event κ)) (t t' : Turn κ) : Prop where
  begun : ∃ stage, Begun lane task past [] t' stage ∧ Allows stage t'.beat t'.phase
  joining : ∀ owner, t'.phase = .joining owner → t.phase = .joining owner
  working : t'.phase.working → t.phase.working

variable {t' : Turn κ}

theorem Fine.kept (h : Fine lane task past [] t') (hw : t'.phase.working → t.phase.working) : Kept lane task past t t' :=
  ⟨h.begun, fun owner ho => absurd ho (h.alone owner), hw⟩

theorem Allows.running {beat : Beat} (h : Allows stage beat phase) (hb : beat ≠ .over) : stage.running := by
  cases phase with
  | closing fault | ended fault => exact absurd h.1 hb
  | _ => rw [h]; rfl

theorem Allows.beat {beat beat' : Beat} {phase : Phase} (h : Allows stage beat phase) (hb : beat ≠ .over) :
    Allows stage beat' phase := by
  cases phase with
  | closing fault | ended fault => exact absurd h.1 hb
  | _ => exact h

theorem Allows.opened {beat : Beat} (h : Allows stage beat phase) (hp : phase.working) : stage = .opened := by
  cases phase with
  | joining | acking | closing | ended => cases hp
  | _ => exact h

theorem Begun.finished {fault : Option Fault} (h : Begun lane task past [] t stage)
    (ha : Allows stage t.beat (.closing fault)) : Kept lane task past t ((t.settle lane .dropped).goto (.ended fault)) := by
  obtain ⟨hb, rfl | ⟨s, rfl⟩⟩ := ha
  · exact ⟨⟨_, (h.settle rfl).goto _, (settle_beat .dropped).trans hb, _, rfl⟩, fun _ => Phase.noConfusion,
      fun hw => absurd hw Bool.false_ne_true⟩
  · have hsame : t.settle lane .dropped = t := by
      unfold Turn.settle
      rw [if_pos (by rw [h.settled]; rfl)]
    rw [hsame]
    exact ⟨⟨_, h.goto _, hb, _, rfl⟩, fun _ => Phase.noConfusion, fun hw => absurd hw Bool.false_ne_true⟩

theorem Begun.kept_beat (h : Begun lane task past [] t' stage) (ha : Allows stage t.beat t.phase) (hb : t.beat ≠ .over)
    (hp : t'.phase = t.phase) : Kept lane task past t t' where
  begun := ⟨stage, h, hp ▸ ha.beat hb⟩
  joining _ ho := hp ▸ ho
  working hw := hp ▸ hw

theorem advance_kept {m : Move} (h : Begun lane task past [] t stage)
    (ha : Allows stage t.beat t.phase) (hm : t.advance lane abort m = some t') : Kept lane task past t t' := by
  cases did_of_advance hm with
  | looked hp =>
    split
    · exact ⟨⟨stage, ⟨h.task_eq, h.follows, h.settled, h.told⟩, ha⟩, fun _ => id, id⟩
    · exact ⟨⟨stage, h, ha⟩, fun _ => id, id⟩
  | beat hb => exact (h.heartbeat (ha.running hb)).kept_beat ha hb heartbeat_phase
  | beatAnswer hb => exact (h.beatAnswer (ha.running hb) _).kept_beat ha hb (beatAnswer_phase _)
  | went hp hp' hpub =>
    cases ha.opened hp
    exact (h.fine hp').kept fun _ => hp
  | took hp =>
    cases ha.opened (hp ▸ rfl)
    exact (takeOutcome_fine h _ _ _).kept fun _ => hp ▸ rfl
  | aborted hp =>
    cases ha.opened (hp ▸ rfl)
    exact (abortOutcome_fine h _ _).kept fun _ => hp ▸ rfl
  | publishAgain hp =>
    cases ha.opened (hp ▸ rfl)
    exact (publishAgain_fine h _ _ _).kept fun _ => hp ▸ rfl
  | pubAnswer hp =>
    cases ha.opened (hp ▸ rfl)
    exact (pubAnswer_fine h _ _ _ _).kept fun _ => hp ▸ rfl
  | probed hp =>
    cases ha.opened (hp ▸ rfl)
    exact (publishCompact_fine h _).kept fun _ => hp ▸ rfl
  | ackLoop hp =>
    rw [hp] at ha
    cases ha
    exact (ackLoop_fine (h.connection _) _ _ _).kept fun hw => absurd hw (by simp [ackLoop_working])
  | acked hp =>
    rw [hp] at ha
    cases ha
    exact (acked_fine (h.connection _)).kept fun hw => absurd hw (by simp [acked_working])
  | ackPaused hp =>
    rw [hp] at ha
    cases ha
    exact ⟨⟨_, h.goto _, rfl⟩, fun _ => Phase.noConfusion, fun hw => absurd hw Bool.false_ne_true⟩
  | finished hp => exact h.finished (hp ▸ ha)

end SC.Proof.Worker
