import SoundCloudBackend.Proof.Worker.Lane

/-!
# No call is stuck

From every reachable state the lane can still end all its calls: once the connection is
closed, every await of a call leads to its end (`Ends`), and a joined call finds its owner
settled after the others have ended. A call that has ended has settled its lease.
-/

namespace SC.Proof.Worker

open Impl.Worker
open List Option

variable {κ : Type*} {lane : Lane} {t : Turn κ}
variable {work : Option Worked} {before after : List (Nat × Event κ)} {e : Event κ}

/-! ## Turns without a connection -/

def Down (c : Connection) : Prop := c.closed = true ∧ c.isConnected = false

/-- A turn after which the call has only to finish. -/
def Leaves (t : Turn κ) : Prop := (∃ fault, t.phase = .closing fault) ∧ Down t.connection

theorem leaves_leave (hd : Down t.connection) (fault : Option Fault) : Leaves (t.leave fault) := ⟨⟨fault, rfl⟩, hd⟩

theorem settle_connection (s : Settled) : (t.settle lane s).connection = t.connection := by
  unfold Turn.settle
  split <;> rfl

theorem leaves_settle (hd : Down t.connection) (s : Settled) (fault : Option Fault) :
    Leaves ((t.settle lane s).leave fault) :=
  leaves_leave (by rwa [settle_connection]) fault

theorem releaseTransient_leaves (hd : Down t.connection) (delay : Int) (nakOk : Bool) :
    Leaves (t.releaseTransient lane delay nakOk) := by
  unfold Turn.releaseTransient
  split
  · exact leaves_leave hd _
  · split
    · exact leaves_settle (t := t.markStale lane) hd _ _
    · split
      · exact leaves_leave hd _
      · exact leaves_settle (t := t.emit _) hd _ _

theorem publishLoop_down (hd : Down t.connection) (p : Publish) : t.publishLoop p = .error .connectionClosed := by
  simp [Turn.publishLoop, Turn.checkGiveUp, hd.1, hd.2]

theorem publishTimedOut_leaves (hd : Down t.connection) (nakOk : Bool) (outcome : Outcome) :
    Leaves (t.publishTimedOut lane nakOk outcome .connectionClosed) := by
  unfold Turn.publishTimedOut
  rw [if_pos (.inl rfl)]
  exact releaseTransient_leaves hd _ _

theorem publishFailed_leaves (hd : Down t.connection) (nakOk : Bool) (job : Job) :
    Leaves (t.publishFailed lane nakOk job .connectionClosed) := by
  cases job with
  | result outcome => exact publishTimedOut_leaves hd nakOk outcome
  | compact outcome => exact leaves_leave hd none

theorem publishAgain_leaves (hd : Down t.connection) (nakOk : Bool) (job : Job) (p : Publish) :
    Leaves (t.publishAgain lane nakOk job p) := by
  unfold Turn.publishAgain
  rw [publishLoop_down hd]
  exact publishFailed_leaves hd nakOk job

theorem publishAndAck_leaves (hd : Down t.connection) (encoding : Encoding) (nakOk : Bool) (outcome : Outcome) :
    Leaves (t.publishAndAck lane encoding nakOk outcome) := by
  unfold Turn.publishAndAck Turn.publishResult Turn.publish
  rw [publishLoop_down hd]
  exact publishTimedOut_leaves hd nakOk _

theorem publishCompact_leaves (hd : Down t.connection) (outcome : Outcome) : Leaves (t.publishCompact lane outcome) := by
  unfold Turn.publishCompact Turn.publish
  rw [publishLoop_down hd]
  exact leaves_leave hd none

theorem retryOr_leaves (hd : Down t.connection) (encoding : Encoding) (nakOk : Bool) (outcome : Outcome) :
    Leaves (t.retryOr lane encoding nakOk outcome) := by
  unfold Turn.retryOr
  split
  · exact publishAndAck_leaves hd encoding nakOk outcome
  · exact releaseTransient_leaves hd _ _

theorem takeOutcome_leaves (hd : Down t.connection) (encoding : Encoding) (nakOk : Bool) (worked : Worked) :
    Leaves (t.takeOutcome lane encoding nakOk worked) := by
  cases worked with
  | dropped => exact leaves_settle hd .dropped none
  | transient reason hr => exact retryOr_leaves hd encoding nakOk _
  | permanent reason hr => exact publishAndAck_leaves hd encoding nakOk _
  | crashed => exact retryOr_leaves hd encoding nakOk _
  | outcome outcome =>
    simp only [Turn.takeOutcome]
    split
    · exact retryOr_leaves hd encoding nakOk outcome
    · exact publishAndAck_leaves hd encoding nakOk outcome

theorem abortOutcome_leaves (hd : Down t.connection) (encoding : Encoding) (nakOk : Bool) :
    Leaves (t.abortOutcome lane encoding nakOk) := by
  unfold Turn.abortOutcome
  split
  · exact releaseTransient_leaves hd _ _
  · exact publishAndAck_leaves hd encoding nakOk _

theorem pubAnswer_leaves (hd : Down t.connection) (nakOk : Bool) (job : Job) (p : Publish) :
    Leaves (t.pubAnswer lane nakOk job p (.failed false)) := by
  show Leaves (t.publishBackoff lane nakOk job p)
  have hgive : t.checkGiveUp p = some .connectionClosed := by simp [Turn.checkGiveUp, hd.1]
  unfold Turn.publishBackoff
  rw [hgive]
  exact publishFailed_leaves hd nakOk job

theorem ackLoop_leaves (hd : Down t.connection) (site : AckSite) (attempt : Nat) (giveUpAt : Int) :
    Leaves (t.ackLoop lane site attempt giveUpAt) := by
  unfold Turn.ackLoop
  split
  · rw [if_neg (by simp [hd.2]), if_pos (.inr hd.1)]
    exact leaves_settle hd _ _
  · exact leaves_settle hd _ _

theorem ack_leaves (hd : Down t.connection) (site : AckSite) : Leaves (t.ack lane site) := by
  unfold Turn.ack
  split
  · exact leaves_leave hd _
  · exact ackLoop_leaves hd site _ _

/-! ## Runs that end one call -/

variable {w w' : World κ} {i : Nat} {h : Handle κ}

theorem apply_self (hi : w.handles[i]? = some h) : (w.apply i t).handles[i]? = some t.toHandle := by
  rw [apply_handles hi, if_pos rfl]

@[simp] theorem turn_phase : (w.turn h).phase = h.phase := rfl
@[simp] theorem turn_connection : (w.turn h).connection = w.connection := rfl
@[simp] theorem turn_now : (w.turn h).now = w.now := rfl

variable [DecidableEq κ] {key : Nat → κ}

/-- Some run ends call `i` and leaves the others as they are. -/
def Ends (lane : Lane) (key : Nat → κ) (w : World κ) (i : Nat) : Prop :=
  ∃ as w' h', run (World.step lane key) w as = some w' ∧ Down w'.connection ∧
    w'.handles = w.handles.set i h' ∧ h'.phase.isEnded

theorem Ends.step {a : Action} {h' : Handle κ} (hs : w.step lane key a = some w') (hh : w'.handles = w.handles.set i h')
    (he : Ends lane key w' i) : Ends lane key w i := by
  obtain ⟨as, w₂, h₂, hrun, hd, hh₂, hend⟩ := he
  refine ⟨a :: as, w₂, h₂, ?_, hd, ?_, hend⟩
  · rw [run_cons, hs]
    exact hrun
  · rw [hh₂, hh, set_set]

theorem step_move {m : Move} {abort : Bool} (hi : w.handles[i]? = some h) (ha : w.abort = abort)
    (hm : (w.turn h).advance lane abort m = some t) : w.step lane key (.move i m) = some (w.apply i t) := by
  simp [World.step, hi, ha, hm]

theorem ends_closing {fault : Option Fault} (hi : w.handles[i]? = some h) (hd : Down w.connection)
    (hp : h.phase = .closing fault) : Ends lane key w i := by
  have hm : (w.turn h).advance lane w.abort .finish = some (((w.turn h).settle lane .dropped).goto (.ended fault)) := by
    simp [Turn.advance, hp]
  refine ⟨[.move i .finish], w.apply i (((w.turn h).settle lane .dropped).goto (.ended fault)), _, ?_, ?_, rfl, ?_⟩
  · rw [run_cons, step_move hi rfl hm]
    rfl
  · show Down ((w.turn h).settle lane .dropped).connection
    rw [settle_connection]
    exact hd
  · rfl

theorem ends_leaves {m : Move} (hi : w.handles[i]? = some h) (hm : (w.turn h).advance lane w.abort m = some t)
    (hl : Leaves t) : Ends lane key w i := by
  obtain ⟨⟨fault, hp⟩, hd⟩ := hl
  exact Ends.step (step_move hi rfl hm) rfl (ends_closing (apply_self hi) hd hp)

theorem ends_later (wakeAt : Int) (hi : w.handles[i]? = some h) (hd : Down w.connection)
    (he : ∀ w' : World κ, w'.handles = w.handles → Down w'.connection → wakeAt ≤ w'.now → Ends lane key w' i) :
    Ends lane key w i := by
  have hself : w.handles = w.handles.set i h := by
    obtain ⟨hlt, rfl⟩ := List.getElem?_eq_some_iff.1 hi
    rw [set_getElem_self]
  have hs : w.step lane key (.tick (wakeAt - w.now).toNat) = some { w with now := w.now + (wakeAt - w.now).toNat } := rfl
  refine Ends.step hs hself (he _ rfl hd ?_)
  show wakeAt ≤ w.now + ((wakeAt - w.now).toNat : Int)
  omega

theorem ends_cancelling (hi : w.handles[i]? = some h) (hd : Down w.connection) (hp : h.phase = .cancelling) :
    Ends lane key w i := by
  have hm : (w.turn h).advance lane w.abort (.cancelled .fits true) = some ((w.turn h).abortOutcome lane .fits true) := by
    simp [Turn.advance, hp]
  exact ends_leaves hi hm (abortOutcome_leaves hd _ _)

theorem ends_stopping (hi : w.handles[i]? = some h) (hd : Down w.connection)
    (hp : h.phase = .stopping work) : Ends lane key w i := by
  cases work with
  | some worked =>
    have hm : (w.turn h).advance lane w.abort (.resume .fits true) =
        some ((w.turn h).takeOutcome lane .fits true worked) := by
      simp [Turn.advance, hp]
    exact ends_leaves hi hm (takeOutcome_leaves hd _ _ _)
  | none =>
    have hm : (w.turn h).advance lane w.abort (.resume .fits true) = some ((w.turn h).goto .cancelling) := by
      simp [Turn.advance, hp]
    exact Ends.step (step_move hi rfl hm) rfl (ends_cancelling (apply_self hi) hd rfl)

theorem ends_worked {worked : Worked} (hi : w.handles[i]? = some h) (hd : Down w.connection)
    (hp : h.phase = .processing (some worked)) : Ends lane key w i := by
  have hm : (w.turn h).advance lane w.abort .waited = some ((w.turn h).goto (.stopping (some worked))) := by
    simp [Turn.advance, hp]
  exact Ends.step (step_move hi rfl hm) rfl (ends_stopping (apply_self hi) hd rfl)

theorem ends_processing (hi : w.handles[i]? = some h) (hd : Down w.connection)
    (hp : h.phase = .processing work) : Ends lane key w i := by
  cases work with
  | some worked => exact ends_worked hi hd hp
  | none =>
    have hm : (w.turn h).advance lane w.abort (.work .crashed) = some ((w.turn h).goto (.processing (some .crashed))) := by
      simp [Turn.advance, hp]
    exact Ends.step (step_move hi rfl hm) rfl (ends_worked (apply_self hi) hd rfl)

theorem ends_publishing {job : Job} {p : Publish} (hi : w.handles[i]? = some h) (hd : Down w.connection)
    (hp : h.phase = .publishing job p) : Ends lane key w i := by
  obtain ⟨started, giveUp, backoff, wait⟩ := p
  cases wait with
  | reconnect =>
    have hm : (w.turn h).advance lane w.abort (.reconnect true) =
        some ((w.turn h).publishAgain lane true job ⟨started, giveUp, backoff, .reconnect⟩) := by
      simp [Turn.advance, hp]
    exact ends_leaves hi hm (publishAgain_leaves hd _ _ _)
  | puback =>
    have hm : (w.turn h).advance lane w.abort (.puback (.failed false) true) =
        some ((w.turn h).pubAnswer lane true job ⟨started, giveUp, backoff, .puback⟩ (.failed false)) := by
      simp [Turn.advance, hp]
    exact ends_leaves hi hm (pubAnswer_leaves hd _ _ _)
  | backoff wakeAt =>
    refine ends_later wakeAt hi hd fun w' hh hd' hnow => ?_
    have hm : (w'.turn h).advance lane w'.abort (.backoff true) =
        some ((w'.turn h).publishAgain lane true job ⟨started, giveUp, backoff, .backoff wakeAt⟩) := by
      simp [Turn.advance, hp, hnow]
    exact ends_leaves (hh ▸ hi) hm (publishAgain_leaves hd' _ _ _)

theorem ends_blocked {outcome : Outcome} {wakeAt : Int} (hi : w.handles[i]? = some h) (hd : Down w.connection)
    (hp : h.phase = .blocked outcome wakeAt) : Ends lane key w i := by
  refine ends_later wakeAt hi hd fun w' hh hd' hnow => ?_
  have hm : (w'.turn h).advance lane w'.abort .probe = some ((w'.turn h).publishCompact lane outcome) := by
    simp [Turn.advance, hp, hnow]
  exact ends_leaves (hh ▸ hi) hm (publishCompact_leaves hd' _)

theorem ends_acking {site : AckSite} {attempt : Nat} {giveUpAt : Int} {wait : AckWait} (hi : w.handles[i]? = some h)
    (hd : Down w.connection) (hp : h.phase = .acking site attempt giveUpAt wait) : Ends lane key w i := by
  cases wait with
  | reconnect =>
    have hm : (w.turn h).advance lane w.abort .ackReconnect = some ((w.turn h).acked lane) := by
      simp [Turn.advance, hp, hd.2]
    exact ends_leaves hi hm (leaves_settle hd _ _)
  | answer =>
    have hm : (w.turn h).advance lane w.abort (.ackAnswer .ok) =
        some (({ w.turn h with connection := w.connection.trust } : Turn κ).acked lane) := by
      simp [Turn.advance, hp]
    exact ends_leaves hi hm (leaves_settle (t := { w.turn h with connection := w.connection.trust }) hd _ _)
  | pause wakeAt =>
    refine ends_later wakeAt hi hd fun w' hh hd' hnow => ?_
    have hm : (w'.turn h).advance lane w'.abort .ackPause = some ((w'.turn h).ackLoop lane site attempt giveUpAt) := by
      simp [Turn.advance, hp, hnow]
    exact ends_leaves (hh ▸ hi) hm (ackLoop_leaves hd' _ _ _)

theorem ends_alone (hi : w.handles[i]? = some h) (hd : Down w.connection) (hend : h.phase.isEnded = false)
    (hp : ∀ owner, h.phase ≠ .joining owner) : Ends lane key w i := by
  cases hphase : h.phase with
  | joining owner => exact absurd hphase (hp owner)
  | processing work => exact ends_processing hi hd hphase
  | stopping work => exact ends_stopping hi hd hphase
  | cancelling => exact ends_cancelling hi hd hphase
  | publishing job p => exact ends_publishing hi hd hphase
  | blocked outcome wakeAt => exact ends_blocked hi hd hphase
  | acking site attempt giveUpAt wait => exact ends_acking hi hd hphase
  | closing fault => exact ends_closing hi hd hphase
  | ended fault => simp [hphase, Phase.isEnded] at hend

/-! ## Runs that end all calls -/

theorem Inv.ended_settled (hI : Inv lane key w) (hi : w.handles[i]? = some h) (hend : h.phase.isEnded) :
    ∃ s, h.lease.settled = some s := by
  obtain ⟨stage, -, hs, ha⟩ := hI.handles i h hi
  cases hp : h.phase with
  | ended fault =>
    rw [hp] at ha
    obtain ⟨-, s, rfl⟩ := ha
    exact ⟨s, hs⟩
  | _ => simp [hp, Phase.isEnded] at hend

theorem ends_joining {j : Nat} (hI : Inv lane key w) (hi : w.handles[i]? = some h) (hd : Down w.connection)
    (hp : h.phase = .joining j) (hall : ∀ (k : Nat) (h' : Handle κ), w.handles[k]? = some h' →
      h'.phase.isEnded ∨ ∃ owner, h'.phase = .joining owner) : Ends lane key w i := by
  have hsettled : ∀ {c : κ} {k : Nat}, Owner w c k → ∃ h' s, w.handles[k]? = some h' ∧ h'.lease.settled = some s := by
    rintro c k ⟨h', hk, -, hsolo⟩
    obtain hend | ⟨owner, ho⟩ := hall k h' hk
    · obtain ⟨s, hs⟩ := hI.ended_settled hk hend
      exact ⟨h', s, hk, hs⟩
    · exact absurd ho (hsolo.1 owner)
  obtain ⟨owner, s, hj, hs⟩ := hsettled (hI.joining i h j hi hp).2
  by_cases hpub : s = .published
  · subst hpub
    have hstep : w.step lane key (.wake i) = some (w.apply i (((w.turn h).emit (.told j)).ack lane .joined)) := by
      simp [World.step, World.wake, hi, hp, hj, hs]
    have hleaves : Leaves (((w.turn h).emit (.told j)).ack lane .joined) := ack_leaves hd .joined
    obtain ⟨⟨fault, hc⟩, hd'⟩ := hleaves
    exact Ends.step hstep rfl (ends_closing (apply_self hi) hd' hc)
  · have hstep : w.step lane key (.wake i) = some (w.join i (w.turn h)) := by
      cases s with
      | published => exact absurd rfl hpub
      | nacked | dropped => simp [World.step, World.wake, hi, hp, hj, hs]
    have hfree : w.waitsFor i (w.turn h).lease.correlation = none := by
      cases hw : w.waitsFor i (w.turn h).lease.correlation with
      | none => rfl
      | some k =>
        obtain ⟨hown, -, hopen⟩ := waitsFor_eq_some.1 hw
        obtain ⟨h', s', hk, hs'⟩ := hsettled (hI.owners _ _ hown)
        rw [isSettled_eq_false hk, hs'] at hopen
        cases hopen
    have hjoin : w.join i (w.turn h) =
        { w.apply i ((w.turn h).goto (.processing none)) with
          owners := Function.update w.owners (w.turn h).lease.correlation (some i) } := by
      simp [World.join, hfree]
    rw [hjoin] at hstep
    exact Ends.step hstep rfl (ends_processing (apply_self hi) hd rfl)

theorem all_end (hI : Inv lane key w) (hd : Down w.connection) :
    ∃ as w', run (World.step lane key) w as = some w' ∧ w'.handles.length = w.handles.length ∧
      ∀ h ∈ w'.handles, h.phase.isEnded := by
  -- on the number of calls that have not ended
  induction hn : w.handles.countP (fun h => !h.phase.isEnded) using Nat.strongRecOn generalizing w with
  | _ n ih =>
    by_cases hall : ∀ h ∈ w.handles, h.phase.isEnded
    · exact ⟨[], w, rfl, rfl, hall⟩
    have hends : ∃ (i : Nat) (h : Handle κ), w.handles[i]? = some h ∧ h.phase.isEnded = false ∧ Ends lane key w i := by
      by_cases halone : ∃ (i : Nat) (h : Handle κ), w.handles[i]? = some h ∧ h.phase.isEnded = false ∧
          ∀ owner, h.phase ≠ .joining owner
      · obtain ⟨i, h, hi, hend, hp⟩ := halone
        exact ⟨i, h, hi, hend, ends_alone hi hd hend hp⟩
      · push Not at halone hall
        obtain ⟨h, hmem, hend⟩ := hall
        obtain ⟨i, hi⟩ := mem_iff_getElem?.1 hmem
        have hend : h.phase.isEnded = false := by simpa using hend
        obtain ⟨j, hp⟩ := halone i h hi hend
        refine ⟨i, h, hi, hend, ends_joining hI hi hd hp fun k h' hk => ?_⟩
        cases hk' : h'.phase.isEnded with
        | true => exact .inl rfl
        | false => exact .inr (halone k h' hk hk')
    obtain ⟨i, h, hi, hend, as, w₁, h₁, hrun, hd₁, hh₁, hend₁⟩ := hends
    have hlt : w₁.handles.countP (fun h => !h.phase.isEnded) < n := by
      obtain ⟨hlen, rfl⟩ := List.getElem?_eq_some_iff.1 hi
      have hpos : 0 < w.handles.countP (fun h => !h.phase.isEnded) :=
        countP_pos_iff.2 ⟨_, getElem_mem hlen, by simp [hend]⟩
      rw [hh₁, countP_set hlen]
      simp [hend, hend₁]
      omega
    obtain ⟨bs, w₂, hrun₂, hlen₂, hall₂⟩ := ih _ hlt (run_invariant Inv.step hI hrun) hd₁ rfl
    refine ⟨as ++ bs, w₂, ?_, ?_, hall₂⟩
    · rw [run_append, hrun]
      exact hrun₂
    · rw [hlen₂, hh₁, length_set]

/-! ## One outcome -/

def sentAt : Event κ → Option Int
  | .nak _ _ time => some time
  | .inProgress time => some time
  | _ => none

structure OneOutcome (lane : Lane) (key : Nat → κ) (w : World κ) : Prop where
  settled : ∀ (i : Nat) (h : Handle κ), w.handles[i]? = some h →
    (history w.log i).countP isSettled = if h.lease.settled.isSome then 1 else 0
  ended : ∀ (i : Nat) (h : Handle κ), w.handles[i]? = some h → h.phase.isEnded → h.lease.settled.isSome
  /-- A message is acked after a result of its key was acknowledged, to the call itself or to the owner it joined. -/
  acked : ∀ before after i streamSeq, w.log = before ++ (i, .ack streamSeq) :: after →
    ∃ j streamSeq' status, (j, .stored (key streamSeq) streamSeq' status true) ∈ before ∧
      (j = i ∨ (i, .joined j) ∈ before)
  /-- A lease is nacked at most once, and not acked then. -/
  nacked : ∀ i, (history w.log i).countP isNak ≤ 1 ∧
    ((history w.log i).countP isNak = 0 ∨ (history w.log i).countP isAck = 0)
  oneWorker : ∀ (i j : Nat) (h h' : Handle κ), w.handles[i]? = some h → w.handles[j]? = some h' →
    h.lease.correlation = h'.lease.correlation → h.phase.working → h'.phase.working → i = j
  /-- Nothing is sent after the window of the last delivery, adoption or answered `in_progress`. -/
  inWindow : ∀ before after i e time, w.log = before ++ (i, e) :: after → sentAt e = some time →
    ∃ last, lastProgress (history before i) = some last ∧ time - last ≤ lane.window

theorem Inv.ticket_before (hI : Inv lane key w) (hlog : w.log = before ++ (i, e) :: after) :
    ∃ h k k', w.handles[i]? = some h ∧ run (Ticket.accept (taskOf lane h.lease)) .start (history before i) = some k ∧
      Ticket.accept (taskOf lane h.lease) k e = some k' := by
  have hhist : history w.log i = history before i ++ e :: history after i := by
    rw [hlog, history_append, history_cons]
  cases hi : w.handles[i]? with
  | none =>
    have := hI.unborn i hi
    rw [hhist] at this
    simp at this
  | some h =>
    obtain ⟨stage, hrun, -, -⟩ := hI.handles i h hi
    rw [hhist, run_append] at hrun
    obtain ⟨k, hk, hrest⟩ := bind_eq_some_iff.1 hrun
    obtain ⟨k', hk', -⟩ := bind_eq_some_iff.1 hrest
    exact ⟨h, k, k', rfl, hk, hk'⟩

theorem Inv.answered (hI : Inv lane key w) (hb : before <+: w.log) (hi : w.handles[i]? = some h) {k : Ticket}
    (hrun : run (Ticket.accept (taskOf lane h.lease)) .start (history before i) = some k) (hk : k.stage = .answered) :
    ∃ j streamSeq status, (j, .stored h.lease.correlation streamSeq status true) ∈ before ∧
      (j = i ∨ (i, .joined j) ∈ before) := by
  obtain ⟨q, status, hs⟩ | ⟨j, hj⟩ := (tally_of_run hrun).answered (.inl hk)
  · exact ⟨i, q, status, mem_history.1 hs, .inl rfl⟩
  · obtain ⟨hjoined, q, status, hs⟩ := hI.told before hb i h j hi (mem_history.1 hj)
    exact ⟨j, q, status, hs, .inr hjoined⟩

theorem Inv.acked (hI : Inv lane key w) {streamSeq : Nat} (hlog : w.log = before ++ (i, .ack streamSeq) :: after) :
    ∃ j streamSeq' status, (j, .stored (key streamSeq) streamSeq' status true) ∈ before ∧
      (j = i ∨ (i, .joined j) ∈ before) := by
  obtain ⟨h, k, k', hi, hrun, hack⟩ := hI.ticket_before hlog
  simp only [Ticket.accept, ite_none_right_eq_some, some.injEq] at hack
  obtain ⟨⟨hstage, hseq⟩, -⟩ := hack
  have hkey : key streamSeq = h.lease.correlation := by
    rw [hI.keys i h hi, hseq]
    rfl
  rw [hkey]
  exact hI.answered ⟨_, hlog.symm⟩ hi hrun hstage

theorem Inv.nacked (hI : Inv lane key w) (i : Nat) : (history w.log i).countP isNak ≤ 1 ∧
      ((history w.log i).countP isNak = 0 ∨ (history w.log i).countP isAck = 0) := by
  cases hi : w.handles[i]? with
  | none =>
    rw [hI.unborn i hi]
    exact ⟨Nat.zero_le _, .inl rfl⟩
  | some h =>
    obtain ⟨stage, hrun, -, -⟩ := hI.handles i h hi
    have ht := tally_of_run hrun
    have hnaks := ht.naks
    by_cases hstage : stage = .nacking ∨ stage = .closed .nacked ∨ stage = .closed .dropped
    · rw [if_pos hstage] at hnaks
      refine ⟨hnaks, .inr (ht.acks ?_ ?_)⟩
      · rintro rfl
        simp at hstage
      · rintro rfl
        simp at hstage
    · rw [if_neg hstage] at hnaks
      exact ⟨by omega, .inl (by omega)⟩

theorem Inv.inWindow (hI : Inv lane key w) {time : Int}
    (hlog : w.log = before ++ (i, e) :: after) (he : sentAt e = some time) :
    ∃ last, lastProgress (history before i) = some last ∧ time - last ≤ lane.window := by
  obtain ⟨h, k, k', hi, hrun, hsent⟩ := hI.ticket_before hlog
  have hprogress := (tally_of_run hrun).progress
  cases e with
  | nak n delay at' =>
    cases he
    simp only [Ticket.accept, ite_none_right_eq_some, some.injEq] at hsent
    obtain ⟨⟨hstage, hwindow⟩, -⟩ := hsent
    exact ⟨k.progressAt, hprogress (by simp [hstage]), hwindow⟩
  | inProgress at' =>
    cases he
    simp only [Ticket.accept, ite_none_right_eq_some, some.injEq] at hsent
    obtain ⟨⟨hstage, hwindow⟩, -⟩ := hsent
    refine ⟨k.progressAt, hprogress ?_, hwindow⟩
    intro hnew
    rw [hnew] at hstage
    cases hstage
  | _ => cases he

theorem Inv.settled_count (hI : Inv lane key w) (hi : w.handles[i]? = some h) :
    (history w.log i).countP isSettled = if h.lease.settled.isSome then 1 else 0 := by
  obtain ⟨stage, hrun, hs, -⟩ := hI.handles i h hi
  rw [(tally_of_run hrun).settled, hs]

theorem Inv.oneOutcome (hI : Inv lane key w) : OneOutcome lane key w where
  settled _ _ hi := hI.settled_count hi
  ended i h hi hend := by
    obtain ⟨s, hs⟩ := hI.ended_settled hi hend
    rw [hs]
    rfl
  acked _ _ _ _ hlog := hI.acked hlog
  nacked := hI.nacked
  oneWorker i j h h' hi hj hkey hw hw' := by
    have hown := hI.working i h hi hw
    rw [hkey, hI.working j h' hj hw'] at hown
    exact (some.inj hown).symm
  inWindow _ _ _ _ _ hlog he := hI.inWindow hlog he

/-- In every run of a lane each lease has one outcome, and every lease that is not settled yet can still be: some run
goes on from there to a state in which all leases so far have been settled exactly once. -/
theorem one_outcome {as : List Action} (hrun : run (World.step lane key) .init as = some w) :
    OneOutcome lane key w ∧
      ∃ bs w', run (World.step lane key) w bs = some w' ∧ w'.handles.length = w.handles.length ∧
        ∀ i < w'.handles.length, (history w'.log i).countP isSettled = 1 := by
  have hI : Inv lane key w := run_invariant Inv.step .init hrun
  refine ⟨hI.oneOutcome, ?_⟩
  have hclosed : Inv lane key { w with connection := w.connection.onClosed } := hI.env rfl rfl rfl fun _ => id
  obtain ⟨bs, w', hrun', hlen, hend⟩ := all_end hclosed ⟨rfl, rfl⟩
  refine ⟨.onClosed :: bs, w', hrun', hlen, fun i hi => ?_⟩
  have hi' : w'.handles[i]? = some w'.handles[i] := List.getElem?_eq_getElem hi
  have hI' : Inv lane key w' := run_invariant Inv.step hclosed hrun'
  obtain ⟨s, hs⟩ := hI'.ended_settled hi' (hend _ (getElem_mem hi))
  rw [hI'.settled_count hi', hs]
  rfl

def audioLane : Lane where
  second := 1
  ackWait := 60
  heartbeat := 12
  maxDeliver := 5
  nakBase := 30
  nakCap := 600
  reopenable := [.engineRestarted, .workerLost, .publicNodeTimeout]

/-- Messages 10 and 11 ask the same question. The call of 10 adopts a redelivery, its result is stored with the PubAck
lost and acknowledged at the second try; the call of 11 joins it and is told. The call of 20 crashes and its message is
nacked. -/
def joinedRun : List Action :=
  [.deliver 10 1, .deliver 11 1, .deliver 20 1, .tick 12, .move 0 .beat, .move 0 (.beatAnswer true), .deliver 10 2,
    .move 2 (.work .crashed), .move 2 .waited, .move 2 (.resume .fits true), .move 2 .finish,
    .move 0 (.work (.outcome .ok)), .move 0 .waited, .move 0 (.resume .fits true), .move 0 (.puback (.timedOut true) true),
    .tick 1, .move 0 (.backoff true), .move 0 (.puback .acked true), .move 0 (.ackAnswer .ok), .wake 1,
    .move 1 (.ackAnswer .ok), .move 0 .finish, .callback, .callback, .callback]

def joinedLog : List (Nat × Event Nat) :=
  [(0, .delivered 10 1 0), (1, .delivered 11 1 0), (1, .joined 0), (2, .delivered 20 1 0), (0, .inProgress 12),
    (0, .progressed 12), (0, .adopted 2 12), (2, .nak 1 30 12), (2, .settled .nacked 1 false false),
    (0, .stored 1 10 .ok false), (0, .stored 1 10 .ok true), (0, .ack 10), (0, .settled .published 2 false false),
    (1, .told 0), (1, .ack 11), (1, .settled .published 1 false false)]

theorem one_outcome_joined : ∃ w, run (World.step audioLane (· / 10)) .init joinedRun = some w ∧ w.log = joinedLog ∧
      OneOutcome audioLane (· / 10) w := by
  have hlog : (run (World.step audioLane (· / 10)) .init joinedRun).map World.log = some joinedLog := by decide
  obtain ⟨w, hw, hend⟩ := map_eq_some_iff.1 hlog
  exact ⟨w, hw, hend, (one_outcome hw).1⟩

end SC.Proof.Worker
