import SoundCloudBackend.Proof.Worker.Settles

/-!
# The last delivery

A lease may move to the last allowed delivery at any await of its call. Every turn but one
looks at the current delivery before it gives the task up: `release_transient` is reached
on the last delivery only if the lease is stale or the connection closed. The exception is
`LeaseDropped`, which `_outcome` carries out without a look at the lease: the processor saw
a stale lease, and the lease may have adopted the last delivery since. `Safe` is what every
turn leaves, with one lemma for each function of the handler.
-/

namespace SC.Proof.Worker

open Impl.Worker
open List Option

variable {κ : Type*} {lane : Lane} {was : Bool} {t t' : Turn κ}
variable {e : PublishError} {p : Publish} {job : Job}
variable {s : Settled} {phase : Phase} {p' : Publish} {settled : Option Settled} {c c' : Connection} {i : Nat}
variable {h : Handle κ}

/-! ## Turns -/

/-- On its last delivery a lease is not nacked, and it is dropped only if it is stale or the connection is closed. -/
def LastOk (lane : Lane) : Event κ → Prop
  | .nak n _ _ => lane.isLastDelivery n = false
  | .settled s n stale closed => lane.isLastDelivery n → s = .published ∨ s = .dropped ∧ (stale ∨ closed)
  | _ => True

/-- A turn that has done nothing wrong so far. `was` says that the connection was closed before it. -/
structure Careful (lane : Lane) (was : Bool) (t : Turn κ) : Prop where
  events : ∀ e ∈ t.events, LastOk lane e
  down : t.connection.closed → t.connection.isConnected = false
  still : was → t.connection.closed

/-- What is known of an await. A compact result is published without a limit, no call ends with `LastDelivery`, and one
that ends with its lease unsettled has lost its connection. -/
def Awaits (settled : Option Settled) (c : Connection) : Phase → Prop
  | .publishing (.compact _) p => p.giveUp = none
  | .closing fault => fault ≠ some .lastDelivery ∧ (settled = none → c.closed)
  | .ended fault => fault ≠ some .lastDelivery
  | _ => True

structure Safe (lane : Lane) (was : Bool) (t : Turn κ) : Prop where
  careful : Careful lane was t
  awaits : Awaits t.lease.settled t.connection t.phase

namespace Careful

theorem emit (h : Careful lane was t) {e : Event κ} (he : LastOk lane e) : Careful lane was (t.emit e) where
  events e' he' := by
    obtain he' | he' := mem_append.1 he'
    · exact h.events e' he'
    · rwa [mem_singleton.1 he']
  down := h.down
  still := h.still

theorem settle (h : Careful lane was t)
    (hs : t.isLastDelivery lane → s = .published ∨ s = .dropped ∧ (t.isStale lane ∨ t.connection.closed)) :
    Careful lane was (t.settle lane s) := by
  unfold Turn.settle
  split
  · exact h
  · refine ⟨fun e he => ?_, h.down, h.still⟩
    obtain he | he := mem_append.1 he
    · exact h.events e he
    · rw [mem_singleton.1 he]
      exact hs

theorem goto (h : Careful lane was t) (hp : Awaits t.lease.settled t.connection phase) :
    Safe lane was (t.goto phase) :=
  ⟨⟨h.events, h.down, h.still⟩, hp⟩

theorem leave (h : Careful lane was t) {fault : Option Fault} (hf : fault ≠ some .lastDelivery)
    (hs : t.lease.settled = none → t.connection.closed) : Safe lane was (t.leave fault) :=
  ⟨⟨h.events, h.down, h.still⟩, hf, hs⟩

end Careful

theorem settle_settled (s : Settled) : (t.settle lane s).lease.settled ≠ none := by
  unfold Turn.settle
  split
  · rename_i hs
    intro hnone
    rw [hnone] at hs
    cases hs
  · exact some_ne_none s

theorem Careful.settle_leave (h : Careful lane was t)
    (hs : t.isLastDelivery lane → s = .published ∨ s = .dropped ∧ (t.isStale lane ∨ t.connection.closed)) :
    Safe lane was ((t.settle lane s).leave none) :=
  (h.settle hs).leave nofun fun hnone => absurd hnone (settle_settled s)

theorem isStale_markStale : (t.markStale lane).isStale lane = t.isStale lane := by
  show (t.isStale lane || !_) = t.isStale lane
  cases hs : t.isStale lane with
  | true => rfl
  | false =>
    unfold Turn.isStale Lease.isStale at hs
    exact (Bool.or_eq_false_iff.1 hs).2

theorem releaseTransient_safe (h : Careful lane was t) (delay : Int) (nakOk : Bool)
    (hl : t.isLastDelivery lane → t.isStale lane ∨ t.connection.closed) :
    Safe lane was (t.releaseTransient lane delay nakOk) := by
  unfold Turn.releaseTransient
  split
  · rename_i hs
    refine h.leave (by simp) fun hnone => ?_
    rw [hnone] at hs
    cases hs
  · split
    · refine Careful.settle_leave (t := t.markStale lane) ⟨h.events, h.down, h.still⟩ fun hlast => .inr ⟨rfl, ?_⟩
      rw [isStale_markStale]
      exact hl hlast
    · rename_i hup
      simp only [Bool.or_eq_true, not_or, Bool.not_eq_true, Bool.not_eq_false'] at hup
      -- a lease on its last delivery would be stale or without a connection here
      have hlast : t.isLastDelivery lane = false := by
        by_contra hlast
        obtain hs | hc := hl (by simpa using hlast)
        · rw [hup.1.1] at hs
          cases hs
        · rw [h.down hc] at hup
          cases hup.2
      rw [if_neg (by simp [hlast])]
      have hnak : Careful lane was (t.emit (.nak t.lease.numDelivered delay t.now)) := h.emit hlast
      refine hnak.settle_leave fun hlast' => ?_
      have : t.isLastDelivery lane = true := hlast'
      rw [hlast] at this
      cases this

theorem acked_safe (h : Careful lane was t) : Safe lane was (t.acked lane) := h.settle_leave fun _ => .inl rfl

theorem ackLoop_safe (h : Careful lane was t) (site : AckSite) (attempt : Nat) (giveUpAt : Int) :
    Safe lane was (t.ackLoop lane site attempt giveUpAt) := by
  unfold Turn.ackLoop
  split
  · split
    · have hack : Careful lane was (t.emit (.ack t.lease.streamSeq)) := h.emit trivial
      exact hack.goto trivial
    · split
      · exact acked_safe h
      · exact h.goto trivial
  · exact acked_safe h

theorem ack_safe (h : Careful lane was t) (site : AckSite) : Safe lane was (t.ack lane site) := by
  unfold Turn.ack
  split
  · rename_i hs
    refine h.leave (by simp) fun hnone => ?_
    rw [hnone] at hs
    cases hs
  · exact ackLoop_safe h site _ _

theorem checkGiveUp_error (h : t.checkGiveUp p = some e) :
    e = .connectionClosed ∧ t.connection.closed ∨ e = .timedOut ∧ p.giveUp ≠ none := by
  unfold Turn.checkGiveUp at h
  split at h
  · cases h
    exact .inl ⟨rfl, ‹_›⟩
  · split_ifs at h with hany
    cases h
    refine .inr ⟨rfl, fun hnone => ?_⟩
    rw [hnone] at hany
    cases hany

theorem publishLoop_error (h : t.publishLoop p = .error e) :
    e = .connectionClosed ∧ t.connection.closed ∨ e = .timedOut ∧ p.giveUp ≠ none := by
  unfold Turn.publishLoop at h
  split_ifs at h
  split at h
  · rename_i e' he
    cases h
    exact checkGiveUp_error he
  · cases h

theorem publishTimedOut_safe (h : Careful lane was t) (nakOk : Bool) (outcome : Outcome)
    (he : e = .connectionClosed → t.connection.closed) : Safe lane was (t.publishTimedOut lane nakOk outcome e) := by
  unfold Turn.publishTimedOut
  split
  · rename_i hcase
    refine releaseTransient_safe h _ nakOk fun hlast => ?_
    obtain hc | hl := hcase
    · exact .inr (he hc)
    · rw [hl] at hlast
      cases hlast
  · split
    · exact h.goto trivial
    · rename_i e' hp
      refine releaseTransient_safe h _ nakOk fun _ => .inr ?_
      obtain ⟨-, hc⟩ | ⟨-, hg⟩ := publishLoop_error hp
      · exact hc
      · exact absurd rfl hg

theorem publishResult_safe (h : Careful lane was t) (nakOk : Bool) (outcome : Outcome) :
    Safe lane was (t.publishResult lane nakOk outcome) := by
  unfold Turn.publishResult
  split
  · exact h.goto trivial
  · rename_i e hp
    refine publishTimedOut_safe h nakOk outcome fun he => ?_
    obtain ⟨-, hc⟩ | ⟨ht, -⟩ := publishLoop_error hp
    · exact hc
    · rw [he] at ht
      cases ht

theorem publishLoop_giveUp (h : t.publishLoop p = .ok p') : p'.giveUp = p.giveUp := by
  unfold Turn.publishLoop at h
  split at h
  · cases h
    rfl
  · split at h
    · cases h
    cases h
    rfl

theorem publishCompact_safe (h : Careful lane was t) (outcome : Outcome) : Safe lane was (t.publishCompact lane outcome) := by
  unfold Turn.publishCompact
  split
  · rename_i p hp
    exact h.goto (publishLoop_giveUp hp)
  · rename_i e hp
    refine h.leave nofun fun _ => ?_
    obtain ⟨-, hc⟩ | ⟨-, hg⟩ := publishLoop_error hp
    · exact hc
    · exact absurd rfl hg

theorem publishFailed_safe (h : Careful lane was t) (nakOk : Bool)
    (hp : Awaits t.lease.settled t.connection (.publishing job p))
    (he : e = .connectionClosed ∧ t.connection.closed ∨ e = .timedOut ∧ p.giveUp ≠ none) :
    Safe lane was (t.publishFailed lane nakOk job e) := by
  cases job with
  | result outcome =>
    refine publishTimedOut_safe h nakOk outcome fun hec => ?_
    obtain ⟨-, hc⟩ | ⟨ht, -⟩ := he
    · exact hc
    · rw [hec] at ht
      cases ht
  | compact outcome =>
    refine h.leave nofun fun _ => ?_
    obtain ⟨-, hc⟩ | ⟨-, hg⟩ := he
    · exact hc
    · exact absurd hp hg

theorem Awaits.publishing {settled' : Option Settled}
    (h : Awaits settled c (.publishing job p)) (hp : p'.giveUp = p.giveUp) : Awaits settled' c' (.publishing job p') := by
  cases job with
  | result outcome => trivial
  | compact outcome => exact hp.trans h

theorem publishAgain_safe (h : Careful lane was t) (nakOk : Bool)
    (hp : Awaits t.lease.settled t.connection (.publishing job p)) : Safe lane was (t.publishAgain lane nakOk job p) := by
  unfold Turn.publishAgain
  split
  · rename_i p' hp'
    exact h.goto (hp.publishing (publishLoop_giveUp hp'))
  · rename_i e he
    exact publishFailed_safe h nakOk hp (publishLoop_error he)

theorem publishBackoff_safe (h : Careful lane was t) (nakOk : Bool)
    (hp : Awaits t.lease.settled t.connection (.publishing job p)) : Safe lane was (t.publishBackoff lane nakOk job p) := by
  unfold Turn.publishBackoff
  split
  · rename_i e he
    exact publishFailed_safe h nakOk hp (checkGiveUp_error he)
  · exact h.goto (hp.publishing rfl)

theorem Careful.trusted (h : Careful lane was t) (hc : Trusted t.connection c) :
    Careful lane was { t with connection := c } := by
  cases hc with
  | same => exact h
  | trust => exact ⟨h.events, h.down, h.still⟩
  | suspect =>
    unfold Connection.suspectIfConnected
    split <;> exact ⟨h.events, h.down, h.still⟩

theorem Careful.storeIf (h : Careful lane was t) (stored : Bool) (job : Job) : Careful lane was (t.storeIf stored job) := by
  cases stored with
  | true => exact h.emit trivial
  | false => exact h

theorem pubAnswer_safe (h : Careful lane was t) (nakOk : Bool) (answer : Turn.PubAnswer)
    (hp : Awaits t.lease.settled t.connection (.publishing job p)) : Safe lane was (t.pubAnswer lane nakOk job p answer) := by
  cases answer with
  | acked =>
    have hstored : Careful lane was (t.store job true) := h.emit trivial
    exact ack_safe (hstored.trusted .trust) .published
  | rejected =>
    cases job with
    | result outcome => exact publishCompact_safe h _
    | compact outcome => exact h.goto trivial
  | timedOut stored =>
    have hsame : (t.storeIf stored job).connection = t.connection := by cases stored <;> rfl
    have hstored : Careful lane was { t.storeIf stored job with connection := t.connection.suspectIfConnected } :=
      (h.storeIf stored job).trusted (hsame ▸ .suspect)
    exact publishBackoff_safe hstored nakOk (hp.publishing rfl)
  | failed stored => exact publishBackoff_safe (h.storeIf stored job) nakOk (hp.publishing rfl)

theorem publishAndAck_safe (h : Careful lane was t) (encoding : Encoding) (nakOk : Bool) (outcome : Outcome) :
    Safe lane was (t.publishAndAck lane encoding nakOk outcome) :=
  publishResult_safe h nakOk _

theorem retryOr_safe (h : Careful lane was t) (encoding : Encoding) (nakOk : Bool) (outcome : Outcome) :
    Safe lane was (t.retryOr lane encoding nakOk outcome) := by
  unfold Turn.retryOr
  split
  · exact publishAndAck_safe h encoding nakOk outcome
  · rename_i hkeep
    refine releaseTransient_safe h _ nakOk fun hlast => .inl ?_
    unfold Turn.keepsLast at hkeep
    rw [hlast] at hkeep
    simpa using hkeep

/-- The end of the processor, unless it is `LeaseDropped` for a lease that has moved to the last delivery since. -/
theorem takeOutcome_safe (h : Careful lane was t) (encoding : Encoding) (nakOk : Bool) {worked : Worked}
    (hdrop : worked = .dropped → t.isLastDelivery lane → t.isStale lane ∨ t.connection.closed) :
    Safe lane was (t.takeOutcome lane encoding nakOk worked) := by
  cases worked with
  | dropped => exact h.settle_leave fun hlast => .inr ⟨rfl, hdrop rfl hlast⟩
  | transient reason hr => exact retryOr_safe h encoding nakOk _
  | permanent reason hr => exact publishAndAck_safe h encoding nakOk _
  | crashed => exact retryOr_safe h encoding nakOk _
  | outcome outcome =>
    simp only [Turn.takeOutcome]
    split
    · exact retryOr_safe h encoding nakOk outcome
    · exact publishAndAck_safe h encoding nakOk outcome

theorem abortOutcome_safe (h : Careful lane was t) (encoding : Encoding) (nakOk : Bool) :
    Safe lane was (t.abortOutcome lane encoding nakOk) := by
  unfold Turn.abortOutcome
  split
  · rename_i hearly
    refine releaseTransient_safe h _ nakOk fun hlast => ?_
    simp only [Turn.isLastDelivery, Lane.isLastDelivery, Bool.and_eq_true, decide_eq_true_eq] at hlast
    omega
  · exact publishAndAck_safe h encoding nakOk _

/-! ## The heartbeat -/

theorem Safe.beatLoop (h : Safe lane was t) : Safe lane was (t.beatLoop lane) :=
  ⟨⟨h.careful.events, h.careful.down, h.careful.still⟩, h.awaits⟩

theorem heartbeat_safe (h : Safe lane was t) : Safe lane was (t.heartbeat lane) := by
  unfold Turn.heartbeat
  split
  · exact h.beatLoop
  · split
    · have hmark : Safe lane was (t.markStale lane) := ⟨⟨h.careful.events, h.careful.down, h.careful.still⟩, h.awaits⟩
      exact hmark.beatLoop
    · split
      · exact h.beatLoop
      · have hsent : Careful lane was (t.emit (.inProgress t.now)) := h.careful.emit trivial
        exact ⟨⟨hsent.events, hsent.down, hsent.still⟩, h.awaits⟩

theorem beatAnswer_safe (h : Safe lane was t) (ok : Bool) : Safe lane was (t.beatAnswer lane ok) := by
  cases ok with
  | true =>
    have hsent : Careful lane was (t.emit (.progressed t.now)) := h.careful.emit trivial
    exact ⟨⟨hsent.events, hsent.down, hsent.still⟩, h.awaits⟩
  | false => exact h.beatLoop

theorem advance_safe {abort : Bool} {m : Move} (hm : t.advance lane abort m = some t') (h : Safe lane was t)
    (hdrop : ∀ encoding nakOk, m = .resume encoding nakOk → t.phase = .stopping (some .dropped) →
      t.isLastDelivery lane → t.isStale lane ∨ t.connection.closed) : Safe lane was t' := by
  cases did_of_advance hm with
  | looked hp =>
    split
    · exact ⟨⟨h.careful.events, h.careful.down, h.careful.still⟩, h.awaits⟩
    · exact h
  | beat hb => exact heartbeat_safe h
  | beatAnswer hb => exact beatAnswer_safe h _
  | @went _ phase hp hp' hpub =>
    refine h.careful.goto ?_
    cases phase with
    | publishing job p => exact absurd rfl (hpub job p)
    | closing fault | ended fault => cases hp'
    | _ => trivial
  | took hp =>
    refine takeOutcome_safe h.careful _ _ fun hw => ?_
    subst hw
    exact hdrop _ _ rfl hp
  | aborted hp => exact abortOutcome_safe h.careful _ _
  | publishAgain hp => exact publishAgain_safe h.careful _ (hp ▸ h.awaits)
  | pubAnswer hp => exact pubAnswer_safe h.careful _ _ (hp ▸ h.awaits)
  | probed hp => exact publishCompact_safe h.careful _
  | ackLoop hp hc => exact ackLoop_safe (h.careful.trusted hc) _ _ _
  | acked hp hc => exact acked_safe (h.careful.trusted hc)
  | ackPaused hp => exact h.careful.goto trivial
  | finished hp =>
    obtain ⟨hf, hclosed⟩ : Awaits t.lease.settled t.connection (.closing _) := hp ▸ h.awaits
    refine Careful.goto ?_ hf
    cases hs : t.lease.settled with
    | none => exact h.careful.settle fun _ => .inr ⟨rfl, .inr (hclosed hs)⟩
    | some s =>
      unfold Turn.settle
      rw [if_pos (by rw [hs]; rfl)]
      exact h.careful

/-! ## All calls -/

variable {w w' : World κ} {key : Nat → κ}

/-- No last delivery was given up while it could still be answered. -/
structure LastInv (lane : Lane) (w : World κ) : Prop where
  events : ∀ (i : Nat) (e : Event κ), (i, e) ∈ w.log → LastOk lane e
  down : w.connection.closed → w.connection.isConnected = false
  awaits : ∀ (i : Nat) (h : Handle κ), w.handles[i]? = some h → Awaits h.lease.settled w.connection h.phase

theorem LastInv.init : LastInv lane (World.init : World κ) where
  events i e he := by simp [World.init] at he
  down hc := by simp [World.init] at hc
  awaits i h hi := by simp [World.init] at hi

theorem LastInv.turn (hL : LastInv lane w) (hi : w.handles[i]? = some h) :
    Safe lane w.connection.closed (w.turn h) :=
  ⟨⟨fun _ he => absurd he not_mem_nil, hL.down, id⟩, hL.awaits i h hi⟩

theorem Awaits.mono (h : Awaits settled c phase) (hc : c.closed → c'.closed) : Awaits settled c' phase := by
  cases phase with
  | closing fault => exact ⟨h.1, fun hs => hc (h.2 hs)⟩
  | publishing job p =>
    cases job with
    | result outcome => trivial
    | compact outcome => exact h
  | _ => exact h

theorem LastInv.apply (hL : LastInv lane w) (hi : w.handles[i]? = some h)
    (ht : Safe lane w.connection.closed t) : LastInv lane (w.apply i t) where
  events k e he := by
    obtain he | he := mem_append.1 he
    · exact hL.events k e he
    · obtain ⟨e', he', heq⟩ := mem_map.1 he
      cases heq
      exact ht.careful.events _ he'
  down := ht.careful.down
  awaits k h' hk := by
    rw [apply_handles hi] at hk
    split at hk
    · cases hk
      exact ht.awaits
    · exact (hL.awaits k h' hk).mono ht.careful.still

theorem LastInv.env (hL : LastInv lane w) (hh : w'.handles = w.handles) (hl : w'.log = w.log)
    (hd : w'.connection.closed → w'.connection.isConnected = false) (hc : w.connection.closed → w'.connection.closed) :
    LastInv lane w' :=
  ⟨fun i e he => hL.events i e (hl ▸ he), hd, fun i h hi => (hL.awaits i h (hh ▸ hi)).mono hc⟩

theorem LastInv.attach (hL : LastInv lane w) (q n : Nat) : LastInv lane (w.attach lane key q n) := by
  refine ⟨hL.events, hL.down, fun i h hi => ?_⟩
  obtain hi | hi := mem_append.1 (mem_of_getElem? hi)
  · obtain ⟨k, hk⟩ := mem_iff_getElem?.1 hi
    exact hL.awaits k h hk
  · rw [mem_singleton.1 hi]
    trivial

variable [DecidableEq κ]

theorem LastInv.join (hL : LastInv lane w) (hi : w.handles[i]? = some h)
    (ht : Careful lane w.connection.closed t) : LastInv lane (w.join i t) := by
  unfold World.join
  split
  · rename_i j hj
    have hjoined : Careful lane w.connection.closed (t.emit (.joined j)) := ht.emit trivial
    exact hL.apply hi (hjoined.goto trivial)
  · have hown : Safe lane w.connection.closed (t.goto (.processing none)) := ht.goto trivial
    exact (hL.apply hi hown).env rfl rfl hown.careful.down id

theorem LastInv.deliver {q n : Nat} (hL : LastInv lane w) (hd : w.deliver lane key q n = some w') : LastInv lane w' := by
  unfold World.deliver at hd
  split at hd
  · obtain ⟨h, hi, rfl⟩ := map_eq_some_iff.1 hd
    have hturn := hL.turn hi
    have hadopted : Careful lane w.connection.closed ((w.turn h).emit (.adopted n w.now)) := hturn.careful.emit trivial
    exact hL.apply hi ⟨⟨hadopted.events, hadopted.down, hadopted.still⟩, hturn.awaits⟩
  · cases hd
    have hi : (w.attach lane key q n).handles[w.handles.length]? = some (w.fresh lane key q n) := by
      simp [World.attach]
    refine (hL.attach q n).join hi ⟨fun e he => ?_, hL.down, id⟩
    rw [mem_singleton.1 he]
    trivial

theorem LastInv.wake (hL : LastInv lane w) (hw : w.wake lane i = some w') : LastInv lane w' := by
  unfold World.wake at hw
  obtain ⟨h, hi, hw⟩ := bind_eq_some_iff.1 hw
  split at hw
  · rename_i j hp
    obtain ⟨owner, hj, hw⟩ := bind_eq_some_iff.1 hw
    have hturn := (hL.turn hi).careful
    split at hw
    · cases hw
    · cases hw
      have htold : Careful lane w.connection.closed ((w.turn h).emit (.told j)) := hturn.emit trivial
      exact hL.apply hi (ack_safe htold .joined)
    · cases hw
      exact hL.join hi hturn
  · cases hw

/-! ## The exact condition -/

/-- A step that carries out `LeaseDropped` finds the lease with a delivery to come, stale, or without a connection. -/
def dropDue (lane : Lane) (w : World κ) : Action → Bool
  | .move i (.resume _ _) =>
    match w.handles[i]? with
    | none => true
    | some h =>
      match h.phase with
      | .stopping (some .dropped) =>
        !(w.turn h).isLastDelivery lane || (w.turn h).isStale lane || w.connection.closed
      | _ => true
  | _ => true

theorem LastInv.step {a : Action} (hL : LastInv lane w) (hok : dropDue lane w a)
    (hw : w.step lane key a = some w') : LastInv lane w' := by
  cases a with
  | deliver q n => exact hL.deliver hw
  | wake i => exact hL.wake hw
  | move i m =>
    obtain ⟨h, hi, hw⟩ := bind_eq_some_iff.1 hw
    obtain ⟨t, ht, hw⟩ := bind_eq_some_iff.1 hw
    cases hw
    refine hL.apply hi (advance_safe ht (hL.turn hi) ?_)
    rintro encoding nakOk rfl hp hlast
    have hp' : h.phase = .stopping (some .dropped) := hp
    simpa [dropDue, hi, hp', hlast] using hok
  | callback =>
    simp only [World.step] at hw
    split at hw
    · cases hw
    rename_i c rest hc
    cases hw
    have hrest : LastInv lane { w with callbacks := rest } := hL.env rfl rfl hL.down id
    cases c with
    | forget i =>
      simp only [World.runCallback, World.forget]
      split
      · exact hrest
      · split
        · exact hrest.env rfl rfl hL.down id
        · exact hrest
    | release i =>
      simp only [World.runCallback, World.release]
      split
      · exact hrest
      · split
        · exact hrest.env rfl rfl hL.down id
        · exact hrest
  | connected up =>
    simp only [World.step] at hw
    split_ifs at hw with hup
    cases hw
    refine hL.env rfl rfl (fun hc => ?_) id
    have hc : w.connection.closed = true := hc
    simpa [hc] using hup
  | onClosed =>
    cases hw
    exact hL.env rfl rfl (fun _ => rfl) (fun _ => rfl)
  | abort | tick | onDisconnected | onReconnected | suspect | trust =>
    cases hw
    exact hL.env rfl rfl hL.down id

/-- The last delivery of a task is not given up without a result. -/
structure LastKept (lane : Lane) (w : World κ) : Prop where
  nacked : ∀ i n delay time, (i, .nak n delay time) ∈ w.log → lane.isLastDelivery n = false
  ended : ∀ (i : Nat) (h : Handle κ), w.handles[i]? = some h → h.phase ≠ .ended (some .lastDelivery)
  /-- and a lease that is settled on it was stale or without a connection at that moment, or it has a result that was
  acknowledged to its call or to the owner it joined. -/
  settled : ∀ before after i s n (stale closed : Bool), w.log = before ++ (i, .settled s n stale closed) :: after →
    lane.isLastDelivery n →
    s = .dropped ∧ (stale ∨ closed) ∨
      s = .published ∧ ∃ h j streamSeq status, w.handles[i]? = some h ∧
        (j, .stored h.lease.correlation streamSeq status true) ∈ before ∧ (j = i ∨ (i, .joined j) ∈ before)

theorem LastInv.kept (hL : LastInv lane w) (hI : Inv lane key w) : LastKept lane w where
  nacked i n delay time he := hL.events i _ he
  ended i h hi hp := by
    have := hL.awaits i h hi
    rw [hp] at this
    exact this rfl
  settled before after i s n stale closed hlog hlast := by
    have hmem : (i, .settled s n stale closed) ∈ w.log := by simp [hlog]
    obtain rfl | hdropped := hL.events i _ hmem hlast
    · obtain ⟨h, k, k', hi, hrun, hk⟩ := hI.ticket_before hlog
      have hstage : k.stage = .answered := by
        simp only [Ticket.accept, ite_none_right_eq_some] at hk
        obtain ⟨-, hs⟩ | ⟨hstage, -⟩ | ⟨-, hs | hs⟩ := Stage.close_iff.1 hk.1
        · cases hs
        · exact hstage
        · cases hs
        · cases hs
      obtain ⟨j, q, status, hanswered⟩ := hI.answered ⟨_, hlog.symm⟩ hi hrun hstage
      exact .inr ⟨rfl, h, j, q, status, hi, hanswered⟩
    · exact .inl hdropped

/-- A step that is not due settles the last delivery as dropped, with the lease not stale and the connection open. -/
theorem Inv.loses_last {a : Action} (hI : Inv lane key w) (hok : ¬ dropDue lane w a) (hw : w.step lane key a = some w') :
    ¬ LastKept lane w' := by
  unfold dropDue at hok
  split at hok
  · rename_i i encoding nakOk
    split at hok
    · exact absurd rfl hok
    rename_i h hi
    split at hok
    · rename_i hp
      simp only [Bool.or_eq_true, Bool.not_eq_true', not_or, Bool.not_eq_false, Bool.not_eq_true] at hok
      obtain ⟨⟨hlast, hstale⟩, hopen⟩ := hok
      obtain ⟨stage, -, hset, ha⟩ := hI.handles i h hi
      rw [hp] at ha
      cases ha
      have hdropped : (w.turn h).settle lane .dropped =
          { w.turn h with
            lease := { h.lease with settled := some .dropped }
            events := [.settled .dropped h.lease.numDelivered false false] } := by
        unfold Turn.settle
        rw [if_neg (by simp [World.turn, hset, Stage.settled]), hstale]
        simp [World.turn, hopen]
      have hstep : w.step lane key (.move i (.resume encoding nakOk)) =
          some (w.apply i (((w.turn h).settle lane .dropped).leave none)) :=
        step_move hi rfl (by simp [Turn.advance, hp, Turn.takeOutcome])
      rw [hdropped] at hstep
      cases some.inj (hstep.symm.trans hw)
      intro hkept
      obtain ⟨-, hs⟩ | ⟨hs, -⟩ := hkept.settled w.log [] i .dropped h.lease.numDelivered false false rfl hlast
      · simp at hs
      · cases hs
    · exact absurd rfl hok
  · exact absurd rfl hok

/-- The last delivery is kept in every state of a run exactly if no step of the run drops a lease, on the word of a
processor that saw it stale, after it has moved to its last delivery. -/
theorem last_delivery_kept_iff {as : List Action} (hrun : run (World.step lane key) .init as = some w) :
    Always (World.step lane key) (LastKept lane) .init as ↔
      Meets (World.step lane key) (fun w a => dropDue lane w a) .init as := by
  refine always_iff_meets (I := fun w => Inv lane key w ∧ LastInv lane w) ?_ ?_ ?_ ⟨.init, .init⟩ hrun
  · exact fun hI => hI.2.kept hI.1
  · exact fun hI hok hw => ⟨hI.1.step hw, hI.2.step hok hw⟩
  · exact fun hI hok hw => hI.1.loses_last hok hw

def twiceLane : Lane := { audioLane with maxDeliver := 2 }

/-- The last delivery is adopted while the task is processed; the processor fails, and the failure is published. -/
def keptRun : List Action :=
  [.deliver 10 1, .tick 61, .deliver 10 2, .move 0 (.work .crashed), .move 0 .waited, .move 0 (.resume .fits true),
    .move 0 (.puback .acked true), .move 0 (.ackAnswer .ok), .move 0 .finish]

def keptLog : List (Nat × Event Nat) :=
  [(0, .delivered 10 1 0), (0, .adopted 2 61), (0, .stored 1 10 .failed true), (0, .ack 10),
    (0, .settled .published 2 false false)]

theorem last_delivery_kept_published :
    ∃ w, run (World.step twiceLane (· / 10)) .init keptRun = some w ∧ w.log = keptLog ∧
      Always (World.step twiceLane (· / 10)) (LastKept twiceLane) .init keptRun := by
  have hlog : (run (World.step twiceLane (· / 10)) .init keptRun).map World.log = some keptLog := by decide
  have hmeets : Meets (World.step twiceLane (· / 10)) (fun w a => dropDue twiceLane w a) .init keptRun := by decide
  obtain ⟨w, hw, hend⟩ := map_eq_some_iff.1 hlog
  exact ⟨w, hw, hend, (last_delivery_kept_iff hw).2 hmeets⟩

/-- The processor raises `LeaseDropped` only after it saw its own lease stale. -/
def dropsAfterStale (w : World κ) : Action → Bool
  | .move i (.work .dropped) => w.handles[i]?.any fun h => h.sawStale
  | _ => true

/-- The connection is suspected, so no heartbeat is sent; the processor sees the lease stale and raises `LeaseDropped`.
Before the handler takes it, the lease adopts the redelivery, which is the last. -/
def droppedRun : List Action :=
  [.deliver 10 1, .suspect, .tick 61, .move 0 .beat, .move 0 .dropIfStale, .move 0 (.work .dropped), .trust,
    .deliver 10 2, .move 0 .waited, .move 0 (.resume .fits true), .move 0 .finish]

def droppedLog : List (Nat × Event Nat) :=
  [(0, .delivered 10 1 0), (0, .adopted 2 61), (0, .settled .dropped 2 false false)]

/-- The task is dropped on its last delivery, with the lease fresh and the connection open. -/
theorem last_delivery_dropped : ∃ w, run (World.step twiceLane (· / 10)) .init droppedRun = some w ∧
      Meets (World.step twiceLane (· / 10)) (fun w a => dropsAfterStale w a) .init droppedRun ∧
      w.log = droppedLog ∧ ¬ LastKept twiceLane w := by
  have hlog : (run (World.step twiceLane (· / 10)) .init droppedRun).map World.log = some droppedLog := by decide
  have hmeets : Meets (World.step twiceLane (· / 10)) (fun w a => dropsAfterStale w a) .init droppedRun := by decide
  obtain ⟨w, hw, hend⟩ := map_eq_some_iff.1 hlog
  refine ⟨w, hw, hmeets, hend, fun hkept => ?_⟩
  obtain ⟨-, hs⟩ | ⟨hs, -⟩ := hkept.settled [(0, .delivered 10 1 0), (0, .adopted 2 61)] [] 0 .dropped 2 false false hend rfl
  · simp at hs
  · cases hs

end SC.Proof.Worker
