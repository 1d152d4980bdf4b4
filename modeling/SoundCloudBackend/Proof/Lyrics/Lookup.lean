import SoundCloudBackend.Impl.Lyrics.Lookup

/-!
# A settle of a lookup and the inputs of the track

A settle is fenced by the lease of its job, its claim and the generation of the state,
and not by the inputs that the lookup was made with. The fence does for the inputs
exactly if no lookup with a lease is outdated (`settlesOwn_iff`). Three steps can bring
an outdated lookup about: an update of a track that has other inputs than its state,
because the trigger was off while the track was held; a second claim by one lease at the
same generation, after the state was deleted and made again; and the extension of a
lease of a lookup that is outdated already.
-/

namespace SC.Proof.Lyrics

open Impl.Replication (Uuid)
open Impl.Jobs (Lease)
open Impl.Lyrics
open List Option Function

variable {w w' : World} {k : Lookup} {id : Uuid}
variable {queue : Queue} {generation : Int} {leaseId : Uuid}
variable {s : State} {new : Track} {message jobId : Uuid} {by_ : ClaimBy} {claimSeconds milliseconds : Int}

/-! ## What a settle may do -/

/-- The job of the lookup holds the lease that it was claimed under. -/
def holds (w : World) (k : Lookup) : Bool := w.holdsLease k.jobId k.jobGeneration k.jobLeaseId

/-- The claim of the lookup stands, on the generation of the state. -/
def stands (w : World) (k : Lookup) : Bool :=
  match w.states k.trackId, w.queue k.trackId with
  | some s, some queue =>
    s.generation = k.generation ∧ queue.claim.any fun claim => k.owns claim ∧ claim.expiresAt > w.now
  | _, _ => false

/-- The claim stands and the state has other inputs than the lookup. -/
def outdated (w : World) (k : Lookup) : Bool :=
  stands w k ∧ (w.states k.trackId).map State.inputs ≠ some k.inputs

/-- The job of the lookup holds its lease, its claim has not expired, and it was made with the inputs of the state. -/
def Entitled (w : World) (k : Lookup) : Prop :=
  holds w k = true ∧
    (∃ queue claim, w.queue k.trackId = some queue ∧ queue.claim = some claim ∧ k.owns claim = true ∧
      w.now < claim.expiresAt) ∧
    (w.states k.trackId).map State.inputs = some k.inputs

/-- Nothing but the claim of the queue row is changed. -/
structure OnlyClaim (w w' : World) (id : Uuid) : Prop where
  tracks : w'.tracks = w.tracks
  states : w'.states = w.states
  cache : w'.cache = w.cache
  jobs : w'.jobs = w.jobs
  other : ∀ j, j ≠ id → w'.queue j = w.queue j
  queue : (w'.queue id).map (fun queue => { queue with claim := none }) =
    (w.queue id).map fun queue => { queue with claim := none }

/-- A settle that is not entitled to the track changes nothing but the claim. -/
def SettlesOwn (wakeId : String → Int → Uuid) (w : World) : Prop :=
  ∀ k ∈ w.lookups, ∀ outcome w', step wakeId w (.settle k outcome) = some w' → ¬ Entitled w k → OnlyClaim w w' k.trackId

/-- A lookup whose lease is held answers the question its track has now. -/
def Agrees (w : World) : Prop := ∀ k ∈ w.lookups, holds w k = true → outdated w k = false

theorem stands_iff : stands w k = true ↔ ∃ s queue claim, w.states k.trackId = some s ∧ w.queue k.trackId = some queue ∧
    queue.claim = some claim ∧ s.generation = k.generation ∧ k.owns claim = true ∧ w.now < claim.expiresAt := by
  unfold stands
  constructor
  · intro h
    split at h
    · rename_i s queue hs hq
      obtain ⟨hgen, hclaim⟩ := of_decide_eq_true h
      obtain ⟨claim, hc, howns⟩ := (any_eq_true _ _).1 hclaim
      obtain ⟨howns, hexp⟩ := of_decide_eq_true howns
      exact ⟨s, queue, claim, hs, hq, hc, hgen, howns, hexp⟩
    · exact nomatch h
  · rintro ⟨s, queue, claim, hs, hq, hc, hgen, howns, hexp⟩
    rw [hs, hq]
    exact decide_eq_true ⟨hgen, (any_eq_true _ _).2 ⟨claim, hc, decide_eq_true ⟨howns, hexp⟩⟩⟩

theorem claimed_eq_some : w.claimed k = some (s, queue) ↔
    w.states k.trackId = some s ∧ w.queue k.trackId = some queue ∧ holds w k = true ∧
      ∃ claim, queue.claim = some claim ∧ k.owns claim = true ∧ w.now < claim.expiresAt := by
  unfold World.claimed
  constructor
  · intro h
    split at h
    · rename_i s' queue' hs hq
      split_ifs at h with hcond
      cases h
      obtain ⟨claim, hc, howns⟩ := (any_eq_true _ _).1 hcond.2
      obtain ⟨howns, hexp⟩ := of_decide_eq_true howns
      exact ⟨hs, hq, hcond.1, claim, hc, howns, hexp⟩
    · cases h
  · rintro ⟨hs, hq, hholds, claim, hc, howns, hexp⟩
    rw [hs, hq]
    exact if_pos ⟨hholds, (any_eq_true _ _).2 ⟨claim, hc, decide_eq_true ⟨howns, hexp⟩⟩⟩

theorem settle_none (h : w.claimed k = none) (outcome : Outcome) : w.settle k outcome = w := by
  cases outcome with
  | found candidate recheck =>
    rw [World.settle, World.settleFound, h]
    cases w.tracks k.trackId <;> rfl
  | miss => simp only [World.settle, World.settleMiss, World.settleState, h]
  | retry => simp only [World.settle, World.settleRetry, World.settleState, h]

theorem settle_stale (h : w.claimed k = some (s, queue)) (hgen : s.generation ≠ k.generation)
    (outcome : Outcome) : w.settle k outcome = w ∨ w.settle k outcome = w.release k.trackId queue none := by
  cases outcome with
  | found candidate recheck =>
    rw [World.settle, World.settleFound, h]
    cases w.tracks k.trackId with
    | none => exact .inl rfl
    | some t =>
      dsimp only
      rw [if_neg hgen]
      exact .inr rfl
  | miss => simp only [World.settle, World.settleMiss, World.settleState, h, if_neg hgen, or_true]
  | retry => simp only [World.settle, World.settleRetry, World.settleState, h, if_neg hgen, or_true]

theorem onlyClaim_release (hq : w.queue id = some queue) (lookups : List Lookup) :
    OnlyClaim w { w.release id queue none with lookups := lookups } id := by
  have hself : (w.release id queue none).queue id = some { queue with claim := none } := update_self ..
  refine ⟨rfl, rfl, rfl, rfl, fun j hj => update_of_ne hj .., ?_⟩
  rw [hself, hq]
  rfl

theorem onlyClaim_rfl (w : World) (id : Uuid) (lookups : List Lookup) : OnlyClaim w { w with lookups := lookups } id :=
  ⟨rfl, rfl, rfl, rfl, fun _ _ => rfl, rfl⟩

theorem settlesOwn_iff (wakeId : String → Int → Uuid) : SettlesOwn wakeId w ↔ Agrees w := by
  constructor
  · intro h k hk hholds
    by_contra hout
    rw [Bool.not_eq_false] at hout
    obtain ⟨hstands, hinputs⟩ := of_decide_eq_true hout
    obtain ⟨s, queue, claim, hs, hq, hc, hgen, howns, hexp⟩ := stands_iff.1 hstands
    have hclaimed := claimed_eq_some.2 ⟨hs, hq, hholds, claim, hc, howns, hexp⟩
    -- a miss would count on the streak of the state
    have hstep : step wakeId w (.settle k (.miss 0 "")) =
        some { w.settle k (.miss 0 "") with lookups := w.lookups.erase k } := if_pos hk
    have honly := (h k hk _ _ hstep fun hent => hinputs hent.2.2).states
    simp only [World.settle, World.settleMiss, World.settleState, hclaimed, if_pos hgen, World.putState,
      World.release] at honly
    have hself := congrFun honly k.trackId
    rw [update_self, hs] at hself
    have hstreak := congrArg (fun s => s.elim 0 State.missStreak) hself
    simp only [elim_some] at hstreak
    omega
  · intro h k hk outcome w' hstep hent
    rw [step, if_pos hk] at hstep
    cases hstep
    cases hclaimed : w.claimed k with
    | none =>
      rw [settle_none hclaimed]
      exact onlyClaim_rfl w _ _
    | some p =>
      obtain ⟨s, queue⟩ := p
      obtain ⟨hs, hq, hholds, claim, hc, howns, hexp⟩ := claimed_eq_some.1 hclaimed
      have hgen : s.generation ≠ k.generation := by
        intro hgen
        have hstands := stands_iff.2 ⟨s, queue, claim, hs, hq, hc, hgen, howns, hexp⟩
        have hout := of_decide_eq_false (h k hk hholds)
        rw [not_and, not_not] at hout
        exact hent ⟨hholds, ⟨queue, claim, hq, hc, howns, hexp⟩, hout hstands⟩
      obtain heq | heq := settle_stale hclaimed hgen outcome
      · rw [heq]
        exact onlyClaim_rfl w _ _
      · rw [heq]
        exact onlyClaim_release hq _

/-! ## When lookups stay current -/

/-- The track has synced lyrics from outside, so that a refresh deletes its state. -/
def hasSynced (w : World) (t : Track) : Bool :=
  ((w.cache t.scTrackId).filter fun cache => cache.source.external).any fun cache => (nonblank cache.syncedLrc).isSome

def ofLease (k : Lookup) (jobId : Uuid) (generation : Int) (leaseId : Uuid) : Bool :=
  k.jobId = jobId ∧ k.jobGeneration = generation ∧ k.jobLeaseId = leaseId

/-- An update of a track gives the state other inputs only with a new generation, while a claim on it stands. A lease
does not claim a track twice at one generation with different inputs, and is not extended for an outdated lookup. -/
def keepsInputs (w : World) : Action → Bool
  | .putTrack id new _ =>
    new.pipelineHeld ∨ hasSynced w new ∨ World.inputsChanged (w.tracks id) new ∨
      ∀ k ∈ w.lookups, k.trackId = id → holds w k → stands w k → new.inputs = k.inputs
  | .claim _ jobId generation leaseId id claimSeconds =>
    0 < claimSeconds → ∀ k ∈ w.lookups, k.trackId = id → ofLease k jobId generation leaseId →
      (w.states id).all fun s => s.generation = k.generation → s.inputs = k.inputs
  | .heartbeat id generation leaseId milliseconds =>
    0 < milliseconds → (w.leaseOf id generation leaseId).isSome →
      ∀ k ∈ w.lookups, ofLease k id generation leaseId → ¬ outdated w k
  | _ => true

/-- Held lookups are current, and queue rows and leases carry the generation of what they are for. -/
structure Inv (w : World) : Prop where
  agrees : Agrees w
  sync : ∀ id queue, w.queue id = some queue →
    ∃ s, w.states id = some s ∧ ∀ claim, queue.claim = some claim → claim.stateGeneration = s.generation
  granted : ∀ k ∈ w.lookups, k.jobLeaseId ∈ w.leases
  leased : ∀ id job lease, w.jobs id = some job → job.lease = some lease →
    lease.id ∈ w.leases ∧ lease.generation ≤ job.generation

theorem leaseOf_eq_some {lease : Lease} :
    w.leaseOf id generation leaseId = some lease ↔ ∃ job, w.jobs id = some job ∧ job.lease = some lease ∧
      job.generation = generation ∧ lease.generation = generation ∧ lease.id = leaseId := by
  simp only [World.leaseOf, bind_eq_some_iff, filter_eq_some_iff, decide_eq_true_eq]

theorem holds_iff : holds w k = true ↔
    ∃ lease, w.leaseOf k.jobId k.jobGeneration k.jobLeaseId = some lease ∧ w.now < lease.expiresAt := by
  simp only [holds, World.holdsLease, Option.any_eq_true, decide_eq_true_eq, gt_iff_lt]

theorem outdated_iff : outdated w k = true ↔ stands w k = true ∧ (w.states k.trackId).map State.inputs ≠ some k.inputs :=
  decide_eq_true_iff

theorem outdated_congr (hs : w'.states k.trackId = w.states k.trackId) (hq : w'.queue k.trackId = w.queue k.trackId)
    (hnow : w'.now = w.now) : outdated w' k = outdated w k := by
  have hstands : stands w' k = stands w k := by rw [stands, stands, hs, hq, hnow]
  rw [Bool.eq_iff_iff, outdated_iff, outdated_iff, hstands, hs]

theorem holds_congr (hj : w'.jobs = w.jobs) (hnow : w'.now = w.now) : holds w' k = holds w k := by
  simp only [holds, World.holdsLease, World.leaseOf, hj, hnow]

theorem Inv.mono (h : Inv w) (hlookups : ∀ k ∈ w'.lookups, k ∈ w.lookups)
    (hbad : ∀ k ∈ w'.lookups, holds w' k = true → outdated w' k = true → holds w k = true ∧ outdated w k = true)
    (hsync : ∀ id queue, w'.queue id = some queue →
      ∃ s, w'.states id = some s ∧ ∀ claim, queue.claim = some claim → claim.stateGeneration = s.generation)
    (hleases : ∀ lease ∈ w.leases, lease ∈ w'.leases)
    (hleased : ∀ id job lease, w'.jobs id = some job → job.lease = some lease →
      lease.id ∈ w'.leases ∧ lease.generation ≤ job.generation) : Inv w' where
  agrees k hk hholds := by
    by_contra hout
    obtain ⟨hh, ho⟩ := hbad k hk hholds (Bool.not_eq_false _ ▸ hout)
    exact nomatch (h.agrees k (hlookups k hk) hh).symm.trans ho
  sync := hsync
  granted k hk := hleases _ (h.granted k (hlookups k hk))
  leased := hleased

/-- The rows of a track change and nothing else does. -/
structure OnTrack (w w' : World) (id : Uuid) : Prop where
  states : ∀ j, j ≠ id → w'.states j = w.states j
  queue : ∀ j, j ≠ id → w'.queue j = w.queue j
  jobs : w'.jobs = w.jobs
  leases : w'.leases = w.leases
  now : w'.now = w.now

theorem Inv.onTrack (h : Inv w) (ht : OnTrack w w' id) (hlookups : ∀ k ∈ w'.lookups, k ∈ w.lookups)
    (hout : ∀ k ∈ w'.lookups, k.trackId = id → holds w k = true → outdated w' k = true → outdated w k = true)
    (hsync : ∀ queue, w'.queue id = some queue →
      ∃ s, w'.states id = some s ∧ ∀ claim, queue.claim = some claim → claim.stateGeneration = s.generation) :
    Inv w' := by
  refine h.mono hlookups (fun k hk hholds hk' => ?_) (fun j queue hq => ?_) (fun lease hl => ht.leases ▸ hl)
    fun j job lease hj hlease => ?_
  · rw [holds_congr ht.jobs ht.now] at hholds
    refine ⟨hholds, ?_⟩
    by_cases hid : k.trackId = id
    · exact hout k hk hid hholds hk'
    · exact (outdated_congr (ht.states _ hid) (ht.queue _ hid) ht.now).symm.trans hk'
  · by_cases hid : j = id
    · subst hid
      exact hsync queue hq
    · rw [ht.states j hid]
      exact h.sync j queue (ht.queue j hid ▸ hq)
  · rw [ht.leases]
    exact h.leased j job lease (ht.jobs ▸ hj) hlease

/-! ## Statements on states -/

theorem putState_onTrack (w : World) (id : Uuid) (s : State) : OnTrack w (w.putState id s) id :=
  ⟨fun _ hj => update_of_ne hj .., fun _ hj => update_of_ne hj .., rfl, rfl, rfl⟩

theorem putState_states (w : World) (id : Uuid) (s : State) : (w.putState id s).states id = some s :=
  update_self ..

theorem putState_queue (w : World) (id : Uuid) (s : State) :
    (w.putState id s).queue id = some (queueSync s (w.queue id)) :=
  update_self ..

/-- `lyrics_lookup_queue_sync` keeps a claim exactly if it is on the generation of the state. -/
theorem queueSync_claim {queue : Option Queue} {claim : Claim} : (queueSync s queue).claim = some claim ↔
      (∃ q, queue = some q ∧ q.claim = some claim) ∧ claim.stateGeneration = s.generation := by
  cases queue with
  | none => simp [queueSync]
  | some q => simp [queueSync, filter_eq_some_iff]

theorem owns_generation {claim : Claim} (h : k.owns claim = true) : claim.stateGeneration = k.generation :=
  (of_decide_eq_true h).2.2.2

theorem Inv.putState (h : Inv w) {s' : State}
    (hs : ∀ s, w.states id = some s → s'.generation = s.generation → s'.inputs = s.inputs ∨
      ∀ k ∈ w.lookups, k.trackId = id → holds w k = true → stands w k = true → s'.inputs = k.inputs) :
    Inv (w.putState id s') := by
  refine h.onTrack (putState_onTrack w id s') (fun k hk => hk) (fun k hk hid hholds hout => ?_) fun queue hq => ?_
  · subst hid
    obtain ⟨hstands, hinputs⟩ := outdated_iff.1 hout
    rw [putState_states] at hinputs
    obtain ⟨s₁, queue, claim, hs₁, hq, hc, hgen, howns, hexp⟩ := stands_iff.1 hstands
    rw [putState_states] at hs₁
    cases hs₁
    rw [putState_queue] at hq
    cases hq
    obtain ⟨⟨q, hq, hqc⟩, hcgen⟩ := queueSync_claim.1 hc
    obtain ⟨s, hold, hsync⟩ := h.sync k.trackId q hq
    have hsame : s'.generation = s.generation := hcgen.symm.trans (hsync claim hqc)
    have hstands : stands w k = true := stands_iff.2 ⟨s, q, claim, hold, hq, hqc, hsame ▸ hgen, howns, hexp⟩
    obtain heq | hall := hs s hold hsame
    · refine outdated_iff.2 ⟨hstands, ?_⟩
      rw [hold, map_some, ← heq]
      exact hinputs
    · exact absurd (congrArg some (hall k hk rfl hholds hstands)) hinputs
  · rw [putState_queue] at hq
    cases hq
    exact ⟨s', putState_states w id s', fun claim hc => (queueSync_claim.1 hc).2⟩

theorem Inv.dropState (h : Inv w) (id : Uuid) : Inv (w.dropState id) := by
  have hqueue : (w.dropState id).queue id = none := update_self ..
  refine h.onTrack ⟨fun _ hj => update_of_ne hj .., fun _ hj => update_of_ne hj .., rfl, rfl, rfl⟩
    (fun k hk => hk) (fun k hk hid hholds hout => ?_) fun queue hq => nomatch hqueue.symm.trans hq
  subst hid
  obtain ⟨_, queue, _, _, hq, _⟩ := stands_iff.1 (outdated_iff.1 hout).1
  exact nomatch hqueue.symm.trans hq

theorem Inv.updateState (h : Inv w) {p : State → Bool} {set : State → State}
    (hset : ∀ s, (set s).inputs = s.inputs ∨ (set s).generation = s.generation + 1) : Inv (w.updateState id p set) := by
  unfold World.updateState
  split
  · rename_i s hs
    split
    · refine h.putState fun s₁ hs₁ hgen => ?_
      cases hs.symm.trans hs₁
      obtain hinputs | hnew := hset s
      · exact .inl hinputs
      · omega
    · exact h
  · exact h

theorem stands_putState {s s' : State} (hs : w.states k.trackId = some s) (hgen : s'.generation = s.generation)
    (hstands : stands w k = true) : stands (w.putState k.trackId s') k = true := by
  obtain ⟨s₁, queue, claim, hs₁, hq, hc, hgen₁, howns, hexp⟩ := stands_iff.1 hstands
  cases hs.symm.trans hs₁
  refine stands_iff.2 ⟨s', _, claim, putState_states .., putState_queue .., ?_, hgen.trans hgen₁, howns, hexp⟩
  exact queueSync_claim.2 ⟨⟨queue, hq, hc⟩, by rw [owns_generation howns, hgen, hgen₁]⟩

/-- What a refresh does: it deletes the state, leaves it, or writes the inputs of the track. -/
theorem refresh_cases (w : World) (id : Uuid) (old : Option Track) (new : Track) (message : Uuid) :
    (hasSynced w new = true ∧ w.refresh id old new message = w.dropState id) ∨
      (hasSynced w new = false ∧ w.refresh id old new message = w ∧ ∀ s, w.states id = some s → s.inputs = new.inputs) ∨
      (hasSynced w new = false ∧ ∃ s', w.refresh id old new message = w.putState id s' ∧ s'.inputs = new.inputs ∧
        ∀ s, w.states id = some s →
          s'.generation = if World.inputsChanged old new then s.generation + 1 else s.generation) := by
  have hstale {s : State} (hs : ¬ decide (World.inputsChanged old new ∨ World.refreshed new s ≠ s) = true) :
      s.inputs = new.inputs := by
    rw [decide_eq_true_eq, not_or, not_not] at hs
    exact (congrArg State.inputs hs.2).symm
  unfold World.refresh
  dsimp only
  split
  · rename_i hsynced
    exact .inl ⟨hsynced, rfl⟩
  · rename_i hsynced
    rw [Bool.not_eq_true] at hsynced
    split
    · unfold World.updateState
      cases hs : w.states id with
      | none => exact .inr (.inl ⟨hsynced, rfl, fun s hs => nomatch hs⟩)
      | some s =>
        dsimp only
        split
        · refine .inr (.inr ⟨hsynced, _, rfl, rfl, fun s₁ hs₁ => ?_⟩)
          cases hs₁
          rfl
        · rename_i hnot
          refine .inr (.inl ⟨hsynced, rfl, fun s₁ hs₁ => ?_⟩)
          cases hs₁
          exact hstale hnot
    · cases hs : w.states id with
      | none => exact .inr (.inr ⟨hsynced, _, rfl, rfl, fun s hs => nomatch hs⟩)
      | some s =>
        rw [World.updateState, hs]
        dsimp only
        split
        · refine .inr (.inr ⟨hsynced, _, rfl, ?_, fun s₁ hs₁ => ?_⟩)
          · split <;> rfl
          · cases hs₁
            split <;> rfl
        · rename_i hnot
          refine .inr (.inl ⟨hsynced, rfl, fun s₁ hs₁ => ?_⟩)
          cases hs₁
          exact hstale hnot

theorem Inv.setTracks (h : Inv w) (tracks : Uuid → Option Track) : Inv { w with tracks := tracks } :=
  ⟨h.agrees, h.sync, h.granted, h.leased⟩

theorem Inv.putTrack (h : Inv w)
    (hk : keepsInputs w (.putTrack id new message) = true) : Inv (w.putTrack id new message) := by
  have hw := h.setTracks (update w.tracks id (some new))
  unfold World.putTrack
  split
  · exact hw
  · rename_i hheld
    obtain ⟨-, heq⟩ | ⟨-, heq, -⟩ | ⟨hsynced, s', heq, hinputs, hgen⟩ :=
      refresh_cases { w with tracks := update w.tracks id (some new) } id (w.tracks id) new message
    · rw [heq]
      exact hw.dropState id
    · rw [heq]
      exact hw
    · rw [heq]
      refine hw.putState fun s hs hsame => ?_
      have hsame' := hgen s hs
      split at hsame'
      · omega
      · rename_i hchanged
        refine .inr fun k hk' hid hholds hstands => hinputs.trans ?_
        obtain hheld' | hsynced' | hchanged' | hall := of_decide_eq_true hk
        · exact absurd hheld' hheld
        · exact nomatch hsynced.symm.trans hsynced'
        · exact absurd hchanged' hchanged
        · exact hall k hk' hid hholds hstands

/-- A refresh that gives a claimed state other inputs at the same generation leaves its lookup outdated. -/
theorem putTrack_loses (h : Inv w)
    (hk : ¬ keepsInputs w (.putTrack id new message) = true) : ¬ Agrees (w.putTrack id new message) := by
  have hnot := mt decide_eq_true hk
  simp only [not_or, not_forall] at hnot
  obtain ⟨hheld, hsynced, hchanged, k, hmem, rfl, hholds, hstands, hne⟩ := hnot
  obtain ⟨s, queue, claim, hs, -⟩ := stands_iff.1 hstands
  have hsame : s.inputs = k.inputs := by
    by_contra hdiff
    have hout := outdated_iff.2 ⟨hstands, by rw [hs]; exact fun he => hdiff (some.inj he)⟩
    exact nomatch (h.agrees k hmem hholds).symm.trans hout
  unfold World.putTrack
  rw [if_neg hheld]
  obtain ⟨hsynced', -⟩ | ⟨-, -, hinputs⟩ | ⟨-, s', heq, hinputs, hgen⟩ := refresh_cases
    { w with tracks := update w.tracks k.trackId (some new) } k.trackId (w.tracks k.trackId) new message
  · exact absurd hsynced' hsynced
  · exact absurd ((hinputs s hs).symm.trans hsame) hne
  · rw [heq]
    intro hagrees
    have hgen := (hgen s hs).trans (if_neg hchanged)
    have hstands' :=
      @stands_putState { w with tracks := update w.tracks k.trackId (some new) } k s s' hs hgen hstands
    have hout := hagrees k hmem hholds
    refine Bool.false_ne_true (hout.symm.trans (outdated_iff.2 ⟨hstands', ?_⟩))
    rw [putState_states, map_some, hinputs]
    exact fun he => hne (some.inj he)

theorem Inv.markWakeDurable (h : Inv w) (id : Uuid) : Inv (w.markWakeDurable id) := h.updateState fun _ => .inl rfl

theorem Inv.wake (h : Inv w) (wakeId : String → Int → Uuid) (id : Uuid) (track : String) (stamp : Int) :
    Inv (w.wake wakeId id track stamp) := by
  unfold World.wake
  refine Inv.updateState (Inv.updateState (Inv.updateState ?_ ?_) ?_) ?_
  · split
    · rename_i t ht hs
      split
      · exact h.putState fun s hs' => nomatch hs.symm.trans hs'
      · exact h
    · exact h
  · exact fun _ => .inr rfl
  · exact fun _ => .inl rfl
  · exact fun _ => .inl rfl

theorem Inv.backfill (h : Inv w) (id : Uuid) : Inv (w.backfill id) := by
  unfold World.backfill
  split
  · rename_i t ht hs
    dsimp only
    split
    · exact h
    · exact h.putState fun s hs' => nomatch hs.symm.trans hs'
  · exact h

/-! ## Settles -/

theorem Inv.clears (h : Inv w) (ht : OnTrack w w' id) (hlookups : ∀ k ∈ w'.lookups, k ∈ w.lookups)
    (hclaim : ∀ queue, w'.queue id = some queue → queue.claim = none ∧ (w'.states id).isSome) : Inv w' := by
  refine h.onTrack ht hlookups (fun k hk hid hholds hout => ?_) fun queue hq => ?_
  · subst hid
    obtain ⟨_, queue, claim, _, hq, hc, _⟩ := stands_iff.1 (outdated_iff.1 hout).1
    exact nomatch (hclaim queue hq).1.symm.trans hc
  · obtain ⟨hnone, hsome⟩ := hclaim queue hq
    obtain ⟨s, hs⟩ := isSome_iff_exists.1 hsome
    exact ⟨s, hs, fun claim hc => nomatch hnone.symm.trans hc⟩

/-- A settle changes nothing, or leaves no claim on its track. -/
structure Clears (w w' : World) (id : Uuid) : Prop where
  onTrack : OnTrack w w' id
  claim : ∀ queue, w'.queue id = some queue → queue.claim = none ∧ (w'.states id).isSome

theorem clears_release (hs : (w.states id).isSome) : Clears w (w.release id queue none) id := by
  refine ⟨⟨fun _ _ => rfl, fun _ hj => update_of_ne hj .., rfl, rfl, rfl⟩, fun queue' hq => ?_⟩
  have hself : (w.release id queue none).queue id = _ := update_self ..
  cases hself.symm.trans hq
  exact ⟨rfl, hs⟩

theorem clears_settled (s : State) : Clears w ((w.release id queue (some s)).putState id s) id := by
  refine ⟨⟨fun _ hj => update_of_ne hj .., fun j hj => ?_, rfl, rfl, rfl⟩, fun queue' hq => ?_⟩
  · exact (update_of_ne hj ..).trans (update_of_ne hj ..)
  · have hself : (w.release id queue (some s)).queue id = _ := update_self ..
    rw [putState_queue, hself] at hq
    cases hq
    exact ⟨rfl, by rw [putState_states]; rfl⟩

theorem clears_dropState (w : World) (id : Uuid) : Clears w (w.dropState id) id := by
  refine ⟨⟨fun _ hj => update_of_ne hj .., fun _ hj => update_of_ne hj .., rfl, rfl, rfl⟩, ?_⟩
  intro queue hq
  have hself : (w.dropState id).queue id = none := update_self ..
  exact nomatch hself.symm.trans hq

theorem upsert_eq_some {scTrackId : String} {new : Cache} {recheck : Bool}
    (h : w.upsert scTrackId new recheck = some w') : ∃ cache, w' = { w with cache := cache } := by
  unfold World.upsert at h
  split at h
  · cases h
    exact ⟨w.cache, rfl⟩
  · split at h
    · split_ifs at h
      cases h
      exact ⟨_, rfl⟩
    · split at h
      · split_ifs at h
        cases h
        exact ⟨_, rfl⟩
      · cases h
        exact ⟨w.cache, rfl⟩

theorem Clears.of_cache {cache : String → Option Cache} (h : Clears { w with cache := cache } w' id) : Clears w w' id :=
  ⟨⟨h.onTrack.states, h.onTrack.queue, h.onTrack.jobs, h.onTrack.leases, h.onTrack.now⟩, h.claim⟩

theorem settleState_clears (w : World) (k : Lookup) (set : State → State) :
    w.settleState k set = w ∨ Clears w (w.settleState k set) k.trackId := by
  unfold World.settleState
  split
  · rename_i s queue hclaimed
    obtain ⟨hs, -⟩ := claimed_eq_some.1 hclaimed
    split
    · exact .inr (clears_settled (set s))
    · exact .inr (clears_release (by rw [hs]; rfl))
  · exact .inl rfl

theorem settle_clears (w : World) (k : Lookup) (outcome : Outcome) :
    w.settle k outcome = w ∨ Clears w (w.settle k outcome) k.trackId := by
  cases outcome with
  | miss delay outcome | retry failure retryAfter => exact settleState_clears ..
  | found candidate recheck =>
    rw [World.settle, World.settleFound]
    split
    · rename_i t s queue ht hclaimed
      obtain ⟨hs, -⟩ := claimed_eq_some.1 hclaimed
      split
      · split
        · exact .inl rfl
        · rename_i w' hupsert
          obtain ⟨cache, rfl⟩ := upsert_eq_some hupsert
          split
          · exact .inr (clears_settled _).of_cache
          · exact .inr (clears_dropState _ _).of_cache
      · exact .inr (clears_release (by rw [hs]; rfl))
    · exact .inl rfl

theorem Inv.forget (h : Inv w) {lookups : List Lookup} (hsub : lookups ⊆ w.lookups) : Inv { w with lookups := lookups } :=
  h.mono hsub (fun _ _ hholds hout => ⟨hholds, hout⟩) h.sync (fun _ hl => hl) h.leased

theorem Inv.settle (h : Inv w) (k : Lookup) (outcome : Outcome) :
    Inv { w.settle k outcome with lookups := w.lookups.erase k } := by
  have hsub : w.lookups.erase k ⊆ w.lookups := erase_subset
  obtain heq | ⟨⟨hstates, hqueue, hjobs, hleases, hnow⟩, hclaim⟩ := settle_clears w k outcome
  · rw [heq]
    exact h.forget hsub
  · exact h.clears ⟨hstates, hqueue, hjobs, hleases, hnow⟩ hsub hclaim

theorem Inv.releaseExpired (h : Inv w) (id : Uuid) : Inv (w.releaseExpired id) := by
  have hself : (w.releaseExpired id).queue id = (w.queue id).map fun queue =>
      { queue with claim := queue.claim.filter fun claim => claim.expiresAt > w.now } :=
    update_self ..
  have hclaim {queue : Queue} (hq : (w.releaseExpired id).queue id = some queue) : ∃ old, w.queue id = some old ∧
      ∀ claim, queue.claim = some claim → old.claim = some claim := by
    obtain ⟨old, hold, rfl⟩ := map_eq_some_iff.1 (hself.symm.trans hq)
    exact ⟨old, hold, fun claim hc => (filter_eq_some_iff.1 hc).1⟩
  refine h.onTrack ⟨fun _ _ => rfl, fun _ hj => update_of_ne hj .., rfl, rfl, rfl⟩ (fun k hk => hk)
    (fun k hk hid hholds hout => ?_) fun queue hq => ?_
  · subst hid
    obtain ⟨hstands, hinputs⟩ := outdated_iff.1 hout
    obtain ⟨s, queue, claim, hs, hq, hc, hrest⟩ := stands_iff.1 hstands
    obtain ⟨old, hold, hsame⟩ := hclaim hq
    exact outdated_iff.2 ⟨stands_iff.2 ⟨s, old, claim, hs, hold, hsame claim hc, hrest⟩, hinputs⟩
  · obtain ⟨old, hold, hsame⟩ := hclaim hq
    obtain ⟨s, hs, hgen⟩ := h.sync id old hold
    exact ⟨s, hs, fun claim hc => hgen claim (hsame claim hc)⟩

/-! ## Claims -/

theorem claim_eq_some (hc : w.claim by_ jobId generation leaseId id claimSeconds = some w') :
    ∃ s queue, w.states id = some s ∧ w.queue id = some queue ∧ w.holdsLease jobId generation leaseId = true ∧
      w'.states = w.states ∧ w'.jobs = w.jobs ∧ w'.leases = w.leases ∧ w'.now = w.now ∧
      (∀ j, j ≠ id → w'.queue j = w.queue j) ∧
      (∃ queue', w'.queue id = some queue' ∧
        queue'.claim = some ⟨jobId, generation, leaseId, s.generation, w.now + seconds claimSeconds⟩) ∧
      w'.lookups = ⟨jobId, generation, leaseId, id, s.scTrackId, s.generation, s.inputs, s.missStreak, s.failureStreak⟩ ::
        w.lookups := by
  unfold World.claim at hc
  split at hc
  · rename_i s queue hs hq
    split_ifs at hc with hcond
    cases hc
    exact ⟨s, queue, hs, hq, hcond.2.1, rfl, rfl, rfl, rfl, fun j hj => update_of_ne hj ..,
      ⟨_, update_self .., rfl⟩, rfl⟩
  · cases hc

theorem Inv.claim (h : Inv w) {by_ : ClaimBy} {jobId : Uuid} {claimSeconds : Int}
    (hk : keepsInputs w (.claim by_ jobId generation leaseId id claimSeconds) = true)
    (hc : w.claim by_ jobId generation leaseId id claimSeconds = some w') : Inv w' := by
  obtain ⟨s, queue, hs, hq, hholds, hstates, hjobs, hleases, hnow, hother, ⟨queue', hq', hclaim⟩, hlookups⟩ :=
    claim_eq_some hc
  have hkeep := of_decide_eq_true hk
  refine ⟨fun k hmem hkholds => ?_, fun j q hj => ?_, fun k hmem => ?_, fun j job lease hj hl => ?_⟩
  · rw [holds_congr hjobs hnow] at hkholds
    rw [hlookups] at hmem
    by_contra hout
    obtain ⟨hstands, hinputs⟩ := outdated_iff.1 (Bool.not_eq_false _ ▸ hout)
    rw [hstates] at hinputs
    obtain ⟨s₁, q₁, claim, hs₁, hq₁, hc₁, hgen, howns, hexp⟩ := stands_iff.1 hstands
    rw [hstates] at hs₁
    obtain rfl | hold := mem_cons.1 hmem
    · exact hinputs (by rw [hs]; rfl)
    · by_cases hid : k.trackId = id
      · subst hid
        cases hq'.symm.trans hq₁
        cases hclaim.symm.trans hc₁
        cases hs.symm.trans hs₁
        obtain ⟨hjob, hjgen, hlease, -⟩ := of_decide_eq_true howns
        have hpos : 0 < claimSeconds := by
          rw [hnow] at hexp
          unfold seconds at hexp
          dsimp only at hexp
          omega
        have hall := hkeep hpos k hold rfl (decide_eq_true ⟨hjob.symm, hjgen.symm, hlease.symm⟩)
        rw [hs] at hall hinputs
        exact hinputs (congrArg some (of_decide_eq_true hall hgen))
      · have hsame := @outdated_congr w w' k (by rw [hstates]) (hother _ hid) hnow
        rw [h.agrees k hold hkholds] at hsame
        exact hout hsame
  · by_cases hid : j = id
    · subst hid
      cases hq'.symm.trans hj
      refine ⟨s, by rw [hstates]; exact hs, fun claim hc => ?_⟩
      cases hclaim.symm.trans hc
      rfl
    · rw [hstates]
      exact h.sync j q (hother j hid ▸ hj)
  · rw [hlookups] at hmem
    rw [hleases]
    obtain rfl | hmem := mem_cons.1 hmem
    · obtain ⟨lease, hlease, -⟩ := (any_eq_true _ _).1 hholds
      obtain ⟨job, hjob, hl, -, -, rfl⟩ := leaseOf_eq_some.1 hlease
      exact (h.leased jobId job lease hjob hl).1
    · exact h.granted k hmem
  · rw [hleases]
    exact h.leased j job lease (hjobs ▸ hj) hl

/-- A claim at the generation of an earlier one of the lease with other inputs leaves that lookup outdated. -/
theorem claim_loses (hk : ¬ keepsInputs w (.claim by_ jobId generation leaseId id claimSeconds) = true)
    (hc : w.claim by_ jobId generation leaseId id claimSeconds = some w') : ¬ Agrees w' := by
  obtain ⟨s, queue, hs, hq, hholds, hstates, hjobs, hleases, hnow, hother, ⟨queue', hq', hclaim⟩, hlookups⟩ :=
    claim_eq_some hc
  have hnot := mt decide_eq_true hk
  simp only [Classical.not_imp, not_forall] at hnot
  obtain ⟨hpos, k, hmem, rfl, hof, hall⟩ := hnot
  obtain ⟨rfl, rfl, rfl⟩ := of_decide_eq_true hof
  rw [hs] at hall
  have hdiff := mt decide_eq_true hall
  rw [Classical.not_imp] at hdiff
  intro hagrees
  have hout := hagrees k (by rw [hlookups]; exact mem_cons_of_mem _ hmem) (by rw [holds_congr hjobs hnow]; exact hholds)
  refine Bool.false_ne_true (hout.symm.trans (outdated_iff.2
    ⟨stands_iff.2 ⟨s, queue', _, ?_, hq', hclaim, hdiff.1, ?_, ?_⟩, ?_⟩))
  · rw [hstates]
    exact hs
  · exact decide_eq_true ⟨rfl, rfl, rfl, hdiff.1⟩
  · rw [hnow]
    unfold seconds
    dsimp only
    omega
  · rw [hstates, hs]
    exact fun he => hdiff.2 (some.inj he)

/-! ## Leases -/

theorem Inv.setJob (h : Inv w) {job' : Option Job} {leases : List Uuid} (hleases : ∀ lease ∈ w.leases, lease ∈ leases)
    (hholds : ∀ k ∈ w.lookups, k.jobId = id → ∀ job lease, job' = some job → job.lease = some lease →
      job.generation = k.jobGeneration → lease.generation = k.jobGeneration → lease.id = k.jobLeaseId →
      w.now < lease.expiresAt → outdated w k = true → holds w k = true)
    (hleased : ∀ job lease, job' = some job → job.lease = some lease →
      lease.id ∈ leases ∧ lease.generation ≤ job.generation) :
    Inv { w with jobs := update w.jobs id job', leases := leases } := by
  refine h.mono (fun k hk => hk) (fun k hk hk' hout => ?_) h.sync hleases fun j job lease hj hl => ?_
  · have hout : outdated w k = true := hout
    refine ⟨?_, hout⟩
    obtain ⟨lease, hlease, hexp⟩ := holds_iff.1 hk'
    obtain ⟨job, hjob, hl, hgen, hlgen, hid⟩ := leaseOf_eq_some.1 hlease
    dsimp only at hjob
    by_cases hself : k.jobId = id
    · rw [hself, update_self] at hjob
      exact hholds k hk hself job lease hjob hl hgen hlgen hid hexp hout
    · rw [update_of_ne hself] at hjob
      exact holds_iff.2 ⟨lease, leaseOf_eq_some.2 ⟨job, hjob, hl, hgen, hlgen, hid⟩, hexp⟩
  · dsimp only at hj
    by_cases hself : j = id
    · rw [hself, update_self] at hj
      exact hleased job lease hj hl
    · rw [update_of_ne hself] at hj
      exact ⟨hleases _ (h.leased j job lease hj hl).1, (h.leased j job lease hj hl).2⟩

theorem withLease_cases (w : World) (id : Uuid) (generation : Int) (leaseId : Uuid) (set : Job → Option Job) :
    w.withLease id generation leaseId set = w ∨ ∃ job lease, w.jobs id = some job ∧
      w.leaseOf id generation leaseId = some lease ∧
      w.withLease id generation leaseId set = { w with jobs := update w.jobs id (set job) } := by
  unfold World.withLease
  split
  · rename_i job lease hjob hlease
    exact .inr ⟨job, lease, hjob, hlease, rfl⟩
  · exact .inl rfl

theorem Inv.complete (h : Inv w) (id : Uuid) (generation : Int) (leaseId : Uuid) :
    Inv (w.withLease id generation leaseId fun _ => none) := by
  obtain heq | ⟨job, lease, -, -, heq⟩ := withLease_cases w id generation leaseId fun _ => none
  · rw [heq]
    exact h
  · rw [heq]
    exact h.setJob (fun _ hl => hl) (fun _ _ _ _ _ hj => nomatch hj) fun _ _ hj => nomatch hj

theorem Inv.retry (h : Inv w) (id : Uuid) (generation : Int) (leaseId : Uuid) :
    Inv (w.withLease id generation leaseId fun job => some { job with lease := none }) := by
  obtain heq | ⟨job, lease, -, -, heq⟩ := withLease_cases w id generation leaseId fun job => some { job with lease := none }
  · rw [heq]
    exact h
  · rw [heq]
    refine h.setJob (fun _ hl => hl) (fun _ _ _ _ _ hj hl => ?_) fun _ _ hj hl => ?_
    · cases hj
      exact nomatch hl
    · cases hj
      exact nomatch hl

theorem Inv.releaseLease (h : Inv w) (id : Uuid) : Inv (w.releaseLease id) := by
  refine h.setJob (fun _ hl => hl) (fun k hk hid job lease hj hl hgen hlgen hlid hexp _ => ?_) fun job lease hj hl => ?_
  · obtain ⟨job, hjob, rfl⟩ := map_eq_some_iff.1 hj
    have hold := (filter_eq_some_iff.1 hl).1
    exact holds_iff.2 ⟨lease, leaseOf_eq_some.2 ⟨job, hid ▸ hjob, hold, hgen, hlgen, hlid⟩, hexp⟩
  · obtain ⟨job, hjob, rfl⟩ := map_eq_some_iff.1 hj
    exact h.leased id job lease hjob (filter_eq_some_iff.1 hl).1

theorem Inv.enqueue (h : Inv w) (id : Uuid) (kind : Kind) : Inv (w.enqueue id kind) := by
  unfold World.enqueue
  cases hjob : w.jobs id with
  | none =>
    refine h.setJob (fun _ hl => hl) (fun k hk hid job lease hj hl => ?_) fun job lease hj hl => ?_
    · cases hj
      exact nomatch hl
    · cases hj
      exact nomatch hl
  | some old =>
    refine h.setJob (fun _ hl => hl) (fun k hk hid job lease hj hl hgen hlgen _ _ _ => ?_) fun job lease hj hl => ?_
    · -- the lease is of the generation before
      cases hj
      have hle := (h.leased id old lease hjob hl).2
      dsimp only at hgen
      omega
    · cases hj
      have hle := h.leased id old lease hjob hl
      exact ⟨hle.1, by dsimp only; omega⟩

theorem Inv.leaseJob (h : Inv w) (hl : w.leaseJob id leaseId milliseconds = some w') : Inv w' := by
  unfold World.leaseJob at hl
  split at hl
  · rename_i job hjob
    split_ifs at hl with hfree
    cases hl
    refine h.setJob (fun _ hl => mem_cons_of_mem _ hl) (fun k hk hid job lease hj hl _ _ hlid _ _ => ?_)
      fun job lease hj hl => ?_
    · cases hj
      cases hl
      -- a lookup is of an earlier lease
      have hold : leaseId = k.jobLeaseId := hlid
      exact absurd (hold ▸ h.granted k hk) hfree.2
    · cases hj
      cases hl
      exact ⟨mem_cons_self, le_rfl⟩
  · cases hl

theorem Inv.heartbeat (h : Inv w) (hk : keepsInputs w (.heartbeat id generation leaseId milliseconds) = true) :
    Inv (w.heartbeat id generation leaseId milliseconds) := by
  unfold World.heartbeat
  obtain heq | ⟨old, lease, hjob, hlease, heq⟩ := withLease_cases w id generation leaseId fun job =>
    some { job with lease := some ⟨leaseId, generation, w.now + Impl.Jobs.milliseconds milliseconds⟩ }
  · rw [heq]
    exact h
  · rw [heq]
    obtain ⟨job, hjob', hl, hgen, hlgen, hlid⟩ := leaseOf_eq_some.1 hlease
    cases hjob.symm.trans hjob'
    refine h.setJob (fun _ hl => hl) (fun k hk' hid job' lease' hj hl' _ hkgen hkid hexp hout => ?_)
      fun job' lease' hj hl' => ?_
    · cases hj
      cases hl'
      have hpos : 0 < milliseconds := by
        unfold Impl.Jobs.milliseconds at hexp
        dsimp only at hexp
        omega
      have hsome : (w.leaseOf id generation leaseId).isSome = true := by
        rw [hlease]
        rfl
      exact absurd hout (of_decide_eq_true hk hpos hsome k hk' (decide_eq_true ⟨hid, hkgen.symm, hkid.symm⟩))
    · cases hj
      cases hl'
      exact ⟨hlid ▸ (h.leased id old lease hjob hl).1, hgen.ge⟩

theorem heartbeat_loses (hk : ¬ keepsInputs w (.heartbeat id generation leaseId milliseconds) = true) :
    ¬ Agrees (w.heartbeat id generation leaseId milliseconds) := by
  have hnot := mt decide_eq_true hk
  simp only [Classical.not_imp, not_forall, not_not] at hnot
  obtain ⟨hpos, hsome, k, hmem, hof, hout⟩ := hnot
  obtain ⟨rfl, rfl, rfl⟩ := of_decide_eq_true hof
  obtain ⟨lease, hlease⟩ := isSome_iff_exists.1 hsome
  obtain ⟨job, hjob, -, hgen, -⟩ := leaseOf_eq_some.1 hlease
  unfold World.heartbeat World.withLease
  rw [hjob, hlease]
  intro hagrees
  refine Bool.false_ne_true ((hagrees k hmem (holds_iff.2
    ⟨_, leaseOf_eq_some.2 ⟨_, update_self .., rfl, hgen, rfl, rfl⟩, ?_⟩)).symm.trans hout)
  unfold Impl.Jobs.milliseconds
  dsimp only
  omega

/-! ## Main result -/

theorem Inv.start (now : Int) : Inv (World.start now) where
  agrees := forall_mem_nil _
  sync _ queue hq := nomatch (hq : none = some queue)
  granted := forall_mem_nil _
  leased _ job _ hj := nomatch (hj : none = some job)

theorem Inv.step (h : Inv w) (wakeId : String → Int → Uuid) {a : Action} (hk : keepsInputs w a = true)
    (hs : step wakeId w a = some w') : Inv w' := by
  cases a with
  | putTrack id new message =>
    cases hs
    exact h.putTrack hk
  | setCache scTrackId row =>
    cases hs
    exact ⟨h.agrees, h.sync, h.granted, h.leased⟩
  | wake id track stamp =>
    cases hs
    exact h.wake wakeId id track stamp
  | markWakeDurable id =>
    cases hs
    exact h.markWakeDurable id
  | backfill id =>
    cases hs
    exact h.backfill id
  | claim by_ jobId generation leaseId id claimSeconds => exact h.claim hk hs
  | settle k outcome =>
    rw [Impl.Lyrics.step] at hs
    split_ifs at hs
    cases hs
    exact h.settle k outcome
  | abandon k =>
    cases hs
    exact h.forget erase_subset
  | releaseExpired id =>
    cases hs
    exact h.releaseExpired id
  | enqueue id kind =>
    cases hs
    exact h.enqueue id kind
  | leaseJob id leaseId milliseconds => exact h.leaseJob hs
  | heartbeat id generation leaseId milliseconds =>
    cases hs
    exact h.heartbeat hk
  | complete id generation leaseId =>
    cases hs
    exact h.complete id generation leaseId
  | retry id generation leaseId =>
    cases hs
    exact h.retry id generation leaseId
  | releaseLease id =>
    cases hs
    exact h.releaseLease id
  | tick microseconds =>
    cases hs
    -- what has not expired later has not expired now
    refine h.mono (fun k hk => hk) (fun k hk hholds hout => ?_) h.sync (fun _ hl => hl) h.leased
    obtain ⟨lease, hlease, hexp⟩ := holds_iff.1 hholds
    obtain ⟨hstands, hinputs⟩ := outdated_iff.1 hout
    obtain ⟨s, queue, claim, hs, hq, hc, hgen, howns, hcexp⟩ := stands_iff.1 hstands
    dsimp only at hexp hcexp
    exact ⟨holds_iff.2 ⟨lease, hlease, by omega⟩,
      outdated_iff.2 ⟨stands_iff.2 ⟨s, queue, claim, hs, hq, hc, hgen, howns, by omega⟩, hinputs⟩⟩

theorem step_loses (h : Inv w) (wakeId : String → Int → Uuid) {a : Action} (hk : ¬ keepsInputs w a = true)
    (hs : step wakeId w a = some w') : ¬ Agrees w' := by
  cases a with
  | putTrack id new message =>
    cases hs
    exact putTrack_loses h hk
  | claim by_ jobId generation leaseId id claimSeconds => exact claim_loses hk hs
  | heartbeat id generation leaseId milliseconds =>
    cases hs
    exact heartbeat_loses hk
  | setCache | wake | markWakeDurable | backfill | settle | abandon | releaseExpired | enqueue | leaseJob | complete
  | retry | releaseLease | tick => exact absurd rfl hk

/-- In a run, no settle changes more than a claim without being entitled to the track, exactly if every step keeps the
inputs of the lookups. -/
theorem settles_own_iff (wakeId : String → Int → Uuid) (now : Int) {as : List Action} {w : World}
    (hrun : run (step wakeId) (World.start now) as = some w) :
    Always (step wakeId) (SettlesOwn wakeId) (World.start now) as ↔
      Meets (step wakeId) (fun w a => keepsInputs w a = true) (World.start now) as :=
  always_iff_meets (fun h => (settlesOwn_iff wakeId).2 h.agrees) (fun h hk hs => h.step wakeId hk hs)
    (fun h hk hs hown => step_loses h wakeId hk hs ((settlesOwn_iff wakeId).1 hown)) (Inv.start now) hrun

def song (title : String) (held : Bool) : Track :=
  ⟨"42", title, none, some "b", 180000, none, none, none, none, 3, held, 0⟩

/-- The lookup of a track with the title `x`, by a job with one lease. -/
def question : Lookup := ⟨7, 1, 8, 1, "42", 1, (song "x" false).inputs, 0, 0⟩

def lyrics : Outcome := .found ⟨.genius, none, some "l"⟩ false

def renamed : List Action :=
  [.putTrack 1 (song "x" false) 100, .enqueue 7 .lookup, .leaseJob 7 8 1000, .claim (.target "42") 7 1 8 1 900,
    .putTrack 1 (song "y" false) 101, .settle question lyrics, .wake 1 "42" 5, .heartbeat 7 1 8 1000,
    .claim (.target "42") 7 1 8 1 900]

theorem settles_own_renamed : Always (step fun _ _ => 0) (SettlesOwn fun _ _ => 0) (World.start 0) renamed := by
  obtain ⟨w, hw, -⟩ := map_eq_some_iff.1
    (show (run (step fun _ _ => 0) (World.start 0) renamed).map (fun w => w.cache "42") = some none by decide)
  exact (settles_own_iff (fun _ _ => 0) 0 hw).2 (by decide)

/-- The track is renamed while it is held, and then released. -/
def renamedHeld : List Action :=
  [.putTrack 1 (song "x" false) 100, .enqueue 7 .lookup, .leaseJob 7 8 1000, .claim (.target "42") 7 1 8 1 900,
    .putTrack 1 (song "y" true) 101, .putTrack 1 (song "y" false) 102]

/-- Between two claim statements of a sweep the state is deleted for lyrics that come and go, and made again. -/
def madeAgain : List Action :=
  [.putTrack 1 (song "x" false) 100, .enqueue 7 .lookupSweep, .leaseJob 7 8 1000, .claim (.priority 0 5) 7 1 8 1 900,
    .setCache "42" (some ⟨some 1, some "s", none, .lrclib, none, none, none, none, none, none, none, 1, 0⟩),
    .putTrack 1 (song "y" false) 101, .setCache "42" none, .putTrack 1 (song "y" false) 102,
    .claim .oldest 7 1 8 1 900]

/-- After the run the lookup stores its lyrics, and is not entitled to. -/
def StoresOther (as : List Action) : Prop :=
  ∃ w w', run (step fun _ _ => 0) (World.start 0) as = some w ∧ question ∈ w.lookups ∧ ¬ Entitled w question ∧
    step (fun _ _ => 0) w (.settle question lyrics) = some w' ∧ w.cache "42" = none ∧ (w'.cache "42").isSome

theorem storesOther_of_run {as : List Action}
    (h : (run (step fun _ _ => 0) (World.start 0) as).map (fun w => decide (question ∈ w.lookups ∧
      (w.states 1).map State.inputs ≠ some question.inputs ∧ w.cache "42" = none ∧
      (step (fun _ _ => 0) w (.settle question lyrics)).any fun w' => (w'.cache "42").isSome)) = some true) :
    StoresOther as := by
  obtain ⟨w, hw, hend⟩ := map_eq_some_iff.1 h
  obtain ⟨hmem, hinputs, hcache, hstores⟩ := of_decide_eq_true hend
  obtain ⟨w', hstep, hsome⟩ := (any_eq_true _ _).1 hstores
  exact ⟨w, w', hw, hmem, fun hent => hinputs hent.2.2, hstep, hcache, hsome⟩

theorem old_lyrics_stored : StoresOther renamedHeld ∧ StoresOther madeAgain :=
  ⟨storesOther_of_run (by decide), storesOther_of_run (by decide)⟩

end SC.Proof.Lyrics
