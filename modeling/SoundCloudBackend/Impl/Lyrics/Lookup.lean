import SoundCloudBackend.Impl.Jobs.Queue

/-!
# Lookups of lyrics

The tables `lyrics_lookup_state` and `lyrics_lookup_queue` with their triggers
(`0283_lyrics_lookup_queue_claims.sql`), the statements of the lookup handler
(`jobs/queries/lyrics/lookup_*.sql`, `handlers/lyrics/lookup.rs`), and the leases of
background jobs as far as these read them. Every statement is a step, with its triggers;
a statement on several tracks is a step for each of them. A lookup runs from its claim to
its settle, for any time, and any number of lookups run at once.

Times are microseconds. The claim columns of a queue row are all set or all NULL by a
CHECK. `scd_uuid('lyrics.wake', …)` is a parameter.
-/

namespace SC.Impl.Lyrics

open Replication (Uuid)
open Jobs (Lease)
open Function

/-! ## Texts -/

def btrimOf (chars : List Char) (s : String) : String :=
  String.ofList (((s.toList.dropWhile (· ∈ chars)).reverse.dropWhile (· ∈ chars)).reverse)

def btrim (s : String) : String := btrimOf [' '] s

def nullif (s : String) : Option String := if s = "" then none else some s

def nonblank (s : Option String) : Option String := s.bind fun s => nullif (btrim s)

def seconds (n : Int) : Int := n * 1000000

/-! ## Tables -/

/-- What a lookup is made with. -/
structure Inputs where
  title : String
  artist : String
  durationMs : Int
  geniusSongId : Option Int
  geniusUrl : Option String
  releaseDate : Option Int
  scCreatedAt : Option Int
  deriving DecidableEq

structure Track where
  scTrackId : String
  title : String
  metadataArtist : Option String
  uploaderUsername : Option String
  durationMs : Int
  geniusSongId : Option Int
  geniusUrl : Option String
  releaseDate : Option Int
  scCreatedAt : Option Int
  indexPriority : Int
  pipelineHeld : Bool
  createdAt : Int
  deriving DecidableEq

def Track.inputs (t : Track) : Inputs where
  title := btrim t.title
  artist := ((nonblank t.metadataArtist).or (nonblank t.uploaderUsername)).getD ""
  durationMs := t.durationMs
  geniusSongId := t.geniusSongId
  geniusUrl := nonblank t.geniusUrl
  releaseDate := t.releaseDate
  scCreatedAt := t.scCreatedAt

inductive Status where
  | pending | retry | notFound
  deriving DecidableEq

structure State where
  scTrackId : String
  status : Status
  generation : Int
  priority : Int
  nextRunAt : Int
  inputs : Inputs
  missStreak : Int
  failureStreak : Int
  lastOutcome : Option String
  lastError : Option String
  retryAfterAt : Option Int
  wakeMessageId : Option Uuid
  wakeGeneration : Option Int
  wakeDurableAt : Option Int
  createdAt : Int
  updatedAt : Int
  deriving DecidableEq

/-- The claim columns of `lyrics_lookup_queue`. -/
structure Claim where
  jobId : Uuid
  jobGeneration : Int
  jobLeaseId : Uuid
  stateGeneration : Int
  expiresAt : Int
  deriving DecidableEq

structure Queue where
  priority : Int
  nextRunAt : Int
  createdAt : Int
  wakeAt : Option Int
  attempts : Int
  lastAttemptAt : Option Int
  claim : Option Claim
  deriving DecidableEq

inductive Source where
  | lrclib | musixmatch | genius | netease | selfGen
  deriving DecidableEq

def Source.external : Source → Bool
  | .lrclib | .musixmatch | .genius | .netease => true
  | .selfGen => false

structure Cache where
  trackId : Option Uuid
  syncedLrc : Option String
  plainText : Option String
  source : Source
  plainSource : Option Source
  syncedSource : Option Source
  syncedVersion : Option Int
  language : Option String
  languageConfidence : Option Int
  embeddedAt : Option Int
  embeddingState : Option String
  contentGeneration : Int
  updatedAt : Int
  deriving DecidableEq

/-- `lyrics_cache_text_present` and `lyrics_cache_text_size`. -/
def Cache.valid (c : Cache) : Bool :=
  ((nonblank c.plainText).isSome ∨ (nonblank c.syncedLrc).isSome) ∧
    (c.plainText.getD "").utf8ByteSize ≤ 819200 ∧ (c.syncedLrc.getD "").utf8ByteSize ≤ 819200

inductive Kind where
  | lookup | lookupSweep
  deriving DecidableEq

structure Job where
  kind : Kind
  generation : Int
  lease : Option Lease
  deriving DecidableEq

/-- `LookupClaim`, with the leased job. -/
structure Lookup where
  jobId : Uuid
  jobGeneration : Int
  jobLeaseId : Uuid
  trackId : Uuid
  scTrackId : String
  generation : Int
  inputs : Inputs
  missStreak : Int
  failureStreak : Int
  deriving DecidableEq

/-- The tables, the running lookups and the time. `leases` are all ids that `gen_random_uuid` made for a lease. -/
structure World where
  tracks : Uuid → Option Track
  states : Uuid → Option State
  queue : Uuid → Option Queue
  cache : String → Option Cache
  jobs : Uuid → Option Job
  leases : List Uuid
  lookups : List Lookup
  now : Int

def World.start (now : Int) : World :=
  ⟨fun _ => none, fun _ => none, fun _ => none, fun _ => none, fun _ => none, [], [], now⟩

/-! ## Triggers -/

/-- `open_wake` of `lyrics_lookup_queue_sync`. -/
def State.openWake (s : State) : Option Int :=
  if s.wakeMessageId.isSome ∧ s.wakeDurableAt = none then some s.updatedAt else none

def queueSync (s : State) : Option Queue → Queue
  | none => ⟨s.priority, s.nextRunAt, s.createdAt, s.openWake, 0, none, none⟩
  | some queue =>
    { queue with
      priority := s.priority
      nextRunAt := s.nextRunAt
      createdAt := s.createdAt
      wakeAt := s.openWake
      claim := queue.claim.filter fun claim => claim.stateGeneration = s.generation }

namespace World

def putState (w : World) (id : Uuid) (s : State) : World :=
  { w with
    states := update w.states id (some s)
    queue := update w.queue id (some (queueSync s (w.queue id))) }

def dropState (w : World) (id : Uuid) : World :=
  { w with states := update w.states id none, queue := update w.queue id none }

/-- `UPDATE lyrics_lookup_state … WHERE track_id = id AND …`. -/
def updateState (w : World) (id : Uuid) (p : State → Bool) (set : State → State) : World :=
  match w.states id with
  | some s => if p s then w.putState id (set s) else w
  | none => w

def inputsChanged (old : Option Track) (new : Track) : Bool :=
  old.all fun old => old.scTrackId ≠ new.scTrackId ∨ old.inputs ≠ new.inputs

def refreshed (new : Track) (s : State) : State :=
  { s with scTrackId := new.scTrackId, priority := min s.priority new.indexPriority, inputs := new.inputs }

def refresh (w : World) (id : Uuid) (old : Option Track) (new : Track) (message : Uuid) : World :=
  let cache := (w.cache new.scTrackId).filter fun cache => cache.source.external
  let changed := inputsChanged old new
  let stale (s : State) : Bool := changed ∨ refreshed new s ≠ s
  if cache.any fun cache => (nonblank cache.syncedLrc).isSome then w.dropState id
  else if cache.any fun cache => (nonblank cache.plainText).isSome then
    w.updateState id stale fun s =>
      { refreshed new s with generation := if changed then s.generation + 1 else s.generation, updatedAt := w.now }
  else
    match w.states id with
    | none =>
      w.putState id
        { scTrackId := new.scTrackId, status := .pending, generation := 1, priority := new.indexPriority
          nextRunAt := w.now, inputs := new.inputs, missStreak := 0, failureStreak := 0, lastOutcome := none
          lastError := none, retryAfterAt := none, wakeMessageId := some message, wakeGeneration := some 1
          wakeDurableAt := none, createdAt := new.createdAt, updatedAt := w.now }
    | some _ =>
      w.updateState id stale fun s =>
        let s' := { refreshed new s with updatedAt := w.now }
        if changed then
          { s' with
            status := .pending
            generation := s.generation + 1
            nextRunAt := w.now
            missStreak := 0
            failureStreak := 0
            lastOutcome := none
            lastError := none
            retryAfterAt := none
            wakeMessageId := some message
            wakeGeneration := some (s.generation + 1)
            wakeDurableAt := none }
        else s'

/-- An insert or update of a track, with the trigger `tracks_lyrics_lookup_state_refresh`. -/
def putTrack (w : World) (id : Uuid) (new : Track) (message : Uuid) : World :=
  let w' := { w with tracks := update w.tracks id (some new) }
  if new.pipelineHeld then w' else w'.refresh id (w.tracks id) new message

/-! ## Wakes -/

/-- `scd_cmd_lyrics_wake` on the state of a track. -/
def wake (wakeId : String → Int → Uuid) (w : World) (id : Uuid) (track : String) (stamp : Int) : World :=
  let hasText := (w.cache track).any fun cache => (nonblank cache.plainText).isSome ∨ (nonblank cache.syncedLrc).isSome
  let inserted :=
    match w.tracks id, w.states id with
    | some t, none =>
      if t.scTrackId = track ∧ ¬ hasText then
        w.putState id
          { scTrackId := t.scTrackId, status := .pending, generation := 1, priority := 0, nextRunAt := stamp
            inputs := t.inputs, missStreak := 0, failureStreak := 0, lastOutcome := none, lastError := none
            retryAfterAt := none, wakeMessageId := some (wakeId track 1), wakeGeneration := some 1
            wakeDurableAt := none, createdAt := t.createdAt, updatedAt := stamp }
      else w
    | _, _ => w
  let reopened :=
    inserted.updateState id
      (fun s => s.scTrackId = track ∧ (s.status = .retry ∨ s.status = .notFound) ∧ s.nextRunAt ≤ stamp) fun s =>
      { s with
        status := .pending
        generation := s.generation + 1
        nextRunAt := stamp
        lastOutcome := none
        lastError := none
        retryAfterAt := none
        wakeMessageId := some (wakeId s.scTrackId (s.generation + 1))
        wakeGeneration := some (s.generation + 1)
        wakeDurableAt := none }
  let opened :=
    reopened.updateState id
      (fun s => s.scTrackId = track ∧ s.status = .pending ∧ s.wakeMessageId = none) fun s =>
      { s with
        wakeMessageId := some (wakeId s.scTrackId s.generation)
        wakeGeneration := some s.generation
        wakeDurableAt := none }
  opened.updateState id (fun s => s.scTrackId = track) fun s => { s with priority := 0, updatedAt := stamp }

def backfill (w : World) (id : Uuid) : World :=
  match w.tracks id, w.states id with
  | some t, none =>
    let hasText := ((w.cache t.scTrackId).filter fun cache => cache.source.external).any fun cache =>
      (nonblank cache.plainText).isSome ∨ (nonblank cache.syncedLrc).isSome
    if t.pipelineHeld ∨ hasText then w
    else
      w.putState id
        { scTrackId := t.scTrackId, status := .pending, generation := 1, priority := t.indexPriority, nextRunAt := w.now
          inputs := t.inputs, missStreak := 0, failureStreak := 0, lastOutcome := none, lastError := none
          retryAfterAt := none, wakeMessageId := none, wakeGeneration := none, wakeDurableAt := none
          createdAt := t.createdAt, updatedAt := w.now }
  | _, _ => w

/-- `lookup_deliver_wakes.sql` and `lookup_mark_wake_durable.sql` on a state. -/
def markWakeDurable (w : World) (id : Uuid) : World :=
  w.updateState id
    (fun s => s.wakeMessageId.isSome ∧ s.wakeGeneration = some s.generation ∧ s.wakeDurableAt = none) fun s =>
    { s with wakeDurableAt := some w.now, updatedAt := w.now }

/-! ## Claims -/

/-- The lease of a job, if it is the one given and of the current generation. -/
def leaseOf (w : World) (jobId : Uuid) (generation : Int) (leaseId : Uuid) : Option Lease :=
  (w.jobs jobId).bind fun job =>
    job.lease.filter fun lease => job.generation = generation ∧ lease.generation = generation ∧ lease.id = leaseId

def holdsLease (w : World) (jobId : Uuid) (generation : Int) (leaseId : Uuid) : Bool :=
  (w.leaseOf jobId generation leaseId).any fun lease => lease.expiresAt > w.now

end World

/-- The claim statements. `star` has the tracks that `star_track_tiers` names. -/
inductive ClaimBy where
  | target (scTrackId : String)
  | star (scTrackIds : List String)
  | priority (lowest highest : Int)
  | oldest
  deriving DecidableEq

def ClaimBy.kind : ClaimBy → Kind
  | .target _ => .lookup
  | .star _ | .priority _ _ | .oldest => .lookupSweep

/-- The rows that a claim statement looks at. -/
def ClaimBy.selects (s : State) (queue : Queue) : ClaimBy → Bool
  | .target scTrackId => s.scTrackId = scTrackId
  | .star scTrackIds => s.scTrackId ∈ scTrackIds
  | .priority lowest highest => lowest ≤ queue.priority ∧ queue.priority ≤ highest
  | .oldest => true

def Lookup.owns (k : Lookup) (claim : Claim) : Bool :=
  claim.jobId = k.jobId ∧ claim.jobGeneration = k.jobGeneration ∧ claim.jobLeaseId = k.jobLeaseId ∧
    claim.stateGeneration = k.generation

namespace World

/-- `lookup_claim_*.sql` on a track. -/
def claim (w : World) (by_ : ClaimBy) (jobId : Uuid) (generation : Int) (leaseId : Uuid) (id : Uuid)
    (claimSeconds : Int) : Option World :=
  match w.states id, w.queue id with
  | some s, some queue =>
    if (w.jobs jobId).any (fun job => job.kind = by_.kind) ∧ w.holdsLease jobId generation leaseId ∧
        by_.selects s queue ∧ queue.nextRunAt ≤ w.now ∧ queue.claim = none then
      some { w with
        queue := update w.queue id <| some
          { queue with
            claim := some ⟨jobId, generation, leaseId, s.generation, w.now + seconds claimSeconds⟩
            attempts := queue.attempts + 1
            lastAttemptAt := some w.now }
        lookups :=
          ⟨jobId, generation, leaseId, id, s.scTrackId, s.generation, s.inputs, s.missStreak, s.failureStreak⟩ ::
            w.lookups }
    else none
  | _, _ => none

/-- `lookup_release_expired.sql` on a track. -/
def releaseExpired (w : World) (id : Uuid) : World :=
  { w with
    queue := update w.queue id <| (w.queue id).map fun queue =>
      { queue with claim := queue.claim.filter fun claim => claim.expiresAt > w.now } }

/-! ## Settles -/

/-- The CTEs `owned` and `claim`: the state of the lookup, with its queue row, if the job has its lease and the claim is
its own. -/
def claimed (w : World) (k : Lookup) : Option (State × Queue) :=
  match w.states k.trackId, w.queue k.trackId with
  | some s, some queue =>
    if w.holdsLease k.jobId k.jobGeneration k.jobLeaseId ∧
        queue.claim.any fun claim => k.owns claim ∧ claim.expiresAt > w.now then
      some (s, queue)
    else none
  | _, _ => none

def release (w : World) (id : Uuid) (queue : Queue) (settled : Option State) : World :=
  { w with
    queue := update w.queue id <| some
      { queue with
        priority := (settled.map State.priority).getD queue.priority
        nextRunAt := (settled.map State.nextRunAt).getD queue.nextRunAt
        wakeAt := if settled.isSome then none else queue.wakeAt
        claim := none } }

/-- A settle that updates the state. The trigger on the state runs after the statement. -/
def settleState (w : World) (k : Lookup) (set : State → State) : World :=
  match w.claimed k with
  | some (s, queue) =>
    if s.generation = k.generation then
      (w.release k.trackId queue (some (set s))).putState k.trackId (set s)
    else w.release k.trackId queue none
  | none => w

def indexPriority (w : World) (id : Uuid) (s : State) : Int := ((w.tracks id).map Track.indexPriority).getD s.priority

def settleMiss (w : World) (k : Lookup) (delay : Int) (outcome : String) : World :=
  w.settleState k fun s =>
    { s with
      status := .notFound
      nextRunAt := w.now + seconds delay
      missStreak := s.missStreak + 1
      failureStreak := 0
      lastOutcome := some outcome
      lastError := none
      retryAfterAt := none
      wakeMessageId := none
      wakeGeneration := none
      wakeDurableAt := none
      priority := w.indexPriority k.trackId s
      updatedAt := w.now }

def retryDelaySeconds (failureStreak retryAfter : Int) : Int :=
  min (max (min (30 * 2 ^ min failureStreak.toNat 10) (6 * 60 * 60)) (max retryAfter 0)) (24 * 60 * 60)

def settleRetry (w : World) (k : Lookup) (failure : String) (retryAfter : Int) : World :=
  w.settleState k fun s =>
    { s with
      status := .retry
      nextRunAt := w.now + seconds (retryDelaySeconds k.failureStreak retryAfter)
      failureStreak := s.failureStreak + 1
      lastOutcome := some failure
      lastError := some (String.ofList (failure.toList.take 512))
      retryAfterAt := if retryAfter > 0 then some (w.now + seconds retryAfter) else none
      wakeMessageId := none
      wakeGeneration := none
      wakeDurableAt := none
      priority := w.indexPriority k.trackId s
      updatedAt := w.now }

end World

structure Candidate where
  source : Source
  syncedLrc : Option String
  plainText : Option String
  deriving DecidableEq

/-- The row that `upserted` inserts. -/
def Candidate.row (candidate : Candidate) (id : Uuid) (now : Int) : Cache :=
  let synced := nullif (candidate.syncedLrc.getD "")
  let plain := nullif (btrimOf [' ', '\t', '\n', '\r', '\x0C', '\x0B'] (candidate.plainText.getD ""))
  { trackId := some id, syncedLrc := synced, plainText := plain, source := candidate.source
    plainSource := plain.map fun _ => candidate.source, syncedSource := synced.map fun _ => candidate.source
    syncedVersion := none, language := none, languageConfidence := none, embeddedAt := none, embeddingState := none
    contentGeneration := 1, updatedAt := now }

/-- `ON CONFLICT (sc_track_id) DO UPDATE` of `upserted`. -/
def Cache.merge (c new : Cache) : Cache :=
  let replaces := !c.source.external && new.plainText.isSome
  { c with
    trackId := new.trackId
    syncedLrc := c.syncedLrc.or new.syncedLrc
    plainText := if replaces then new.plainText else c.plainText.or new.plainText
    source := if c.source.external then c.source else new.source
    plainSource :=
      if replaces then new.plainSource
      else if c.plainText.isSome then some (c.plainSource.getD c.source) else new.plainSource
    syncedSource := if c.syncedLrc.isSome then some (c.syncedSource.getD c.source) else new.syncedSource
    syncedVersion := if c.syncedLrc.isSome then c.syncedVersion else none
    embeddedAt := none
    embeddingState := none
    contentGeneration := c.contentGeneration + 1
    updatedAt := new.updatedAt }

def recheckMaxStreak : Int := 7

namespace World

/-- `upserted` of `lookup_settle_found.sql`; nothing if a CHECK fails. -/
def upsert (w : World) (scTrackId : String) (new : Cache) (recheck : Bool) : Option World :=
  if new.syncedLrc = none ∧ new.plainText = none then some w
  else
    match w.cache scTrackId with
    | none => if new.valid then some { w with cache := update w.cache scTrackId (some new) } else none
    | some c =>
      if !recheck ∨ c.plainText = none ∨ !c.source.external then
        if (c.merge new).valid then
          some { w with cache := update w.cache scTrackId (some (c.merge new)) }
        else none
      else some w

/-- `lookup_settle_found.sql`. A statement that fails changes nothing. -/
def settleFound (w : World) (k : Lookup) (candidate : Candidate) (recheck : Bool) : World :=
  match w.tracks k.trackId, w.claimed k with
  | some _, some (s, queue) =>
    if s.generation = k.generation then
      match w.upsert s.scTrackId (candidate.row k.trackId w.now) recheck with
      | none => w
      | some w' =>
        if recheck ∧ s.failureStreak < recheckMaxStreak then
          let s' : State :=
            { s with
              status := .retry
              nextRunAt := w.now + seconds (24 * 60 * 60)
              failureStreak := s.failureStreak + 1
              lastOutcome := some "recheck"
              lastError := none
              retryAfterAt := none
              wakeMessageId := none
              wakeGeneration := none
              wakeDurableAt := none
              updatedAt := w.now }
          (w'.release k.trackId queue (some s')).putState k.trackId s'
        else w'.dropState k.trackId
    else w.release k.trackId queue none
  | _, _ => w

end World

inductive Outcome where
  | found (candidate : Candidate) (recheck : Bool)
  | miss (delay : Int) (outcome : String)
  | retry (failure : String) (retryAfter : Int)
  deriving DecidableEq

def World.settle (w : World) (k : Lookup) : Outcome → World
  | .found candidate recheck => w.settleFound k candidate recheck
  | .miss delay outcome => w.settleMiss k delay outcome
  | .retry failure retryAfter => w.settleRetry k failure retryAfter

/-! ## Leases of jobs -/

namespace World

/-- A statement on a job that holds a lease, with the generation that was leased. -/
def withLease (w : World) (id : Uuid) (generation : Int) (leaseId : Uuid) (set : Job → Option Job) : World :=
  match w.jobs id, w.leaseOf id generation leaseId with
  | some job, some _ => { w with jobs := update w.jobs id (set job) }
  | _, _ => w

/-- `enqueue.sql`: a new job, or a new generation of one. -/
def enqueue (w : World) (id : Uuid) (kind : Kind) : World :=
  { w with
    jobs := update w.jobs id <|
      match w.jobs id with
      | none => some ⟨kind, 1, none⟩
      | some job => some { job with generation := job.generation + 1 } }

def leaseJob (w : World) (id leaseId : Uuid) (milliseconds : Int) : Option World :=
  match w.jobs id with
  | some job =>
    if job.lease = none ∧ leaseId ∉ w.leases then
      some { w with
        jobs := update w.jobs id <| some
          { job with lease := some ⟨leaseId, job.generation, w.now + Jobs.milliseconds milliseconds⟩ }
        leases := leaseId :: w.leases }
    else none
  | none => none

def heartbeat (w : World) (id : Uuid) (generation : Int) (leaseId : Uuid) (milliseconds : Int) : World :=
  w.withLease id generation leaseId fun job =>
    some { job with lease := some ⟨leaseId, generation, w.now + Jobs.milliseconds milliseconds⟩ }

/-- `release_expired.sql`, and `release_superseded.sql` of a job with a later generation. -/
def releaseLease (w : World) (id : Uuid) : World :=
  { w with
    jobs := update w.jobs id <| (w.jobs id).map fun job =>
      { job with lease := job.lease.filter fun lease => lease.expiresAt > w.now ∧ lease.generation = job.generation } }

end World

inductive Action where
  | putTrack (id : Uuid) (new : Track) (message : Uuid)
  | setCache (scTrackId : String) (row : Option Cache)
  | wake (id : Uuid) (track : String) (stamp : Int)
  | markWakeDurable (id : Uuid)
  | backfill (id : Uuid)
  | claim (by_ : ClaimBy) (jobId : Uuid) (generation : Int) (leaseId : Uuid) (id : Uuid) (claimSeconds : Int)
  | settle (k : Lookup) (outcome : Outcome)
  | abandon (k : Lookup)
  | releaseExpired (id : Uuid)
  | enqueue (id : Uuid) (kind : Kind)
  | leaseJob (id leaseId : Uuid) (milliseconds : Int)
  | heartbeat (id : Uuid) (generation : Int) (leaseId : Uuid) (milliseconds : Int)
  | complete (id : Uuid) (generation : Int) (leaseId : Uuid)
  | retry (id : Uuid) (generation : Int) (leaseId : Uuid)
  | releaseLease (id : Uuid)
  | tick (microseconds : Nat)
  deriving DecidableEq

/-- A step of the system. `complete` and `retry` stand for all statements that delete the job or clear the lease. -/
def step (wakeId : String → Int → Uuid) (w : World) : Action → Option World
  | .putTrack id new message => some (w.putTrack id new message)
  | .setCache scTrackId row => some { w with cache := update w.cache scTrackId row }
  | .wake id track stamp => some (w.wake wakeId id track stamp)
  | .markWakeDurable id => some (w.markWakeDurable id)
  | .backfill id => some (w.backfill id)
  | .claim by_ jobId generation leaseId id claimSeconds => w.claim by_ jobId generation leaseId id claimSeconds
  | .settle k outcome =>
    if k ∈ w.lookups then some { w.settle k outcome with lookups := w.lookups.erase k } else none
  | .abandon k => some { w with lookups := w.lookups.erase k }
  | .releaseExpired id => some (w.releaseExpired id)
  | .enqueue id kind => some (w.enqueue id kind)
  | .leaseJob id leaseId milliseconds => w.leaseJob id leaseId milliseconds
  | .heartbeat id generation leaseId milliseconds => some (w.heartbeat id generation leaseId milliseconds)
  | .complete id generation leaseId => some (w.withLease id generation leaseId fun _ => none)
  | .retry id generation leaseId => some (w.withLease id generation leaseId fun job => some { job with lease := none })
  | .releaseLease id => some (w.releaseLease id)
  | .tick microseconds => some { w with now := w.now + microseconds }

end SC.Impl.Lyrics
