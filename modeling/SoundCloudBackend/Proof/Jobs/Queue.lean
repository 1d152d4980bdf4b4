import SoundCloudBackend.Impl.Jobs.Queue

/-!
# No accepted job is lost

A row of the queue carries the history of its job: its generation counts the
enqueues it took, a lease remembers the generation it was granted at. `RowOk`
ties a row to the history, `Order` orders the history. Every statement then
falls under one of five cases: it changes a row without touching what its
lease stands for (`Quiet`), it settles a row for its holder (`Held`), it
removes rows that were claimed at their generation, it takes a job in, or it
grants a lease.
-/

namespace SC.Proof.Jobs

open Impl.Jobs
open Impl.Replication (Uuid)
open List Bool

variable {K P : Type}
variable {id : Uuid} {r : Job K P} {job : NewJob K P} {now duration : Int} {c : Call K P} {order : ClaimOrder K}
variable {uuid : Uuid → Uuid} {kinds : List K} {limit : Nat} {locked : Uuid → Bool}
variable {n : Int} {payload : P} {r' : Job K P} {e : Event K P} {rest : Call K P ⊕ Reply} {i : Nat}
variable {p : Job K P → Bool} {f : Job K P → Job K P} {enqueues ids : List Uuid}

/-! ## The history -/

def rowOf : Event K P → Uuid
  | .accepted id .. => id
  | .granted job => job.id

def genOf : Event K P → Int
  | .accepted _ generation .. => generation
  | .granted job => job.generation

def IsAccepted : Event K P → Prop
  | .accepted .. => True
  | .granted _ => False

/-- Of two events of one row the later one has at least the generation of the earlier one, and a
greater one if it is an enqueue. -/
def Order (later earlier : Event K P) : Prop :=
  rowOf later = rowOf earlier →
    genOf earlier ≤ genOf later ∧ (IsAccepted later → genOf earlier < genOf later)

/-- The times asked by the enqueues that a row took since it was last claimed. -/
def unclaimed (id : Uuid) : List (Event K P) → List Int
  | [] => []
  | .granted job :: rest => if job.id = id then [] else unclaimed id rest
  | .accepted i _ _ t :: rest => if i = id then t :: unclaimed id rest else unclaimed id rest

def Claimed (log : List (Event K P)) (id : Uuid) (n : Int) : Prop :=
  ∃ job, .granted job ∈ log ∧ job.id = id ∧ job.generation = n

def Took (log : List (Event K P)) (id : Uuid) (n : Int) (payload : P) : Prop :=
  ∃ t, .accepted id n payload t ∈ log

theorem Claimed.cons {log : List (Event K P)} (h : Claimed log id n) (e : Event K P) : Claimed (e :: log) id n := by
  obtain ⟨job, hj, hid, hn⟩ := h
  exact ⟨job, mem_cons_of_mem _ hj, hid, hn⟩

theorem Took.cons {log : List (Event K P)} (h : Took log id n payload)
    (e : Event K P) : Took (e :: log) id n payload := by
  obtain ⟨t, ht⟩ := h
  exact ⟨t, mem_cons_of_mem _ ht⟩

theorem unclaimed_eq_nil {log : List (Event K P)} (ho : log.Pairwise Order)
    (hc : Claimed log id n) (hn : ∀ e ∈ log, rowOf e = id → genOf e ≤ n) : unclaimed id log = [] := by
  obtain ⟨job, hj, rfl, rfl⟩ := hc
  induction log with
  | nil => cases hj
  | cons e rest ih =>
    obtain ⟨he, hrest⟩ := pairwise_cons.1 ho
    have htail : .granted job ∈ rest → unclaimed job.id rest = [] :=
      fun h => ih hrest h fun e' he' => hn e' (mem_cons_of_mem _ he')
    cases e with
    | granted job' =>
      simp only [unclaimed]
      split
      · rfl
      · rename_i hne
        rcases mem_cons.1 hj with heq | hj
        · cases heq
          exact absurd rfl hne
        · exact htail hj
    | accepted i m payload t =>
      have hj : .granted job ∈ rest := by simpa using hj
      simp only [unclaimed]
      split
      · rename_i hi
        have hlt := (he _ hj hi).2 trivial
        have hle := hn _ (mem_cons_self ..) hi
        simp only [genOf] at hlt hle
        omega
      · exact htail hj

/-! ## Rows -/

/-- A row holds the newest enqueue of its job, and its lease and attempts are backed by grants. -/
structure RowOk (log : List (Event K P)) (r : Job K P) : Prop where
  maxAttempts : 0 < r.maxAttempts
  took : Took log r.id r.generation r.payload
  newest : ∀ e ∈ log, rowOf e = r.id → genOf e ≤ r.generation
  lease : ∀ l, r.lease = some l → ∃ job, .granted job ∈ log ∧ job.leaseId = l.id ∧ job.id = r.id ∧
    job.generation = l.generation
  attempted : 0 < r.attempts → Claimed log r.id r.generation
  available : ∀ t ∈ unclaimed r.id log, r.availableAt ≤ t

structure SameJob (r r' : Job K P) : Prop where
  id : r'.id = r.id
  generation : r'.generation = r.generation
  payload : r'.payload = r.payload
  maxAttempts : r'.maxAttempts = r.maxAttempts

/-- A change that leaves the job, its attempts and the identity of its lease: at most the lease goes. -/
structure Quiet (r r' : Job K P) : Prop extends SameJob r r' where
  attempts : r'.attempts = r.attempts
  lease : r'.lease = none ∨ ∃ l l', r.lease = some l ∧ r'.lease = some l' ∧ l'.id = l.id ∧ l'.generation = l.generation
  available : r'.availableAt ≤ r.availableAt

/-- A change by the holder of the row, who gives the lease back. -/
structure Held (log : List (Event K P)) (r r' : Job K P) : Prop extends SameJob r r' where
  claimed : Claimed log r.id r.generation
  attempts : r'.attempts ≤ r.attempts ∨ r'.attempts ≤ 0
  lease : r'.lease = none

theorem SameJob.refl (r : Job K P) : SameJob r r :=
  ⟨rfl, rfl, rfl, rfl⟩

theorem Quiet.refl (r : Job K P) : Quiet r r where
  toSameJob := .refl r
  attempts := rfl
  lease := by
    cases h : r.lease with
    | none => exact .inl rfl
    | some l => exact .inr ⟨l, l, rfl, rfl, rfl, rfl⟩
  available := le_rfl

theorem RowOk.claimed {log : List (Event K P)} (h : RowOk log r) {l : Lease} (hl : r.lease = some l)
    (hg : l.generation = r.generation) : Claimed log r.id r.generation := by
  obtain ⟨job, hj, -, hid, hgen⟩ := h.lease l hl
  exact ⟨job, hj, hid, hgen.trans hg⟩

theorem RowOk.quiet {log : List (Event K P)} (h : RowOk log r) (hq : Quiet r r') : RowOk log r' where
  maxAttempts := hq.maxAttempts ▸ h.maxAttempts
  took := by
    rw [hq.id, hq.generation, hq.payload]
    exact h.took
  newest := by
    rw [hq.id, hq.generation]
    exact h.newest
  lease l' hl' := by
    rcases hq.lease with hn | ⟨l, l₂, hl, hl₂, hid, hgen⟩
    · cases hn.symm.trans hl'
    · obtain rfl := Option.some.inj (hl₂.symm.trans hl')
      rw [hid, hgen, hq.id]
      exact h.lease l hl
  attempted hpos := by
    rw [hq.id, hq.generation]
    exact h.attempted (hq.attempts ▸ hpos)
  available t ht := by
    rw [hq.id] at ht
    exact hq.available.trans (h.available t ht)

theorem RowOk.held {log : List (Event K P)} (ho : log.Pairwise Order) (h : RowOk log r)
    (hh : Held log r r') : RowOk log r' where
  maxAttempts := hh.maxAttempts ▸ h.maxAttempts
  took := by
    rw [hh.id, hh.generation, hh.payload]
    exact h.took
  newest := by
    rw [hh.id, hh.generation]
    exact h.newest
  lease l hl := by cases hh.lease.symm.trans hl
  attempted _ := by
    rw [hh.id, hh.generation]
    exact hh.claimed
  available t ht := by
    rw [hh.id, unclaimed_eq_nil ho hh.claimed h.newest] at ht
    cases ht

theorem unclaimed_cons_other {log : List (Event K P)} (he : rowOf e ≠ id) :
    unclaimed id (e :: log) = unclaimed id log := by
  cases e with
  | granted job | accepted => exact if_neg he

theorem RowOk.cons_other {log : List (Event K P)} (h : RowOk log r) (he : rowOf e ≠ r.id) : RowOk (e :: log) r where
  maxAttempts := h.maxAttempts
  took := h.took.cons e
  newest := by
    rintro e' (_ | ⟨_, he'⟩) hid
    · exact absurd hid he
    · exact h.newest e' he' hid
  lease l hl := by
    obtain ⟨job, hj, hrest⟩ := h.lease l hl
    exact ⟨job, mem_cons_of_mem _ hj, hrest⟩
  attempted hpos := (h.attempted hpos).cons e
  available := by
    rw [unclaimed_cons_other he]
    exact h.available

/-! ## The invariant -/

/-- Every row is backed by the history, and an accepted job is a row or was claimed since. -/
structure Inv (q : Queue K P) : Prop where
  ids : (q.jobs.map Job.id).Nodup
  rows : ∀ r ∈ q.jobs, RowOk q.log r
  order : q.log.Pairwise Order
  leases : (Queue.leaseIds q.log).Nodup
  payloads : ∀ job, .granted job ∈ q.log → Took q.log job.id job.generation job.payload
  recorded : ∀ e ∈ q.log, rowOf e ∈ q.enqueues
  kept : ∀ id n payload t, .accepted id n payload t ∈ q.log →
    (∃ r ∈ q.jobs, r.id = id) ∨ ∃ m, n ≤ m ∧ Claimed q.log id m
  calls : ∀ c ∈ q.calls, .granted c.job ∈ q.log

theorem inv_empty (clock : Int) : Inv (Queue.empty clock : Queue K P) where
  ids := .nil
  rows := by simp [Queue.empty]
  order := .nil
  leases := .nil
  payloads := by simp [Queue.empty]
  recorded := by simp [Queue.empty]
  kept := by simp [Queue.empty]
  calls := by simp [Queue.empty]

variable {q q' : Queue K P}

theorem mem_leaseIds {log : List (Event K P)} :
    id ∈ Queue.leaseIds log ↔ ∃ job, .granted job ∈ log ∧ job.leaseId = id := by
  simp only [Queue.leaseIds, mem_filterMap]
  constructor
  · rintro ⟨e, he, hid⟩
    cases e with
    | granted job => exact ⟨job, he, Option.some.inj hid⟩
    | accepted => cases hid
  · rintro ⟨job, hj, rfl⟩
    exact ⟨_, hj, rfl⟩

theorem eq_of_leaseId {log : List (Event K P)} (h : (Queue.leaseIds log).Nodup) {job job' : LeasedJob K P}
    (hj : .granted job ∈ log) (hj' : .granted job' ∈ log) (he : job.leaseId = job'.leaseId) : job = job' := by
  induction log with
  | nil => cases hj
  | cons e rest ih =>
    cases e with
    | accepted =>
      exact ih h (by simpa using hj) (by simpa using hj')
    | granted job₀ =>
      obtain ⟨hnot, hrest⟩ := nodup_cons.1 (show (job₀.leaseId :: Queue.leaseIds rest).Nodup from h)
      rcases mem_cons.1 hj with h₁ | h₁ <;> rcases mem_cons.1 hj' with h₂ | h₂
      · cases h₁
        cases h₂
        rfl
      · cases h₁
        exact absurd (mem_leaseIds.2 ⟨job', h₂, he.symm⟩) hnot
      · cases h₂
        exact absurd (mem_leaseIds.2 ⟨job, h₁, he⟩) hnot
      · exact ih hrest h₁ h₂

theorem leases_iff {job : LeasedJob K P} : job.leases r = true ↔
      r.id = job.id ∧ ∃ l, r.lease = some l ∧ l.id = job.leaseId ∧ l.generation = job.generation := by
  cases h : r.lease <;> simp [LeasedJob.leases, h]

theorem holds_iff {job : LeasedJob K P} :
    job.holds r = true ↔ job.leases r = true ∧ r.generation = job.generation := by
  simp [LeasedJob.holds]

/-- What one statement of a call does to the queue. -/
inductive Advanced (now : Int) (q : Queue K P) : Call K P → Queue K P → Prop where
  | release {c : Call K P} : Advanced now q c (q.releaseSuperseded c.job).1
  | giveBack {c : Call K P} {p : Job K P → Bool} {f : Job K P → Job K P} (hp : ∀ r, p r = true → c.job.holds r = true)
      (hf : ∀ r, SameJob r (f r) ∧ ((f r).attempts ≤ r.attempts ∨ (f r).attempts ≤ 0) ∧ (f r).lease = none) :
      Advanced now q c (q.update p f).1
  | beat {c : Call K P} {f : Job K P → Job K P} (hf : ∀ r, Quiet r (f r)) : Advanced now q c (q.update c.job.holds f).1
  | complete {job : LeasedJob K P} : Advanced now q (.complete job) (q.delete job.holds).1
  | deadLetter {job : LeasedJob K P} {error : String} {retryable : Bool} {message : String} :
      Advanced now q (.settle job error retryable) (q.deadLetter now job message).1

theorem advance_cases {q₁ : Queue K P} (hs : q.advance now c = .ok (q₁, rest)) :
    Advanced now q c q₁ ∧ ∀ c', rest = .inl c' → c'.job = c.job := by
  have hrest : ∀ {n : Nat} {c₁ c₂ : Call K P} {x : Reply}, (if n = 1 then .inr x else .inl c₁) = Sum.inl c₂ → c₂ = c₁ := by
    intro n c₁ c₂ x h
    split at h <;> cases h
    rfl
  cases c with
  | postpone job error delay =>
    obtain ⟨d, -, hs⟩ := bind_eq_ok hs
    cases hs
    refine ⟨.giveBack (fun r hr => (and_eq_true_iff.1 hr).1) fun r => ⟨{ SameJob.refl r with }, ?_, rfl⟩, ?_⟩
    · simp only
      omega
    · rintro c' hc'
      rw [hrest hc']
      rfl
  | complete job =>
    cases hs
    refine ⟨.complete, ?_⟩
    rintro c' hc'
    rw [hrest hc']
    rfl
  | fail job error retryable =>
    cases hs
    refine ⟨.release, ?_⟩
    rintro c' hc'
    rw [hrest hc']
    rfl
  | settle job error retryable =>
    simp only [Queue.advance] at hs
    split at hs
    · cases hs
      refine ⟨.deadLetter, ?_⟩
      rintro c' hc'
      rw [hrest hc']
      rfl
    · obtain ⟨d, -, hs⟩ := bind_eq_ok hs
      cases hs
      refine ⟨.giveBack (fun _ hr => hr) fun r => ⟨{ SameJob.refl r with }, .inl le_rfl, rfl⟩, ?_⟩
      rintro c' hc'
      rw [hrest hc']
      rfl
  | heartbeat job duration =>
    obtain ⟨d, -, hs⟩ := bind_eq_ok hs
    cases hs
    refine ⟨.beat fun r => { Quiet.refl r with lease := ?_ }, by rintro c' ⟨⟩⟩
    cases hl : r.lease with
    | none => exact .inl rfl
    | some l => exact .inr ⟨l, _, rfl, rfl, rfl, rfl⟩
  | release job =>
    cases hs
    exact ⟨.release, by rintro c' ⟨⟩⟩

theorem step_advance [DecidableEq K] [DecidableEq P] {lane : K → JobLane}
    (hs : q.step lane (now, .advance i) = some q') :
    ∃ c q₁ rest, q.calls[i]? = some c ∧ Advanced now { q with clock := now } c q₁ ∧
      (∀ c', rest = .inl c' → c'.job = c.job) ∧ q' = { q₁ with calls := Queue.settleCall q.calls i rest } := by
  simp only [Queue.step] at hs
  split at hs <;> [cases hs; skip]
  split at hs <;> [cases hs; skip]
  rename_i c hc
  have hs := toOption_eq_some hs
  cases hadv : Queue.advance { q with clock := now } now c with
  | error e =>
    rw [hadv] at hs
    cases hs
  | ok r =>
    rw [hadv] at hs
    obtain ⟨ha, hrest⟩ := advance_cases hadv
    exact ⟨c, r.1, r.2, hc, ha, hrest, (Except.ok.inj hs).symm⟩

theorem Advanced.log (h : Advanced now q c q') : q'.log = q.log := by
  cases h <;> rfl

theorem mem_settleCall {calls : List (Call K P)}
    (h : c ∈ Queue.settleCall calls i rest) : c ∈ calls ∨ rest = .inl c := by
  cases rest with
  | inl c' =>
    rcases mem_or_eq_of_mem_set h with h | rfl
    · exact .inl h
    · exact .inr rfl
  | inr _ => exact .inl (mem_of_mem_eraseIdx h)

namespace Inv

theorem claimed_of_holds (h : Inv q) {job : LeasedJob K P} (hr : r ∈ q.jobs) (hh : job.holds r = true) :
    Claimed q.log r.id r.generation := by
  obtain ⟨hl, hgen⟩ := holds_iff.1 hh
  obtain ⟨-, l, hrl, -, hlg⟩ := leases_iff.1 hl
  exact (h.rows r hr).claimed hrl (hlg.trans hgen.symm)

theorem updated (h : Inv q)
    (hf : ∀ r ∈ q.jobs, p r = true → Quiet r (f r) ∨ Held q.log r (f r)) : Inv (q.update p f).1 := by
  have hall : ∀ r ∈ q.jobs, Quiet r (if p r then f r else r) ∨ Held q.log r (if p r then f r else r) := by
    intro r hr
    split
    · rename_i hp
      exact hf r hr hp
    · exact .inl (.refl r)
  have hid : ∀ r ∈ q.jobs, (if p r then f r else r).id = r.id := fun r hr => (hall r hr).elim (·.id) (·.id)
  exact { h with
    ids := by
      have heq : q.jobs.map (Job.id ∘ fun r => if p r then f r else r) = q.jobs.map Job.id := map_congr_left hid
      simp only [Queue.update, map_map]
      rw [heq]
      exact h.ids
    rows := by
      intro r' hr'
      obtain ⟨r, hr, rfl⟩ := mem_map.1 hr'
      rcases hall r hr with hq | hh
      · exact (h.rows r hr).quiet hq
      · exact (h.rows r hr).held h.order hh
    kept := by
      intro id n payload t ht
      refine (h.kept id n payload t ht).imp_left ?_
      rintro ⟨r, hr, rfl⟩
      exact ⟨_, mem_map_of_mem hr, hid r hr⟩ }

theorem enqueued (h : Inv q) (he : q.enqueues ⊆ enqueues) : Inv { q with enqueues := enqueues } :=
  { h with recorded := fun e hm => he (h.recorded e hm) }

theorem deleted (h : Inv q)
    (hp : ∀ r ∈ q.jobs, p r = true → Claimed q.log r.id r.generation) : Inv (q.delete p).1 :=
  { h with
    ids := h.ids.sublist (filter_sublist.map _)
    rows := fun r hr => h.rows r (mem_of_mem_filter hr)
    kept := by
      intro id n payload t ht
      rcases h.kept id n payload t ht with ⟨r, hr, rfl⟩ | hc
      · by_cases hpr : p r = true
        · exact .inr ⟨r.generation, (h.rows r hr).newest _ ht rfl, hp r hr hpr⟩
        · exact .inl ⟨r, mem_filter.2 ⟨hr, by simpa using hpr⟩, rfl⟩
      · exact .inr hc }

theorem logged (h : Inv q) {jobs : List (Job K P)}
    (hids : (jobs.map Job.id).Nodup) (hrows : ∀ r ∈ jobs, RowOk (e :: q.log) r)
    (horder : ∀ e' ∈ q.log, Order e e') (hlease : ∀ job, e = .granted job → job.leaseId ∉ Queue.leaseIds q.log ∧
      Took q.log job.id job.generation job.payload)
    (henq : q.enqueues ⊆ enqueues) (hrow : rowOf e ∈ enqueues) (hkept : ∀ r ∈ q.jobs, ∃ r' ∈ jobs, r'.id = r.id)
    (hnew : ∃ r ∈ jobs, r.id = rowOf e) : Inv { q with jobs := jobs, enqueues := enqueues, log := e :: q.log } where
  ids := hids
  rows := hrows
  order := pairwise_cons.2 ⟨horder, h.order⟩
  leases := by
    cases e with
    | granted job => exact nodup_cons.2 ⟨(hlease job rfl).1, h.leases⟩
    | accepted => exact h.leases
  payloads := by
    rintro job (_ | ⟨_, hj⟩)
    · exact (hlease job rfl).2.cons _
    · exact (h.payloads job hj).cons e
  recorded := by
    rintro e' (_ | ⟨_, he'⟩)
    · exact hrow
    · exact henq (h.recorded e' he')
  kept := by
    rintro id n payload t (_ | ⟨_, ht⟩)
    · exact .inl hnew
    · rcases h.kept id n payload t ht with ⟨r, hr, rfl⟩ | ⟨m, hm, hc⟩
      · exact .inl (hkept r hr)
      · exact .inr ⟨m, hm, hc.cons e⟩
  calls c hc := mem_cons_of_mem _ (h.calls c hc)

theorem inserted (h : Inv q) {lane : K → JobLane} (hnew : job.id ∉ q.enqueues)
    (hs : q.insert lane now job = .ok q') : Inv q' := by
  simp only [Queue.insert] at hs
  split at hs <;> [cases hs; skip]
  rename_i hpk
  split at hs <;> [cases hs; skip]
  rename_i hmax
  obtain rfl := Except.ok.inj hs
  have hid : ∀ r ∈ q.jobs, r.id ≠ job.id := by simpa using hpk
  have hother : ∀ e ∈ q.log, rowOf e ≠ job.id := by
    rintro e he heq
    exact hnew (heq ▸ h.recorded e he)
  have hun : ∀ {log : List (Event K P)}, (∀ e ∈ log, rowOf e ≠ job.id) → unclaimed job.id log = [] := by
    intro log hlog
    induction log with
    | nil => rfl
    | cons e rest ih =>
      rw [unclaimed_cons_other (hlog e (mem_cons_self ..))]
      exact ih fun e' he' => hlog e' (mem_cons_of_mem _ he')
  refine h.logged ?_ ?_ ?_ ?_ (subset_cons_self ..) (mem_cons_self ..) ?_ ?_
  · rw [map_append, map_singleton]
    refine nodup_append.2 ⟨h.ids, nodup_singleton _, ?_⟩
    intro x hx y hy
    obtain rfl := mem_singleton.1 hy
    obtain ⟨r, hr, rfl⟩ := mem_map.1 hx
    exact hid r hr
  · intro r hr
    rcases mem_append.1 hr with hr | hr
    · exact (h.rows r hr).cons_other (hid r hr).symm
    · obtain rfl := mem_singleton.1 hr
      exact
        { maxAttempts := not_le.1 hmax
          took := ⟨_, mem_cons_self ..⟩
          newest := by
            rintro e (_ | ⟨_, he⟩) heq
            · exact le_rfl
            · exact absurd heq (hother e he)
          lease := nofun
          attempted := fun hpos => absurd hpos (lt_irrefl 0)
          available := by
            intro t ht
            have ht : t ∈ job.availableAt :: unclaimed job.id q.log := by simpa [unclaimed, Queue.inserted] using ht
            rw [hun hother] at ht
            obtain rfl := mem_singleton.1 ht
            exact le_rfl }
  · intro e he heq
    exact absurd heq.symm (hother e he)
  · nofun
  · intro r hr
    exact ⟨r, mem_append_left _ hr, rfl⟩
  · exact ⟨_, mem_append_right _ (mem_singleton_self _), rfl⟩

theorem replaced (h : Inv q) (hr : r ∈ q.jobs)
    (hid : (f r).id = r.id) (he : rowOf e = r.id) (hok : RowOk (e :: q.log) (f r))
    (hgen : r.generation ≤ genOf e ∧ (IsAccepted e → r.generation < genOf e))
    (hlease : ∀ job, e = .granted job → job.leaseId ∉ Queue.leaseIds q.log ∧
    Took q.log job.id job.generation job.payload) (henq : q.enqueues ⊆ enqueues) : Inv { q with
      jobs := q.jobs.map fun x => if decide (x.id = r.id) = true then f x else x
      enqueues := enqueues
      log := e :: q.log } := by
  have hone : ∀ x ∈ q.jobs, x.id = r.id → x = r := fun x hx heq => inj_on_of_nodup_map h.ids hx hr heq
  have hsame : ∀ x ∈ q.jobs, (if decide (x.id = r.id) = true then f x else x).id = x.id := by
    intro x hx
    split
    · rename_i heq
      obtain rfl := hone x hx (of_decide_eq_true heq)
      exact hid
    · rfl
  have hkept : ∀ x ∈ q.jobs, ∃ x' ∈ q.jobs.map fun x => if decide (x.id = r.id) = true then f x else x, x'.id = x.id :=
    fun x hx => ⟨_, mem_map_of_mem hx, hsame x hx⟩
  refine h.logged ?_ ?_ ?_ hlease henq (henq ?_) hkept (he ▸ hkept r hr)
  · have heq := map_congr_left (f := Job.id ∘ fun x => if decide (x.id = r.id) = true then f x else x) hsame
    rw [map_map, heq]
    exact h.ids
  · intro x' hx'
    obtain ⟨x, hx, rfl⟩ := mem_map.1 hx'
    split
    · rename_i heq
      obtain rfl := hone x hx (of_decide_eq_true heq)
      exact hok
    · rename_i hne
      refine (h.rows x hx).cons_other ?_
      rw [he]
      exact fun heq => hne (decide_eq_true heq.symm)
  · intro e' he' heq
    have hle := (h.rows r hr).newest e' he' (heq.symm.trans he)
    exact ⟨hle.trans hgen.1, fun ha => hle.trans_lt (hgen.2 ha)⟩
  · obtain ⟨t, ht⟩ := (h.rows r hr).took
    rw [he]
    exact h.recorded _ ht

section Statements

variable [DecidableEq K] {lane : K → JobLane} {now : Int}

theorem enqueue (h : Inv q) (hs : q.enqueue lane now job = .ok q') : Inv q' := by
  obtain ⟨_, -, hs⟩ := bind_eq_ok hs
  split at hs
  · obtain rfl := Except.ok.inj hs
    exact h
  rename_i hnew
  split at hs
  · exact h.inserted hnew hs
  · rename_i r hr
    split at hs <;> [cases hs; skip]
    rename_i hmax
    obtain rfl := Except.ok.inj hs
    have hmem := mem_of_find?_eq_some hr
    have hrow := h.rows r hmem
    have hlt : r.generation < r.generation + 1 := Int.lt_succ _
    refine h.replaced hmem rfl rfl ?_ ⟨hlt.le, fun _ => hlt⟩ nofun (subset_cons_self ..)
    exact
      { maxAttempts := not_le.1 hmax
        took := ⟨_, mem_cons_self ..⟩
        newest := by
          rintro e (_ | ⟨_, he⟩) heq
          · exact le_rfl
          · exact (hrow.newest e he heq).trans hlt.le
        lease := fun l hl => by
          obtain ⟨j, hj, hrest⟩ := hrow.lease l hl
          exact ⟨j, mem_cons_of_mem _ hj, hrest⟩
        attempted := fun hpos => absurd hpos (lt_irrefl 0)
        available := by
          intro t ht
          have ht : t ∈ job.availableAt :: unclaimed r.id q.log := by simpa [unclaimed, Queue.coalesced] using ht
          simp only [Queue.coalesced]
          split
          · -- the row is leased at its generation: no enqueue came since that claim
            rename_i hl
            obtain ⟨l, hrl, hlg⟩ := (Option.any_eq_true ..).1 hl
            rw [unclaimed_eq_nil h.order (hrow.claimed hrl (of_decide_eq_true hlg)) hrow.newest] at ht
            obtain rfl := mem_singleton.1 ht
            exact le_rfl
          · rcases mem_cons.1 ht with rfl | ht
            · exact min_le_right ..
            · exact (min_le_left ..).trans (hrow.available t ht) }

theorem enqueueIfAbsent (h : Inv q) (hs : q.enqueueIfAbsent lane now job = .ok q') : Inv q' := by
  obtain ⟨_, -, hs⟩ := bind_eq_ok hs
  split at hs
  · obtain rfl := Except.ok.inj hs
    exact h
  rename_i hnew
  split at hs
  · exact h.inserted hnew hs
  · obtain rfl := Except.ok.inj hs
    refine enqueued (h.updated ?_) (subset_cons_self ..)
    intro r _ _
    exact .inl { Quiet.refl r with }

omit [DecidableEq K] in
theorem grant (h : Inv q)
    (hf : uuid id ∉ Queue.leaseIds q.log) : Inv (Queue.grant lane order now duration uuid q id) := by
  unfold Queue.grant
  split
  · exact h
  rename_i r hr
  have hmem := mem_of_find?_eq_some hr
  obtain rfl : r.id = id := by simpa using List.find?_some hr
  have hrow := h.rows r hmem
  refine h.replaced hmem rfl rfl ?_ ⟨le_rfl, fun ha => ha.elim⟩ ?_ (List.Subset.refl _)
  · exact
      { maxAttempts := hrow.maxAttempts
        took := hrow.took.cons _
        newest := by
          rintro e (_ | ⟨_, he⟩) heq
          · exact le_rfl
          · exact hrow.newest e he heq
        lease := by
          rintro l ⟨⟩
          exact ⟨_, mem_cons_self .., rfl, rfl, rfl⟩
        attempted := fun _ => ⟨_, mem_cons_self .., rfl, rfl⟩
        available := by
          intro t ht
          simp [unclaimed, Queue.claimed, Queue.leased] at ht }
  · rintro job ⟨⟩
    exact ⟨hf, hrow.took⟩

omit [DecidableEq K] in
theorem mem_leaseIds_grant {x : Uuid} (hx : x ∈ Queue.leaseIds (Queue.grant lane order now duration uuid q id).log) :
    x = uuid id ∨ x ∈ Queue.leaseIds q.log := by
  unfold Queue.grant at hx
  split at hx
  · exact .inr hx
  · exact mem_cons.1 hx

omit [DecidableEq K] in
theorem grants (h : Inv q) (hn : (ids.map uuid).Nodup) (hf : ∀ id ∈ ids, uuid id ∉ Queue.leaseIds q.log) :
    Inv (ids.foldl (Queue.grant lane order now duration uuid) q) := by
  induction ids generalizing q with
  | nil => exact h
  | cons id ids ih =>
    obtain ⟨hnot, hrest⟩ := nodup_cons.1 hn
    refine ih (h.grant (hf id (mem_cons_self ..))) hrest fun id' hid' hmem => ?_
    rcases mem_leaseIds_grant hmem with heq | hmem
    · exact hnot (heq ▸ mem_map_of_mem hid')
    · exact hf id' (mem_cons_of_mem _ hid') hmem

theorem candidates_nodup (h : Inv q) (now : Int) (kinds : List K) (order : ClaimOrder K) (l : JobLane) (limit : Nat)
    (locked : Uuid → Bool) : (q.candidates now kinds order l limit locked).Nodup ∧
      q.candidates now kinds order l limit locked ⊆ q.jobs.map Job.id := by
  set rows := q.jobs.filter fun r => Queue.claimable now kinds order l r && !locked r.id
  have hrows : (rows.map Job.id).Sublist (q.jobs.map Job.id) := filter_sublist.map _
  have hperm : ((orderBy (Queue.claimKey order) rows).map Job.id).Perm (rows.map Job.id) :=
    (perm_insertionSort ..).map _
  have hsub : (q.candidates now kinds order l limit locked).Sublist ((orderBy (Queue.claimKey order) rows).map Job.id) :=
    (take_sublist ..).map _
  exact ⟨(hperm.nodup_iff.2 (h.ids.sublist hrows)).sublist hsub, fun id hid => hrows.subset (hperm.subset (hsub.subset hid))⟩

theorem claim (h : Inv q) {duration : Nat} (hf : q.Fresh (q.jobs.map Job.id) uuid)
    (hs : q.claim lane now kinds order limit duration locked uuid = .ok q') : Inv q' := by
  cases kinds with
  | nil =>
    obtain rfl := Except.ok.inj hs
    exact h
  | cons k kinds =>
    unfold Queue.claim at hs
    dsimp only at hs
    split at hs
    · obtain rfl := Except.ok.inj hs
      exact h
    obtain ⟨l, -, hs⟩ := bind_eq_ok hs
    obtain ⟨_, -, hs⟩ := bind_eq_ok hs
    obtain ⟨d, -, hs⟩ := bind_eq_ok hs
    obtain rfl := Except.ok.inj hs
    obtain ⟨hnd, hmem⟩ := h.candidates_nodup now (k :: kinds) order l limit locked
    refine h.grants ?_ fun id hid => hf.2 id (hmem hid)
    exact List.Nodup.map_on (fun x hx y hy => inj_on_of_nodup_map hf.1 (hmem hx) (hmem hy)) hnd

theorem releaseExpired (h : Inv q) (hs : q.releaseExpired lane now kinds limit locked = .ok q') : Inv q' := by
  unfold Queue.releaseExpired at hs
  split at hs
  · obtain rfl := Except.ok.inj hs
    exact h
  split at hs
  · obtain rfl := Except.ok.inj hs
    exact h
  obtain ⟨l, -, hs⟩ := bind_eq_ok hs
  obtain ⟨_, -, hs⟩ := bind_eq_ok hs
  obtain rfl := Except.ok.inj hs
  refine h.updated fun r _ _ => .inl ?_
  exact { SameJob.refl r with attempts := rfl, lease := .inl rfl, available := min_le_left .. }

omit [DecidableEq K] in
theorem realignLanes (h : Inv q) {after : Uuid} {step : Nat} : Inv (q.realignLanes lane after step locked) :=
  h.updated fun r _ _ => .inl { Quiet.refl r with }

omit [DecidableEq K] in
theorem recoverExhausted_eq (h : Inv q) (hs : q.recoverExhausted now limit locked = .ok q') :
    q' = q ∨ ∃ p : Job K P → Bool, (∀ r ∈ q.jobs, p r = true → Queue.exhausted now r = true) ∧
      q' = { (q.delete p).1 with
        failures := (q.delete p).2.foldl (fun fs r => upsertFailure fs (r.failure (Queue.exhaustedError r) now))
          q.failures } := by
  unfold Queue.recoverExhausted at hs
  split at hs
  · exact .inl (Except.ok.inj hs).symm
  obtain ⟨_, -, hs⟩ := bind_eq_ok hs
  refine .inr ⟨_, ?_, (Except.ok.inj hs).symm⟩
  intro r hr hp
  obtain ⟨r', hr', hid⟩ := mem_map.1 (of_decide_eq_true hp)
  have hmem := (perm_insertionSort ..).subset (mem_of_mem_take hr')
  obtain ⟨hjob, hc⟩ := mem_filter.1 hmem
  obtain rfl := inj_on_of_nodup_map h.ids hjob hr hid
  exact (and_eq_true_iff.1 hc).1

omit [DecidableEq K] in
theorem recoverExhausted (h : Inv q) (hs : q.recoverExhausted now limit locked = .ok q') : Inv q' := by
  rcases h.recoverExhausted_eq hs with rfl | ⟨p, hp, rfl⟩
  · exact h
  · refine { h.deleted fun r hr hpr => ?_ with }
    have hle : r.attempts ≥ r.maxAttempts := of_decide_eq_true (and_eq_true_iff.1 (hp r hr hpr)).1
    exact (h.rows r hr).attempted ((h.rows r hr).maxAttempts.trans_le hle)

omit [DecidableEq K] in
theorem advanced (h : Inv q) (ha : Advanced now q c q') : Inv q' := by
  cases ha with
  | release =>
    refine h.updated fun r _ _ => .inl ?_
    exact { SameJob.refl r with attempts := rfl, lease := .inl rfl, available := le_rfl }
  | giveBack hp hf =>
    refine h.updated fun r hr hpr => .inr ?_
    obtain ⟨hsame, hatt, hl⟩ := hf r
    exact { hsame with claimed := h.claimed_of_holds hr (hp r hpr), attempts := hatt, lease := hl }
  | beat hf => exact h.updated fun r _ _ => .inl (hf r)
  | complete => exact h.deleted fun r hr hpr => h.claimed_of_holds hr hpr
  | deadLetter => exact { h.deleted fun r hr hpr => h.claimed_of_holds hr hpr with }

end Statements

theorem atClock (h : Inv q) (clock : Int) : Inv { q with clock := clock } :=
  { h with }

theorem step [DecidableEq K] [DecidableEq P] {lane : K → JobLane} {a : Int × Action K P} (h : Inv q)
    (hs : q.step lane a = some q') : Inv q' := by
  obtain ⟨now, a⟩ := a
  have hc := h.atClock now
  cases a with
  | advance i =>
    obtain ⟨c, q₁, rest, hi, ha, hrest, rfl⟩ := step_advance hs
    refine { hc.advanced ha with calls := fun c' hc' => ?_ }
    rw [ha.log]
    rcases mem_settleCall hc' with hc' | hc'
    · exact h.calls c' hc'
    · rw [hrest c' hc']
      exact h.calls c (mem_of_getElem? hi)
  | enqueue job =>
    simp only [Queue.step] at hs
    split at hs <;> [cases hs; skip]
    exact hc.enqueue (toOption_eq_some hs)
  | enqueueIfAbsent job =>
    simp only [Queue.step] at hs
    split at hs <;> [cases hs; skip]
    exact hc.enqueueIfAbsent (toOption_eq_some hs)
  | claim kinds order limit duration locked uuid =>
    simp only [Queue.step] at hs
    split at hs <;> [cases hs; skip]
    split at hs <;> [skip; cases hs]
    rename_i hf
    exact hc.claim hf (toOption_eq_some hs)
  | releaseExpired kinds limit locked =>
    simp only [Queue.step] at hs
    split at hs <;> [cases hs; skip]
    exact hc.releaseExpired (toOption_eq_some hs)
  | recoverExhausted limit locked =>
    simp only [Queue.step] at hs
    split at hs <;> [cases hs; skip]
    exact hc.recoverExhausted (toOption_eq_some hs)
  | realignLanes after step locked =>
    simp only [Queue.step] at hs
    split at hs <;> [cases hs; skip]
    obtain rfl := Option.some.inj hs
    exact hc.realignLanes
  | call c =>
    simp only [Queue.step] at hs
    split at hs <;> [cases hs; skip]
    split at hs <;> [skip; cases hs]
    rename_i hg
    obtain rfl := Option.some.inj hs
    refine { hc with calls := fun c' hc' => ?_ }
    rcases mem_append.1 hc' with hc' | hc'
    · exact h.calls c' hc'
    · obtain rfl := mem_singleton.1 hc'
      exact hg

end Inv

/-! ## What a row is safe from -/

def Keeps (jobs jobs' : List (Job K P)) : Prop :=
  ∀ r ∈ jobs, ∃ r' ∈ jobs', r'.id = r.id

theorem Keeps.refl (jobs : List (Job K P)) : Keeps jobs jobs :=
  fun r hr => ⟨r, hr, rfl⟩

theorem Keeps.trans {jobs₁ jobs₂ jobs₃ : List (Job K P)} (h : Keeps jobs₁ jobs₂) (h' : Keeps jobs₂ jobs₃) :
    Keeps jobs₁ jobs₃ := by
  intro r hr
  obtain ⟨r₂, hr₂, h₂⟩ := h r hr
  obtain ⟨r₃, hr₃, h₃⟩ := h' r₂ hr₂
  exact ⟨r₃, hr₃, h₃.trans h₂⟩

theorem keeps_update (hf : ∀ r, p r = true → (f r).id = r.id) : Keeps q.jobs (q.update p f).1.jobs := by
  intro r hr
  refine ⟨_, mem_map_of_mem hr, ?_⟩
  split
  · rename_i hp
    exact hf r hp
  · rfl

section Keeps

variable {lane : K → JobLane} {now : Int}

theorem keeps_insert (hs : q.insert lane now job = .ok q') : Keeps q.jobs q'.jobs := by
  simp only [Queue.insert] at hs
  split at hs <;> [cases hs; skip]
  split at hs <;> [cases hs; skip]
  obtain rfl := Except.ok.inj hs
  exact fun r hr => ⟨r, mem_append_left _ hr, rfl⟩

theorem keeps_grant : Keeps q.jobs (Queue.grant lane order now duration uuid q id).jobs := by
  unfold Queue.grant
  split
  · exact .refl _
  · rename_i r hr
    have hid : r.id = id := by simpa using List.find?_some hr
    refine keeps_update fun x hx => ?_
    exact hid.trans (of_decide_eq_true hx).symm

theorem keeps_grants : Keeps q.jobs (ids.foldl (Queue.grant lane order now duration uuid) q).jobs := by
  induction ids generalizing q with
  | nil => exact .refl _
  | cons id ids ih => exact keeps_grant.trans ih

variable [DecidableEq K]

theorem keeps_enqueue (hs : q.enqueue lane now job = .ok q') : Keeps q.jobs q'.jobs := by
  obtain ⟨_, -, hs⟩ := bind_eq_ok hs
  split at hs
  · obtain rfl := Except.ok.inj hs
    exact .refl _
  split at hs
  · exact keeps_insert hs
  · split at hs <;> [cases hs; skip]
    obtain rfl := Except.ok.inj hs
    exact keeps_update fun x _ => rfl

theorem keeps_enqueueIfAbsent (hs : q.enqueueIfAbsent lane now job = .ok q') : Keeps q.jobs q'.jobs := by
  obtain ⟨_, -, hs⟩ := bind_eq_ok hs
  split at hs
  · obtain rfl := Except.ok.inj hs
    exact .refl _
  split at hs
  · exact keeps_insert hs
  · obtain rfl := Except.ok.inj hs
    exact keeps_update fun x _ => rfl

theorem keeps_claim {duration : Nat}
    (hs : q.claim lane now kinds order limit duration locked uuid = .ok q') : Keeps q.jobs q'.jobs := by
  cases kinds with
  | nil =>
    obtain rfl := Except.ok.inj hs
    exact .refl _
  | cons k kinds =>
    unfold Queue.claim at hs
    dsimp only at hs
    split at hs
    · obtain rfl := Except.ok.inj hs
      exact .refl _
    obtain ⟨l, -, hs⟩ := bind_eq_ok hs
    obtain ⟨_, -, hs⟩ := bind_eq_ok hs
    obtain ⟨d, -, hs⟩ := bind_eq_ok hs
    obtain rfl := Except.ok.inj hs
    exact keeps_grants

theorem keeps_releaseExpired (hs : q.releaseExpired lane now kinds limit locked = .ok q') : Keeps q.jobs q'.jobs := by
  unfold Queue.releaseExpired at hs
  split at hs
  · obtain rfl := Except.ok.inj hs
    exact .refl _
  split at hs
  · obtain rfl := Except.ok.inj hs
    exact .refl _
  obtain ⟨l, -, hs⟩ := bind_eq_ok hs
  obtain ⟨_, -, hs⟩ := bind_eq_ok hs
  obtain rfl := Except.ok.inj hs
  exact keeps_update fun x _ => rfl

end Keeps

def Failed (q : Queue K P) (now : Int) (r : Job K P) : Prop :=
  ∃ f ∈ q.failures, f.id = r.id ∧ f.generation = r.generation ∧ f.failedAt = now

theorem failed_foldl {error : Job K P → String} {rows : List (Job K P)} {failures : List (Failure K P)}
    (h : (∃ f ∈ failures, f.id = id ∧ f.generation = n ∧ f.failedAt = now) ∨ ∃ r ∈ rows, r.id = id ∧ r.generation = n) :
    ∃ f ∈ rows.foldl (fun fs r => upsertFailure fs (r.failure (error r) now)) failures,
      f.id = id ∧ f.generation = n ∧ f.failedAt = now := by
  induction rows generalizing failures with
  | nil => exact h.resolve_right (by simp)
  | cons r rows ih =>
    refine ih ?_
    by_cases hr : r.id = id ∧ r.generation = n
    · exact .inl ⟨_, mem_cons_self .., hr.1, hr.2, rfl⟩
    · rcases h with ⟨f, hf, hid, hgen, hnow⟩ | ⟨r', hr', hk⟩
      · refine .inl ⟨f, mem_cons_of_mem _ (mem_filter.2 ⟨hf, ?_⟩), hid, hgen, hnow⟩
        refine decide_eq_true fun he => hr ?_
        exact ⟨he.1.symm.trans hid, he.2.symm.trans hgen⟩
      · rcases mem_cons.1 hr' with rfl | hr'
        · exact absurd hk hr
        · exact .inr ⟨r', hr', hk⟩

/-- `job` is the leased job of the lease that `r` has, granted at the generation of `r`. -/
structure Holder (q : Queue K P) (job : LeasedJob K P) (r : Job K P) : Prop where
  granted : .granted job ∈ q.log
  only : ∀ job', .granted job' ∈ q.log → job'.leaseId = job.leaseId → job' = job
  row : r.id = job.id
  lease : ∃ l, r.lease = some l ∧ l.id = job.leaseId ∧ l.generation = r.generation

/-- The only ways out of the table: completion or a dead letter by the holder of the lease, or all
attempts used up. -/
inductive Leaves (q q' : Queue K P) (now : Int) (r : Job K P) : Action K P → Prop where
  | complete {i : Nat} {job : LeasedJob K P} (hc : q.calls[i]? = some (.complete job)) (hh : Holder q job r) :
      Leaves q q' now r (.advance i)
  | deadLetter {i : Nat} {job : LeasedJob K P} {error : String} {retryable : Bool}
      (hc : q.calls[i]? = some (.settle job error retryable)) (hh : Holder q job r) (hf : Failed q' now r) :
      Leaves q q' now r (.advance i)
  | exhausted {limit : Nat} {locked : Uuid → Bool} (ha : r.maxAttempts ≤ r.attempts)
      (hl : ∀ l, r.lease = some l → l.expiresAt ≤ now) (hf : Failed q' now r) :
      Leaves q q' now r (.recoverExhausted limit locked)

theorem Inv.holder (h : Inv q) (hc : q.calls[i]? = some c) (hh : c.job.holds r = true) : Holder q c.job r := by
  obtain ⟨hl, hgen⟩ := holds_iff.1 hh
  obtain ⟨hid, l, hrl, hlid, hlg⟩ := leases_iff.1 hl
  have hg := h.calls c (mem_of_getElem? hc)
  exact ⟨hg, fun job' hj' he => eq_of_leaseId h.leases hj' hg he, hid, l, hrl, hlid, hlg.trans hgen.symm⟩

/-- An accepted job is in the table or was claimed since, with its payload or a later one. -/
theorem Inv.not_lost (h : Inv q) {later earlier : List (Event K P)} {t : Int}
    (hlog : q.log = later ++ .accepted id n payload t :: earlier) : (∃ r ∈ q.jobs, r.id = id ∧ n ≤ r.generation ∧
        Took (later ++ [.accepted id n payload t]) id r.generation r.payload) ∨
      ∃ job, .granted job ∈ later ∧ job.id = id ∧ n ≤ job.generation ∧
        Took (later ++ [.accepted id n payload t]) id job.generation job.payload := by
  obtain ⟨-, hcons, -⟩ := pairwise_append.1 (hlog ▸ h.order)
  obtain ⟨hearlier, -⟩ := pairwise_cons.1 hcons
  have hmem : .accepted id n payload t ∈ q.log := by simp [hlog]
  -- what has at least the generation of the enqueue came after it
  have hafter : ∀ e ∈ q.log, rowOf e = id → n ≤ genOf e → e ∈ later ++ [.accepted id n payload t] := by
    intro e he hid hn
    rw [hlog, append_cons] at he
    refine (mem_append.1 he).resolve_right fun he => ?_
    have hlt := (hearlier e he hid.symm).2 trivial
    simp only [genOf] at hlt hn
    omega
  have htook : ∀ {m p}, n ≤ m → Took q.log id m p → Took (later ++ [.accepted id n payload t]) id m p := by
    rintro m p hm ⟨t', ht'⟩
    exact ⟨t', hafter _ ht' rfl hm⟩
  rcases h.kept id n payload t hmem with ⟨r, hr, rfl⟩ | ⟨m, hm, job, hj, rfl, rfl⟩
  · have hle := (h.rows r hr).newest _ hmem rfl
    exact .inl ⟨r, hr, rfl, hle, htook hle (h.rows r hr).took⟩
  · refine .inr ⟨job, ?_, rfl, hm, htook hm (h.payloads job hj)⟩
    rcases mem_append.1 (hafter _ hj rfl hm) with hl | hl
    · exact hl
    · cases mem_singleton.1 hl

variable [DecidableEq K] [DecidableEq P] {lane : K → JobLane}

theorem Inv.leaves (h : Inv q) {a : Action K P} (hs : q.step lane (now, a) = some q')
    (hr : r ∈ q.jobs) (hgone : ∀ r' ∈ q'.jobs, r'.id ≠ r.id) : Leaves q q' now r a := by
  have hkept : ¬ Keeps q.jobs q'.jobs := by
    intro hk
    obtain ⟨r', hr', hid⟩ := hk r hr
    exact hgone r' hr' hid
  cases a with
  | advance i =>
    obtain ⟨c, q₁, rest, hi, ha, -, rfl⟩ := step_advance hs
    cases ha with
    | release => exact (hkept (keeps_update fun x _ => rfl)).elim
    | giveBack hp hf => exact (hkept (keeps_update fun x _ => (hf x).1.id)).elim
    | beat hf => exact (hkept (keeps_update fun x _ => (hf x).id)).elim
    | complete =>
      rename_i job
      have hh : job.holds r = true := by
        by_contra hn
        exact hgone r (mem_filter.2 ⟨hr, by simpa using hn⟩) rfl
      exact .complete hi (h.holder hi hh)
    | deadLetter =>
      rename_i job error retryable message
      have hh : job.holds r = true := by
        by_contra hn
        exact hgone r (mem_filter.2 ⟨hr, by simpa using hn⟩) rfl
      refine .deadLetter hi (h.holder hi hh) (failed_foldl (.inr ⟨r, mem_filter.2 ⟨hr, hh⟩, rfl, rfl⟩))
  | recoverExhausted limit locked =>
    simp only [Queue.step] at hs
    split at hs <;> [cases hs; skip]
    rcases (h.atClock now).recoverExhausted_eq (toOption_eq_some hs) with rfl | ⟨p, hp, rfl⟩
    · exact absurd rfl (hgone r hr)
    · have hpr : p r = true := by
        by_contra hn
        exact hgone r (mem_filter.2 ⟨hr, by simpa using hn⟩) rfl
      obtain ⟨hatt, hlease⟩ := and_eq_true_iff.1 (hp r hr hpr)
      refine .exhausted (of_decide_eq_true hatt) ?_ (failed_foldl (.inr ⟨r, mem_filter.2 ⟨hr, hpr⟩, rfl, rfl⟩))
      intro l hl
      rw [hl] at hlease
      exact of_decide_eq_true hlease
  | enqueue job =>
    simp only [Queue.step] at hs
    split at hs <;> [cases hs; skip]
    exact absurd (keeps_enqueue (toOption_eq_some hs)) hkept
  | enqueueIfAbsent job =>
    simp only [Queue.step] at hs
    split at hs <;> [cases hs; skip]
    exact absurd (keeps_enqueueIfAbsent (toOption_eq_some hs)) hkept
  | claim kinds order limit duration locked uuid =>
    simp only [Queue.step] at hs
    split at hs <;> [cases hs; skip]
    split at hs <;> [skip; cases hs]
    exact absurd (keeps_claim (toOption_eq_some hs)) hkept
  | releaseExpired kinds limit locked =>
    simp only [Queue.step] at hs
    split at hs <;> [cases hs; skip]
    exact absurd (keeps_releaseExpired (toOption_eq_some hs)) hkept
  | realignLanes after step locked =>
    simp only [Queue.step] at hs
    split at hs <;> [cases hs; skip]
    obtain rfl := Option.some.inj hs
    exact (hkept (keeps_update fun x _ => rfl)).elim
  | call c =>
    simp only [Queue.step] at hs
    split at hs <;> [cases hs; skip]
    split at hs <;> [skip; cases hs]
    obtain rfl := Option.some.inj hs
    exact absurd (Keeps.refl _) hkept

/-- A call whose job no longer holds a row leaves the row as it is, or gives up the lease it still
has there. -/
theorem stale_call (hc : q.calls[i]? = some c)
    (hs : q.step lane (now, .advance i) = some q') (hr : r ∈ q.jobs) (hh : c.job.holds r = false) :
    r ∈ q'.jobs ∨ (c.job.leases r = true ∧ Queue.unleased r ∈ q'.jobs) := by
  obtain ⟨c', q₁, rest, hi, ha, -, rfl⟩ := step_advance hs
  obtain rfl := Option.some.inj (hc.symm.trans hi)
  have hne : ∀ {p : Job K P → Bool} {f : Job K P → Job K P}, p r = false → r ∈ (q.update p f).1.jobs :=
    fun hp => mem_map.2 ⟨r, hr, by simp [hp]⟩
  cases ha with
  | release =>
    cases hp : c.job.leases r && decide (r.generation ≠ c.job.generation) with
    | false => exact .inl (hne hp)
    | true => exact .inr ⟨(and_eq_true_iff.1 hp).1, mem_map.2 ⟨r, hr, if_pos hp⟩⟩
  | giveBack hp hf =>
    refine .inl (hne ?_)
    by_contra hn
    exact false_ne_true (hh.symm.trans (hp r (by simpa using hn)))
  | beat hf => exact .inl (hne hh)
  | complete | deadLetter => exact .inl (mem_filter.2 ⟨hr, by simpa [Call.job] using hh⟩)

/-- In every run a row leaves the table only by its holder or when its attempts are used up, and
with a failure row unless it was completed; an accepted job is in the table or was claimed since;
and a call whose job holds a row no longer only touches its own lease. -/
theorem no_job_lost {clock : Int} {as : List (Int × Action K P)}
    (h : run (Queue.step lane) (Queue.empty clock) as = some q) :
    (∀ now a q', q.step lane (now, a) = some q' → ∀ r ∈ q.jobs, (∀ r' ∈ q'.jobs, r'.id ≠ r.id) →
        Leaves q q' now r a) ∧
      (∀ later id n payload t earlier, q.log = later ++ .accepted id n payload t :: earlier →
        (∃ r ∈ q.jobs, r.id = id ∧ n ≤ r.generation ∧
            Took (later ++ [.accepted id n payload t]) id r.generation r.payload) ∨
          ∃ job, .granted job ∈ later ∧ job.id = id ∧ n ≤ job.generation ∧
            Took (later ++ [.accepted id n payload t]) id job.generation job.payload) ∧
      (∀ now i c q', q.calls[i]? = some c → q.step lane (now, .advance i) = some q' → ∀ r ∈ q.jobs,
        c.job.holds r = false → r ∈ q'.jobs ∨ (c.job.leases r = true ∧ Queue.unleased r ∈ q'.jobs)) ∧
      ∀ r ∈ q.jobs, ∀ t ∈ unclaimed r.id q.log, r.availableAt ≤ t := by
  have hi : Inv q := run_invariant (fun hi hs => Inv.step hi hs) (inv_empty clock) h
  refine ⟨?_, ?_, ?_, ?_⟩
  · intro now a q' hs r hr hgone
    exact hi.leaves hs hr hgone
  · intro later id n payload t earlier hlog
    exact hi.not_lost hlog
  · intro now i c q' hc hs r hr hh
    exact stale_call hc hs hr hh
  · intro r hr
    exact (hi.rows r hr).available

/-- A job that is enqueued again while a worker runs it: the worker's `complete` only gives up its
lease, and the row waits with the second payload. -/
theorem no_job_lost_superseded : ∃ q : Queue Bool Nat,
      run (Queue.step fun _ => .ops) (Queue.empty 0)
          [(1, .enqueue ⟨7, true, some "k", 10, 0, 3, 1⟩), (2, .claim [true] .priority 1 1000 (fun _ => false) (· + 100)),
            (3, .enqueue ⟨8, true, some "k", 20, 0, 3, 5⟩), (4, .call (.complete ⟨7, true, some "k", 10, 1, 1, 3, 107⟩)),
            (5, .advance 0), (6, .advance 0)] = some q ∧
        q.jobs.map (fun r => (r.payload, r.generation, r.availableAt)) = [(20, 2, 5)] ∧
        ∀ r ∈ q.jobs, ∀ t ∈ unclaimed r.id q.log, r.availableAt ≤ t := by
  have hsome : (run (Queue.step fun _ => .ops) (Queue.empty 0 : Queue Bool Nat)
      [(1, .enqueue ⟨7, true, some "k", 10, 0, 3, 1⟩), (2, .claim [true] .priority 1 1000 (fun _ => false) (· + 100)),
        (3, .enqueue ⟨8, true, some "k", 20, 0, 3, 5⟩), (4, .call (.complete ⟨7, true, some "k", 10, 1, 1, 3, 107⟩)),
        (5, .advance 0), (6, .advance 0)]).map
        (fun q => q.jobs.map fun r => (r.payload, r.generation, r.availableAt)) =
      some [(20, 2, 5)] := by decide +kernel
  obtain ⟨q, hq, hjobs⟩ := Option.map_eq_some_iff.1 hsome
  exact ⟨q, hq, hjobs, (no_job_lost hq).2.2.2⟩

/-! ## What is handed out -/

/-- A claim hands out a job that was accepted before, with the payload of the newest enqueue of its row, and under a
lease id that no other claim has. -/
theorem granted_newest {clock : Int} {as : List (Int × Action K P)} {later earlier : List (Event K P)}
    {job : LeasedJob K P} (h : run (Queue.step lane) (Queue.empty clock) as = some q)
    (hlog : q.log = later ++ .granted job :: earlier) : Took earlier job.id job.generation job.payload ∧
      (∀ n payload t, .accepted job.id n payload t ∈ earlier → n ≤ job.generation) ∧
      ∀ job', .granted job' ∈ later ++ earlier → job'.leaseId ≠ job.leaseId := by
  have hi : Inv q := run_invariant (fun hi hs => Inv.step hi hs) (inv_empty clock) h
  obtain ⟨-, hcons, hcross⟩ := pairwise_append.1 (hlog ▸ hi.order)
  refine ⟨?_, fun n payload t hmem => ((pairwise_cons.1 hcons).1 _ hmem rfl).1, fun job' hmem heq => ?_⟩
  · obtain ⟨t, ht⟩ := hi.payloads job (by simp [hlog])
    rw [hlog] at ht
    rcases mem_append.1 ht with ht | ht
    · -- an enqueue after the claim has a greater generation
      exact absurd ((hcross _ ht _ mem_cons_self rfl).2 trivial) (Int.lt_irrefl _)
    · exact ⟨t, (mem_cons.1 ht).resolve_left (by simp)⟩
  · have hleases := hi.leases
    rw [hlog, Queue.leaseIds, filterMap_append, filterMap_cons] at hleases
    have hnot := (nodup_middle.1 hleases).notMem
    rw [← filterMap_append] at hnot
    exact hnot (heq ▸ mem_leaseIds.2 ⟨job', hmem, rfl⟩)

theorem granted_newest_enqueued_twice : ∃ q : Queue Bool Nat, run (Queue.step fun _ => .ops) (Queue.empty 0)
        [(1, .enqueue ⟨7, true, some "k", 10, 0, 3, 1⟩), (3, .enqueue ⟨8, true, some "k", 20, 0, 3, 5⟩),
          (6, .claim [true] .priority 1 1000 (fun _ => false) (· + 100))] = some q ∧
      .granted ⟨7, true, some "k", 20, 2, 1, 3, 107⟩ ∈ q.log ∧ Took q.log 7 2 20 := by
  have hlog : (run (Queue.step fun _ => .ops) (Queue.empty 0 : Queue Bool Nat)
      [(1, .enqueue ⟨7, true, some "k", 10, 0, 3, 1⟩), (3, .enqueue ⟨8, true, some "k", 20, 0, 3, 5⟩),
        (6, .claim [true] .priority 1 1000 (fun _ => false) (· + 100))]).map Queue.log =
      some [.granted ⟨7, true, some "k", 20, 2, 1, 3, 107⟩, .accepted 7 2 20 5, .accepted 7 1 10 1] := by decide +kernel
  obtain ⟨q, hq, hlog⟩ := Option.map_eq_some_iff.1 hlog
  obtain ⟨t, ht⟩ := (granted_newest hq (show q.log = [] ++ _ :: _ from hlog)).1
  exact ⟨q, hq, by simp [hlog], t, hlog ▸ mem_cons_of_mem _ ht⟩

end SC.Proof.Jobs
