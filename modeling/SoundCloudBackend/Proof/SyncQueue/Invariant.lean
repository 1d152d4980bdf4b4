import SoundCloudBackend.Impl.SyncQueue.Worker

/-!
# The order of a like and its inverse

A row is hot while the worker has it, and after an attempt at its generation: the
next execution of such a row does not ask the mirror again. `PairValid` says that of
two live rows the later one is never hot, so that at most one row can write to
SoundCloud at a time (`PairValid.cold`), and what follows from it for the mirror:
once it is synced, nothing that writes the opposite is left. `PairValid.cool` is the
frame rule: rows may lose leases, die or go, and the rest stands.
-/

namespace SC.Proof.SyncQueue

open Impl.Replication Impl.SyncQueue

variable {likeFirst : Bool} {s s' : Pair} {k : Kind} {r r' : Row} {m : Mutation}
variable {clock : Int}

/-! ## Fields of a changed pair -/

@[simp] theorem setRow_row (s : Pair) (k j : Kind) (r : Row) :
    (s.setRow k r).row j = if j = k then some r else s.row j := by
  simp [Pair.setRow, Function.update_apply]

@[simp] theorem purge_row (s : Pair) (k j : Kind) (r : Row) :
    (s.purge k r).row j = if j = k then none else s.row j := by
  simp [Pair.purge, Function.update_apply]

@[simp] theorem setWorker_row (s : Pair) (w : Worker) : (s.setWorker w).row = s.row := rfl
@[simp] theorem setWorker_worker (s : Pair) (w : Worker) : (s.setWorker w).worker = w := rfl
@[simp] theorem setRow_worker (s : Pair) (k : Kind) (r : Row) : (s.setRow k r).worker = s.worker := rfl

/-! ## Rows -/

/-- The worker has the row, or has attempted its generation. -/
def Hot (r : Row) : Prop := r.lease.isSome ∨ r.attempted = some r.generation

/-- The generations of a row are in the order in which a worker passes through them. -/
structure RowValid (clock : Int) (r : Row) : Prop where
  cancelled_idle : r.cancelled → r.idle
  dead_unleased : r.dead → r.lease = none
  attempted_le : ∀ {g}, r.attempted = some g → g ≤ r.generation
  exec_le : ∀ {g}, r.execGeneration = some g → g ≤ r.generation
  completed_attempted : ∀ {g}, r.completed = some g → r.attempted = some g
  attempted_exec : r.attempted = some r.generation → r.execGeneration = some r.generation
  adopted_completed : r.execGeneration = some r.generation → ∀ {g}, r.completed = some g → g = r.generation
  intent : r.execGeneration = none → 0 < r.intentV
  created_le : r.createdAt ≤ clock

theorem RowValid.later {now : Int} (h : RowValid clock r) (hle : clock ≤ now) : RowValid now r :=
  { h with created_le := h.created_le.trans hle }

theorem idle_iff : r.idle ↔ r.lease = none ∧ r.attempted = none ∧ r.completed = none := by
  simp [Row.idle, and_assoc]

theorem not_hot_of_idle (h : r.idle) : ¬Hot r := by
  obtain ⟨hlease, hattempted, -⟩ := idle_iff.1 h
  simp [Hot, hlease, hattempted]

theorem RowValid.not_fresh (h : RowValid clock r) (hr : r.fresh = false) :
    r.execGeneration = some r.generation := by
  by_contra hne
  have hsome : ¬(r.execGeneration.isSome ∨ r.intentV > 0) := by
    intro hor
    simp [Row.fresh, hne, hor] at hr
  cases hexec : r.execGeneration with
  | none => exact hsome (.inr (h.intent hexec))
  | some g => exact hsome (.inl (by simp [hexec]))

theorem fresh_exec (h : r.fresh) : r.execGeneration ≠ some r.generation := by
  intro heq
  simp [Row.fresh, heq] at h

theorem RowValid.fresh_unattempted (h : RowValid clock r) (hr : r.fresh) :
    r.attempted ≠ some r.generation := fun heq => fresh_exec hr (h.attempted_exec heq)

theorem RowValid.live_of_lease (h : RowValid clock r) {l : Lease} (hl : r.lease = some l) : r.dead = false := by
  cases hd : r.dead with
  | false => rfl
  | true => cases (h.dead_unleased hd).symm.trans hl

theorem first_total (h : Pair.first likeFirst k r r' = false) : Pair.first likeFirst k.inverse r' r = true := by
  simp only [Pair.first, decide_eq_false_iff_not, not_or, not_and, decide_eq_true_eq] at h ⊢
  obtain ⟨hlt, heq⟩ := h
  rcases lt_trichotomy r.createdAt r'.createdAt with hlt' | heq' | hlt'
  · exact absurd hlt' hlt
  · refine .inr ⟨heq'.symm, ?_⟩
    have := heq heq'
    cases k <;> simpa [Pair.idFirst, Kind.inverse] using this
  · exact .inl hlt'

theorem first_congr {r₁ r₂ r₁' r₂' : Row} (h : r₁'.createdAt = r₁.createdAt) (h' : r₂'.createdAt = r₂.createdAt) :
    Pair.first likeFirst k r₁' r₂' = Pair.first likeFirst k r₁ r₂ := by
  simp [Pair.first, h, h']

/-! ## The invariant -/

/-- The row has the lease of the mutation, and the claim made its generation the executed one. -/
structure Owned (m : Mutation) (r : Row) : Prop where
  lease : r.lease = some ⟨m.leaseId, m.generation, false⟩
  exec : r.execGeneration = some m.generation

/-- Nothing that is left of the row of `k` writes to SoundCloud. -/
structure Quiet (s : Pair) (k : Kind) : Prop where
  row : ∀ {r}, s.row k = some r → r.dead = false → r.attempted ≠ some r.generation
  landing : s.landing k = false
  worker : ∀ {m phase}, s.worker = .busy m phase → m.kind = k →
    phase = .claimed ∧ ∀ {r}, s.row k = some r → r.generation = m.generation

/-- The inverse rows never run at once, and a completed row's wish stands at SoundCloud. -/
structure PairValid (likeFirst : Bool) (s : Pair) : Prop where
  rows : ∀ {k r}, s.row k = some r → RowValid s.clock r
  order : ∀ {k r r'}, s.row k = some r → s.row k.inverse = some r' → r.dead = false → r'.dead = false →
    Pair.first likeFirst k r r' → ¬Hot r'
  busy : ∀ {m phase}, s.worker = .busy m phase → ∃ r, s.row m.kind = some r ∧ Owned m r
  result : ∀ {m}, s.worker = .busy m .claimed → m.hasRemoteResult → ∀ {r}, s.row m.kind = some r →
    r.generation = m.generation → r.completed = some m.generation
  written : ∀ {m}, s.worker = .busy m .written → s.remote = m.kind.state
  completed : ∀ {k r}, s.row k = some r → r.dead = false → r.completed = some r.generation → s.remote = k.state
  landing : ∀ {k}, s.landing k → (∃ r l, s.row k = some r ∧ r.lease = some l ∧ l.expired = false) ∧
    s.worker.isOn k = false
  mirror : ∀ {mirror}, s.mirror = some mirror → mirror.syncedForV ≤ mirror.wantedV
  synced : ∀ {mirror}, s.mirror = some mirror → mirror.syncedForV = mirror.wantedV →
    s.remote = mirror.wanted ∧ ∀ k, k.state = !mirror.wanted → Quiet s k

theorem Owned.hot (h : Owned m r) : Hot r := .inl (by simp [h.lease])

theorem PairValid.cold (h : PairValid likeFirst s) (hr : s.row k = some r) (hr' : s.row k.inverse = some r')
    (hlive : r.dead = false) (hlive' : r'.dead = false) (hhot : Hot r) : ¬Hot r' := by
  cases hfirst : Pair.first likeFirst k r r' with
  | true => exact h.order hr hr' hlive hlive' hfirst
  | false =>
    have hback : s.row k.inverse.inverse = some r := by rwa [Kind.inverse_inverse]
    exact absurd hhot (h.order hr' hback hlive' hlive (first_total hfirst))

theorem PairValid.completed_cold (h : PairValid likeFirst s) (hr : s.row k = some r) (hlive : r.dead = false)
    (hhot : Hot r) (hr' : s.row k.inverse = some r') (hlive' : r'.dead = false) :
    r'.completed ≠ some r'.generation := fun hc =>
  h.cold hr hr' hlive hlive' hhot (.inr ((h.rows hr').completed_attempted hc))

theorem PairValid.busy_live {phase : Phase} (h : PairValid likeFirst s) (hw : s.worker = .busy m phase) :
    ∃ r, s.row m.kind = some r ∧ Owned m r ∧ r.dead = false := by
  obtain ⟨r, hr, ho⟩ := h.busy hw
  exact ⟨r, hr, ho, (h.rows hr).live_of_lease ho.lease⟩

theorem start_valid (mirror : Option Mirror) (remote : Bool) (clock : Int)
    (hmirror : ∀ m, mirror = some m → m.syncedForV ≤ m.wantedV ∧ (m.syncedForV = m.wantedV → remote = m.wanted)) :
    PairValid likeFirst (Pair.start mirror remote clock) where
  rows := nofun
  order := nofun
  busy := nofun
  result := nofun
  written := nofun
  completed := nofun
  landing := nofun
  mirror := fun hm => (hmirror _ hm).1
  synced := fun hm heq => ⟨(hmirror _ hm).2 heq, fun _ _ => ⟨nofun, rfl, nofun⟩⟩

/-! ## Rows that cool down -/

/-- The row may lose its lease, its cancellation or its life. -/
structure Cools (r r' : Row) : Prop where
  created : r'.createdAt = r.createdAt
  generation : r'.generation = r.generation
  exec : r'.execGeneration = r.execGeneration
  attempted : r'.attempted = r.attempted
  completed : r'.completed = r.completed
  intent : r.intentV ≤ r'.intentV
  cancelled : r'.cancelled → r.cancelled
  dead : r'.dead = false → r.dead = false
  dead_unleased : r'.dead → r'.lease = none
  lease : r'.lease.isSome → r.lease.isSome

theorem Cools.hot (h : Cools r r') (hhot : Hot r') : Hot r := by
  rcases hhot with hl | ha
  · exact .inl (h.lease hl)
  · exact .inr (by rw [← h.attempted, ha, h.generation])

theorem Cools.valid {clock : Int} (h : Cools r r') (hr : RowValid clock r) : RowValid clock r' where
  cancelled_idle := fun hc => by
    obtain ⟨hl, ha, hd⟩ := idle_iff.1 (hr.cancelled_idle (h.cancelled hc))
    have hl' : r'.lease = none := by
      cases hlease : r'.lease with
      | none => rfl
      | some l => simpa [hl] using h.lease (by simp [hlease])
    exact idle_iff.2 ⟨hl', h.attempted.trans ha, h.completed.trans hd⟩
  dead_unleased := h.dead_unleased
  attempted_le := fun hg => h.generation ▸ hr.attempted_le (h.attempted ▸ hg)
  exec_le := fun hg => h.generation ▸ hr.exec_le (h.exec ▸ hg)
  completed_attempted := fun hg => h.attempted ▸ hr.completed_attempted (h.completed ▸ hg)
  attempted_exec := by
    rw [h.attempted, h.exec, h.generation]
    exact hr.attempted_exec
  adopted_completed := by
    rw [h.exec, h.completed, h.generation]
    exact hr.adopted_completed
  intent := fun he => (hr.intent (h.exec ▸ he)).trans_le h.intent
  created_le := h.created ▸ hr.created_le

/-- Rows may cool down or go, except the one that the worker goes on with and those that a write is on its
way from. -/
theorem PairValid.cool (h : PairValid likeFirst s)
    (hrow : ∀ {k r'}, s'.row k = some r' → ∃ r, s.row k = some r ∧ Cools r r')
    (hworker : ∀ {m phase}, s'.worker = .busy m phase → s.worker = .busy m phase ∧ s'.row m.kind = s.row m.kind)
    (hlanding : ∀ {k}, s'.landing k → s.landing k ∧ ∃ r r' l, s.row k = some r ∧ s'.row k = some r' ∧
      r.lease = some l ∧ r'.lease = some l)
    (hmirror : s'.mirror = s.mirror) (hremote : s'.remote = s.remote) (hclock : s.clock ≤ s'.clock) :
    PairValid likeFirst s' where
  rows := fun hr' => by
    obtain ⟨r, hr, hc⟩ := hrow hr'
    exact (hc.valid (h.rows hr)).later hclock
  order := fun h₁ h₂ hl₁ hl₂ hfirst hhot => by
    obtain ⟨r₁, hr₁, hc₁⟩ := hrow h₁
    obtain ⟨r₂, hr₂, hc₂⟩ := hrow h₂
    rw [first_congr hc₁.created hc₂.created] at hfirst
    exact h.order hr₁ hr₂ (hc₁.dead hl₁) (hc₂.dead hl₂) hfirst (hc₂.hot hhot)
  busy := fun hw => by
    obtain ⟨hw, hsame⟩ := hworker hw
    rw [hsame]
    exact h.busy hw
  result := fun hw hres r' hr' => by
    obtain ⟨hw, hsame⟩ := hworker hw
    exact h.result hw hres (hsame ▸ hr')
  written := fun hw => hremote ▸ h.written (hworker hw).1
  completed := fun hr' hlive hdone => by
    obtain ⟨r, hr, hc⟩ := hrow hr'
    rw [hc.completed, hc.generation] at hdone
    exact hremote ▸ h.completed hr (hc.dead hlive) hdone
  landing := fun {k} hk => by
    obtain ⟨hk, r, r', l, hr, hr', hl, hl'⟩ := hlanding hk
    obtain ⟨⟨r₁, l₁, h₁, hl₁, hexp⟩, hon⟩ := h.landing hk
    cases hr.symm.trans h₁
    cases hl.symm.trans hl₁
    refine ⟨⟨r', l, hr', hl', hexp⟩, ?_⟩
    cases hw : s'.worker with
    | idle => rfl
    | busy m phase =>
      rw [(hworker hw).1] at hon
      exact hon
  mirror := fun hm => h.mirror (hmirror ▸ hm)
  synced := fun hm heq => by
    obtain ⟨hrem, hquiet⟩ := h.synced (hmirror ▸ hm) heq
    refine ⟨hremote.trans hrem, fun k hk => ?_⟩
    have hq := hquiet k hk
    refine ⟨fun hr' hlive => ?_, ?_, fun hw hkind => ?_⟩
    · obtain ⟨r, hr, hc⟩ := hrow hr'
      rw [hc.attempted, hc.generation]
      exact hq.row hr (hc.dead hlive)
    · cases hl : s'.landing k with
      | false => rfl
      | true => cases hq.landing.symm.trans (hlanding hl).1
    · obtain ⟨hw, hsame⟩ := hworker hw
      obtain ⟨hphase, hgen⟩ := hq.worker hw hkind
      exact ⟨hphase, fun hr' => hgen (by rw [← hkind, ← hsame, hkind, hr'])⟩

end SC.Proof.SyncQueue
