import SoundCloudBackend.Proof.SyncQueue.Invariant

/-!
# The execution of a row keeps the order

Each statement of `execute`, each answer of SoundCloud and each fault keeps
`PairValid`. Past the check of the mirror the worker has a row that a synced mirror
wants (`PairValid.wants`); what it records in its row keeps the order, because the
row was hot before (`PairValid.record`), and what it writes is no other row's result
(`PairValid.write`).
-/

namespace SC.Proof.SyncQueue

open Impl.Replication Impl.SyncQueue
open Function

variable {likeFirst : Bool} {s s' : Pair} {k : Kind} {r r' : Row} {m : Mutation}
variable {clock : Int} {phase : Phase}
variable {j : Kind} {mirror : Mirror} {phase' : Phase} {refreshed : Bool}

/-! ## Rows that cool down -/

theorem Cools.refl (hr : RowValid clock r) : Cools r r :=
  ⟨rfl, rfl, rfl, rfl, rfl, Int.le_refl _, id, id, hr.dead_unleased, id⟩

theorem unlease_cools (r : Row) : Cools r { r with lease := none } :=
  ⟨rfl, rfl, rfl, rfl, rfl, Int.le_refl _, id, id, fun _ => rfl, nofun⟩

theorem releaseLease_cools (hr : RowValid clock r) (m : Mutation) : Cools r (r.releaseLease m) := by
  rw [Row.releaseLease]
  split
  · exact unlease_cools r
  · exact .refl hr

theorem postpone_cools (hr : RowValid clock r) (m : Mutation) : Cools r (r.postpone m) := by
  rw [Row.postpone]
  split
  · exact unlease_cools r
  · exact releaseLease_cools hr m

theorem settleFailure_cools (hr : RowValid clock r) (m : Mutation) (failure : Failure) :
    Cools r (r.settleFailure m failure) := by
  cases failure with
  | postpone => exact postpone_cools hr m
  | postponeUnattempted =>
    simp only [Row.settleFailure, Row.postponeUnattempted]
    split
    · exact unlease_cools r
    · exact releaseLease_cools hr m
  | retry =>
    simp only [Row.settleFailure, Row.park, Row.retry]
    split <;> split
    · exact ⟨rfl, rfl, rfl, rfl, rfl, Int.le_refl _, id, nofun, fun _ => rfl, nofun⟩
    · exact releaseLease_cools hr m
    · exact ⟨rfl, rfl, rfl, rfl, rfl, Int.le_refl _, id, id, fun _ => rfl, nofun⟩
    · exact releaseLease_cools hr m

theorem forceDue_cools (hr : RowValid clock r) : Cools r r.forceDue := by
  rw [Row.forceDue]
  split
  · exact unlease_cools r
  · exact .refl hr

theorem le_versioned (clock : Int) (purged : Option Int) (r : Row) :
    r.intentV < (r.versioned clock purged).intentV :=
  lt_of_le_of_lt (le_max_left ..) (lt_scdHlc ..)

theorem uncancel_cools {now : Int} (hr : RowValid clock r) (purged : Option Int) :
    Cools r ({ r with cancelled := false }.versioned now purged) :=
  ⟨rfl, rfl, rfl, rfl, rfl, (le_versioned now purged { r with cancelled := false }).le, nofun, id, hr.dead_unleased, id⟩

theorem expire_cools (hr : RowValid clock r) :
    Cools r { r with lease := r.lease.map fun lease => { lease with expired := true } } :=
  ⟨rfl, rfl, rfl, rfl, rfl, Int.le_refl _, id, id, fun hd => by simp [hr.dead_unleased hd], fun hl => by simpa using hl⟩

theorem PairValid.setRow_cools (h : PairValid likeFirst s) (hr : s.row k = some r) (hc : Cools r r')
    {r₁ : Row} (h₁ : (s.setRow k r').row j = some r₁) : ∃ r₀, s.row j = some r₀ ∧ Cools r₀ r₁ := by
  rw [setRow_row] at h₁
  split at h₁
  · rename_i heq
    cases h₁
    exact ⟨r, heq ▸ hr, hc⟩
  · exact ⟨r₁, h₁, .refl (h.rows h₁)⟩

theorem PairValid.purge_cools (h : PairValid likeFirst s) (r : Row) {r₁ : Row}
    (h₁ : (s.purge k r).row j = some r₁) : ∃ r₀, s.row j = some r₀ ∧ Cools r₀ r₁ := by
  rw [purge_row] at h₁
  split_ifs at h₁
  exact ⟨r₁, h₁, .refl (h.rows h₁)⟩

theorem idle_ne (hw : s.worker = .idle) : s.worker ≠ .busy m phase := by simp [hw]

theorem PairValid.landing_same (h : PairValid likeFirst s) (hk : s.landing k) (hrow : s'.row k = s.row k) :
    s.landing k ∧ ∃ r r' l, s.row k = some r ∧ s'.row k = some r' ∧ r.lease = some l ∧ r'.lease = some l := by
  obtain ⟨⟨r, l, hr, hl, -⟩, -⟩ := h.landing hk
  exact ⟨hk, r, r, l, hr, hrow.trans hr, hl, hl⟩

theorem PairValid.landing_ne (h : PairValid likeFirst s) (hw : s.worker = .busy m phase)
    (hk : s.landing k) : k ≠ m.kind := by
  rintro rfl
  have hon := (h.landing hk).2
  simp [hw, Worker.isOn] at hon

/-! ## The end of an execution -/

theorem leave_valid {change : Row → Row} (h : PairValid likeFirst s) (hw : s.worker = .busy m phase)
    (hchange : ∀ {r}, RowValid s.clock r → Cools r (change r)) : PairValid likeFirst (s.leave m change) := by
  obtain ⟨r, hr, -⟩ := h.busy hw
  have hs : s.leave m change = (s.setRow m.kind (change r)).setWorker .idle := by simp [Pair.leave, hr]
  rw [hs]
  refine h.cool (h.setRow_cools hr (hchange (h.rows hr))) nofun (fun {k} hk => h.landing_same hk ?_) rfl rfl
    (Int.le_refl _)
  simp [h.landing_ne hw hk]

theorem drop_valid (h : PairValid likeFirst s) (hw : s.worker = .busy m phase) (r : Row) :
    PairValid likeFirst ((s.purge m.kind r).setWorker .idle) := by
  refine h.cool (h.purge_cools r) nofun (fun {k} hk => h.landing_same hk ?_) rfl rfl (Int.le_refl _)
  simp [h.landing_ne hw hk]

/-! ## Steps of an execution -/

/-- If the mirror is synced, then `k` is what it wants. -/
def Wants (s : Pair) (k : Kind) : Prop :=
  ∀ mirror, s.mirror = some mirror → mirror.syncedForV = mirror.wantedV → mirror.wanted = k.state

theorem Wants.ne (h : Wants s k) (hm : s.mirror = some mirror)
    (heq : mirror.syncedForV = mirror.wantedV) (hj : j.state = !mirror.wanted) : k ≠ j := by
  rintro rfl
  rw [h mirror hm heq] at hj
  cases k <;> cases hj

theorem wants_of_not
    (hk : ∀ mirror, s.mirror = some mirror → mirror.syncedForV = mirror.wantedV → k.state ≠ !mirror.wanted) :
    Wants s k := by
  intro mirror hm heq
  have := hk mirror hm heq
  cases hs : k.state <;> cases hw : mirror.wanted <;> simp_all

theorem PairValid.wants (h : PairValid likeFirst s) (hw : s.worker = .busy m phase)
    (hphase : phase ≠ .claimed) : Wants s m.kind :=
  wants_of_not fun _ hm heq hk => hphase (((h.synced hm heq).2 m.kind hk).worker hw rfl).1

theorem PairValid.record (h : PairValid likeFirst s) (hw : s.worker = .busy m phase)
    (hr : s.row m.kind = some r) (hv : RowValid s.clock r') (hcreated : r'.createdAt = r.createdAt)
    (hlease : r'.lease = r.lease) (hexec : r'.execGeneration = r.execGeneration)
    (hdone : r'.completed = some r'.generation → s.remote = m.kind.state) (hwants : Wants s m.kind)
    (hclaimed : phase' ≠ .claimed) (hwritten : phase' = .written → s.remote = m.kind.state) :
    PairValid likeFirst ((s.setRow m.kind r').setWorker (.busy m phase')) := by
  obtain ⟨r₀, hr₀, ho, hlive⟩ := h.busy_live hw
  cases hr.symm.trans hr₀
  have ho' : Owned m r' := ⟨hlease.trans ho.lease, hexec.trans ho.exec⟩
  refine ⟨fun {k r₁} h₁ => ?_, fun {k r₁ r₂} h₁ h₂ hl₁ hl₂ hfirst => ?_, fun {n phase} hn => ?_, fun {n} hn => ?_,
    fun {n} hn => ?_, fun {k r₁} h₁ hl hd => ?_, fun {k} hk => ?_, fun hm => h.mirror hm, fun {mirror} hm heq => ?_⟩
  · simp only [setWorker_row, setRow_row] at h₁
    split at h₁
    · cases h₁
      exact hv
    · exact h.rows h₁
  · simp only [setWorker_row, setRow_row] at h₁ h₂
    split at h₁
    · rename_i heq
      subst heq
      cases h₁
      simp only [Kind.inverse_ne, if_false] at h₂
      rw [first_congr hcreated rfl] at hfirst
      exact h.order hr h₂ hlive hl₂ hfirst
    · rename_i hne
      -- the row of the worker was hot before, so the other one does not come first
      have heq : m.kind = k.inverse := (Kind.eq_or_eq_inverse k m.kind).resolve_left (Ne.symm hne)
      rw [if_pos heq.symm] at h₂
      cases h₂
      rw [first_congr rfl hcreated] at hfirst
      exact absurd ho.hot (h.order h₁ (heq ▸ hr) hl₁ hlive hfirst)
  · cases hn
    exact ⟨r', by simp, ho'⟩
  · cases hn
    exact absurd rfl hclaimed
  · cases hn
    exact hwritten rfl
  · simp only [setWorker_row, setRow_row] at h₁
    split at h₁
    · rename_i heq
      cases h₁
      rw [heq]
      exact hdone hd
    · exact h.completed h₁ hl hd
  · have hne := h.landing_ne hw hk
    obtain ⟨⟨r₁, l, h₁, hl, hexp⟩, -⟩ := h.landing hk
    exact ⟨⟨r₁, l, by simp [hne, h₁], hl, hexp⟩, by simp [Worker.isOn, Ne.symm hne]⟩
  · obtain ⟨hrem, hquiet⟩ := h.synced hm heq
    refine ⟨hrem, fun k hk => ?_⟩
    have hne := hwants.ne hm heq hk
    have hq := hquiet k hk
    refine ⟨fun {r₁} h₁ => hq.row (by simpa [Ne.symm hne] using h₁), hq.landing, fun hn hkind => ?_⟩
    cases hn
    exact absurd hkind hne

theorem PairValid.move (h : PairValid likeFirst s) (hw : s.worker = .busy m phase)
    (hwants : Wants s m.kind) (hclaimed : phase' ≠ .claimed) (hwritten : phase' = .written → s.remote = m.kind.state) :
    PairValid likeFirst (s.setWorker (.busy m phase')) := by
  obtain ⟨r, hr, -, hlive⟩ := h.busy_live hw
  have hsame : s.setRow m.kind r = s := by simp [Pair.setRow, ← hr]
  have := h.record hw hr (h.rows hr) rfl rfl rfl (h.completed hr hlive) hwants hclaimed hwritten
  rwa [hsame] at this

theorem PairValid.write (h : PairValid likeFirst s) (hr : s.row k = some r) (hlive : r.dead = false) (hhot : Hot r)
    (hwants : Wants s k) : PairValid likeFirst { s with remote := k.state } where
  rows := h.rows
  order := h.order
  busy := h.busy
  result := h.result
  written := fun {n} hn => by
    rcases Kind.eq_or_eq_inverse k n.kind with heq | heq
    · rw [heq]
    · obtain ⟨r₁, h₁, ho, hl₁⟩ := h.busy_live (m := n) hn
      exact absurd ho.hot (h.cold hr (heq ▸ h₁) hlive hl₁ hhot)
  completed := fun {j r₁} h₁ hl₁ hd => by
    rcases Kind.eq_or_eq_inverse k j with rfl | rfl
    · rfl
    · exact absurd hd (h.completed_cold hr hlive hhot h₁ hl₁)
  landing := h.landing
  mirror := h.mirror
  synced := fun {mirror} hm heq => by
    obtain ⟨-, hquiet⟩ := h.synced hm heq
    exact ⟨(hwants mirror hm heq).symm, fun j hj => ⟨(hquiet j hj).row, (hquiet j hj).landing, (hquiet j hj).worker⟩⟩

theorem next_ne_claimed (response : Response) (refreshed : Bool) : response.next refreshed ≠ .claimed := by
  cases response with
  | unauthorized renewed =>
    simp only [Response.next]
    split <;> exact nofun
  | _ => exact nofun

theorem respond_valid {response : Response} {lands : Bool} (h : PairValid likeFirst s)
    (hw : s.worker = .busy m (.sending refreshed))
    (hmissing : response = .targetMissing → s.remote = m.kind.state) : PairValid likeFirst { s with
      worker := .busy m (response.next refreshed)
      remote := if response.applied lands then m.kind.state else s.remote } := by
  have hwants := h.wants hw nofun
  obtain ⟨r, hr, ho, hlive⟩ := h.busy_live hw
  split
  · have hw' : ({ s with remote := m.kind.state } : Pair).worker = .busy m (.sending refreshed) := hw
    exact (h.write hr hlive ho.hot hwants).move hw' hwants (next_ne_claimed response refreshed) fun _ => rfl
  · rename_i happlied
    refine h.move hw hwants (next_ne_claimed response refreshed) fun hnext => hmissing ?_
    cases response with
    | written => exact absurd rfl happlied
    | targetMissing => rfl
    | unauthorized renewed =>
      simp only [Response.next] at hnext
      split at hnext <;> cases hnext
    | _ => cases hnext

/-- The row of the worker is the one that the mirror does not want, and was not attempted: it goes. -/
theorem superseded_of_quiet (h : PairValid likeFirst s) (hw : s.worker = .busy m .claimed)
    (hm : s.mirror = some mirror) (heq : mirror.syncedForV = mirror.wantedV) (hk : m.kind.state = !mirror.wanted)
    (hr : s.row m.kind = some r) : r.superseded m s.mirror = true ∧ m.hasRemoteResult = false := by
  obtain ⟨r₀, hr₀, ho, hlive⟩ := h.busy_live hw
  cases hr.symm.trans hr₀
  have hq := (h.synced hm heq).2 m.kind hk
  have hgen : r.generation = m.generation := (hq.worker hw rfl).2 hr
  have hattempted := hq.row hr hlive
  have hnone : r.completed = none := by
    cases hc : r.completed with
    | none => rfl
    | some g =>
      have hg : g = r.generation := (h.rows hr).adopted_completed (hgen ▸ ho.exec) hc
      exact absurd ((h.rows hr).completed_attempted (hg ▸ hc)) hattempted
  constructor
  · have howned : r.ownedBy m = true := by simp [Row.ownedBy, ho.lease]
    have hwanted : mirror.wanted ≠ m.kind.state := by
      rw [hk]
      cases mirror.wanted <;> decide
    exact decide_eq_true ⟨howned, hgen, hattempted, hnone, by simp [hm, hwanted]⟩
  · cases hres : m.hasRemoteResult with
    | false => rfl
    | true => cases hnone.symm.trans (h.result hw hres hr hgen)

theorem claimed_valid (h : PairValid likeFirst s) (hw : s.worker = .busy m .claimed)
    (hs : s.work m .claimed = some s') : PairValid likeFirst s' := by
  obtain ⟨r, hr, -⟩ := h.busy hw
  -- a step past the check is of a row that a synced mirror wants
  have hwants : (m.hasRemoteResult = true ∨ r.superseded m s.mirror = false) → Wants s m.kind := by
    intro hstep
    refine wants_of_not fun mirror hm heq hk => ?_
    obtain ⟨hsup, hres⟩ := superseded_of_quiet h hw hm heq hk hr
    rcases hstep with hstep | hstep
    · cases hres.symm.trans hstep
    · cases hsup.symm.trans hstep
  simp only [Pair.work, hr] at hs
  split at hs
  · rename_i hres
    cases hs
    exact h.move hw (hwants (.inl hres)) nofun nofun
  · split at hs
    · cases hs
      exact drop_valid h hw r
    · rename_i hsup
      cases hs
      exact h.move hw (hwants (.inr (by simpa using hsup))) nofun nofun

theorem checked_valid (h : PairValid likeFirst s) (hw : s.worker = .busy m .checked)
    (hs : s.work m .checked = some s') : PairValid likeFirst s' := by
  obtain ⟨r, hr, ho, hlive⟩ := h.busy_live hw
  simp only [Pair.work, hr, Option.bind_some, Row.recordRemoteAttempt] at hs
  split at hs
  · rename_i r' hr'
    split at hr'
    · rename_i hcond
      cases hr'
      cases hs
      obtain ⟨-, hgen, hnone⟩ := hcond
      have hv := h.rows hr
      refine h.record hw hr ?_ rfl rfl rfl (fun hd => ?_) (h.wants hw nofun) nofun nofun
      · exact
          { hv with
            cancelled_idle := fun hc => by simpa [ho.lease] using (idle_iff.1 (hv.cancelled_idle hc)).1
            attempted_le := fun hg => by
              cases hg
              exact hgen.ge
            completed_attempted := fun hg => by cases hnone.symm.trans hg
            attempted_exec := fun hg => by
              rw [← hg]
              exact ho.exec }
      · cases hnone.symm.trans hd
    · cases hr'
  · cases hs
    exact leave_valid h hw fun hv => releaseLease_cools hv m

theorem written_valid (h : PairValid likeFirst s) (hw : s.worker = .busy m .written)
    (hs : s.work m .written = some s') : PairValid likeFirst s' := by
  obtain ⟨r, hr, ho, hlive⟩ := h.busy_live hw
  simp only [Pair.work, hr, Option.bind_some, Row.recordRemoteSuccess] at hs
  split at hs
  · rename_i r' hr'
    split at hr'
    · rename_i hcond
      cases hr'
      cases hs
      obtain ⟨-, hgen, hattempted, -⟩ := hcond
      have hv := h.rows hr
      refine h.record hw hr ?_ rfl rfl rfl (fun _ => h.written hw) (h.wants hw nofun) nofun nofun
      exact
        { hv with
          cancelled_idle := fun hc => by simpa [ho.lease] using (idle_iff.1 (hv.cancelled_idle hc)).1
          completed_attempted := fun hg => by rw [← hg]; exact hattempted
          adopted_completed := fun _ _ hg => by
            cases hg
            exact hgen.symm }
    · cases hr'
  · cases hs
    exact leave_valid h hw fun hv => releaseLease_cools hv m

/-- The mirror is settled for `k`, which SoundCloud has, when nothing is left of the inverse. -/
theorem PairValid.settleMirror (h : PairValid likeFirst s) (hremote : s.remote = k.state) (hq : Quiet s k.inverse) :
    PairValid likeFirst { s with mirror := s.mirror.map (Mirror.settle k) } := by
  have hmirror : ∀ {mirror}, s.mirror.map (Mirror.settle k) = some mirror →
      ∃ old, s.mirror = some old ∧ Mirror.settle k old = mirror := Option.map_eq_some_iff.1
  refine ⟨h.rows, h.order, h.busy, h.result, h.written, h.completed, h.landing, fun hm => ?_, fun hm heq => ?_⟩ <;>
    obtain ⟨old, hold, rfl⟩ := hmirror hm <;> have hle := h.mirror hold
  · rw [Mirror.settle]
    split
    · exact Int.le_refl _
    · exact hle
  · rw [Mirror.settle] at heq ⊢
    split
    · rename_i hwanted
      refine ⟨hremote.trans hwanted.symm, fun j hj => ?_⟩
      have hj : j = k.inverse := by
        simp only [hwanted] at hj
        cases j <;> cases k <;> first | rfl | cases hj
      rw [hj]
      exact ⟨hq.row, hq.landing, hq.worker⟩
    · rename_i hwanted
      rw [if_neg hwanted] at heq
      obtain ⟨hrem, hquiet⟩ := h.synced hold heq
      exact ⟨hrem, fun j hj => ⟨(hquiet j hj).row, (hquiet j hj).landing, (hquiet j hj).worker⟩⟩

theorem finalizing_valid (h : PairValid likeFirst s) (hw : s.worker = .busy m .finalizing) :
    PairValid likeFirst ((s.finalize m).setWorker .idle) := by
  obtain ⟨r, hr, ho, hlive⟩ := h.busy_live hw
  simp only [Pair.finalize, hr]
  split
  · rename_i hready
    obtain ⟨-, hgen, hdone⟩ := of_decide_eq_true hready
    have hremote : s.remote = m.kind.state := h.completed hr hlive (hgen ▸ hdone)
    -- the row was hot, so nothing of the inverse row is
    have hq : Quiet ((s.purge m.kind r).setWorker .idle) m.kind.inverse := by
      refine ⟨fun {r'} hr' hlive' ha => ?_, ?_, nofun⟩
      · have hr' : s.row m.kind.inverse = some r' := by simpa using hr'
        exact h.cold hr hr' hlive hlive' ho.hot (.inr ha)
      · cases hl : s.landing m.kind.inverse with
        | false => exact hl
        | true =>
          obtain ⟨⟨r', l, hr', hl', -⟩, -⟩ := h.landing hl
          exact absurd (.inl (by simp [hl'])) (h.cold hr hr' hlive ((h.rows hr').live_of_lease hl') ho.hot)
    exact (drop_valid h hw r).settleMirror hremote hq
  · have hs : (s.setRow m.kind (r.releaseLease m)).setWorker .idle = s.leave m fun r => r.releaseLease m := by
      simp [Pair.leave, hr]
    rw [hs]
    exact leave_valid h hw fun hv => releaseLease_cools hv m

theorem work_valid (h : PairValid likeFirst s) (hw : s.worker = .busy m phase)
    (hs : s.work m phase = some s') : PairValid likeFirst s' := by
  cases phase with
  | claimed => exact claimed_valid h hw hs
  | checked => exact checked_valid h hw hs
  | sending refreshed => cases hs
  | written => exact written_valid h hw hs
  | failed failure =>
    cases hs
    exact leave_valid h hw fun hv => settleFailure_cools hv m failure
  | finalizing =>
    cases hs
    exact finalizing_valid h hw

/-! ## Faults -/

theorem crash_valid {pending : Bool} (h : PairValid likeFirst s) (hw : s.worker = .busy m (.sending refreshed)) :
    PairValid likeFirst { s with worker := .idle, landing := update s.landing m.kind pending } where
  rows := h.rows
  order := h.order
  busy := nofun
  result := nofun
  written := nofun
  completed := h.completed
  landing := fun {k} hk => by
    by_cases heq : k = m.kind
    · obtain ⟨r, hr, ho⟩ := h.busy hw
      exact ⟨⟨r, _, heq ▸ hr, ho.lease, rfl⟩, rfl⟩
    · simp only [update_of_ne heq] at hk
      exact ⟨(h.landing hk).1, rfl⟩
  mirror := h.mirror
  synced := fun {mirror} hm heq => by
    obtain ⟨hrem, hquiet⟩ := h.synced hm heq
    refine ⟨hrem, fun k hk => ?_⟩
    have hne : k ≠ m.kind := ((h.wants hw nofun).ne hm heq hk).symm
    exact ⟨(hquiet k hk).row, by simpa [hne] using (hquiet k hk).landing, nofun⟩

theorem stop_valid (h : PairValid likeFirst s) : PairValid likeFirst (s.setWorker .idle) :=
  h.cool (fun hr => ⟨_, hr, .refl (h.rows hr)⟩) nofun (fun hk => h.landing_same hk rfl) rfl rfl (Int.le_refl _)

theorem lose_valid (h : PairValid likeFirst s) :
    PairValid likeFirst { s with landing := update s.landing k false } := by
  refine h.cool (fun hr => ⟨_, hr, .refl (h.rows hr)⟩) (fun hw => ⟨hw, rfl⟩) (fun {j} hj => ?_) rfl rfl (Int.le_refl _)
  have hne : j ≠ k := by
    rintro rfl
    simp at hj
  simp only [update_of_ne hne] at hj
  exact h.landing_same hj rfl

theorem land_valid (h : PairValid likeFirst s) (hk : s.landing k) :
    PairValid likeFirst { s with remote := k.state, landing := update s.landing k false } := by
  obtain ⟨⟨r, l, hr, hl, -⟩, -⟩ := h.landing hk
  have hwants : Wants s k := wants_of_not fun mirror hm heq hstate => by
    cases ((h.synced hm heq).2 k hstate).landing.symm.trans hk
  exact lose_valid (h.write hr ((h.rows hr).live_of_lease hl) (.inl (by simp [hl])) hwants)

theorem expire_valid (h : PairValid likeFirst s) (hr : s.row k = some r) (hlanding : s.landing k = false)
    (hon : s.worker.isOn k = false) :
    PairValid likeFirst (s.setRow k { r with lease := r.lease.map fun lease => { lease with expired := true } }) := by
  refine h.cool (h.setRow_cools hr (expire_cools (h.rows hr))) (fun {n phase} hn => ⟨hn, ?_⟩)
    (fun {j} hj => h.landing_same hj ?_) rfl rfl (Int.le_refl _)
  · have hne : n.kind ≠ k := by
      rw [setRow_worker] at hn
      simpa [hn, Worker.isOn] using hon
    simp [hne]
  · have hne : j ≠ k := by
      rintro rfl
      cases hlanding.symm.trans hj
    simp [hne]

end SC.Proof.SyncQueue
