import SoundCloudBackend.Proof.SyncQueue.Execution

/-!
# Flushes and taps keep the order

The statements of a flush between two executions, the taps and the healing keep
`PairValid`. A claim heats the head of the two rows. A tap or a healing gives a row
a new generation, which cools it, and a new time only while it is idle
(`PairValid.restamp`). An adoption may bring a parked row back in its old place:
that keeps the order unless the inverse row is hot (`BehindHotInverse`).
-/

namespace SC.Proof.SyncQueue

open Impl.Replication Impl.SyncQueue
open Bool

variable {likeFirst : Bool} {s s' : Pair} {k : Kind} {r r' : Row} {m : Mutation}
variable {clock now : Int}

/-- The row of `k` is parked, comes first, and the inverse row is live and hot. -/
def BehindHotInverse (likeFirst : Bool) (s : Pair) (k : Kind) : Prop :=
  ∃ r r', s.row k = some r ∧ s.row k.inverse = some r' ∧ r.dead ∧ r'.dead = false ∧ Hot r' ∧
    Pair.first likeFirst k r r'

/-! ## Statements of a flush -/

theorem forceDue_valid (h : PairValid likeFirst s) (hw : s.worker = .idle) :
    PairValid likeFirst { s with row := fun k => (s.row k).map Row.forceDue } := by
  refine h.cool (fun {k r'} hr' => ?_) (fun hn => absurd hn (idle_ne hw)) (fun {k} hk => h.landing_same hk ?_) rfl rfl
    (Int.le_refl _)
  · obtain ⟨r, hr, rfl⟩ := Option.map_eq_some_iff.1 hr'
    exact ⟨r, hr, forceDue_cools (h.rows hr)⟩
  · -- the lease of a write on its way is not expired
    obtain ⟨⟨r, l, hr, hl, hexp⟩, -⟩ := h.landing hk
    simp [hr, Row.forceDue, hl, hexp]

theorem settle_valid (h : PairValid likeFirst s) (hw : s.worker = .idle) (hr : s.row k = some r) :
    PairValid likeFirst (s.settle k r) := by
  rw [Pair.settle]
  split
  · rename_i hidle
    have hnone : r.lease = none := (idle_iff.1 (by simpa using And.right (by simpa using hidle))).1
    have hne : ∀ {j}, s.landing j → j ≠ k := by
      rintro j hj rfl
      obtain ⟨⟨r₁, l, h₁, hl, -⟩, -⟩ := h.landing hj
      cases hr.symm.trans h₁
      cases hnone.symm.trans hl
    split
    · exact h.cool (h.setRow_cools hr (uncancel_cools (h.rows hr) _)) (fun hn => absurd hn (idle_ne hw))
        (fun {j} hj => h.landing_same hj (by simp [hne hj])) rfl rfl (Int.le_refl _)
    · exact h.cool (h.purge_cools r) (fun hn => absurd hn (idle_ne hw))
        (fun {j} hj => h.landing_same hj (by simp [hne hj])) rfl rfl (Int.le_refl _)
  · exact h

theorem claim_rowValid (h : RowValid clock r) (hc : r.claimable) (id : Nat) : RowValid clock (r.claim id) := by
  simp only [Row.claimable, and_eq_true, not_eq_true', and_eq_false_iff] at hc
  obtain ⟨⟨⟨hlive, -⟩, hcancelled⟩, hfresh⟩ := hc
  have hexec := h.not_fresh hfresh
  exact
    { h with
      cancelled_idle := fun hcan => by
        rcases hcancelled with hf | hf
        · cases hf.symm.trans hcan
        · cases hf.symm.trans (h.cancelled_idle hcan)
      dead_unleased := fun hd => by cases hlive.symm.trans hd
      exec_le := fun hg => by
        cases hg
        exact Int.le_refl _
      attempted_exec := fun _ => rfl
      adopted_completed := fun _ => h.adopted_completed hexec
      intent := nofun }

theorem claim_valid (h : PairValid likeFirst s) (hr : s.row k = some r) (hc : r.claimable) (hhead : s.isHead likeFirst k r) :
    PairValid likeFirst { s.setRow k (r.claim s.nextLease) with
      worker := .busy ⟨k, r.generation, s.nextLease, r.retryCount, r.completed⟩ .claimed
      nextLease := s.nextLease + 1 } := by
  have hv := h.rows hr
  have hlive : r.dead = false := by
    simp only [Row.claimable, and_eq_true, not_eq_true'] at hc
    exact hc.1.1.1
  have hexpired : ∀ {l}, r.lease = some l → l.expired = true := by
    intro l hl
    simp only [Row.claimable, and_eq_true, hl, Option.all_some] at hc
    exact hc.1.1.2
  have hne : ∀ {j}, s.landing j → j ≠ k := by
    rintro j hj rfl
    obtain ⟨⟨r₁, l, h₁, hl, hexp⟩, -⟩ := h.landing hj
    cases hr.symm.trans h₁
    cases hexp.symm.trans (hexpired hl)
  refine ⟨fun {j r₁} h₁ => ?_, fun {j r₁ r₂} h₁ h₂ hl₁ hl₂ hfirst => ?_, fun {n phase} hn => ?_, fun {n} hn hres r₁ h₁ _ => ?_,
    nofun, fun {j r₁} h₁ hl hd => ?_, fun {j} hj => ?_, h.mirror, fun {mirror} hm heq => ?_⟩
  · simp only [setRow_row] at h₁
    split at h₁
    · cases h₁
      exact claim_rowValid hv hc s.nextLease
    · exact h.rows h₁
  · simp only [setRow_row] at h₁ h₂
    split at h₁
    · rename_i heq
      subst heq
      cases h₁
      simp only [Kind.inverse_ne, if_false] at h₂
      exact h.order hr h₂ hlive hl₂ hfirst
    · rename_i hne
      -- the other row is live, so it does not come before the head
      have heq : k = j.inverse := (Kind.eq_or_eq_inverse j k).resolve_left (Ne.symm hne)
      rw [if_pos heq.symm] at h₂
      cases h₂
      have hj : s.row k.inverse = some r₁ := by rwa [heq, Kind.inverse_inverse]
      have hnot : Pair.first likeFirst k.inverse r₁ r = false := by
        simpa [Pair.isHead, hj, hl₁] using hhead
      rw [heq, Kind.inverse_inverse] at hnot
      cases hnot.symm.trans hfirst
  · cases hn
    exact ⟨r.claim s.nextLease, by simp, rfl, rfl⟩
  · cases hn
    simp only [setRow_row, if_true] at h₁
    cases h₁
    exact of_decide_eq_true hres
  · simp only [setRow_row] at h₁
    split at h₁
    · rename_i heq
      cases h₁
      rw [heq]
      exact h.completed hr hlive hd
    · exact h.completed h₁ hl hd
  · obtain ⟨⟨r₁, l, h₁, hl, hexp⟩, -⟩ := h.landing hj
    exact ⟨⟨r₁, l, by simp [hne hj, h₁], hl, hexp⟩, by simp [Worker.isOn, Ne.symm (hne hj)]⟩
  · obtain ⟨hrem, hquiet⟩ := h.synced hm heq
    refine ⟨hrem, fun j hj => ⟨fun {r₁} h₁ hl => ?_, (hquiet j hj).landing, fun hn hkind => ?_⟩⟩
    · simp only [setRow_row] at h₁
      split at h₁
      · rename_i heq
        cases h₁
        have hquiet : r.attempted ≠ some r.generation := (hquiet j hj).row (heq ▸ hr) hlive
        exact hquiet
      · exact (hquiet j hj).row h₁ hl
    · cases hn
      refine ⟨rfl, fun h₁ => ?_⟩
      rw [← hkind] at h₁
      simp only [setRow_row, if_true] at h₁
      cases h₁
      rfl

theorem adopt_rowValid (h : RowValid clock r) : RowValid clock r.adopt :=
  { h with
    cancelled_idle := fun hc => by
      obtain ⟨hl, ha, -⟩ := idle_iff.1 (h.cancelled_idle hc)
      exact idle_iff.2 ⟨hl, ha, rfl⟩
    dead_unleased := nofun
    exec_le := fun hg => by
      cases hg
      exact Int.le_refl _
    completed_attempted := nofun
    attempted_exec := fun _ => rfl
    adopted_completed := nofun
    intent := nofun }

theorem adopt_valid (h : PairValid likeFirst s) (hw : s.worker = .idle) (hr : s.row k = some r) (hfresh : r.fresh)
    (hok : ¬BehindHotInverse likeFirst s k) : PairValid likeFirst (s.setRow k r.adopt) := by
  have hv := h.rows hr
  have hunattempted := hv.fresh_unattempted hfresh
  refine ⟨fun {j r₁} h₁ => ?_, fun {j r₁ r₂} h₁ h₂ hl₁ hl₂ hfirst => ?_, fun hn => absurd hn (idle_ne hw),
    fun hn => absurd hn (idle_ne hw), fun hn => absurd hn (idle_ne hw), fun {j r₁} h₁ hl hd => ?_,
    fun {j} hj => ?_, h.mirror, fun {mirror} hm heq => ?_⟩
  · simp only [setRow_row] at h₁
    split at h₁
    · cases h₁
      exact adopt_rowValid hv
    · exact h.rows h₁
  · simp only [setRow_row] at h₁ h₂
    split at h₁
    · rename_i heq
      subst heq
      cases h₁
      simp only [Kind.inverse_ne, if_false] at h₂
      cases hd : r.dead with
      | false => exact h.order hr h₂ hd hl₂ hfirst
      | true => exact fun hhot => hok ⟨r, r₂, hr, h₂, hd, hl₂, hhot, hfirst⟩
    · rename_i hne
      have heq : k = j.inverse := (Kind.eq_or_eq_inverse j k).resolve_left (Ne.symm hne)
      rw [if_pos heq.symm] at h₂
      cases h₂
      rintro (hlease | hattempted)
      · -- a leased row was live before
        obtain ⟨l, hl⟩ := Option.isSome_iff_exists.1 hlease
        exact h.order h₁ (heq ▸ hr) hl₁ (hv.live_of_lease hl) hfirst (.inl hlease)
      · exact hunattempted hattempted
  · simp only [setRow_row] at h₁
    split at h₁
    · cases h₁
      cases hd
    · exact h.completed h₁ hl hd
  · obtain ⟨⟨r₁, l, h₁, hl, hexp⟩, hon⟩ := h.landing hj
    refine ⟨?_, hon⟩
    by_cases heq : j = k
    · subst heq
      cases hr.symm.trans h₁
      exact ⟨r.adopt, l, by simp, hl, hexp⟩
    · exact ⟨r₁, l, by simp [heq, h₁], hl, hexp⟩
  · obtain ⟨hrem, hquiet⟩ := h.synced hm heq
    refine ⟨hrem, fun j hj => ⟨fun {r₁} h₁ hl => ?_, (hquiet j hj).landing, fun hn => absurd hn (idle_ne hw)⟩⟩
    simp only [setRow_row] at h₁
    split at h₁
    · cases h₁
      exact hunattempted
    · exact (hquiet j hj).row h₁ hl

/-! ## Taps and healing -/

/-- The intent of a row changes: its generation may go up, and its time moves only while it is idle. -/
structure Restamped (now : Int) (r r' : Row) : Prop where
  valid : RowValid now r'
  lease : r'.lease = r.lease
  exec : r'.execGeneration = r.execGeneration
  attempted : r'.attempted = r.attempted
  completed : r'.completed = r.completed
  dead : r'.dead = r.dead
  generation : r'.generation = r.generation ∨ r.generation < r'.generation
  created : r'.createdAt = r.createdAt ∨ (r.idle ∧ r'.createdAt = now)

structure Inserted (now : Int) (r' : Row) : Prop where
  valid : RowValid now r'
  idle : r'.idle
  created : r'.createdAt = now

theorem Restamped.refl (hr : RowValid clock r) (hnow : clock < now) : Restamped now r r :=
  ⟨hr.later hnow.le, rfl, rfl, rfl, rfl, rfl, .inl rfl, .inl rfl⟩

theorem Restamped.hot (h : Restamped now r r') (hr : RowValid clock r) (hhot : Hot r') : Hot r := by
  rcases hhot with hl | ha
  · exact .inl (h.lease ▸ hl)
  · rw [h.attempted] at ha
    rcases h.generation with heq | hlt
    · exact .inr (heq ▸ ha)
    · exact absurd (hr.attempted_le ha) (by omega)

theorem Restamped.done (h : Restamped now r r') (hr : RowValid clock r)
    (hd : r'.completed = some r'.generation) : r.completed = some r.generation := by
  rw [h.completed] at hd
  rcases h.generation with heq | hlt
  · exact heq ▸ hd
  · exact absurd (hr.attempted_le (hr.completed_attempted hd)) (by omega)

/-- Rows may be restamped or inserted while the mirror is not synced, or in the row that it wants. -/
theorem PairValid.restamp (h : PairValid likeFirst s) (hnow : s.clock < now) (hrow : ∀ {j r'}, s'.row j = some r' →
    (∃ r, s.row j = some r ∧ Restamped now r r') ∨ (s.row j = none ∧ Inserted now r'))
    (hkeep : ∀ {j r}, s.row j = some r → ∃ r', s'.row j = some r')
    (hworker : s'.worker = s.worker) (hlanding : s'.landing = s.landing) (hremote : s'.remote = s.remote)
    (hclock : s'.clock = now) (hmirror : ∀ {mirror}, s'.mirror = some mirror → mirror.syncedForV ≤ mirror.wantedV ∧
    (mirror.syncedForV = mirror.wantedV → s.mirror = some mirror ∧
    ∀ j, j.state = !mirror.wanted → s'.row j = s.row j)) : PairValid likeFirst s' := by
  have hrestamped : ∀ {j r}, s.row j = some r → ∃ r', s'.row j = some r' ∧ Restamped now r r' := by
    intro j r hr
    obtain ⟨r', hr'⟩ := hkeep hr
    rcases hrow hr' with ⟨r₁, h₁, hs⟩ | ⟨hnone, -⟩
    · cases hr.symm.trans h₁
      exact ⟨r', hr', hs⟩
    · cases hnone.symm.trans hr
  refine ⟨fun {j r₁} h₁ => ?_, fun {j r₁ r₂} h₁ h₂ hl₁ hl₂ hfirst hhot => ?_, fun {n phase} hn => ?_,
    fun {n} hn hres r₁ h₁ hgen => ?_, fun hn => ?_, fun {j r₁} h₁ hl hd => ?_, fun {j} hj => ?_,
    fun hm => (hmirror hm).1, fun {mirror} hm heq => ?_⟩
  · rw [hclock]
    rcases hrow h₁ with ⟨r, -, hs⟩ | ⟨-, hi⟩
    · exact hs.valid
    · exact hi.valid
  · -- a row that is new or has a new time is not hot, and does not come first
    rcases hrow h₂ with ⟨q₂, hq₂, hs₂⟩ | ⟨-, hi₂⟩
    · have hhot₂ := hs₂.hot (h.rows hq₂) hhot
      have hle₂ := (h.rows hq₂).created_le
      rcases hs₂.created with hc₂ | ⟨hidle, -⟩
      · have hlate : r₁.createdAt = now → False := by
          intro hc₁
          simp only [Pair.first, decide_eq_true_eq] at hfirst
          omega
        rcases hrow h₁ with ⟨q₁, hq₁, hs₁⟩ | ⟨-, hi₁⟩
        · rcases hs₁.created with hc₁ | ⟨-, hc₁⟩
          · rw [first_congr hc₁ hc₂] at hfirst
            exact h.order hq₁ hq₂ (hs₁.dead ▸ hl₁) (hs₂.dead ▸ hl₂) hfirst hhot₂
          · exact hlate hc₁
        · exact hlate hi₁.created
      · exact not_hot_of_idle hidle hhot₂
    · exact not_hot_of_idle hi₂.idle hhot
  · obtain ⟨r, hr, ho⟩ := h.busy (hworker ▸ hn)
    obtain ⟨r', hr', hs⟩ := hrestamped hr
    exact ⟨r', hr', hs.lease.trans ho.lease, hs.exec.trans ho.exec⟩
  · obtain ⟨r, hr, ho⟩ := h.busy (hworker ▸ hn)
    obtain ⟨r', hr', hs⟩ := hrestamped hr
    cases hr'.symm.trans h₁
    rcases hs.generation with heq | hlt
    · exact hs.completed.trans (h.result (hworker ▸ hn) hres hr (heq.symm.trans hgen))
    · exact absurd ((h.rows hr).exec_le ho.exec) (by omega)
  · exact hremote ▸ h.written (hworker ▸ hn)
  · rcases hrow h₁ with ⟨r, hr, hs⟩ | ⟨-, hi⟩
    · exact hremote ▸ h.completed hr (hs.dead ▸ hl) (hs.done (h.rows hr) hd)
    · cases (idle_iff.1 hi.idle).2.2.symm.trans hd
  · obtain ⟨⟨r, l, hr, hl, hexp⟩, hon⟩ := h.landing (hlanding ▸ hj)
    obtain ⟨r', hr', hs⟩ := hrestamped hr
    exact ⟨⟨r', l, hr', hs.lease.trans hl, hexp⟩, hworker ▸ hon⟩
  · obtain ⟨hold, hsame⟩ := (hmirror hm).2 heq
    obtain ⟨hrem, hquiet⟩ := h.synced hold heq
    refine ⟨hremote.trans hrem, fun j hj => ⟨?_, by rw [hlanding]; exact (hquiet j hj).landing, ?_⟩⟩
    · rw [hsame j hj]
      exact (hquiet j hj).row
    · rw [hworker, hsame j hj]
      exact (hquiet j hj).worker

theorem intent_restamped {t g : Int} {b : Bool} (hr : RowValid clock r) (hnow : clock < now)
    (purged : Option Int) (hg : g = r.generation ∨ r.generation < g) (hb : b → r.idle)
    (ht : t = r.createdAt ∨ (r.idle ∧ t = now)) :
    Restamped now r ({ r with generation := g, cancelled := b, createdAt := t }.versioned now purged) := by
  have hle : r.generation ≤ g := by omega
  have hlate : ∀ {o : Option Int}, (∀ {a}, o = some a → a ≤ r.generation) → o = some g → g = r.generation := by
    intro o ho heq
    have := ho heq
    omega
  refine ⟨?_, rfl, rfl, rfl, rfl, rfl, hg, ht⟩
  exact
    { cancelled_idle := hb
      dead_unleased := hr.dead_unleased
      attempted_le := fun ha => (hr.attempted_le ha).trans hle
      exec_le := fun ha => (hr.exec_le ha).trans hle
      completed_attempted := hr.completed_attempted
      attempted_exec := fun ha => by
        have heq : g = r.generation := hlate hr.attempted_le ha
        have hexec := hr.attempted_exec (heq ▸ ha)
        rw [← heq] at hexec
        exact hexec
      adopted_completed := fun ha _ hd => by
        have heq : g = r.generation := hlate hr.exec_le ha
        exact (hr.adopted_completed (heq ▸ ha) hd).trans heq.symm
      intent := fun he => (hr.intent he).trans (le_versioned now purged { r with
        generation := g, cancelled := b, createdAt := t })
      created_le := by
        have := hr.created_le
        show t ≤ now
        omega }

theorem annuls_idle (h : annuls (some r)) : r.cancelled = false ∧ r.idle := by
  simpa [annuls] using h

theorem cancelInverse_restamped (hr : RowValid clock r) (hnow : clock < now) (purged : Option Int) :
    ∃ r', cancelInverse now purged (some r) = some r' ∧ Restamped now r r' := by
  rw [cancelInverse]
  split
  · rename_i hann
    exact ⟨_, rfl, intent_restamped hr hnow purged (.inl rfl) (fun _ => (annuls_idle hann).2) (.inl rfl)⟩
  · exact ⟨r, rfl, .refl hr hnow⟩

theorem upsert_restamped {purged : Option Int} {b : Bool} (hr : RowValid clock r) (hnow : clock < now) :
    Restamped now r (upsert now purged b (some r)) := by
  rw [upsert]
  split
  · rename_i hcond
    refine intent_restamped hr hnow purged (.inr (lt_scdHlc ..)) (fun hb => ?_) ?_
    · exact hr.cancelled_idle (by simpa [hb] using hcond)
    · split
      · rename_i hcancelled
        exact .inr ⟨hr.cancelled_idle hcancelled, rfl⟩
      · exact .inl rfl
  · exact .refl hr hnow

theorem upsert_inserted (now : Int) (purged : Option Int) (b : Bool) : Inserted now (upsert now purged b none) where
  valid :=
    { cancelled_idle := fun _ => rfl
      dead_unleased := fun _ => rfl
      attempted_le := nofun
      exec_le := nofun
      completed_attempted := nofun
      attempted_exec := nofun
      adopted_completed := nofun
      intent := fun _ => lt_of_le_of_lt (le_max_left ..) (lt_scdHlc ..)
      created_le := Int.le_refl _ }
  idle := rfl
  created := rfl

theorem wantMirror_behind (now : Int) (k : Kind) {mirror : Option Mirror}
    (hle : ∀ {m}, mirror = some m → m.syncedForV ≤ m.wantedV) :
    (wantMirror now k mirror).syncedForV < (wantMirror now k mirror).wantedV := by
  cases mirror with
  | none => exact lt_scdHlc now .core 0
  | some m =>
    have hlt := lt_scdHlc now .core m.wantedV
    have hle := hle rfl
    simp only [wantMirror]
    split
    · exact lt_of_le_of_lt hle hlt
    · exact lt_of_le_of_lt hle (hlt.trans (lt_scdHlc ..))

theorem tap_valid (h : PairValid likeFirst s) (hnow : s.clock < now) : PairValid likeFirst (s.tap k now) := by
  refine h.restamp hnow (fun {j r'} hr' => ?_) (fun {j r} hr => ?_) rfl rfl rfl rfl (fun {mirror} hm => ?_)
  · simp only [Pair.tap] at hr'
    split at hr'
    · rename_i heq
      subst heq
      cases hr'
      cases hr : s.row j with
      | none => exact .inr ⟨rfl, upsert_inserted ..⟩
      | some r => exact .inl ⟨r, rfl, upsert_restamped (h.rows hr) hnow⟩
    · cases hr : s.row j with
      | none => simp [hr, cancelInverse] at hr'
      | some r =>
        obtain ⟨r₁, h₁, hs⟩ := cancelInverse_restamped (h.rows hr) hnow (s.purged j)
        rw [hr, h₁] at hr'
        cases hr'
        exact .inl ⟨r, rfl, hs⟩
  · simp only [Pair.tap]
    split
    · exact ⟨_, rfl⟩
    · obtain ⟨r₁, h₁, -⟩ := cancelInverse_restamped (h.rows hr) hnow (s.purged j)
      exact ⟨r₁, by rw [hr, h₁]⟩
  · cases hm
    have hlt := wantMirror_behind now k h.mirror
    exact ⟨hlt.le, fun heq => absurd heq hlt.ne⟩

theorem healRow_inserted (now : Int) (purged : Option Int) : Inserted now (healRow now purged none) where
  valid :=
    { cancelled_idle := nofun
      dead_unleased := nofun
      attempted_le := nofun
      exec_le := fun hg => by
        cases hg
        exact Int.le_refl _
      completed_attempted := nofun
      attempted_exec := nofun
      adopted_completed := nofun
      intent := nofun
      created_le := Int.le_refl _ }
  idle := rfl
  created := rfl

theorem heal_valid (h : PairValid likeFirst s) (hnow : s.clock < now) : PairValid likeFirst (s.heal now) := by
  have hlater : PairValid likeFirst { s with clock := now } :=
    h.cool (fun hr => ⟨_, hr, .refl (h.rows hr)⟩) (fun hw => ⟨hw, rfl⟩) (fun hk => h.landing_same hk rfl) rfl rfl hnow.le
  rw [Pair.heal]
  split
  · exact hlater
  · rename_i mirror hm
    split
    · -- the healing stamps the row that the mirror wants
      refine h.restamp hnow (fun {j r'} hr' => ?_) (fun {j r} hr => ?_) rfl rfl rfl rfl (fun {mirror'} hm' => ?_)
      · have hr' : ((s.setRow (.ofState mirror.wanted) (healRow now (s.purged (.ofState mirror.wanted))
          (s.row (.ofState mirror.wanted)))).row j) = some r' := hr'
        rw [setRow_row] at hr'
        split at hr'
        · rename_i heq
          rw [← heq] at hr'
          cases hr'
          cases hr : s.row j with
          | none => exact .inr ⟨rfl, healRow_inserted ..⟩
          | some r =>
            exact .inl ⟨r, rfl, intent_restamped (h.rows hr) hnow _ (.inr (lt_scdHlc ..)) nofun (.inl rfl)⟩
        · exact .inl ⟨r', hr', .refl (h.rows hr') hnow⟩
      · by_cases heq : j = .ofState mirror.wanted
        · exact ⟨_, (setRow_row ..).trans (if_pos heq)⟩
        · exact ⟨r, ((setRow_row ..).trans (if_neg heq)).trans hr⟩
      · cases hm.symm.trans hm'
        refine ⟨h.mirror hm, fun _ => ⟨hm, fun j hj => ?_⟩⟩
        have hne : j ≠ .ofState mirror.wanted := by
          rintro rfl
          rw [Kind.state_ofState] at hj
          cases hw : mirror.wanted <;> rw [hw] at hj <;> cases hj
        exact (setRow_row ..).trans (if_neg hne)
    · exact hlater

end SC.Proof.SyncQueue
