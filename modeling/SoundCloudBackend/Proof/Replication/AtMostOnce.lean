import SoundCloudBackend.Impl.Replication.Commands

/-!
# A command runs at most once

Core executes the kind of a command at most once, however often the command is
delivered, whatever retention deletes in between. The acknowledgement in
`cmd_done` keeps the time of the execution through every re-acknowledgement;
retention drops it only after the dedup window; and by then the command is too
old to be executed, an hour before the window ends. `Executed` is that argument
as an invariant, `steps_executed` carries it along a run.
-/

namespace SC.Proof.Replication

open Impl.Replication
open Impl.Replication.Core
open List

variable {K V H Args : Type} [DecidableEq K] [DecidableEq H] {sch : Schema K V H Args}
variable {c : Core K V Args} {now : Int} {r : Outbox K H Args} {key : CmdKey}
variable {s s' : Core K V Args × List (Msg K V)} {d : Dispatched K V Args}

/-! ## Acknowledgements of a command -/

/-- The times at which `cmd_done` says that the command was acknowledged. -/
def Acked (c : Core K V Args) (key : CmdKey) (t : Int) : Prop :=
  ∃ d ∈ c.cmdDone, d.key = key ∧ d.ackedAt = t

omit [DecidableEq K] [DecidableEq H] in
theorem acked_bury {st : SqlState} {m : String} {t : Int} : Acked (c.bury now r st m) key t ↔ Acked c key t := by
  simp only [Acked, bury, mem_map]
  constructor
  · rintro ⟨_, ⟨d, hd, rfl⟩, hk, ht⟩
    refine ⟨d, hd, ?_, ?_⟩
    · rw [← hk]
      split <;> rfl
    · rw [← ht]
      split <;> rfl
  · rintro ⟨d, hd, hk, ht⟩
    refine ⟨_, ⟨d, hd, rfl⟩, ?_, ?_⟩
    · rw [← hk]
      split <;> rfl
    · rw [← ht]
      split <;> rfl

theorem compareKey_cmdDone {t : Touched K H}
    (h : compareKey sch key s t = .ok s') : s'.1.cmdDone = s.1.cmdDone := by
  unfold compareKey at h
  split at h
  · cases h; rfl
  · split at h
    · cases h
    split at h <;> split at h <;> cases h <;> rfl

theorem compareKeys_cmdDone {ts : List (Touched K H)}
    (h : ts.foldlM (compareKey sch key) s = .ok s') : s'.1.cmdDone = s.1.cmdDone := by
  induction ts generalizing s with
  | nil =>
    cases h
    rfl
  | cons t ts ih =>
    cases h₁ : compareKey sch key s t with
    | error e => simp [h₁, bind, Except.bind] at h
    | ok s₁ => exact (ih (by simpa [h₁, bind, Except.bind] using h)).trans (compareKey_cmdDone h₁)

theorem compareAll_spec {out : List (Msg K V)}
    {executed : Bool} (h : compareAll sch now c r out executed = some d) :
    d.executed = executed ∧ ∀ key t, Acked d.core key t ↔ Acked c key t := by
  unfold compareAll at h
  split at h
  · rename_i c' out' hf
    cases h
    exact ⟨rfl, fun key t => by rw [Acked, show c'.cmdDone = c.cmdDone from compareKeys_cmdDone hf]; rfl⟩
  · split_ifs at h
    cases h
    exact ⟨rfl, fun key t => acked_bury⟩

omit [DecidableEq H] in
theorem runKind_executed (h : (runKind sch now c r).1 = true) : now - scdDedupWindow + hour ≤ r.createdAt := by
  unfold runKind at h
  split at h
  · cases h
  split_ifs at h with hyoung
  exact not_lt.1 hyoung

/-- What a committed dispatch does to the acknowledgements. A command that was acknowledged
keeps one of its old times and is not executed; another is acknowledged now, and executed only
if it is young enough. -/
theorem scdDispatch_acked (h : c.scdDispatch sch now r = some d) :
    (∀ key t, key ≠ r.key → (Acked d.core key t ↔ Acked c key t)) ∧
      ((d.executed = false ∧ ∃ t₀, Acked c r.key t₀ ∧ ∀ t, Acked d.core r.key t ↔ t = t₀) ∨
        ((∀ t, ¬ Acked c r.key t) ∧ (∀ t, Acked d.core r.key t ↔ t = now) ∧
          (d.executed → now - scdDedupWindow + hour ≤ r.createdAt))) := by
  unfold scdDispatch at h
  split at h
  · rename_i d₀ hd₀
    obtain ⟨hex, hack⟩ := compareAll_spec h
    have hkey : d₀.key = r.key := by simpa using List.find?_some hd₀
    refine ⟨fun key t hne => (hack key t).trans ?_, .inl ⟨hex, d₀.ackedAt, ?_, fun t => (hack _ t).trans ?_⟩⟩
    · simp only [Acked, mem_append, mem_filter, mem_singleton, decide_eq_true_eq]
      constructor
      · rintro ⟨d, ⟨hd, -⟩ | rfl, hk, ht⟩
        · exact ⟨d, hd, hk, ht⟩
        · exact absurd (hk.symm.trans hkey) hne
      · rintro ⟨d, hd, hk, ht⟩
        exact ⟨d, .inl ⟨hd, by rw [hk]; exact hne⟩, hk, ht⟩
    · exact ⟨d₀, mem_of_find?_eq_some hd₀, hkey, rfl⟩
    · simp only [Acked, mem_append, mem_filter, mem_singleton, decide_eq_true_eq]
      constructor
      · rintro ⟨d, ⟨-, hne⟩ | rfl, hk, ht⟩
        · exact absurd hk hne
        · exact ht.symm
      · rintro rfl
        exact ⟨d₀, .inr rfl, hkey, rfl⟩
  · rename_i hnone
    have hno : ∀ t, ¬ Acked c r.key t := by
      rintro t ⟨d, hd, hk, -⟩
      simpa [hk] using List.find?_eq_none.1 hnone d hd
    have hnew : ∀ (rows : K → Option V) key t,
        Acked { c with cmdDone := c.cmdDone ++ [⟨r.key, .ok, now⟩], rows := rows } key t ↔
          Acked c key t ∨ (r.key = key ∧ now = t) := by
      intro rows key t
      simp [Acked, or_and_right, exists_or]
    -- both outcomes of the kind acknowledge the command now, on whatever rows
    suffices hsuff : d.executed = (runKind sch now c r).1 ∧
        ∀ key t, Acked d.core key t ↔ Acked c key t ∨ (r.key = key ∧ now = t) by
      refine ⟨fun key t hne => (hsuff.2 key t).trans (or_iff_left fun hk => hne hk.1.symm),
        .inr ⟨hno, fun t => (hsuff.2 r.key t).trans ?_, fun hex => runKind_executed (hsuff.1 ▸ hex)⟩⟩
      rw [or_iff_right (hno t), and_iff_right rfl, eq_comm]
    cases hrun : runKind sch now c r with
    | mk executed res =>
      cases res with
      | ok res =>
        simp only [hrun] at h
        obtain ⟨hex, hack⟩ := compareAll_spec h
        exact ⟨hex, fun key t => (hack key t).trans (hnew _ key t)⟩
      | error e =>
        simp only [hrun] at h
        split at h
        · cases h
        split_ifs at h
        obtain ⟨hex, hack⟩ := compareAll_spec h
        exact ⟨hex, fun key t => (hack key t).trans (acked_bury.trans (hnew c.rows key t))⟩

section Retention

variable [DecidableEq V] [DecidableEq Args]

omit [DecidableEq H] in
theorem acked_retain {tbl : RetentionTable} {keep : Int} {batch : Nat}
    {held : Option String} {locked : CmdKey → Bool} {t : Int} :
    (Acked (c.scdRetentionBatch now tbl keep batch held locked) key t → Acked c key t) ∧
      (Acked c key t → Acked (c.scdRetentionBatch now tbl keep batch held locked) key t ∨
        t < now - scdDedupWindow) := by
  cases tbl with
  | cmdDone =>
    simp only [scdRetentionBatch]
    split
    · exact ⟨id, .inl⟩
    · constructor
      · rintro ⟨d, hd, h⟩
        exact ⟨d, (mem_filter.1 hd).1, h⟩
      · rintro ⟨d, hd, hk, rfl⟩
        by_cases hgone : d.ackedAt < now - max keep scdDedupWindow
        · have : scdDedupWindow ≤ max keep scdDedupWindow := le_max_right ..
          exact .inr (by omega)
        · refine .inl ⟨d, mem_filter.2 ⟨hd, ?_⟩, hk, rfl⟩
          -- what is deleted comes from the rows before the cutoff
          simp only [oldest, decide_not, Bool.not_eq_true', decide_eq_false_iff_not]
          intro hmem
          have := mem_of_mem_take hmem
          simp [mem_mergeSort, hgone] at this
  | cmdDead => exact ⟨id, .inl⟩
  | cmdReassert | cmdPurge =>
    simp only [scdRetentionBatch]
    split <;> exact ⟨id, .inl⟩

/-! ## Runs -/

/-- The command was executed at a time `t₀` that its stamp exceeds by an hour at most. Its
acknowledgement says so, or the dedup window has passed since. -/
def Executed (s : CoreClock K V Args) (key : CmdKey) (createdAt : Int) : Prop :=
  ∃ t₀, createdAt ≤ t₀ + hour ∧
    (((∃ t, Acked s.core key t) ∧ ∀ t, Acked s.core key t → t = t₀) ∨ t₀ < s.now - scdDedupWindow)

theorem step_of_executed (sch : Schema K V H Args) {s : CoreClock K V Args} {createdAt : Int}
    (hs : Executed s key createdAt) (a : CoreAct K H Args)
    (ha : ∀ r, a = .deliver r → r.key = key → r.createdAt = createdAt) :
    key ∉ (s.step sch a).2 ∧ Executed (s.step sch a).1 key createdAt := by
  obtain ⟨t₀, hle, hcase⟩ := hs
  cases a with
  | deliver r =>
    simp only [CoreClock.step]
    cases hd : s.core.scdDispatch sch s.now r with
    | none => exact ⟨by simp, t₀, hle, hcase⟩
    | some d =>
      obtain ⟨hother, hown⟩ := scdDispatch_acked hd
      by_cases hk : r.key = key
      · subst hk
        rcases hown with ⟨hex, t₁, hold, hnew⟩ | ⟨hno, hnew, hex⟩
        · refine ⟨by simp [hex], t₀, hle, hcase.imp_left fun ⟨_, hall⟩ => ⟨⟨t₁, (hnew t₁).2 rfl⟩, fun t ht => ?_⟩⟩
          rw [(hnew t).1 ht]
          exact hall t₁ hold
        · have hlt : t₀ < s.now - scdDedupWindow :=
            hcase.resolve_left fun ⟨⟨t, ht⟩, _⟩ => hno t ht
          have hstale : d.executed = false := by
            by_contra hne
            have hyoung := hex (by simpa using hne)
            rw [ha r rfl rfl] at hyoung
            omega
          exact ⟨by simp [hstale], t₀, hle, .inr hlt⟩
      · refine ⟨?_, t₀, hle, hcase.imp_left fun ⟨⟨t, ht⟩, hall⟩ => ?_⟩
        · cases d.executed <;> simp [Ne.symm hk]
        · exact ⟨⟨t, (hother key t (Ne.symm hk)).2 ht⟩, fun u hu => hall u ((hother key u (Ne.symm hk)).1 hu)⟩
  | retain tbl keep batch held locked =>
    refine ⟨by simp [CoreClock.step], t₀, hle, ?_⟩
    rcases hcase with ⟨⟨t, ht⟩, hall⟩ | hlt
    · rcases acked_retain.2 ht with ht' | hlt
      · exact .inl ⟨⟨t, ht'⟩, fun u hu => hall u (acked_retain.1 hu)⟩
      · exact .inr (hall t ht ▸ hlt)
    · exact .inr hlt
  | advance dt =>
    refine ⟨by simp [CoreClock.step], t₀, hle, hcase.imp_right fun hlt => ?_⟩
    simp only [CoreClock.step]
    omega

theorem step_executes {s : CoreClock K V Args} {a : CoreAct K H Args} (h : key ∈ (s.step sch a).2) :
    ∃ r, a = .deliver r ∧ r.key = key ∧ (s.step sch a).2 = [key] ∧
      (r.createdAt ≤ s.now + hour → Executed (s.step sch a).1 key r.createdAt) := by
  cases a with
  | deliver r =>
    simp only [CoreClock.step] at h ⊢
    cases hd : s.core.scdDispatch sch s.now r with
    | none => simp [hd] at h
    | some d =>
      simp only [hd] at h ⊢
      cases hex : d.executed with
      | false => simp [hex] at h
      | true =>
        obtain rfl : key = r.key := by simpa [hex] using h
        refine ⟨r, rfl, rfl, by simp, fun hle => ⟨s.now, hle, .inl ?_⟩⟩
        rcases (scdDispatch_acked hd).2 with ⟨hex', -⟩ | ⟨-, hnew, -⟩
        · simp [hex] at hex'
        · exact ⟨⟨s.now, (hnew _).2 rfl⟩, fun t ht => (hnew t).1 ht⟩
  | retain | advance => simp [CoreClock.step] at h

theorem steps_concat (s : CoreClock K V Args) (as : List (CoreAct K H Args)) (a : CoreAct K H Args) :
    s.steps sch (as ++ [a]) =
      (((s.steps sch as).1.step sch a).1, (s.steps sch as).2 ++ ((s.steps sch as).1.step sch a).2) := by
  simp [CoreClock.steps]

theorem steps_now_mono (sch : Schema K V H Args) (s : CoreClock K V Args) (as bs : List (CoreAct K H Args)) :
    (s.steps sch as).1.now ≤ (s.steps sch (as ++ bs)).1.now := by
  induction bs using List.reverseRecOn with
  | nil => simp
  | append_singleton bs b ih =>
    rw [← append_assoc, steps_concat]
    refine ih.trans ?_
    cases b with
    | deliver r =>
      simp only [CoreClock.step]
      split <;> rfl
    | retain => exact le_rfl
    | advance dt =>
      simp only [CoreClock.step]
      omega

/-- The invariant of a run whose deliveries of the command are all stamped `createdAt`, an hour
ahead of core at most. -/
theorem steps_executed (sch : Schema K V H Args) (s : CoreClock K V Args) (key : CmdKey) (createdAt : Int)
    (as : List (CoreAct K H Args)) (hr : ∀ pre r post, as = pre ++ .deliver r :: post → r.key = key →
      r.createdAt = createdAt ∧ createdAt ≤ (s.steps sch pre).1.now + hour) : (s.steps sch as).2.count key = 0 ∨
      ((s.steps sch as).2.count key = 1 ∧ Executed (s.steps sch as).1 key createdAt) := by
  induction as using List.reverseRecOn with
  | nil => exact .inl rfl
  | append_singleton as a ih =>
    have ih := ih fun pre r post hpre => hr pre r (post ++ [a]) (by simp [hpre])
    rw [steps_concat, count_append]
    rcases ih with h0 | ⟨h1, hex⟩
    · by_cases hk : key ∈ ((s.steps sch as).1.step sch a).2
      · obtain ⟨r, rfl, hrk, hkeys, hexec⟩ := step_executes hk
        obtain ⟨hc, hle⟩ := hr as r [] rfl hrk
        refine .inr ⟨by simp [h0, hkeys], ?_⟩
        rw [← hc]
        exact hexec (hc ▸ hle)
      · exact .inl (by rw [h0, count_eq_zero_of_not_mem hk])
    · obtain ⟨hk, hex'⟩ := step_of_executed sch hex a
        fun r har hrk => (hr as r [] (by rw [har]) hrk).1
      exact .inr ⟨by rw [h1, count_eq_zero_of_not_mem hk], hex'⟩

/-- Core executes a command at most once, for every sequence of deliveries, retention batches and
advances of its clock, if each delivery carries the same stamp and that is at most an hour ahead
of core at the first one. -/
theorem command_executed_at_most_once (sch : Schema K V H Args) (s : CoreClock K V Args) (key : CmdKey)
    (as : List (CoreAct K H Args))
    (hsame : ∀ r r', .deliver r ∈ as → .deliver r' ∈ as → r.key = key → r'.key = key →
      r.createdAt = r'.createdAt) (hfirst : ∀ pre r post, as = pre ++ .deliver r :: post → r.key = key →
      (∀ r', .deliver r' ∈ pre → r'.key ≠ key) → r.createdAt ≤ (s.steps sch pre).1.now + hour) :
    (s.steps sch as).2.count key ≤ 1 := by
  -- the first delivery bounds the stamp of all, since the clock only advances
  have hall : ∀ n pre r post, pre.length ≤ n → as = pre ++ .deliver r :: post → r.key = key →
      r.createdAt ≤ (s.steps sch pre).1.now + hour := by
    intro n
    induction n with
    | zero =>
      intro pre r post hlen has hrk
      obtain rfl := length_eq_zero_iff.1 (Nat.le_zero.1 hlen)
      exact hfirst [] r post has hrk (by simp)
    | succ n ih =>
      intro pre r post hlen has hrk
      by_cases hpre : ∃ r', .deliver r' ∈ pre ∧ r'.key = key
      · obtain ⟨r', hr', hrk'⟩ := hpre
        obtain ⟨p₁, p₂, rfl⟩ := append_of_mem hr'
        have h₁ := ih p₁ r' (p₂ ++ .deliver r :: post) (by simp at hlen; omega) (by simp [has]) hrk'
        have h₂ := steps_now_mono sch s p₁ (.deliver r' :: p₂)
        rw [hsame r r' (by simp [has]) (by simp [has]) hrk hrk']
        omega
      · exact hfirst pre r post has hrk fun r' hr' hrk' => hpre ⟨r', hr', hrk'⟩
  by_cases hex : ∃ r, .deliver r ∈ as ∧ r.key = key
  · obtain ⟨r₀, hr₀, hk₀⟩ := hex
    have hinv := steps_executed sch s key r₀.createdAt as ?_
    · rcases hinv with h | ⟨h, -⟩ <;> omega
    · intro pre r post has hrk
      have hc := hsame r r₀ (by simp [has]) hr₀ hrk hk₀
      exact ⟨hc, hc ▸ hall _ pre r post le_rfl has hrk⟩
  · have hinv := steps_executed sch s key 0 as
      fun pre r post has hrk => absurd ⟨r, by simp [has], hrk⟩ hex
    rcases hinv with h | ⟨h, -⟩ <;> omega

end Retention

/-- The kind that writes one row: the simplest optimistic kind. -/
def upsertKind (K V : Type) [DecidableEq K] : Kind K V (K × V) where
  optimistic := true
  exec args t :=
    .ok ⟨[if t args.1 = none then .insert args.1 args.2 else .update args.1 args.1 args.2], [args.1]⟩
  legal := by
    intro args t r h
    cases h
    by_cases hk : t args.1 = none <;> simp [Change.LegalAll, Change.Legal, hk]
  keeps := by
    intro args t r h
    cases h
    by_cases hk : t args.1 = none <;> simp [Change.KeepsKey, hk]
  listed := by
    intro args t r h
    cases h
    by_cases hk : t args.1 = none <;> simp [Change.keys, hk]

/-- A schema of one C table and the kind `upsertKind`, with the row as its own hash. -/
def upsertSchema (K V : Type) [DecidableEq K] : Schema K V V (K × V) where
  kinds name := if name = "upsert" then some (upsertKind K V) else none
  tableClass _ := .c
  reassertAlways _ := false
  rowHash _ v := v
  rowHashError _ := none

/-- A command is delivered twice, its acknowledgement is deleted after eight days, and it is
delivered once more: it still ran once at most. -/
theorem command_executed_at_most_once_at :
    ((⟨⟨fun _ => none, [], [], [], []⟩, 0⟩ : CoreClock Nat Nat (Nat × Nat)).steps (upsertSchema Nat Nat)
      [.deliver ⟨⟨.main, 1⟩, "upsert", (3, 4), [⟨3, some 4⟩], hour⟩,
        .deliver ⟨⟨.main, 1⟩, "upsert", (3, 4), [⟨3, some 4⟩], hour⟩, .advance (8 * 24 * 3600 * 1000000),
        .retain .cmdDone 0 1000 none (fun _ => false),
        .deliver ⟨⟨.main, 1⟩, "upsert", (3, 4), [⟨3, some 4⟩], hour⟩]).2.count ⟨.main, 1⟩ ≤ 1 := by
  refine command_executed_at_most_once _ _ _ _ ?_ ?_
  · intro r r' hr hr' _ _
    simp at hr hr'
    rw [hr, hr']
  · intro pre r post has _ hpre
    cases pre with
    | nil =>
      obtain ⟨h, -⟩ := List.cons.inj has
      cases h
      decide
    | cons a pre =>
      obtain ⟨rfl, -⟩ := List.cons.inj has
      exact absurd rfl (hpre _ mem_cons_self)

end SC.Proof.Replication
