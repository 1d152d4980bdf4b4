import SoundCloudBackend.Impl.Replication.WriteThrough
import SoundCloudBackend.Proof.Replication.AtMostOnce

/-!
# What core publishes, seen from one key

A message on its way to the api has an `effect` on the row of a key unless a
command on the key is pending; `absorb` replays messages on the row and on the
pending commands. What core publishes after the acknowledgement of a command turns
any row with the recorded hash into core's row (`scdDispatch_publishes`).
-/

namespace SC.Proof.Replication

open Impl.Replication
open List Function

variable {K V H Args : Type} [DecidableEq K]
variable {r : Outbox K H Args} {d : Core.Dispatched K V Args}

/-! ## Messages, seen from one key -/

/-- What a message does to the row of `k` on the node `n` when nothing is pending on `k`. -/
def effect (n : Node) (k : K) (o : Option V) : Msg K V → Option V
  | .row (.insert k' v) => if k' = k then some v else o
  | .row (.update _ k' v) => if k' = k then o.map fun _ => v else o
  | .row (.delete k') => if k' = k then none else o
  | .done _ => o
  | .reassert r => if r.key.node = n ∧ r.pk = k then some r.row else o
  | .purge p => if p.key.node = n ∧ p.pk = k then none else o

/-- The commands pending on a key after a message. -/
def dropDone (n : Node) (ps : List CmdKey) : Msg K V → List CmdKey
  | .done d => if d.key.node = n then ps.filter fun p => p ≠ d.key else ps
  | _ => ps

/-- The row of `k` and the commands pending on it after a message. -/
def absorb (n : Node) (k : K) (s : Option V × List CmdKey) (m : Msg K V) : Option V × List CmdKey :=
  (if s.2 = [] then effect n k s.1 m else s.1, dropDone n s.2 m)

def NotDone (ms : List (Msg K V)) : Prop :=
  ∀ d, .done d ∉ ms

variable {n : Node} {k : K} {o : Option V} {ps qs : List CmdKey} {m : Msg K V} {ms : List (Msg K V)}

omit [DecidableEq K] in
theorem dropDone_append (ps qs : List CmdKey) (m : Msg K V) :
    dropDone n (ps ++ qs) m = dropDone n ps m ++ dropDone n qs m := by
  cases m with
  | done d =>
    simp only [dropDone]
    split <;> simp
  | _ => rfl

omit [DecidableEq K] in
theorem dropDones_append (ms : List (Msg K V)) (ps qs : List CmdKey) :
    ms.foldl (dropDone n) (ps ++ qs) = ms.foldl (dropDone n) ps ++ ms.foldl (dropDone n) qs := by
  induction ms generalizing ps qs with
  | nil => rfl
  | cons m ms ih => rw [foldl_cons, dropDone_append, ih, foldl_cons, foldl_cons]

omit [DecidableEq K] in
theorem dropDones_nil (ms : List (Msg K V)) : ms.foldl (dropDone n) [] = [] := by
  induction ms with
  | nil => rfl
  | cons m ms ih =>
    have : dropDone n [] m = [] := by
      cases m with
      | done d => simp [dropDone]
      | _ => rfl
    rw [foldl_cons, this, ih]

omit [DecidableEq K] in
theorem dropDones_singleton {key : CmdKey} (h : ∀ d, .done d ∈ ms → d.key ≠ key) :
    ms.foldl (dropDone n) [key] = [key] := by
  induction ms with
  | nil => rfl
  | cons m ms ih =>
    have hm : dropDone n [key] m = [key] := by
      cases m with
      | done d => simp [dropDone, (h d mem_cons_self).symm]
      | _ => rfl
    rw [foldl_cons, hm]
    exact ih fun d hd => h d (mem_cons_of_mem _ hd)

omit [DecidableEq K] in
theorem mem_dropDones {key : CmdKey} (hk : key ∈ ps) (h : ∀ d, .done d ∈ ms → d.key ≠ key) :
    key ∈ ms.foldl (dropDone n) ps := by
  induction ms generalizing ps with
  | nil => exact hk
  | cons m ms ih =>
    refine ih ?_ fun d hd => h d (mem_cons_of_mem _ hd)
    cases m with
    | done d =>
      simp only [dropDone]
      split
      · exact mem_filter.2 ⟨hk, by simpa using (h d mem_cons_self).symm⟩
      · exact hk
    | _ => exact hk

omit [DecidableEq K] in
theorem dropDones_of_notDone (h : NotDone ms) (ps : List CmdKey) : ms.foldl (dropDone n) ps = ps := by
  induction ms with
  | nil => rfl
  | cons m ms ih =>
    have hm : dropDone n ps m = ps := by
      cases m with
      | done d => exact absurd mem_cons_self (h d)
      | _ => rfl
    rw [foldl_cons, hm]
    exact ih fun d hd => h d (mem_cons_of_mem _ hd)

theorem absorbs_snd (ms : List (Msg K V)) (s : Option V × List CmdKey) :
    (ms.foldl (absorb n k) s).2 = ms.foldl (dropDone n) s.2 := by
  induction ms generalizing s with
  | nil => rfl
  | cons m ms ih => rw [foldl_cons, ih, foldl_cons, absorb]

theorem absorbs_of_pending (h : ms.foldl (dropDone n) ps ≠ []) : (ms.foldl (absorb n k) (o, ps)).1 = o := by
  induction ms generalizing ps with
  | nil => rfl
  | cons m ms ih =>
    have hps : ps ≠ [] := by
      rintro rfl
      exact h (dropDones_nil _)
    rw [foldl_cons, absorb, if_neg hps]
    exact ih h

theorem absorbs_of_free (ms : List (Msg K V)) (o : Option V) :
    ms.foldl (absorb n k) (o, []) = (ms.foldl (effect n k) o, []) := by
  induction ms generalizing o with
  | nil => rfl
  | cons m ms ih =>
    have hm : dropDone n [] m = [] := dropDones_nil [m]
    rw [foldl_cons, absorb, if_pos rfl, hm, ih, foldl_cons]

/-! ## Row images -/

variable {t : K → Option V} {cs : List (Change K V)}

theorem effect_row {c : Change K V} (hl : Change.Legal t c) (hk : c.KeepsKey) :
    effect n k (t k) (.row c) = c.apply t k := by
  cases c with
  | insert k' v => simp [effect, Change.apply, update_apply, eq_comm]
  | update old new v =>
    obtain rfl : old = new := hk
    by_cases h : old = k
    · subst h
      obtain ⟨w, hw⟩ := Option.ne_none_iff_exists'.1 hl.1
      simp [effect, Change.apply, hw]
    · simp [effect, Change.apply, h, update_of_ne (Ne.symm h)]
  | delete k' => simp [effect, Change.apply, update_apply, eq_comm]

theorem images_replay (hl : Change.LegalAll t cs) (hk : ∀ c ∈ cs, c.KeepsKey) :
    (cs.map Msg.row).foldl (effect n k) (t k) = Change.applyAll t cs k := by
  induction cs generalizing t with
  | nil => rfl
  | cons c cs ih =>
    rw [map_cons, foldl_cons, effect_row hl.1 (hk c mem_cons_self), Change.applyAll_cons]
    exact ih hl.2 fun d hd => hk d (mem_cons_of_mem _ hd)

/-- Replayed on any other row, the images lead to the row they led to, or leave the row alone. -/
theorem images_replay_or (hl : Change.LegalAll t cs) (hk : ∀ c ∈ cs, c.KeepsKey) (o : Option V) :
    (cs.map Msg.row).foldl (effect n k) o = Change.applyAll t cs k ∨
      (cs.map Msg.row).foldl (effect n k) o = o := by
  induction cs generalizing t with
  | nil => exact .inr rfl
  | cons c cs ih =>
    have hrest : ∀ d ∈ cs, d.KeepsKey := fun d hd => hk d (mem_cons_of_mem _ hd)
    rw [map_cons, foldl_cons, Change.applyAll_cons]
    -- an image that sets the row brings both sides together, any other leaves the row alone
    by_cases hset : effect n k o (.row c) = c.apply t k
    · rw [hset]
      exact .inl (images_replay hl.2 hrest)
    · have hkeep : effect n k o (.row c) = o := by
        have hkc := hk c mem_cons_self
        cases c with
        | insert k' v =>
          by_cases h : k' = k
          · subst h
            simp [effect, Change.apply] at hset
          · simp [effect, h]
        | update old new v =>
          obtain rfl : old = new := hkc
          by_cases h : old = k
          · subst h
            cases o with
            | none => simp [effect]
            | some w => simp [effect, Change.apply] at hset
          · simp [effect, h]
        | delete k' =>
          by_cases h : k' = k
          · subst h
            simp [effect, Change.apply] at hset
          · simp [effect, h]
      rw [hkeep]
      exact ih hl.2 hrest

/-! ## Dispatch -/

variable [DecidableEq H]

/-- What write-through needs of the schema: every key is of a C table, hashes do not fail, and
equal hashes mean equal rows. -/
structure Comparable (sch : Schema K V H Args) : Prop where
  classC : ∀ k, sch.tableClass k = .c
  noError : ∀ k, sch.rowHashError k = none
  inj : ∀ k, Function.Injective (sch.rowHash k)

variable {sch : Schema K V H Args} {c : Core K V Args} {key : CmdKey}

/-- The command has a row of `cmd_reassert` or `cmd_purge` for `k`. -/
def Fixed (c : Core K V Args) (key : CmdKey) (k : K) : Prop :=
  (∃ x ∈ c.cmdReassert, x.key = key ∧ x.pk = k) ∨ ∃ x ∈ c.cmdPurge, x.key = key ∧ x.pk = k

def IsRepair : Msg K V → Prop
  | .reassert _ => True
  | .purge _ => True
  | _ => False

/-- The messages `fx` and the new state `c'` of one pass of the `touched` loop on the entry `e`. The
pass repairs at most its own key. A repair sets the row to core's, and is sent unless the row that
was hashed is core's or a repair was sent before. -/
structure Repairs (sch : Schema K V H Args) (n : Node) (key : CmdKey) (c : Core K V Args) (e : Touched K H)
    (c' : Core K V Args) (fx : List (Msg K V)) : Prop where
  rows : c'.rows = c.rows
  repair : ∀ m ∈ fx, IsRepair m
  fixed : ∀ key' k, Fixed c' key' k → Fixed c key' k ∨ (key' = key ∧ k = e.pk)
  other : ∀ k o, k ≠ e.pk → fx.foldl (effect n k) o = o
  idle : fx.foldl (effect n e.pk) (c.rows e.pk) = c.rows e.pk
  sets : ∀ o, ¬ Fixed c key e.pk → e.hash = o.map (sch.rowHash e.pk) →
    fx.foldl (effect n e.pk) o = c.rows e.pk

omit [DecidableEq H] in
theorem repairs_nil {e : Touched K H}
    (h : ∀ o, ¬ Fixed c key e.pk → e.hash = o.map (sch.rowHash e.pk) → o = c.rows e.pk) :
    Repairs sch n key c e c [] :=
  ⟨rfl, by simp, fun _ _ => .inl, fun _ _ _ => rfl, rfl, h⟩

theorem compareKey_repairs (hs : Comparable sch) (hn : key.node = n) (out : List (Msg K V)) (e : Touched K H) :
    ∃ c' fx, Core.compareKey sch key (c, out) e = .ok (c', out ++ fx) ∧ Repairs sch n key c e c' fx := by
  have hstay : (∀ o, ¬ Fixed c key e.pk → e.hash = o.map (sch.rowHash e.pk) → o = c.rows e.pk) →
      ∃ c' fx, (Except.ok (c, out) : Except SqlError _) = .ok (c', out ++ fx) ∧ Repairs sch n key c e c' fx :=
    fun h => ⟨c, [], by simp, repairs_nil h⟩
  simp only [Core.compareKey, hs.classC, hs.noError, ne_eq, not_true_eq_false, if_false]
  cases hrow : c.rows e.pk with
  | none =>
    rw [hrow] at hstay
    simp only
    split
    · refine ⟨_, [.purge ⟨key, e.pk⟩], rfl, rfl, by simp [IsRepair], ?_, ?_, ?_, ?_⟩
      · rintro key' k (h | ⟨x, hx, rfl, rfl⟩)
        · exact .inl (.inl h)
        · simp only [mem_append, mem_singleton] at hx
          rcases hx with hx | rfl
          · exact .inl (.inr ⟨x, hx, rfl, rfl⟩)
          · exact .inr ⟨rfl, rfl⟩
      · intro k o hk
        simp [effect, Ne.symm hk]
      · simp [effect, hrow]
      · simp [effect, hn, hrow]
    · rename_i h
      refine hstay fun o hfix hhash => ?_
      cases o with
      | none => rfl
      | some v =>
        refine absurd ⟨by simp [hhash], ?_⟩ h
        intro hany
        obtain ⟨x, hx, hxk⟩ := any_eq_true.1 hany
        exact hfix (.inr ⟨x, hx, of_decide_eq_true hxk⟩)
  | some v =>
    rw [hrow] at hstay
    simp only
    split
    · refine ⟨_, [.reassert ⟨key, e.pk, v⟩], rfl, rfl, by simp [IsRepair], ?_, ?_, ?_, ?_⟩
      · rintro key' k (⟨x, hx, rfl, rfl⟩ | h)
        · simp only [mem_append, mem_singleton] at hx
          rcases hx with hx | rfl
          · exact .inl (.inl ⟨x, hx, rfl, rfl⟩)
          · exact .inr ⟨rfl, rfl⟩
        · exact .inl (.inr h)
      · intro k o hk
        simp [effect, Ne.symm hk]
      · simp [effect, hrow]
      · simp [effect, hn, hrow]
    · rename_i h
      refine hstay fun o hfix hhash => ?_
      by_contra hne
      refine h ⟨.inr fun heq => hne ?_, ?_⟩
      · rw [heq] at hhash
        cases o with
        | none => simp at hhash
        | some w => rw [hs.inj _ (Option.some.inj hhash)]
      · intro hany
        obtain ⟨x, hx, hxk⟩ := any_eq_true.1 hany
        exact hfix (.inl ⟨x, hx, of_decide_eq_true hxk⟩)

/-- The whole `touched` loop: every row that is core's already, or was hashed for the loop, ends as
core's if its key is touched and stays as it is otherwise. -/
theorem compareKeys_repairs (hs : Comparable sch) (hn : key.node = n) (es : List (Touched K H))
    (c : Core K V Args) (out : List (Msg K V)) :
    ∃ c' fx, es.foldlM (Core.compareKey sch key) (c, out) = .ok (c', out ++ fx) ∧ c'.rows = c.rows ∧
      (∀ m ∈ fx, IsRepair m) ∧ (∀ key' k, Fixed c' key' k → Fixed c key' k ∨ key' = key) ∧
      ∀ k o, (o = c.rows k ∨ (¬ Fixed c key k ∧ ∀ e ∈ es, e.pk = k → e.hash = o.map (sch.rowHash k))) →
        fx.foldl (effect n k) o = if k ∈ es.map Touched.pk then c.rows k else o := by
  induction es generalizing c out with
  | nil => exact ⟨c, [], by simp [pure, Except.pure], rfl, by simp, fun _ _ => .inl, by simp⟩
  | cons e es ih =>
    obtain ⟨c₁, fx₁, h₁, hr⟩ := compareKey_repairs (c := c) hs hn out e
    obtain ⟨c₂, fx₂, h₂, hrows, hrep, hfix, hset⟩ := ih c₁ (out ++ fx₁)
    refine ⟨c₂, fx₁ ++ fx₂, ?_, hrows.trans hr.rows, ?_, ?_, ?_⟩
    · rw [← append_assoc, ← h₂, foldlM_cons, h₁]
      rfl
    · intro m hm
      exact (mem_append.1 hm).elim (hr.repair m) (hrep m)
    · intro key' k h
      exact (hfix key' k h).elim (fun h => (hr.fixed key' k h).imp_right And.left) .inr
    · intro k o hko
      rw [foldl_append]
      by_cases hk : k = e.pk
      · -- after the pass on the key itself the row is core's, and stays so
        subst hk
        have hfx : fx₁.foldl (effect n e.pk) o = c.rows e.pk := by
          rcases hko with rfl | ⟨hno, hhash⟩
          · exact hr.idle
          · exact hr.sets o hno (hhash e mem_cons_self rfl)
        rw [hfx, hset _ _ (.inl (by rw [hr.rows])), hr.rows]
        simp
      · rw [hr.other k o hk, hset k o ?_, hr.rows]
        · simp [hk]
        · rcases hko with rfl | ⟨hno, hhash⟩
          · exact .inl (by rw [hr.rows])
          · refine .inr ⟨fun h => ?_, fun e' he' => hhash e' (mem_cons_of_mem _ he')⟩
            exact (hr.fixed key k h).elim hno fun h => hk h.2

omit [DecidableEq K] in
theorem notDone_of_isRepair {fx : List (Msg K V)} (h : ∀ m ∈ fx, IsRepair m) : NotDone fx :=
  fun _ hd => h _ hd

/-- What a committed dispatch of `r` on `c` publishes. It acknowledges the command; what follows
turns a row of a touched key whose hash was recorded into core's row, and follows core on the other
keys. -/
structure Publishes (sch : Schema K V H Args) (n : Node) (c : Core K V Args) (r : Outbox K H Args)
    (d : Core.Dispatched K V Args) (a : CmdDone) (ms : List (Msg K V)) : Prop where
  out : d.out = .done a :: ms
  key : a.key = r.key
  notDone : NotDone ms
  keeps : ∀ x, .row x ∈ ms → x.KeepsKey
  fixed : ∀ key' k, Fixed d.core key' k → Fixed c key' k ∨ key' = r.key
  follows : ∀ k o, (k ∉ r.touched.map Touched.pk → o = c.rows k) →
    (∀ e ∈ r.touched, e.pk = k → e.hash = o.map (sch.rowHash k)) →
    ms.foldl (effect n k) o = d.core.rows k

theorem compareAll_publishes (hs : Comparable sch) {now : Int}
    {c₁ : Core K V Args} {a : CmdDone} {ex : Bool} (cs : List (Change K V)) (hn : r.key.node = n)
    (h : Core.compareAll sch now c₁ r (.done a :: cs.map .row) ex = some d) (hak : a.key = r.key)
    (hfree : ∀ k, ¬ Fixed c₁ r.key k) (hsub : ∀ key' k, Fixed c₁ key' k → Fixed c key' k)
    (hlegal : Change.LegalAll c.rows cs) (hkeep : ∀ x ∈ cs, x.KeepsKey)
    (hrows : c₁.rows = Change.applyAll c.rows cs) : ∃ ms, Publishes sch n c r d a ms := by
  obtain ⟨c₂, fx, hf, hrows₂, hrep, hfix, hset⟩ :=
    compareKeys_repairs hs hn r.touched c₁ (.done a :: cs.map .row)
  obtain rfl : d = ⟨c₂, (.done a :: cs.map .row) ++ fx, ex⟩ := by
    simpa [Core.compareAll, hf] using h.symm
  refine ⟨cs.map .row ++ fx, rfl, hak, ?_, ?_, fun key' k hk => (hfix key' k hk).imp_left (hsub key' k), ?_⟩
  · intro d hd
    rcases mem_append.1 hd with hd | hd
    · simp at hd
    · exact notDone_of_isRepair hrep d hd
  · intro x hx
    rcases mem_append.1 hx with hx | hx
    · exact hkeep x (by simpa using hx)
    · exact absurd (hrep _ hx) id
  · intro k o hold hhash
    rw [foldl_append, hset, hrows₂, hrows]
    · split
      · rfl
      · rename_i hk
        rw [hold hk]
        exact images_replay hlegal hkeep
    · rw [hrows]
      refine (images_replay_or hlegal hkeep o).imp_right fun heq => ?_
      rw [heq]
      exact ⟨hfree k, hhash⟩

theorem scdDispatch_publishes (hs : Comparable sch) {now : Int}
    (hn : r.key.node = n) (hfree : ∀ k, ¬ Fixed c r.key k)
    (h : c.scdDispatch sch now r = some d) : ∃ a ms, Publishes sch n c r d a ms := by
  unfold Core.scdDispatch at h
  split at h
  · rename_i d₀ hd₀
    have hkey : d₀.key = r.key := by simpa using List.find?_some hd₀
    refine ⟨d₀, compareAll_publishes hs [] hn h hkey ?_ ?_ trivial (by simp) rfl⟩
    · rintro k (⟨x, hx, hk, -⟩ | ⟨x, hx, hk, -⟩) <;> simp [hk] at hx
    · rintro key' k (⟨x, hx, hk⟩ | ⟨x, hx, hk⟩)
      · exact .inl ⟨x, (mem_filter.1 hx).1, hk⟩
      · exact .inr ⟨x, (mem_filter.1 hx).1, hk⟩
  · cases hrun : Core.runKind sch now c r with
    | mk ex res =>
      cases res with
      | ok res =>
        simp only [hrun] at h
        obtain ⟨kind, hexec⟩ : ∃ kind : Kind K V Args, kind.exec r.args c.rows = .ok res := by
          unfold Core.runKind at hrun
          split at hrun
          · simp at hrun
          · split at hrun
            · simp at hrun
            · rename_i kind _ _
              exact ⟨kind, (Prod.mk.inj hrun).2⟩
        exact ⟨_, compareAll_publishes hs res.changes hn h rfl hfree (fun _ _ => id) (kind.legal hexec)
          (kind.keeps hexec) rfl⟩
      | error e =>
        simp only [hrun] at h
        split at h
        · cases h
        split_ifs at h
        exact ⟨_, compareAll_publishes hs [] hn h rfl hfree (fun _ _ => id) trivial (by simp) rfl⟩

end SC.Proof.Replication
