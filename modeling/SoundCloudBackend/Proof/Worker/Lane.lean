import SoundCloudBackend.Impl.Worker.Lane
import SoundCloudBackend.Proof.Worker.Turns

/-!
# One outcome for every task

The calls of a lane, in any interleaving. The events of each lease follow its ticket
(`HandleOk`), a call in processing or publishing is the owner of its correlation key, and
an owner has not learned its result from another (`Owner`), so what a joined call is told
of its owner is a result that the owner itself stored. `Inv.turn` says once what a turn of
one call needs for all of this to stay true of all calls.
-/

namespace SC.Proof.Worker

open Impl.Worker
open List Option Function

variable {κ : Type*}
variable {log : List (Nat × Event κ)} {k q n : Nat} {c : κ} {w' : World κ}

/-! ## Histories -/

def history (log : List (Nat × Event κ)) (i : Nat) : List (Event κ) :=
  log.filterMap fun e => if e.1 = i then some e.2 else none

theorem mem_history {i : Nat} {e : Event κ} : e ∈ history log i ↔ (i, e) ∈ log := by
  simp [history]

theorem history_append (log log' : List (Nat × Event κ)) (i : Nat) :
    history (log ++ log') i = history log i ++ history log' i :=
  filterMap_append

theorem history_cons (log : List (Nat × Event κ)) (i : Nat) (e : Event κ) :
    history ((i, e) :: log) i = e :: history log i := by
  simp [history]

theorem history_own (es : List (Event κ)) (i : Nat) : history (es.map fun e => (i, e)) i = es := by
  induction es with
  | nil => rfl
  | cons e es ih => rw [map_cons, history_cons, ih]

theorem history_other (es : List (Event κ)) {i j : Nat} (h : j ≠ i) : history (es.map fun e => (i, e)) j = [] := by
  simp [history, Ne.symm h]

variable {lane : Lane} {key : Nat → κ} {w : World κ} {i j : Nat} {h : Handle κ} {t : Turn κ}

/-! ## What a turn changes -/

@[simp] theorem apply_log : (w.apply i t).log = w.log ++ t.events.map fun e => (i, e) := rfl

theorem apply_handles (hi : w.handles[i]? = some h) (k : Nat) :
    (w.apply i t).handles[k]? = if k = i then some t.toHandle else w.handles[k]? := by
  show (w.handles.set i t.toHandle)[k]? = _
  have hlt : i < w.handles.length := (List.getElem?_eq_some_iff.1 hi).1
  by_cases hk : k = i
  · subst hk
    simp [hlt]
  · simp [hk, Ne.symm hk]

theorem apply_history_self : history (w.apply i t).log i = history w.log i ++ t.events := by
  rw [apply_log, history_append, history_own]

theorem apply_history_ne (hk : k ≠ i) : history (w.apply i t).log k = history w.log k := by
  rw [apply_log, history_append, history_other _ hk, append_nil]

theorem isSettled_eq_false (hi : w.handles[i]? = some h) : w.isSettled i = false ↔ h.lease.settled = none := by
  unfold World.isSettled
  rw [hi]
  simp

theorem waitsFor_eq_some : w.waitsFor i c = some j ↔ w.owners c = some j ∧ j ≠ i ∧ w.isSettled j = false := by
  simp [World.waitsFor, filter_eq_some_iff]

/-- The world in which a new lease has only been delivered: its call stands at an await that asks for nothing. -/
def born (lane : Lane) (key : Nat → κ) (w : World κ) (streamSeq numDelivered : Nat) : World κ :=
  { w with
    handles := w.handles ++ [{ w.fresh lane key streamSeq numDelivered with phase := .closing none, beat := .over }]
    active := update w.active streamSeq (some w.handles.length)
    log := w.log ++ [(w.handles.length, .delivered streamSeq numDelivered w.now)] }

theorem born_handles : (born lane key w q n).handles[k]? =
      if k = w.handles.length then some { w.fresh lane key q n with phase := .closing none, beat := .over }
      else w.handles[k]? := by
  show (w.handles ++ [_])[k]? = _
  by_cases hk : k = w.handles.length
  · simp [hk]
  · rw [if_neg hk, List.getElem?_append]
    split
    · rfl
    · rename_i hlt
      rw [List.getElem?_eq_none (by simp; omega), List.getElem?_eq_none (by omega)]

theorem born_history (hk : k ≠ w.handles.length) : history (born lane key w q n).log k = history w.log k := by
  show history (w.log ++ [_]) k = _
  rw [history_append]
  simp [history, Ne.symm hk]

theorem waitsFor_born :
    (w.attach lane key q n).waitsFor w.handles.length c = (born lane key w q n).waitsFor w.handles.length c := by
  have hs : ∀ j, (w.attach lane key q n).isSettled j = (born lane key w q n).isSettled j := by
    intro j
    unfold World.isSettled
    rw [born_handles]
    show (w.handles ++ [_])[j]?.any _ = _
    by_cases hj : j = w.handles.length
    · simp [hj, World.fresh]
    · rw [if_neg hj, List.getElem?_append]
      split
      · rfl
      · rename_i hlt
        rw [List.getElem?_eq_none (by simp; omega), List.getElem?_eq_none (by omega)]
  unfold World.waitsFor
  simp only [hs]
  rfl

/-! ## The invariant -/

/-- A call that does not wait for another and was told nothing by one. -/
def Solo (phase : Phase) (es : List (Event κ)) : Prop := (∀ owner, phase ≠ .joining owner) ∧ ∀ owner, .told owner ∉ es

def Owner (w : World κ) (c : κ) (j : Nat) : Prop :=
  ∃ h, w.handles[j]? = some h ∧ h.lease.correlation = c ∧ Solo h.phase (history w.log j)

def Told (log : List (Nat × Event κ)) (c : κ) (i j : Nat) : Prop :=
  (i, .joined j) ∈ log ∧ ∃ streamSeq status, (j, .stored c streamSeq status true) ∈ log

theorem Told.mono {log' : List (Nat × Event κ)} (h : Told log c i j) (hl : ∀ e ∈ log, e ∈ log') :
    Told log' c i j := by
  obtain ⟨hj, q, s, hs⟩ := h
  exact ⟨hl _ hj, q, s, hl _ hs⟩

def Unowned (w : World κ) (i : Nat) : Prop :=
  (∀ c, w.owners c ≠ some i) ∧ ∀ (j : Nat) (h : Handle κ), w.handles[j]? = some h → h.phase ≠ .joining i

theorem Owner.other {next : κ → Option Nat} (ho : Owner w c j) (hi : w.handles[i]? = some h) (hj : j ≠ i) :
    Owner { w.apply i t with owners := next } c j := by
  obtain ⟨hj', hjs, hc, hs⟩ := ho
  refine ⟨hj', ?_, hc, ?_⟩
  · show (w.apply i t).handles[j]? = _
    rw [apply_handles hi, if_neg hj, hjs]
  · show Solo _ (history (w.apply i t).log j)
    rwa [apply_history_ne hj]

variable [DecidableEq κ]

/-- The events of a lease follow its ticket, and the ticket is where the await of the call says. -/
def HandleOk (lane : Lane) (es : List (Event κ)) (h : Handle κ) : Prop :=
  ∃ stage, run (Ticket.accept (taskOf lane h.lease)) .start es = some ⟨stage, h.lease.lastProgressAt⟩ ∧
    h.lease.settled = stage.settled ∧ Allows stage h.beat h.phase

/-- Every delivery follows its ticket, and a key has one owner, which the joined deliveries wait for. -/
structure Inv (lane : Lane) (key : Nat → κ) (w : World κ) : Prop where
  handles : ∀ (i : Nat) (h : Handle κ), w.handles[i]? = some h → HandleOk lane (history w.log i) h
  keys : ∀ (i : Nat) (h : Handle κ), w.handles[i]? = some h → h.lease.correlation = key h.lease.streamSeq
  unborn : ∀ i : Nat, w.handles[i]? = none → history w.log i = []
  working : ∀ (i : Nat) (h : Handle κ), w.handles[i]? = some h → h.phase.working → w.owners h.lease.correlation = some i
  owners : ∀ c j, w.owners c = some j → Owner w c j
  joining : ∀ (i : Nat) (h : Handle κ) (j : Nat), w.handles[i]? = some h → h.phase = .joining j →
    (i, .joined j) ∈ w.log ∧ Owner w h.lease.correlation j
  told : ∀ before, before <+: w.log → ∀ (i : Nat) (h : Handle κ) (j : Nat), w.handles[i]? = some h →
    (i, .told j) ∈ before → Told before h.lease.correlation i j
  released : ∀ i, .release i ∈ w.callbacks → w.isSettled i

theorem Inv.init : Inv lane key (World.init : World κ) where
  handles i h hi := by simp [World.init] at hi
  keys i h hi := by simp [World.init] at hi
  unborn i _ := rfl
  working i h hi := by simp [World.init] at hi
  owners c j hj := by simp [World.init] at hj
  joining i h j hi := by simp [World.init] at hi
  told before hb i h j hi := by simp [World.init] at hi
  released i hr := by simp [World.init] at hr

theorem Inv.solo_or_unowned (hI : Inv lane key w) (hi : w.handles[i]? = some h) :
    Solo h.phase (history w.log i) ∨ Unowned w i := by
  by_cases hs : Solo h.phase (history w.log i)
  · exact .inl hs
  have hnot : ∀ c, ¬ Owner w c i := by
    rintro c ⟨h', hi', -, hs'⟩
    cases some.inj (hi.symm.trans hi')
    exact hs hs'
  exact .inr ⟨fun c hc => hnot c (hI.owners c i hc), fun j h' hj hp => hnot _ (hI.joining j h' i hj hp).2⟩

theorem HandleOk.begun (hk : HandleOk lane (history w.log i) h) :
    ∃ stage, Begun lane (taskOf lane h.lease) (history w.log i) [] (w.turn h) stage ∧ Allows stage h.beat h.phase := by
  obtain ⟨stage, hrun, hsettled, hallows⟩ := hk
  refine ⟨stage, ⟨rfl, ?_, hsettled, fun owner ho => ho⟩, hallows⟩
  show run _ _ (history w.log i ++ []) = _
  rw [append_nil]
  exact hrun

/-! ## A turn of one call -/

/-- What a turn of call `i` shows, with the owners it leaves. -/
structure Moves (lane : Lane) (w : World κ) (i : Nat) (h : Handle κ) (news : List (Event κ)) (t : Turn κ)
    (next : κ → Option Nat) : Prop where
  begun : ∃ stage, Begun lane (taskOf lane h.lease) (history w.log i) news t stage ∧ Allows stage t.beat t.phase
  news : ∀ j, .told j ∈ news → Told w.log h.lease.correlation i j
  joining : ∀ j, t.phase = .joining j →
    j ≠ i ∧ (i, .joined j) ∈ (w.apply i t).log ∧ Owner w h.lease.correlation j
  working : t.phase.working → next h.lease.correlation = some i
  others : ∀ (k : Nat) (h' : Handle κ), k ≠ i → w.handles[k]? = some h' → h'.phase.working →
    next h'.lease.correlation = some k
  owners : ∀ c j, next c = some j → j ≠ i → w.owners c = some j
  own : ∀ c, next c = some i → c = h.lease.correlation
  solo : Solo t.phase (history w.log i ++ t.events) ∨
    ((∀ c, next c ≠ some i) ∧ ∀ (k : Nat) (h' : Handle κ), w.handles[k]? = some h' → h'.phase ≠ .joining i)

variable {news : List (Event κ)} {next : κ → Option Nat}

theorem Moves.lease (hm : Moves lane w i h news t next) :
    t.lease.streamSeq = h.lease.streamSeq ∧ t.lease.correlation = h.lease.correlation := by
  obtain ⟨stage, hb, -⟩ := hm.begun
  exact ⟨congrArg Task.streamSeq hb.task_eq, congrArg Task.correlation hb.task_eq⟩

theorem Moves.settled (hm : Moves lane w i h news t next) (hk : HandleOk lane (history w.log i) h)
    (hs : h.lease.settled.isSome) : t.lease.settled.isSome := by
  obtain ⟨stage, hb, -⟩ := hm.begun
  obtain ⟨stage₀, hrun, hset, -⟩ := hk
  rw [hset] at hs
  cases stage₀ with
  | closed s =>
    have hfollows := hb.follows
    rw [run_append, hrun] at hfollows
    have hstage : stage = .closed s := congrArg Ticket.stage (run_closed hfollows)
    rw [hb.settled, hstage]
    rfl
  | new | opened | answered | nacking => cases hs

theorem Moves.owner_self (hm : Moves lane w i h news t next) (hi : w.handles[i]? = some h)
    (hs : Solo t.phase (history w.log i ++ t.events)) :
    Owner { w.apply i t with owners := next } h.lease.correlation i := by
  refine ⟨t.toHandle, ?_, hm.lease.2, ?_⟩
  · show (w.apply i t).handles[i]? = _
    rw [apply_handles hi, if_pos rfl]
  · show Solo _ (history (w.apply i t).log i)
    rwa [apply_history_self]

theorem Moves.told (hm : Moves lane w i h news t next) (hI : Inv lane key w) (hi : w.handles[i]? = some h)
    {before : List (Nat × Event κ)} (hb : before <+: (w.apply i t).log) {h' : Handle κ}
    (hk : w.handles[k]? = some h') (ht : (k, .told j) ∈ before) : Told before h'.lease.correlation k j := by
  obtain hle | hge := prefix_or_prefix_of_prefix hb (prefix_append w.log _)
  · exact hI.told before hle k h' j hk ht
  have hsub : ∀ e ∈ w.log, e ∈ before := fun _ he => hge.subset he
  obtain hold | hnew := mem_append.1 (hb.subset ht)
  · exact (hI.told w.log (prefix_refl _) k h' j hk hold).mono hsub
  · obtain ⟨e, he, heq⟩ := mem_map.1 hnew
    cases heq
    cases some.inj (hi.symm.trans hk)
    obtain ⟨stage, hbegun, -⟩ := hm.begun
    exact (hm.news j (hbegun.told j he)).mono hsub

theorem Inv.turn (hI : Inv lane key w) (hi : w.handles[i]? = some h) (hm : Moves lane w i h news t next) :
    Inv lane key { w.apply i t with owners := next } := by
  have hget : ∀ k : Nat, ({ w.apply i t with owners := next } : World κ).handles[k]? =
      if k = i then some t.toHandle else w.handles[k]? := apply_handles hi
  constructor
  · intro k h' hk
    rw [hget] at hk
    split at hk
    · rename_i hki
      subst hki
      cases hk
      obtain ⟨stage, hb, ha⟩ := hm.begun
      rw [apply_history_self]
      exact ⟨stage, by rw [hb.task_eq]; exact hb.follows, hb.settled, ha⟩
    · rename_i hki
      rw [apply_history_ne hki]
      exact hI.handles k h' hk
  · intro k h' hk
    rw [hget] at hk
    split at hk
    · cases hk
      rw [hm.lease.1, hm.lease.2]
      exact hI.keys i h hi
    · exact hI.keys k h' hk
  · intro k hk
    rw [hget] at hk
    split_ifs at hk with hki
    rw [apply_history_ne hki]
    exact hI.unborn k hk
  · intro k h' hk hw
    rw [hget] at hk
    split at hk
    · rename_i hki
      subst hki
      cases hk
      rw [hm.lease.2]
      exact hm.working hw
    · rename_i hki
      exact hm.others k h' hki hk hw
  · intro c k hk
    by_cases hki : k = i
    · subst hki
      obtain hs | ⟨hs, -⟩ := hm.solo
      · rw [hm.own c hk]
        exact hm.owner_self hi hs
      · exact absurd hk (hs c)
    · exact (hI.owners c k (hm.owners c k hk hki)).other hi hki
  · intro k h' j hk hp
    rw [hget] at hk
    split at hk
    · rename_i hki
      subst hki
      cases hk
      obtain ⟨hj, hl, ho⟩ := hm.joining j hp
      refine ⟨hl, ?_⟩
      rw [hm.lease.2]
      exact ho.other hi hj
    · rename_i hki
      obtain ⟨hl, ho⟩ := hI.joining k h' j hk hp
      refine ⟨mem_append_left _ hl, ?_⟩
      by_cases hji : j = i
      · subst hji
        obtain hs | ⟨-, hs⟩ := hm.solo
        · obtain ⟨h₀, hj₀, hc₀, -⟩ := ho
          cases some.inj (hi.symm.trans hj₀)
          rw [← hc₀]
          exact hm.owner_self hi hs
        · exact absurd hp (hs k h' hk)
      · exact ho.other hi hji
  · intro before hb k h' j hk ht
    rw [hget] at hk
    split at hk
    · rename_i hki
      subst hki
      cases hk
      rw [hm.lease.2]
      exact hm.told hI hi hb hi ht
    · exact hm.told hI hi hb hk ht
  · intro k hk
    have hold : w.isSettled k → (w.apply i t).isSettled k := by
      unfold World.isSettled
      rw [apply_handles hi]
      split
      · rename_i hki
        subst hki
        rw [hi]
        exact hm.settled (hI.handles k h hi)
      · exact id
    simp only [World.apply] at hk
    split at hk
    · rename_i hset
      obtain hk | hk := mem_append.1 hk
      · exact hold (hI.released k hk)
      · simp only [mem_cons, reduceCtorEq, Callback.release.injEq, not_mem_nil, or_false, false_or] at hk
        subst hk
        unfold World.isSettled
        rw [apply_handles hi, if_pos rfl]
        exact (Bool.and_eq_true_iff.1 hset).1
    · exact hold (hI.released k hk)

/-! ## Steps -/

theorem Inv.quiet (hI : Inv lane key w) (hi : w.handles[i]? = some h)
    (hb : ∃ stage, Begun lane (taskOf lane h.lease) (history w.log i) [] t stage ∧ Allows stage t.beat t.phase)
    (hjoin : ∀ owner, t.phase = .joining owner → h.phase = .joining owner)
    (hwork : t.phase.working → h.phase.working) : Inv lane key (w.apply i t) := by
  have hm : Moves lane w i h [] t w.owners := by
    refine ⟨hb, fun j hj => absurd hj not_mem_nil, ?_, ?_, ?_, fun c j hj _ => hj, ?_, ?_⟩
    · intro j hj
      have hj' := hjoin j hj
      obtain ⟨hl, ho⟩ := hI.joining i h j hi hj'
      refine ⟨?_, mem_append_left _ hl, ho⟩
      rintro rfl
      obtain ⟨h₀, hi₀, -, hs⟩ := ho
      cases some.inj (hi.symm.trans hi₀)
      exact hs.1 j hj'
    · exact fun hw => hI.working i h hi (hwork hw)
    · exact fun k h' _ hk hw => hI.working k h' hk hw
    · intro c hc
      obtain ⟨h₀, hi₀, hcor, -⟩ := hI.owners c i hc
      cases some.inj (hi.symm.trans hi₀)
      exact hcor.symm
    · obtain hs | hs := hI.solo_or_unowned hi
      · refine .inl ⟨fun owner ho => hs.1 owner (hjoin owner ho), fun owner ho => ?_⟩
        obtain ⟨stage, hbegun, -⟩ := hb
        obtain ho | ho := mem_append.1 ho
        · exact hs.2 owner ho
        · exact not_mem_nil (hbegun.told owner ho)
      · exact .inr hs
  exact hI.turn hi hm

theorem Inv.move (hI : Inv lane key w) (hi : w.handles[i]? = some h) {abort : Bool} {m : Move}
    (hm : (w.turn h).advance lane abort m = some t) : Inv lane key (w.apply i t) := by
  obtain ⟨stage, hb, ha⟩ := (hI.handles i h hi).begun
  have hk := advance_kept hb ha hm
  exact hI.quiet hi hk.begun hk.joining hk.working

theorem Allows.running_of_unsettled {stage : Stage} {beat : Beat} {phase : Phase} (h : Allows stage beat phase)
    (hs : stage.settled = none) : stage.running := by
  cases stage with
  | opened | answered => rfl
  | closed s => cases hs
  | new | nacking => cases phase <;> simp [Allows] at h

theorem Inv.adopt (hI : Inv lane key w) (hi : w.handles[i]? = some h) (hs : w.isSettled i = false) (n : Nat) :
    Inv lane key (w.apply i ((w.turn h).adopt n)) := by
  obtain ⟨stage, hb, ha⟩ := (hI.handles i h hi).begun
  have hrun : stage.running := ha.running_of_unsettled (hb.settled.symm.trans ((isSettled_eq_false hi).1 hs))
  exact hI.quiet hi ⟨stage, hb.adopt hrun n, ha⟩ (fun _ => id) id

theorem Inv.working_unsettled (hI : Inv lane key w) (hi : w.handles[i]? = some h) (hw : h.phase.working) :
    w.isSettled i = false := by
  obtain ⟨stage, -, hs, ha⟩ := hI.handles i h hi
  cases ha.opened hw
  exact (isSettled_eq_false hi).2 hs

theorem Inv.join (hI : Inv lane key w) (hi : w.handles[i]? = some h)
    (hb : Begun lane (taskOf lane h.lease) (history w.log i) [] t .opened) (hu : Unowned w i) :
    Inv lane key (w.join i t) := by
  have hcor : t.lease.correlation = h.lease.correlation := congrArg Task.correlation hb.task_eq
  unfold World.join
  split
  · rename_i j hj
    obtain ⟨hown, hji, -⟩ := waitsFor_eq_some.1 hj
    rw [hcor] at hown
    have hjoined : Begun lane (taskOf lane h.lease) (history w.log i) [] (t.emit (.joined j)) .opened :=
      hb.emit (by simp [Ticket.accept]) rfl (by simp)
    have hm : Moves lane w i h [] ((t.emit (.joined j)).goto (.joining j)) w.owners := by
      refine ⟨⟨_, hjoined.goto _, rfl⟩, fun j hj => absurd hj not_mem_nil, ?_, fun hw => absurd hw Bool.false_ne_true,
        fun k h' _ hk hw => hI.working k h' hk hw, fun c j hj _ => hj, fun c hc => absurd hc (hu.1 c), .inr hu⟩
      intro j' hj'
      cases hj'
      refine ⟨hji, ?_, hI.owners _ _ hown⟩
      simp [Turn.emit, Turn.goto]
    exact hI.turn hi hm
  · rename_i hnone
    have htold := (tally_of_run hb.follows).untold (.inr rfl)
    have hm : Moves lane w i h [] (t.goto (.processing none)) (update w.owners t.lease.correlation (some i)) := by
      refine ⟨⟨_, hb.goto _, rfl⟩, fun j hj => absurd hj not_mem_nil, fun j hj => absurd hj Phase.noConfusion,
        fun _ => by rw [hcor, update_self], ?_, ?_, ?_, .inl ⟨fun _ => Phase.noConfusion, htold⟩⟩
      · intro k h' hki hk hw
        have hown := hI.working k h' hk hw
        by_cases hsame : h'.lease.correlation = t.lease.correlation
        · -- a worker of the same key would be waited for
          rw [hsame] at hown
          exact absurd (waitsFor_eq_some.2 ⟨hown, hki, hI.working_unsettled hk hw⟩) (by simp [hnone])
        · rw [update_of_ne hsame, hown]
      · intro c j hj hji
        by_cases hc : c = t.lease.correlation
        · rw [hc, update_self] at hj
          exact absurd (some.inj hj).symm hji
        · rwa [update_of_ne hc] at hj
      · intro c hc
        by_cases hceq : c = t.lease.correlation
        · exact hceq.trans hcor
        · rw [update_of_ne hceq] at hc
          exact absurd hc (hu.1 c)
    exact hI.turn hi hm

theorem Inv.joining_unowned (hI : Inv lane key w) (hi : w.handles[i]? = some h) (hp : h.phase = .joining j) :
    Unowned w i := by
  obtain hs | hs := hI.solo_or_unowned hi
  · exact absurd hp (hs.1 j)
  · exact hs

theorem Inv.owner_stored (hI : Inv lane key w) (ho : Owner w c j) (hj : w.handles[j]? = some h)
    (hs : h.lease.settled = some .published) : ∃ streamSeq status, (j, .stored c streamSeq status true) ∈ w.log := by
  obtain ⟨h₀, hj₀, hc, hsolo⟩ := ho
  cases some.inj (hj.symm.trans hj₀)
  obtain ⟨stage, hrun, hset, -⟩ := hI.handles j h hj
  have hstage : stage = .closed .published := by
    rw [hs] at hset
    cases stage with
    | closed s => cases hset; rfl
    | new | opened | answered | nacking => cases hset
  subst hstage
  obtain ⟨q, status, hstored⟩ | ⟨owner, ho⟩ := (tally_of_run hrun).answered (.inr rfl)
  · exact ⟨q, status, hc ▸ mem_history.1 hstored⟩
  · exact absurd ho (hsolo.2 owner)

theorem Inv.wake (hI : Inv lane key w) (hw : w.wake lane i = some w') : Inv lane key w' := by
  unfold World.wake at hw
  obtain ⟨h, hi, hw⟩ := bind_eq_some_iff.1 hw
  split at hw
  · rename_i j hp
    obtain ⟨owner, hj, hw⟩ := bind_eq_some_iff.1 hw
    obtain ⟨hjoined, ho⟩ := hI.joining i h j hi hp
    have hu := hI.joining_unowned hi hp
    obtain ⟨stage, hb, ha⟩ := (hI.handles i h hi).begun
    rw [hp] at ha
    cases ha
    split at hw
    · cases hw
    · rename_i hs
      cases hw
      have htold : Begun lane (taskOf lane h.lease) (history w.log i) [.told j] ((w.turn h).emit (.told j)) .answered := by
        refine Begun.emit ⟨hb.task_eq, hb.follows, hb.settled, fun _ hn => absurd hn not_mem_nil⟩ ?_ rfl ?_
        · simp [Ticket.accept]
        · exact fun _ he => mem_singleton.2 he.symm
      have hf := ack_fine htold .joined
      have hm : Moves lane w i h [.told j] (((w.turn h).emit (.told j)).ack lane .joined) w.owners := by
        refine ⟨hf.begun, ?_, fun j hj => absurd hj (hf.alone j), fun hw => absurd hw (by simp [ack_working]),
          fun k h' _ hk hw => hI.working k h' hk hw, fun c j hj _ => hj, fun c hc => absurd hc (hu.1 c), .inr hu⟩
        intro k hk
        cases mem_singleton.1 hk
        exact ⟨hjoined, hI.owner_stored ho hj hs⟩
      exact hI.turn hi hm
    · cases hw
      exact hI.join hi hb hu
  · cases hw

theorem Inv.env (hI : Inv lane key w) (hh : w'.handles = w.handles) (ho : w'.owners = w.owners)
    (hl : w'.log = w.log) (hc : ∀ c ∈ w'.callbacks, c ∈ w.callbacks) : Inv lane key w' := by
  obtain ⟨now, connection, abort, handles, active, owners, callbacks, log⟩ := w
  obtain ⟨now', connection', abort', handles', active', owners', callbacks', log'⟩ := w'
  subst hh ho hl
  exact ⟨hI.handles, hI.keys, hI.unborn, hI.working, hI.owners, hI.joining, hI.told,
    fun i hi => hI.released i (hc _ hi)⟩

theorem Inv.release (hI : Inv lane key w) (hs : w.isSettled i) : Inv lane key (w.release i) := by
  unfold World.release
  split
  · exact hI
  rename_i h hi
  split
  · refine ⟨hI.handles, hI.keys, hI.unborn, ?_, ?_, hI.joining, hI.told, hI.released⟩
    · intro k h' hk hw
      have hown := hI.working k h' hk hw
      have hne : h'.lease.correlation ≠ h.lease.correlation := by
        intro hsame
        rename_i hi'
        rw [hsame, hi'] at hown
        cases hown
        rw [hI.working_unsettled hk hw] at hs
        cases hs
      show update w.owners _ none _ = _
      rw [update_of_ne hne, hown]
    · intro c j hj
      have hne : c ≠ h.lease.correlation := by
        rintro rfl
        simp at hj
      simp only [update_of_ne hne] at hj
      exact hI.owners c j hj
  · exact hI

/-! ## Deliveries -/

/-- The first turn of a new call is one from the world in which its lease has only been delivered. -/
theorem join_born : (w.attach lane key q n).join w.handles.length
        ((w.turn (w.fresh lane key q n)).emit (.delivered q n w.now)) =
      (born lane key w q n).join w.handles.length (w.turn (w.fresh lane key q n)) := by
  have happly : ∀ t : Turn κ, t.lease.settled = none → ∀ es,
      (w.attach lane key q n).apply w.handles.length { t with events := .delivered q n w.now :: es } =
        (born lane key w q n).apply w.handles.length { t with events := es } := by
    intro t ht es
    simp [World.apply, World.attach, born, ht]
  have hw : (w.attach lane key q n).waitsFor w.handles.length (w.fresh lane key q n).lease.correlation =
      (born lane key w q n).waitsFor w.handles.length (w.fresh lane key q n).lease.correlation := waitsFor_born
  simp only [World.join, Turn.emit, Turn.goto, World.turn, nil_append]
  rw [hw]
  split
  · exact happly { w.turn (w.fresh lane key q n) with phase := .joining _ } rfl [.joined _]
  · exact congrArg (fun w' : World κ => { w' with owners := update w.owners (key q) (some w.handles.length) })
      (happly { w.turn (w.fresh lane key q n) with phase := .processing none } rfl [])

theorem Inv.born (hI : Inv lane key w) (q n : Nat) : Inv lane key (born lane key w q n) := by
  have hnew : history w.log w.handles.length = [] := hI.unborn _ (List.getElem?_eq_none (Nat.le_refl _))
  have hown : ∀ {c : κ} {j : Nat}, Owner w c j → Owner (SC.Proof.Worker.born lane key w q n) c j := by
    rintro c j ⟨h, hj, hc, hs⟩
    have hne : j ≠ w.handles.length := by
      rintro rfl
      simp at hj
    exact ⟨h, by rw [born_handles, if_neg hne, hj], hc, by rwa [born_history hne]⟩
  constructor
  · intro k h hk
    rw [born_handles] at hk
    split at hk
    · rename_i hke
      subst hke
      cases hk
      refine ⟨.opened, ?_, rfl, rfl, .inl rfl⟩
      show run _ _ (history (w.log ++ [_]) _) = _
      rw [history_append, hnew, history_cons]
      simp [history, Ticket.accept, Ticket.start, World.fresh]
    · rename_i hke
      rw [born_history hke]
      exact hI.handles k h hk
  · intro k h hk
    rw [born_handles] at hk
    split at hk
    · cases hk
      rfl
    · exact hI.keys k h hk
  · intro k hk
    rw [born_handles] at hk
    split_ifs at hk with hke
    rw [born_history hke]
    exact hI.unborn k hk
  · intro k h hk hw
    rw [born_handles] at hk
    split at hk
    · cases hk
      cases hw
    · exact hI.working k h hk hw
  · exact fun c j hj => hown (hI.owners c j hj)
  · intro k h j hk hp
    rw [born_handles] at hk
    split at hk
    · cases hk
      cases hp
    · obtain ⟨hl, ho⟩ := hI.joining k h j hk hp
      exact ⟨mem_append_left _ hl, hown ho⟩
  · intro before hb k h j hk ht
    have hold : (k, .told j) ∈ w.log := by
      obtain ht | ht := mem_append.1 (hb.subset ht)
      · exact ht
      · simp at ht
    rw [born_handles] at hk
    split at hk
    · rename_i hke
      have : .told j ∈ history w.log k := mem_history.2 hold
      rw [hke, hnew] at this
      exact absurd this not_mem_nil
    · obtain hle | hge := prefix_or_prefix_of_prefix hb (prefix_append w.log _)
      · exact hI.told before hle k h j hk ht
      · exact (hI.told w.log (prefix_refl _) k h j hk hold).mono fun _ he => hge.subset he
  · intro k hk
    have hs := hI.released k hk
    unfold World.isSettled at hs ⊢
    rw [born_handles]
    split
    · rename_i hke
      rw [List.getElem?_eq_none (by omega)] at hs
      cases hs
    · exact hs

theorem Inv.deliver (hI : Inv lane key w) (hd : w.deliver lane key q n = some w') : Inv lane key w' := by
  unfold World.deliver at hd
  split at hd
  · rename_i i ha
    obtain ⟨h, hi, rfl⟩ := map_eq_some_iff.1 hd
    have hs : w.isSettled i = false := by simpa using (filter_eq_some_iff.1 ha).2
    exact hI.adopt hi hs n
  · cases hd
    rw [join_born]
    have hV := hI.born q n
    have hi : (SC.Proof.Worker.born lane key w q n).handles[w.handles.length]? =
        some { w.fresh lane key q n with phase := .closing none, beat := .over } := by
      rw [born_handles, if_pos rfl]
    obtain ⟨stage, hrun, hset, ha⟩ := hV.handles _ _ hi
    have hopen : stage = .opened := by
      obtain ⟨-, hs | ⟨s, rfl⟩⟩ := ha
      · exact hs
      · cases hset
    subst hopen
    refine hV.join hi ⟨rfl, ?_, rfl, fun _ hn => hn⟩ ⟨?_, ?_⟩
    · show run _ _ (history _ _ ++ []) = _
      rw [append_nil]
      exact hrun
    · intro c hc
      obtain ⟨h, hn, -⟩ := hI.owners c _ hc
      simp at hn
    · intro k h hk hp
      rw [born_handles] at hk
      split at hk
      · cases hk
        cases hp
      · obtain ⟨-, h', hn, -⟩ := hI.joining k h _ hk hp
        simp at hn

theorem Inv.step {a : Action} (hI : Inv lane key w) (hw : w.step lane key a = some w') : Inv lane key w' := by
  cases a with
  | deliver q n => exact hI.deliver hw
  | wake i => exact hI.wake hw
  | move i m =>
    obtain ⟨h, hi, hw⟩ := bind_eq_some_iff.1 hw
    obtain ⟨t, ht, hw⟩ := bind_eq_some_iff.1 hw
    cases hw
    exact hI.move hi ht
  | callback =>
    simp only [World.step] at hw
    split at hw
    · cases hw
    rename_i c rest hc
    cases hw
    have hrest : Inv lane key { w with callbacks := rest } :=
      hI.env rfl rfl rfl fun _ h' => hc ▸ mem_cons_of_mem _ h'
    cases c with
    | forget i =>
      simp only [World.runCallback, World.forget]
      split
      · exact hrest
      · split
        · exact hrest.env rfl rfl rfl fun _ => id
        · exact hrest
    | release i =>
      have hs : w.isSettled i := hI.released i (hc ▸ mem_cons_self)
      exact hrest.release hs
  | connected up =>
    simp only [World.step] at hw
    split at hw <;> cases hw
    exact hI.env rfl rfl rfl fun _ => id
  | abort | tick | onDisconnected | onReconnected | onClosed | suspect | trust =>
    cases hw
    exact hI.env rfl rfl rfl fun _ => id

end SC.Proof.Worker
