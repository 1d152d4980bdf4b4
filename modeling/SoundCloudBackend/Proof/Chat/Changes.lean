import SoundCloudBackend.Framework.Run
import SoundCloudBackend.Impl.Chat.Poll
import SoundCloudBackend.Proof.Chat.Answer

/-!
# Chat sync loses no change

The set of changes keeps the last bump of every member above the floor, whatever
was scored anew, dropped or expired (`Good.kept`). So a client whose position is
at or above the floor is handed every later bump, in the order of the versions,
and a client below it is told to reset.
-/

namespace SC.Proof.Chat

open Impl.Chat
open List Option

variable {deltas : List Delta} {changes : Changes}
variable {d e : Delta} {score : Nat} {member : Impl.Chat.Change} {members : List Impl.Chat.Change} {store : Store}
variable {context : Context} {versions : Versions}

/-! ## The set -/

section
variable {before : Impl.Chat.Change → Impl.Chat.Change → Bool}

theorem mem_place : e ∈ Store.place before d deltas ↔ e = d ∨ e ∈ deltas := by
  induction deltas with
  | nil => simp [Store.place]
  | cons c rest ih =>
    unfold Store.place
    split
    · rw [mem_cons, ih, mem_cons]
      exact or_left_comm
    · exact mem_cons

theorem inOrder_place (h : InOrder deltas) : InOrder (Store.place before d deltas) := by
  induction deltas with
  | nil => exact pairwise_singleton _ _
  | cons c rest ih =>
    obtain ⟨hc, hrest⟩ := pairwise_cons.1 h
    unfold Store.place
    split
    · rename_i hbefore
      refine pairwise_cons.2 ⟨fun e he => ?_, ih hrest⟩
      rcases mem_place.1 he with rfl | he
      · omega
      · exact hc e he
    · rename_i hbefore
      refine pairwise_cons.2 ⟨fun e he => ?_, h⟩
      have hdc : d.version ≤ c.version := by omega
      rcases mem_cons.1 he with rfl | he
      · exact hdc
      · exact Nat.le_trans hdc (hc e he)

theorem mem_zadd :
    e ∈ Store.zadd before score deltas member ↔ e = ⟨score, member⟩ ∨ (e ∈ deltas ∧ e.change ≠ member) := by
  simp [Store.zadd, mem_place, mem_filter]

theorem inOrder_zadd (h : InOrder deltas) : InOrder (Store.zadd before score deltas member) :=
  inOrder_place (h.sublist filter_sublist)

theorem mem_foldl_zadd : e ∈ members.foldl (Store.zadd before score) deltas ↔
      (e.version = score ∧ e.change ∈ members) ∨ (e ∈ deltas ∧ e.change ∉ members) := by
  induction members generalizing deltas with
  | nil => simp
  | cons m ms ih =>
    rw [foldl_cons, ih, mem_zadd, mem_cons]
    obtain ⟨version, change⟩ := e
    simp only [Delta.mk.injEq]
    tauto

theorem inOrder_foldl_zadd (h : InOrder deltas) : InOrder (members.foldl (Store.zadd before score) deltas) := by
  induction members generalizing deltas with
  | nil => exact h
  | cons m ms ih => exact ih (inOrder_zadd h)

end

/-- What `trim` keeps: every delta above the floor, which does not go over the newest. -/
structure Trimmed (floor : Nat) (deltas : List Delta) (r : Nat × List Delta) : Prop where
  raised : floor ≤ r.1
  sublist : r.2.Sublist deltas
  kept : ∀ d ∈ deltas, r.1 < d.version → d ∈ r.2
  bound : ∀ v, floor ≤ v → (∀ d ∈ deltas, d.version ≤ v) → r.1 ≤ v

theorem trim_spec (h : InOrder deltas) (floor : Nat) : Trimmed floor deltas (Store.trim floor deltas) := by
  unfold Store.trim
  generalize deltas.length - deltasKept = excess
  dsimp only
  have : Std.Refl fun d e : Delta => d.version ≤ e.version := ⟨fun d => Nat.le_refl d.version⟩
  cases hlast : (deltas.take excess).getLast? with
  | none =>
    refine ⟨Nat.le_refl _, drop_sublist .., fun d hd _ => ?_, fun v hv _ => hv⟩
    rw [List.getLast?_eq_none_iff] at hlast
    rwa [← take_append_drop excess deltas, hlast, nil_append] at hd
  | some e =>
    refine ⟨Nat.le_max_left .., drop_sublist .., fun d hd hlt => ?_, fun v hv hall => ?_⟩
    · rw [← take_append_drop excess deltas] at hd
      rcases mem_append.1 hd with hd | hd
      · have hle := List.Pairwise.rel_getLast (List.Pairwise.sublist (take_sublist excess deltas) h) hd
        rw [List.getLast?_eq_some_getLast (ne_nil_of_mem hd), some.injEq] at hlast
        rw [hlast] at hle
        simp only [elim_some] at hlt
        omega
      · exact hd
    · exact Nat.max_le.2 ⟨hv, hall e (mem_of_mem_take (mem_of_getLast? hlast))⟩

/-! ## The invariant -/

/-- The version is not newer than the stored one, or than the clock while none is stored. -/
def Below (v : Option Nat) (clock n : Nat) : Prop := v.elim (n < clock) (n ≤ ·)

/-- The client was handed the last bump of every member between its start and its position, or it does not see
the change. -/
def Handed (s : Feed) (client : Client) : Prop :=
  ∀ member b, s.lastBump member = some b → client.start < b → b ≤ client.pos →
    ∃ reply ∈ client.replies, b ≤ reply.version ∧
      (Carries reply.answer member ∨ hides reply.context.ask reply.context.states member = true)

/-- The feed holds, in order, every member's last bump above its floor. -/
structure Good (s : Feed) : Prop where
  absent : s.store.v = none → s.store.deltas = []
  floor : ∀ v, s.store.v = some v → ∃ f, s.store.f = some f ∧ f ≤ v
  order : InOrder s.store.deltas
  bound : ∀ v, s.store.v = some v → ∀ d ∈ s.store.deltas, d.version ≤ v
  bumped : ∀ d ∈ s.bumped, Below s.store.v s.clock d.version
  kept : ∀ f, s.store.v.isSome → s.store.f = some f → ∀ member b, s.lastBump member = some b → f < b →
    ⟨b, member⟩ ∈ s.store.deltas
  position : ∀ client, s.client = some client → Below s.store.v s.clock client.pos
  handed : ∀ client, s.client = some client → Handed s client

variable {s : Feed}

theorem lastBump_below (h : Good s) {b : Nat} (hb : s.lastBump member = some b) : Below s.store.v s.clock b := by
  obtain ⟨d, hd, rfl⟩ := map_eq_some_iff.1 hb
  exact h.bumped d (mem_of_find?_eq_some hd)

theorem stored_spec (h : Good s) : (s.store.stored s.clock).2 ≤ (s.store.stored s.clock).1 ∧
      (∀ n, Below s.store.v s.clock n → n ≤ (s.store.stored s.clock).1) ∧
      ∀ member b, s.lastBump member = some b → (s.store.stored s.clock).2 < b → ⟨b, member⟩ ∈ s.store.deltas := by
  unfold Store.stored
  cases hv : s.store.v with
  | none =>
    refine ⟨Nat.le_refl _, fun n hn => Nat.le_of_lt hn, fun member b hb hlt => ?_⟩
    have := lastBump_below h hb
    rw [hv] at this
    exact absurd (Nat.lt_trans hlt this) (Nat.lt_irrefl _)
  | some v =>
    obtain ⟨f, hf, hle⟩ := h.floor v hv
    simp only [hf, getD_some]
    exact ⟨hle, fun n hn => hn, h.kept f (by rw [hv]; rfl) hf⟩

theorem lastBump_bump (before : Impl.Chat.Change → Impl.Chat.Change → Bool) (members : List Impl.Chat.Change)
    (member : Impl.Chat.Change) : (s.bump before members).lastBump member =
      if member ∈ members then some ((s.store.bump before s.clock members).v.getD 0) else s.lastBump member := by
  unfold Feed.lastBump Feed.bump
  simp only [List.find?_append, List.find?_map]
  split
  · rename_i hm
    have hfound : (members.find? fun m => m = member) = some member := by
      cases hf : members.find? fun m => m = member with
      | none => exact absurd (decide_eq_true rfl) (List.find?_eq_none.1 hf member hm)
      | some m =>
        have := List.find?_some hf
        rw [of_decide_eq_true this]
    simp only [Function.comp_def, hfound, map_some, some_or]
  · rename_i hm
    have hnone : (members.find? fun m => m = member) = none :=
      List.find?_eq_none.2 fun m hmem heq => hm (of_decide_eq_true heq ▸ hmem)
    simp only [Function.comp_def, hnone, map_none, none_or]

theorem good_bump (before : Impl.Chat.Change → Impl.Chat.Change → Bool) (members : List Impl.Chat.Change) (h : Good s) :
    Good (s.bump before members) := by
  obtain ⟨hfloor, hbelow, hkept⟩ := stored_spec h
  let version := max ((s.store.stored s.clock).1 + 1) s.clock
  let deltas := members.foldl (Store.zadd before version) s.store.deltas
  have horder : InOrder deltas := inOrder_foldl_zadd h.order
  obtain ⟨trimmed, htrimmed⟩ : ∃ trimmed, Store.trim (s.store.stored s.clock).2 deltas = trimmed := ⟨_, rfl⟩
  have htrim : Trimmed (s.store.stored s.clock).2 deltas trimmed := htrimmed ▸ trim_spec horder _
  have hnew : (s.store.stored s.clock).1 < version := Nat.lt_of_lt_of_le (Nat.lt_succ_self _) (Nat.le_max_left ..)
  have holder : ∀ n, Below s.store.v s.clock n → n ≤ version :=
    fun n hn => Nat.le_trans (hbelow n hn) (Nat.le_of_lt hnew)
  have hle : ∀ d ∈ deltas, d.version ≤ version := by
    intro d hd
    rcases mem_foldl_zadd.1 hd with ⟨heq, -⟩ | ⟨hd, -⟩
    · exact Nat.le_of_eq heq
    · refine holder d.version ?_
      cases hv : s.store.v with
      | none =>
        rw [h.absent hv] at hd
        cases hd
      | some v => exact h.bound v hv d hd
  have hlast := lastBump_bump (s := s) before members
  have hbump : s.bump before members = { s with
      store := { s.store with v := some version, f := some trimmed.1, deltas := trimmed.2 }
      bumped := members.map (⟨version, ·⟩) ++ s.bumped } := by
    rw [← htrimmed]
    rfl
  rw [hbump] at hlast ⊢
  refine ⟨fun hv => (by cases hv), ?_, ?_, ?_, ?_, ?_, ?_, ?_⟩
  · intro v hv
    cases hv
    exact ⟨_, rfl, htrim.bound version (Nat.le_of_lt (Nat.lt_of_le_of_lt hfloor hnew)) hle⟩
  · exact horder.sublist htrim.sublist
  · intro v hv d hd
    cases hv
    exact hle d (htrim.sublist.subset hd)
  · intro d hd
    rcases mem_append.1 hd with hd | hd
    · obtain ⟨m, -, rfl⟩ := mem_map.1 hd
      exact Nat.le_refl version
    · exact holder d.version (h.bumped d hd)
  · intro f _ hf member b hb hlt
    cases hf
    refine htrim.kept ⟨b, member⟩ (mem_foldl_zadd.2 ?_) hlt
    rw [hlast] at hb
    split at hb
    · rename_i hm
      exact .inl ⟨(some.inj hb).symm, hm⟩
    · rename_i hm
      exact .inr ⟨hkept member b hb (Nat.lt_of_le_of_lt htrim.raised hlt), hm⟩
  · intro client hc
    exact holder client.pos (h.position client hc)
  · intro client hc member b hb hstart hpos
    rw [hlast] at hb
    split at hb
    · -- a new bump is above every position
      have hb : version = b := some.inj hb
      have := hbelow client.pos (h.position client hc)
      omega
    · exact h.handed client hc member b hb hstart hpos

/-! ## Reads -/

theorem read_of_none (hv : store.v = none) (now pos : Nat) :
    store.read now pos = ({ store with v := some now, f := some now, deltas := [] }, ⟨⟨now, now, none, true⟩, []⟩) := by
  simp [Store.read, hv]

theorem read_of_some {v f : Nat} (hv : store.v = some v) (hf : store.f = some f) (now pos : Nat) :
    store.read now pos = (store, ⟨⟨v, f, store.rq, false⟩,
      if pos < v ∧ pos ≥ f then store.deltas.filter fun d => d.version > pos else []⟩) := by
  simp [Store.read, hv, hf]

theorem good_read (pos : Nat) (h : Good s) : Good { s with store := (s.store.read s.clock pos).1 } := by
  cases hv : s.store.v with
  | none =>
    rw [read_of_none hv]
    have hbelow : ∀ {n}, Below s.store.v s.clock n → n < s.clock := fun hn => by
      rw [hv] at hn
      exact hn
    refine ⟨fun hv => (by cases hv), ?_, List.Pairwise.nil, ?_, ?_, ?_, ?_, h.handed⟩
    · intro v hv
      cases hv
      exact ⟨_, rfl, Nat.le_refl _⟩
    · nofun
    · exact fun d hd => Nat.le_of_lt (hbelow (h.bumped d hd))
    · intro f _ hf member b hb hlt
      cases hf
      exact absurd (Nat.lt_trans hlt (hbelow (lastBump_below h hb))) (Nat.lt_irrefl _)
    · exact fun client hc => Nat.le_of_lt (hbelow (h.position client hc))
  | some v =>
    obtain ⟨f, hf, -⟩ := h.floor v hv
    rw [read_of_some hv hf]
    exact h

theorem good_at {pos : Nat} (h : Good s) (hpos : Below s.store.v s.clock pos) :
    Good { s with client := some (.at pos) } :=
  { h with
    position := fun client hc => by
      cases hc
      exact hpos
    handed := fun client hc => by
      cases hc
      intro member b _ hstart hle
      exact absurd (Nat.lt_of_lt_of_le hstart hle) (Nat.lt_irrefl _) }

/-- What news says: the stored version, the floor below the position, and the deltas above it. -/
structure IsNews (s : Feed) (pos : Nat) (changes : Changes) (f : Nat) : Prop where
  version : s.store.v = some changes.versions.version
  floor : s.store.f = some f
  above : f ≤ pos
  below : pos ≤ changes.versions.version
  read : (s.store.read s.clock pos).1 = s.store
  deltas : changes.deltas =
    if pos < changes.versions.version then s.store.deltas.filter fun d => d.version > pos else []

theorem isNews_of_look {pos : Nat} (h : Good s)
    (hl : context.look pos (s.store.read s.clock pos).2 = .news changes) : ∃ f, IsNews s pos changes f := by
  unfold Context.look look at hl
  split at hl
  · cases hl
  rename_i hreset
  split_ifs at hl
  cases hl
  simp only [needsReset, decide_eq_true_eq, not_or] at hreset
  obtain ⟨hfresh, -, hfloor, hversion⟩ := hreset
  cases hv : s.store.v with
  | none =>
    rw [read_of_none hv] at hfresh
    exact absurd rfl hfresh
  | some v =>
    obtain ⟨f, hf, -⟩ := h.floor v hv
    rw [read_of_some hv hf] at hfloor hversion ⊢
    refine ⟨f, hv, hf, Nat.le_of_not_lt hfloor, Nat.le_of_not_lt hversion, by rw [read_of_some hv hf], ?_⟩
    have : f ≤ pos := Nat.le_of_not_lt hfloor
    simp [this]

theorem IsNews.inOrder {pos f : Nat} (hn : IsNews s pos changes f) (h : Good s) : InOrder changes.deltas := by
  rw [hn.deltas]
  split
  · exact h.order.sublist filter_sublist
  · exact List.Pairwise.nil

theorem IsNews.between {pos f : Nat} (hn : IsNews s pos changes f) (h : Good s)
    (hd : d ∈ changes.deltas) : pos < d.version ∧ d.version ≤ changes.versions.version := by
  rw [hn.deltas] at hd
  split at hd
  · obtain ⟨hmem, hlt⟩ := mem_filter.1 hd
    exact ⟨of_decide_eq_true hlt, h.bound _ hn.version d hmem⟩
  · cases hd

/-- The position of an answer is not above the version, and above the position of a request with changes. -/
theorem IsNews.pos {pos f : Nat} (hn : IsNews s pos changes f) (h : Good s) (context : Context) :
    (context.build changes).pos ≤ changes.versions.version ∧
      (changes.deltas ≠ [] → pos < (context.build changes).pos) := by
  unfold Context.build
  rcases (build_spec (hn.inOrder h)).2 with hpos | ⟨d, hd, hpos⟩
  · rw [hpos]
    refine ⟨Nat.le_refl _, fun hne => ?_⟩
    obtain ⟨d, hd⟩ := exists_mem_of_ne_nil _ hne
    have := hn.between h hd
    omega
  · rw [hpos]
    exact ⟨(hn.between h hd).2, fun _ => (hn.between h hd).1⟩

theorem version_read (h : Good s) (pos : Nat) :
    (s.store.read s.clock pos).1.v = some (s.store.read s.clock pos).2.versions.version := by
  cases hv : s.store.v with
  | none => rw [read_of_none hv]
  | some v =>
    obtain ⟨f, hf, -⟩ := h.floor v hv
    rw [read_of_some hv hf]
    exact hv

theorem look_eq_reset {pos : Nat}
    (hl : context.look pos changes = .reset versions) : versions = changes.versions := by
  unfold Context.look look at hl
  split at hl
  · cases hl
    rfl
  · split at hl <;> cases hl

theorem good_reset {pos : Nat} (h : Good s) (hl : context.look pos (s.store.read s.clock pos).2 = .reset versions) :
    Good { s with store := (s.store.read s.clock pos).1, client := some (.at versions.version) } := by
  refine good_at (good_read pos h) ?_
  rw [version_read h, look_eq_reset hl]
  exact Nat.le_refl _

theorem good_join (context : Context) (pos : Nat) (h : Good s) : Good (s.join context pos) := by
  unfold Feed.join
  dsimp only
  split
  · rename_i hl
    exact good_reset h hl
  · rename_i changes hl
    obtain ⟨f, hn⟩ := isNews_of_look h hl
    refine good_at (good_read pos h) ?_
    rw [hn.read, hn.version]
    exact (hn.pos h context).1
  · exact good_read pos h

theorem good_poll (context : Context) {client : Client} (h : Good s) (hc : s.client = some client) :
    Good (s.poll context client) := by
  unfold Feed.poll
  dsimp only
  split
  · rename_i hl
    exact good_reset h hl
  · rename_i changes hl
    obtain ⟨f, hn⟩ := isNews_of_look h hl
    rw [hn.read]
    refine { h with position := ?_, handed := ?_ }
    · intro client' hc'
      cases hc'
      rw [hn.version]
      exact (hn.pos h context).1
    · intro client' hc' member b hb hstart hle
      cases hc'
      by_cases hold : b ≤ client.pos
      · obtain ⟨reply, hr, hreply⟩ := h.handed client hc member b hb hstart hold
        exact ⟨reply, mem_cons_of_mem _ hr, hreply⟩
      · have hbound : b ≤ changes.versions.version := Nat.le_trans hle (hn.pos h context).1
        have hmem : ⟨b, member⟩ ∈ s.store.deltas :=
          h.kept f (by rw [hn.version]; rfl) hn.floor member b hb (by have := hn.above; omega)
        have hdelta : ⟨b, member⟩ ∈ changes.deltas := by
          rw [hn.deltas, ite_cond_eq_true _ _ (eq_true (by omega))]
          exact mem_filter.2 ⟨hmem, decide_eq_true (Nat.lt_of_not_le hold)⟩
        exact ⟨_, mem_cons_self .., hbound, (build_spec (hn.inOrder h)).1 _ hdelta hle⟩
  · exact good_read client.pos h

theorem good_expire (h : Good s) (hv : (s.store.v.all fun v => v < s.clock) = true) :
    Good { s with store := .empty } := by
  have hbelow : ∀ {n}, Below s.store.v s.clock n → n < s.clock := by
    intro n hn
    cases hs : s.store.v with
    | none =>
      rw [hs] at hn
      exact hn
    | some v =>
      rw [hs] at hn hv
      exact Nat.lt_of_le_of_lt hn (of_decide_eq_true hv)
  exact ⟨fun _ => rfl, fun v hv => (by cases hv), List.Pairwise.nil, fun v hv => (by cases hv),
    fun d hd => hbelow (h.bumped d hd), fun f hv => (by cases hv), fun c hc => hbelow (h.position c hc), h.handed⟩

theorem good_tick (wait : Nat) (h : Good s) : Good { s with clock := s.clock + wait } := by
  have hbelow : ∀ {n}, Below s.store.v s.clock n → Below s.store.v (s.clock + wait) n := by
    intro n hn
    cases hv : s.store.v with
    | none =>
      rw [hv] at hn
      exact Nat.lt_of_lt_of_le hn (Nat.le_add_right ..)
    | some v =>
      rw [hv] at hn
      exact hn
  exact { h with bumped := fun d hd => hbelow (h.bumped d hd), position := fun c hc => hbelow (h.position c hc) }

theorem step_good {before : Impl.Chat.Change → Impl.Chat.Change → Bool} {a : FeedAction} {s' : Feed} (h : Good s)
    (hs : feedStep before s a = some s') : Good s' := by
  cases a with
  | bump members =>
    cases hs
    exact good_bump before members h
  | rememberRequests count =>
    cases hs
    exact { h with }
  | read pos =>
    cases hs
    exact good_read pos h
  | join context pos =>
    cases hs
    exact good_join context pos h
  | poll context =>
    obtain ⟨client, hc, rfl⟩ := map_eq_some_iff.1 hs
    exact good_poll context h hc
  | expire =>
    simp only [feedStep] at hs
    split_ifs at hs with hv
    cases hs
    exact good_expire h hv
  | tick wait =>
    cases hs
    exact good_tick wait h

/-! ## Runs -/

theorem good_start (clock : Nat) : Good (.start clock) :=
  ⟨fun _ => rfl, fun v hv => (by cases hv), List.Pairwise.nil, fun v hv => (by cases hv),
    fun d hd => (by cases hd), fun f hv => (by cases hv), fun c hc => (by cases hc), fun c hc => (by cases hc)⟩

/-- A client at the stored version was handed the last bump of every member after its start, unless it does not
see the change; and an answer with changes moves the position up, to the stored version at most. -/
theorem no_change_lost {before : Impl.Chat.Change → Impl.Chat.Change → Bool} {clock : Nat} {as : List FeedAction}
    (h : run (feedStep before) (.start clock) as = some s) :
    (∀ client, s.client = some client → s.store.v = some client.pos → ∀ member b, s.lastBump member = some b →
      client.start < b → ∃ reply ∈ client.replies, b ≤ reply.version ∧
        (Carries reply.answer member ∨ hides reply.context.ask reply.context.states member = true)) ∧
      ∀ (context : Context) (pos : Nat) (changes : Changes),
        context.look pos (s.store.read s.clock pos).2 = .news changes →
        changes.deltas ≠ [] → pos < (context.build changes).pos ∧
          ∃ v, s.store.v = some v ∧ (context.build changes).pos ≤ v := by
  have hgood : Good s := run_invariant step_good (good_start clock) h
  refine ⟨fun client hc hv member b hb hstart => ?_, fun context pos changes hl hne => ?_⟩
  · refine hgood.handed client hc member b hb hstart ?_
    have := lastBump_below hgood hb
    rw [hv] at this
    exact this
  · obtain ⟨f, hn⟩ := isNews_of_look hgood hl
    obtain ⟨hle, hlt⟩ := hn.pos hgood context
    exact ⟨hlt hne, _, hn.version, hle⟩

def thrifty : Context where
  inc := some 0
  incarnation := 0
  ask := { known := [], focus := none, includeFocus := false, budget := 1, seesPublic := true }
  states := []
  cache := fun _ => none
  stored := ⟨fun _ => [], by simp, by simp⟩
  fetchedAt := 0
  now := 0

/-- Three bumps, one of a member again, handed in two answers. -/
def threeBumps : List FeedAction :=
  [.join thrifty 0, .bump [.conversation 1], .bump [.devices, .conversation 2], .bump [.conversation 1],
    .poll thrifty, .poll thrifty]

theorem no_change_lost_thrifty : ∃ s client reply, run (feedStep fun _ _ => true) (.start 7) threeBumps = some s ∧
    s.client = some client ∧ client.start = 7 ∧ s.store.v = some client.pos ∧
    s.lastBump (.conversation 1) = some 10 ∧ reply ∈ client.replies ∧ 10 ≤ reply.version ∧
    (Carries reply.answer (.conversation 1) ∨
      hides reply.context.ask reply.context.states (.conversation 1) = true) := by
  obtain ⟨s, hs⟩ := isSome_iff_exists.1
    (by decide +kernel : (run (feedStep fun _ _ => true) (.start 7) threeBumps).isSome = true)
  have hfacts : (run (feedStep fun _ _ => true) (.start 7) threeBumps).map (fun s =>
      (s.client.map fun c => (c.start, c.pos), s.store.v, s.lastBump (.conversation 1))) =
        some (some (7, 10), some 10, some 10) := by decide +kernel
  rw [hs, map_some, some.injEq, Prod.mk.injEq, Prod.mk.injEq] at hfacts
  obtain ⟨hclient, hv, hb⟩ := hfacts
  obtain ⟨client, hc, hpos⟩ := map_eq_some_iff.1 hclient
  obtain ⟨hstart, hpos⟩ := Prod.mk.inj hpos
  obtain ⟨reply, hr, hle, hcarry⟩ := (no_change_lost hs).1 client hc (hpos ▸ hv) _ 10 hb (by rw [hstart]; decide)
  exact ⟨s, client, reply, hs, hc, hstart, hpos ▸ hv, hb, hr, hle, hcarry⟩

end SC.Proof.Chat
