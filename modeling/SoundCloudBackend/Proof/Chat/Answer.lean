import SoundCloudBackend.Impl.Chat.Answer
import Mathlib.Data.List.SplitBy

/-!
# What an answer carries

`Grows` says that an assembly keeps what it has: every change that was put in
stays in (`Carries`). `groups_spec` then reads the loop of `assemble`: it puts in
a beginning of the groups, all of them if it came to the end, and its position is
the version of the last group. On deltas in the order of their versions that
beginning is exactly the deltas up to the position.
-/

namespace SC.Proof.Chat

open Impl.Chat
open Impl.Replication (Uuid)
open List Option

variable {a : Assembly} {states : List ConversationState} {deltas : List Delta}

/-! ## Changes -/

/-- The answer carries the change: the conversation is in it, or among the gone ones; the devices, the requests
or the gone messages are. -/
def Carries (a : Assembly) : Impl.Chat.Change → Prop
  | .conversation id => id ∈ a.gone ∨ ∃ entry ∈ a.convs, entry.id = id
  | .devices => a.wantsDevices = true
  | .requests => a.wantsRequests = true
  | .goneMessages id seqs => ∀ seq ∈ seqs, (id, seq) ∈ a.goneMsgs

/-- Assembling only ever adds to what the answer lists. -/
structure Grows (a a' : Assembly) : Prop where
  convs : a.convs ⊆ a'.convs
  gone : a.gone ⊆ a'.gone
  goneMsgs : a.goneMsgs ⊆ a'.goneMsgs
  devices : a.wantsDevices = true → a'.wantsDevices = true
  requests : a.wantsRequests = true → a'.wantsRequests = true

theorem Grows.refl (a : Assembly) : Grows a a :=
  ⟨List.Subset.refl _, List.Subset.refl _, List.Subset.refl _, id, id⟩

theorem Grows.trans {b c : Assembly} (h : Grows a b) (h' : Grows b c) : Grows a c :=
  ⟨List.Subset.trans h.convs h'.convs, List.Subset.trans h.gone h'.gone, List.Subset.trans h.goneMsgs h'.goneMsgs,
    h'.devices ∘ h.devices, h'.requests ∘ h.requests⟩

theorem Carries.grows {a' : Assembly} {change : Impl.Chat.Change} (h : Carries a change) (hg : Grows a a') :
    Carries a' change := by
  cases change with
  | conversation id =>
    rcases h with h | ⟨entry, he, hid⟩
    · exact .inl (hg.gone h)
    · exact .inr ⟨entry, hg.convs he, hid⟩
  | devices => exact hg.devices h
  | requests => exact hg.requests h
  | goneMessages id seqs => exact fun seq hseq => hg.goneMsgs (h seq hseq)

def Emits (a : Assembly) : Prop := ∀ id ∈ a.emitted, Carries a (.conversation id)

variable (inputs : Inputs)

theorem entry_fst (a : Assembly) (state : ConversationState) (floor : Int) :
    ∃ remaining, (a.entry inputs state floor).1 = { a with remaining := remaining } := by
  unfold Assembly.entry
  cases inputs.known state.id with
  | none | some known => exact ⟨_, rfl⟩

theorem entry_id (a : Assembly) (state : ConversationState) (floor : Int) :
    (a.entry inputs state floor).2.id = state.id := by
  unfold Assembly.entry
  cases inputs.known state.id with
  | none | some known => rfl

theorem stateOf_id {id : Uuid} {state : ConversationState}
    (h : stateOf states id = some state) : state.id = id := by
  have := List.find?_some h
  exact of_decide_eq_true this

theorem conversation_spec (a : Assembly) (id : Uuid) (he : Emits a) :
    Grows a (a.conversation inputs id) ∧ Emits (a.conversation inputs id) ∧
      Carries (a.conversation inputs id) (.conversation id) := by
  unfold Assembly.conversation
  split
  · rename_i hid
    exact ⟨.refl a, he, he id hid⟩
  · -- a new id is carried by what the match adds, the others by what was there
    have hnew : ∀ {a' : Assembly}, Grows a a' → a'.emitted = id :: a.emitted → Carries a' (.conversation id) →
        Grows a a' ∧ Emits a' ∧ Carries a' (.conversation id) := by
      intro a' hg hem hc
      refine ⟨hg, fun i hi => ?_, hc⟩
      rw [hem] at hi
      rcases mem_cons.1 hi with rfl | hi
      · exact hc
      · exact (he i hi).grows hg
    cases hstate : stateOf inputs.states id with
    | none =>
      simp only [seatOf, hstate, elim_none]
      refine hnew ⟨List.Subset.refl _, subset_append_left .., List.Subset.refl _, fun h => h, fun h => h⟩ rfl (.inl ?_)
      exact mem_append_right _ (mem_singleton_self id)
    | some state =>
      simp only [seatOf, hstate, elim_some]
      cases state.seat with
      | gone =>
        refine hnew ⟨List.Subset.refl _, subset_append_left .., List.Subset.refl _, fun h => h, fun h => h⟩ rfl (.inl ?_)
        exact mem_append_right _ (mem_singleton_self id)
      | live floor =>
        obtain ⟨remaining, hfst⟩ := entry_fst inputs { a with emitted := id :: a.emitted } state floor
        dsimp only
        rw [hfst]
        refine hnew ⟨subset_append_left .., List.Subset.refl _, List.Subset.refl _, fun h => h, fun h => h⟩ rfl (.inr ?_)
        exact ⟨_, mem_append_right _ (mem_singleton_self _), (entry_id inputs _ state floor).trans (stateOf_id hstate)⟩

theorem goneMessages_spec (a : Assembly) (id : Uuid) (seqs : List Int) (he : Emits a) :
    Grows a (a.delta inputs (.goneMessages id seqs)) ∧ Emits (a.delta inputs (.goneMessages id seqs)) ∧
      Carries (a.delta inputs (.goneMessages id seqs)) (.goneMessages id seqs) := by
  induction seqs generalizing a with
  | nil => exact ⟨.refl a, he, nofun⟩
  | cons seq seqs ih =>
    let a' : Assembly := { a with
      goneMsgs := a.goneMsgs ++ [(id, seq)]
      remaining := spend a.remaining goneMessageCost }
    have hg : Grows a a' :=
      ⟨List.Subset.refl _, List.Subset.refl _, subset_append_left .., fun h => h, fun h => h⟩
    obtain ⟨hg', he', hc⟩ := ih a' fun i hi => (he i hi).grows hg
    refine ⟨hg.trans hg', he', fun s hs => ?_⟩
    rcases mem_cons.1 hs with rfl | hs
    · exact hg'.goneMsgs (mem_append_right _ (mem_singleton_self _))
    · exact hc s hs

theorem delta_spec (a : Assembly) (change : Impl.Chat.Change) (he : Emits a) :
    Grows a (a.delta inputs change) ∧ Emits (a.delta inputs change) ∧ Carries (a.delta inputs change) change := by
  cases change with
  | conversation id => exact conversation_spec inputs a id he
  | devices =>
    have hg : Grows a (a.delta inputs .devices) :=
      ⟨List.Subset.refl _, List.Subset.refl _, List.Subset.refl _, fun _ => rfl, id⟩
    exact ⟨hg, fun i hi => (he i hi).grows hg, rfl⟩
  | requests =>
    have hg : Grows a (a.delta inputs .requests) :=
      ⟨List.Subset.refl _, List.Subset.refl _, List.Subset.refl _, id, fun _ => rfl⟩
    exact ⟨hg, fun i hi => (he i hi).grows hg, rfl⟩
  | goneMessages id seqs => exact goneMessages_spec inputs a id seqs he

theorem group_spec (a : Assembly) (group : List Delta) (he : Emits a) :
    Grows a (group.foldl (fun a d => a.delta inputs d.change) a) ∧
      Emits (group.foldl (fun a d => a.delta inputs d.change) a) ∧
      ∀ d ∈ group, Carries (group.foldl (fun a d => a.delta inputs d.change) a) d.change := by
  induction group generalizing a with
  | nil => exact ⟨.refl a, he, nofun⟩
  | cons d group ih =>
    obtain ⟨hg, hem, hc⟩ := delta_spec inputs a d.change he
    obtain ⟨hg', hem', hc'⟩ := ih (a.delta inputs d.change) hem
    refine ⟨hg.trans hg', hem', fun e he => ?_⟩
    rcases mem_cons.1 he with rfl | he
    · exact hc.grows hg'
    · exact hc' e he

/-! ## Entries -/

def EntryOf (P : SyncConversation → Prop) : Prop :=
  ∀ (a : Assembly) (state : ConversationState) (floor : Int), stateOf inputs.states state.id = some state →
    state.seat = .live floor → P (a.entry inputs state floor).2

variable {P : SyncConversation → Prop}

theorem conversation_entries (h : EntryOf inputs P) (ha : ∀ entry ∈ a.convs, P entry) (id : Uuid) :
    ∀ entry ∈ (a.conversation inputs id).convs, P entry := by
  unfold Assembly.conversation
  split
  · exact ha
  · dsimp only
    cases hstate : stateOf inputs.states id with
    | none => simpa only [seatOf, hstate, elim_none] using ha
    | some state =>
      simp only [seatOf, hstate, elim_some]
      cases hseat : state.seat with
      | gone => exact ha
      | live floor =>
        obtain ⟨remaining, hfst⟩ := entry_fst inputs { a with emitted := id :: a.emitted } state floor
        intro entry hentry
        dsimp only at hentry
        rw [hfst] at hentry
        rcases mem_append.1 hentry with hentry | hentry
        · exact ha entry hentry
        · rw [mem_singleton.1 hentry]
          exact h _ state floor (by rw [stateOf_id hstate]; exact hstate) hseat

theorem delta_entries (h : EntryOf inputs P) (ha : ∀ entry ∈ a.convs, P entry)
    (change : Impl.Chat.Change) : ∀ entry ∈ (a.delta inputs change).convs, P entry := by
  cases change with
  | conversation id => exact conversation_entries inputs h ha id
  | devices | requests => exact ha
  | goneMessages id seqs =>
    unfold Assembly.delta
    induction seqs generalizing a with
    | nil => exact ha
    | cons seq seqs ih => exact ih ha

theorem groups_entries (h : EntryOf inputs P) (a : Assembly) (ha : ∀ entry ∈ a.convs, P entry) (processed : Bool)
    (gs : List (List Delta)) : ∀ entry ∈ (a.groups inputs processed gs).1.convs, P entry := by
  have hgroup : ∀ (group : List Delta) (a : Assembly), (∀ entry ∈ a.convs, P entry) →
      ∀ entry ∈ (group.foldl (fun a d => a.delta inputs d.change) a).convs, P entry := by
    intro group
    induction group with
    | nil => exact fun a ha => ha
    | cons d group ih => exact fun a ha => ih _ (delta_entries inputs h ha d.change)
  induction gs generalizing a processed with
  | nil => exact ha
  | cons group gs ih =>
    unfold Assembly.groups
    split
    · exact ha
    · intro entry hentry
      exact ih _ (by exact hgroup group a ha) true entry hentry

theorem assemble_entries (h : EntryOf inputs P) : ∀ entry ∈ (assemble inputs).convs, P entry := by
  have hfocused : ∀ entry ∈ (Assembly.focused inputs).convs, P entry := by
    have hstart : ∀ entry ∈ (Assembly.start inputs).convs, P entry := nofun
    unfold Assembly.focused
    split
    · split
      · exact conversation_entries inputs h hstart _
      · exact hstart
    · exact hstart
  unfold assemble
  dsimp only
  split <;> exact groups_entries inputs h _ hfocused false _

/-! ## Groups -/

/-- What the loop over the groups `gs` made of `a`: it put in a beginning of them. -/
structure Processed (a : Assembly) (processed : Bool) (gs : List (List Delta)) (r : Assembly × Bool)
    (done rest : List (List Delta)) : Prop where
  split : gs = done ++ rest
  grows : Grows a r.1
  emits : Emits r.1
  carries : ∀ g ∈ done, ∀ d ∈ g, Carries r.1 d.change
  complete : r.2 = true → rest = []
  stopped : rest = [] → r.2 = true
  progress : rest ≠ [] → done ≠ [] ∨ processed = true
  pos : r.1.pos = (done.getLast?.bind List.head?).elim a.pos Delta.version

theorem groups_spec (a : Assembly) (processed : Bool) (gs : List (List Delta)) (he : Emits a) (hne : ∀ g ∈ gs, g ≠ []) :
    ∃ done rest, Processed a processed gs (a.groups inputs processed gs) done rest := by
  induction gs generalizing a processed with
  | nil =>
    exact ⟨[], [], rfl, .refl a, he, fun g hg => (by cases hg), fun _ => rfl, fun _ => rfl,
      fun h => absurd rfl h, rfl⟩
  | cons group gs ih =>
    unfold Assembly.groups
    split
    · rename_i hstop
      exact ⟨[], group :: gs, rfl, .refl a, he, fun g hg => (by cases hg), fun h => (by cases h),
        fun h => (by cases h), fun _ => .inr hstop.1, rfl⟩
    · obtain ⟨hg, hem, hc⟩ := group_spec inputs a group he
      obtain ⟨d, rest, rfl⟩ := exists_cons_of_ne_nil (hne group (mem_cons_self ..))
      let a' : Assembly := { (d :: rest).foldl (fun a d => a.delta inputs d.change) a with pos := d.version }
      obtain ⟨done, rest', hp⟩ := ih a' true (fun i hi => (hem i hi).grows ⟨List.Subset.refl _, List.Subset.refl _,
        List.Subset.refl _, id, id⟩) fun g hg => hne g (mem_cons_of_mem _ hg)
      have hgrow : Grows a a' := ⟨hg.convs, hg.gone, hg.goneMsgs, hg.devices, hg.requests⟩
      refine ⟨(d :: rest) :: done, rest', ?_, hgrow.trans hp.grows, hp.emits, ?_, hp.complete, hp.stopped,
        fun _ => .inl (by simp), ?_⟩
      · rw [hp.split, cons_append]
      · intro g hgm e hem'
        rcases mem_cons.1 hgm with rfl | hgm
        · have hca : Carries a' e.change := hc e hem'
          exact hca.grows hp.grows
        · exact hp.carries g hgm e hem'
      · refine hp.pos.trans ?_
        cases done with
        | nil => rfl
        | cons g done =>
          rw [List.getLast?_cons_cons]
          have hg' : ((g :: done).getLast (by simp)) ≠ [] :=
            hne _ (mem_cons_of_mem _ (hp.split ▸ mem_append_left _ (getLast_mem _)))
          rw [List.getLast?_eq_some_getLast (by simp)]
          obtain ⟨e, l, hl⟩ := exists_cons_of_ne_nil hg'
          simp [hl]

def InOrder (deltas : List Delta) : Prop := deltas.Pairwise fun d e => d.version ≤ e.version

theorem InOrder.sublist {deltas' : List Delta} (h : InOrder deltas) (hs : deltas'.Sublist deltas) :
    InOrder deltas' := List.Pairwise.sublist hs h

/-- Deltas in the order of their versions: what is left after a beginning of the groups is newer than it. -/
theorem version_lt_of_rest (horder : InOrder deltas) {done rest : List (List Delta)}
    (hsplit : deltas.splitBy (fun d e => d.version = e.version) = done ++ rest) {g : List Delta}
    (hg : done.getLast? = some g) {d e : Delta} (hd : d ∈ g) (he : e ∈ rest.flatten) : d.version < e.version := by
  have : Std.Refl fun d e : Delta => d.version ≤ e.version := ⟨fun d => Nat.le_refl d.version⟩
  obtain ⟨init, rfl⟩ := List.getLast?_eq_some_iff.1 hg
  obtain ⟨h, t, rfl⟩ := exists_cons_of_ne_nil (l := rest) fun hnil => by
    rw [hnil] at he
    cases he
  have hchain := (isChain_append.1 (hsplit ▸ isChain_getLast_head_splitBy _ deltas)).2.2 g (by simp) h rfl
  obtain ⟨hgne, hhne, hne⟩ := hchain
  have horder' : ((init ++ [g]) ++ h :: t).flatten.Pairwise fun d e => d.version ≤ e.version := by
    rw [← hsplit, flatten_splitBy]
    exact horder
  rw [flatten_append] at horder'
  obtain ⟨hleft, hright, hcross⟩ := pairwise_append.1 horder'
  have hgmem : ∀ x ∈ g, x ∈ (init ++ [g]).flatten := fun x hx =>
    mem_flatten.2 ⟨g, mem_append_right _ (mem_singleton_self g), hx⟩
  have hlast : d.version ≤ (g.getLast hgne).version :=
    List.Pairwise.rel_getLast ((pairwise_flatten.1 hleft).1 g (mem_append_right _ (mem_singleton_self g))) hd
  have hhead : (h.head hhne).version ≤ e.version := by
    have := List.Pairwise.rel_head hright he
    simpa [head_append_of_ne_nil, hhne] using this
  have hstep : (g.getLast hgne).version ≤ (h.head hhne).version :=
    hcross _ (hgmem _ (getLast_mem hgne)) _ (by simp [head_mem])
  have := of_decide_eq_false hne
  omega

/-! ## The answer -/

theorem focused_emits : Emits (.focused inputs) := by
  have hstart : Emits (.start inputs) := nofun
  unfold Assembly.focused
  split
  · split
    · exact (conversation_spec inputs _ _ hstart).2.1
    · exact hstart
  · exact hstart

/-- The answer carries every delta up to its position, which is the version or that of a delta. -/
theorem assemble_spec (horder : InOrder inputs.deltas) :
    (∀ d ∈ inputs.deltas, d.version ≤ (assemble inputs).pos → Carries (assemble inputs) d.change) ∧
      ((assemble inputs).pos = inputs.versions.version ∨ ∃ d ∈ inputs.deltas, (assemble inputs).pos = d.version) := by
  obtain ⟨done, rest, hp⟩ := groups_spec inputs (.focused inputs) false _ (focused_emits inputs)
    fun g hg => ne_nil_of_mem_splitBy hg
  have hdeltas : inputs.deltas = done.flatten ++ rest.flatten := by
    rw [← flatten_append, ← hp.split, flatten_splitBy]
  unfold assemble
  dsimp only
  split
  · rename_i hcomplete
    refine ⟨fun d hd _ => ?_, .inl rfl⟩
    rw [hdeltas, hp.complete hcomplete, flatten_nil, append_nil] at hd
    obtain ⟨g, hg, hdg⟩ := mem_flatten.1 hd
    exact (hp.carries g hg d hdg).grows ⟨List.Subset.refl _, List.Subset.refl _, List.Subset.refl _, id, id⟩
  · rename_i hcomplete
    -- the loop stopped at a group, after the first one
    have hrest : rest ≠ [] := fun hnil => hcomplete (hp.stopped hnil)
    have hdone : done ≠ [] := (hp.progress hrest).resolve_right Bool.false_ne_true
    have hlast : done.getLast? = some (done.getLast hdone) := List.getLast?_eq_some_getLast hdone
    have hmem : done.getLast hdone ∈ inputs.deltas.splitBy fun d e => d.version = e.version :=
      hp.split ▸ mem_append_left _ (getLast_mem hdone)
    obtain ⟨d, l, hg⟩ := exists_cons_of_ne_nil (ne_nil_of_mem_splitBy hmem)
    have hpos := hp.pos
    rw [hlast, hg, bind_some, List.head?_cons, elim_some] at hpos
    have hd : d ∈ done.getLast hdone := hg ▸ mem_cons_self ..
    refine ⟨fun e he hle => ?_, .inr ⟨d, ?_, hpos⟩⟩
    · rw [hdeltas] at he
      rcases mem_append.1 he with he | he
      · obtain ⟨g, hgm, heg⟩ := mem_flatten.1 he
        exact hp.carries g hgm e heg
      · have := version_lt_of_rest horder hp.split hlast hd he
        omega
    · rw [hdeltas]
      exact mem_append_left _ (mem_flatten.2 ⟨_, getLast_mem hdone, hd⟩)

/-- The deltas up to the position of a built answer are in it, or the caller does not see them. -/
theorem build_spec {ask : Ask} {changes : Changes} {cache : HotCache}
    {stored : Messages} {fetchedAt now : Int} (horder : InOrder changes.deltas) :
    (∀ d ∈ changes.deltas, d.version ≤ (build ask changes states cache stored fetchedAt now).pos →
      Carries (build ask changes states cache stored fetchedAt now) d.change ∨ hides ask states d.change = true) ∧
      ((build ask changes states cache stored fetchedAt now).pos = changes.versions.version ∨
        ∃ d ∈ changes.deltas, (build ask changes states cache stored fetchedAt now).pos = d.version) := by
  obtain ⟨hcarry, hpos⟩ := assemble_spec (inputsOf ask changes states cache stored fetchedAt now)
    (horder.sublist filter_sublist)
  refine ⟨fun d hd hle => ?_, hpos.imp_right fun ⟨d, hd, heq⟩ => ⟨d, (mem_filter.1 hd).1, heq⟩⟩
  cases hh : hides ask states d.change with
  | true => exact .inr rfl
  | false => exact .inl (hcarry d (mem_filter.2 ⟨hd, by rw [hh]; rfl⟩) hle)

end SC.Proof.Chat
