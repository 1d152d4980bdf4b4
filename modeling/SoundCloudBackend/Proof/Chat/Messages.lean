import SoundCloudBackend.Proof.Chat.Answer

/-!
# An answer skips no message

Rows are cut three times: the hot cache has a tail of a conversation, the query
a page within a budget, and the entry what fits into the answer. `Gapless` is
what each cut keeps: the rows are in order, above the position, and leave out no
stored message before their last one that has not expired.
-/

namespace SC.Proof.Chat

open Impl.Chat
open Impl.Replication (Uuid)
open List Option Function

variable {rows : List MessageRow} {row : MessageRow} {now : Int} {cache : HotCache} {id : Uuid} {wanted : List Fetch}
variable {f : Fetch}
variable {n floor : Int} {last : MessageRow} {found : Rows} {state : ConversationState} {known : Uuid → Option Int}
variable {states : List ConversationState} {ids : List Uuid}

/-! ## Rows without a gap -/

def Ascending (rows : List MessageRow) : Prop := rows.Pairwise fun row row' => row.seq < row'.seq

/-- The rows are stored ones after the position, and up to the last of them all that have not expired. -/
structure Gapless (stored : List MessageRow) (after now : Int) (rows : List MessageRow) : Prop where
  order : Ascending rows
  among : ∀ row ∈ rows, row ∈ stored ∧ after < row.seq
  all : ∀ row ∈ stored, after < row.seq → row.expired now = false → ∀ last ∈ rows, row.seq ≤ last.seq → row ∈ rows

theorem Gapless.nil (stored : List MessageRow) (after now : Int) : Gapless stored after now [] :=
  ⟨List.Pairwise.nil, fun row h => (by cases h), nofun⟩

theorem mem_take_of_seq_le (h : Ascending rows) {n : Nat}
    (hrow : row ∈ rows) (hlast : last ∈ rows.take n) (hle : row.seq ≤ last.seq) : row ∈ rows.take n := by
  rw [← take_append_drop n rows] at hrow h
  rcases mem_append.1 hrow with hrow | hrow
  · exact hrow
  · have := (pairwise_append.1 h).2.2 last hlast row hrow
    omega

theorem Gapless.take {stored : List MessageRow} {after : Int} (h : Gapless stored after now rows) (n : Nat) :
    Gapless stored after now (rows.take n) where
  order := List.Pairwise.sublist (take_sublist n rows) h.order
  among := fun row hrow => h.among row (mem_of_mem_take hrow)
  all := fun row hrow hafter hlive last hlast hle =>
    mem_take_of_seq_le h.order (h.all row hrow hafter hlive last (mem_of_mem_take hlast) hle) hlast hle

theorem not_expired_of_max {now' : Int} (h : row.expired (max now now') = false) :
    row.expired now = false ∧ row.expired now' = false := by
  unfold MessageRow.expired at h ⊢
  cases hat : row.expiresAt with
  | none => exact ⟨rfl, rfl⟩
  | some at_ =>
    rw [hat] at h
    have := of_decide_eq_false h
    exact ⟨decide_eq_false (by omega), decide_eq_false (by omega)⟩

theorem Gapless.live {stored : List MessageRow} {after : Int} (h : Gapless stored after now rows) (now' : Int) :
    Gapless stored after (max now now') (rows.filter fun row => row.seq > after ∧ !row.expired now') where
  order := List.Pairwise.sublist filter_sublist h.order
  among := fun row hrow => h.among row (mem_filter.1 hrow).1
  all := fun row hrow hafter hlive last hlast hle => by
    obtain ⟨hnow, hnow'⟩ := not_expired_of_max hlive
    have := h.all row hrow hafter hnow last (mem_filter.1 hlast).1 hle
    exact mem_filter.2 ⟨this, decide_eq_true ⟨hafter, by rw [hnow']; rfl⟩⟩

theorem gapless_filter {stored : List MessageRow} (h : Ascending stored) (after now : Int) :
    Gapless stored after now (stored.filter fun row => row.seq > after ∧ !row.expired now) where
  order := List.Pairwise.sublist filter_sublist h
  among := fun row hrow => ⟨(mem_filter.1 hrow).1, (of_decide_eq_true (mem_filter.1 hrow).2).1⟩
  all := fun row hrow hafter hlive _ _ _ =>
    mem_filter.2 ⟨hrow, decide_eq_true ⟨hafter, by rw [hlive]; rfl⟩⟩

/-! ## The hot cache -/

/-- The rows have the seqs from `n` on, one after another. -/
def Consecutive : Int → List MessageRow → Prop
  | _, [] => True
  | n, row :: rest => row.seq = n ∧ Consecutive (n + 1) rest

theorem consecutive_eq_some {found : List MessageRow} (h : HotCache.consecutive now n rows = some found) :
    Consecutive n rows ∧ found = rows.filter fun row => !row.expired now := by
  induction rows generalizing n found with
  | nil =>
    cases h
    exact ⟨trivial, rfl⟩
  | cons row rest ih =>
    unfold HotCache.consecutive at h
    split at h
    · cases h
    rename_i hseq
    obtain ⟨tail, htail, rfl⟩ := map_eq_some_iff.1 h
    obtain ⟨hc, rfl⟩ := ih htail
    refine ⟨⟨Decidable.of_not_not hseq, hc⟩, ?_⟩
    cases hexp : row.expired now <;> simp [hexp]

theorem Consecutive.le (h : Consecutive n rows) (hrow : row ∈ rows) : n ≤ row.seq := by
  induction rows generalizing n with
  | nil => cases hrow
  | cons first rest ih =>
    rcases mem_cons.1 hrow with rfl | hrow
    · exact Int.le_of_eq h.1.symm
    · have := ih h.2 hrow
      omega

theorem Consecutive.ascending (h : Consecutive n rows) : Ascending rows := by
  induction rows generalizing n with
  | nil => exact List.Pairwise.nil
  | cons first rest ih =>
    refine pairwise_cons.2 ⟨fun row hrow => ?_, ih h.2⟩
    have := h.2.le hrow
    have := h.1
    omega

theorem Consecutive.exists_seq {m : Int} (h : Consecutive n rows) (hn : n ≤ m)
    (hlast : last ∈ rows) (hm : m ≤ last.seq) : ∃ row ∈ rows, row.seq = m := by
  induction rows generalizing n with
  | nil => cases hlast
  | cons first rest ih =>
    by_cases hfirst : m = n
    · exact ⟨first, mem_cons_self .., h.1.trans hfirst.symm⟩
    · rcases mem_cons.1 hlast with rfl | hlast
      · have := h.1
        omega
      · obtain ⟨row, hrow, hseq⟩ := ih h.2 (by omega) hlast
        exact ⟨row, mem_cons_of_mem _ hrow, hseq⟩

theorem eq_of_seq_eq (h : Ascending rows) {row' : MessageRow} (hrow : row ∈ rows)
    (hrow' : row' ∈ rows) (hseq : row.seq = row'.seq) : row = row' := by
  induction rows with
  | nil => cases hrow
  | cons first rest ih =>
    obtain ⟨hfirst, hrest⟩ := pairwise_cons.1 h
    rcases mem_cons.1 hrow with rfl | hmem <;> rcases mem_cons.1 hrow' with rfl | hmem'
    · rfl
    · have := hfirst row' hmem'
      omega
    · have := hfirst row hmem
      omega
    · exact ih hrest hmem hmem'

theorem gapless_after {stored : List MessageRow} (hstored : Ascending stored)
    (hcache : ∀ rows, cache id = some rows → ∀ row ∈ rows, row ∈ stored) {seq : Int} {found : List MessageRow}
    (h : cache.after now id seq = some found) : Gapless stored seq now found := by
  unfold HotCache.after at h
  split at h
  · cases h
  · cases h
  · rename_i first rest hrows
    split_ifs at h
    obtain ⟨hc, rfl⟩ := consecutive_eq_some h
    have hmem : ∀ row, row ∈ (first :: rest).filter (fun row => row.seq > seq) → row ∈ stored ∧ seq < row.seq :=
      fun row hrow => ⟨hcache _ hrows row (mem_filter.1 hrow).1, of_decide_eq_true (mem_filter.1 hrow).2⟩
    refine ⟨List.Pairwise.sublist filter_sublist hc.ascending,
      fun row hrow => hmem row (mem_filter.1 hrow).1, ?_⟩
    intro row hrow hafter hlive last hlast hle
    obtain ⟨cached, hcached, hseq⟩ := hc.exists_seq (by omega) (mem_filter.1 hlast).1 hle
    obtain rfl := eq_of_seq_eq hstored (hmem cached hcached).1 hrow hseq
    exact mem_filter.2 ⟨hcached, by rw [hlive]; rfl⟩

/-! ## The query -/

theorem pick_eq_take (budget running : Int) (rows : List MessageRow) : ∃ n, pick budget running rows = rows.take n := by
  induction rows generalizing running with
  | nil => exact ⟨0, rfl⟩
  | cons row rest ih =>
    unfold pick
    dsimp only
    split
    · obtain ⟨n, hn⟩ := ih (running + row.bodyLength + 256)
      exact ⟨n + 1, by rw [hn, take_succ_cons]⟩
    · rename_i hover
      refine ⟨0, ?_⟩
      have hnone : ∀ (running : Int) (rows : List MessageRow), budget < running → pick budget running rows = [] := by
        intro running rows
        induction rows generalizing running with
        | nil => exact fun _ => rfl
        | cons row rest ih =>
          intro hlt
          unfold pick
          rw [ite_cond_eq_false _ _ (eq_false (by omega))]
          exact ih _ (by omega)
      rw [hnone _ rest (by omega), take_zero]

theorem filter_take_eq_take (p : MessageRow → Bool) (n : Nat) (rows : List MessageRow) :
    ∃ m, (rows.take n).filter p = (rows.filter p).take m := by
  have hsplit : rows.filter p = (rows.take n).filter p ++ (rows.drop n).filter p := by
    rw [← filter_append, take_append_drop]
  exact ⟨((rows.take n).filter p).length, by rw [hsplit, take_left]⟩

variable {stored : Messages} {now : Int}

theorem conversationId_of_mem_page {fetch : Fetch} (h : row ∈ page stored now fetch) :
    row.conversationId = fetch.conversation :=
  stored.conversation _ row (mem_filter.1 (mem_of_mem_take h)).1

theorem filter_flatMap_page (hnodup : (wanted.map Fetch.conversation).Nodup) {fetch : Fetch}
    (hfetch : fetch ∈ wanted) :
    (wanted.flatMap (page stored now)).filter (fun row => row.conversationId = fetch.conversation) =
      page stored now fetch := by
  have hother : ∀ f : Fetch, f.conversation ≠ fetch.conversation →
      (page stored now f).filter (fun row => row.conversationId = fetch.conversation) = [] := by
    intro f hne
    refine filter_eq_nil_iff.2 fun row hrow => ?_
    rw [conversationId_of_mem_page hrow]
    exact fun heq => hne (of_decide_eq_true heq)
  have hown : (page stored now fetch).filter (fun row => row.conversationId = fetch.conversation) =
      page stored now fetch :=
    filter_eq_self.2 fun row hrow => decide_eq_true (conversationId_of_mem_page hrow)
  induction wanted with
  | nil => cases hfetch
  | cons f rest ih =>
    obtain ⟨hf, hrest⟩ := nodup_cons.1 hnodup
    rw [flatMap_cons, filter_append]
    rcases mem_cons.1 hfetch with rfl | hfetch
    · have hnil : (rest.flatMap (page stored now)).filter (fun row => row.conversationId = fetch.conversation) = [] := by
        refine filter_eq_nil_iff.2 fun row hrow heq => hf ?_
        obtain ⟨g, hg, hrow⟩ := mem_flatMap.1 hrow
        rw [conversationId_of_mem_page hrow] at heq
        exact of_decide_eq_true heq ▸ mem_map_of_mem hg
      rw [hown, hnil, append_nil]
    · rw [hother f fun heq => hf (heq ▸ mem_map_of_mem hfetch), nil_append]
      exact ih hrest hfetch

theorem gapless_messagesAfter (hnodup : (wanted.map Fetch.conversation).Nodup) {fetch : Fetch}
    (hfetch : fetch ∈ wanted) (budget : Nat) : Gapless (stored.rows fetch.conversation) fetch.after now
      ((messagesAfter stored now wanted budget).filter fun row => row.conversationId = fetch.conversation) := by
  unfold messagesAfter
  obtain ⟨n, hn⟩ := pick_eq_take (min (budget : Int) (2 ^ 63 - 1)) 0 (wanted.flatMap (page stored now))
  obtain ⟨m, hm⟩ := filter_take_eq_take (fun row => row.conversationId = fetch.conversation) n
    (wanted.flatMap (page stored now))
  rw [hn, hm, filter_flatMap_page hnodup hfetch]
  exact ((gapless_filter (stored.order _) fetch.after now).take rowsPerConversation).take m

theorem filter_messagesAfter_of_notMem (hid : id ∉ wanted.map Fetch.conversation)
    (budget : Nat) : (messagesAfter stored now wanted budget).filter (fun row => row.conversationId = id) = [] := by
  unfold messagesAfter
  obtain ⟨n, hn⟩ := pick_eq_take (min (budget : Int) (2 ^ 63 - 1)) 0 (wanted.flatMap (page stored now))
  rw [hn]
  refine filter_eq_nil_iff.2 fun row hrow heq => hid ?_
  obtain ⟨f, hf, hrow⟩ := mem_flatMap.1 (mem_of_mem_take hrow)
  rw [conversationId_of_mem_page hrow] at heq
  exact of_decide_eq_true heq ▸ mem_map_of_mem hf

/-! ## The rows found -/

theorem getD_foldl_push (found : Rows) (rows : List MessageRow) (id : Uuid) :
    ((rows.foldl Rows.push found) id).getD [] =
      (found id).getD [] ++ rows.filter fun row => row.conversationId = id := by
  induction rows generalizing found with
  | nil => simp
  | cons row rest ih =>
    rw [foldl_cons, ih]
    by_cases hid : row.conversationId = id
    · subst hid
      simp [Rows.push]
    · simp [Rows.push, update_of_ne (Ne.symm hid), hid]

theorem hit_self (h : found f.conversation = none) :
    found.hit cache now f f.conversation = cache.after now f.conversation f.after := by
  unfold Rows.hit
  cases cache.after now f.conversation f.after with
  | none => exact h
  | some rows => exact update_self ..

theorem hit_of_ne (h : id ≠ f.conversation) : found.hit cache now f id = found id := by
  unfold Rows.hit
  cases cache.after now f.conversation f.after with
  | none => rfl
  | some rows => exact update_of_ne h ..

theorem foldl_hit_of_notMem
    (h : id ∉ wanted.map Fetch.conversation) (found : Rows) : wanted.foldl (Rows.hit cache now) found id = found id := by
  induction wanted generalizing found with
  | nil => rfl
  | cons f rest ih =>
    rw [map_cons, mem_cons, not_or] at h
    rw [foldl_cons, ih h.2, hit_of_ne h.1]

theorem foldl_hit_of_mem (hnodup : (wanted.map Fetch.conversation).Nodup)
    (hf : f ∈ wanted) (hfound : found f.conversation = none) :
    wanted.foldl (Rows.hit cache now) found f.conversation = cache.after now f.conversation f.after := by
  induction wanted generalizing found with
  | nil => cases hf
  | cons g rest ih =>
    obtain ⟨hg, hrest⟩ := nodup_cons.1 hnodup
    rw [foldl_cons]
    rcases mem_cons.1 hf with rfl | hf
    · rw [foldl_hit_of_notMem hg, hit_self hfound]
    · refine ih hrest hf ((hit_of_ne fun heq => hg ?_).trans hfound)
      exact heq ▸ mem_map_of_mem hf

/-- The rows found for a fetch leave no gap, whether they come from the cache or from the query. -/
theorem gapless_fetch (hcache : ∀ id rows, cache id = some rows → ∀ row ∈ rows, row ∈ stored.rows id)
    (hnodup : (wanted.map Fetch.conversation).Nodup) (hf : f ∈ wanted) (budget : Nat) :
    Gapless (stored.rows f.conversation) f.after now ((fetch cache stored now wanted budget f.conversation).getD []) := by
  have hmissed : ((wanted.filter fun f => (cache.after now f.conversation f.after).isNone).map
      Fetch.conversation).Nodup := hnodup.sublist (filter_sublist.map _)
  unfold fetch
  rw [getD_foldl_push, foldl_hit_of_mem hnodup hf rfl]
  cases hafter : cache.after now f.conversation f.after with
  | none =>
    rw [getD_none, nil_append]
    exact gapless_messagesAfter hmissed (mem_filter.2 ⟨hf, by rw [hafter]; rfl⟩) budget
  | some rows =>
    have hnot : f.conversation ∉ (wanted.filter fun f => (cache.after now f.conversation f.after).isNone).map
        Fetch.conversation := by
      intro hmem
      obtain ⟨g, hg, heq⟩ := mem_map.1 hmem
      obtain ⟨hgw, hnone⟩ := mem_filter.1 hg
      obtain rfl := inj_on_of_nodup_map hnodup hgw hf heq
      rw [hafter] at hnone
      cases hnone
    rw [filter_messagesAfter_of_notMem hnot, append_nil, getD_some]
    exact gapless_after (stored.order _) (hcache _) hafter

theorem fetch_of_notMem (hid : id ∉ wanted.map Fetch.conversation) (budget : Nat) :
    (fetch cache stored now wanted budget id).getD [] = [] := by
  have hnot : id ∉ (wanted.filter fun f => (cache.after now f.conversation f.after).isNone).map Fetch.conversation :=
    fun hmem => hid ((filter_sublist.map _).subset hmem)
  unfold fetch
  rw [getD_foldl_push, foldl_hit_of_notMem hid, filter_messagesAfter_of_notMem hnot]
  rfl

/-! ## The fetches of an answer -/

theorem answerOrder_nodup (ask : Ask) (deltas : List Delta) : (answerOrder ask deltas).Nodup := by
  have hfold : ∀ (ids seen : List Uuid), seen.Nodup →
      (ids.foldl (fun seen id => if id ∈ seen then seen else seen ++ [id]) seen).Nodup := by
    intro ids
    induction ids with
    | nil => exact fun seen h => h
    | cons id ids ih =>
      intro seen h
      refine ih _ ?_
      dsimp only
      split
      · exact h
      · rename_i hid
        exact nodup_append.2 ⟨h, nodup_singleton id, fun a ha b hb => by
          rw [mem_singleton.1 hb]
          exact fun heq => hid (heq ▸ ha)⟩
  exact hfold _ [] nodup_nil

theorem fetchFor_eq_some (h : fetchFor state known = some f) :
    f.conversation = state.id ∧ ∃ n floor, known state.id = some n ∧ state.seat = .live floor ∧ f.after = max n floor := by
  unfold fetchFor at h
  split at h
  · cases h
  rename_i floor hseat
  obtain ⟨n, hn, h⟩ := bind_eq_some_iff.1 h
  dsimp only at h
  split_ifs at h
  cases h
  exact ⟨rfl, n, floor, hn, hseat, rfl⟩

def wantedOf (states : List ConversationState) (known : Uuid → Option Int) (ids : List Uuid) : List Fetch :=
  ids.filterMap fun id => (stateOf states id).bind fun state => fetchFor state known

theorem wantedOf_nodup (h : ids.Nodup) : ((wantedOf states known ids).map Fetch.conversation).Nodup := by
  have hsub : ((wantedOf states known ids).map Fetch.conversation).Sublist ids := by
    induction ids with
    | nil => exact List.Sublist.slnil
    | cons id ids ih =>
      unfold wantedOf at ih ⊢
      rw [filterMap_cons]
      cases hf : (stateOf states id).bind fun state => fetchFor state known with
      | none => exact (ih (nodup_cons.1 h).2).cons id
      | some f =>
        obtain ⟨state, hstate, hf⟩ := bind_eq_some_iff.1 hf
        rw [map_cons, (fetchFor_eq_some hf).1, stateOf_id hstate]
        exact (ih (nodup_cons.1 h).2).cons_cons id
  exact h.sublist hsub

theorem gapless_rows (hcache : ∀ id rows, cache id = some rows → ∀ row ∈ rows, row ∈ stored.rows id)
    {states : List ConversationState} {known : Uuid → Option Int} {ids : List Uuid} (hids : ids.Nodup) (budget : Nat)
    {state : ConversationState} (hstate : stateOf states state.id = some state) {n floor : Int}
    (hknown : known state.id = some n) (hseat : state.seat = .live floor) :
    Gapless (stored.rows state.id) (max n floor) now
      ((fetch cache stored now (wantedOf states known ids) budget state.id).getD []) := by
  by_cases hmem : state.id ∈ (wantedOf states known ids).map Fetch.conversation
  · obtain ⟨f, hf, hid⟩ := mem_map.1 hmem
    have hgapless : Gapless _ _ now _ := gapless_fetch hcache (wantedOf_nodup hids) hf budget
    obtain ⟨id, -, hbind⟩ := mem_filterMap.1 hf
    obtain ⟨state', hstate', hfor⟩ := bind_eq_some_iff.1 hbind
    obtain ⟨hconv, n', floor', hn', hfloor', hafter⟩ := fetchFor_eq_some hfor
    -- the fetch was made for the same state
    obtain rfl : state' = state := by
      have hsame : id = state.id := (stateOf_id hstate').symm.trans (hconv.symm.trans hid)
      rw [hsame, hstate] at hstate'
      exact (some.inj hstate').symm
    rw [hn', some.injEq] at hknown
    rw [hfloor', Seat.live.injEq] at hseat
    rw [hafter, hknown, hseat, hid] at hgapless
    exact hgapless
  · rw [fetch_of_notMem hmem]
    exact .nil _ _ _

/-! ## Entries -/

theorem deliver_eq_take (remaining : Int) (rows : List MessageRow) : ∃ n, (deliver remaining rows).1 = rows.take n := by
  induction rows generalizing remaining with
  | nil => exact ⟨0, rfl⟩
  | cons row rest ih =>
    unfold deliver
    split
    · exact ⟨0, rfl⟩
    · obtain ⟨n, hn⟩ := ih (spend remaining row.cost)
      exact ⟨n + 1, by rw [take_succ_cons, ← hn]⟩

/-- The entry has the stored messages after the position, without a gap, none of which has expired; with `more =
false` all of them up to its last seq. What has expired neither when the rows are fetched nor when the answer is
assembled is in it. -/
structure Delivers (stored : List MessageRow) (after fetchedAt now : Int) (entry : SyncConversation) : Prop where
  order : entry.messages.Pairwise fun message message' => message.seq < message'.seq
  live : ∀ message ∈ entry.messages, message ∈ stored ∧ after < message.seq ∧ message.expired now = false
  gapless : ∀ row ∈ stored, row.expired (max fetchedAt now) = false → after < row.seq →
    ∀ last ∈ entry.messages, row.seq ≤ last.seq → row ∈ entry.messages
  ended : entry.more = false → ∀ row ∈ stored, row.expired (max fetchedAt now) = false → after < row.seq →
    row.seq ≤ entry.lastSeq → row ∈ entry.messages

theorem entry_delivers (inputs : Inputs) (a : Assembly)
    {stored : List MessageRow} {fetchedAt : Int} (hrows : ∀ n, inputs.known state.id = some n →
      Gapless stored (max n floor) fetchedAt ((inputs.rows state.id).getD [])) :
    Delivers stored ((inputs.known state.id).elim floor (max · floor)) fetchedAt inputs.now
      (a.entry inputs state floor).2 := by
  unfold Assembly.entry
  cases hknown : inputs.known state.id with
  | none =>
    refine ⟨List.Pairwise.nil, fun m h => (by cases h), fun row _ _ _ last h => (by cases h), fun hmore row _ _ hlt hle => ?_⟩
    have := of_decide_eq_false hmore
    simp only [elim_none] at hlt hle
    omega
  | some n =>
    have hlive := (hrows n hknown).live inputs.now
    have hsort := List.Pairwise.insertionSort_eq (r := fun left right : MessageRow => left.seq ≤ right.seq)
      (hlive.order.imp fun h => Int.le_of_lt h)
    simp only [elim_some]
    rw [hsort]
    obtain ⟨k, hk⟩ := deliver_eq_take (spend a.remaining conversationCost)
      (((inputs.rows state.id).getD []).filter fun row => row.seq > max n floor ∧ !row.expired inputs.now)
    rw [hk]
    have htake := hlive.take k
    refine ⟨htake.order, fun m hm => ?_, fun row hrow hexp hafter last hlast hle => ?_,
      fun hmore row hrow hexp hafter hle => ?_⟩
    · have hfilter := of_decide_eq_true (mem_filter.1 (mem_of_mem_take hm)).2
      exact ⟨(htake.among m hm).1, hfilter.1, by simpa using hfilter.2⟩
    · exact htake.all row hrow hafter hexp last hlast hle
    · have hdelivered := of_decide_eq_false hmore
      dsimp only at hle hdelivered
      generalize hmessages : List.take k _ = messages at htake hle hdelivered ⊢
      cases hlast : messages.getLast? with
      | none =>
        rw [hlast, elim_none] at hle hdelivered
        omega
      | some last =>
        rw [hlast, elim_some] at hle hdelivered
        exact htake.all row hrow hafter hexp last (mem_of_getLast? hlast) (by omega)

/-- An answer skips no message: every entry of a conversation delivers what is stored after the position. -/
theorem answer_skips_no_message {stored : Messages} {ops : List HotCache.Op}
    (hcache : ∀ id rows, HotCache.of ops id = some rows → ∀ row ∈ rows, row ∈ stored.rows id)
    (ask : Ask) (changes : Changes) (states : List ConversationState) (fetchedAt now : Int) :
    ∀ entry ∈ (build ask changes states (HotCache.of ops) stored fetchedAt now).convs,
      ∃ state ∈ states, state.id = entry.id ∧ ∃ floor, state.seat = .live floor ∧
        Delivers (stored.rows entry.id) ((ask.knownOf entry.id).elim floor (max · floor)) fetchedAt now entry := by
  refine assemble_entries _ fun a state floor hstate hseat => ?_
  have hmem : state ∈ states := (mem_filter.1 (mem_of_find?_eq_some hstate)).1
  rw [entry_id]
  refine ⟨state, hmem, rfl, floor, hseat, entry_delivers (inputsOf ..) a fun n hknown => ?_⟩
  exact gapless_rows hcache (answerOrder_nodup ask changes.deltas) ask.budget hstate hknown hseat

theorem mem_of_mem_trim (h : row ∈ HotCache.trim rows) : row ∈ rows := by
  induction rows with
  | nil => exact h
  | cons first rest ih =>
    unfold HotCache.trim at h
    split at h
    · exact mem_cons_of_mem first (ih h)
    · exact h

theorem mem_of_mem_insert {new : MessageRow} {rows' : List MessageRow} (h : HotCache.insert new rows = some rows')
    (hrow : row ∈ rows') : row = new ∨ row ∈ rows := by
  unfold HotCache.insert at h
  split at h
  · cases h
    obtain ⟨cached, hcached, rfl⟩ := mem_map.1 hrow
    split
    · exact .inl rfl
    · exact .inr hcached
  · split at h
    · split_ifs at h
      cases h
      exact .inl (mem_singleton.1 hrow)
    · cases h
      rcases mem_append.1 hrow with hrow | hrow
      · exact .inr (takeWhile_subset _ hrow)
      · exact (mem_cons.1 hrow).imp_right mem_of_mem_drop

theorem cached_put (ops : List HotCache.Op) (id : Uuid) (rows : List MessageRow) (h : HotCache.of ops id = some rows) :
    ∀ row ∈ rows, HotCache.Op.put row ∈ ops ∧ row.conversationId = id := by
  induction ops using List.reverseRecOn generalizing id rows with
  | nil => cases h
  | append_singleton ops op ih =>
    intro row hrow
    have hold : ∀ {id rows}, HotCache.of ops id = some rows → row ∈ rows →
        HotCache.Op.put row ∈ ops ++ [op] ∧ row.conversationId = id := fun h hrow =>
      ⟨mem_append_left _ (ih _ _ h row hrow).1, (ih _ _ h row hrow).2⟩
    unfold HotCache.of at h
    rw [foldl_append] at h
    cases op with
    | forget conversation =>
      by_cases hid : id = conversation
      · subst hid
        exact absurd (h.symm.trans (update_self ..)) (by simp)
      · exact hold ((update_of_ne hid ..).symm.trans h) hrow
    | put new =>
      change HotCache.put new (HotCache.of ops) id = some rows at h
      cases hnew : HotCache.insert new ((HotCache.of ops new.conversationId).getD []) with
      | none =>
        rw [HotCache.put, hnew] at h
        exact hold h hrow
      | some rows' =>
        rw [HotCache.put, hnew] at h
        by_cases hid : id = new.conversationId
        · subst hid
          dsimp only at h
          rw [update_self, some.injEq] at h
          rw [← h] at hrow
          rcases mem_of_mem_insert hnew (mem_of_mem_trim hrow) with rfl | hrow
          · exact ⟨mem_append_right _ (mem_singleton_self _), rfl⟩
          · cases hcached : HotCache.of ops new.conversationId with
            | none =>
              rw [hcached] at hrow
              cases hrow
            | some rows =>
              rw [hcached] at hrow
              exact hold hcached hrow
        · exact hold ((update_of_ne hid ..).symm.trans h) hrow

def messageAt (seq : Int) (expiresAt : Option Int) : MessageRow :=
  { conversationId := 7, seq := seq, senderUser := "u", body := none, expiresAt := expiresAt }

/-- Four messages, the third of which has expired at 10. -/
def fourMessages : Messages where
  rows id := if id = 7 then [messageAt 1 none, messageAt 2 none, messageAt 3 (some 10), messageAt 4 none] else []
  conversation id row h := by
    split at h
    · rename_i hid
      subst hid
      revert row
      decide
    · cases h
  order id := by
    split
    · decide
    · exact List.Pairwise.nil

def groupAt (floor : Int) : ConversationState where
  id := 7
  kind := .group
  lastSeq := 4
  keyEpoch := 0
  seat := .live floor

def focusPoll (budget : Nat) : Ask where
  known := [(7, 1)]
  focus := some 7
  includeFocus := true
  budget := budget
  seesPublic := true

def answerAt (budget : Nat) (floor : Int) : Assembly :=
  build (focusPoll budget) ⟨⟨0, 0, none, false⟩, []⟩ [groupAt floor]
    (HotCache.of [.put (messageAt 3 (some 10)), .put (messageAt 4 none)]) fourMessages 9 10

/-- The first answer comes from the cache, the second from the query and ends for its budget. -/
theorem answer_skips_no_message_expired :
    ((answerAt 2000 2).convs.map fun entry => (entry.messages.map MessageRow.seq, entry.more)) = [([4], false)] ∧
      ((answerAt 600 0).convs.map fun entry => (entry.messages.map MessageRow.seq, entry.more)) = [([2], true)] ∧
      ∀ entry ∈ (answerAt 600 0).convs, ∃ state ∈ [groupAt 0], state.id = entry.id ∧
        ∃ floor, state.seat = .live floor ∧ Delivers (fourMessages.rows entry.id)
          (((focusPoll 600).knownOf entry.id).elim floor (max · floor)) 9 10 entry := by
  refine ⟨by decide +kernel, by decide +kernel, answer_skips_no_message (fun id rows h row hrow => ?_) _ _ _ 9 10⟩
  obtain ⟨hput, rfl⟩ := cached_put _ id rows h row hrow
  simp only [mem_cons, HotCache.Op.put.injEq, not_mem_nil, or_false] at hput
  rcases hput with rfl | rfl <;> decide

end SC.Proof.Chat
