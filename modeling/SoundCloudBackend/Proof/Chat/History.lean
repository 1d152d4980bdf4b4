import SoundCloudBackend.Impl.Chat.History

/-!
# Walking the history

A page is a beginning of the rows, and not all of them exactly if it says so (`fit_spec`).
`Section` is what a page holds of the messages ahead, for both directions; pages that hold
the sections of a list one after another hold all of it (`walk_sections`).
-/

namespace SC.Proof.Chat.History

open Impl.Chat.History
open Impl.Chat.Store (Row ChatError)
open List

variable {json : MessageView → List UInt8} {byteCap : Nat}
variable {start : Option Int} {page : HistoryPage} {before after : Int} {row : Row}

/-! ## The bytes of a page -/

def pageBytes (json : MessageView → List UInt8) (messages : List MessageView) : Nat :=
  pageFrame + (messages.map fun message => (json message).length).sum + (messages.length - 1)

theorem pageBytes_concat (messages : List MessageView) (view : MessageView) : pageBytes json (messages ++ [view]) =
      pageBytes json messages + (json view).length + if messages = [] then 0 else 1 := by
  cases messages with
  | nil => simp [pageBytes]
  | cons message rest =>
    simp [pageBytes]
    omega

theorem pageBytes_reverse (messages : List MessageView) : pageBytes json messages.reverse = pageBytes json messages := by
  simp [pageBytes, sum_reverse]

theorem length_intercalate (texts : List (List UInt8)) :
    (List.intercalate (bytesOf ",") texts).length = (texts.map List.length).sum + (texts.length - 1) := by
  have hcomma : (bytesOf ",").length = 1 := by decide
  induction texts with
  | nil => rfl
  | cons text rest ih =>
    cases rest with
    | nil => simp
    | cons text' rest =>
      rw [intercalate_cons_cons, length_append, length_append, ih, hcomma]
      simp only [map_cons, sum_cons, length_cons]
      omega

theorem length_encode_le (page : HistoryPage) : (page.encode json).length ≤ pageBytes json page.messages := by
  have hopen : (bytesOf "\x7b\"messages\":[").length = 13 := by decide
  have hmiddle : (bytesOf "],\"more\":").length = 9 := by decide
  have hmore : (bytesOf (if page.more then "true" else "false")).length ≤ 5 := by
    split <;> decide
  have hclose : (bytesOf "\x7d").length = 1 := by decide
  have hframe : pageFrame = 28 := by decide
  simp only [HistoryPage.encode, length_append, length_intercalate, hopen, hmiddle, hclose, pageBytes, hframe,
    map_map, length_map]
  have hsum : (page.messages.map (List.length ∘ json)).sum = (page.messages.map fun m => (json m).length).sum := rfl
  omega

/-! ## One page -/

/-- The messages keep to the byte cap, or there is at most one. -/
def Within (json : MessageView → List UInt8) (byteCap : Nat) (messages : List MessageView) : Prop :=
  messages.length ≤ 1 ∨ pageBytes json messages ≤ byteCap

theorem fitLoop_spec (rows : List Row) {messages : List MessageView} (hwithin : Within json byteCap messages) :
    ∃ k ≤ rows.length, (messages = [] → rows ≠ [] → 0 < k) ∧
      Within json byteCap (messages ++ (rows.take k).map MessageView.ofRow) ∧
      fitLoop json byteCap rows (pageBytes json messages) messages =
        (messages ++ (rows.take k).map MessageView.ofRow, decide (k < rows.length)) := by
  induction rows generalizing messages with
  | nil => exact ⟨0, Nat.le_refl _, nofun, by simpa using hwithin, by simp [fitLoop]⟩
  | cons row rest ih =>
    simp only [fitLoop, ← pageBytes_concat]
    split
    · rename_i hspent
      exact ⟨0, Nat.zero_le _, fun hnil => absurd hnil hspent.1, by simpa using hwithin, by simp⟩
    · rename_i hfits
      have hnext : Within json byteCap (messages ++ [MessageView.ofRow row]) := by
        by_cases hnil : messages = []
        · exact .inl (by simp [hnil])
        · exact .inr (Nat.le_of_not_lt fun hlt => hfits ⟨hnil, hlt⟩)
      obtain ⟨k, hk, -, hwithin, hloop⟩ := ih hnext
      refine ⟨k + 1, Nat.succ_le_succ hk, fun _ _ => Nat.succ_pos k, ?_, ?_⟩
      · simpa using hwithin
      · rw [hloop]
        simp

theorem fit_spec (rows : List Row) (limit : Nat) : ∃ k ≤ rows.length, k ≤ limit ∧ (0 < limit → rows ≠ [] → 0 < k) ∧
      Within json byteCap ((rows.take k).map MessageView.ofRow) ∧
      fit json rows limit byteCap = ⟨(rows.take k).map MessageView.ofRow, decide (k < rows.length)⟩ := by
  have hempty : Within json byteCap [] := .inl (Nat.zero_le _)
  obtain ⟨k, hk, hpos, hwithin, hloop⟩ := fitLoop_spec (rows.take limit) hempty
  have hframe : pageBytes json [] = pageFrame := rfl
  rw [length_take] at hk
  have htake : (rows.take limit).take k = rows.take k := by
    rw [take_take, Nat.min_eq_left (by omega)]
  rw [hframe] at hloop
  rw [htake, nil_append] at hloop hwithin
  refine ⟨k, by omega, by omega, fun hlimit hrows => hpos rfl ?_, hwithin, ?_⟩
  · cases rows with
    | nil => exact absurd rfl hrows
    | cons row rest =>
      obtain ⟨n, rfl⟩ := Nat.exists_eq_succ_of_ne_zero (Nat.pos_iff_ne_zero.1 hlimit)
      exact cons_ne_nil _ _
  · have hmore : (decide (rows.length > limit) || decide (k < (rows.take limit).length)) = decide (k < rows.length) := by
      rw [length_take, ← Bool.decide_or, decide_eq_decide]
      omega
    simp only [fit, hloop, hmore]

theorem rowsLimit_pos (limit : Option Nat) : 0 < rowsLimit limit := by
  cases limit with
  | none => decide
  | some limit =>
    simp only [rowsLimit]
    split
    · rename_i hpos
      exact Nat.lt_min.2 ⟨hpos, (by decide : 0 < pageRowsMax)⟩
    · decide

/-! ## Both directions -/

section Direction

variable {r : Row → Row → Prop} {ahead : List Row} {k : Nat}

/-- Of rows in the order of the walk, a beginning leaves some exactly if one lies beyond all of it. -/
theorem lt_length_iff_beyond (horder : ahead.Pairwise r) (hirrefl : ∀ row, ¬ r row row) (hk : k ≤ ahead.length) :
    k < ahead.length ↔ ∃ row ∈ ahead, ∀ row' ∈ ahead.take k, r row' row := by
  have hsplit := take_append_drop k ahead
  constructor
  · intro hlt
    obtain ⟨row, hrow⟩ := exists_mem_of_ne_nil (ahead.drop k) (by simpa using hlt)
    rw [← hsplit, pairwise_append] at horder
    exact ⟨row, mem_of_mem_drop hrow, fun row' hrow' => horder.2.2 row' hrow' row hrow⟩
  · rintro ⟨row, hrow, hbeyond⟩
    refine Nat.lt_of_le_of_ne hk fun heq => hirrefl row (hbeyond row ?_)
    rwa [heq, take_length]

theorem filter_beyond [∀ row, DecidablePred (r row)] (horder : ahead.Pairwise r) (hasymm : ∀ {x y}, r x y → ¬ r y x)
    {last : Row} (hlast : (ahead.take k).getLast? = some last) : ahead.filter (fun row => r last row) = ahead.drop k := by
  have hsplit := take_append_drop k ahead
  obtain ⟨front, hfront⟩ := List.getLast?_eq_some_iff.1 hlast
  rw [← hsplit, pairwise_append] at horder
  obtain ⟨htake, -, hcross⟩ := horder
  have hnot : (ahead.take k).filter (fun row => r last row) = [] := by
    rw [filter_eq_nil_iff]
    intro row hrow
    rw [hfront] at hrow htake
    have hle : ¬ r last row := by
      rcases mem_append.1 hrow with hrow | hrow
      · exact hasymm ((pairwise_append.1 htake).2.2 row hrow last (mem_singleton.2 rfl))
      · obtain rfl := mem_singleton.1 hrow
        exact fun hself => hasymm hself hself
    simpa using hle
  have hall : (ahead.drop k).filter (fun row => r last row) = ahead.drop k := by
    rw [filter_eq_self]
    intro row hrow
    exact decide_eq_true (hcross last (mem_of_getLast? hlast) row hrow)
  conv_lhs => rw [← hsplit]
  rw [filter_append, hnot, hall, nil_append]

end Direction

/-- The page is a section of the rows ahead, turned to the order of the page, and knows if it is not all of them. -/
def Section (json : MessageView → List UInt8) (byteCap : Nat) (turn : List MessageView → List MessageView)
    (ahead : List Row) (page : HistoryPage) : Prop :=
  ∃ k ≤ ahead.length, (ahead ≠ [] → 0 < k) ∧ Within json byteCap ((ahead.take k).map MessageView.ofRow) ∧
    page = ⟨turn ((ahead.take k).map MessageView.ofRow), decide (k < ahead.length)⟩

section Walk

variable {readAt : Option Int → Except ChatError HistoryPage} {edge : HistoryPage → Option MessageView}

theorem walk_end (hpage : readAt start = .ok page) (hmore : page.more = false)
    (fuel : Nat) : walk readAt edge (fuel + 1) start = some [page] := by
  simp [walk, hpage, hmore]

theorem walk_next {message : MessageView} (hpage : readAt start = .ok page)
    (hmore : page.more = true) (hedge : edge page = some message) (fuel : Nat) :
    walk readAt edge (fuel + 1) start = (walk readAt edge fuel (some message.seq)).map (page :: ·) := by
  simp [walk, hpage, hmore, hedge]

/-- Pages that are the sections of what is ahead of the edge of the page before come to an end, and hold all of it. -/
theorem walk_sections (edge : HistoryPage → Option MessageView) (turn : List MessageView → List MessageView)
    (ahead : Option Int → List Row) (from_ : Option Int → Prop) (hfrom : ∀ seq, from_ (some seq))
    (hread : ∀ start, from_ start → ∃ page, readAt start = .ok page ∧ Section json byteCap turn (ahead start) page)
    (hturn : ∀ shown, turn (turn shown) = shown) (hedge : ∀ shown more, edge ⟨turn shown, more⟩ = shown.getLast?)
    (hnext : ∀ start k row, ((ahead start).take k).getLast? = some row → ahead (some row.seq) = (ahead start).drop k)
    {n : Nat} (hstart : from_ start) (hn : (ahead start).length ≤ n) :
    ∃ pages, walk readAt edge (n + 1) start = some pages ∧ (∀ page ∈ pages, ∃ start, readAt start = .ok page) ∧
      pages.flatMap (fun page => turn page.messages) = (ahead start).map MessageView.ofRow := by
  induction n generalizing start with
  | zero =>
    obtain ⟨page, hpage, k, -, -, -, hsection⟩ := hread start hstart
    have hnil : ahead start = [] := eq_nil_of_length_eq_zero (Nat.le_zero.1 hn)
    refine ⟨[page], walk_end hpage (by simp [hsection, hnil]) 0, fun page' hmem => ⟨start, ?_⟩, ?_⟩
    · rwa [mem_singleton.1 hmem]
    · simp [hsection, hturn, hnil]
  | succ n ih =>
    obtain ⟨page, hpage, k, hk, hpos, -, hsection⟩ := hread start hstart
    by_cases hmore : k < (ahead start).length
    · -- the page is not empty, and the walk goes on from its last row
      have hk0 : 0 < k := hpos (ne_nil_of_length_pos (by omega))
      obtain ⟨last, hlast⟩ : ∃ last, ((ahead start).take k).getLast? = some last := by
        rw [← Option.isSome_iff_exists, List.getLast?_isSome]
        intro hnil
        have := congrArg List.length hnil
        rw [length_take, length_nil] at this
        omega
      have hdrop := hnext start k last hlast
      have hlength : (ahead (some last.seq)).length ≤ n := by
        rw [hdrop, length_drop]
        omega
      have hmessage : edge page = some (MessageView.ofRow last) := by
        rw [hsection, hedge, List.getLast?_map, hlast, Option.map_some]
      obtain ⟨pages, hwalk, hpages, hall⟩ := ih (hfrom _) hlength
      refine ⟨page :: pages, ?_, fun page' hmem => ?_, ?_⟩
      · rw [walk_next hpage (by simp [hsection, hmore]) hmessage]
        exact congrArg (Option.map (page :: ·)) hwalk
      · rcases mem_cons.1 hmem with rfl | hmem
        · exact ⟨start, hpage⟩
        · exact hpages page' hmem
      · rw [flatMap_cons, hall, hdrop, hsection, hturn, ← map_append, take_append_drop]
    · have hfull : k = (ahead start).length := by omega
      refine ⟨[page], walk_end hpage (by simp [hsection, hmore]) (n + 1), fun page' hmem => ⟨start, ?_⟩, ?_⟩
      · rwa [mem_singleton.1 hmem]
      · rw [flatMap_singleton, hsection, hturn, hfull, take_length]

end Walk

/-! ## Reads -/

def visible (stored : Stored) (now floor : Int) : List Row :=
  stored.rows.filter fun row => row.seq > floor ∧ live now row

def visibleBefore (stored : Stored) (now floor before : Int) : List Row :=
  (stored.rows.filter fun row => row.seq < before ∧ row.seq > floor ∧ live now row).reverse

variable {stored : Stored} {now floor : Int} {limit : Option Nat}

theorem visible_order (stored : Stored) (now floor : Int) :
    (visible stored now floor).Pairwise fun row row' => row.seq < row'.seq :=
  stored.order.sublist filter_sublist

theorem visibleBefore_order (stored : Stored) (now floor before : Int) :
    (visibleBefore stored now floor before).Pairwise fun row row' => row'.seq < row.seq :=
  pairwise_reverse.2 (stored.order.sublist filter_sublist)

theorem mem_visibleBefore :
    row ∈ visibleBefore stored now floor before ↔ row ∈ visible stored now floor ∧ row.seq < before := by
  simp only [visibleBefore, visible, mem_reverse, mem_filter, decide_eq_true_eq]
  tauto

theorem read_before (json : MessageView → List UInt8) (stored : Stored) (now floor : Int) (limit : Option Nat)
    (byteCap : Nat) (before : Option Int) :
    ∃ page, read json stored now floor ⟨none, before, limit⟩ byteCap = .ok page ∧
      Section json byteCap List.reverse (visibleBefore stored now floor (before.getD i64Max)) page := by
  have hlimit := rowsLimit_pos limit
  refine ⟨_, rfl, ?_⟩
  have hrows : stored.before now (before.getD i64Max) floor (rowsLimit limit + 1) =
      (visibleBefore stored now floor (before.getD i64Max)).take (rowsLimit limit + 1) := rfl
  rw [hrows]
  generalize visibleBefore stored now floor (before.getD i64Max) = ahead
  have hkept : (ahead.take (rowsLimit limit + 1)).take (rowsLimit limit) = ahead.take (rowsLimit limit) := by
    rw [take_take, Nat.min_eq_left (Nat.le_succ _)]
  rw [hkept]
  obtain ⟨k, hk, -, hpos, hwithin, hfit⟩ :=
    @fit_spec json byteCap (ahead.take (rowsLimit limit)) (ahead.take (rowsLimit limit)).length
  rw [length_take] at hk hpos
  have htake : (ahead.take (rowsLimit limit)).take k = ahead.take k := by
    rw [take_take, Nat.min_eq_left (by omega)]
  rw [htake] at hwithin hfit
  refine ⟨k, by omega, fun hne => ?_, hwithin, ?_⟩
  · have hlength := length_pos_iff.2 hne
    refine hpos (by omega) fun hnil => ?_
    have := congrArg List.length hnil
    rw [length_take, length_nil] at this
    omega
  · have hmore : (decide (k < (ahead.take (rowsLimit limit)).length) ||
        decide ((ahead.take (rowsLimit limit + 1)).length > rowsLimit limit)) = decide (k < ahead.length) := by
      rw [length_take, length_take, ← Bool.decide_or, decide_eq_decide]
      omega
    simp only [hfit, hmore]

theorem read_after (json : MessageView → List UInt8) (stored : Stored) (now floor : Int) (limit : Option Nat)
    (byteCap : Nat) (after : Int) :
    ∃ page, read json stored now floor ⟨some after, none, limit⟩ byteCap = .ok page ∧
      Section json byteCap id (visible stored now (if after < floor then floor else after)) page := by
  have hlimit := rowsLimit_pos limit
  refine ⟨_, rfl, ?_⟩
  have hrows : stored.after now (if after < floor then floor else after) (rowsLimit limit + 1) =
      (visible stored now (if after < floor then floor else after)).take (rowsLimit limit + 1) := rfl
  rw [hrows]
  generalize visible stored now (if after < floor then floor else after) = ahead
  obtain ⟨k, hk, hkl, hpos, hwithin, hfit⟩ :=
    @fit_spec json byteCap (ahead.take (rowsLimit limit + 1)) (rowsLimit limit)
  rw [length_take] at hk
  have htake : (ahead.take (rowsLimit limit + 1)).take k = ahead.take k := by
    rw [take_take, Nat.min_eq_left (by omega)]
  rw [htake] at hwithin hfit
  refine ⟨k, by omega, fun hne => hpos hlimit ?_, hwithin, ?_⟩
  · intro hnil
    have hlength := length_pos_iff.2 hne
    have := congrArg List.length hnil
    rw [length_take, length_nil] at this
    omega
  · have hmore : decide (k < (ahead.take (rowsLimit limit + 1)).length) = decide (k < ahead.length) := by
      rw [length_take, decide_eq_decide]
      omega
    rw [hfit, hmore, id_eq]

/-! ## Walks -/

/-- A page is in the order of the seqs, knows if a message is left beyond it, and keeps to the byte cap unless it holds
at most one message. -/
structure PageOk (json : MessageView → List UInt8) (byteCap : Nat) (page : HistoryPage) (left : Prop) : Prop where
  order : page.messages.Pairwise fun message message' => message.seq < message'.seq
  more : page.more = true ↔ left
  bytes : (page.encode json).length ≤ byteCap ∨ page.messages.length ≤ 1

theorem Within.bytes {shown : List MessageView} (h : Within json byteCap shown)
    (hlength : page.messages.length = shown.length) (hbytes : pageBytes json page.messages = pageBytes json shown) :
    (page.encode json).length ≤ byteCap ∨ page.messages.length ≤ 1 := by
  rcases h with hone | hcap
  · exact .inr (hlength ▸ hone)
  · exact .inl (Nat.le_trans (length_encode_le page) (hbytes ▸ hcap))

theorem pageOk_before (h : Section json byteCap List.reverse (visibleBefore stored now floor before) page) :
    PageOk json byteCap page
      (∃ row ∈ visible stored now floor, row.seq < before ∧ ∀ message ∈ page.messages, row.seq < message.seq) := by
  obtain ⟨k, hk, -, hwithin, rfl⟩ := h
  have horder := visibleBefore_order stored now floor before
  refine ⟨?_, ?_, hwithin.bytes length_reverse (pageBytes_reverse _)⟩
  · exact pairwise_reverse.2 (pairwise_map.2 (horder.sublist (take_sublist _ _)))
  · refine decide_eq_true_iff.trans ((lt_length_iff_beyond horder (fun row => Int.lt_irrefl _) hk).trans ?_)
    simp only [mem_visibleBefore, mem_reverse, forall_mem_map, and_assoc]
    rfl

theorem pageOk_after (h : Section json byteCap id (visible stored now after) page) : PageOk json byteCap page
      (∃ row ∈ visible stored now after, ∀ message ∈ page.messages, message.seq < row.seq) := by
  obtain ⟨k, hk, -, hwithin, rfl⟩ := h
  have horder := visible_order stored now after
  refine ⟨?_, ?_, hwithin.bytes rfl rfl⟩
  · exact pairwise_map.2 (horder.sublist (take_sublist _ _))
  · refine decide_eq_true_iff.trans ((lt_length_iff_beyond horder (fun row => Int.lt_irrefl _) hk).trans ?_)
    simp only [id_eq, forall_mem_map]
    rfl

theorem visibleBefore_next {k : Nat}
    (hlast : ((visibleBefore stored now floor before).take k).getLast? = some row) :
    visibleBefore stored now floor row.seq = (visibleBefore stored now floor before).drop k := by
  have hmem := mem_of_mem_take (mem_of_getLast? hlast)
  have hlt := (mem_visibleBefore.1 hmem).2
  rw [← filter_beyond (visibleBefore_order stored now floor before) (fun h h' => by omega) hlast, visibleBefore,
    visibleBefore, filter_reverse, filter_filter]
  congr 1
  refine filter_congr fun row' _ => ?_
  rw [← Bool.decide_and, decide_eq_decide]
  constructor
  · rintro ⟨hlt', hrest⟩
    exact ⟨hlt', by omega, hrest⟩
  · rintro ⟨hlt', -, hrest⟩
    exact ⟨hlt', hrest⟩

theorem visible_next {k : Nat} (hlast : ((visible stored now after).take k).getLast? = some row) :
    visible stored now row.seq = (visible stored now after).drop k := by
  have hmem := mem_of_mem_take (mem_of_getLast? hlast)
  have hgt := (of_decide_eq_true (mem_filter.1 hmem).2).1
  rw [← filter_beyond (visible_order stored now after) (fun h h' => by omega) hlast, visible, visible,
    filter_filter]
  refine filter_congr fun row' _ => ?_
  rw [← Bool.decide_and, decide_eq_decide]
  constructor
  · rintro ⟨hgt', hlive⟩
    exact ⟨hgt', by omega, hlive⟩
  · rintro ⟨hgt', -, hlive⟩
    exact ⟨hgt', hlive⟩

theorem walked_back (json : MessageView → List UInt8) (stored : Stored) (now floor : Int) (limit : Option Nat)
    (byteCap : Nat) (hseq : ∀ row ∈ stored.rows, row.seq < i64Max) :
    ∃ fuel pages, walkBack json stored now floor limit byteCap fuel = some pages ∧
      (∀ page ∈ pages, ∃ before, read json stored now floor ⟨none, before, limit⟩ byteCap = .ok page) ∧
      pages.reverse.flatMap HistoryPage.messages = (visible stored now floor).map MessageView.ofRow := by
  obtain ⟨pages, hwalk, hpages, hall⟩ := walk_sections (fun page => page.messages.head?) List.reverse
    (fun before => visibleBefore stored now floor (before.getD i64Max)) (fun _ => True) (fun _ => trivial)
    (fun before _ => read_before json stored now floor limit byteCap before) reverse_reverse
    (fun _ _ => List.head?_reverse) (fun _ _ _ hlast => visibleBefore_next hlast) (@trivial) (Nat.le_refl _)
  refine ⟨_, pages, hwalk, hpages, ?_⟩
  have hreverse : pages.reverse.flatMap HistoryPage.messages =
      (pages.flatMap fun page => page.messages.reverse).reverse := by
    rw [reverse_flatMap]
    simp only [Function.comp_def, reverse_reverse]
  have hvisible : (stored.rows.filter fun row => row.seq < i64Max ∧ row.seq > floor ∧ live now row) =
      visible stored now floor := by
    refine filter_congr fun row hrow => ?_
    simp [hseq row hrow]
  rw [hreverse, hall, visibleBefore, map_reverse, reverse_reverse, Option.getD_none, hvisible]

theorem walked_forward (json : MessageView → List UInt8) (stored : Stored) (now floor : Int) (limit : Option Nat)
    (byteCap : Nat) (start : Int) :
    ∃ fuel pages, walkForward json stored now floor limit byteCap start fuel = some pages ∧
      (∀ page ∈ pages, ∃ after, read json stored now floor ⟨after, none, limit⟩ byteCap = .ok page) ∧
      pages.flatMap HistoryPage.messages =
        (visible stored now (if start < floor then floor else start)).map MessageView.ofRow := by
  have hnext : ∀ (after : Option Int) (k : Nat) (row : Row),
      ((visible stored now (if after.getD floor < floor then floor else after.getD floor)).take k).getLast? = some row →
      visible stored now (if row.seq < floor then floor else row.seq) =
        (visible stored now (if after.getD floor < floor then floor else after.getD floor)).drop k := by
    intro after k row hlast
    have hmem := mem_of_mem_take (mem_of_getLast? hlast)
    have hgt := (of_decide_eq_true (mem_filter.1 hmem).2).1
    -- a row that is shown lies above the floor
    rw [if_neg (by split at hgt <;> omega)]
    exact visible_next hlast
  have hread : ∀ after : Option Int, after.isSome →
      ∃ page, read json stored now floor ⟨after, none, limit⟩ byteCap = .ok page ∧ Section json byteCap id
        (visible stored now (if after.getD floor < floor then floor else after.getD floor)) page := by
    intro after hafter
    obtain ⟨after, rfl⟩ := Option.isSome_iff_exists.1 hafter
    exact read_after json stored now floor limit byteCap after
  obtain ⟨pages, hwalk, hpages, hall⟩ := walk_sections (fun page => page.messages.getLast?) id
    (fun after => visible stored now (if after.getD floor < floor then floor else after.getD floor))
    (fun after => after.isSome) (fun _ => rfl) hread (fun _ => rfl) (fun _ _ => rfl) hnext
    (rfl : (some start).isSome) (Nat.le_refl _)
  exact ⟨_, pages, hwalk, hpages, hall⟩

/-- For messages with seqs below the greatest `i64`, a walk in either direction ends and shows the messages that the
reader may see, each once; and every page is as `PageOk` says. -/
theorem history_walked (json : MessageView → List UInt8) (stored : Stored) (now floor : Int) (limit : Option Nat)
    (byteCap : Nat) (hseq : ∀ row ∈ stored.rows, row.seq < i64Max) :
    (∃ fuel pages, walkBack json stored now floor limit byteCap fuel = some pages ∧
      (∀ page ∈ pages, ∃ before, read json stored now floor ⟨none, before, limit⟩ byteCap = .ok page) ∧
      pages.reverse.flatMap HistoryPage.messages = (visible stored now floor).map MessageView.ofRow) ∧
    (∀ start, ∃ fuel pages, walkForward json stored now floor limit byteCap start fuel = some pages ∧
      (∀ page ∈ pages, ∃ after, read json stored now floor ⟨after, none, limit⟩ byteCap = .ok page) ∧
      pages.flatMap HistoryPage.messages =
        ((visible stored now floor).filter fun row => start < row.seq).map MessageView.ofRow) ∧
    (∀ before page, read json stored now floor ⟨none, before, limit⟩ byteCap = .ok page →
      PageOk json byteCap page (∃ row ∈ visible stored now floor, row.seq < before.getD i64Max ∧
        ∀ message ∈ page.messages, row.seq < message.seq)) ∧
    (∀ after page, read json stored now floor ⟨some after, none, limit⟩ byteCap = .ok page →
      PageOk json byteCap page (∃ row ∈ visible stored now floor, after < row.seq ∧
        ∀ message ∈ page.messages, message.seq < row.seq)) := by
  have hclamp : ∀ after, visible stored now (if after < floor then floor else after) =
      (visible stored now floor).filter fun row => after < row.seq := by
    intro after
    rw [visible, visible, filter_filter]
    refine filter_congr fun row _ => ?_
    have hboth : (row.seq > if after < floor then floor else after) ↔ after < row.seq ∧ row.seq > floor := by
      split <;> omega
    rw [← Bool.decide_and, decide_eq_decide, hboth, and_assoc]
  refine ⟨walked_back json stored now floor limit byteCap hseq, fun start => ?_, fun before page hpage => ?_,
    fun after page hpage => ?_⟩
  · rw [← hclamp]
    exact walked_forward json stored now floor limit byteCap start
  · obtain ⟨page', hpage', hsection⟩ := read_before json stored now floor limit byteCap before
    obtain rfl := Except.ok.inj (hpage.symm.trans hpage')
    exact pageOk_before hsection
  · obtain ⟨page', hpage', hsection⟩ := read_after json stored now floor limit byteCap after
    obtain rfl := Except.ok.inj (hpage.symm.trans hpage')
    have hok := pageOk_after hsection
    rw [hclamp] at hok
    simpa only [mem_filter, decide_eq_true_eq, and_assoc] using hok

def sampleMessage (seq : Int) : Row :=
  ⟨seq, 3, "101", none, .post, 0, none, some [1, 2, 3], 5000, none⟩

theorem sampleMessages_order :
    [sampleMessage 1, sampleMessage 2, sampleMessage 4].Pairwise fun row row' => row.seq < row'.seq := by decide

def sampleStored : Stored := ⟨_, sampleMessages_order⟩

/-- Three messages, two to a page. -/
theorem history_walked_three :
    (∃ pages, walkBack (fun _ => []) sampleStored 6000 0 (some 2) 100 4 = some pages ∧ pages.length = 2) ∧
      ∃ fuel pages, walkBack (fun _ => []) sampleStored 6000 0 (some 2) 100 fuel = some pages ∧
        pages.reverse.flatMap HistoryPage.messages =
          [sampleMessage 1, sampleMessage 2, sampleMessage 4].map MessageView.ofRow := by
  have hseq : ∀ row ∈ sampleStored.rows, row.seq < i64Max := by decide
  obtain ⟨fuel, pages, hwalk, -, hall⟩ := (history_walked (fun _ => []) sampleStored 6000 0 (some 2) 100 hseq).1
  refine ⟨⟨_, rfl, by decide⟩, fuel, pages, hwalk, hall.trans ?_⟩
  decide

theorem greatestMessage_order : [sampleMessage i64Max].Pairwise fun row row' => row.seq < row'.seq :=
  pairwise_singleton _ _

/-- An empty page is longer than a cap of five bytes, and the walk from the newest misses the greatest seq. -/
theorem history_cap_and_last :
    (∃ page, read (fun _ => []) ⟨[], List.Pairwise.nil⟩ 0 0 ⟨none, none, none⟩ (Impl.Chat.History.byteCap .direct 5) =
        .ok page ∧
      page.messages.length = 0 ∧ (page.encode fun _ => []).length > Impl.Chat.History.byteCap .direct 5) ∧
    ∃ pages, walkBack (fun _ => []) ⟨_, greatestMessage_order⟩ 6000 0 none 100 1 = some pages ∧
      pages.flatMap HistoryPage.messages = [] ∧ visible ⟨_, greatestMessage_order⟩ 6000 0 = [sampleMessage i64Max] :=
  ⟨⟨_, rfl, by decide, by decide⟩, _, rfl, by decide, by decide⟩

end SC.Proof.Chat.History
