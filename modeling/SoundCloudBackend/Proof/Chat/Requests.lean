import SoundCloudBackend.Impl.Chat.Requests
import SoundCloudBackend.Proof.Chat.Redact

/-!
# Posts of a stranger

The posts that a sender has stored while the peer is invited. Only the commit of a send
adds one (`posts_step`); a send of the sender has passed the count, and the row that it
carries is of its own class (`Linked`).
-/

namespace SC.Proof.Chat.Requests

open Impl.Chat.Requests
open Impl.Chat.Store (Row Access Outgoing Phase Send Outcome Conversation)
open Impl.Replication (Uuid)
open SC.Proof.Chat.Store (Inv SendOk DeleteOk carried step_does commit_messages)
open List Option Function

variable {user : String}

/-! ## Posts -/

def IsPost (user : String) (row : Row) : Prop := row.senderUser = user ∧ row.messageClass = .post

instance (user : String) (row : Row) : Decidable (IsPost user row) := inferInstanceAs (Decidable (_ ∧ _))

def posts (user : String) (w : Impl.Chat.Store.World) : Nat := w.messages.countP fun row => IsPost user row

def committed (w : Impl.Chat.Store.World) : Impl.Chat.Store.Action → Option Row
  | .commit n outcome =>
    match (w.sends n).map Send.phase with
    | some (.commit _ row) => if outcome.applies then some row else none
    | _ => none
  | _ => none

theorem countP_blank (user : String) (seqs : List Int) (messages : List Row) :
    (Impl.Chat.Store.blank seqs messages).countP (fun row => IsPost user row) =
      messages.countP fun row => IsPost user row := by
  rw [Impl.Chat.Store.blank, countP_map]
  refine countP_congr fun row _ => ?_
  simp only [Function.comp]
  split <;> rfl

theorem countP_system {rows : List Row} (h : ∀ row ∈ rows, row.messageClass = .system) :
    rows.countP (fun row => IsPost user row) = 0 := by
  refine countP_eq_zero.2 fun row hrow => ?_
  rw [decide_eq_true_eq]
  rintro ⟨-, hpost⟩
  rw [h row hrow] at hpost
  cases hpost

theorem committed_eq_some {w : Impl.Chat.Store.World} {a : Impl.Chat.Store.Action} {row : Row}
    (h : committed w a = some row) :
    ∃ n outcome s c, a = .commit n outcome ∧ w.sends n = some s ∧ s.phase = .commit c row ∧ outcome.applies = true := by
  cases a with
  | commit n outcome =>
    cases hs : w.sends n with
    | none => simp [committed, hs] at h
    | some s =>
      cases hphase : s.phase with
      | commit c row' =>
        simp only [committed, hs, map_some, hphase] at h
        split_ifs at h with ho
        cases h
        exact ⟨n, outcome, s, c, rfl, hs, hphase, ho⟩
      | _ => simp [committed, hs, hphase] at h
  | _ => cases h

theorem posts_step {w w' : Impl.Chat.Store.World} {a : Impl.Chat.Store.Action} (h : Inv w)
    (hs : Impl.Chat.Store.step w a = some w') :
    posts user w' = posts user w + ((committed w a).toList.countP fun row => IsPost user row) := by
  have hc := (step_does hs).rows
  generalize hm : w'.messages = messages at hc
  cases hc with
  | same =>
    cases hrow : committed w a with
    | none => rw [posts, hm, toList_none, countP_nil, posts, Nat.add_zero]
    | some row =>
      obtain ⟨n, outcome, s, c, rfl, hsend, hphase, ho⟩ := committed_eq_some hrow
      have hmessages := commit_messages hsend hphase hs
      rw [if_pos ho, hm] at hmessages
      simp at hmessages
  | @send n outcome s c row hsend hphase ho =>
    have hcommitted : committed w (.commit n outcome) = some row := by
      simp [committed, hsend, hphase, ho]
    rw [posts, hm, countP_append, hcommitted]
    rfl
  | @delete n outcome d seqs c row hd hphase ho =>
    have hp := h.calls (.delete n) d hd
    rw [DeleteOk, hphase] at hp
    rw [posts, hm, countP_append, countP_blank, countP_system hp.written]
    rfl
  | @system n outcome c rows hsystem =>
    rw [posts, hm, countP_append, countP_system (h.calls (.system n) c rows hsystem).written]
    rfl

/-! ## Steps of the store -/

def storeAction (w : World) : Action → Option Impl.Chat.Store.Action
  | .request _ _ _ _ => none
  | .enter n => (w.gates n).map fun gate => .send n gate.access gate.device gate.out none
  | .store a => some a

section Step

variable {sender : String} {w w' : World} {a : Action}

theorem store_step (h : step sender w a = some w') : (w'.store = w.store ∧ storeAction w a = none) ∨
      w'.gates = w.gates ∧ ∃ a', storeAction w a = some a' ∧ Impl.Chat.Store.step w.store a' = some w'.store := by
  cases a with
  | request n access device out =>
    simp only [step] at h
    split at h
    · cases h
    split at h <;> cases h <;> exact .inl ⟨rfl, rfl⟩
  | enter n =>
    obtain ⟨gate, hgate, h⟩ := bind_eq_some_iff.1 h
    obtain ⟨store, hstore, rfl⟩ := map_eq_some_iff.1 h
    exact .inr ⟨rfl, _, by rw [storeAction, hgate, map_some], hstore⟩
  | store a =>
    simp only [step] at h
    split_ifs at h
    obtain ⟨store, hstore, rfl⟩ := map_eq_some_iff.1 h
    exact .inr ⟨rfl, a, rfl, hstore⟩

def stores (w : World) (a : Action) : Option Row := (storeAction w a).bind (committed w.store)

theorem posts_request (h : Inv w.store) (hs : step sender w a = some w') :
    posts sender w'.store = posts sender w.store + ((stores w a).toList.countP fun row => IsPost sender row) := by
  obtain ⟨heq, hnone⟩ | ⟨-, a', ha', hstore⟩ := store_step hs
  · rw [heq, stores, hnone]
    rfl
  · rw [stores, ha', bind_some]
    exact posts_step h hstore

/-- There is room for the post that the step commits. -/
def Room (sender : String) (w : World) (a : Action) : Prop :=
  ∀ row ∈ stores w a, IsPost sender row → posts sender w.store < messagesBeforeAccept

/-- The sender keeps to the posts before acceptance. -/
def Few (sender : String) (w : World) : Prop := posts sender w.store ≤ messagesBeforeAccept

theorem few_of_room (h : Inv w.store) (hfew : Few sender w) (hroom : Room sender w a)
    (hs : step sender w a = some w') : Few sender w' := by
  rw [Few, posts_request h hs]
  cases hrow : stores w a with
  | none => exact hfew
  | some row =>
    by_cases hpost : IsPost sender row
    · have := hroom row hrow hpost
      simp only [toList_some, countP_singleton, hpost, decide_true, if_true]
      omega
    · simp only [toList_some, countP_singleton, hpost, decide_false]
      exact hfew

theorem not_few_of_not_room (h : Inv w.store) (hroom : ¬ Room sender w a) (hs : step sender w a = some w') :
    ¬ Few sender w' := by
  rw [Room] at hroom
  push Not at hroom
  obtain ⟨row, hrow, hpost, hfull⟩ := hroom
  have hrow : stores w a = some row := hrow
  rw [Few, posts_request h hs, hrow]
  simp only [toList_some, countP_singleton, hpost, decide_true, if_true]
  omega

end Step

/-! ## Counted posts -/

section Counted

variable {sender : String} {w w' : World} {a : Action}

/-- A send of the sender has passed the count, and the row that it carries is of its class. -/
structure Linked (sender : String) (w : World) : Prop where
  inv : Inv w.store
  counted : ∀ n gate, w.gates n = some gate → gate.out.messageClass = .post → gate.sent < messagesBeforeAccept
  sends : ∀ n s, w.store.sends n = some s → s.access.userId = sender → ∃ gate, w.gates n = some gate ∧ gate.out = s.out
  rows : ∀ n s row, w.store.sends n = some s → carried s.phase = some row → row.messageClass = s.out.messageClass

theorem linked_start (sender : String) (c : Conversation) (clock : Int) : Linked sender (World.start c clock) where
  inv := Inv.start c clock
  counted _ gate h := nomatch (h : (none : Option Gate) = some gate)
  sends _ s h := nomatch (h : (none : Option Send) = some s)
  rows _ s _ h := nomatch (h : (none : Option Send) = some s)

theorem gates_step (h : step sender w a = some w') :
    w'.gates = w.gates ∨ ∃ n gate, w.gates n = none ∧ w'.gates = update w.gates n (some gate) ∧
      (gate.out.messageClass = .post → gate.sent < messagesBeforeAccept) := by
  cases a with
  | request n access device out =>
    simp only [step] at h
    split at h
    · cases h
    rename_i hnew
    split at h
    · rename_i hroom
      cases h
      refine .inr ⟨n, _, ?_, rfl, fun hpost => ?_⟩
      · exact not_isSome_iff_eq_none.1 fun hsome => hnew (.inr (.inl hsome))
      · exact (of_decide_eq_true hroom).resolve_left (not_not.2 hpost)
    · cases h
      exact .inl rfl
  | enter n =>
    obtain ⟨gate, -, h⟩ := bind_eq_some_iff.1 h
    obtain ⟨store, -, rfl⟩ := map_eq_some_iff.1 h
    exact .inl rfl
  | store a =>
    simp only [step] at h
    split_ifs at h
    obtain ⟨store, -, rfl⟩ := map_eq_some_iff.1 h
    exact .inl rfl

theorem gate_kept (h : step sender w a = some w') {n : Nat} {gate : Gate} (hgate : w.gates n = some gate) :
    w'.gates n = some gate := by
  obtain heq | ⟨m, gate', hnone, heq, -⟩ := gates_step h
  · rwa [heq]
  · have hn : n ≠ m := by
      rintro rfl
      rw [hgate] at hnone
      cases hnone
    rwa [heq, update_of_ne hn]

theorem Linked.step (h : Linked sender w) (hs : Impl.Chat.Requests.step sender w a = some w') : Linked sender w' := by
  have hgates : ∀ n gate, w'.gates n = some gate → gate.out.messageClass = .post → gate.sent < messagesBeforeAccept := by
    intro n gate hgate hpost
    obtain heq | ⟨m, gate', -, heq, hcount⟩ := gates_step hs
    · exact h.counted n gate (heq ▸ hgate) hpost
    · rw [heq] at hgate
      by_cases hn : n = m
      · subst hn
        rw [update_self] at hgate
        cases hgate
        exact hcount hpost
      · rw [update_of_ne hn] at hgate
        exact h.counted n gate hgate hpost
  obtain ⟨hstore, -⟩ | ⟨hsame, a', ha', hstore⟩ := store_step hs
  · refine ⟨hstore ▸ h.inv, hgates, fun n s hn hsender => ?_, fun n s row hn => h.rows n s row (hstore ▸ hn)⟩
    obtain ⟨gate, hgate, hout⟩ := h.sends n s (hstore ▸ hn) hsender
    exact ⟨gate, gate_kept hs hgate, hout⟩
  · refine ⟨h.inv.step hstore, hgates, fun n s hn hsender => ?_, fun n s row hn hrow => ?_⟩
    · obtain ⟨refused, rfl, -⟩ | ⟨s₀, hs₀, hgoes⟩ := (step_does hstore).sends n s hn
      · -- the sender enters the store only through a gate
        cases a with
        | request => cases ha'
        | enter m =>
          obtain ⟨gate, hgate, heq⟩ := map_eq_some_iff.1 ha'
          injection heq with hm haccess hdevice hout hrefused
          subst hm
          exact ⟨gate, hsame ▸ hgate, hout⟩
        | store a =>
          cases ha'
          simp only [Impl.Chat.Requests.step, Sends, hsender] at hs
          cases hs
      · rw [hgoes.access] at hsender
        obtain ⟨gate, hgate, hout⟩ := h.sends n s₀ hs₀ hsender
        exact ⟨gate, hsame ▸ hgate, hout.trans hgoes.out.symm⟩
    · obtain ⟨refused, -, hnone, -⟩ | ⟨s₀, hs₀, hgoes⟩ := (step_does hstore).sends n s hn
      · rw [hnone] at hrow
        cases hrow
      · rw [hgoes.out]
        exact (hgoes.row row hrow).elim (h.rows n s₀ row hs₀) And.left

/-- Since the count of the post that the step commits, no other post of the sender was stored. -/
def Undisturbed (sender : String) (w : World) : Action → Prop
  | .store (.commit n _) => ∀ gate ∈ w.gates n, postsBy w.store.messages sender gate.out.clientId = gate.sent
  | _ => True

instance (sender : String) (w : World) : DecidablePred (Undisturbed sender w) := fun a => by
  unfold Undisturbed
  split <;> infer_instance

theorem room_of_undisturbed (h : Linked sender w) (hu : Undisturbed sender w a) : Room sender w a := by
  intro row hrow hpost
  obtain ⟨a', ha', hcommitted⟩ := bind_eq_some_iff.1 hrow
  obtain ⟨n, outcome, s, c, rfl, hs, hphase, -⟩ := committed_eq_some hcommitted
  have hok := h.inv.sendOk hs
  rw [SendOk, hphase] at hok
  obtain ⟨hpending, ⟨hclient, hsender⟩, -⟩ := hok
  obtain ⟨gate, hgate, hout⟩ := h.sends n s hs (hsender.symm.trans hpost.1)
  have hclass : gate.out.messageClass = .post := by
    rw [hout, ← h.rows n s row hs (by rw [hphase]; rfl), hpost.2]
  have hcount : postsBy w.store.messages sender gate.out.clientId = gate.sent := by
    cases a with
    | request => cases ha'
    | enter m =>
      obtain ⟨gate', -, heq⟩ := map_eq_some_iff.1 ha'
      cases heq
    | store a =>
      cases ha'
      exact hu gate hgate
  -- the client id of the row is new, so that the count has left no post out
  have hall : posts sender w.store = postsBy w.store.messages sender gate.out.clientId := by
    refine countP_congr fun other hother => ?_
    have hne : other.clientId ≠ gate.out.clientId := by
      have hnodup := hpending.clients
      rw [map_append, nodup_append] at hnodup
      rw [hout, ← hclient]
      exact hnodup.2.2 other.clientId (mem_map_of_mem hother) row.clientId (by simp)
    rw [decide_eq_true_eq, decide_eq_true_eq]
    simp [IsPost, hne]
  rw [hall, hcount]
  exact h.counted n gate hgate hclass

end Counted

/-- The sender never has more than the allowed posts in a run exactly if every commit of a post finds room for it; and
it does in a run in which no other post of the sender is stored between the count of a post and its commit. -/
theorem posts_before_accept_iff (sender : String) (c : Conversation) (clock : Int) {as : List Action} {w : World}
    (h : run (step sender) (World.start c clock) as = some w) :
    (Always (step sender) (Few sender) (World.start c clock) as ↔
      Meets (step sender) (Room sender) (World.start c clock) as) ∧
    (Meets (step sender) (Undisturbed sender) (World.start c clock) as →
      Always (step sender) (Few sender) (World.start c clock) as) := by
  have hiff : Always (step sender) (Few sender) (World.start c clock) as ↔
      Meets (step sender) (Room sender) (World.start c clock) as :=
    always_iff_meets (I := fun w => Linked sender w ∧ Few sender w) And.right
      (fun h hroom hs => ⟨h.1.step hs, few_of_room h.1.inv h.2 hroom hs⟩)
      (fun h hroom hs => not_few_of_not_room h.1.inv hroom hs) ⟨linked_start sender c clock, Nat.zero_le _⟩ h
  exact ⟨hiff, fun hu => hiff.2 (hu.imp Linked.step room_of_undisturbed (linked_start sender c clock))⟩

def direct : Conversation := ⟨.direct, false, 0, 1, false, 0, 1, none, none, none⟩

def postOf (clientId : Uuid) : Outgoing := ⟨clientId, .post, 1, none, [1], Store.post_ne_system, Store.post_target⟩

def requests (n : Nat) (clientId : Uuid) : Action := .request n ⟨"101", .active, 0, false⟩ 7 (postOf clientId)

def storesPost (n : Nat) : List Action :=
  [.enter n, .store (.work n), .store (.work n), .store (.work n), .store (.attach n none), .store (.commit n .done)]

/-- Three posts one after another, and a fourth that the count refuses. -/
def oneByOne : List Action :=
  requests 0 5 :: storesPost 0 ++ requests 1 6 :: storesPost 1 ++ requests 2 8 :: storesPost 2 ++ [requests 3 9]

theorem posts_before_accept_one_by_one :
    ∃ w, run (step "101") (World.start direct 1) oneByOne = some w ∧ posts "101" w.store = 3 ∧
      Always (step "101") (Few "101") (World.start direct 1) oneByOne := by
  obtain ⟨w, hw, hposts⟩ := map_eq_some_iff.1
    (show (run (step "101") (World.start direct 1) oneByOne).map (fun w => posts "101" w.store) = some 3 by decide)
  exact ⟨w, hw, hposts, (posts_before_accept_iff "101" direct 1 hw).2 (by decide)⟩

/-- Four calls pass the count before any of them stores its post. -/
def atOnce : List Action :=
  [requests 0 5, requests 1 6, requests 2 8, requests 3 9] ++ storesPost 0 ++ storesPost 1 ++ storesPost 2 ++
    storesPost 3

theorem posts_before_accept_at_once :
    ∃ w, run (step "101") (World.start direct 1) atOnce = some w ∧ posts "101" w.store = 4 := by
  obtain ⟨w, hw, hposts⟩ := map_eq_some_iff.1
    (show (run (step "101") (World.start direct 1) atOnce).map (fun w => posts "101" w.store) = some 4 by decide)
  exact ⟨w, hw, hposts⟩

end SC.Proof.Chat.Requests
