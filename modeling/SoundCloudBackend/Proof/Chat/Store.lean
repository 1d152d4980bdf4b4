import Mathlib.Data.List.Range
import SoundCloudBackend.Framework.Run
import SoundCloudBackend.Impl.Chat.Store

/-!
# Numbers and client ids of the messages

What holds over every run of sends, system rows and deletes on one conversation:

* `Numbered`: the stored rows have the numbers `1, …, last_seq` in the order of their
  commits, and one client id each;
* `Pending`: what a transaction with the lock of the conversation has written, which
  `Stores.shift` carries over its commit;
* `SendOk`: what a send has stored and may answer in each of its phases.

A step is seen by the other calls through `Sees`: it leaves what they rely on as it is,
unless they do not hold the lock.
-/

namespace SC.Proof.Chat.Store

open Impl.Replication (Uuid)
open Impl.Chat.Store
open List Option Function

variable {w : World} {owner : Owner} {c c' : Conversation} {rows : List Row} {d : Delete}
variable {row : Row} {actor : Option Owner} {phase : Phase} {outcome : Outcome}

/-! ## Rows -/

/-- A row without its body, the column that a delete for everyone takes away. -/
def key (row : Row) : Row := { row with body := none }

@[simp] theorem key_seq (row : Row) : (key row).seq = row.seq := rfl

@[simp] theorem key_clientId (row : Row) : (key row).clientId = row.clientId := rfl

theorem map_blank {β : Type} {f : Row → β} (hf : ∀ row, f { row with body := none } = f row) (seqs : List Int)
    (messages : List Row) : (blank seqs messages).map f = messages.map f := by
  rw [blank, List.map_map]
  refine List.map_congr_left fun row _ => ?_
  simp only [Function.comp]
  split
  · exact hf row
  · rfl

@[simp] theorem length_blank (seqs : List Int) (messages : List Row) :
    (blank seqs messages).length = messages.length := by
  rw [blank, length_map]

theorem existing_eq_some {messages : List Row} {clientId : Uuid} {user : String}
    (h : existing messages clientId user = .ok (some row)) :
    row ∈ messages ∧ row.clientId = clientId ∧ row.senderUser = user := by
  unfold existing at h
  split at h
  · rename_i found hfind
    split_ifs at h with hsender
    cases h
    have hid := List.find?_some hfind
    exact ⟨mem_of_find?_eq_some hfind, of_decide_eq_true hid, not_not.1 hsender⟩
  · cases h

/-! ## The numbering -/

def numbers (start : Int) (n : Nat) : List Int := (List.range n).map fun (i : Nat) => start + i + 1

theorem numbers_one (start : Int) : numbers start 1 = [start + 1] := by simp [numbers]

theorem numbers_add (start : Int) (m n : Nat) :
    numbers start (m + n) = numbers start m ++ numbers (start + m) n := by
  simp only [numbers, List.range_add, List.map_append, List.map_map]
  congr 1
  refine List.map_congr_left fun i _ => ?_
  simp only [Function.comp]
  omega

/-- The rows are those that were stored, up to redactions, numbered from 1 and with one client id each, and the
conversation has the last number. -/
structure Numbered (w : World) : Prop where
  stored : w.stored.map (fun s => key s.2) = w.messages.map key
  seqs : w.messages.map Row.seq = numbers 0 w.messages.length
  lastSeq : w.conversation.lastSeq = w.messages.length
  clients : (w.messages.map Row.clientId).Nodup

/-- Which rows a transaction writes: those of a send have a body, the others are system rows. -/
def Writes : Owner → Row → Prop
  | .send _, row => row.body ≠ none
  | .delete _, row | .system _, row => row.messageClass = .system

/-- What a transaction that holds the lock has written. -/
structure Pending (w : World) (owner : Owner) (c : Conversation) (rows : List Row) : Prop where
  lock : w.lock = some owner
  lastSeq : c.lastSeq = w.conversation.lastSeq + rows.length
  seqs : rows.map Row.seq = numbers w.conversation.lastSeq rows.length
  clients : ((w.messages ++ rows).map Row.clientId).Nodup
  written : ∀ row ∈ rows, Writes owner row

theorem Numbered.start (c : Conversation) (clock : Int) : Numbered (World.start c clock) :=
  ⟨rfl, rfl, rfl, nodup_nil⟩

theorem Pending.append {row : Row}
    (hlock : w.lock = some owner) (hlast : c.lastSeq = w.conversation.lastSeq + rows.length)
    (hseqs : rows.map Row.seq = numbers w.conversation.lastSeq rows.length)
    (hclients : ((w.messages ++ rows).map Row.clientId).Nodup) (hwritten : ∀ row ∈ rows, Writes owner row)
    (hc : c'.lastSeq = c.lastSeq + 1) (hrow : row.seq = c'.lastSeq) (hnew : Inserts (w.messages ++ rows) row)
    (hwrites : Writes owner row) : Pending w owner c' (rows ++ [row]) where
  lock := hlock
  lastSeq := by
    rw [length_append, length_singleton, hc, hlast]
    omega
  seqs := by
    rw [map_append, length_append, length_singleton, numbers_add, numbers_one, hseqs, map_singleton,
      hrow, hc, hlast]
  clients := by
    rw [← append_assoc, map_append, map_singleton]
    exact nodup_append.2 ⟨hclients, nodup_singleton _, fun _ ha _ hb hab =>
      hnew (mem_singleton.1 hb ▸ hab ▸ ha)⟩
  written other hother := by
    obtain hold | hlast := mem_append.1 hother
    · exact hwritten other hold
    · exact mem_singleton.1 hlast ▸ hwrites

theorem Pending.single (hn : Numbered w) (hlock : w.lock = some owner)
    (hc : c.lastSeq = w.conversation.lastSeq + 1) (hrow : row.seq = c.lastSeq) (hnew : Inserts w.messages row)
    (hwrites : Writes owner row) : Pending w owner c [row] :=
  @Pending.append w owner _ c [] row hlock (by simp) rfl (by rw [append_nil]; exact hn.clients) (by simp) hc hrow
    (by rw [append_nil]; exact hnew) hwrites

/-! ## The calls -/

def Unstored (w : World) (n : Nat) : Prop := ∀ row, (Owner.send n, row) ∉ w.stored

/-- The row has the client id of the send and its caller as the sender. -/
def Names (s : Send) (row : Row) : Prop := row.clientId = s.out.clientId ∧ row.senderUser = s.access.userId

def Settled (w : World) (s : Send) (row : Row) : Prop := key row ∈ w.messages.map key ∧ Names s row

def SendOk (w : World) (n : Nat) (s : Send) : Prop :=
  match s.phase with
  | .insert c row =>
    (w.lock = some (.send n) ∧ c.lastSeq = w.conversation.lastSeq + 1 ∧ row.seq = c.lastSeq ∧ row.body ≠ none) ∧
      Names s row ∧ Unstored w n
  | .attach c row | .commit c row => Pending w (.send n) c [row] ∧ Names s row ∧ Unstored w n
  | .publish row | .done (.row row) | .done (.busy row) => Settled w s row
  | .done .lost => True
  | .refused _ | .target | .advance _ | .duplicate | .stale | .rotate | .done (.error _) => Unstored w n

def DeleteOk (w : World) (n : Nat) (d : Delete) : Prop :=
  match d.phase with
  | .drop _ c row | .commit _ c row => Pending w (.delete n) c [row]
  | .read | .redact _ | .lock _ _ | .tell _ _ | .done => True

def CallOk (w : World) : Owner → Prop
  | .send n => (w.sends n = none → Unstored w n) ∧ ∀ s, w.sends n = some s → SendOk w n s
  | .delete n => ∀ d, w.deletes n = some d → DeleteOk w n d
  | .system n => ∀ c rows, w.systems n = some (c, rows) → Pending w (.system n) c rows

/-- A step, as a call of `owner` sees it that does not act. -/
structure Sees (owner : Owner) (w w' : World) : Prop where
  same : w.lock = some owner →
    w'.lock = w.lock ∧ w'.conversation.lastSeq = w.conversation.lastSeq ∧ w'.messages = w.messages
  keys : w.messages.map key ⊆ w'.messages.map key
  stored : ∀ row, (owner, row) ∈ w'.stored → (owner, row) ∈ w.stored

section Sees

variable {w w' : World} {n : Nat}

theorem Pending.sees (h : Pending w owner c rows) (hw : Sees owner w w') : Pending w' owner c rows := by
  obtain ⟨hlock, hlast, hmessages⟩ := hw.same h.lock
  exact ⟨hlock.trans h.lock, hlast ▸ h.lastSeq, hlast ▸ h.seqs, hmessages ▸ h.clients, h.written⟩

theorem Unstored.sees (h : Unstored w n) (hw : Sees (.send n) w w') : Unstored w' n :=
  fun row hrow => h row (hw.stored row hrow)

theorem SendOk.sees {s : Send} (h : SendOk w n s) (hw : Sees (.send n) w w') : SendOk w' n s := by
  unfold SendOk at h ⊢
  split at h
  · obtain ⟨⟨hlock, hlast, hrow⟩, hnames, hun⟩ := h
    obtain ⟨hlock', hlast', -⟩ := hw.same hlock
    exact ⟨⟨hlock'.trans hlock, hlast' ▸ hlast, hrow⟩, hnames, hun.sees hw⟩
  · exact ⟨h.1.sees hw, h.2.1, h.2.2.sees hw⟩
  · exact ⟨h.1.sees hw, h.2.1, h.2.2.sees hw⟩
  · exact ⟨hw.keys h.1, h.2⟩
  · exact ⟨hw.keys h.1, h.2⟩
  · exact ⟨hw.keys h.1, h.2⟩
  · trivial
  all_goals exact h.sees hw

theorem DeleteOk.sees (h : DeleteOk w n d) (hw : Sees (.delete n) w w') : DeleteOk w' n d := by
  unfold DeleteOk at h ⊢
  split at h
  · exact h.sees hw
  · exact h.sees hw
  all_goals trivial

end Sees

/-- The numbers run without a gap, and every call is where its phase says. -/
structure Inv (w : World) : Prop where
  numbered : Numbered w
  calls : ∀ owner, CallOk w owner

/-- A step of `actor`, up to what it does to its own call. -/
structure Shift (actor : Option Owner) (w w' : World) : Prop where
  numbered : Numbered w → Numbered w'
  sees : ∀ owner, some owner ≠ actor → Sees owner w w'

theorem CallOk.shift {w' : World} (h : CallOk w owner)
    (hw : Shift actor w w') (hne : some owner ≠ actor) (hsends : ∀ n, owner = .send n → w'.sends n = w.sends n)
    (hdeletes : ∀ n, owner = .delete n → w'.deletes n = w.deletes n)
    (hsystems : ∀ n, owner = .system n → w'.systems n = w.systems n) : CallOk w' owner := by
  have hw := hw.sees owner hne
  cases owner with
  | send n =>
    rw [CallOk, hsends n rfl]
    exact ⟨fun hs => (h.1 hs).sees hw, fun s hs => (h.2 s hs).sees hw⟩
  | delete n =>
    rw [CallOk, hdeletes n rfl]
    exact fun d hd => (h d hd).sees hw
  | system n =>
    rw [CallOk, hsystems n rfl]
    exact fun c rows hs => (h c rows hs).sees hw

section Steps

variable {w w' : World} {n : Nat}

theorem update_other {β : Type} {f g : Nat → Option β} {m : Nat} {x : Option β} (h : g = update f n x)
    (hne : m ≠ n) : g m = f m := by
  rw [h, update_of_ne hne]

theorem Inv.step_send {s : Send} (h : Inv w) (hw : Shift (some (.send n)) w w')
    (hsends : w'.sends = update w.sends n (some s)) (hdeletes : w'.deletes = w.deletes)
    (hsystems : w'.systems = w.systems) (hok : SendOk w' n s) : Inv w' := by
  refine ⟨hw.numbered h.numbered, fun owner => ?_⟩
  by_cases hne : owner = .send n
  · subst hne
    have hself : w'.sends n = some s := by rw [hsends, update_self]
    exact ⟨fun hnone => (nomatch hnone.symm.trans hself), fun s' hs' => some.inj (hself.symm.trans hs') ▸ hok⟩
  · exact (h.calls owner).shift hw (fun he => hne (some.inj he))
      (fun m hm => update_other hsends fun he => hne (he ▸ hm)) (fun m _ => congrFun hdeletes m)
      (fun m _ => congrFun hsystems m)

theorem Inv.step_delete (h : Inv w) (hw : Shift (some (.delete n)) w w') (hsends : w'.sends = w.sends)
    (hdeletes : w'.deletes = update w.deletes n (some d)) (hsystems : w'.systems = w.systems)
    (hok : DeleteOk w' n d) : Inv w' := by
  refine ⟨hw.numbered h.numbered, fun owner => ?_⟩
  by_cases hne : owner = .delete n
  · subst hne
    have hself : w'.deletes n = some d := by rw [hdeletes, update_self]
    exact fun d' hd' => some.inj (hself.symm.trans hd') ▸ hok
  · exact (h.calls owner).shift hw (fun he => hne (some.inj he)) (fun m _ => congrFun hsends m)
      (fun m hm => update_other hdeletes fun he => hne (he ▸ hm)) (fun m _ => congrFun hsystems m)

theorem Inv.step_system {x : Option (Conversation × List Row)} (h : Inv w) (hw : Shift (some (.system n)) w w')
    (hsends : w'.sends = w.sends) (hdeletes : w'.deletes = w.deletes) (hsystems : w'.systems = update w.systems n x)
    (hok : ∀ c rows, x = some (c, rows) → Pending w' (.system n) c rows) : Inv w' := by
  refine ⟨hw.numbered h.numbered, fun owner => ?_⟩
  by_cases hne : owner = .system n
  · subst hne
    have hself : w'.systems n = x := by rw [hsystems, update_self]
    exact fun c rows hx => hok c rows (hself.symm.trans hx)
  · exact (h.calls owner).shift hw (fun he => hne (some.inj he)) (fun m _ => congrFun hsends m)
      (fun m _ => congrFun hdeletes m) (fun m hm => update_other hsystems fun he => hne (he ▸ hm))

theorem Inv.step_none (h : Inv w) (hw : Shift none w w') (hsends : w'.sends = w.sends)
    (hdeletes : w'.deletes = w.deletes) (hsystems : w'.systems = w.systems) : Inv w' :=
  ⟨hw.numbered h.numbered, fun owner => (h.calls owner).shift hw nofun (fun m _ => congrFun hsends m)
    (fun m _ => congrFun hdeletes m) (fun m _ => congrFun hsystems m)⟩

/-! ## Quiet steps and commits -/

/-- The step stored nothing. -/
structure Quiet (w w' : World) : Prop where
  messages : w'.messages = w.messages
  stored : w'.stored = w.stored
  lastSeq : w'.conversation.lastSeq = w.conversation.lastSeq

theorem Quiet.sees (hq : Quiet w w') (hlock : w.lock = some owner → w'.lock = w.lock) : Sees owner w w' where
  same h := ⟨hlock h, hq.lastSeq, hq.messages⟩
  keys := by rw [hq.messages]; exact fun _ h => h
  stored _ h := hq.stored ▸ h

theorem Quiet.shift (hq : Quiet w w')
    (hl : w'.lock = w.lock ∨ w.lock = none ∨ w.lock = actor) : Shift actor w w' where
  numbered h :=
    { stored := by rw [hq.stored, hq.messages]; exact h.stored
      seqs := by rw [hq.messages]; exact h.seqs
      lastSeq := by rw [hq.messages, hq.lastSeq]; exact h.lastSeq
      clients := by rw [hq.messages]; exact h.clients }
  sees owner hne := hq.sees fun hlock => by
    obtain hl | hl | hl := hl
    · exact hl
    · exact nomatch hl.symm.trans hlock
    · exact absurd (hlock.symm.trans hl) hne

/-- A transaction commits rows, and a redaction with them. -/
structure Stores (owner : Owner) (c : Conversation) (rows : List Row) (w w' : World) : Prop where
  messages : ∃ seqs, w'.messages = blank seqs w.messages ++ rows
  stored : w'.stored = w.stored ++ rows.map fun row => (owner, row)
  lastSeq : w'.conversation.lastSeq = c.lastSeq

theorem Stores.map (hs : Stores owner c rows w w') {β : Type}
    {f : Row → β} (hf : ∀ row, f { row with body := none } = f row) :
    w'.messages.map f = w.messages.map f ++ rows.map f := by
  obtain ⟨seqs, hm⟩ := hs.messages
  rw [hm, map_append, map_blank hf]

theorem Stores.length (hs : Stores owner c rows w w') : w'.messages.length = w.messages.length + rows.length := by
  obtain ⟨seqs, hm⟩ := hs.messages
  rw [hm, length_append, length_blank]

theorem Stores.shift (hs : Stores owner c rows w w') (hp : Pending w owner c rows) : Shift (some owner) w w' where
  numbered h :=
    { stored := by
        rw [hs.stored, hs.map fun _ => rfl, List.map_append, List.map_map, h.stored]
        rfl
      seqs := by
        rw [hs.map fun _ => rfl, hs.length, h.seqs, hp.seqs, numbers_add, h.lastSeq, zero_add]
      lastSeq := by
        rw [hs.lastSeq, hs.length, hp.lastSeq, h.lastSeq]
        omega
      clients := by
        rw [hs.map fun _ => rfl, ← List.map_append]
        exact hp.clients }
  sees other hne :=
    { same := fun hlock => absurd (hlock.symm.trans hp.lock) hne
      keys := by
        rw [hs.map fun _ => rfl]
        exact List.subset_append_left _ _
      stored := fun row hrow => by
        obtain hold | hnew := List.mem_append.1 (hs.stored ▸ hrow)
        · exact hold
        · obtain ⟨_, _, he⟩ := List.mem_map.1 hnew
          exact absurd (congrArg (fun x => some x.1) he).symm hne }

end Steps

/-! ## The steps of a send -/

theorem advance_lastSeq {out : Outgoing} {now : Int} (h : c.advance out now = some c') :
    c'.lastSeq = c.lastSeq + 1 := by
  unfold Conversation.advance at h
  split at h
  · cases h; rfl
  · cases h

theorem advanceSystem_lastSeq (h : c.advanceSystem = some c') : c'.lastSeq = c.lastSeq + 1 := by
  unfold Conversation.advanceSystem at h
  split_ifs at h
  cases h; rfl

theorem rotateIfDue_lastSeq {epoch now : Int} (h : c.rotateIfDue epoch now = .ok c') : c'.lastSeq = c.lastSeq := by
  unfold Conversation.rotateIfDue at h
  split at h
  · split_ifs at h
    cases h; rfl
  · cases h; rfl

section Send

variable {w w' : World} {n : Nat} {s : Send}

theorem Inv.sendOk (h : Inv w) (hs : w.sends n = some s) : SendOk w n s := (h.calls (.send n)).2 s hs

theorem afterExisting_ok {found : Row → Phase} {otherwise : Phase} (hun : Unstored w n)
    (hfound : ∀ row, Settled w s row → SendOk w n { s with phase := found row })
    (hotherwise : SendOk w n { s with phase := otherwise }) :
    SendOk w n { s with phase := (w.afterExisting s found).getD otherwise } := by
  unfold World.afterExisting
  split
  · exact hun
  · rename_i row hrow
    cases row with
    | none => exact hotherwise
    | some row =>
      obtain ⟨hmem, hid, hsender⟩ := existing_eq_some hrow
      exact hfound row ⟨mem_map_of_mem hmem, hid, hsender⟩

theorem Inv.setSend (h : Inv w) (hok : SendOk w n { s with phase := phase }) :
    Inv (w.setSend n s phase) :=
  h.step_send (Quiet.shift ⟨rfl, rfl, rfl⟩ (.inl rfl)) rfl rfl rfl (hok.sees (Quiet.sees ⟨rfl, rfl, rfl⟩ fun _ => rfl))

theorem Inv.endSend (h : Inv w) {answer : Answer} (hok : SendOk w n { s with phase := .done answer }) :
    Inv (w.endSend n s answer) := by
  refine h.step_send (Quiet.shift ⟨rfl, rfl, rfl⟩ ?_) rfl rfl rfl ?_
  · by_cases hlock : w.lock = some (.send n)
    · exact .inr (.inr hlock)
    · exact .inl (if_neg hlock)
  · cases answer <;> exact hok

theorem Inv.work (h : Inv w) (hs : w.sends n = some s) (hw : w.work n s = some w') : Inv w' := by
  have hok := h.sendOk hs
  unfold SendOk at hok
  unfold World.work at hw
  split at hw <;> rename_i hphase <;> rw [hphase] at hok
  · cases hw
    exact h.setSend (afterExisting_ok hok (fun _ => id) hok)
  · cases hw
    exact h.setSend (afterExisting_ok hok (fun _ => id) hok)
  · split at hw <;> cases hw <;> exact h.setSend hok
  · split_ifs at hw with hlock
    split at hw
    · cases hw
      exact h.setSend hok
    · rename_i c hc
      cases hw
      exact h.step_send (Quiet.shift ⟨rfl, rfl, rfl⟩ (.inr (.inl hlock))) rfl rfl rfl
        ⟨⟨rfl, advance_lastSeq hc, rfl, nofun⟩, ⟨rfl, rfl⟩, hok⟩
  · obtain ⟨⟨hlock, hlast, hseq, hbody⟩, hnames, hun⟩ := hok
    split at hw
    · rename_i c row _ hnew
      cases hw
      refine h.setSend ⟨?_, hnames, hun⟩
      exact Pending.single h.numbered hlock hlast hseq hnew hbody
    · cases hw
      exact h.step_send (Quiet.shift ⟨rfl, rfl, rfl⟩ (.inr (.inr hlock))) rfl rfl rfl hun
  · cases hw
    exact h.setSend (afterExisting_ok hok (fun _ => id) hok)
  · cases hw
    exact h.setSend (afterExisting_ok hok (fun _ => id) hok)
  · split_ifs at hw
    split at hw
    · cases hw
      exact h.setSend hok
    · rename_i c hc
      cases hw
      exact h.step_send (Quiet.shift ⟨rfl, rfl, rotateIfDue_lastSeq hc⟩ (.inl rfl)) rfl rfl rfl hok
  all_goals cases hw

theorem blank_nil (messages : List Row) : blank [] messages = messages := by
  rw [blank]
  exact (map_congr_left fun row _ => if_neg not_mem_nil).trans (map_id messages)

theorem Inv.commit_send (h : Inv w) (hp : Pending w (.send n) c [row])
    (hok : ∀ w', key row ∈ w'.messages.map key → SendOk w' n { s with phase := phase }) :
    Inv ((w.commit (.send n) c [row]).setSend n s phase) := by
  refine h.step_send (Stores.shift ⟨⟨[], ?_⟩, rfl, rfl⟩ hp) rfl rfl rfl (hok _ ?_)
  · rw [blank_nil]
    rfl
  · exact mem_map_of_mem (mem_append_right _ (mem_singleton_self row))

theorem commit_endSend (owner : Owner) (c : Conversation) (rows : List Row) (answer : Answer) :
    (w.commit owner c rows).endSend n s answer = (w.commit owner c rows).setSend n s (.done answer) := by
  rw [World.endSend, if_neg nofun]
  rfl

theorem sendOk_lost : SendOk w n { s with phase := .done .lost } := trivial

theorem Inv.commit (h : Inv w) (hs : w.sends n = some s) (hw : step w (.commit n outcome) = some w') : Inv w' := by
  have hok := h.sendOk hs
  simp only [step, hs, bind_some] at hw
  split at hw
  · rename_i c row hphase
    rw [SendOk, hphase] at hok
    obtain ⟨hp, hnames, -⟩ := hok
    cases hw
    cases outcome with
    | done => exact h.commit_send hp fun _ hmem => ⟨hmem, hnames⟩
    | lost applied =>
      cases applied with
      | true =>
        show Inv ((w.commit (.send n) c [row]).endSend n s .lost)
        rw [commit_endSend]
        exact h.commit_send hp fun _ _ => sendOk_lost
      | false => exact h.endSend sendOk_lost
  · cases hw

end Send

/-! ## The steps of a delete and of system rows -/

section Others

variable {w w' : World} {n : Nat}

theorem Inv.setDelete (h : Inv w) {phase : DeletePhase}
    (hok : DeleteOk w n { d with phase := phase }) : Inv (w.setDelete n d phase) :=
  h.step_delete (Quiet.shift ⟨rfl, rfl, rfl⟩ (.inl rfl)) rfl rfl rfl
    (hok.sees (Quiet.sees ⟨rfl, rfl, rfl⟩ fun _ => rfl))

theorem Inv.endDelete (h : Inv w) (d : Delete) : Inv (w.endDelete n d) := by
  refine h.step_delete (Quiet.shift ⟨rfl, rfl, rfl⟩ ?_) rfl rfl rfl trivial
  by_cases hlock : w.lock = some (.delete n)
  · exact .inr (.inr hlock)
  · exact .inl (if_neg hlock)

theorem Inv.workDelete (h : Inv w) {notice : Uuid × Body} (hw : w.workDelete n d notice = some w') : Inv w' := by
  unfold World.workDelete at hw
  split at hw
  · split at hw
    · cases hw
      exact h.endDelete d
    · split at hw
      · cases hw
        exact h.endDelete d
      · split at hw
        · cases hw
          exact h.endDelete d
        · cases hw
          exact h.setDelete trivial
  · cases hw
    exact h.setDelete trivial
  · split_ifs at hw
    dsimp only at hw
    split at hw
    · cases hw
      exact h.endDelete d
    · cases hw
      exact h.step_delete (Quiet.shift ⟨rfl, rfl, rfl⟩ (.inl rfl)) rfl rfl rfl trivial
  · split_ifs at hw with hlock
    split at hw
    · cases hw
      exact h.endDelete d
    · rename_i c hc
      dsimp only at hw
      split at hw
      · rename_i hnew
        cases hw
        refine h.step_delete (Quiet.shift ⟨rfl, rfl, rfl⟩ (.inr (.inl hlock))) rfl rfl rfl ?_
        apply Pending.single
        · exact ⟨h.numbered.stored, h.numbered.seqs, h.numbered.lastSeq, h.numbered.clients⟩
        · rfl
        · exact advanceSystem_lastSeq hc
        · rfl
        · exact hnew
        · rfl
      · cases hw
        exact h.endDelete d
  all_goals cases hw

theorem Inv.commitDelete (h : Inv w) (hd : w.deletes n = some d)
    (hw : step w (.commitDelete n outcome) = some w') : Inv w' := by
  have hok := h.calls (.delete n) d hd
  simp only [step, hd, bind_some] at hw
  split at hw
  · rename_i seqs c row hphase
    rw [DeleteOk, hphase] at hok
    cases hw
    by_cases ho : outcome.applies = true
    · rw [if_pos ho]
      exact h.step_delete (Stores.shift ⟨⟨seqs, rfl⟩, rfl, rfl⟩ hok) rfl rfl rfl trivial
    · rw [if_neg ho]
      exact h.endDelete d
  · cases hw

theorem Inv.systemRow (h : Inv w) {notice : Notice} (hw : w.systemRow n notice = some w') : Inv w' := by
  unfold World.systemRow at hw
  split_ifs at hw with hlock
  split at hw
  rename_i c rows hsys
  split at hw
  · cases hw
  rename_i c' hc
  dsimp only at hw
  split_ifs at hw with hnew
  cases hw
  refine h.step_system (Quiet.shift ⟨rfl, rfl, rfl⟩ (hlock.elim (fun h => .inr (.inl h)) fun h => .inr (.inr h)))
    rfl rfl rfl ?_
  intro c'' rows' hx
  cases hx
  cases hs : w.systems n with
  | none =>
    rw [hs] at hsys
    cases hsys
    refine Pending.append rfl ?_ rfl ?_ ?_ (advanceSystem_lastSeq hc) ?_ hnew ?_
    · exact (Int.add_zero _).symm
    · rw [append_nil]
      exact h.numbered.clients
    · exact forall_mem_nil _
    · rfl
    · rfl
  | some written =>
    have hp := h.calls (.system n) written.1 written.2 hs
    rw [hs] at hsys
    cases hsys
    refine Pending.append rfl hp.lastSeq hp.seqs hp.clients hp.written (advanceSystem_lastSeq hc) ?_ hnew ?_
    · rfl
    · rfl

theorem Inv.commitSystem (h : Inv w) (hw : step w (.commitSystem n outcome) = some w') : Inv w' := by
  rw [step] at hw
  split at hw
  · rename_i hlock
    obtain ⟨⟨c, rows⟩, hs, rfl⟩ := map_eq_some_iff.1 hw
    have hp := h.calls (.system n) c rows hs
    by_cases ho : outcome.applies = true
    · dsimp only
      rw [if_pos ho]
      exact h.step_system (Stores.shift ⟨⟨[], by rw [blank_nil]; rfl⟩, rfl, rfl⟩ hp) rfl rfl rfl nofun
    · dsimp only
      rw [if_neg ho]
      exact h.step_system (Quiet.shift ⟨rfl, rfl, rfl⟩ (.inr (.inr hlock))) rfl rfl rfl nofun
  · cases hw

end Others

/-! ## Runs -/

theorem Inv.start (c : Conversation) (clock : Int) : Inv (World.start c clock) where
  numbered := .start c clock
  calls owner := by
    cases owner with
    | send n => exact ⟨fun _ _ => not_mem_nil, fun s hs => nomatch (hs : none = some s)⟩
    | delete n => exact fun d hd => nomatch (hd : none = some d)
    | system n => exact fun c rows hs => nomatch (hs : none = some (c, rows))

theorem Inv.step {w' : World} {a : Action} (h : Inv w) (hw : step w a = some w') : Inv w' := by
  cases a with
  | send n access device out refused =>
    rw [Impl.Chat.Store.step] at hw
    split_ifs at hw with hnone
    cases hw
    have hun : Unstored w n := (h.calls (.send n)).1 (not_isSome_iff_eq_none.1 hnone)
    cases refused with
    | none | some error => exact h.setSend hun
  | work n =>
    obtain ⟨s, hs, hw⟩ := bind_eq_some_iff.1 hw
    exact h.work hs hw
  | attach n error =>
    obtain ⟨s, hs, hw⟩ := bind_eq_some_iff.1 hw
    have hok := h.sendOk hs
    split at hw
    · rename_i c row hphase
      rw [SendOk, hphase] at hok
      cases hw
      cases error with
      | none => exact h.setSend hok
      | some error => exact h.endSend hok.2.2
    · cases hw
  | commit n outcome =>
    obtain ⟨s, hs, -⟩ := bind_eq_some_iff.1 hw
    exact h.commit hs hw
  | publish n published =>
    obtain ⟨s, hs, hw⟩ := bind_eq_some_iff.1 hw
    have hok := h.sendOk hs
    split at hw
    · rename_i row hphase
      rw [SendOk, hphase] at hok
      cases hw
      cases published <;> exact h.setSend hok
    · cases hw
  | lose n =>
    obtain ⟨s, hs, hw⟩ := bind_eq_some_iff.1 hw
    split at hw
    · cases hw
    cases hw
    exact h.endSend sendOk_lost
  | delete n access seq =>
    rw [Impl.Chat.Store.step] at hw
    split_ifs at hw
    cases hw
    exact h.setDelete trivial
  | workDelete n notice =>
    obtain ⟨d, -, hw⟩ := bind_eq_some_iff.1 hw
    exact h.workDelete hw
  | drop n dropped =>
    obtain ⟨d, hd, hw⟩ := bind_eq_some_iff.1 hw
    have hok := h.calls (.delete n) d hd
    split at hw
    · rename_i seqs c row hphase
      rw [DeleteOk, hphase] at hok
      cases hw
      cases dropped with
      | true => exact h.setDelete hok
      | false => exact h.endDelete d
    · cases hw
  | commitDelete n outcome =>
    obtain ⟨d, hd, -⟩ := bind_eq_some_iff.1 hw
    exact h.commitDelete hd hw
  | loseDelete n =>
    obtain ⟨d, -, rfl⟩ := map_eq_some_iff.1 hw
    exact h.endDelete d
  | systemRow n notice => exact h.systemRow hw
  | commitSystem n outcome => exact h.commitSystem hw
  | rollbackSystem n =>
    rw [Impl.Chat.Store.step] at hw
    split_ifs at hw with hlock
    cases hw
    exact h.step_system (Quiet.shift ⟨rfl, rfl, rfl⟩ (.inr (.inr hlock))) rfl rfl rfl nofun
  | rotateIfDue epoch =>
    rw [Impl.Chat.Store.step] at hw
    split_ifs at hw
    cases hw
    refine h.step_none (Quiet.shift ⟨rfl, rfl, ?_⟩ (.inl rfl)) rfl rfl rfl
    cases hc : w.conversation.rotateIfDue epoch w.clock with
    | error e => rfl
    | ok c => exact rotateIfDue_lastSeq hc
  | markRekey =>
    rw [Impl.Chat.Store.step] at hw
    split_ifs at hw
    cases hw
    refine h.step_none (Quiet.shift ⟨rfl, rfl, ?_⟩ (.inl rfl)) rfl rfl rfl
    dsimp only [Conversation.markRekey]
    split <;> rfl
  | setTtl ttlS | shred =>
    rw [Impl.Chat.Store.step] at hw
    split_ifs at hw
    cases hw
    exact h.step_none (Quiet.shift ⟨rfl, rfl, rfl⟩ (.inl rfl)) rfl rfl rfl
  | tick ms =>
    cases hw
    exact h.step_none (Quiet.shift ⟨rfl, rfl, rfl⟩ (.inl rfl)) rfl rfl rfl

theorem Numbered.map (h : Numbered w) {β : Type} {f : Row → β} (hf : ∀ row, f (key row) = f row) :
    w.stored.map (fun s => f s.2) = w.messages.map f := by
  have hmap := congrArg (List.map f) h.stored
  simpa only [List.map_map, Function.comp_def, hf] using hmap

/-- The rows stored are numbered `1, …, last_seq` in the order of their commits, with one client id each. A send
answers the stored row of its client id, which is its caller's, or an error before publication, and then it stored
nothing; if the publication failed, the row of its client id is stored all the same. -/
theorem messages_numbered_once (c : Conversation) (clock : Int) {as : List Action} {w : World}
    (h : run Impl.Chat.Store.step (World.start c clock) as = some w) :
    w.stored.map (fun s => s.2.seq) = (List.range w.stored.length).map (fun (i : Nat) => (i : Int) + 1) ∧
    w.conversation.lastSeq = w.stored.length ∧
    (w.stored.map fun s => s.2.clientId).Nodup ∧
    w.messages.map key = w.stored.map (fun s => key s.2) ∧
    ∀ n s, w.sends n = some s →
      (∀ row, s.phase = .done (.row row) ∨ s.phase = .done (.busy row) →
        (∃ owner stored, (owner, stored) ∈ w.stored ∧ key stored = key row) ∧
          row.clientId = s.out.clientId ∧ row.senderUser = s.access.userId) ∧
      ∀ error, s.phase = .done (.error error) → ∀ row, (.send n, row) ∉ w.stored := by
  have hinv : Inv w := run_invariant (fun h hs => h.step hs) (Inv.start c clock) h
  have hn := hinv.numbered
  have hlength : w.stored.length = w.messages.length := by simpa using congrArg List.length hn.stored
  refine ⟨?_, ?_, ?_, hn.stored.symm, fun n s hs => ⟨fun row hphase => ?_, fun error hphase => ?_⟩⟩
  · rw [hn.map key_seq, hn.seqs, hlength, numbers]
    simp only [zero_add]
  · rw [hlength, hn.lastSeq]
  · rw [hn.map key_clientId]
    exact hn.clients
  · have hok := hinv.sendOk hs
    obtain ⟨hmem, hnames⟩ : Settled w s row := by
      rcases hphase with hphase | hphase <;> rw [SendOk, hphase] at hok <;> exact hok
    rw [← hn.stored] at hmem
    obtain ⟨⟨owner, stored⟩, hmem, hkey⟩ := mem_map.1 hmem
    exact ⟨⟨owner, stored, hmem, hkey⟩, hnames⟩
  · have hok := hinv.sendOk hs
    rw [SendOk, hphase] at hok
    exact hok

def group : Conversation := ⟨.group, false, 0, 1, false, 0, 1, none, none, none⟩

/-- A post of `101` that is sent twice, and a post of `102` with the same client id. -/
def resends : List Action :=
  let out : Outgoing := ⟨5, .post, 1, none, [1], by decide, rfl⟩
  let sends (n : Nat) (user : String) := Action.send n ⟨user, .active, 0, false⟩ 7 out none
  [sends 0 "101", sends 1 "101", sends 2 "102", .work 0, .work 1, .work 2, .work 0, .work 0, .attach 0 none,
    .commit 0 .done, .publish 0 true, .work 1, .work 1, .work 1, .publish 1 true, .work 2, .work 2, .work 2]

theorem messages_numbered_once_resent : ∃ w, run step (World.start group 1) resends = some w ∧
    w.stored.map (fun s => s.2.seq) = [1] ∧ w.conversation.lastSeq = 1 ∧
    w.messages.map key = w.stored.map (fun s => key s.2) := by
  obtain ⟨w, hw, hend⟩ := map_eq_some_iff.1
    (show (run step (World.start group 1) resends).map (fun w => w.stored.length) = some 1 by decide)
  obtain ⟨hseqs, hlast, -, hkeys, -⟩ := messages_numbered_once group 1 hw
  rw [hend] at hseqs hlast
  exact ⟨w, hw, hseqs, hlast, hkeys⟩

/-- The publication fails after the commit: the send answers `chat_busy`, and its row is stored under a new number. -/
theorem busy_after_commit :
    ∃ w s row, run step (World.start group 1) (resends.take 10 ++ [.publish 0 false]) = some w ∧
      w.sends 0 = some s ∧ s.phase = .done (.busy row) ∧ w.stored = [(.send 0, row)] := by
  refine ⟨_, _, _, rfl, rfl, rfl, ?_⟩
  decide

end SC.Proof.Chat.Store
