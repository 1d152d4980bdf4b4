import Mathlib.Data.List.Nodup
import SoundCloudBackend.Framework.Run
import SoundCloudBackend.Impl.Auth.Linking

/-!
# A device link gives out one session

Two callers meet at a link: one grants the connection of its session (the claimer of a pull,
the creator of a push) and the other receives a session. A claim marks the link, so a link
grants once; and the bind of the new session is one that the receiver presented, granted only
while the granter's session still has the bind that the granter proved to own (`GrantOk`).
-/

namespace SC.Proof.Auth.Linking

open Impl.Auth.Linking
open Impl.Replication (Uuid)
open List Option

variable {db db' : Db} {draw : Draw} {w w' : World} {caller : Caller} {link : Link} {g : Grant}
variable {mode : Mode} {claimToken : String} {change : Link → Link} {k : Nat} {call : Call}

def granter (g : Grant) : Caller :=
  match g.link.mode with
  | .pull => g.claimer
  | .push => g.link.creator

def receiver (g : Grant) : Caller :=
  match g.link.mode with
  | .pull => g.link.creator
  | .push => g.claimer

/-- A grant came from a pending, unexpired link, hands on the granter's connection, and gives the
receiver a chat binding only if the granter proved it. -/
structure GrantOk (g : Grant) : Prop where
  pending : g.link.status = .pending
  unexpired : g.now ≤ g.link.expiresAt
  source : (granter g).session = some g.sourceId
  connected : g.source.connection.isSome
  connection : g.session.connection = g.source.connection
  bind : ∀ b, g.session.chatBind = some b →
    (receiver g).bind = some b ∧
      ∃ v, g.source.chatBind = some v ∧ (granter g).proof = some v ∧ (granter g).owns v = true

def CallerOk (caller : Caller) : Prop := ∀ v, caller.proof = some v → caller.owns v = true

/-- What a link keeps of its creator: the bind of a pull is the one presented, and of a push the one proven. -/
structure LinkOk (link : Link) : Prop where
  pull : link.mode = .pull → link.chatBind = link.creator.bind
  source : link.mode = .push → link.source = link.creator.session
  push : link.mode = .push → ∀ v, link.chatBind = some v → link.creator.proof = some v ∧ link.creator.owns v = true

/-! ## The two functions -/

/-- What a successful create does: one new pending link, whose chat binding is the source session's
when the caller's proof matches it. -/
structure Creates (db : Db) (mode : Mode) (source : Option Uuid) (chatBind : Option Bind) (creator : Caller) (db' : Db)
    (link : Link) : Prop where
  inserted : db' = { db with links := db.links ++ [link] }
  fresh : ∀ other ∈ db.links, other.id ≠ link.id
  sameMode : link.mode = mode
  sameSource : link.source = source
  sameCreator : link.creator = creator
  storedBind : link.chatBind = createdBind (source.bind db.sessions) chatBind
  sourceless : mode = .pull → source = none
  connected : mode = .push → ((source.bind db.sessions).bind Session.connection).isSome

theorem authLinkCreate_spec {source : Option Uuid} {chatBind : Option Bind}
    (h : authLinkCreate db draw mode source chatBind caller = .ok (some (db', link))) :
    Creates db mode source chatBind caller db' link := by
  simp only [authLinkCreate] at h
  split at h
  · cases h
  rename_i hmode
  split at h
  · cases h
  split at h
  · cases h
  split at h
  · cases h
  rename_i hconnected
  obtain ⟨new, hinsert, h⟩ := bind_eq_ok h
  cases h
  rw [insertLink] at hinsert
  split_ifs at hinsert with hany
  cases hinsert
  refine ⟨rfl, fun other hother hid => hany (any_eq_true.2 ⟨other, hother, ?_⟩), rfl, rfl, rfl, rfl, ?_, ?_⟩
  · simp [hid]
  · rintro rfl
    cases source with
    | none => rfl
    | some id => exact absurd rfl hmode
  · intro hpush
    exact isSome_iff_ne_none.2 fun hnone => hconnected ⟨hpush, isNone_iff_eq_none.2 hnone⟩

/-- What a successful claim read and granted. -/
structure Claims (db : Db) (claimer : Caller) (db' : Db) (g : Grant) : Prop where
  found : g.link ∈ db.links
  pending : g.link.status = .pending
  unexpired : g.now ≤ g.link.expiresAt
  granting : claimSource g.link claimer.session = some g.sourceId
  source : db.sessions g.sourceId = some g.source
  connected : g.source.connection.isSome
  fresh : db.sessions g.target = none
  session : g.session = ⟨g.source.connection, grantedBind g.link g.source claimer.bind claimer.proof⟩
  sameClaimer : g.claimer = claimer
  updated : db' = updateLink { db with sessions := Function.update db.sessions g.target (some g.session) } g.link.id
    fun row => { row with source := some g.sourceId, target := some g.target, status := .claimed }

theorem authLinkClaim_spec {outcome : Outcome} {grant : Option Grant}
    (h : authLinkClaim db draw claimToken caller = .ok (db', outcome, grant)) : (grant = none ∧ (db' = db ∨
      ∃ link ∈ db.links, link.status = .pending ∧
        db' = updateLink db link.id fun row => { row with status := .failed "Expired" })) ∨
      ∃ g, grant = some g ∧ Claims db caller db' g := by
  simp only [authLinkClaim] at h
  split at h
  · cases h
  split at h
  · cases h
    exact .inl ⟨rfl, .inl rfl⟩
  · rename_i link hfind
    have hlink := mem_of_find?_eq_some hfind
    have hpending : link.status = .pending := by
      have := List.find?_some hfind
      simp only [Bool.and_eq_true, decide_eq_true_eq] at this
      exact this.2
    split at h
    · cases h
      exact .inl ⟨rfl, .inr ⟨link, hlink, hpending, rfl⟩⟩
    · rename_i hunexpired
      cases hsource : claimSource link caller.session with
      | none =>
        simp only [hsource] at h
        cases hmode : link.mode with
        | pull | push =>
          simp only [hmode] at h
          cases h
          exact .inl ⟨rfl, .inl rfl⟩
      | some sourceId =>
        simp only [hsource] at h
        cases hstored : db.sessions sourceId with
        | none =>
          simp only [hstored] at h
          cases h
          exact .inl ⟨rfl, .inl rfl⟩
        | some source =>
          simp only [hstored] at h
          split at h
          · cases h
            exact .inl ⟨rfl, .inl rfl⟩
          · rename_i hconnected
            split at h
            · cases h
            rename_i hfresh
            cases h
            refine .inr ⟨_, rfl, hlink, hpending, Nat.not_lt.1 hunexpired, hsource, hstored, ?_, ?_, rfl, rfl, rfl⟩
            · exact isSome_iff_ne_none.2 fun hnone => hconnected (isNone_iff_eq_none.2 hnone)
            · exact not_isSome_iff_eq_none.1 hfresh

/-! ## What a link and a grant have -/

theorem eq_of_sqlEq {a b : Option Bind} (h : sqlEq a b = true) : ∃ v, a = some v ∧ b = some v := by
  rw [sqlEq, Bool.and_eq_true, beq_iff_eq] at h
  obtain ⟨v, hv⟩ := isSome_iff_exists.1 h.1
  exact ⟨v, hv, h.2 ▸ hv⟩

theorem Creates.linkOk (h : Creates db mode caller.session (presentedBind mode caller) caller db' link)
    (hcaller : CallerOk caller) : LinkOk link := by
  refine ⟨fun hmode => ?_, fun _ => ?_, fun hmode v hv => ?_⟩
  · rw [h.sameMode] at hmode
    rw [h.storedBind, h.sourceless hmode, h.sameCreator, hmode]
    cases hbind : caller.bind <;> simp [presentedBind, hbind, createdBind]
  · rw [h.sameSource, h.sameCreator]
  · rw [h.sameMode] at hmode
    obtain ⟨connection, hsession⟩ := isSome_iff_exists.1 (h.connected hmode)
    obtain ⟨session, hsession, -⟩ := bind_eq_some_iff.1 hsession
    rw [h.storedBind, hsession, createdBind, hmode] at hv
    have hpresented : presentedBind .push caller = some v := by
      split_ifs at hv
      exact hv
    have hproof : caller.proof = some v := by
      cases hbind : caller.bind with
      | none => simp [presentedBind, hbind] at hpresented
      | some bind => simpa [presentedBind, hbind] using hpresented
    rw [h.sameCreator]
    exact ⟨hproof, hcaller v hproof⟩

theorem Claims.grantOk (h : Claims db caller db' g) (hlink : LinkOk g.link) (hcaller : CallerOk caller) : GrantOk g := by
  have hbind : g.session.chatBind = grantedBind g.link g.source caller.bind caller.proof := by rw [h.session]
  have hgranting := h.granting
  rw [claimSource] at hgranting
  rw [grantedBind] at hbind
  cases hmode : g.link.mode with
  | pull =>
    simp only [hmode] at hbind hgranting
    refine ⟨h.pending, h.unexpired, ?_, h.connected, by rw [h.session], fun b hb => ?_⟩
    · simp only [granter, hmode, h.sameClaimer, hgranting]
    · simp only [granter, receiver, hmode, h.sameClaimer]
      rw [hbind] at hb
      split_ifs at hb with heq
      obtain ⟨v, hproof, hv⟩ := eq_of_sqlEq heq
      exact ⟨(hlink.pull hmode).symm.trans hb, v, hv, hproof, hcaller v hproof⟩
  | push =>
    simp only [hmode] at hbind hgranting
    refine ⟨h.pending, h.unexpired, ?_, h.connected, by rw [h.session], fun b hb => ?_⟩
    · simp only [granter, hmode, ← hlink.source hmode, hgranting]
    · simp only [granter, receiver, hmode, h.sameClaimer]
      rw [hbind] at hb
      split_ifs at hb with heq
      obtain ⟨v, hlinkBind, hv⟩ := eq_of_sqlEq heq
      exact ⟨hb, v, hv, hlink.push hmode v hlinkBind⟩

/-! ## Steps -/

/-- A link is granted at most once, and every grant so far was in order. -/
structure Inv (w : World) : Prop where
  calls : ∀ call ∈ w.calls, CallerOk call.caller
  ids : (w.db.links.map Link.id).Nodup
  links : ∀ link ∈ w.db.links, LinkOk link
  granted : ∀ g ∈ w.grants, ∃ link ∈ w.db.links, link.id = g.link.id ∧ link.status = .claimed
  once : (w.grants.map fun g => g.link.id).Nodup
  grants : ∀ g ∈ w.grants, GrantOk g

theorem mem_updateLink {id : Uuid} :
    link ∈ (updateLink db id change).links ↔ ∃ old ∈ db.links, (if old.id = id then change old else old) = link :=
  mem_map

theorem ids_updateLink {id : Uuid} (hid : ∀ link, (change link).id = link.id) :
    (updateLink db id change).links.map Link.id = db.links.map Link.id := by
  rw [updateLink, List.map_map]
  refine List.map_congr_left fun link _ => ?_
  simp only [Function.comp_apply]
  split
  · exact hid link
  · rfl

/-- The links of a database whose rows are known by their ids, after a change of one pending row. -/
theorem Inv.updateLink (h : Inv w) {f : Link → Link} (hlink : link ∈ w.db.links) (hpending : link.status = .pending)
    (hid : ∀ row, (f row).id = row.id) (hok : LinkOk (f link)) {links : List Link}
    (hlinks : links = (updateLink w.db link.id f).links) :
    (links.map Link.id).Nodup ∧ (∀ row ∈ links, LinkOk row) ∧ f link ∈ links ∧
      ∀ g ∈ w.grants, g.link.id ≠ link.id ∧ ∃ row ∈ links, row.id = g.link.id ∧ row.status = .claimed := by
  subst hlinks
  have hsame : ∀ row ∈ w.db.links, row.id = link.id → row = link := fun row hrow heq =>
    inj_on_of_nodup_map h.ids hrow hlink heq
  refine ⟨(ids_updateLink hid).symm ▸ h.ids, fun row hrow => ?_, mem_updateLink.2 ⟨link, hlink, if_pos rfl⟩, fun g hg => ?_⟩
  · obtain ⟨old, hold, rfl⟩ := mem_updateLink.1 hrow
    split
    · rename_i heq
      rw [hsame old hold heq]
      exact hok
    · exact h.links old hold
  · obtain ⟨row, hrow, hrowId, hclaimed⟩ := h.granted g hg
    have hne : row.id ≠ link.id := by
      intro heq
      rw [hsame row hrow heq, hpending] at hclaimed
      cases hclaimed
    exact ⟨hrowId ▸ hne, row, mem_updateLink.2 ⟨row, hrow, if_neg hne⟩, hrowId, hclaimed⟩

theorem Inv.answer (h : Inv w) (answer : Answer) : Inv (w.answer answer) := ⟨h.1, h.2, h.3, h.4, h.5, h.6⟩

theorem Inv.finish (h : Inv w) (k : Nat) (answer : Answer) : Inv (w.finish k answer) :=
  ⟨fun call hcall => h.calls call ((eraseIdx_sublist _ k).subset hcall), h.2, h.3, h.4, h.5, h.6⟩

theorem Inv.setCall (h : Inv w) (hcall : CallerOk call.caller) : Inv { w with calls := w.calls.set k call } := by
  refine ⟨fun other hother => ?_, h.2, h.3, h.4, h.5, h.6⟩
  rcases mem_or_eq_of_mem_set hother with hother | rfl
  · exact h.calls other hother
  · exact hcall

theorem Inv.addCall (h : Inv w) (hcall : CallerOk call.caller) : Inv { w with calls := w.calls ++ [call] } := by
  refine ⟨fun other hother => ?_, h.2, h.3, h.4, h.5, h.6⟩
  rcases mem_append.1 hother with hother | hother
  · exact h.calls other hother
  · rw [mem_singleton.1 hother]
    exact hcall

theorem callerOk_sourceProof (db : Db) (caller : Caller) : CallerOk { caller with proof := sourceProof db caller } :=
  fun _ hv => (filter_eq_some_iff.1 hv).2

theorem inv_performCreate (h : Inv w) (hcaller : CallerOk caller) : Inv (performCreate w k draw mode caller) := by
  rw [performCreate]
  split
  · exact h.finish k _
  · exact h.finish k _
  · rename_i db link hcreate
    have hspec := authLinkCreate_spec hcreate
    have hlinks : db.links = w.db.links ++ [link] := congrArg Db.links hspec.inserted
    have hnew : Inv { w with db } := by
      refine ⟨h.calls, ?_, ?_, fun g hg => ?_, h.once, h.grants⟩
      · rw [hlinks, map_append, nodup_append']
        refine ⟨h.ids, nodup_singleton _, fun id hid hnew => ?_⟩
        obtain ⟨other, hother, rfl⟩ := mem_map.1 hid
        exact hspec.fresh other hother (mem_singleton.1 hnew)
      · rw [hlinks]
        intro other hother
        rcases mem_append.1 hother with hother | hother
        · exact h.links other hother
        · rw [mem_singleton.1 hother]
          exact hspec.linkOk hcaller
      · obtain ⟨row, hrow, hid, hclaimed⟩ := h.granted g hg
        exact ⟨row, hlinks ▸ mem_append_left _ hrow, hid, hclaimed⟩
    exact hnew.finish k _

theorem Claims.links (h : Claims db caller db' g) : db'.links = (updateLink db g.link.id fun row =>
    { row with source := some g.sourceId, target := some g.target, status := .claimed }).links := by
  rw [h.updated]
  rfl

theorem Claims.linkOk (h : Claims db caller db' g) (hlink : LinkOk g.link) :
    LinkOk { g.link with source := some g.sourceId, target := some g.target, status := .claimed } := by
  refine ⟨hlink.pull, fun hmode => ?_, hlink.push⟩
  have hgranting := h.granting
  have hpush : g.link.mode = .push := hmode
  rw [claimSource, hpush] at hgranting
  exact hgranting.symm.trans (hlink.source hpush)

theorem inv_performClaim (h : Inv w) (hcaller : CallerOk caller) :
    Inv (performClaim w k draw claimToken caller) := by
  rw [performClaim]
  split
  · exact h.finish k _
  · rename_i db outcome grant hclaim
    have hnew : Inv { w with db, grants := w.grants ++ grant.toList } := by
      rcases authLinkClaim_spec hclaim with ⟨rfl, rfl | ⟨link, hlink, hpending, hdb⟩⟩ | ⟨g, rfl, hspec⟩
      · rw [toList_none, append_nil]
        exact h
      · have hok := h.links link hlink
        obtain ⟨hids, hlinks, -, hgranted⟩ := h.updateLink hlink hpending (fun _ => rfl)
          (f := fun row => { row with status := .failed "Expired" }) ⟨hok.pull, hok.source, hok.push⟩
          (congrArg Db.links hdb)
        rw [toList_none, append_nil]
        exact ⟨h.calls, hids, hlinks, fun g hg => (hgranted g hg).2, h.once, h.grants⟩
      · have hok := h.links g.link hspec.found
        obtain ⟨hids, hlinks, hmem, hgranted⟩ := h.updateLink hspec.found hspec.pending (fun _ => rfl)
          (f := fun row => { row with source := some g.sourceId, target := some g.target, status := .claimed })
          (hspec.linkOk hok) hspec.links
        refine ⟨h.calls, hids, hlinks, fun g' hg' => ?_, ?_, fun g' hg' => ?_⟩
        · rcases mem_append.1 hg' with hg' | hg'
          · exact (hgranted g' hg').2
          · rw [mem_singleton.1 hg']
            exact ⟨_, hmem, rfl, rfl⟩
        · rw [toList_some, map_append, nodup_append']
          refine ⟨h.once, nodup_singleton _, fun id hid hnew => ?_⟩
          obtain ⟨g', hg', rfl⟩ := mem_map.1 hid
          exact (hgranted g' hg').1 (mem_singleton.1 hnew)
        · rcases mem_append.1 hg' with hg' | hg'
          · exact h.grants g' hg'
          · rw [mem_singleton.1 hg']
            exact hspec.grantOk hok hcaller
    split <;> exact hnew.finish k _

theorem callerOk_start (session : Option Uuid) (bind : Option Bind) (owns : Bind → Bool) :
    CallerOk ⟨session, bind, owns, none⟩ := nofun

theorem step_inv {a : Action} (h : Inv w) (hs : step w a = some w') : Inv w' := by
  cases a with
  | createBound mode source bind owns =>
    simp only [step] at hs
    split at hs
    · cases hs
      exact h.answer _
    · cases hs
      exact h.addCall (callerOk_start _ _ _)
  | claimBound claimToken session bind owns =>
    cases hs
    exact h.addCall (callerOk_start _ _ _)
  | check k =>
    simp only [step] at hs
    split at hs
    · rename_i request caller hk
      cases hs
      rw [checkSource]
      split
      · exact h.finish k _
      · split
        · exact h.finish k _
        · have hcaller : CallerOk caller := h.calls _ (mem_of_getElem? hk)
          exact h.setCall hcaller
    · cases hs
  | prove k =>
    simp only [step] at hs
    split at hs
    · cases hs
      exact h.setCall (callerOk_sourceProof _ _)
    · cases hs
  | perform k draw =>
    simp only [step] at hs
    split at hs
    · rename_i hk
      cases hs
      exact inv_performCreate h (h.calls _ (mem_of_getElem? hk))
    · rename_i hk
      cases hs
      exact inv_performClaim h (h.calls _ (mem_of_getElem? hk))
    · cases hs
  | setSession id session =>
    cases hs
    exact ⟨h.1, h.2, h.3, h.4, h.5, h.6⟩

theorem inv_start (sessions : Uuid → Option Session) : Inv (start sessions) :=
  ⟨fun _ h => (nomatch h), .nil, fun _ h => (nomatch h), fun _ h => (nomatch h), .nil, fun _ h => nomatch h⟩

/-- The step claims a link of the database and adds a session to it. -/
structure Adds (w w' : World) (g : Grant) : Prop where
  link : g.link ∈ w.db.links
  source : w.db.sessions g.sourceId = some g.source
  fresh : w.db.sessions g.target = none
  sessions : w'.db.sessions = Function.update w.db.sessions g.target (some g.session)
  grants : w'.grants = w.grants ++ [g]

/-- A step of the service adds a session only with a grant. -/
def AddsOnlyGrants (w : World) (a : Action) (w' : World) : Prop :=
  (w'.db.sessions = w.db.sessions ∧ w'.grants = w.grants) ∨ (∃ id session, a = .setSession id session ∧ w'.grants = w.grants) ∨
    ∃ g, Adds w w' g

theorem performCreate_sessions : (performCreate w k draw mode caller).db.sessions = w.db.sessions ∧
      (performCreate w k draw mode caller).grants = w.grants := by
  rw [performCreate]
  split
  · exact ⟨rfl, rfl⟩
  · exact ⟨rfl, rfl⟩
  · rename_i db link hcreate
    have hsessions : db.sessions = w.db.sessions := by rw [(authLinkCreate_spec hcreate).inserted]
    exact ⟨hsessions, rfl⟩

theorem performClaim_sessions : ((performClaim w k draw claimToken caller).db.sessions = w.db.sessions ∧
      (performClaim w k draw claimToken caller).grants = w.grants) ∨
      ∃ g, Adds w (performClaim w k draw claimToken caller) g := by
  rw [performClaim]
  split
  · exact .inl ⟨rfl, rfl⟩
  · rename_i db outcome grant hclaim
    have hadds : ∀ w' : World, w'.db = db → w'.grants = w.grants ++ grant.toList →
        (w'.db.sessions = w.db.sessions ∧ w'.grants = w.grants) ∨ ∃ g, Adds w w' g := by
      intro w' hdb hgrants
      rcases authLinkClaim_spec hclaim with ⟨rfl, rfl | ⟨link, -, -, hupdated⟩⟩ | ⟨g, rfl, hspec⟩
      · exact .inl ⟨congrArg Db.sessions hdb, by simpa using hgrants⟩
      · refine .inl ⟨?_, by simpa using hgrants⟩
        rw [hdb, hupdated]
        rfl
      · refine .inr ⟨g, hspec.found, hspec.source, hspec.fresh, ?_, hgrants⟩
        rw [hdb, hspec.updated]
        rfl
    split <;> exact hadds _ rfl rfl

theorem step_adds {a : Action} (hs : step w a = some w') : AddsOnlyGrants w a w' := by
  cases a with
  | createBound mode source bind owns =>
    simp only [step] at hs
    split at hs <;> cases hs <;> exact .inl ⟨rfl, rfl⟩
  | claimBound claimToken session bind owns =>
    cases hs
    exact .inl ⟨rfl, rfl⟩
  | check k =>
    simp only [step] at hs
    split at hs
    · cases hs
      rw [checkSource]
      split
      · exact .inl ⟨rfl, rfl⟩
      · split <;> exact .inl ⟨rfl, rfl⟩
    · cases hs
  | prove k =>
    simp only [step] at hs
    split at hs
    · cases hs
      exact .inl ⟨rfl, rfl⟩
    · cases hs
  | perform k draw =>
    simp only [step] at hs
    split at hs
    · cases hs
      exact .inl performCreate_sessions
    · cases hs
      exact performClaim_sessions.imp id .inr
    · cases hs
  | setSession id session =>
    cases hs
    exact .inr (.inl ⟨id, session, rfl, rfl⟩)

/-- In every run each link grants at most one session, pending and unexpired, with the connection its source session has
then, and with no bind but one that the receiver presented and the granter's proof allows; and no other session is added. -/
theorem link_grants_one_proven_session (sessions : Uuid → Option Session) (actions : List Action) (w : World)
    (h : run step (start sessions) actions = some w) :
    (w.grants.map fun g => g.link.id).Nodup ∧ (∀ g ∈ w.grants, GrantOk g) ∧
      ∀ a w', step w a = some w' → AddsOnlyGrants w a w' := by
  have hinv := run_invariant (I := Inv) step_inv (inv_start sessions) h
  exact ⟨hinv.once, hinv.grants, fun _ _ => step_adds⟩

def boundSession (id : Uuid) : Option Session := if id = 1 then some ⟨some 9, some [7]⟩ else none

/-- A device pulls a session with a bind of its own from a session whose bind the claimer owns. -/
def pulled : List Action :=
  [.createBound "pull" none (some [5]) fun _ => false, .perform 0 ⟨2, "token", 0, false⟩,
    .claimBound "token" (some 1) (some [7]) fun bind => bind = [7], .prove 0, .perform 0 ⟨3, "", 10, false⟩]

theorem link_grants_one_proven_session_pull :
    ∃ w, run step (start boundSession) pulled = some w ∧ (w.db.sessions 3).map Session.chatBind = some (some [5]) ∧
      ∀ g ∈ w.grants, GrantOk g :=
  ⟨_, rfl, rfl, (link_grants_one_proven_session boundSession pulled _ rfl).2.1⟩

end SC.Proof.Auth.Linking
