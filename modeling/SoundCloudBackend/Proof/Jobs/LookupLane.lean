import SoundCloudBackend.Framework.Lists
import SoundCloudBackend.Framework.Run
import SoundCloudBackend.Impl.Jobs.LookupLane

/-!
# Lookup slots are counted exactly

`Exact held slots` says that the counters are the numbers of the live slots in a list. The
release of a slot takes it out of the list (`Exact.release`), a grant puts slots in, and a
claim that is bound to jobs turns its reserved slots into bound ones (`Exact.bind`). `Inv`
says it of all owners together, and that the slots of lists and claims are reserved ones,
so that no subtraction of the source is cut at zero.
-/

namespace SC.Proof.Jobs.LookupLane

open Impl.Jobs.LookupLane
open List Option Bool

variable {held : Held} {slots slots' : List Slot} {slot : Slot} {w w' : Lane}
variable {k : Nat} {claim claim' : Claim}

def onTargeted (s : Slot) : Bool := s.path = .targeted

def onSweep (s : Slot) : Bool := s.path = .sweep

/-- The counters are the numbers of slots they stand for. -/
structure Exact (held : Held) (slots : List Slot) : Prop where
  targeted : held.targeted = slots.countP onTargeted
  sweep : held.sweep = slots.countP onSweep
  reserved : held.reserved = slots.countP Slot.reserved

theorem Exact.perm (h : Exact held slots) (hp : slots.Perm slots') : Exact held slots' where
  targeted := h.targeted.trans (hp.countP_eq _)
  sweep := h.sweep.trans (hp.countP_eq _)
  reserved := h.reserved.trans (hp.countP_eq _)

theorem Exact.release (h : Exact held (slot :: slots)) : Exact (release held slot) slots := by
  obtain ⟨htargeted, hsweep, hreserved⟩ := h
  obtain ⟨path, reserved⟩ := slot
  cases path <;> cases reserved <;>
    simp [onTargeted, onSweep] at htargeted hsweep hreserved <;>
    constructor <;> simp [Impl.Jobs.LookupLane.release, htargeted, hsweep, hreserved]

theorem Exact.bind {claimed : List Slot} {reserved jobs : Nat} (h : Exact held (claimed ++ slots))
    (hclaimed : ∀ s ∈ claimed, s = ⟨.targeted, true⟩) :
    Exact (bind held claimed.length reserved jobs) (slots ++ claimed.map fun s => { s with reserved := false }) := by
  obtain ⟨htargeted, hsweep, hreserved⟩ := h
  have hcount : claimed.countP Slot.reserved = claimed.length := countP_eq_length.2 fun s hs => by rw [hclaimed s hs]
  have hnone : (claimed.map fun s => { s with reserved := false }).countP Slot.reserved = 0 := by simp
  have hpath : ∀ p : Slot → Bool, (∀ s, p { s with reserved := false } = p s) →
      (claimed.map fun s => { s with reserved := false }).countP p = claimed.countP p := by
    intro p hp
    rw [countP_map]
    exact countP_congr fun s _ => by rw [Function.comp_apply, hp]
  refine ⟨?_, ?_, ?_⟩
  · rw [countP_append, hpath onTargeted fun _ => rfl, Nat.add_comm, ← countP_append]
    exact htargeted
  · rw [countP_append, hpath onSweep fun _ => rfl, Nat.add_comm, ← countP_append]
    exact hsweep
  · rw [countP_append, hcount] at hreserved
    rw [countP_append, hnone, Impl.Jobs.LookupLane.bind]
    simp only [hreserved]
    omega

/-! ## Grants -/

/-- A targeted grant stays under the cap and leaves the share of a sweep that wants lookups. -/
theorem targetedRoom_spec {cap : Nat} (h : 0 < targetedRoom held cap) :
    held.targeted + targetedRoom held cap + held.sweep ≤ cap ∧
      min held.sweepWants (sweepShare cap) - held.sweep ≤ cap - (held.targeted + targetedRoom held cap + held.sweep) := by
  simp only [targetedRoom, reserveFor] at h ⊢
  omega

theorem sweepGrants_spec {cap : Nat} (h : sweepGrants held cap = true) : held.targeted + (held.sweep + 1) ≤ cap := by
  simp only [sweepGrants, not_eq_true', or_eq_false_iff, decide_eq_false_iff_not] at h
  omega

/-! ## Runs -/

def claimedSlots (w : Lane) : List (List Slot) := w.claims.map Claim.slots

def live (w : Lane) : List Slot := w.lists.flatten ++ (claimedSlots w).flatten ++ w.singles

/-- The counters are exact; reserved slots are the unclaimed targeted ones. -/
structure Inv (w : Lane) : Prop where
  exact_ : Exact w.held (live w)
  lists : ∀ list ∈ w.lists, ∀ s ∈ list, s = ⟨.targeted, true⟩
  claims : ∀ claim ∈ w.claims, ∀ s ∈ claim.slots, s = ⟨.targeted, true⟩
  singles : ∀ s ∈ w.singles, s.reserved = false

theorem inv_new (base ceiling limit : Nat) : Inv (new base ceiling limit) :=
  ⟨⟨rfl, rfl, rfl⟩, nofun, nofun, nofun⟩

theorem Exact.of_counters {held' : Held} (h : Exact held slots) (ht : held'.targeted = held.targeted)
    (hs : held'.sweep = held.sweep) (hr : held'.reserved = held.reserved) : Exact held' slots :=
  ⟨ht.trans h.targeted, hs.trans h.sweep, hr.trans h.reserved⟩

theorem Exact.grant_targeted {room : Nat} (h : Exact held slots) :
    Exact { held with targeted := held.targeted + room, reserved := held.reserved + room }
      (List.replicate room ⟨.targeted, true⟩ ++ slots) := by
  refine ⟨?_, ?_, ?_⟩
  · rw [countP_append, ← h.targeted, countP_replicate]
    exact Nat.add_comm held.targeted room
  · rw [countP_append, ← h.sweep, countP_replicate]
    exact (Nat.zero_add _).symm
  · rw [countP_append, ← h.reserved, countP_replicate]
    exact Nat.add_comm held.reserved room

theorem Exact.grant_sweep (h : Exact held slots) :
    Exact { held with sweep := held.sweep + 1 } (⟨.sweep, false⟩ :: slots) where
  targeted := h.targeted.trans (countP_cons_of_neg (by decide)).symm
  sweep := (congrArg (· + 1) h.sweep).trans (countP_cons_of_pos (by decide)).symm
  reserved := h.reserved.trans (countP_cons_of_neg (by decide)).symm

theorem inv_grant (h : Inv w) (path : LookupPath) (cap : Nat) : Inv (grant w path cap) := by
  cases path with
  | targeted =>
    refine ⟨h.exact_.grant_targeted.perm ?_, fun list hlist => ?_, h.claims, h.singles⟩
    · refine perm_iff_count.2 fun s => ?_
      simp only [live, grant, claimedSlots, flatten_append, flatten_cons, flatten_nil, append_nil,
        count_append]
      omega
    · rcases mem_append.1 hlist with hlist | hlist
      · exact h.lists list hlist
      · rw [mem_singleton.1 hlist]
        exact fun s hs => eq_of_mem_replicate hs
  | sweep =>
    rw [grant]
    split
    · refine ⟨h.exact_.grant_sweep.perm ?_, h.lists, h.claims, fun s hs => ?_⟩
      · refine perm_iff_count.2 fun s => ?_
        simp only [live, claimedSlots, count_append, count_cons, count_nil]
        omega
      · rcases mem_append.1 hs with hs | hs
        · exact h.singles s hs
        · rw [mem_singleton.1 hs]
    · exact h

theorem inv_dropList {rest : List Slot} (h : Inv w) (hk : w.lists[k]? = some (slot :: rest)) :
    Inv { w with held := release w.held slot, lists := w.lists.set k rest } := by
  have hmem := mem_of_getElem? hk
  obtain ⟨hbefore, hafter⟩ := @flatten_set_perm _ _ _ _ rest hk
  have hlive : (live w).Perm (slot :: live { w with lists := w.lists.set k rest }) := by
    refine perm_iff_count.2 fun s => ?_
    have hb := hbefore.count_eq s
    have ha := hafter.count_eq s
    simp only [live, claimedSlots, count_append, count_cons] at hb ha ⊢
    omega
  refine ⟨(h.exact_.perm hlive).release, fun list hlist => ?_, h.claims, h.singles⟩
  rcases mem_or_eq_of_mem_set hlist with hlist | rfl
  · exact h.lists list hlist
  · exact fun s hs => h.lists _ hmem s (mem_cons_of_mem _ hs)

theorem inv_dropSingle (h : Inv w) (hk : w.singles[k]? = some slot) :
    Inv { w with held := release w.held slot, singles := w.singles.eraseIdx k } := by
  have hlive : (live w).Perm (slot :: live { w with singles := w.singles.eraseIdx k }) := by
    refine perm_iff_count.2 fun s => ?_
    have := (perm_cons_eraseIdx hk).count_eq s
    simp only [live, claimedSlots, count_append, count_cons] at this ⊢
    omega
  exact ⟨(h.exact_.perm hlive).release, h.lists, h.claims, fun s hs => h.singles s (mem_of_mem_eraseIdx hs)⟩

theorem inv_claim (h : Inv w) (hk : w.lists[k]? = some slots) :
    Inv { w with lists := w.lists.eraseIdx k, claims := w.claims ++ [⟨slots, slots.length, .asking⟩] } := by
  have hlive : (live w).Perm
      (live { w with lists := w.lists.eraseIdx k, claims := w.claims ++ [⟨slots, slots.length, .asking⟩] }) := by
    refine perm_iff_count.2 fun s => ?_
    have := (perm_cons_eraseIdx hk).flatten.count_eq s
    simp only [live, claimedSlots, map_append, map_cons, map_nil, flatten_append, flatten_cons,
      flatten_nil, append_nil, count_append] at this ⊢
    omega
  refine ⟨h.exact_.perm hlive, fun list hlist => h.lists list (mem_of_mem_eraseIdx hlist), fun claim hclaim => ?_,
    h.singles⟩
  rcases mem_append.1 hclaim with hclaim | hclaim
  · exact h.claims claim hclaim
  · rw [mem_singleton.1 hclaim]
    exact h.lists slots (mem_of_getElem? hk)

/-- A claim gets another state, with a part of its slots; `gone` are the slots it loses. -/
theorem live_setClaim {gone : List Slot} (hk : w.claims[k]? = some claim)
    (hslots : claim.slots.Perm (gone ++ claim'.slots)) :
    (live w).Perm (gone ++ live { w with claims := w.claims.set k claim' }) := by
  have hk' : (claimedSlots w)[k]? = some claim.slots := by rw [claimedSlots, List.getElem?_map, hk]; rfl
  have hset : claimedSlots { w with claims := w.claims.set k claim' } = (claimedSlots w).set k claim'.slots := map_set
  obtain ⟨hbefore, hafter⟩ := @flatten_set_perm _ _ _ _ claim'.slots hk'
  refine perm_iff_count.2 fun s => ?_
  have hb := hbefore.count_eq s
  have ha := hafter.count_eq s
  have hc := hslots.count_eq s
  simp only [live, hset, count_append] at hb ha hc ⊢
  omega

theorem inv_setClaim (h : Inv w) (hk : w.claims[k]? = some claim)
    (hslots : claim'.slots = claim.slots) : Inv { w with claims := w.claims.set k claim' } := by
  have hnone : claim.slots.Perm ([] ++ claim'.slots) := List.Perm.of_eq hslots.symm
  refine ⟨h.exact_.perm (live_setClaim hk hnone), h.lists, fun c hc => ?_, h.singles⟩
  rcases mem_or_eq_of_mem_set hc with hc | rfl
  · exact h.claims c hc
  · rw [hslots]
    exact h.claims claim (mem_of_getElem? hk)

theorem inv_dropClaimed {i : Nat} (h : Inv w) (hk : w.claims[k]? = some claim) (hi : claim.slots[i]? = some slot) :
    Inv { w with
      held := release w.held slot
      claims := w.claims.set k { claim with slots := claim.slots.eraseIdx i } } := by
  have hgone : claim.slots.Perm ([slot] ++ { claim with slots := claim.slots.eraseIdx i : Claim }.slots) :=
    perm_cons_eraseIdx hi
  refine ⟨(h.exact_.perm (live_setClaim hk hgone)).release, h.lists, fun c hc => ?_, h.singles⟩
  rcases mem_or_eq_of_mem_set hc with hc | rfl
  · exact h.claims c hc
  · exact fun s hs => h.claims claim (mem_of_getElem? hk) s (mem_of_mem_eraseIdx hs)

theorem inv_bound {jobs : Nat} (h : Inv w) (hk : w.claims[k]? = some claim) : Inv { w with
      held := bind w.held claim.slots.length claim.reserved jobs
      claims := w.claims.eraseIdx k
      singles := w.singles ++ claim.slots.map fun slot => { slot with reserved := false } } := by
  have hclaimed := h.claims claim (mem_of_getElem? hk)
  have hlive : (live w).Perm (claim.slots ++ live { w with claims := w.claims.eraseIdx k }) := by
    refine perm_iff_count.2 fun s => ?_
    have := ((perm_cons_eraseIdx hk).map Claim.slots).flatten.count_eq s
    simp only [live, claimedSlots, map_cons, flatten_cons, count_append] at this ⊢
    omega
  refine ⟨?_, h.lists, fun c hc => h.claims c (mem_of_mem_eraseIdx hc), fun s hs => ?_⟩
  · have hbind : Exact (bind w.held claim.slots.length claim.reserved jobs) _ := (h.exact_.perm hlive).bind hclaimed
    rw [live, append_assoc] at hbind
    exact hbind
  · rcases mem_append.1 hs with hs | hs
    · exact h.singles s hs
    · obtain ⟨t, -, rfl⟩ := mem_map.1 hs
      rfl

theorem step_inv {a : Action} (h : Inv w) (hs : step w a = some w') : Inv w' := by
  cases a with
  | setLimit limit =>
    cases hs
    exact ⟨h.exact_, h.lists, h.claims, h.singles⟩
  | wants lookups =>
    cases hs
    exact ⟨h.exact_.of_counters rfl rfl rfl, h.lists, h.claims, h.singles⟩
  | readCap path =>
    cases hs
    exact ⟨h.exact_, h.lists, h.claims, h.singles⟩
  | grant k =>
    obtain ⟨call, -, rfl⟩ := map_eq_some_iff.1 hs
    have hcalls : Inv { w with calls := w.calls.eraseIdx k } := ⟨h.exact_, h.lists, h.claims, h.singles⟩
    exact inv_grant hcalls call.1 call.2
  | dropList k =>
    simp only [step] at hs
    split at hs
    · rename_i slot rest hk
      cases hs
      exact inv_dropList h hk
    · cases hs
  | dropSingle k =>
    obtain ⟨slot, hk, rfl⟩ := map_eq_some_iff.1 hs
    exact inv_dropSingle h hk
  | claim k =>
    obtain ⟨slots, hk, rfl⟩ := map_eq_some_iff.1 hs
    exact inv_claim h hk
  | answered k jobs =>
    simp only [step] at hs
    split at hs
    · rename_i slots reserved hk
      split_ifs at hs
      cases hs
      exact inv_setClaim h hk rfl
    · cases hs
  | failed k =>
    simp only [step] at hs
    split at hs
    · rename_i slots reserved hk
      cases hs
      exact inv_setClaim h hk rfl
    · cases hs
  | dropClaimed k =>
    obtain ⟨claim, hk, hs⟩ := bind_eq_some_iff.1 hs
    obtain ⟨i, -, hs⟩ := bind_eq_some_iff.1 hs
    obtain ⟨slot, hi, rfl⟩ := map_eq_some_iff.1 hs
    exact inv_dropClaimed h hk hi
  | bound k =>
    simp only [step] at hs
    split at hs
    · rename_i slots reserved jobs hk
      split_ifs at hs
      cases hs
      exact inv_bound h hk
    · cases hs

/-! ## The lane -/

/-- A live targeted slot that is not bound to a job yet. -/
def unbound (s : Slot) : Bool := onTargeted s && s.reserved

/-- The counters are exact, and no release or bind takes one below zero. -/
structure CountedExactly (w : Lane) : Prop where
  targeted : w.held.targeted = (live w).countP onTargeted
  sweep : w.held.sweep = (live w).countP onSweep
  reserved : w.held.reserved = (live w).countP unbound
  /-- The release of a live slot never takes one from zero. -/
  no_loss : ∀ s ∈ live w, (onTargeted s → 0 < w.held.targeted) ∧ (onSweep s → 0 < w.held.sweep) ∧
    (s.reserved → 0 < w.held.reserved)
  /-- A claim never unreserves more slots than are reserved. -/
  no_loss_bind : ∀ claim ∈ w.claims, claim.slots.length ≤ w.held.reserved
  /-- A grant under a cap, which the call has read, stays under it. -/
  under_cap : ∀ path cap, w.held.targeted + w.held.sweep < (grant w path cap).held.targeted + (grant w path cap).held.sweep →
    (grant w path cap).held.targeted + (grant w path cap).held.sweep ≤ cap
  /-- A targeted grant leaves the share of a sweep that wants lookups. -/
  share : ∀ cap, w.held.targeted < (grant w .targeted cap).held.targeted →
    min w.held.sweepWants (divCeil cap 4) - w.held.sweep ≤
      cap - ((grant w .targeted cap).held.targeted + w.held.sweep)

theorem countP_pos_of_mem {p : Slot → Bool} (hs : slot ∈ slots) (hp : p slot = true) : 0 < slots.countP p :=
  countP_pos_iff.2 ⟨slot, hs, hp⟩

theorem Inv.unbound (h : Inv w) : (live w).countP Slot.reserved = (live w).countP unbound := by
  refine countP_congr fun s hs => ?_
  rw [LookupLane.unbound, and_eq_true]
  refine ⟨fun hr => ⟨?_, hr⟩, And.right⟩
  simp only [live, mem_append, mem_flatten, claimedSlots, List.mem_map] at hs
  rcases hs with (⟨list, hlist, hs⟩ | ⟨-, ⟨claim, hclaim, rfl⟩, hs⟩) | hs
  · rw [h.lists list hlist s hs]
    rfl
  · rw [h.claims claim hclaim s hs]
    rfl
  · exact absurd (h.singles s hs ▸ hr) Bool.false_ne_true

theorem Inv.claim_le (h : Inv w) (hc : claim ∈ w.claims) : claim.slots.length ≤ w.held.reserved := by
  have hall : claim.slots.countP Slot.reserved = claim.slots.length :=
    countP_eq_length.2 fun s hs => by rw [h.claims claim hc s hs]
  have hsub : claim.slots.Sublist (live w) := by
    refine (List.Sublist.trans ?_ (sublist_append_right _ _)).trans (sublist_append_left _ _)
    exact sublist_flatten_of_mem (mem_map_of_mem hc)
  rw [h.exact_.reserved, ← hall]
  exact hsub.countP_le

/-- In every state of a run the counters are exact, nothing is lost to saturation, and grants keep to the cap. -/
theorem lookup_slots_exact (base ceiling limit : Nat) (actions : List Action) (w : Lane)
    (h : run step (new base ceiling limit) actions = some w) : CountedExactly w := by
  have hinv : Inv w := run_invariant step_inv (inv_new base ceiling limit) h
  refine ⟨hinv.exact_.targeted, hinv.exact_.sweep, hinv.exact_.reserved.trans hinv.unbound, fun s hs => ⟨?_, ?_, ?_⟩,
    fun claim hc => hinv.claim_le hc, fun path cap hgrant => ?_, fun cap hgrant => ?_⟩
  · intro hp
    rw [hinv.exact_.targeted]
    exact countP_pos_of_mem hs hp
  · intro hp
    rw [hinv.exact_.sweep]
    exact countP_pos_of_mem hs hp
  · intro hp
    rw [hinv.exact_.reserved]
    exact countP_pos_of_mem hs hp
  · cases path with
    | targeted =>
      simp only [grant] at hgrant ⊢
      exact (targetedRoom_spec (by omega)).1
    | sweep =>
      rw [grant] at hgrant ⊢
      split at hgrant
      · rename_i hgrants
        rw [if_pos hgrants]
        exact sweepGrants_spec hgrants
      · exact absurd hgrant (Nat.lt_irrefl _)
  · simp only [grant] at hgrant ⊢
    exact (targetedRoom_spec (by omega)).2

/-- A lane of four slots where a targeted grant, a claim with one job and a sweep grant have run. -/
theorem lookup_slots_exact_four :
    ∃ w, run step (new 4 1 1) [.readCap .targeted, .wants 1, .grant 0, .claim 0, .answered 0 1, .dropClaimed 0, .dropClaimed 0,
      .bound 0, .readCap .sweep, .grant 0] = some w ∧ w.held = ⟨1, 0, 1, 1, false⟩ ∧ CountedExactly w :=
  ⟨_, rfl, by decide, lookup_slots_exact 4 1 1 [.readCap .targeted, .wants 1, .grant 0, .claim 0, .answered 0 1,
    .dropClaimed 0, .dropClaimed 0, .bound 0, .readCap .sweep, .grant 0] _ rfl⟩

end SC.Proof.Jobs.LookupLane
