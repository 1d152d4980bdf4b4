import Mathlib.Algebra.BigOperators.Group.Finset.Sigma
import SoundCloudBackend.Framework.Run
import SoundCloudBackend.Proof.Media.Statements

/-!
# The counters of media are exact

A recount finds the counters as they are (`mediaRecount_eq`). The counters after a
statement without `greatest` are sums of rows and so never negative, which shows that
`greatest` changes nothing (`step_max`); `ledger_exact` follows for every run from empty
tables.
-/

namespace SC.Proof.Media

open Impl.Replication (Uuid)
open Impl.Media
open List Option

variable {media : List Row} {t' : Tables} {user : String}

/-! ## The recount -/

section Recount

variable {t : Tables}

def thumbsOf (media : List Row) (id : Uuid) : List Row := media.filter fun row => row.parentId = some id

theorem thumbsOf_eq (h : Families media) (id : Uuid) :
    thumbsOf media id = [] ∨ ∃ thumb, thumbsOf media id = [thumb] := by
  have hparent : ∀ row ∈ thumbsOf media id, row.parentId = some id := fun row hrow =>
    of_decide_eq_true (mem_filter.1 hrow).2
  have hnodup : ((thumbsOf media id).filterMap Row.parentId).Nodup :=
    h.single.sublist (filter_sublist.filterMap Row.parentId)
  generalize thumbsOf media id = thumbs at hparent hnodup
  match thumbs with
  | [] => exact .inl rfl
  | [thumb] => exact .inr ⟨thumb, rfl⟩
  | a :: b :: rest =>
    have ha := hparent a mem_cons_self
    have hb := hparent b (mem_cons_of_mem _ mem_cons_self)
    simp [ha, hb] at hnodup

theorem sum_thumbsOf (h : Families media) (id : Uuid) : (thumbsOf media id).head?.elim 0 Row.bytes =
      (media.map fun row => if row.parentId = some id then row.bytes else 0).sum := by
  have hsum := sum_filter_map (fun row => decide (row.parentId = some id)) Row.bytes media
  simp only [decide_eq_true_eq] at hsum
  rw [← hsum, ← thumbsOf]
  obtain hl | ⟨thumb, hl⟩ := thumbsOf_eq h id
  · rw [hl]
    rfl
  · rw [hl]
    simp

theorem rootsWithThumbs_eq (h : Families t.media) (user : String) :
    rootsWithThumbs t user = (t.media.filter fun root => root.ownerUser = user ∧ root.kind ≠ .thumb).map fun root =>
      (root, (thumbsOf t.media root.id).head?) := by
  rw [rootsWithThumbs, ← flatMap_pure_eq_map]
  refine flatMap_congr fun root _ => ?_
  have hthumbs : (t.media.filter fun thumb => thumb.parentId = some root.id) = thumbsOf t.media root.id := rfl
  rw [hthumbs]
  obtain hl | ⟨thumb, hl⟩ := thumbsOf_eq h root.id
  · rw [hl, Function.comp_apply, hl]
    rfl
  · rw [hl, Function.comp_apply, hl]
    rfl

theorem sum_root_of (h : Families media) (p : Row → Prop) [DecidablePred p] {row root : Row}
    (hroot : root ∈ media) (hparent : row.parentId = some root.id) :
    (∑ a ∈ media.toFinset, if p a ∧ row.parentId = some a.id then row.bytes else 0) =
      if p root then row.bytes else 0 := by
  rw [Finset.sum_eq_single root]
  · simp [hparent]
  · intro a ha hne
    refine if_neg fun hp => hne ?_
    exact h.ext (mem_toFinset.1 ha) hroot (some.inj (hp.2.symm.trans hparent))
  · exact fun hnot => absurd (mem_toFinset.2 hroot) hnot

theorem sum_rootsWithThumbs (h : Families t.media) (user : String) (c : Status → Bool) :
    (((rootsWithThumbs t user).filter fun r => c r.1.status).map fun r => r.1.bytes + r.2.elim 0 Row.bytes).sum =
      tally Row.bytes c user t.media := by
  have hnodup : t.media.Nodup := List.Nodup.of_map _ h.ids
  let counts (root : Row) : Prop := root.ownerUser = user ∧ root.kind ≠ .thumb ∧ c root.status
  have hsplit : ∀ root : Row,
      (if decide (root.ownerUser = user ∧ root.kind ≠ .thumb) then
        if c root.status then
          root.bytes + ∑ row ∈ t.media.toFinset, if row.parentId = some root.id then row.bytes else 0
        else 0
      else 0) =
      (if counts root then root.bytes else 0) +
        ∑ row ∈ t.media.toFinset, if counts root ∧ row.parentId = some root.id then row.bytes else 0 := by
    intro root
    by_cases hc : counts root
    · simp [hc.1, hc.2.1, hc.2.2, counts]
    · simp only [hc, if_false, false_and, Finset.sum_const_zero, add_zero]
      by_cases howner : root.ownerUser = user ∧ root.kind ≠ .thumb
      · rw [if_pos (decide_eq_true howner), if_neg fun hs => hc ⟨howner.1, howner.2, hs⟩]
      · rw [if_neg (by simpa using howner)]
  rw [rootsWithThumbs_eq h, sum_filter_map, List.map_map, sum_filter_map, tally]
  simp only [Function.comp, sum_thumbsOf h, ← List.sum_toFinset _ hnodup]
  rw [Finset.sum_congr rfl fun root _ => hsplit root, Finset.sum_add_distrib, Finset.sum_comm, ← Finset.sum_add_distrib]
  refine Finset.sum_congr rfl fun row hrow => ?_
  have hrow := List.mem_toFinset.1 hrow
  by_cases hkind : row.kind = .thumb
  · obtain ⟨id, hparent⟩ := Option.isSome_iff_exists.1 ((h.thumb row hrow).1 hkind)
    obtain ⟨root, hroot, rfl, hrootKind, hagree⟩ := h.part row hrow id hparent
    rw [sum_root_of h counts hroot hparent]
    simp [counts, hkind, hrootKind, hagree.owner, hagree.status]
  · have hnone := h.parent_none hrow hkind
    simp [counts, hkind, hnone]

theorem length_rootsWithThumbs (h : Families t.media) (user : String) :
    (((rootsWithThumbs t user).filter fun r => r.1.status.stored).length : Int) =
      tally rootWeight Status.stored user t.media := by
  have hlength (l : List (Row × Option Row)) : (l.length : Int) = (l.map fun _ => 1).sum := by simp
  rw [hlength, rootsWithThumbs_eq h, sum_filter_map, List.map_map, sum_filter_map, tally]
  refine congrArg List.sum (List.map_congr_left fun row _ => ?_)
  by_cases hkind : row.kind = .thumb <;> by_cases howner : row.ownerUser = user <;> simp [rootWeight, hkind, howner]

theorem mediaRecount_eq (h : Inv t) (users : List String) : mediaRecount t users = t := by
  have hcounted : ∀ user u, t.usage user = some u → counted t user u = u := by
    intro user u hu
    obtain ⟨hb, hr, hf⟩ := h.counts user u hu
    have hb' := (sum_rootsWithThumbs h.families user Status.stored).trans hb.symm
    have hr' := (sum_rootsWithThumbs h.families user isReserved).trans hr.symm
    have hf' := (length_rootsWithThumbs h.families user).trans hf.symm
    simp only [isReserved] at hr'
    simp only [counted, hb', hr', hf']
  have husage : (mediaRecount t users).usage = t.usage := by
    funext user
    simp only [mediaRecount]
    split
    · cases hu : t.usage user with
      | none => rfl
      | some u => rw [map_some, hcounted user u hu]
    · rfl
  exact congrArg (fun usage => { t with usage := usage }) husage

end Recount

/-! ## Steps -/

theorem Inv.start (clock : Int) : Inv (Tables.start clock) where
  families :=
    { ids := nodup_nil
      thumb := fun _ hrow => absurd hrow not_mem_nil
      part := fun _ hrow => absurd hrow not_mem_nil
      single := nodup_nil
      bytes := fun _ hrow => absurd hrow not_mem_nil }
  owners _ hrow := absurd hrow not_mem_nil
  counts _ u hu := nomatch (hu : none = some u)
  quota _ u hu := nomatch (hu : none = some u)

theorem Inv.of_refs {t : Tables} (h : Inv t) (refs : List Ref) (holds : List Hold) (clock : Int) :
    Inv { t with refs := refs, holds := holds, clock := clock } :=
  ⟨h.families, h.owners, h.counts, h.quota⟩

theorem Inv.step_plain {t : Tables} {a : Action} (h : Inv t) (hs : step plain t a = some t') : Inv t' := by
  cases a with
  | reserve r today => exact h.reserve hs
  | refresh id => cases hs; exact h.refresh id
  | commitFlip user id rootKey thumbKey => exact h.commitFlip hs
  | attach kind ids conversation seq => exact h.attach hs
  | deleteRows user ids => cases hs; exact h.deleteRows user ids
  | restoreRows user ids => exact h.restoreRows hs
  | settle ids => cases hs; exact h.settle ids
  | dropRefs refs => cases hs; exact (h.of_refs _ t.holds t.clock).settle _
  | hold ids report => cases hs; exact h.hold ids report
  | releaseHolds report => cases hs; exact (h.of_refs t.refs _ t.clock).settle _
  | mediaExpire ids | mediaRoomEnded ids => cases hs; exact h.giveUp _
  | mediaMarkLost ids store => cases hs; exact h.mediaMarkLost ids store
  | mediaRecount users =>
    cases hs
    rw [mediaRecount_eq h]
    exact h
  | mediaClaim ids => cases hs; exact h.mediaClaim ids
  | mediaWithdrawn ids => cases hs; exact h.mediaWithdrawn ids
  | mediaDropDone ids => cases hs; exact h.mediaDropDone ids
  | tick ms => cases hs; exact h.of_refs t.refs t.holds _

theorem Inv.nonneg {t : Tables} (h : Inv t) {u : Usage} (hu : t.usage user = some u) :
    0 ≤ u.bytes ∧ 0 ≤ u.reserved ∧ 0 ≤ u.files := by
  obtain ⟨hb, hr, hf⟩ := h.counts user u hu
  rw [hb, hr, hf]
  exact ⟨tally_nonneg fun row hrow => (h.families.bytes row hrow).le,
    tally_nonneg fun row hrow => (h.families.bytes row hrow).le, tally_nonneg fun row _ => rootWeight_nonneg row⟩

/-- Counters that are not negative without `greatest` are the same with it. -/
structure Clamps (f g : Usage → Usage) : Prop where
  eq : ∀ u, 0 ≤ (g u).bytes → 0 ≤ (g u).reserved → 0 ≤ (g u).files → f u = g u

theorem clamps_release (bytes reserved files : Int) :
    Clamps (Usage.release max bytes reserved files) (Usage.release plain bytes reserved files) :=
  ⟨fun u hb hr hf => by
    simp only [Usage.release, plain] at hb hr hf ⊢
    rw [max_eq_left hb, max_eq_left hr, max_eq_left hf]⟩

theorem clamps_releaseStored (bytes files : Int) :
    Clamps (Usage.releaseStored max bytes files) (Usage.releaseStored plain bytes files) :=
  ⟨fun u hb _ hf => by
    simp only [Usage.releaseStored, plain] at hb hf ⊢
    rw [max_eq_left hb, max_eq_left hf]⟩

theorem charge_clamps {t : Tables} {f g : Usage → Usage} (hc : Clamps f g) (h : Inv t')
    (hu : t'.usage = t.charge user g) : t.charge user f = t.charge user g := by
  rw [Tables.charge, Tables.charge]
  cases hold : t.usage user with
  | none => rfl
  | some u =>
    have hnew : t'.usage user = some (g u) := by rw [hu, Tables.charge, Function.update_self, hold]; rfl
    obtain ⟨hb, hr, hf⟩ := h.nonneg hnew
    rw [map_some, map_some, hc.eq u hb hr hf]

theorem chargeOwners_clamps {t : Tables} {q : Row → Bool} {moved : List (Row × Row)} {f g : String → Usage → Usage}
    (hc : ∀ user, Clamps (f user) (g user)) (h : Inv t') (hu : t'.usage = t.chargeOwners q moved g) :
    t.chargeOwners q moved f = t.chargeOwners q moved g := by
  funext user
  have huser := congrFun hu user
  rw [Tables.chargeOwners] at huser ⊢
  rw [Tables.chargeOwners]
  split at huser
  · rename_i hany
    rw [if_pos hany, if_pos hany]
    cases hold : t.usage user with
    | none => rfl
    | some u =>
      rw [hold] at huser
      obtain ⟨hb, hr, hf⟩ := h.nonneg huser
      rw [map_some, map_some, (hc user).eq u hb hr hf]
  · rename_i hany
    rw [if_neg hany, if_neg hany]

theorem settle_max {t : Tables} (h : Inv t) (ids : List Uuid) : settle max t ids = settle plain t ids := by
  have hinv := h.settle ids
  unfold settle at hinv ⊢
  dsimp only at hinv ⊢
  rw [chargeOwners_clamps (fun user => clamps_releaseStored _ _) hinv rfl]

theorem giveUp_max {t : Tables} (h : Inv t) (due : Row → Bool) : giveUp max t due = giveUp plain t due := by
  have hinv := h.giveUp due
  unfold giveUp at hinv ⊢
  dsimp only at hinv ⊢
  rw [chargeOwners_clamps (fun user => clamps_release _ _ _) hinv rfl]

theorem mediaMarkLost_max {t : Tables} (h : Inv t) (ids : List Uuid) (store : Int) :
    mediaMarkLost max t ids store = mediaMarkLost plain t ids store := by
  have hinv := h.mediaMarkLost ids store
  unfold mediaMarkLost at hinv ⊢
  dsimp only at hinv ⊢
  rw [chargeOwners_clamps (fun user => clamps_releaseStored _ _) hinv rfl]

theorem deleteRows_max {t : Tables} (h : Inv t) (user : String) (ids : List Uuid) :
    deleteRows max t user ids = deleteRows plain t user ids := by
  have hinv := h.deleteRows user ids
  unfold deleteRows at hinv ⊢
  dsimp only at hinv ⊢
  split
  · rename_i hroots
    rw [if_pos hroots] at hinv
    rw [charge_clamps (clamps_release _ _ _) hinv rfl]
  · rfl

theorem commitFlip_max {t : Tables} (h : Inv t) (user : String) (id : Uuid) (rootKey : String)
    (thumbKey : Option String) :
    commitFlip max t user id rootKey thumbKey = commitFlip plain t user id rootKey thumbKey := by
  cases hc : commitFlip plain t user id rootKey thumbKey with
  | none =>
    unfold commitFlip at hc ⊢
    dsimp only at hc ⊢
    split at hc
    · rename_i hkey
      rw [if_pos hkey]
    · rename_i hkey
      rw [if_neg hkey]
      split_ifs at hc with hconstraints
      rw [if_neg hconstraints]
  | some t' =>
    have hinv := h.commitFlip hc
    unfold commitFlip at hc ⊢
    dsimp only at hc ⊢
    split at hc
    · cases hc
    rename_i hkey
    rw [if_neg hkey]
    split at hc
    · rename_i hconstraints
      rw [if_pos hconstraints, ← hc]
      cases hc
      split
      · rename_i hfiles
        rw [if_pos hfiles] at hinv
        rw [charge_clamps ⟨fun u _ hr _ => ?_⟩ hinv rfl]
        simp only [plain] at hr ⊢
        rw [max_eq_left hr]
      · rfl
    · cases hc

theorem step_max {t : Tables} (h : Inv t) (a : Action) : step max t a = step plain t a := by
  cases a with
  | commitFlip user id rootKey thumbKey => exact commitFlip_max h user id rootKey thumbKey
  | deleteRows user ids => exact congrArg some (deleteRows_max h user ids)
  | settle ids => exact congrArg some (settle_max h ids)
  | dropRefs refs => exact congrArg some (settle_max (h.of_refs _ t.holds t.clock) _)
  | releaseHolds report => exact congrArg some (settle_max (h.of_refs t.refs _ t.clock) _)
  | mediaExpire ids | mediaRoomEnded ids => exact congrArg some (giveUp_max h _)
  | mediaMarkLost ids store => exact congrArg some (mediaMarkLost_max h ids store)
  | _ => rfl

theorem Inv.step {t : Tables} {a : Action} (h : Inv t) (hs : step max t a = some t') : Inv t' :=
  h.step_plain (step_max h a ▸ hs)

/-- The counters of a user, with zeros where there is no row. -/
def usedBy (t : Tables) (user : String) : Int × Int × Int :=
  (t.usage user).elim (0, 0, 0) fun u => (u.bytes, u.reserved, u.files)

def storedBytes (t : Tables) (user : String) : Int :=
  ((t.media.filter fun row => row.ownerUser = user ∧ row.status ∈ [.uploaded, .attached]).map Row.bytes).sum

def reservedBytes (t : Tables) (user : String) : Int :=
  ((t.media.filter fun row => row.ownerUser = user ∧ row.status = .reserved).map Row.bytes).sum

def storedFiles (t : Tables) (user : String) : Int :=
  (t.media.filter fun row => row.ownerUser = user ∧ row.kind ≠ .thumb ∧ row.status ∈ [.uploaded, .attached]).length

theorem stored_iff (status : Status) : status ∈ [Status.uploaded, .attached] ↔ status.stored = true := by
  cases status <;> decide

theorem storedBytes_eq (t : Tables) (user : String) : storedBytes t user = tally Row.bytes Status.stored user t.media := by
  rw [storedBytes, sum_filter_map, tally]
  refine congrArg List.sum (map_congr_left fun row _ => ?_)
  simp only [stored_iff, decide_eq_true_eq]

theorem reservedBytes_eq (t : Tables) (user : String) : reservedBytes t user = tally Row.bytes isReserved user t.media := by
  rw [reservedBytes, sum_filter_map, tally]
  refine congrArg List.sum (map_congr_left fun row _ => ?_)
  simp only [isReserved, decide_eq_true_eq]

theorem storedFiles_eq (t : Tables) (user : String) : storedFiles t user = tally rootWeight Status.stored user t.media := by
  have hlength (l : List Row) : (l.length : Int) = (l.map fun _ => 1).sum := by simp
  rw [storedFiles, hlength, sum_filter_map, tally]
  refine congrArg List.sum (map_congr_left fun row _ => ?_)
  simp only [stored_iff]
  by_cases hkind : row.kind = .thumb <;> by_cases howner : row.ownerUser = user <;> simp [rootWeight, hkind, howner]

/-- After every sequence of transactions from empty tables the counters of each user are the sums over the rows, a thumb
has the status of its root, `greatest` and a recount change nothing, and the quota holds. -/
theorem ledger_exact (clock : Int) {as : List Action} {t : Tables}
    (h : run (Impl.Media.step max) (Tables.start clock) as = some t) :
    (∀ user, usedBy t user = (storedBytes t user, reservedBytes t user, storedFiles t user)) ∧
    (∀ thumb ∈ t.media, ∀ root ∈ t.media, thumb.parentId = some root.id → thumb.status = root.status) ∧
    (∀ a, Impl.Media.step max t a = Impl.Media.step (fun x _ => x) t a) ∧ (∀ users, mediaRecount t users = t) ∧
    ∀ user, (usedBy t user).1 + (usedBy t user).2.1 ≤ quotaBytes := by
  have hinv : Inv t := run_invariant (fun h hs => h.step hs) (Inv.start clock) h
  refine ⟨fun user => ?_, fun thumb hthumb root hroot hparent => ?_, step_max hinv, mediaRecount_eq hinv, fun user => ?_⟩
  · rw [storedBytes_eq, reservedBytes_eq, storedFiles_eq, usedBy]
    cases hu : t.usage user with
    | none =>
      have hno (c : Status → Bool) : ∀ row ∈ t.media, ¬ (row.ownerUser = user ∧ c row.status = true) :=
        fun row hrow hs => by simpa [hs.1, hu] using hinv.owners row hrow
      rw [tally_eq_zero (hno _), tally_eq_zero (hno _), tally_eq_zero (hno _)]
      rfl
    | some u =>
      obtain ⟨hb, hr, hf⟩ := hinv.counts user u hu
      rw [← hb, ← hr, ← hf]
      rfl
  · obtain ⟨root', hroot', hid, -, hagree⟩ := hinv.families.part thumb hthumb _ hparent
    exact hinv.families.ext hroot' hroot hid ▸ hagree.status
  · unfold usedBy
    cases hu : t.usage user with
    | none => decide
    | some u => exact hinv.quota user u hu

/-- An image with a thumb that is uploaded, attached, deleted and restored, and a reservation. -/
def uploads : List Action :=
  [.reserve ⟨"101", 1, 1, "a", 9, .image, 5, 8192, some (2, "b", 4096), by decide⟩ 0, .commitFlip "101" 1 "c" (some "d"),
    .attach .image [1] 9 1, .deleteRows "101" [1], .restoreRows "101" [1], .mediaRecount ["101"],
    .reserve ⟨"101", 3, 1, "e", 9, .avatar, 6, 4096, none, by decide⟩ 0]

theorem ledger_exact_restored : ∃ t, run (Impl.Media.step max) (Tables.start 0) uploads = some t ∧
    usedBy t "101" = (12288, 4096, 1) ∧ usedBy t "101" = (storedBytes t "101", reservedBytes t "101", storedFiles t "101") := by
  obtain ⟨t, ht, hend⟩ := map_eq_some_iff.1
    (show (run (Impl.Media.step max) (Tables.start 0) uploads).map (fun t => usedBy t "101") = some (12288, 4096, 1) by
      decide)
  exact ⟨t, ht, hend, (ledger_exact 0 ht).1 "101"⟩

end SC.Proof.Media
