import Mathlib.Algebra.Order.BigOperators.Group.List
import SoundCloudBackend.Impl.Media.Ledger

/-!
# Moves of media and their counters

Every statement that moves media joins the rows with roots and takes a root and its
thumb together. `Move` is what such a statement has to bring. `Move.tally` says what the
move does to a sum over the rows of a user, in terms of the rows that it returns, and
`Inv.move` keeps the invariant if the counters are changed by these sums.
-/

namespace SC.Proof.Media

open Impl.Replication (Uuid)
open Impl.Media
open List Bool

variable {weight : Row → Int} {media : List Row} {root row : Row}
variable {q : Row → Bool} {moved : List (Row × Row)} {usage : String → Option Usage}

/-! ## Sums over rows -/

/-- The weight of the rows of a user in some statuses. -/
def tally (weight : Row → Int) (c : Status → Bool) (user : String) (media : List Row) : Int :=
  (media.map fun row => if row.ownerUser = user ∧ c row.status then weight row else 0).sum

def movedTally (weight : Row → Int) (q : Row → Bool) (moved : List (Row × Row)) : Int :=
  (moved.map fun r => if q r.2 then weight r.1 else 0).sum

def was (user : String) (c : Status → Bool) (root : Row) : Bool := root.ownerUser = user ∧ c root.status

/-- The root is the user's and the status that it moves to counts. -/
def becomes (next : Row → Status) (user : String) (c : Status → Bool) (root : Row) : Bool :=
  root.ownerUser = user ∧ c (next root)

def rootWeight (row : Row) : Int := if row.kind = .thumb then 0 else 1

theorem sumOf_eq (q : Row → Bool) (moved : List (Row × Row)) : sumOf q moved = movedTally Row.bytes q moved := by
  rw [sumOf, sum_filter_map, movedTally]

theorem movedTally_congr {q' : Row → Bool}
    (h : ∀ r ∈ moved, q r.2 = q' r.2) : movedTally weight q moved = movedTally weight q' moved := by
  rw [movedTally, movedTally, map_congr_left fun r hr => by rw [h r hr]]

theorem movedTally_eq_zero (h : ∀ r ∈ moved, q r.2 = false) : movedTally weight q moved = 0 := by
  have hq : movedTally weight q moved = movedTally weight (fun _ => false) moved := movedTally_congr h
  rw [hq, movedTally]
  simp

theorem movedTally_nonneg (h : ∀ r ∈ moved, 0 ≤ weight r.1) : 0 ≤ movedTally weight q moved := by
  refine sum_nonneg fun x hx => ?_
  obtain ⟨r, hr, rfl⟩ := mem_map.1 hx
  split
  · exact h r hr
  · exact le_rfl

theorem tally_nonneg {c : Status → Bool} {user : String}
    (h : ∀ row ∈ media, 0 ≤ weight row) : 0 ≤ tally weight c user media := by
  refine sum_nonneg fun x hx => ?_
  obtain ⟨row, hrow, rfl⟩ := mem_map.1 hx
  split
  · exact h row hrow
  · exact le_rfl

theorem rootWeight_nonneg (row : Row) : 0 ≤ rootWeight row := by
  unfold rootWeight
  split <;> decide

/-! ## Roots and thumbs -/

/-- A thumb has the owner, the status and the restore time of its root. -/
structure Agrees (row root : Row) : Prop where
  owner : row.ownerUser = root.ownerUser
  status : row.status = root.status
  restorable : row.restorableUntil = root.restorableUntil

/-- The rows are roots and thumbs, at most one for a root. -/
structure Families (media : List Row) : Prop where
  ids : (media.map Row.id).Nodup
  thumb : ∀ row ∈ media, row.kind = .thumb ↔ row.parentId.isSome
  part : ∀ row ∈ media, ∀ id, row.parentId = some id → ∃ root ∈ media, root.id = id ∧ root.kind ≠ .thumb ∧ Agrees row root
  single : (media.filterMap Row.parentId).Nodup
  bytes : ∀ row ∈ media, 0 < row.bytes

theorem Families.ext (h : Families media) {a b : Row} (ha : a ∈ media) (hb : b ∈ media) (hid : a.id = b.id) : a = b :=
  inj_on_of_nodup_map h.ids ha hb hid

theorem Families.parent_none (h : Families media) (hroot : root ∈ media)
    (hkind : root.kind ≠ .thumb) : root.parentId = none :=
  Option.not_isSome_iff_eq_none.1 fun hp => hkind ((h.thumb root hroot).2 hp)

theorem Families.map (h : Families media) {g : Row → Row}
    (hkeeps : ∀ row, (g row).id = row.id ∧ (g row).kind = row.kind ∧ (g row).parentId = row.parentId ∧
    (g row).ownerUser = row.ownerUser ∧ (g row).bytes = row.bytes)
    (hagrees : ∀ row ∈ media, ∀ root ∈ media, root.kind ≠ .thumb → row.parentId = some root.id → Agrees row root →
    Agrees (g row) (g root)) : Families (media.map g) where
  ids := by
    have hid : Row.id ∘ g = Row.id := funext fun row => (hkeeps row).1
    rw [map_map, hid]
    exact h.ids
  thumb row hrow := by
    obtain ⟨old, hold, rfl⟩ := mem_map.1 hrow
    rw [(hkeeps old).2.1, (hkeeps old).2.2.1]
    exact h.thumb old hold
  part row hrow id hid := by
    obtain ⟨old, hold, rfl⟩ := mem_map.1 hrow
    rw [(hkeeps old).2.2.1] at hid
    obtain ⟨root, hroot, rfl, hkind, hagree⟩ := h.part old hold id hid
    refine ⟨_, mem_map_of_mem hroot, (hkeeps root).1, ?_, hagrees old hold root hroot hkind hid hagree⟩
    rw [(hkeeps root).2.1]
    exact hkind
  single := by
    have hparent : Row.parentId ∘ g = Row.parentId := funext fun row => (hkeeps row).2.2.1
    rw [filterMap_map, hparent]
    exact h.single
  bytes row hrow := by
    obtain ⟨old, hold, rfl⟩ := mem_map.1 hrow
    rw [(hkeeps old).2.2.2.2]
    exact h.bytes old hold

theorem find?_unique {α : Type} {p : α → Bool} {l : List α} {a : α} (h : ∀ b ∈ l, p b = true → b = a) :
    l.find? p = some a ∨ (l.find? p = none ∧ ¬ (a ∈ l ∧ p a = true)) := by
  cases hf : l.find? p with
  | none => exact .inr ⟨rfl, fun ⟨ha, hp⟩ => List.find?_eq_none.1 hf a ha hp⟩
  | some b => exact .inl (congrArg some (h b (mem_of_find?_eq_some hf) (List.find?_some hf)))

/-- What a statement brings that moves roots with their thumbs to the status `next`. -/
structure Move (media : List Row) (on : Row → Row → Bool) (roots : List Row) (set : Row → Row → Row)
    (next : Row → Status) : Prop where
  root : ∀ root ∈ roots, root ∈ media ∧ root.kind ≠ .thumb
  part : ∀ row root, root ∈ roots → row.parentId = some root.id → Agrees row root → on row root = on root root
  keeps : ∀ root row, (set root row).id = row.id ∧ (set root row).kind = row.kind ∧
    (set root row).parentId = row.parentId ∧ (set root row).ownerUser = row.ownerUser ∧ (set root row).bytes = row.bytes
  status : ∀ root row, on row root = true → (row.parentId = none ∧ row.id = root.id) ∨ row.parentId = some root.id →
    (set root row).status = next root
  restorable : ∀ root row, row.restorableUntil = root.restorableUntil →
    (set root row).restorableUntil = (set root root).restorableUntil

section Move

variable {media : List Row} {on : Row → Row → Bool} {roots : List Row} {set : Row → Row → Row} {next : Row → Status}

theorem Move.of_rootOf (hm : Move media on roots set next) (h : Families media) (hrow : row ∈ media)
    (hj : rootOf on roots row = some root) :
    root ∈ roots ∧ on row root = true ∧ (row = root ∨ (row.parentId = some root.id ∧ Agrees row root)) := by
  have hmem := mem_of_find?_eq_some hj
  have hp := List.find?_some hj
  rw [and_eq_true, decide_eq_true_eq] at hp
  refine ⟨hmem, hp.2, ?_⟩
  obtain hid | hparent := hp.1
  · exact .inl (h.ext hrow (hm.root root hmem).1 hid)
  · obtain ⟨root', hroot', hid', -, hagree⟩ := h.part row hrow _ hparent
    cases h.ext hroot' (hm.root root hmem).1 hid'
    exact .inr ⟨hparent, hagree⟩

theorem Move.rootOf_root (hm : Move media on roots set next) (h : Families media) (hroot : root ∈ media)
    (hkind : root.kind ≠ .thumb) :
    rootOf on roots root = if root ∈ roots ∧ on root root = true then some root else none := by
  have hparent := h.parent_none hroot hkind
  have hunique : ∀ b ∈ roots, (decide (root.id = b.id ∨ root.parentId = some b.id) && on root b) = true → b = root := by
    intro b hb hp
    rw [and_eq_true, decide_eq_true_eq, hparent] at hp
    obtain hid | hnone := hp.1
    · exact h.ext (hm.root b hb).1 hroot hid.symm
    · exact nomatch hnone
  obtain hf | ⟨hf, hnot⟩ := find?_unique hunique
  · have hmem := mem_of_find?_eq_some hf
    have hp := (and_eq_true _ _ ▸ List.find?_some hf : _ ∧ _).2
    rw [rootOf, hf, if_pos ⟨hmem, hp⟩]
  · rw [rootOf, hf, if_neg]
    rintro ⟨hmem, hon⟩
    exact hnot ⟨hmem, by simp [hon]⟩

theorem Move.rootOf_part (hm : Move media on roots set next) (h : Families media) (hrow : row ∈ media)
    (hroot : root ∈ media) (hkind : root.kind ≠ .thumb) (hparent : row.parentId = some root.id)
    (hagree : Agrees row root) : rootOf on roots row = rootOf on roots root := by
  rw [hm.rootOf_root h hroot hkind]
  have hunique : ∀ b ∈ roots, (decide (row.id = b.id ∨ row.parentId = some b.id) && on row b) = true → b = root := by
    intro b hb hp
    rw [and_eq_true, decide_eq_true_eq, hparent] at hp
    obtain hid | hid := hp.1
    · have hthumb : row.kind = .thumb := (h.thumb row hrow).2 (by rw [hparent]; rfl)
      cases h.ext hrow (hm.root b hb).1 hid
      exact absurd hthumb (hm.root _ hb).2
    · exact h.ext (hm.root b hb).1 hroot (Option.some.inj hid).symm
  obtain hf | ⟨hf, hnot⟩ := find?_unique hunique
  · have hmem := mem_of_find?_eq_some hf
    have hp := (and_eq_true _ _ ▸ List.find?_some hf : _ ∧ _).2
    rw [rootOf, hf, if_pos ⟨hmem, hm.part row root hmem hparent hagree ▸ hp⟩]
  · rw [rootOf, hf, if_neg]
    rintro ⟨hmem, hon⟩
    exact hnot ⟨hmem, by simp [hparent, hm.part row root hmem hparent hagree, hon]⟩

theorem Move.updateRow_keeps (hm : Move media on roots set next) (row : Row) :
    (updateRow (rootOf on roots) set row).id = row.id ∧ (updateRow (rootOf on roots) set row).kind = row.kind ∧
      (updateRow (rootOf on roots) set row).parentId = row.parentId ∧
      (updateRow (rootOf on roots) set row).ownerUser = row.ownerUser ∧
      (updateRow (rootOf on roots) set row).bytes = row.bytes := by
  cases hj : rootOf on roots row with
  | none => rw [updateRow_none hj]; exact ⟨rfl, rfl, rfl, rfl, rfl⟩
  | some root => rw [updateRow_some hj]; exact hm.keeps root row

theorem Move.agrees (hm : Move media on roots set next) (h : Families media) (hrow : row ∈ media)
    (hroot : root ∈ media) (hkind : root.kind ≠ .thumb) (hparent : row.parentId = some root.id)
    (hagree : Agrees row root) :
    Agrees (updateRow (rootOf on roots) set row) (updateRow (rootOf on roots) set root) := by
  have hj := hm.rootOf_part h hrow hroot hkind hparent hagree
  have hself := hm.rootOf_root h hroot hkind
  split at hself
  · rename_i hsel
    rw [updateRow_some hself, updateRow_some (hj.trans hself)]
    refine ⟨?_, ?_, hm.restorable root row hagree.restorable⟩
    · rw [(hm.keeps root row).2.2.2.1, (hm.keeps root root).2.2.2.1, hagree.owner]
    · rw [hm.status root row (hm.part row root hsel.1 hparent hagree ▸ hsel.2) (.inr hparent),
        hm.status root root hsel.2 (.inl ⟨h.parent_none hroot hkind, rfl⟩)]
  · rw [updateRow_none hself, updateRow_none (hj.trans hself)]
    exact hagree

theorem Move.families (hm : Move media on roots set next) (h : Families media) :
    Families (updateFrom (rootOf on roots) set media) :=
  h.map hm.updateRow_keeps fun _ hrow _ hroot hkind hparent hagree => hm.agrees h hrow hroot hkind hparent hagree

theorem Move.of_moved (hm : Move media on roots set next) (h : Families media)
    (hmem : (row, root) ∈ joinedRows (rootOf on roots) media) :
    root ∈ roots ∧ row.ownerUser = root.ownerUser ∧ row.status = root.status ∧ (set root row).status = next root := by
  obtain ⟨hrow, hj⟩ := mem_joinedRows.1 hmem
  obtain ⟨hroot, hon, rfl | ⟨hparent, hagree⟩⟩ := hm.of_rootOf h hrow hj
  · exact ⟨hroot, rfl, rfl, hm.status row row hon (.inl ⟨h.parent_none hrow (hm.root row hroot).2, rfl⟩)⟩
  · exact ⟨hroot, hagree.owner, hagree.status, hm.status root row hon (.inr hparent)⟩

/-- The sum over the rows of a user loses the moved rows that counted and gains those that count now. -/
theorem Move.tally (hm : Move media on roots set next) (h : Families media)
    (hw : ∀ root row, weight (set root row) = weight row) (c : Status → Bool) (user : String) :
    tally weight c user (updateFrom (rootOf on roots) set media) =
      tally weight c user media - movedTally weight (was user c) (joinedRows (rootOf on roots) media) +
        movedTally weight (becomes next user c) (joinedRows (rootOf on roots) media) := by
  refine sum_updateFrom ?_
  rintro ⟨row, root⟩ hr
  obtain ⟨-, howner, hstatus, hnext⟩ := hm.of_moved h hr
  simp only [(hm.keeps root row).2.2.2.1, hnext, hw, howner, hstatus, was, becomes, decide_eq_true_eq]
  omega

theorem Move.root_moved (hm : Move media on roots set next) (h : Families media)
    (hmem : (row, root) ∈ joinedRows (rootOf on roots) media) :
    (root, root) ∈ joinedRows (rootOf on roots) media := by
  obtain ⟨hrow, hj⟩ := mem_joinedRows.1 hmem
  obtain ⟨hroot, -, rfl | ⟨hparent, hagree⟩⟩ := hm.of_rootOf h hrow hj
  · exact hmem
  · obtain ⟨hroot, hkind⟩ := hm.root root hroot
    exact mem_joinedRows.2 ⟨hroot, hm.rootOf_part h hrow hroot hkind hparent hagree ▸ hj⟩

theorem Move.rootsOf (hm : Move media on roots set next) (h : Families media) (q : Row → Bool) :
    rootsOf q (joinedRows (rootOf on roots) media) =
      movedTally rootWeight q (joinedRows (rootOf on roots) media) := by
  let rep (r : Row × Row) : Bool := decide (r.1.kind ≠ .thumb)
  have hrep : ∀ r ∈ (joinedRows (rootOf on roots) media).filter fun r => q r.2,
      ∃ r' ∈ (joinedRows (rootOf on roots) media).filter fun r => q r.2, rep r' = true ∧ r'.2.id = r.2.id := by
    rintro ⟨row, root⟩ hr
    obtain ⟨hr, hq⟩ := mem_filter.1 hr
    have hkind := (hm.root root (hm.of_moved h hr).1).2
    exact ⟨(root, root), mem_filter.2 ⟨hm.root_moved h hr, hq⟩, decide_eq_true hkind, rfl⟩
  have hone : ((((joinedRows (rootOf on roots) media).filter fun r => q r.2).filter rep).map fun r => r.2.id).Nodup := by
    -- a moved row that is not a thumb is its own root, and ids are unique
    have hid : ∀ r ∈ ((joinedRows (rootOf on roots) media).filter fun r => q r.2).filter rep, r.2.id = r.1.id := by
      rintro ⟨row, root⟩ hr
      obtain ⟨hr, hkind⟩ := mem_filter.1 hr
      obtain ⟨hrow, hj⟩ := mem_joinedRows.1 (mem_filter.1 hr).1
      obtain ⟨-, -, rfl | ⟨hparent, -⟩⟩ := hm.of_rootOf h hrow hj
      · rfl
      · exact absurd ((h.thumb row hrow).2 (by rw [hparent]; rfl)) (of_decide_eq_true hkind)
    rw [map_congr_left hid]
    have hsub := (joinedRows_sublist (rootOf on roots) media).map Row.id
    rw [map_map] at hsub
    exact (h.ids.sublist hsub).sublist ((filter_sublist.trans filter_sublist).map _)
  rw [Impl.Media.rootsOf, length_dedup_map hrep hone, movedTally,
    ← sum_filter_map (fun r : Row × Row => q r.2) fun r => rootWeight r.1]
  have hweight : ∀ r : Row × Row, rootWeight r.1 = if rep r then 1 else 0 := by
    intro r
    simp [rootWeight, rep]
  simp only [hweight]
  rw [← sum_filter_map rep fun _ => 1]
  simp

end Move

/-! ## The invariant -/

def isReserved (status : Status) : Bool := status = .reserved

/-- The counters are sums over the rows of the user. -/
structure Counts (media : List Row) (user : String) (u : Usage) : Prop where
  bytes : u.bytes = tally Row.bytes Status.stored user media
  reserved : u.reserved = tally Row.bytes isReserved user media
  files : u.files = tally rootWeight Status.stored user media

/-- Every user's counters are the sums over the rows, within the quota. -/
structure Inv (t : Tables) : Prop where
  families : Families t.media
  owners : ∀ row ∈ t.media, (t.usage row.ownerUser).isSome
  counts : ∀ user u, t.usage user = some u → Counts t.media user u
  quota : ∀ user u, t.usage user = some u → u.bytes + u.reserved ≤ quotaBytes

/-- The counters of a user lose what the moved rows counted and gain what they count now. -/
structure Charged (next : Row → Status) (moved : List (Row × Row)) (user : String) (u u' : Usage) : Prop where
  bytes : u'.bytes = u.bytes - movedTally Row.bytes (was user Status.stored) moved +
    movedTally Row.bytes (becomes next user Status.stored) moved
  reserved : u'.reserved = u.reserved - movedTally Row.bytes (was user isReserved) moved +
    movedTally Row.bytes (becomes next user isReserved) moved
  files : u'.files = u.files - movedTally rootWeight (was user Status.stored) moved +
    movedTally rootWeight (becomes next user Status.stored) moved

section Inv

variable {t : Tables} {on : Row → Row → Bool} {roots : List Row} {set : Row → Row → Row} {next : Row → Status}

theorem Inv.move (h : Inv t) (hm : Move t.media on roots set next)
    (hsome : ∀ user, (usage user).isSome = (t.usage user).isSome)
    (hcharged : ∀ user u u', t.usage user = some u → usage user = some u' →
      Charged next (joinedRows (rootOf on roots) t.media) user u u' ∧ u'.bytes + u'.reserved ≤ quotaBytes) :
    Inv { t with media := updateFrom (rootOf on roots) set t.media, usage := usage } := by
  have hold : ∀ user u', usage user = some u' → ∃ u, t.usage user = some u := fun user u' hu' =>
    Option.isSome_iff_exists.1 (hsome user ▸ Option.isSome_iff_exists.2 ⟨u', hu'⟩)
  refine ⟨hm.families h.families, fun row hrow => ?_, fun user u' hu' => ?_, fun user u' hu' => ?_⟩
  · obtain ⟨old, hmem, rfl⟩ := mem_map.1 hrow
    rw [(hm.updateRow_keeps old).2.2.2.1, hsome]
    exact h.owners old hmem
  · obtain ⟨u, hu⟩ := hold user u' hu'
    obtain ⟨hc, -⟩ := hcharged user u u' hu hu'
    have hw : ∀ root row, rootWeight (set root row) = rootWeight row := fun root row => by
      rw [rootWeight, rootWeight, (hm.keeps root row).2.1]
    refine ⟨?_, ?_, ?_⟩
    · rw [hc.bytes, hm.tally h.families (fun root row => (hm.keeps root row).2.2.2.2), (h.counts user u hu).bytes]
    · rw [hc.reserved, hm.tally h.families (fun root row => (hm.keeps root row).2.2.2.2), (h.counts user u hu).reserved]
    · rw [hc.files, hm.tally h.families hw, (h.counts user u hu).files]
  · obtain ⟨u, hu⟩ := hold user u' hu'
    exact (hcharged user u u' hu hu').2

theorem Inv.map (h : Inv t) {g : Row → Row}
    (hkeeps : ∀ row, (g row).id = row.id ∧ (g row).kind = row.kind ∧ (g row).parentId = row.parentId ∧
      (g row).ownerUser = row.ownerUser ∧ (g row).bytes = row.bytes)
    (hagrees : ∀ row ∈ t.media, ∀ root ∈ t.media, root.kind ≠ .thumb → row.parentId = some root.id → Agrees row root →
      Agrees (g row) (g root))
    (hstatus : ∀ row, (g row).status.stored = row.status.stored ∧ isReserved (g row).status = isReserved row.status) :
    Inv { t with media := t.media.map g } := by
  have htally (weight : Row → Int) (c : Status → Bool) (user : String) (hw : ∀ row, weight (g row) = weight row)
      (hc : ∀ row, c (g row).status = c row.status) :
      Media.tally weight c user (t.media.map g) = Media.tally weight c user t.media := by
    rw [Media.tally, Media.tally, map_map]
    refine congrArg List.sum (map_congr_left fun row _ => ?_)
    simp only [Function.comp, (hkeeps row).2.2.2.1, hw, hc]
  refine ⟨h.families.map hkeeps hagrees, fun row hrow => ?_, fun user u hu => ?_, h.quota⟩
  · obtain ⟨old, hmem, rfl⟩ := mem_map.1 hrow
    rw [(hkeeps old).2.2.2.1]
    exact h.owners old hmem
  · obtain ⟨hb, hr, hf⟩ := h.counts user u hu
    refine ⟨?_, ?_, ?_⟩
    · rw [hb, htally _ _ _ (fun row => (hkeeps row).2.2.2.2) fun row => (hstatus row).1]
    · rw [hr, htally _ _ _ (fun row => (hkeeps row).2.2.2.2) fun row => (hstatus row).2]
    · rw [hf, htally _ _ _ (fun row => by rw [rootWeight, rootWeight, (hkeeps row).2.1]) fun row => (hstatus row).1]

theorem Inv.moved_nonneg (h : Inv t) (q : Row → Bool) :
    0 ≤ movedTally Row.bytes q (joinedRows (rootOf on roots) t.media) :=
  movedTally_nonneg fun r hr => (h.families.bytes r.1 (mem_joinedRows.1 hr).1).le

/-- The counters gave up what the moved rows weighed. -/
structure Releases (moved : List (Row × Row)) (user : String) (u u' : Usage) : Prop where
  bytes : u'.bytes = u.bytes - movedTally Row.bytes (was user Status.stored) moved
  reserved : u'.reserved = u.reserved - movedTally Row.bytes (was user isReserved) moved
  files : u'.files = u.files - movedTally rootWeight (was user Status.stored) moved

theorem Inv.release (h : Inv t) (hm : Move t.media on roots set next)
    (hnext : ∀ root ∈ roots, (next root).stored = false ∧ isReserved (next root) = false)
    (hsome : ∀ user, (usage user).isSome = (t.usage user).isSome)
    (hreleases : ∀ user u u', t.usage user = some u → usage user = some u' →
      Releases (joinedRows (rootOf on roots) t.media) user u u') :
    Inv { t with media := updateFrom (rootOf on roots) set t.media, usage := usage } := by
  refine h.move hm hsome fun user u u' hu hu' => ?_
  obtain ⟨hb, hr, hf⟩ := hreleases user u u' hu hu'
  have hgain (weight : Row → Int) (c : Status → Bool) (hc : ∀ root ∈ roots, c (next root) = false) :
      movedTally weight (becomes next user c) (joinedRows (rootOf on roots) t.media) = 0 :=
    movedTally_eq_zero fun r hr => by simp [becomes, hc r.2 (hm.of_moved h.families hr).1]
  have hquota := h.quota user u hu
  have hb' := @Inv.moved_nonneg t on roots h (was user Status.stored)
  have hr' := @Inv.moved_nonneg t on roots h (was user isReserved)
  refine ⟨⟨?_, ?_, ?_⟩, by omega⟩
  · rw [hgain _ _ fun root hroot => (hnext root hroot).1, hb, add_zero]
  · rw [hgain _ _ fun root hroot => (hnext root hroot).2, hr, add_zero]
  · rw [hgain _ _ fun root hroot => (hnext root hroot).1, hf, add_zero]

theorem Inv.move_uncounted (h : Inv t) (hm : Move t.media on roots set next)
    (hwas : ∀ root ∈ roots, on root root = true → root.status.stored = false ∧ isReserved root.status = false)
    (hnext : ∀ root ∈ roots, (next root).stored = false ∧ isReserved (next root) = false) :
    Inv { t with media := updateFrom (rootOf on roots) set t.media } := by
  refine h.release hm hnext (fun _ => rfl) fun user u u' hu hu' => ?_
  cases hu.symm.trans hu'
  have hlost (weight : Row → Int) (c : Status → Bool)
      (hc : ∀ root ∈ roots, on root root = true → c root.status = false) :
      movedTally weight (was user c) (joinedRows (rootOf on roots) t.media) = 0 :=
    movedTally_eq_zero fun r hr => by
      obtain ⟨hroot, -⟩ := hm.of_moved h.families hr
      have hself := (mem_joinedRows.1 (hm.root_moved h.families hr)).2
      rw [hm.rootOf_root h.families (hm.root r.2 hroot).1 (hm.root r.2 hroot).2] at hself
      split_ifs at hself with hon
      simp [was, hc r.2 hroot hon.2]
  exact ⟨by rw [hlost _ _ fun root hroot hon => (hwas root hroot hon).1, sub_zero],
    by rw [hlost _ _ fun root hroot hon => (hwas root hroot hon).2, sub_zero],
    by rw [hlost _ _ fun root hroot hon => (hwas root hroot hon).1, sub_zero]⟩

end Inv

end SC.Proof.Media
