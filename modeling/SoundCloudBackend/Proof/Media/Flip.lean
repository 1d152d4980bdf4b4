import Mathlib.Data.List.Pairwise
import SoundCloudBackend.Impl.Media.Commit
import SoundCloudBackend.Proof.Media.Statements

/-!
# What a commit reads and writes of a root

The parts of a root are its row and that of its thumb, if it has one. `commit_row.sql`
reads the objects of the parts, and `commit_flip.sql` moves all parts or none
(`flipRoot_cases`) and names their copies (`commitFlip_part`).
-/

namespace SC.Proof.Media.Commit

open Impl.Replication (Uuid)
open Impl.Media
open Impl.Media.Commit
open List Option

variable {greatest : Int → Int → Int}
variable {row : Row}

/-! ## The rows of the root -/

def Part (t : Tables) (id : Uuid) (row : Row) : Prop := row ∈ t.media ∧ (row.id = id ∨ row.parentId = some id)

theorem mem_named {t : Tables} {id : Uuid} {key : String} :
    key ∈ named t id ↔ ∃ row, Part t id row ∧ row.objectKey = key := by
  simp only [named, List.mem_map, List.mem_filter, decide_eq_true_eq, Part]

def object (row : Row) : Object := ⟨row.id, row.objectKey, row.bytes⟩

/-- The row of the root among rows of roots and thumbs. -/
structure RootOk (t : Tables) (id : Uuid) (root : Row) : Prop where
  families : Families t.media
  mem : root ∈ t.media
  id : root.id = id
  kind : root.kind ≠ .thumb

def uploadedAs (t : Tables) (id : Uuid) (rootKey : String) (thumbKey : Option String) (row : Row) : Row :=
  { row with
    status := .uploaded
    objectKey := if row.id = id then rootKey else thumbKey.getD row.objectKey
    deleteAfter := some (t.clock + attachWindow) }

section Rows

variable {t t' : Tables} {id : Uuid} {root : Row} {user rootKey : String} {thumbKey : Option String}

theorem parent_inj {media : List Row} (h : Families media) {a b : Row} (ha : a ∈ media) (hb : b ∈ media) {parent : Uuid}
    (hpa : a.parentId = some parent) (hpb : b.parentId = some parent) : a = b := by
  by_contra hne
  have hpair := pairwise_filterMap.1 h.single
  have hsymm : Std.Symm fun a b : Row => ∀ p, a.parentId = some p → ∀ q, b.parentId = some q → p ≠ q :=
    ⟨fun _ _ hab p hp q hq => (hab q hq p hp).symm⟩
  exact hpair.forall ha hb hne parent hpa parent hpb rfl

theorem RootOk.part (h : RootOk t id root) : Part t id root := ⟨h.mem, .inl h.id⟩

theorem RootOk.cases (h : RootOk t id root) (hp : Part t id row) :
    row = root ∨ (row.parentId = some root.id ∧ row.kind = .thumb ∧ Agrees row root) := by
  obtain ⟨hrow, hid | hparent⟩ := hp
  · exact .inl (h.families.ext hrow h.mem (hid.trans h.id.symm))
  · obtain ⟨root', hroot', hid', -, hagree⟩ := h.families.part row hrow id hparent
    cases h.families.ext hroot' h.mem (hid'.trans h.id.symm)
    exact .inr ⟨by rw [hparent, h.id], (h.families.thumb row hrow).2 (by rw [hparent]; rfl), hagree⟩

theorem RootOk.thumb_unique (h : RootOk t id root) {row' : Row} (hp : Part t id row) (hp' : Part t id row')
    (hne : row.id ≠ id) (hne' : row'.id ≠ id) : row = row' :=
  parent_inj h.families hp.1 hp'.1 (hp.2.resolve_left hne) (hp'.2.resolve_left hne')

theorem commitRow_eq_some {row : CommitRow} (h : RootOk t id root) (hr : commitRow t id user = some row) :
    root.ownerUser = user ∧ row.status = root.status ∧
      ∀ o, o ∈ row.objects ↔ ∃ part, Part t id part ∧ o = object part := by
  obtain ⟨found, hfind, rfl⟩ := map_eq_some_iff.1 hr
  have hfound := List.find?_some hfind
  rw [decide_eq_true_eq] at hfound
  cases h.families.ext (mem_of_find?_eq_some hfind) h.mem (hfound.1.trans h.id.symm)
  refine ⟨hfound.2.1, rfl, fun o => ?_⟩
  rw [CommitRow.objects, mem_cons, mem_toList, map_eq_some_iff]
  constructor
  · rintro (rfl | ⟨thumb, hthumb, rfl⟩)
    · exact ⟨root, h.part, rfl⟩
    · have hp := List.find?_some hthumb
      rw [decide_eq_true_eq] at hp
      exact ⟨thumb, ⟨mem_of_find?_eq_some hthumb, .inr (by rw [hp.1, h.id])⟩, rfl⟩
  · rintro ⟨part, hpart, rfl⟩
    obtain rfl | ⟨hparent, hkind, -⟩ := h.cases hpart
    · exact .inl rfl
    · refine .inr ⟨part, ?_, rfl⟩
      have hunique : ∀ b ∈ t.media, decide (b.parentId = some root.id ∧ b.kind = .thumb) = true → b = part := by
        intro b hb hp
        exact parent_inj h.families hb hpart.1 (of_decide_eq_true hp).1 hparent
      obtain hf | ⟨-, hnot⟩ := find?_unique hunique
      · exact hf
      · exact absurd ⟨hpart.1, decide_eq_true ⟨hparent, hkind⟩⟩ hnot

theorem commitRow_owner (h : RootOk t id root) : (commitRow t id root.ownerUser).isSome := by
  rw [commitRow, isSome_map, List.find?_isSome]
  exact ⟨root, h.mem, decide_eq_true ⟨h.id, rfl, h.kind⟩⟩

theorem commitRoots_root (h : RootOk t id root) {r : Row} (hr : r ∈ commitRoots t id) : r = root := by
  obtain ⟨hmem, hp⟩ := mem_filter.1 hr
  exact h.families.ext hmem h.mem ((of_decide_eq_true hp).1.trans h.id.symm)

/-- The root that a row is joined with in `commit_flip.sql`. -/
def flipRoot (t : Tables) (user : String) (id : Uuid) : Row → Option Row :=
  rootOf (fun media _ => media.ownerUser = user ∧ media.status = .reserved) (commitRoots t id)

theorem commitFlip_media (hc : commitFlip greatest t user id rootKey thumbKey = some t') :
    t'.media = updateFrom (flipRoot t user id) (fun _ => uploadedAs t id rootKey thumbKey) t.media ∧
      (thumbKey = none → ∀ r ∈ joinedRows (flipRoot t user id) t.media, r.1.id = id) := by
  unfold commitFlip at hc
  dsimp only at hc
  split at hc
  · cases hc
  rename_i hthumb
  split at hc
  · cases hc
    refine ⟨rfl, fun hnone r hr => ?_⟩
    by_contra hne
    exact hthumb ⟨any_eq_true.2 ⟨r, hr, decide_eq_true hne⟩, hnone⟩
  · cases hc

theorem flipRow_keeps (t : Tables) (user : String) (id : Uuid) (rootKey : String) (thumbKey : Option String) (row : Row) :
    (updateRow (flipRoot t user id) (fun _ => uploadedAs t id rootKey thumbKey) row).id = row.id ∧
      (updateRow (flipRoot t user id) (fun _ => uploadedAs t id rootKey thumbKey) row).parentId = row.parentId ∧
      (updateRow (flipRoot t user id) (fun _ => uploadedAs t id rootKey thumbKey) row).bytes = row.bytes := by
  obtain ⟨hid, -, hparent, -, hbytes⟩ := (commitFlip_move t user id rootKey thumbKey).updateRow_keeps row
  exact ⟨hid, hparent, hbytes⟩

theorem flipRoot_cases (h : RootOk t id root) (user : String) : (∀ row ∈ t.media, flipRoot t user id row = none) ∨
      (root.status = .reserved ∧ root.ownerUser = user ∧
        ∀ row ∈ t.media, flipRoot t user id row = if row.id = id ∨ row.parentId = some id then some root else none) := by
  have hm := commitFlip_move t user id "" none
  have hself := hm.rootOf_root h.families h.mem h.kind
  split at hself
  · rename_i hsel
    have hon := of_decide_eq_true hsel.2
    refine .inr ⟨hon.2, hon.1, fun row hrow => ?_⟩
    split
    · rename_i hpart
      obtain rfl | ⟨hparent, -, hagree⟩ := h.cases ⟨hrow, hpart⟩
      · exact hself
      · exact (hm.rootOf_part h.families hrow h.mem h.kind hparent hagree).trans hself
    · rename_i hpart
      cases hj : flipRoot t user id row with
      | none => rfl
      | some r =>
        obtain ⟨hr, -, rfl | ⟨hparent, -⟩⟩ := hm.of_rootOf h.families hrow hj
        · exact absurd (.inl (commitRoots_root h hr ▸ h.id)) hpart
        · rw [commitRoots_root h hr, h.id] at hparent
          exact absurd (.inr hparent) hpart
  · refine .inl fun row hrow => ?_
    cases hj : flipRoot t user id row with
    | none => rfl
    | some r =>
      -- its root would be moved too
      have hr := hm.root_moved h.families (mem_joinedRows.2 ⟨hrow, hj⟩)
      obtain ⟨hmem, hroot⟩ := mem_joinedRows.1 hr
      rw [commitRoots_root h (hm.of_rootOf h.families hmem hroot).1, hself] at hroot
      exact nomatch hroot

theorem commitFiles_pos (hrow : row ∈ t.media) (hid : row.id = id) (hj : flipRoot t user id row = some root) :
    0 < commitFiles t user id :=
  length_pos_of_mem (mem_filter.2 ⟨mem_joinedRows.2 ⟨hrow, hj⟩, decide_eq_true hid⟩)

def Shape (t : Tables) (id : Uuid) (p : Uuid × Int) : Prop := ∃ row, Part t id row ∧ (row.id, row.bytes) = p

theorem commitFlip_none (hc : commitFlip greatest t user id rootKey thumbKey = some t')
    (hnone : ∀ row ∈ t.media, flipRoot t user id row = none) : commitFiles t user id = 0 ∧ t'.media = t.media := by
  constructor
  · rw [commitFiles, length_eq_zero_iff, filter_eq_nil_iff]
    rintro ⟨row, r⟩ hr
    obtain ⟨hrow, hj⟩ := mem_joinedRows.1 hr
    exact nomatch (hnone row hrow).symm.trans hj
  · rw [(commitFlip_media hc).1, updateFrom]
    exact (map_congr_left fun row hrow => updateRow_none (hnone row hrow)).trans (map_id _)

theorem commitFlip_part (h : RootOk t id root) {kept : List Object}
    (hkey : keyOf kept id true = some rootKey) (hfit : ∀ o ∈ kept, Shape t id (o.id, o.bytes))
    (hc : commitFlip greatest t user id rootKey (keyOf kept id false) = some t')
    (hj : ∀ row ∈ t.media, flipRoot t user id row = if row.id = id ∨ row.parentId = some id then some root else none)
    {row' : Row} (hp : Part t' id row') :
    ∃ row, Part t id row ∧ row' = uploadedAs t id rootKey (keyOf kept id false) row ∧
      ∃ o ∈ kept, row'.objectKey = o.key ∧ row'.bytes = o.bytes := by
  obtain ⟨hmedia, hthumb⟩ := commitFlip_media hc
  obtain ⟨hmem, hof⟩ := hp
  rw [hmedia] at hmem
  obtain ⟨row, hrow, rfl⟩ := mem_map.1 hmem
  rw [(flipRow_keeps t user id rootKey _ row).1, (flipRow_keeps t user id rootKey _ row).2.1] at hof
  have hjrow := (hj row hrow).trans (if_pos hof)
  rw [updateRow_some hjrow]
  refine ⟨row, ⟨hrow, hof⟩, rfl, ?_⟩
  by_cases hid : row.id = id
  · obtain ⟨o, ho, rfl⟩ := map_eq_some_iff.1 hkey
    have hoid : o.id = id := by simpa using List.find?_some ho
    obtain ⟨part, hp, heq⟩ := hfit o (mem_of_find?_eq_some ho)
    obtain ⟨hpid, hpbytes⟩ := Prod.mk.inj heq
    cases h.families.ext hp.1 hrow (by rw [hpid, hoid, hid])
    exact ⟨o, mem_of_find?_eq_some ho, by simp only [uploadedAs, if_pos hid], hpbytes⟩
  · cases hkey' : keyOf kept id false with
    | none => exact absurd (hthumb hkey' _ (mem_joinedRows.2 ⟨hrow, hjrow⟩)) hid
    | some key =>
      obtain ⟨o, ho, rfl⟩ := map_eq_some_iff.1 hkey'
      have hoid : o.id ≠ id := by simpa using List.find?_some ho
      obtain ⟨part, hp, heq⟩ := hfit o (mem_of_find?_eq_some ho)
      obtain ⟨hpid, hpbytes⟩ := Prod.mk.inj heq
      cases h.thumb_unique hp ⟨hrow, hof⟩ (by rw [hpid]; exact hoid) hid
      exact ⟨o, mem_of_find?_eq_some ho, by simp only [uploadedAs, if_neg hid, getD_some], hpbytes⟩

theorem commitFlip_shape (hc : commitFlip greatest t user id rootKey thumbKey = some t')
    (p : Uuid × Int) : Shape t' id p ↔ Shape t id p := by
  have hkeeps := flipRow_keeps t user id rootKey thumbKey
  have hmedia := (commitFlip_media hc).1
  constructor
  · rintro ⟨row', ⟨hmem, hof⟩, rfl⟩
    rw [hmedia] at hmem
    obtain ⟨row, hrow, rfl⟩ := mem_map.1 hmem
    refine ⟨row, ⟨hrow, ?_⟩, ?_⟩
    · rw [← (hkeeps row).1, ← (hkeeps row).2.1]
      exact hof
    · exact (congrArg₂ Prod.mk (hkeeps row).1 (hkeeps row).2.2).symm
  · rintro ⟨row, ⟨hrow, hof⟩, rfl⟩
    refine ⟨_, ⟨hmedia ▸ mem_map_of_mem hrow, ?_⟩, congrArg₂ Prod.mk (hkeeps row).1 (hkeeps row).2.2⟩
    refine Or.imp (fun h => ?_) (fun h => ?_) hof
    · exact (hkeeps row).1.trans h
    · exact (hkeeps row).2.1.trans h

theorem commitFlip_root (h : RootOk t id root)
    (hc : commitFlip greatest t user id rootKey thumbKey = some t') (hj : flipRoot t user id root = some root) :
    RootOk t' id (uploadedAs t id rootKey thumbKey root) where
  families := by
    rw [(commitFlip_media hc).1]
    exact (commitFlip_move t user id rootKey thumbKey).families h.families
  mem := by
    rw [(commitFlip_media hc).1]
    exact mem_map.2 ⟨root, h.mem, updateRow_some hj⟩
  id := h.id
  kind := h.kind

end Rows

end SC.Proof.Media.Commit
