import SoundCloudBackend.Framework.Run
import SoundCloudBackend.Proof.Media.Flip

/-!
# A committed upload keeps its objects

`Safe` is what makes a key safe to delete: no row names it, no open transaction would,
and no call can still flip to it. Every step keeps it (`Change.safe`), because new
copies have new keys and a row comes to name the copies of one call only. `CallOk` is
what a call may rely on in each phase. `Change` is what other calls see of a step, so
that each step has to be looked at for its own call only (`Inv.change`).

An outcome of a commit is taken apart into `Inv.unknown`, the call stops waiting, and
`Inv.resolve`, the transaction ends.
-/

namespace SC.Proof.Media.Commit

open Impl.Replication (Uuid)
open Impl.Media
open Impl.Media.Commit
open List Option Function Bool

variable {t t' : Tables} {tx : Transaction} {phase : Phase} {kept : List Object} {keys : List String}

/-! ## What the calls hold -/

/-- The keys of copies that a call can still make the row name. -/
def live : Phase → List String
  | .copy _ kept _ _ _ | .verify _ kept _ _ | .flip _ kept => kept.map Object.key
  | _ => []

def held : Phase → List String
  | .copy _ kept _ _ _ | .verify _ kept _ _ | .flip _ kept | .commit _ kept | .settle _ kept => kept.map Object.key
  | _ => []

theorem live_subset_held (phase : Phase) : live phase ⊆ held phase := by
  cases phase <;> first | exact List.Subset.refl _ | exact nil_subset _

/-- What stays of a reservation: its root, its owner, the keys of its uploads and the ids and sizes of its parts. -/
structure Upload where
  root : Uuid
  owner : String
  keys : List String
  shape : Uuid × Int → Prop

/-- The tables have the parts of the upload, in the status. -/
structure TableOk (u : Upload) (t : Tables) (status : Status) : Prop where
  root : ∃ root, RootOk t u.root root ∧ root.ownerUser = u.owner ∧ root.status = status
  shape : ∀ p, Shape t u.root p ↔ u.shape p

/-- The tables name copies that are there, with the sizes of the rows. -/
structure Good (u : Upload) (w : World) (t : Tables) : Prop where
  table : TableOk u t .uploaded
  part : ∀ row, Part t u.root row →
    w.objects row.objectKey = some row.bytes ∧ row.objectKey ∈ w.used ∧ row.objectKey ∉ u.keys

/-- The upload still stands as it was reserved. -/
structure Reserved (u : Upload) (w : World) : Prop where
  table : TableOk u w.tables .reserved
  moved : w.moved = []
  uploads : ∀ key ∈ named w.tables u.root, key ∈ u.keys

/-- The upload was committed, once. -/
structure Moved (u : Upload) (w : World) : Prop where
  good : Good u w w.tables
  moved : w.moved.length = 1

/-- The open transaction changes nothing, or moves a reserved root. -/
def PendingOk (u : Upload) (w : World) (tx : Transaction) : Prop :=
  (tx.moves = false ∧ tx.tables.media = w.tables.media) ∨ (tx.moves = true ∧ Reserved u w ∧ Good u w tx.tables)

/-- The key is named nowhere and cannot come to be named. -/
structure Safe (u : Upload) (w : World) (key : String) : Prop where
  used : key ∈ w.used
  unnamed : key ∉ named w.tables u.root
  pending : ∀ tx, w.lock = some tx → key ∉ named tx.tables u.root
  free : ∀ m c, w.calls m = some c → key ∉ live c.phase

def Fits (u : Upload) (objects : List Object) : Prop := ∀ o ∈ objects, u.shape (o.id, o.bytes)

/-- The call took the upload's own objects for its owner. -/
structure Takes (u : Upload) (user : String) (objects : List Object) : Prop where
  owner : user = u.owner
  keys : ∀ o ∈ objects, o.key ∈ u.keys
  fits : Fits u objects

def Next.succeeds : Next → Bool
  | .answer => true
  | .done result => result = .ok
  | .committed _ => false

def CallOk (u : Upload) (w : World) (n : Nat) (c : Call) : Prop :=
  match c.phase with
  | .missing objects _ _ => Takes u c.user objects
  | .copy objects kept todo made _ =>
    Takes u c.user objects ∧ Fits u kept ∧ (∀ p ∈ todo, p.2 ∈ kept) ∧ ∀ o ∈ made, o ∈ kept
  | .verify objects kept todo short =>
    Takes u c.user objects ∧ Fits u kept ∧ (short = false → ∀ o ∈ kept, o ∈ todo ∨ w.objects o.key = some o.bytes)
  | .flip objects kept => Takes u c.user objects ∧ Fits u kept ∧ ∀ o ∈ kept, w.objects o.key = some o.bytes
  | .commit objects kept =>
    Takes u c.user objects ∧ (∀ o ∈ kept, o.key ∉ named w.tables u.root) ∧
      ∃ tx, w.lock = some tx ∧ tx.call = n ∧ tx.lost = false
  | .usage objects => Takes u c.user objects ∧ w.moved ≠ []
  | .settle objects _ => Takes u c.user objects
  | .discard todo next => (∀ o ∈ todo, Safe u w o.key) ∧ (Next.succeeds next = true → w.moved ≠ [])
  | .answer => w.moved ≠ []
  | .done result => result = .ok → w.moved ≠ []
  | .read | .committed _ => True

/-- A call's keys are its own, and those it may still delete are named nowhere. -/
structure CallInv (u : Upload) (w : World) (n : Nat) (c : Call) : Prop where
  ok : CallOk u w n c
  keys : ∀ key ∈ held c.phase, key ∈ w.used ∧ key ∉ u.keys
  apart : ∀ key ∈ held c.phase, ∀ m d, m ≠ n → w.calls m = some d → key ∉ held d.phase
  unnamed : ∀ key ∈ live c.phase, key ∉ named w.tables u.root ∧ ∀ tx, w.lock = some tx → key ∉ named tx.tables u.root

/-- The tables name either the reserved objects or the committed copies; no deleted key is named. -/
structure Inv (u : Upload) (w : World) : Prop where
  root : w.root = u.root
  uploads : w.uploads = u.keys
  keys : ∀ key ∈ u.keys, key ∈ w.used
  tables : Reserved u w ∨ Moved u w
  pending : ∀ tx, w.lock = some tx → PendingOk u w tx
  calls : ∀ n c, w.calls n = some c → CallInv u w n c
  deleted : ∀ key ∈ w.deleted, Safe u w key

/-- What a step of `actor` does, as the other calls see it. -/
structure Change (u : Upload) (actor : Option Nat) (w w' : World) : Prop where
  root : w'.root = w.root
  uploads : w'.uploads = w.uploads
  used : ∀ key ∈ w.used, key ∈ w'.used
  calls : ∀ m, actor ≠ some m → w'.calls m = w.calls m
  moved : w.moved ≠ [] → w'.moved ≠ []
  names : ∀ key ∈ named w'.tables u.root,
    key ∈ named w.tables u.root ∨ ∃ tx, w.lock = some tx ∧ w'.lock = none ∧ key ∈ named tx.tables u.root
  pending : ∀ tx', w'.lock = some tx' → ∀ key ∈ named tx'.tables u.root,
    key ∈ named w.tables u.root ∨ (∃ tx, w.lock = some tx ∧ key ∈ named tx.tables u.root) ∨
      ∃ n c, actor = some n ∧ w.calls n = some c ∧ key ∈ live c.phase
  locked : ∀ tx, w.lock = some tx → tx.lost = false → actor ≠ some tx.call → w'.lock = some tx
  fresh : ∀ n c', actor = some n → w'.calls n = some c' → ∀ key ∈ live c'.phase,
    (∃ c, w.calls n = some c ∧ key ∈ live c.phase) ∨ key ∉ w.used
  objects : ∀ m c, actor ≠ some m → w.calls m = some c → ∀ key ∈ live c.phase, w'.objects key = w.objects key

section Change

variable {u : Upload} {actor : Option Nat} {w w' : World} {key : String}

theorem Change.safe (hch : Change u actor w w') (h : Safe u w key) : Safe u w' key where
  used := hch.used key h.used
  unnamed hk := by
    obtain hk | ⟨tx, htx, -, hk⟩ := hch.names key hk
    · exact h.unnamed hk
    · exact h.pending tx htx hk
  pending tx' htx' hk := by
    obtain hk | ⟨tx, htx, hk⟩ | ⟨n, c, -, hc, hk⟩ := hch.pending tx' htx' key hk
    · exact h.unnamed hk
    · exact h.pending tx htx hk
    · exact h.free n c hc hk
  free m c' hc' hk := by
    by_cases hm : actor = some m
    · obtain ⟨c, hc, hk⟩ | hnew := hch.fresh m c' hm hc' key hk
      · exact h.free m c hc hk
      · exact hnew h.used
    · rw [hch.calls m hm] at hc'
      exact h.free m c' hc' hk

theorem Change.callOk (hch : Change u actor w w') {m : Nat} {c : Call} (hm : actor ≠ some m) (hc : w.calls m = some c)
    (h : CallOk u w m c) : CallOk u w' m c := by
  have hobjects := hch.objects m c hm hc
  unfold CallOk at h ⊢
  split at h
  · exact h
  · exact h
  · rename_i objects kept todo short hphase
    refine ⟨h.1, h.2.1, fun hshort o ho => (h.2.2 hshort o ho).imp_right fun hlen => ?_⟩
    rw [hobjects o.key (by rw [hphase]; exact mem_map_of_mem ho)]
    exact hlen
  · rename_i objects kept hphase
    refine ⟨h.1, h.2.1, fun o ho => ?_⟩
    rw [hobjects o.key (by rw [hphase]; exact mem_map_of_mem ho)]
    exact h.2.2 o ho
  · obtain ⟨htakes, hkept, tx, htx, hcall, hlost⟩ := h
    have hlocked := hch.locked tx htx hlost (by rw [hcall]; exact hm)
    refine ⟨htakes, fun o ho hk => ?_, tx, hlocked, hcall, hlost⟩
    obtain hk | ⟨-, -, hnone, -⟩ := hch.names o.key hk
    · exact hkept o ho hk
    · exact nomatch hlocked.symm.trans hnone
  · exact ⟨h.1, hch.moved h.2⟩
  · exact h
  · exact ⟨fun o ho => hch.safe (h.1 o ho), fun hs => hch.moved (h.2 hs)⟩
  · exact hch.moved h
  · exact fun hr => hch.moved (h hr)
  · trivial
  · trivial

theorem named_congr (ht : t'.media = t.media) (id : Uuid) : named t' id = named t id := by
  rw [named, named, ht]

theorem TableOk.congr {status : Status} (h : TableOk u t status) (ht : t'.media = t.media) :
    TableOk u t' status := by
  obtain ⟨⟨root, ⟨hfamilies, hmem, hid, hkind⟩, howner, hstatus⟩, hshape⟩ := h
  refine ⟨⟨root, ⟨ht ▸ hfamilies, ht ▸ hmem, hid, hkind⟩, howner, hstatus⟩, fun p => ?_⟩
  rw [← hshape, Shape, Shape]
  simp only [Part, ht]

theorem Good.congr (h : Good u w t) (ht : t'.media = t.media)
    (hused : ∀ key ∈ w.used, key ∈ w'.used) (hobjects : ∀ key ∈ named t u.root, w'.objects key = w.objects key) :
    Good u w' t' where
  table := h.table.congr ht
  part row hrow := by
    have hold : Part t u.root row := ⟨ht ▸ hrow.1, hrow.2⟩
    obtain ⟨hlen, hmem, hkeys⟩ := h.part row hold
    exact ⟨(hobjects _ (mem_named.2 ⟨row, hold, rfl⟩)).trans hlen, hused _ hmem, hkeys⟩

theorem Reserved.congr (h : Reserved u w) (ht : w'.tables.media = w.tables.media) (hmoved : w'.moved = w.moved) :
    Reserved u w' :=
  ⟨h.table.congr ht, hmoved.trans h.moved, fun key hk => h.uploads key (named_congr ht u.root ▸ hk)⟩

/-- What the tables and the transaction name is not touched. -/
structure Untouched (u : Upload) (w w' : World) : Prop where
  media : w'.tables.media = w.tables.media
  moved : w'.moved = w.moved
  used : ∀ key ∈ w.used, key ∈ w'.used
  objects : ∀ key, (Moved u w ∧ key ∈ named w.tables u.root) ∨
    (∃ tx, w.lock = some tx ∧ Good u w tx.tables ∧ key ∈ named tx.tables u.root) → w'.objects key = w.objects key

theorem Untouched.tables (hu : Untouched u w w') (h : Reserved u w ∨ Moved u w) : Reserved u w' ∨ Moved u w' := by
  obtain hr | hm := h
  · exact .inl (hr.congr hu.media hu.moved)
  · refine .inr ⟨hm.good.congr hu.media hu.used fun key hk => hu.objects key (.inl ⟨hm, hk⟩), ?_⟩
    rw [hu.moved]
    exact hm.moved

theorem Untouched.pending (hu : Untouched u w w') (htx : w.lock = some tx) (h : PendingOk u w tx) :
    PendingOk u w' tx := by
  obtain ⟨hmoves, hmedia⟩ | ⟨hmoves, hr, hg⟩ := h
  · exact .inl ⟨hmoves, hmedia.trans hu.media.symm⟩
  · exact .inr ⟨hmoves, hr.congr hu.media hu.moved, hg.congr rfl hu.used fun key hk => hu.objects key (.inr ⟨tx, htx, hg, hk⟩)⟩

theorem Inv.change (h : Inv u w) (hch : Change u actor w w') (htables : Reserved u w' ∨ Moved u w')
    (hpending : ∀ tx, w'.lock = some tx → PendingOk u w' tx)
    (hactor : ∀ n c', actor = some n → w'.calls n = some c' → CallInv u w' n c')
    (hdeleted : ∀ key ∈ w'.deleted, key ∈ w.deleted ∨ Safe u w key) : Inv u w' where
  root := hch.root.trans h.root
  uploads := hch.uploads.trans h.uploads
  keys key hkey := hch.used key (h.keys key hkey)
  tables := htables
  pending := hpending
  calls m c hc := by
    by_cases hm : actor = some m
    · exact hactor m c hm hc
    · have hold : w.calls m = some c := hch.calls m hm ▸ hc
      have hinv := h.calls m c hold
      refine ⟨hch.callOk hm hold hinv.ok, fun key hkey => ?_, fun key hkey n d hn hd hheld => ?_, fun key hkey => ⟨?_, ?_⟩⟩
      · exact ⟨hch.used key (hinv.keys key hkey).1, (hinv.keys key hkey).2⟩
      · by_cases hna : actor = some n
        · exact (hactor n d hna hd).apart key hheld m c hn.symm hc hkey
        · exact hinv.apart key hkey n d hn (hch.calls n hna ▸ hd) hheld
      · intro hk
        obtain hk | ⟨tx, htx, -, hk⟩ := hch.names key hk
        · exact (hinv.unnamed key hkey).1 hk
        · exact (hinv.unnamed key hkey).2 tx htx hk
      · intro tx' htx' hk
        obtain hk | ⟨tx, htx, hk⟩ | ⟨n, d, hna, hd, hk⟩ := hch.pending tx' htx' key hk
        · exact (hinv.unnamed key hkey).1 hk
        · exact (hinv.unnamed key hkey).2 tx htx hk
        · exact hinv.apart key (live_subset_held _ hkey) n d (fun he => hm (he ▸ hna)) hd (live_subset_held _ hk)
  deleted key hkey := by
    obtain hold | hsafe := hdeleted key hkey
    · exact hch.safe (h.deleted key hold)
    · exact hch.safe hsafe

theorem Inv.named_used (h : Inv u w) (hk : key ∈ named w.tables u.root) : key ∈ w.used := by
  obtain hr | hm := h.tables
  · exact h.keys key (hr.uploads key hk)
  · obtain ⟨row, hrow, rfl⟩ := mem_named.1 hk
    exact (hm.good.part row hrow).2.1

theorem Inv.pending_used (h : Inv u w) (htx : w.lock = some tx) (hk : key ∈ named tx.tables u.root) :
    key ∈ w.used := by
  obtain ⟨-, hmedia⟩ | ⟨-, -, hg⟩ := h.pending tx htx
  · exact h.named_used (named_congr hmedia u.root ▸ hk)
  · obtain ⟨row, hrow, rfl⟩ := mem_named.1 hk
    exact (hg.part row hrow).2.1

/-- A step of a call that leaves the tables and the transaction alone. It keeps copies that it had and makes new ones. -/
theorem Inv.act (h : Inv u w) {n : Nat} {c : Call} {phase : Phase} (hroot : w'.root = w.root)
    (huploads : w'.uploads = w.uploads) (hcalls : w'.calls = w.calls) (hlock : w'.lock = w.lock) (hu : Untouched u w w')
    (hobjects : ∀ m c, m ≠ n → w.calls m = some c → ∀ key ∈ live c.phase, w'.objects key = w.objects key)
    (hdeleted : ∀ key ∈ w'.deleted, key ∈ w.deleted ∨ Safe u w key)
    (hheld : ∀ key ∈ held phase, (∃ c, w.calls n = some c ∧ key ∈ held c.phase) ∨ (key ∉ w.used ∧ key ∈ w'.used))
    (hlive : ∀ key ∈ live phase, (∃ c, w.calls n = some c ∧ key ∈ live c.phase) ∨ key ∉ w.used)
    (hok : CallOk u (w'.setPhase n c phase) n { c with phase := phase }) : Inv u (w'.setPhase n c phase) := by
  have hself : (w'.setPhase n c phase).calls n = some { c with phase := phase } := update_self ..
  have hother (m : Nat) (hm : m ≠ n) : (w'.setPhase n c phase).calls m = w.calls m := by
    rw [← hcalls]
    exact update_of_ne hm ..
  have hu : Untouched u w (w'.setPhase n c phase) := ⟨hu.media, hu.moved, hu.used, hu.objects⟩
  have hnamed : named (w'.setPhase n c phase).tables u.root = named w.tables u.root := named_congr hu.media _
  refine @Inv.change u (some n) w _ h ?_ (hu.tables h.tables) (fun tx htx => ?_) (fun m c' hm hc' => ?_) hdeleted
  · refine ⟨hroot, huploads, hu.used, fun m hm => hother m fun he => hm (by rw [he]), fun hm => hu.moved.trans_ne hm,
      fun _ hk => .inl (hnamed ▸ hk), fun tx htx key hk => .inr (.inl ⟨tx, hlock ▸ htx, hk⟩), fun tx htx _ _ => hlock.trans htx,
      fun m c' hm hc' key hk => ?_, fun m c hm hc => hobjects m c (fun he => hm (by rw [he])) hc⟩
    cases hm
    cases hself.symm.trans hc'
    exact hlive key hk
  · have htx : w.lock = some tx := hlock ▸ htx
    exact hu.pending htx (h.pending tx htx)
  · cases hm
    cases hself.symm.trans hc'
    refine ⟨hok, fun key hk => ?_, fun key hk m d hm hd hd' => ?_, fun key hk => ⟨fun hname => ?_, fun tx htx hname => ?_⟩⟩
    · obtain ⟨c₀, hc₀, hk⟩ | ⟨hnew, hused⟩ := hheld key hk
      · exact ⟨hu.used key ((h.calls n c₀ hc₀).keys key hk).1, ((h.calls n c₀ hc₀).keys key hk).2⟩
      · exact ⟨hused, fun hup => hnew (h.keys key hup)⟩
    · rw [hother m hm] at hd
      obtain ⟨c₀, hc₀, hk⟩ | ⟨hnew, -⟩ := hheld key hk
      · exact (h.calls n c₀ hc₀).apart key hk m d hm hd hd'
      · exact hnew ((h.calls m d hd).keys key hd').1
    · rw [hnamed] at hname
      obtain ⟨c₀, hc₀, hk⟩ | hnew := hlive key hk
      · exact ((h.calls n c₀ hc₀).unnamed key hk).1 hname
      · exact hnew (h.named_used hname)
    · have htx : w.lock = some tx := hlock ▸ htx
      obtain ⟨c₀, hc₀, hk⟩ | hnew := hlive key hk
      · exact ((h.calls n c₀ hc₀).unnamed key hk).2 tx htx hname
      · exact hnew (h.pending_used htx hname)

theorem Inv.setPhase (h : Inv u w) {n : Nat} {c c₀ : Call} (hc : w.calls n = some c₀)
    (hheld : held phase ⊆ held c₀.phase) (hlive : live phase ⊆ live c₀.phase)
    (hok : CallOk u (w.setPhase n c phase) n { c with phase := phase }) : Inv u (w.setPhase n c phase) :=
  h.act rfl rfl rfl rfl ⟨rfl, rfl, fun _ hk => hk, fun _ _ => rfl⟩ (fun _ _ _ _ _ _ => rfl) (fun _ hk => .inl hk)
    (fun _ hk => .inl ⟨c₀, hc, hheld hk⟩) (fun _ hk => .inl ⟨c₀, hc, hlive hk⟩) hok

theorem Inv.safe_upload (h : Inv u w) (hm : w.moved ≠ []) (hk : key ∈ u.keys) : Safe u w key := by
  have hnamed : key ∉ named w.tables u.root := by
    intro hname
    obtain hr | hmoved := h.tables
    · exact hm hr.moved
    · obtain ⟨row, hrow, rfl⟩ := mem_named.1 hname
      exact (hmoved.good.part row hrow).2.2 hk
  refine ⟨h.keys key hk, hnamed, fun tx htx => ?_, fun m c hc hl => ?_⟩
  · obtain ⟨-, hmedia⟩ | ⟨-, hr, -⟩ := h.pending tx htx
    · rw [named_congr hmedia]
      exact hnamed
    · exact absurd hr.moved hm
  · exact ((h.calls m c hc).keys key (live_subset_held _ hl)).2 hk

end Change

/-! ## Deleting objects -/

section Discard

variable {u : Upload} {w w' : World} {n : Nat} {c : Call} {todo : List Object} {next : Next} {key : String}

@[simp] theorem held_discard (todo : List Object) (next : Next) : held (discard todo next) = [] := by
  unfold Impl.Media.Commit.discard
  split
  · cases next <;> rfl
  · rfl

@[simp] theorem live_discard (todo : List Object) (next : Next) : live (discard todo next) = [] :=
  subset_nil.1 (held_discard todo next ▸ live_subset_held _)

theorem discard_ok (hsafe : ∀ o ∈ todo, Safe u w o.key) (hs : Next.succeeds next = true → w.moved ≠ []) :
    CallOk u w n { c with phase := discard todo next } := by
  unfold Impl.Media.Commit.discard
  split
  · cases next with
    | committed => trivial
    | answer => exact hs rfl
    | done result => exact fun hr => hs (decide_eq_true hr)
  · exact ⟨hsafe, hs⟩

theorem safe_of_apart (hused : key ∈ w.used) (hunnamed : key ∉ named w.tables u.root)
    (hpending : ∀ tx, w.lock = some tx → key ∉ named tx.tables u.root) (hphase : key ∉ live phase)
    (hfree : ∀ m d, m ≠ n → w.calls m = some d → key ∉ live d.phase) : Safe u (w.setPhase n c phase) key := by
  refine ⟨hused, hunnamed, hpending, fun m d hd => ?_⟩
  by_cases hm : m = n
  · subst hm
    cases (update_self m _ w.calls).symm.trans hd
    exact hphase
  · exact hfree m d hm ((update_of_ne hm _ w.calls).symm.trans hd)

theorem Safe.setPhase (h : Safe u w key) (hphase : key ∉ live phase) : Safe u (w.setPhase n c phase) key :=
  safe_of_apart h.used h.unnamed h.pending hphase fun m d _ hd => h.free m d hd

theorem Inv.discard_safe (h : Inv u w) (hc : w.calls n = some c) (hsafe : ∀ o ∈ todo, Safe u w o.key)
    (hs : Next.succeeds next = true → w.moved ≠ []) : Inv u (w.setPhase n c (discard todo next)) := by
  refine h.setPhase hc (by simp) (by simp) (discard_ok (fun o ho => (hsafe o ho).setPhase ?_) hs)
  rw [live_discard]
  exact not_mem_nil

theorem Inv.discard_kept (h : Inv u w) (hc : w.calls n = some c) (hheld : ∀ o ∈ todo, o.key ∈ held c.phase)
    (hunnamed : ∀ o ∈ todo, o.key ∉ named w.tables u.root ∧ ∀ tx, w.lock = some tx → o.key ∉ named tx.tables u.root)
    (hs : Next.succeeds next = true → w.moved ≠ []) : Inv u (w.setPhase n c (discard todo next)) := by
  have hinv := h.calls n c hc
  refine h.setPhase hc (by simp) (by simp) (discard_ok (fun o ho => ?_) hs)
  refine safe_of_apart (hinv.keys _ (hheld o ho)).1 (hunnamed o ho).1 (hunnamed o ho).2 (by simp) fun m d hm hd hl => ?_
  exact hinv.apart _ (hheld o ho) m d hm hd (live_subset_held _ hl)

theorem Inv.discard_live (h : Inv u w) (hc : w.calls n = some c) (hlive : ∀ o ∈ todo, o.key ∈ live c.phase)
    (hs : Next.succeeds next = true → w.moved ≠ []) : Inv u (w.setPhase n c (discard todo next)) :=
  h.discard_kept hc (fun o ho => live_subset_held _ (hlive o ho)) (fun o ho => (h.calls n c hc).unnamed _ (hlive o ho)) hs

end Discard

/-! ## Steps -/

section Steps

variable {u : Upload} {w w' : World} {n : Nat} {c : Call}

theorem Inv.row (h : Inv u w) {user : String} {row : CommitRow} (hr : commitRow w.tables w.root user = some row) :
    (row.status.stored = true → w.moved ≠ []) ∧ (row.status = .reserved → Takes u user row.objects) ∧
      ∀ key ∈ named w.tables u.root, key ∈ row.objects.map Object.key := by
  rw [h.root] at hr
  have hnamed {root : Row} (hroot : RootOk w.tables u.root root) :
      ∀ key ∈ named w.tables u.root, key ∈ row.objects.map Object.key := by
    intro key hk
    obtain ⟨part, hpart, rfl⟩ := mem_named.1 hk
    exact mem_map.2 ⟨object part, ((commitRow_eq_some hroot hr).2.2 _).2 ⟨part, hpart, rfl⟩, rfl⟩
  obtain hres | hmoved := h.tables
  · obtain ⟨root, hroot, howner, hstatus⟩ := hres.table.root
    obtain ⟨huser, hrow, hobjects⟩ := commitRow_eq_some hroot hr
    refine ⟨fun hs => ?_, fun _ => ⟨huser.symm.trans howner, fun o ho => ?_, fun o ho => ?_⟩, hnamed hroot⟩
    · rw [hrow, hstatus] at hs
      exact nomatch hs
    · obtain ⟨part, hpart, rfl⟩ := (hobjects o).1 ho
      exact hres.uploads _ (mem_named.2 ⟨part, hpart, rfl⟩)
    · obtain ⟨part, hpart, rfl⟩ := (hobjects o).1 ho
      exact (hres.table.shape _).1 ⟨part, hpart, rfl⟩
  · obtain ⟨root, hroot, howner, hstatus⟩ := hmoved.good.table.root
    obtain ⟨huser, hrow, hobjects⟩ := commitRow_eq_some hroot hr
    refine ⟨fun _ hnil => ?_, fun hs => ?_, hnamed hroot⟩
    · have hone := hmoved.moved
      rw [hnil] at hone
      exact nomatch hone
    · rw [hrow, hstatus] at hs
      exact nomatch hs

theorem Inv.row_isSome (h : Inv u w) : (commitRow w.tables w.root u.owner).isSome := by
  rw [h.root]
  obtain hres | hmoved := h.tables
  · obtain ⟨root, hroot, howner, -⟩ := hres.table.root
    exact howner ▸ commitRow_owner hroot
  · obtain ⟨root, hroot, howner, -⟩ := hmoved.good.table.root
    exact howner ▸ commitRow_owner hroot

theorem Inv.quiet (h : Inv u w) (hc : w.calls n = some c) (hheld : held phase = [])
    (hok : CallOk u (w.setPhase n c phase) n { c with phase := phase }) : Inv u (w.setPhase n c phase) := by
  have hlive : live phase = [] := subset_nil.1 (hheld ▸ live_subset_held phase)
  exact h.setPhase hc (hheld ▸ nil_subset _) (hlive ▸ nil_subset _) hok

theorem Inv.fail (h : Inv u w) (hc : w.calls n = some c) (error : Failure) :
    Inv u (w.setPhase n c (.done (.error error))) :=
  h.quiet hc rfl nofun

theorem Inv.pending_named (h : Inv u w) (hm : w.moved ≠ []) (htx : w.lock = some tx) :
    named tx.tables u.root = named w.tables u.root := by
  obtain ⟨-, hmedia⟩ | ⟨-, hr, -⟩ := h.pending tx htx
  · exact named_congr hmedia u.root
  · exact absurd hr.moved hm

theorem Inv.settle_stored (h : Inv u w) (hc : w.calls n = some c) {objects kept : List Object}
    (hphase : c.phase = .settle objects kept) {row : CommitRow} (hr : commitRow w.tables w.root c.user = some row)
    (hs : row.status.stored = true) :
    Inv u (w.setPhase n c (discard ((objects ++ kept).filter fun o => o.key ∉ row.objects.map Object.key) .answer)) := by
  have hinv := h.calls n c hc
  have htakes : Takes u c.user objects := by simpa only [CallOk, hphase] using hinv.ok
  have hmoved := (h.row hr).1 hs
  refine h.quiet hc (held_discard ..) (discard_ok (fun o ho => ?_) fun _ => hmoved)
  obtain ⟨ho, hout⟩ := mem_filter.1 ho
  obtain ho | ho := mem_append.1 ho
  · exact (h.safe_upload hmoved (htakes.keys o ho)).setPhase (by simp)
  · have hheld : o.key ∈ held c.phase := by
      rw [hphase]
      exact mem_map_of_mem ho
    have hunnamed : o.key ∉ named w.tables u.root := fun hk => of_decide_eq_true hout ((h.row hr).2.2 _ hk)
    refine safe_of_apart (hinv.keys _ hheld).1 hunnamed (fun tx htx => ?_) (by simp) fun m d hm hd hl => ?_
    · rw [h.pending_named hmoved htx]
      exact hunnamed
    · exact hinv.apart _ hheld m d hm hd (live_subset_held _ hl)

theorem Inv.read (h : Inv u w) (hc : w.calls n = some c) {lost : Bool} (hr : w.read n c lost = some w') : Inv u w' := by
  have hok := (h.calls n c hc).ok
  unfold World.read at hr
  split at hr
  · cases hr
    split
    · exact h.fail hc _
    · split
      · exact h.fail hc _
      · rename_i row hrow
        split
        · rename_i hs
          exact h.quiet hc rfl ((h.row hrow).1 hs)
        · split
          · rename_i hres
            exact h.quiet hc rfl ((h.row hrow).2.1 hres.1)
          · exact h.fail hc _
  · cases hr
    split
    · exact h.fail hc _
    · split
      · rename_i hs
        obtain ⟨row, hrow, hs⟩ := (any_eq_true _ _).1 hs
        exact h.quiet hc rfl ((h.row hrow).1 hs)
      · exact h.fail hc _
  · rename_i objects kept hphase
    cases hr
    split
    · exact h.fail hc _
    · split
      · rename_i hnone
        -- the caller is the owner, so the row is there
        have htakes : Takes u c.user objects := by simpa only [CallOk, hphase] using hok
        rw [htakes.owner] at hnone
        exact nomatch hnone ▸ h.row_isSome
      · rename_i row hrow
        split
        · rename_i hs
          exact h.settle_stored hc hphase hrow hs
        · exact h.fail hc _
  · rename_i objects hphase
    cases hr
    simp only [CallOk, hphase] at hok
    exact h.discard_safe hc (fun o ho => h.safe_upload hok.2 (hok.1.keys o ho)) fun _ => hok.2
  · rename_i hphase
    cases hr
    simp only [CallOk, hphase] at hok
    exact h.quiet hc rfl fun _ => hok
  · cases hr

theorem verified_erase {todo : List Object} {object : Object} {objects : String → Option Int}
    (h : ∀ o ∈ kept, o ∈ todo ∨ objects o.key = some o.bytes) (hlen : objects object.key = some object.bytes) :
    ∀ o ∈ kept, o ∈ todo.erase object ∨ objects o.key = some o.bytes := by
  intro o ho
  by_cases heq : o = object
  · exact .inr (heq ▸ hlen)
  · exact (h o ho).imp_left (mem_erase_of_ne heq).2

theorem Inv.head (h : Inv u w) (hc : w.calls n = some c) {key : String} {failed : Bool}
    (hs : w.head n c key failed = some w') : Inv u w' := by
  have hok := (h.calls n c hc).ok
  unfold World.head at hs
  split at hs
  · rename_i objects todo short hphase
    obtain ⟨object, -, rfl⟩ := map_eq_some_iff.1 hs
    simp only [CallOk, hphase] at hok
    split
    · exact h.fail hc _
    · dsimp only
      generalize (if w.objects key = some object.bytes then short else short ++ [object.id]) = short'
      split
      · exact h.quiet hc rfl trivial
      · exact h.quiet hc rfl hok
  · rename_i objects kept todo short hphase
    obtain ⟨object, hfind, rfl⟩ := map_eq_some_iff.1 hs
    have hkey : object.key = key := by simpa using List.find?_some hfind
    have hkept : ∀ o ∈ kept, o.key ∈ live c.phase := fun o ho => hphase ▸ mem_map_of_mem ho
    have hphases (todo : List Object) (short : Bool) : held (.verify objects kept todo short) = held c.phase ∧
        live (.verify objects kept todo short) = live c.phase := by
      rw [hphase]
      exact ⟨rfl, rfl⟩
    simp only [CallOk, hphase] at hok
    obtain ⟨htakes, hfits, hlen⟩ := hok
    have hnext : (short || decide (w.objects key ≠ some object.bytes)) = false →
        ∀ o ∈ kept, o ∈ todo.erase object ∨ w.objects o.key = some o.bytes := by
      intro hshort
      obtain ⟨hshort, hthis⟩ := or_eq_false_iff.1 hshort
      refine verified_erase (hlen hshort) ?_
      rw [hkey]
      simpa using hthis
    split
    · exact h.discard_live hc hkept nofun
    · dsimp only
      split
      · rename_i hempty
        split
        · exact h.discard_live hc hkept nofun
        · rename_i hshort
          refine h.setPhase hc ?_ ?_ ⟨htakes, hfits, fun o ho => ?_⟩
          · rw [hphase]
            exact List.Subset.refl _
          · rw [hphase]
            exact List.Subset.refl _
          · refine (hnext (eq_false_iff.2 hshort) o ho).resolve_left fun hmem => ?_
            rw [hempty] at hmem
            exact absurd hmem not_mem_nil
      · refine h.setPhase hc ?_ ?_ ⟨htakes, hfits, hnext⟩
        · rw [(hphases _ _).1]
          exact List.Subset.refl _
        · rw [(hphases _ _).2]
          exact List.Subset.refl _
  · cases hs

theorem mem_kept {objects : List Object} {o : Object}
    (ho : o ∈ objects.zipWith (fun object key => { object with key := key }) keys) :
    o.key ∈ keys ∧ ∃ object ∈ objects, o.id = object.id ∧ o.bytes = object.bytes := by
  rw [← map_uncurry_zip_eq_zipWith] at ho
  obtain ⟨⟨object, key⟩, hmem, rfl⟩ := mem_map.1 ho
  obtain ⟨hobject, hkey⟩ := of_mem_zip hmem
  exact ⟨hkey, object, hobject, rfl, rfl⟩

theorem Inv.copies (h : Inv u w) (hc : w.calls n = some c) (hs : w.copies n c keys = some w') : Inv u w' := by
  have hok := (h.calls n c hc).ok
  unfold World.copies at hs
  split at hs
  · rename_i objects hphase
    simp only [CallOk, hphase] at hok
    split_ifs at hs with hkeys
    cases hs
    have hfresh : ∀ key ∈ (objects.zipWith (fun object key => { object with key := key }) keys).map Object.key,
        key ∉ w.used ∧ key ∈ w.used ++ keys := by
      intro key hk
      obtain ⟨o, ho, rfl⟩ := mem_map.1 hk
      exact ⟨hkeys.2.2 _ (mem_kept ho).1, mem_append_right _ (mem_kept ho).1⟩
    have hu : Untouched u w { w with used := w.used ++ keys } :=
      ⟨rfl, rfl, fun _ hk => mem_append_left _ hk, fun _ _ => rfl⟩
    refine @Inv.act u w { w with used := w.used ++ keys } h n c _ rfl rfl rfl rfl hu (fun _ _ _ _ _ _ => rfl)
      (fun _ hk => .inl hk) (fun key hk => .inr (hfresh key hk)) (fun key hk => .inr (hfresh key hk).1)
      ⟨hok, fun o ho => ?_, fun p hp => (of_mem_zip hp).2, forall_mem_nil _⟩
    obtain ⟨-, object, hobject, hid, hbytes⟩ := mem_kept ho
    rw [hid, hbytes]
    exact hok.fits object hobject
  · cases hs

theorem setPhase_setPhase (w : World) (n : Nat) (c : Call) (p q : Phase) :
    (w.setPhase n c p).setPhase n { c with phase := p } q = w.setPhase n c q := by
  simp only [World.setPhase, update_idem]

theorem Untouched.of_key {key : String} {objects : String → Option Int} (deleted : List String)
    (hunnamed : Moved u w → key ∉ named w.tables u.root)
    (hpending : ∀ tx, w.lock = some tx → Good u w tx.tables → key ∉ named tx.tables u.root)
    (hobjects : ∀ key', key' ≠ key → objects key' = w.objects key') :
    Untouched u w { w with objects := objects, deleted := deleted } := by
  refine ⟨rfl, rfl, fun _ hk => hk, fun key' hk => hobjects key' ?_⟩
  rintro rfl
  obtain ⟨hm, hk⟩ | ⟨tx, htx, hg, hk⟩ := hk
  · exact hunnamed hm hk
  · exact hpending tx htx hg hk

theorem Inv.copy (h : Inv u w) (hc : w.calls n = some c) {key : String} {failed : Option Bool}
    (hs : w.copy n c key failed = some w') : Inv u w' := by
  have hinv := h.calls n c hc
  have hok := hinv.ok
  unfold World.copy at hs
  split at hs
  · rename_i objects kept todo made anyFailed hphase
    obtain ⟨pair, hfind, hw⟩ := map_eq_some_iff.1 hs
    have hkey : pair.2.key = key := by simpa using List.find?_some hfind
    simp only [CallOk, hphase] at hok
    obtain ⟨htakes, hfits, htodo, hmade⟩ := hok
    have hpair := htodo pair (mem_of_find?_eq_some hfind)
    have hlive : key ∈ live c.phase := by
      rw [hphase, ← hkey]
      exact mem_map_of_mem hpair
    dsimp only at hw
    generalize hmade' : (if (w.objects pair.1.key).isSome = true ∧ failed = none then made ++ [pair.2] else made) = made' at hw
    generalize hobjects : (if (w.objects pair.1.key).isSome = true ∧ failed ≠ some false then
      update w.objects key (w.objects pair.1.key) else w.objects) = objects' at hw
    have hmade' : ∀ o ∈ made', o ∈ kept := by
      rw [← hmade']
      split
      · intro o ho
        obtain ho | ho := mem_append.1 ho
        · exact hmade o ho
        · exact mem_singleton.1 ho ▸ hpair
      · exact hmade
    have hobjects : ∀ key', key' ≠ key → objects' key' = w.objects key' := by
      intro key' hne
      rw [← hobjects]
      split
      · exact update_of_ne hne ..
      · rfl
    -- the copies are made before the next phase begins
    have hcopied : Inv u ({ w with objects := objects' }.setPhase n c
        (.copy objects kept (todo.erase pair) made' (anyFailed || failed.isSome))) := by
      refine @Inv.act u w { w with objects := objects' } h n c _ rfl rfl rfl rfl ?_ (fun m d hm hd key' hk => ?_)
        (fun _ hk => .inl hk) (fun key' hk => .inl ⟨c, hc, hphase ▸ hk⟩) (fun key' hk => .inl ⟨c, hc, hphase ▸ hk⟩)
        ⟨htakes, hfits, fun p hp => htodo p (mem_of_mem_erase hp), hmade'⟩
      · exact .of_key w.deleted (fun _ => (hinv.unnamed key hlive).1) (fun tx htx _ => (hinv.unnamed key hlive).2 tx htx)
          hobjects
      · refine hobjects key' fun he => ?_
        exact hinv.apart key (live_subset_held _ hlive) m d hm hd (live_subset_held _ (he ▸ hk))
    rw [← hw]
    split
    · rw [← setPhase_setPhase _ n c (.copy objects kept (todo.erase pair) made' (anyFailed || failed.isSome))]
      have hself : ({ w with objects := objects' }.setPhase n c
        (.copy objects kept (todo.erase pair) made' (anyFailed || failed.isSome))).calls n = _ := update_self ..
      split
      · exact hcopied.setPhase hself (List.Subset.refl _) (List.Subset.refl _) ⟨htakes, hfits, fun _ o ho => .inl ho⟩
      · refine hcopied.discard_live hself (fun o ho => mem_map_of_mem (hmade' o ho)) fun hsucc => ?_
        split at hsucc <;> exact nomatch hsucc
    · exact hcopied
  · cases hs

theorem Inv.delete (h : Inv u w) (hc : w.calls n = some c) {key : String} {applied : Bool}
    (hs : w.delete n c key applied = some w') : Inv u w' := by
  have hok := (h.calls n c hc).ok
  unfold World.delete at hs
  split at hs
  · rename_i todo next hphase
    obtain ⟨object, hfind, rfl⟩ := map_eq_some_iff.1 hs
    have hkey : object.key = key := by simpa using List.find?_some hfind
    simp only [CallOk, hphase] at hok
    have hsafe : Safe u w key := hkey ▸ hok.1 object (mem_of_find?_eq_some hfind)
    have hobjects : ∀ key', key' ≠ key →
        (if applied = true then update w.objects key none else w.objects) key' = w.objects key' := by
      intro key' hne
      split
      · exact update_of_ne hne ..
      · rfl
    refine @Inv.act u w { w with
      objects := if applied = true then update w.objects key none else w.objects
      deleted := w.deleted ++ [key] } h n c _ rfl rfl rfl rfl ?_ (fun m d hm hd key' hk => ?_) (fun key' hk => ?_)
      (by simp) (by simp) (discard_ok (fun o ho => ?_) hok.2)
    · exact .of_key _ (fun _ => hsafe.unnamed) (fun tx htx _ => hsafe.pending tx htx) hobjects
    · exact hobjects key' fun he => hsafe.free m d hd (he ▸ hk)
    · obtain hk | hk := mem_append.1 hk
      · exact .inl hk
      · exact .inr (mem_singleton.1 hk ▸ hsafe)
    · obtain ⟨hused, hunnamed, hpending, hfree⟩ := hok.1 o (mem_of_mem_erase ho)
      exact safe_of_apart hused hunnamed hpending (by simp) fun m d _ hd => hfree m d hd
  · cases hs

/-- What `commit_flip.sql` leaves to be committed: nothing, or the copies in the rows of a reserved root. -/
theorem Inv.flipped (h : Inv u w) {user rootKey : String}
    (hkept : ∀ o ∈ kept, o.key ∈ w.used ∧ o.key ∉ u.keys ∧ w.objects o.key = some o.bytes) (hfits : Fits u kept)
    (hkey : keyOf kept u.root true = some rootKey)
    (hf : commitFlip max w.tables user u.root rootKey (keyOf kept u.root false) = some t) :
    (commitFiles w.tables user u.root = 0 ∧ t.media = w.tables.media) ∨
      (0 < commitFiles w.tables user u.root ∧ Reserved u w ∧ Good u w t ∧
        ∀ key ∈ named t u.root, key ∈ kept.map Object.key) := by
  obtain hres | hmoved := h.tables
  · obtain ⟨root, hroot, howner, hstatus⟩ := hres.table.root
    obtain hnone | ⟨-, -, hj⟩ := flipRoot_cases hroot user
    · exact .inl (commitFlip_none hf hnone)
    · have hself := (hj root hroot.mem).trans (if_pos (.inl hroot.id))
      have hpart {row : Row} (hrow : Part t u.root row) : ∃ o ∈ kept, row.objectKey = o.key ∧ row.bytes = o.bytes := by
        obtain ⟨-, -, -, ho⟩ := commitFlip_part hroot hkey (fun o ho => (hres.table.shape _).2 (hfits o ho)) hf hj hrow
        exact ho
      refine .inr ⟨commitFiles_pos hroot.mem hroot.id hself, hres, ⟨⟨⟨_, commitFlip_root hroot hf hself, howner, rfl⟩,
        fun p => (commitFlip_shape hf p).trans (hres.table.shape p)⟩, fun row hrow => ?_⟩, fun key hk => ?_⟩
      · obtain ⟨o, ho, hname, hbytes⟩ := hpart hrow
        obtain ⟨hused, hkeys, hlen⟩ := hkept o ho
        rw [hname, hbytes]
        exact ⟨hlen, hused, hkeys⟩
      · obtain ⟨row, hrow, rfl⟩ := mem_named.1 hk
        obtain ⟨o, ho, hname, -⟩ := hpart hrow
        rw [hname]
        exact mem_map_of_mem ho
  · obtain ⟨root, hroot, -, hstatus⟩ := hmoved.good.table.root
    obtain hnone | ⟨hres, -⟩ := flipRoot_cases hroot user
    · exact .inl (commitFlip_none hf hnone)
    · exact nomatch hres.symm.trans hstatus

theorem Inv.flip (h : Inv u w) (hc : w.calls n = some c) (hs : w.flip n c = some w') : Inv u w' := by
  have hinv := h.calls n c hc
  have hok := hinv.ok
  unfold World.flip at hs
  split at hs
  · rename_i objects kept hphase
    simp only [CallOk, hphase] at hok
    obtain ⟨htakes, hfits, hlen⟩ := hok
    have hkept : ∀ o ∈ kept, o.key ∈ live c.phase := fun o ho => hphase ▸ mem_map_of_mem ho
    split at hs
    · cases hs
      exact h.discard_live hc hkept nofun
    · rename_i rootKey hkey
      split at hs
      · cases hs
      rename_i hlock
      split at hs
      · cases hs
        exact h.discard_live hc hkept nofun
      · rename_i t hf
        cases hs
        rw [h.root] at hkey hf ⊢
        have hheld : ∀ o ∈ kept, o.key ∈ w.used ∧ o.key ∉ u.keys ∧ w.objects o.key = some o.bytes := by
          intro o ho
          obtain ⟨hused, hkeys⟩ := hinv.keys o.key (live_subset_held _ (hkept o ho))
          exact ⟨hused, hkeys, hlen o ho⟩
        have hflip := h.flipped hheld hfits hkey hf
        have hother (m : Nat) (hm : m ≠ n) : (w.setPhase n c (.commit objects kept)).calls m = w.calls m :=
          update_of_ne hm ..
        have hself : (w.setPhase n c (.commit objects kept)).calls n = some { c with phase := .commit objects kept } :=
          update_self ..
        refine @Inv.change u (some n) w _ h ?_ ?_ ?_ ?_ fun key hk => .inl hk
        · refine ⟨rfl, rfl, fun _ hk => hk, fun m hm => hother m fun he => hm (by rw [he]), id, fun _ hk => .inl hk,
            fun tx htx key hk => ?_, fun tx htx => (nomatch hlock.symm.trans htx), fun m c' hm hc' key hk => ?_,
            fun _ _ _ _ _ _ => rfl⟩
          · cases htx
            obtain ⟨-, hmedia⟩ | ⟨-, -, -, hnamed⟩ := hflip
            · exact .inl (named_congr hmedia u.root ▸ hk)
            · exact .inr (.inr ⟨n, c, rfl, hc, hphase ▸ hnamed key hk⟩)
          · cases hm
            cases hself.symm.trans hc'
            exact absurd hk not_mem_nil
        · have hu : Untouched u w { w.setPhase n c (.commit objects kept) with
              lock := some ⟨n, t, decide (commitFiles w.tables c.user u.root > 0), false⟩ } :=
            ⟨rfl, rfl, fun _ hk => hk, fun _ _ => rfl⟩
          exact hu.tables h.tables
        · intro tx htx
          cases htx
          obtain ⟨hfiles, hmedia⟩ | ⟨hfiles, hres, hgood, -⟩ := hflip
          · exact .inl ⟨decide_eq_false (by rw [hfiles]; exact Nat.lt_irrefl 0), hmedia⟩
          · exact .inr ⟨decide_eq_true hfiles, hres.congr rfl rfl, hgood.congr rfl (fun _ hk => hk) fun _ _ => rfl⟩
        · intro m c' hm hc'
          cases hm
          cases hself.symm.trans hc'
          refine ⟨⟨htakes, fun o ho => (hinv.unnamed _ (hkept o ho)).1, _, rfl, rfl, rfl⟩, fun key hk => ?_,
            fun key hk m d hm hd => ?_, fun key hk => absurd hk not_mem_nil⟩
          · exact hinv.keys key (hphase ▸ hk)
          · exact hinv.apart key (hphase ▸ hk) m d hm (hother m hm ▸ hd)
  · cases hs

theorem Inv.resolve (h : Inv u w) (htx : w.lock = some tx) (hlost : tx.lost = true) (applied : Bool) :
    Inv u (if applied then w.apply tx else { w with lock := none }) := by
  have hlocked (w' : World) : ∀ tx, w.lock = some tx → tx.lost = false → none ≠ some tx.call → w'.lock = some tx := by
    intro tx' htx' hopen
    cases htx.symm.trans htx'
    exact nomatch hlost.symm.trans hopen
  cases applied with
  | false =>
    have hu : Untouched u w { w with lock := none } := ⟨rfl, rfl, fun _ hk => hk, fun _ _ => rfl⟩
    refine @Inv.change u none w { w with lock := none } h ?_ (hu.tables h.tables) nofun
      (fun m c' hm => (nomatch hm)) fun key hk => .inl hk
    exact ⟨rfl, rfl, fun _ hk => hk, fun _ _ => rfl, id, fun _ hk => .inl hk, nofun, hlocked _,
      fun m c' hm => (nomatch hm), fun _ _ _ _ _ _ => rfl⟩
  | true =>
    refine @Inv.change u none w (w.apply tx) h ?_ ?_ nofun (fun m c' hm => (nomatch hm))
      fun key hk => .inl hk
    · refine ⟨rfl, rfl, fun _ hk => hk, fun _ _ => rfl, fun hm => ?_, fun key hk => .inr ⟨tx, htx, rfl, hk⟩,
        nofun, hlocked _, fun m c' hm => (nomatch hm), fun _ _ _ _ _ _ => rfl⟩
      unfold World.apply
      split
      · exact append_ne_nil_of_left_ne_nil hm _
      · exact hm
    · obtain ⟨hmoves, hmedia⟩ | ⟨hmoves, hres, hgood⟩ := h.pending tx htx
      · have hu : Untouched u w (w.apply tx) :=
          ⟨hmedia, by simp only [World.apply, hmoves, false_eq_true, if_false], fun _ hk => hk, fun _ _ => rfl⟩
        exact hu.tables h.tables
      · refine .inr ⟨hgood.congr rfl (fun _ hk => hk) fun _ _ => rfl, ?_⟩
        simp only [World.apply, hmoves, hres.moved, if_true, nil_append, length_singleton]

theorem Inv.unknown (h : Inv u w) (hc : w.calls n = some c) {objects : List Object}
    (hphase : c.phase = .commit objects kept) (htx : w.lock = some tx) (hcall : tx.call = n) :
    Inv u ({ w with lock := some { tx with lost := true } }.setPhase n c (.settle objects kept)) := by
  have hinv := h.calls n c hc
  have hok := hinv.ok
  simp only [CallOk, hphase] at hok
  have hother (m : Nat) (hm : m ≠ n) :
      ({ w with lock := some { tx with lost := true } }.setPhase n c (.settle objects kept)).calls m = w.calls m :=
    update_of_ne hm ..
  have hself : ({ w with lock := some { tx with lost := true } }.setPhase n c (.settle objects kept)).calls n =
      some { c with phase := .settle objects kept } :=
    update_self ..
  have hu : Untouched u w ({ w with lock := some { tx with lost := true } }.setPhase n c (.settle objects kept)) :=
    ⟨rfl, rfl, fun _ hk => hk, fun _ _ => rfl⟩
  refine @Inv.change u (some n) w _ h ?_ (hu.tables h.tables) ?_ ?_ fun key hk => .inl hk
  · refine ⟨rfl, rfl, fun _ hk => hk, fun m hm => hother m fun he => hm (by rw [he]), id, fun _ hk => .inl hk,
      fun tx' htx' key hk => ?_, fun tx' htx' _ hactor => ?_, fun m c' hm hc' key hk => ?_, fun _ _ _ _ _ _ => rfl⟩
    · cases htx'
      exact .inr (.inl ⟨tx, htx, hk⟩)
    · cases htx.symm.trans htx'
      exact absurd (by rw [hcall]) hactor
    · cases hm
      cases hself.symm.trans hc'
      exact absurd hk not_mem_nil
  · intro tx' htx'
    cases htx'
    have hpending := hu.pending htx (h.pending tx htx)
    exact hpending
  · intro m c' hm hc'
    cases hm
    cases hself.symm.trans hc'
    refine ⟨hok.1, fun key hk => ?_, fun key hk m d hm hd => ?_, fun key hk => absurd hk not_mem_nil⟩
    · exact hinv.keys key (hphase ▸ hk)
    · exact hinv.apart key (hphase ▸ hk) m d hm (hother m hm ▸ hd)

theorem Inv.ended (h : Inv u w) (hc : w.calls n = some c) {objects : List Object}
    (hphase : c.phase = .commit objects kept) (htx : w.lock = some tx) (hcall : tx.call = n) (applied : Bool) :
    Inv u ((if applied then w.apply tx else { w with lock := none }).setPhase n c (.settle objects kept)) := by
  have hres := (h.unknown hc hphase htx hcall).resolve rfl rfl applied
  cases applied with
  | false | true => exact hres

theorem Inv.commit (h : Inv u w) (hc : w.calls n = some c) {outcome : Outcome}
    (hs : w.commit n c outcome = some w') : Inv u w' := by
  have hok := (h.calls n c hc).ok
  unfold World.commit at hs
  split at hs
  · rename_i objects kept tx hphase htx
    simp only [CallOk, hphase] at hok
    obtain ⟨htakes, hkept, -⟩ := hok
    split at hs
    · rename_i hmine
      have hended := h.ended hc hphase htx hmine.1
      split at hs
      · cases hs
        have hset : Inv u ((w.apply tx).setPhase n c (.settle objects kept)) := hended true
        have hself : ((w.apply tx).setPhase n c (.settle objects kept)).calls n = _ := update_self ..
        rw [← setPhase_setPhase _ n c (.settle objects kept)]
        split
        · rename_i hmoves
          have hmoved : (w.apply tx).moved ≠ [] := by simp [World.apply, hmoves]
          split
          · exact hset.quiet hself rfl ⟨htakes, hmoved⟩
          · exact hset.discard_safe hself (fun o ho => hset.safe_upload hmoved (htakes.keys o ho)) fun _ => hmoved
        · rename_i hmoves
          refine hset.discard_kept hself (fun o ho => mem_map_of_mem ho) (fun o ho => ⟨?_, nofun⟩)
            nofun
          obtain ⟨-, hmedia⟩ | ⟨hm, -⟩ := h.pending tx htx
          · have hnamed : named (w.apply tx).tables u.root = named w.tables u.root := named_congr hmedia u.root
            exact fun hk => hkept o ho (hnamed ▸ hk)
          · exact absurd hm hmoves
      · cases hs
        exact hended true
      · cases hs
        exact hended false
      · cases hs
        exact h.unknown hc hphase htx hmine.1
    · cases hs
  · cases hs

theorem Inv.rollback (h : Inv u w) (hc : w.calls n = some c) (hs : w.rollback n c = some w') : Inv u w' := by
  have hok := (h.calls n c hc).ok
  unfold World.rollback at hs
  split at hs
  · rename_i objects kept hphase
    cases hs
    exact h.discard_live hc (fun o ho => hphase ▸ mem_map_of_mem ho) nofun
  · rename_i objects kept hphase
    simp only [CallOk, hphase] at hok
    split at hs
    · rename_i tx htx
      split_ifs at hs with hmine
      cases hs
      have hset := h.ended hc hphase htx hmine.1 false
      rw [← setPhase_setPhase _ n c (.settle objects kept)]
      exact hset.discard_kept (update_self ..) (fun o ho => mem_map_of_mem ho)
        (fun o ho => ⟨hok.2.1 o ho, nofun⟩) nofun
    · cases hs
  · cases hs

theorem Inv.objects (h : Inv u w) {key : String} {value : Option Int} (hkey : key ∈ u.keys ∨ Safe u w key) :
    Inv u { w with objects := update w.objects key value } := by
  have hobjects : ∀ key', key' ≠ key → update w.objects key value key' = w.objects key' :=
    fun key' hne => update_of_ne hne ..
  have hu : Untouched u w { w with objects := update w.objects key value } := by
    refine .of_key w.deleted (fun hm hk => ?_) (fun tx htx hg hk => ?_) hobjects
    · obtain hkey | hsafe := hkey
      · obtain ⟨row, hrow, rfl⟩ := mem_named.1 hk
        exact (hm.good.part row hrow).2.2 hkey
      · exact hsafe.unnamed hk
    · obtain hkey | hsafe := hkey
      · obtain ⟨row, hrow, rfl⟩ := mem_named.1 hk
        exact (hg.part row hrow).2.2 hkey
      · exact hsafe.pending tx htx hk
  refine @Inv.change u none w { w with objects := update w.objects key value } h ?_ (hu.tables h.tables)
    (fun tx htx => hu.pending htx (h.pending tx htx)) (fun m c' hm => (nomatch hm)) fun key hk => .inl hk
  refine ⟨rfl, rfl, fun _ hk => hk, fun _ _ => rfl, id, fun _ hk => .inl hk,
    fun tx htx key hk => .inr (.inl ⟨tx, htx, hk⟩), fun tx htx _ _ => htx, fun m c' hm => (nomatch hm),
    fun m d _ hd key' hk => hobjects key' ?_⟩
  rintro rfl
  obtain hkey | hsafe := hkey
  · exact ((h.calls m d hd).keys _ (live_subset_held _ hk)).2 hkey
  · exact hsafe.free m d hd hk

theorem Inv.step (h : Inv u w) {a : Impl.Media.Commit.Action} (hs : Impl.Media.Commit.step w a = some w') : Inv u w' := by
  cases a with
  | start n user =>
    rw [Impl.Media.Commit.step] at hs
    split_ifs at hs with hnone
    cases hs
    exact h.act rfl rfl rfl rfl ⟨rfl, rfl, fun _ hk => hk, fun _ _ => rfl⟩ (fun _ _ _ _ _ _ => rfl)
      (fun _ hk => .inl hk) (forall_mem_nil _) (forall_mem_nil _) trivial
  | read n lost =>
    obtain ⟨c, hc, hs⟩ := bind_eq_some_iff.1 hs
    exact h.read hc hs
  | head n key failed =>
    obtain ⟨c, hc, hs⟩ := bind_eq_some_iff.1 hs
    exact h.head hc hs
  | copies n keys =>
    obtain ⟨c, hc, hs⟩ := bind_eq_some_iff.1 hs
    exact h.copies hc hs
  | copy n key failed =>
    obtain ⟨c, hc, hs⟩ := bind_eq_some_iff.1 hs
    exact h.copy hc hs
  | flip n =>
    obtain ⟨c, hc, hs⟩ := bind_eq_some_iff.1 hs
    exact h.flip hc hs
  | rollback n =>
    obtain ⟨c, hc, hs⟩ := bind_eq_some_iff.1 hs
    exact h.rollback hc hs
  | commit n outcome =>
    obtain ⟨c, hc, hs⟩ := bind_eq_some_iff.1 hs
    exact h.commit hc hs
  | resolve applied =>
    rw [Impl.Media.Commit.step] at hs
    split at hs
    · rename_i tx htx
      split at hs
      · rename_i hlost
        cases hs
        exact h.resolve htx hlost applied
      · cases hs
    · cases hs
  | delete n key applied =>
    obtain ⟨c, hc, hs⟩ := bind_eq_some_iff.1 hs
    exact h.delete hc hs
  | late key =>
    rw [Impl.Media.Commit.step] at hs
    split_ifs at hs with hdeleted
    cases hs
    exact h.objects (.inr (h.deleted key hdeleted))
  | put key bytes =>
    rw [Impl.Media.Commit.step] at hs
    split_ifs at hs with hup
    cases hs
    exact h.objects (.inl (h.uploads ▸ hup))
  | tick ms =>
    cases hs
    have hu : Untouched u w { w with tables := { w.tables with clock := w.tables.clock + ms } } :=
      ⟨rfl, rfl, fun _ hk => hk, fun _ _ => rfl⟩
    refine @Inv.change u none w { w with tables := { w.tables with clock := w.tables.clock + ms } } h ?_
      (hu.tables h.tables) (fun tx htx => hu.pending htx (h.pending tx htx)) (fun m c' hm => (nomatch hm))
      fun key hk => .inl hk
    exact ⟨rfl, rfl, fun _ hk => hk, fun _ _ => rfl, id, fun _ hk => .inl hk,
      fun tx htx key hk => .inr (.inl ⟨tx, htx, hk⟩), fun tx htx _ _ => htx, fun m c' hm => (nomatch hm),
      fun _ _ _ _ _ _ => rfl⟩

end Steps

/-! ## Main result -/

theorem Inv.start {id : Uuid} {root : Row} (objects : String → Option Int) (hroot : RootOk t id root)
    (hreserved : root.status = .reserved) :
    Inv ⟨id, root.ownerUser, named t id, Shape t id⟩ (World.start t id objects) where
  root := rfl
  uploads := rfl
  keys key hk := by
    obtain ⟨row, hrow, rfl⟩ := mem_named.1 hk
    exact mem_map_of_mem hrow.1
  tables := .inl ⟨⟨⟨root, hroot, rfl, hreserved⟩, fun _ => Iff.rfl⟩, rfl, fun _ hk => hk⟩
  pending tx htx := nomatch htx
  calls n c hc := nomatch (hc : none = some c)
  deleted := forall_mem_nil _

/-- Nothing that the rows of a root name, or come to name, is ever deleted by a call. The root stays reserved or is moved
by one call, and after a success the rows name objects with the sizes that were reserved. -/
theorem committed_objects_kept {t : Tables} {id : Uuid} {root : Row} (objects : String → Option Int)
    (hroot : RootOk t id root) (hreserved : root.status = .reserved) {as : List Impl.Media.Commit.Action} {w : World}
    (hrun : run Impl.Media.Commit.step (World.start t id objects) as = some w) :
    (∀ key ∈ w.deleted, key ∉ named w.tables id) ∧ w.moved.length ≤ 1 ∧
      (w.moved = [] → ∃ root ∈ w.tables.media, root.id = id ∧ root.status = .reserved) ∧
      ∀ n c, w.calls n = some c → c.phase = .done .ok →
        (∃ root ∈ w.tables.media, root.id = id ∧ root.status = .uploaded) ∧
          ∀ row ∈ w.tables.media, row.id = id ∨ row.parentId = some id →
            ∃ was ∈ t.media, was.id = row.id ∧ w.objects row.objectKey = some was.bytes := by
  have h : Inv ⟨id, root.ownerUser, named t id, Shape t id⟩ w :=
    run_invariant (fun h hs => h.step hs) (Inv.start objects hroot hreserved) hrun
  refine ⟨fun key hk => (h.deleted key hk).unnamed, ?_, fun hnil => ?_, fun n c hc hphase => ?_⟩
  · obtain hres | hmoved := h.tables
    · rw [hres.moved]
      exact Nat.zero_le 1
    · exact hmoved.moved.le
  · obtain hres | hmoved := h.tables
    · obtain ⟨root, hroot, -, hstatus⟩ := hres.table.root
      exact ⟨root, hroot.mem, hroot.id, hstatus⟩
    · exact nomatch hnil ▸ hmoved.moved
  · have hok := (h.calls n c hc).ok
    simp only [CallOk, hphase] at hok
    obtain hres | hmoved := h.tables
    · exact absurd hres.moved (hok trivial)
    · obtain ⟨root, hroot, -, hstatus⟩ := hmoved.good.table.root
      refine ⟨⟨root, hroot.mem, hroot.id, hstatus⟩, fun row hrow hof => ?_⟩
      obtain ⟨was, hwas, heq⟩ := (hmoved.good.table.shape _).1 ⟨row, ⟨hrow, hof⟩, rfl⟩
      obtain ⟨hid, hbytes⟩ := Prod.mk.inj heq
      exact ⟨was, hwas.1, hid, hbytes ▸ (hmoved.good.part row ⟨hrow, hof⟩).1⟩

def reservation : Tables :=
  ⟨[⟨1, 1, "a", "101", 9, .image, none, some 5, 8192, .reserved, none, none, some 1000⟩,
    ⟨2, 1, "b", "101", 9, .thumb, some 1, none, 4096, .reserved, none, none, some 1000⟩], fun _ => none, [], [], 0⟩

/-- Two calls copy the upload. The outcome of the first commit is not known, and the transaction is applied after the
row was read again; the second call finds the row moved. -/
def races : List Impl.Media.Commit.Action :=
  [.start 0 "101", .start 1 "101", .put "a" 8192, .put "b" 4096, .read 0 false, .read 1 false,
    .head 0 "a" false, .head 0 "b" false, .head 1 "a" false, .head 1 "b" false, .copies 0 ["c", "d"], .copies 1 ["e", "f"],
    .copy 0 "c" none, .copy 1 "e" none, .copy 0 "d" none, .copy 1 "f" none,
    .head 0 "c" false, .head 0 "d" false, .head 1 "e" false, .head 1 "f" false,
    .flip 0, .commit 0 (.lost none), .read 0 false, .resolve true,
    .flip 1, .commit 1 .done, .delete 1 "e" true, .delete 1 "f" true, .read 1 false, .read 1 false]

theorem reservation_root :
    RootOk reservation 1 ⟨1, 1, "a", "101", 9, .image, none, some 5, 8192, .reserved, none, none, some 1000⟩ where
  families := {
    ids := by decide
    thumb := by decide
    part := by
      intro row hrow id hid
      obtain rfl | hrow := mem_cons.1 hrow
      · cases hid
      · cases mem_singleton.1 hrow
        cases hid
        exact ⟨_, mem_cons_self, rfl, by decide, rfl, rfl, rfl⟩
    single := by decide
    bytes := by decide }
  mem := mem_cons_self
  id := rfl
  kind := by decide

theorem committed_objects_kept_raced : ∃ w,
    run Impl.Media.Commit.step (World.start reservation 1 fun _ => none) races = some w ∧
      w.deleted = ["e", "f"] ∧ named w.tables 1 = ["c", "d"] ∧ w.moved = [0] ∧
      (w.calls 1).map Call.phase = some (.done .ok) ∧ ∀ key ∈ w.deleted, key ∉ named w.tables 1 := by
  obtain ⟨w, hw, hend⟩ := map_eq_some_iff.1
    (show (run Impl.Media.Commit.step (World.start reservation 1 fun _ => none) races).map (fun w =>
      decide (w.deleted = ["e", "f"] ∧ named w.tables 1 = ["c", "d"] ∧ w.moved = [0] ∧
        (w.calls 1).map Call.phase = some (.done .ok))) = some true by decide)
  obtain ⟨hdeleted, hnamed, hmoved, hphase⟩ := of_decide_eq_true hend
  exact ⟨w, hw, hdeleted, hnamed, hmoved, hphase, (committed_objects_kept _ reservation_root rfl hw).1⟩

end SC.Proof.Media.Commit
