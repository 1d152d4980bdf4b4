import SoundCloudBackend.Framework.Register
import SoundCloudBackend.Impl.Replication.LikeRanks

/-!
# `user_like_ranks` is a last-writer-wins register with graves

For each key, the triggers of `user_like_ranks` keep a register (`SC.Holds`) whose
images are the replicated rows and whose graves are the replicated tombstones.
`apply_spec` says what one message does, seen from one key; the retry loop of the merge
trigger never gives up.
-/

namespace SC.Proof.Replication

open Impl.Replication
open Impl.Replication.LikeNode
open Option Function List

variable {s : LikeNode} {k : LikeKey}
variable {v : Int} {m : Msg} {s' : LikeNode} {ms : List Msg} {I : Set LikeRank} {T : Set Int} {o : Option LikeRank}

/-! ## One message -/

def gravesOf (k : LikeKey) : Msg → Set Int
  | .tombstone t => {v | t.pk = k ∧ t.v = v}
  | _ => ∅

/-- The row of a key after a replicated insert, from the row and the newest tombstone before it. -/
def mergedRow (o : Option LikeRank) (tv : Option Int) (new : LikeRank) : Option LikeRank :=
  match o with
  | some o => if o.rowV < new.rowV then some new else some o
  | none => if ∃ t ∈ tv, new.rowV ≤ t then none else some new

def rowAfter (s : LikeNode) (m : Msg) : Option LikeRank :=
  match m with
  | .insert k new => mergedRow (s.rows k) (newestTomb s.tombs k) new
  | .update k new => (s.rows k).map (scdMergeUpdate s.role · new)
  | .delete k => (s.rows k).filter fun o => ∃ tv ∈ newestTomb s.tombs k, tv < o.rowV
  | .tombstone t => (s.rows t.pk).filter fun o => t.v < o.rowV

def tombsAfter (s : LikeNode) : Msg → List (Tombstone LikeKey)
  | .tombstone t => insertTombstone s.tombs t
  | _ => s.tombs

theorem buriedBy_eq_some {tv : Int} : s.buriedBy k v = some tv ↔ newestTomb s.tombs k = some tv ∧ v ≤ tv := by
  simp [buriedBy, filter_eq_some_iff]

theorem buriedBy_eq_none : s.buriedBy k v = none ↔ ¬ ∃ tv ∈ newestTomb s.tombs k, v ≤ tv := by
  simp [buriedBy, filter_eq_none_iff]

/-- The first attempt of the merge loop already succeeds: both statements it can run affect a row. -/
theorem scdMergeInsert_spec (n : Nat) (s : LikeNode) (k : LikeKey) (new : LikeRank) :
    ∃ s', scdMergeInsert (n + 1) s k new = .ok s' ∧ s'.tombs = s.tombs ∧
      s'.rows = update s.rows k (mergedRow (s.rows k) (newestTomb s.tombs k) new) := by
  rw [scdMergeInsert]
  cases hk : s.rows k with
  | some o =>
    by_cases hv : o.rowV < new.rowV
    · have hne : o ≠ ⟨new.likeCreatedAt, new.rank, new.rowV⟩ := by
        rintro rfl
        exact lt_irrefl _ hv
      simp only [updateMerging, hk, gt_iff_lt, hv, if_true, max_eq_right hv.le, hne, if_false]
      exact ⟨_, rfl, rfl, by simp [mergedRow, hv]⟩
    · simp only [gt_iff_lt, hv, if_false]
      exact ⟨s, rfl, rfl, by simp [mergedRow, hv, hk]⟩
  | none =>
    cases hb : s.buriedBy k new.rowV with
    | some tv =>
      have hex : ∃ t ∈ newestTomb s.tombs k, new.rowV ≤ t := ⟨tv, buriedBy_eq_some.1 hb⟩
      exact ⟨_, rfl, rfl, by simpa [queueResend, mergedRow, hk] using hex⟩
    | none =>
      simp only [insertMerging, hb, hk]
      exact ⟨_, rfl, rfl, by simp only [mergedRow, if_neg (buriedBy_eq_none.1 hb)]⟩

theorem scdErase_spec (s : LikeNode) (k : LikeKey) (upto : Int) : (scdErase s k upto).tombs = s.tombs ∧
      (scdErase s k upto).rows =
        update s.rows k ((s.rows k).filter fun o => upto < o.rowV) := by
  unfold scdErase
  cases hk : s.rows k with
  | none => simp [hk]
  | some o =>
    by_cases hv : o.rowV ≤ upto
    · simp [hv, not_lt.2 hv, filter_some]
    · simp [hv, not_le.1 hv, filter_some, queueResend, hk]

theorem scdTombGuard_spec {old : LikeRank} (hk : s.rows k = some old) : (scdTombGuard s k old).tombs = s.tombs ∧
      (scdTombGuard s k old).rows = update s.rows k (rowAfter s (.delete k)) := by
  unfold scdTombGuard
  cases ht : newestTomb s.tombs k with
  | none => simp [rowAfter, hk, ht]
  | some tv =>
    by_cases hv : old.rowV ≤ tv
    · simp [rowAfter, hk, ht, hv, not_lt.2 hv, filter_some]
    · simp [rowAfter, hk, ht, hv, not_le.1 hv, filter_some, queueResend]

theorem apply_spec (s : LikeNode) (m : Msg) : ∃ s', s.apply m = .ok s' ∧ s'.tombs = tombsAfter s m ∧
      s'.rows = update s.rows m.key (rowAfter s m) := by
  cases m with
  | insert k new => exact scdMergeInsert_spec 2 s k new
  | update k new =>
    cases hk : s.rows k with
    | none => exact ⟨s, by simp [LikeNode.apply, hk], rfl, by simp [rowAfter, Msg.key, hk]⟩
    | some old =>
      simp only [LikeNode.apply, hk]
      exact ⟨_, rfl, rfl, by simp [rowAfter, Msg.key, hk]⟩
  | delete k =>
    cases hk : s.rows k with
    | none => exact ⟨s, by simp [LikeNode.apply, hk], rfl, by simp [rowAfter, Msg.key, hk]⟩
    | some old =>
      simp only [LikeNode.apply, hk]
      exact ⟨_, rfl, scdTombGuard_spec hk⟩
  | tombstone t => exact ⟨_, rfl, scdErase_spec { s with tombs := insertTombstone s.tombs t } t.pk t.v⟩

theorem tombOf_tombsAfter : TombOf (tombsAfter s m) k v ↔ TombOf s.tombs k v ∨ v ∈ gravesOf k m := by
  cases m with
  | tombstone t => simp [tombsAfter, tombOf_insertTombstone, gravesOf, eq_comm]
  | _ => simp [tombsAfter, gravesOf]

/-! ## Runs -/

theorem applyAll_concat (s : LikeNode) (ms : List Msg) (m : Msg) :
    s.applyAll (ms ++ [m]) = (s.applyAll ms).bind fun s' => s'.apply m := by
  simp only [applyAll, foldlM_append, foldlM_cons, foldlM_nil, bind_pure]
  rfl

/-- The row of `k`, if there is one, is above every tombstone of `k`. -/
def LiveAbove (s : LikeNode) (k : LikeKey) : Prop :=
  ∀ x, s.rows k = some x → ∀ v, TombOf s.tombs k v → v < x.rowV

theorem apply_live (hs : LiveAbove s k) (h : s.apply m = .ok s') : LiveAbove s' k := by
  obtain ⟨s₁, h₁, ht, hr⟩ := apply_spec s m
  obtain rfl : s₁ = s' := by simpa [h₁] using h
  intro x hx v hv
  rw [ht, tombOf_tombsAfter] at hv
  rw [hr] at hx
  by_cases hk : k = m.key
  · subst hk
    rw [update_self] at hx
    cases m with
    | insert k new =>
      have hv : TombOf s.tombs k v := by simpa [gravesOf, Msg.key] using hv
      simp only [rowAfter, mergedRow] at hx
      split at hx
      · rename_i o ho
        split at hx
        · rename_i hlt
          obtain rfl := some.inj hx
          exact (hs o ho v hv).trans hlt
        · obtain rfl := some.inj hx
          exact hs _ ho v hv
      · split_ifs at hx with hb
        obtain rfl := some.inj hx
        exact not_le.1 fun hle => hb (exists_newestTomb_ge.2 ⟨v, hv, hle⟩)
    | update k new =>
      have hv : TombOf s.tombs k v := by simpa [gravesOf, Msg.key] using hv
      obtain ⟨o, ho, rfl⟩ := map_eq_some_iff.1 hx
      have hlt := hs o ho v hv
      simp only [scdMergeUpdate]
      split
      · exact hlt
      · rename_i hge
        omega
    | delete k =>
      have hv : TombOf s.tombs k v := by simpa [gravesOf, Msg.key] using hv
      exact hs x (filter_eq_some_iff.1 hx).1 v hv
    | tombstone t =>
      obtain ⟨hx, hlt⟩ := filter_eq_some_iff.1 hx
      rcases hv with hv | ⟨-, rfl⟩
      · exact hs x hx v hv
      · exact of_decide_eq_true hlt
  · rw [update_of_ne hk] at hx
    refine hs x hx v (hv.resolve_right ?_)
    cases m with
    | tombstone t => exact fun hv => hk hv.1.symm
    | _ => exact id

theorem applyAll_live (hs : LiveAbove s k) (h : s.applyAll ms = .ok s') : LiveAbove s' k := by
  induction ms using List.reverseRecOn generalizing s' with
  | nil =>
    obtain rfl : s = s' := by simpa [applyAll, pure, Except.pure] using h
    exact hs
  | append_singleton ms m ih =>
    rw [applyAll_concat] at h
    cases h₁ : s.applyAll ms with
    | error e => simp [h₁, Except.bind] at h
    | ok s₁ => exact apply_live (ih h₁) (by simpa [h₁, Except.bind] using h)

/-! ## The register of a key -/

def images (k : LikeKey) (ms : List Msg) : Set LikeRank :=
  {x | .insert k x ∈ ms}

def graves (k : LikeKey) (ms : List Msg) : Set Int :=
  {v | ∃ t, .tombstone t ∈ ms ∧ t.pk = k ∧ t.v = v}

/-- Before each delete of `k` a tombstone of `k` was delivered. -/
def DeletesCovered (k : LikeKey) (ms : List Msg) : Prop :=
  ∀ pre post, ms = pre ++ .delete k :: post → (graves k pre).Nonempty

theorem images_concat_insert (k : LikeKey) (ms : List Msg) (new : LikeRank) :
    images k (ms ++ [.insert k new]) = insert new (images k ms) := by
  ext x
  simp [images, or_comm]

theorem images_concat_of_ne (hm : ∀ x, m ≠ .insert k x) : images k (ms ++ [m]) = images k ms := by
  ext x
  simp [images, (hm x).symm]

theorem graves_concat (k : LikeKey) (ms : List Msg) (m : Msg) :
    graves k (ms ++ [m]) = graves k ms ∪ gravesOf k m := by
  ext v
  cases m <;> simp [graves, gravesOf, or_and_right, exists_or]

theorem DeletesCovered.of_concat (h : DeletesCovered k (ms ++ [m])) : DeletesCovered k ms :=
  fun pre post hms => h pre (post ++ [m]) (by simp [hms])

theorem mergedRow_holds {tombs : List (Tombstone LikeKey)}
    (hT : ∀ v, TombOf tombs k v ↔ v ∈ T) (h : Holds LikeRank.rowV I T o) (new : LikeRank) :
    Holds LikeRank.rowV (insert new I) T (mergedRow o (newestTomb tombs k) new) := by
  cases o with
  | some o =>
    simp only [mergedRow]
    split
    · rename_i hlt
      exact h.insert_newer hlt
    · rename_i hle
      exact h.insert_older (not_lt.1 hle)
  | none =>
    by_cases hb : ∃ tv ∈ newestTomb tombs k, new.rowV ≤ tv
    · obtain ⟨v, hv, hle⟩ := exists_newestTomb_ge.1 hb
      simpa only [mergedRow, if_pos hb] using h.insert_buried ((hT v).1 hv) hle
    · simp only [mergedRow, if_neg hb]
      exact h.insert_first fun v hv => not_le.1 fun hle => hb (exists_newestTomb_ge.2 ⟨v, (hT v).2 hv, hle⟩)

theorem filter_holds (h : Holds LikeRank.rowV I T o)
    (v : Int) : Holds LikeRank.rowV I (insert v T) (o.filter fun o => v < o.rowV) := by
  cases o with
  | none => exact h.bury_none
  | some o =>
    by_cases hv : v < o.rowV
    · simpa [filter_some, hv] using h.bury_below hv
    · simpa [filter_some, hv] using h.bury (not_lt.1 hv)

theorem rowAfter_delete (hs : LiveAbove s k) (ht : ∃ v, TombOf s.tombs k v) :
    rowAfter s (.delete k) = s.rows k := by
  obtain ⟨v, hv⟩ := ht
  cases ho : s.rows k with
  | none => simp [rowAfter, ho]
  | some o =>
    obtain ⟨tv, htv, -⟩ := exists_newestTomb_ge.2 ⟨v, hv, le_rfl⟩
    have hlt : tv < o.rowV := hs o ho tv (newestTomb_eq_some.1 htv).1
    rw [rowAfter, ho, filter_some, if_pos]
    exact decide_eq_true ⟨tv, htv, hlt⟩

/-- A run from a state without row and tombstone of `k`, with covered deletes and no updates of
`k`, keeps in the row of `k` what a register holds after the same images and graves. -/
theorem applyAll_holds (hrow : s.rows k = none) (htomb : newestTomb s.tombs k = none) (hupd : ∀ x, .update k x ∉ ms)
    (hdel : DeletesCovered k ms) :
    ∃ s', s.applyAll ms = .ok s' ∧ Holds LikeRank.rowV (images k ms) (graves k ms) (s'.rows k) ∧
      ∀ v, TombOf s'.tombs k v ↔ v ∈ graves k ms := by
  induction ms using List.reverseRecOn with
  | nil =>
    refine ⟨s, rfl, ?_, fun v => ?_⟩
    · simp [hrow, images, Holds]
    · simp [graves, newestTomb_eq_none.1 htomb v]
  | append_singleton ms m ih =>
    obtain ⟨s₁, h₁, hh, ht₁⟩ := ih (fun x hx => hupd x (by simp [hx])) hdel.of_concat
    obtain ⟨s₂, h₂, ht₂, hr⟩ := apply_spec s₁ m
    refine ⟨s₂, by simp [applyAll_concat, h₁, Except.bind, h₂], ?_, fun v => ?_⟩
    · rw [hr, graves_concat]
      by_cases hk : m.key = k
      · subst hk
        rw [update_self]
        cases m with
        | insert k new =>
          simpa only [Msg.key, gravesOf, Set.union_empty, images_concat_insert, rowAfter]
            using mergedRow_holds ht₁ hh new
        | update k new => exact absurd (by simp [Msg.key]) (hupd new)
        | delete k =>
          have hlive : LiveAbove s₁ k := applyAll_live (by simp [LiveAbove, show s.rows k = none from hrow]) h₁
          obtain ⟨v, hv⟩ := hdel ms [] rfl
          rw [images_concat_of_ne (by simp), rowAfter_delete hlive ⟨v, (ht₁ v).2 hv⟩]
          simpa [gravesOf, Msg.key] using hh
        | tombstone t =>
          have hg : gravesOf t.pk (.tombstone t) = {t.v} := by
            ext v
            simp [gravesOf, eq_comm]
          rw [images_concat_of_ne (by simp)]
          simpa only [Msg.key, hg, Set.union_singleton, rowAfter] using filter_holds hh t.v
      · have hg : gravesOf k m = ∅ := by
          cases m with
          | tombstone t => simp [gravesOf, show t.pk ≠ k from hk]
          | _ => rfl
        rw [update_of_ne (Ne.symm hk), images_concat_of_ne (by rintro x rfl; exact hk rfl), hg,
          Set.union_empty]
        exact hh
    · rw [ht₂, tombOf_tombsAfter, ht₁, graves_concat]
      rfl

/-- If versions identify images, and a tombstone came before each delete, the row of a key does
not depend on the order or the repetition of what is delivered: it is the image with the
greatest version if that is above every tombstone, and there is none otherwise. A live row is
always above the newest tombstone. -/
theorem likeRanks_order_insensitive (s : LikeNode) (k : LikeKey) (ms : List Msg) (hrow : s.rows k = none)
    (htomb : newestTomb s.tombs k = none) (hupd : ∀ x, .update k x ∉ ms)
    (hdel : DeletesCovered k ms)
    (heq : ∀ x y, .insert k x ∈ ms → .insert k y ∈ ms → x.rowV = y.rowV → x = y) :
    (∃ s', s.applyAll ms = .ok s' ∧
      (∀ x, s'.rows k = some x ↔ .insert k x ∈ ms ∧ (∀ y, .insert k y ∈ ms → y.rowV ≤ x.rowV) ∧
        ∀ t, .tombstone t ∈ ms → t.pk = k → t.v < x.rowV) ∧
      ∀ v, TombOf s'.tombs k v ↔ ∃ t, .tombstone t ∈ ms ∧ t.pk = k ∧ t.v = v) ∧
    ∀ pre, pre <+: ms → ∃ s₁, s.applyAll pre = .ok s₁ ∧
      ∀ x, s₁.rows k = some x → ∀ tv, newestTomb s₁.tombs k = some tv → tv < x.rowV := by
  constructor
  · obtain ⟨s', h, hh, ht⟩ := applyAll_holds hrow htomb hupd hdel
    refine ⟨s', h, fun x => ?_, ht⟩
    rw [hh.eq_some_iff fun x hx y hy => heq x y hx hy]
    constructor
    · rintro ⟨⟨hx, hmax⟩, hgr⟩
      exact ⟨hx, hmax, fun t htm hk => hgr t.v ⟨t, htm, hk, rfl⟩⟩
    · rintro ⟨hx, hmax, hgr⟩
      refine ⟨⟨hx, hmax⟩, ?_⟩
      rintro v ⟨t, htm, hk, rfl⟩
      exact hgr t htm hk
  · rintro pre ⟨post, rfl⟩
    have hpre : DeletesCovered k pre := fun a b hab => hdel a (b ++ post) (by simp [hab])
    obtain ⟨s₁, h₁, -, -⟩ := applyAll_holds hrow htomb (fun x hx => hupd x (by simp [hx])) hpre
    refine ⟨s₁, h₁, fun x hx tv htv => ?_⟩
    have hlive : LiveAbove s₁ k := applyAll_live (by simp [LiveAbove, hrow]) h₁
    exact hlive x hx tv (newestTomb_eq_some.1 htv).1

/-- An old image after a delete stays deleted, a newer one comes back, in a run that repeats both. -/
theorem likeRanks_order_insensitive_at : ∃ s', (⟨.api, fun _ => none, [], [], 0⟩ : LikeNode).applyAll
        [.insert ⟨"u", "t"⟩ ⟨5, 1, 34⟩, .tombstone ⟨⟨"u", "t"⟩, 50, 7⟩, .delete ⟨"u", "t"⟩,
          .insert ⟨"u", "t"⟩ ⟨5, 1, 34⟩, .insert ⟨"u", "t"⟩ ⟨9, 2, 66⟩, .tombstone ⟨⟨"u", "t"⟩, 50, 7⟩]
        = .ok s' ∧ s'.rows ⟨"u", "t"⟩ = some ⟨9, 2, 66⟩ := by
  have h := likeRanks_order_insensitive ⟨.api, fun _ => none, [], [], 0⟩ ⟨"u", "t"⟩
    [.insert ⟨"u", "t"⟩ ⟨5, 1, 34⟩, .tombstone ⟨⟨"u", "t"⟩, 50, 7⟩, .delete ⟨"u", "t"⟩,
      .insert ⟨"u", "t"⟩ ⟨5, 1, 34⟩, .insert ⟨"u", "t"⟩ ⟨9, 2, 66⟩, .tombstone ⟨⟨"u", "t"⟩, 50, 7⟩]
    rfl rfl (by simp) ?_ ?_
  · obtain ⟨⟨s', h₁, h₂, -⟩, -⟩ := h
    refine ⟨s', h₁, (h₂ _).2 ⟨by decide, ?_, ?_⟩⟩
    · intro y hy
      simp at hy
      rcases hy with rfl | rfl <;> decide
    · intro t ht _
      simp at ht
      subst ht
      decide
  · intro pre post h
    rcases pre with _ | ⟨a, _ | ⟨b, pre⟩⟩
    · simp at h
    · simp at h
    · simp at h
      exact ⟨50, _, mem_cons_of_mem _ (mem_cons.2 (.inl h.2.1)), rfl, rfl⟩
  · intro x y hx hy
    simp at hx hy
    rcases hx with rfl | rfl <;> rcases hy with rfl | rfl <;> decide

end SC.Proof.Replication
