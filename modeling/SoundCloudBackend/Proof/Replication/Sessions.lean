import SoundCloudBackend.Framework.Register
import SoundCloudBackend.Impl.Replication.Sessions

/-!
# `sessions`: two registers, and deletes that win

While a row of `sessions` lives, each of its versioned groups is a register of
its own (`Follows`): it equals the group with the greatest version among the
rows written and the images delivered since the row appeared. Once a tombstone
of the key is stored the row is gone for good. `Merges` is what every way of
combining a stored row with another one does to a group.
-/

namespace SC.Proof.Replication

open Impl.Replication
open Impl.Replication.SessionNode
open Function

variable {k : Uuid} {s : SessionNode} {t : Tracked}

/-! ## Groups -/

def bindGroup (r : Session) : Int × Option (List UInt8) :=
  (r.bindV, r.chatBind)

/-- The group that `row_v` stamps, without `created_at`. -/
def rowGroup (r : Session) : Int × Option Uuid × Int :=
  (r.rowV, r.soundcloudConnectionId, r.updatedAt)

variable {β : Type} {g : Session → Int × β} {L : Set Session} {o y r : Session}

/-- The group `g` of `r` is one with the greatest version in `L`. -/
def Follows (g : Session → Int × β) (L : Set Session) (r : Session) : Prop :=
  ∃ m, Latest (fun x => (g x).1) L m ∧ g m = g r

/-- `r` keeps the group of `o`, which `y` does not beat, or takes that of `y`, which `o` does not
beat. -/
def Merges (g : Session → Int × β) (o y r : Session) : Prop :=
  (g r = g o ∧ (g y).1 ≤ (g o).1) ∨ (g r = g y ∧ (g o).1 ≤ (g y).1)

theorem Follows.merge (h : Follows g L o) (hm : Merges g o y r) : Follows g (insert y L) r := by
  obtain ⟨m, hl, hg⟩ := h
  rcases hm with ⟨hr, hle⟩ | ⟨hr, hle⟩
  · exact ⟨m, hl.insert_le (by rw [hg]; exact hle), hg.trans hr.symm⟩
  · exact ⟨y, hl.insert_ge (by rw [hg]; exact hle), hr.symm⟩

theorem follows_singleton : Follows g {y} y :=
  ⟨y, latest_singleton, rfl⟩

theorem merges_self_left (h : (g y).1 ≤ (g o).1) : Merges g o y o :=
  .inl ⟨rfl, h⟩

/-- A row combined with another one: both groups are merged. -/
structure RowMerges (o y r : Session) : Prop where
  bind : Merges bindGroup o y r
  row : Merges rowGroup o y r

theorem scdMergeUpdate_merges (role : Role) (old new : Session) :
    RowMerges old new (scdMergeUpdate role old new) := by
  constructor
  · by_cases h : new.bindV < old.bindV ∨ (role = .core ∧ new.bindV = old.bindV)
    · refine .inl ⟨?_, by simp only [bindGroup]; omega⟩
      simp only [scdMergeUpdate, h, if_true]
      split <;> rfl
    · refine .inr ⟨?_, by simp only [bindGroup]; omega⟩
      simp only [scdMergeUpdate, h, if_false]
      split <;> rfl
  · have hv : (if new.bindV < old.bindV ∨ (role = .core ∧ new.bindV = old.bindV) then
        { new with chatBind := old.chatBind, bindV := old.bindV } else new).rowV = new.rowV := by
      split <;> rfl
    by_cases h : new.rowV < old.rowV ∨ (role = .core ∧ new.rowV = old.rowV)
    · refine .inl ⟨?_, by simp only [rowGroup]; omega⟩
      simp only [scdMergeUpdate, hv, h, if_true, rowGroup]
    · refine .inr ⟨?_, by simp only [rowGroup]; omega⟩
      simp only [scdMergeUpdate, hv, h, if_false, rowGroup]
      split <;> rfl

theorem scdMergeInto_merges (node : Node) (o new : Session) : RowMerges o new (scdMergeInto node o new) := by
  constructor
  · rcases le_or_gt new.bindV o.bindV with h | h
    · exact .inl ⟨by simp [bindGroup, scdMergeInto, h, not_lt.2 h], h⟩
    · exact .inr ⟨by simp [bindGroup, scdMergeInto, h, h.le], h.le⟩
  · rcases le_or_gt new.rowV o.rowV with h | h
    · exact .inl ⟨by simp [rowGroup, scdMergeInto, h, not_lt.2 h], h⟩
    · exact .inr ⟨by simp [rowGroup, scdMergeInto, h, h.le], h.le⟩

theorem scdVerUpdate_merges (node : Node) (c₁ c₂ : Int) (old new : Session) :
    RowMerges old (scdVerUpdate node c₁ c₂ old new) (scdVerUpdate node c₁ c₂ old new) := by
  have stamp : ∀ (p : Prop) [Decidable p] (c a b : Int),
      a ≤ if p then scdHlc c node (some (max a b)) else max a b := by
    intro p _ c a b
    split
    · exact (le_max_left a b).trans (lt_scdHlc c node (max a b)).le
    · exact le_max_left a b
  exact ⟨.inr ⟨rfl, stamp ..⟩, .inr ⟨rfl, stamp ..⟩⟩

/-! ## One action -/

/-- What an action that leads to `s'` writes or delivers for the key `k`. -/
def arrivals (k : Uuid) (s' : SessionNode) : Act → List Session
  | .insert id new => if id = k then [new] else []
  | .update id new => if id = k then [new] else []
  | .localUpdate id _ _ _ => if id = k then (s'.rows k).toList else []
  | _ => []

/-- An action seen from the key `k`, with what arrives for it. -/
inductive KeyStep (k : Uuid) (s s' : SessionNode) (ys : List Session) : Prop
  | gone : s'.rows k = none → KeyStep k s s' ys
  | same : s'.rows k = s.rows k → ys = [] → KeyStep k s s' ys
  | merged {o y r : Session} : s.rows k = some o → s'.rows k = some r → ys = [y] → RowMerges o y r →
      KeyStep k s s' ys
  | appeared {y : Session} : s.rows k = none → newestTomb s.tombs k = none → s'.rows k = some y →
      ys = [y] → KeyStep k s s' ys

theorem scdMergeInto_ne {node : Node} {o new : Session} (h : new.bindV > o.bindV ∨ new.rowV > o.rowV ∨
    (mayLower node o new ∧ new.createdAt < o.createdAt)) : o ≠ scdMergeInto node o new := by
  intro heq
  have hb : o.bindV = max o.bindV new.bindV := congrArg Session.bindV heq
  have hr : o.rowV = max o.rowV new.rowV := congrArg Session.rowV heq
  have hc : o.createdAt = (scdMergeInto node o new).createdAt := congrArg Session.createdAt heq
  rcases h with h | h | ⟨hl, h⟩
  · omega
  · omega
  · simp only [scdMergeInto, hl, if_true] at hc
    omega

theorem scdMergeInsert_keyStep (n : Nat) (s : SessionNode) (id : Uuid) (new : Session) :
    ∃ s', scdMergeInsert (n + 1) s id new = .ok s' ∧ s'.tombs = s.tombs ∧
      KeyStep id s s' [new] ∧ ∀ k, k ≠ id → s'.rows k = s.rows k := by
  rw [scdMergeInsert]
  cases hk : s.rows id with
  | some o =>
    by_cases h : new.bindV > o.bindV ∨ new.rowV > o.rowV ∨
        (mayLower s.node o new ∧ new.createdAt < o.createdAt)
    · simp only [h, if_true, updateMerging, hk, scdMergeInto_ne h, if_false]
      exact ⟨_, rfl, rfl, .merged hk (update_self ..) rfl (scdMergeInto_merges ..),
        fun k hne => update_of_ne hne ..⟩
    · simp only [h, if_false]
      refine ⟨s, rfl, rfl, .merged hk hk rfl ⟨merges_self_left ?_, merges_self_left ?_⟩, fun _ _ => rfl⟩
      · simp only [bindGroup]
        omega
      · simp only [rowGroup]
        omega
  | none =>
    cases ht : newestTomb s.tombs id with
    | some tv => exact ⟨s, rfl, rfl, .gone hk, fun _ _ => rfl⟩
    | none =>
      simp only [insertMerging, ht, hk]
      exact ⟨_, rfl, rfl, .appeared hk ht (update_self ..) rfl,
        fun k hne => update_of_ne hne ..⟩

theorem apply_keyStep (s : SessionNode) (a : Act) (k : Uuid) :
    ∃ s', s.apply a = .ok s' ∧ KeyStep k s s' (arrivals k s' a) ∧
      (∀ v, TombOf s.tombs k v → TombOf s'.tombs k v) ∧
      ∀ v, TombOf s'.tombs k v → TombOf s.tombs k v ∨ s'.rows k = none := by
  cases a with
  | localUpdate id new c₁ c₂ =>
    cases hk : s.rows id with
    | none =>
      refine ⟨s, by simp [SessionNode.apply, hk], ?_, fun _ hv => hv, fun _ => .inl⟩
      by_cases hid : id = k
      · exact .gone (hid ▸ hk)
      · exact .same rfl (by simp [arrivals, hid])
    | some old =>
      simp only [SessionNode.apply, hk]
      refine ⟨_, rfl, ?_, fun _ hv => hv, fun _ => .inl⟩
      by_cases hid : id = k
      · subst hid
        exact .merged hk (update_self ..) (by simp [arrivals]) (scdVerUpdate_merges ..)
      · exact .same (update_of_ne (Ne.symm hid) ..) (by simp [arrivals, hid])
  | localDelete id clock now =>
    cases hk : s.rows id with
    | none => exact ⟨s, by simp [SessionNode.apply, hk], .same rfl rfl, fun _ hv => hv, fun _ => .inl⟩
    | some old =>
      simp only [SessionNode.apply, hk]
      refine ⟨_, rfl, ?_, ?_, ?_⟩
      · by_cases hid : id = k
        · subst hid
          exact .gone (update_self ..)
        · exact .same (update_of_ne (Ne.symm hid) ..) rfl
      · rintro v ⟨t, ht, h⟩
        exact ⟨t, by simp [scdTomb, ht], h⟩
      · rintro v ⟨t, ht, hpk, hv⟩
        simp only [scdTomb, List.mem_append, List.mem_singleton] at ht
        rcases ht with ht | rfl
        · exact .inl ⟨t, ht, hpk, hv⟩
        · subst hpk
          exact .inr (update_self ..)
  | insert id new =>
    obtain ⟨s', h, ht, hks, hne⟩ := scdMergeInsert_keyStep 2 s id new
    refine ⟨s', h, ?_, by simp [ht], by simpa [ht] using fun _ => .inl⟩
    by_cases hid : id = k
    · subst hid
      simpa [arrivals] using hks
    · exact .same (hne k (Ne.symm hid)) (by simp [arrivals, hid])
  | update id new =>
    cases hk : s.rows id with
    | none =>
      refine ⟨s, by simp [SessionNode.apply, hk], ?_, fun _ hv => hv, fun _ => .inl⟩
      by_cases hid : id = k
      · exact .gone (hid ▸ hk)
      · exact .same rfl (by simp [arrivals, hid])
    | some old =>
      simp only [SessionNode.apply, hk]
      refine ⟨_, rfl, ?_, fun _ hv => hv, fun _ => .inl⟩
      by_cases hid : id = k
      · subst hid
        exact .merged hk (update_self ..) (by simp [arrivals]) (scdMergeUpdate_merges ..)
      · exact .same (update_of_ne (Ne.symm hid) ..) (by simp [arrivals, hid])
  | delete id =>
    refine ⟨_, rfl, ?_, fun _ hv => hv, fun _ => .inl⟩
    by_cases hid : id = k
    · subst hid
      exact .gone (update_self ..)
    · exact .same (update_of_ne (Ne.symm hid) ..) rfl
  | tombstone t =>
    refine ⟨_, rfl, ?_, fun v hv => ?_, fun v hv => ?_⟩
    · by_cases hid : t.pk = k
      · subst hid
        exact .gone (update_self ..)
      · exact .same (update_of_ne (Ne.symm hid) ..) rfl
    · exact tombOf_insertTombstone.2 (.inl hv)
    · rcases tombOf_insertTombstone.1 hv with hv | ⟨rfl, -⟩
      · exact .inl hv
      · exact .inr (update_self ..)

/-! ## Runs -/

/-- A node together with what was written or delivered for the key since its row appeared. -/
structure Tracked where
  node : SessionNode
  log : List Session

/-- Start to track the key `k`: a row that is there counts as written. -/
def Tracked.start (k : Uuid) (s : SessionNode) : Tracked :=
  ⟨s, (s.rows k).toList⟩

/-- An action on a tracked node: the log gets what arrives, and is dropped with the row. -/
def track (k : Uuid) (t : Tracked) (a : Act) : Except String Tracked :=
  (t.node.apply a).map fun s' => ⟨s', if s'.rows k = none then [] else t.log ++ arrivals k s' a⟩

def trackAll (k : Uuid) (t : Tracked) (as : List Act) : Except String Tracked :=
  as.foldlM (track k) t

/-- Each group of columns is the one image logged at its version, and a tombstoned row is gone. -/
structure TrackInv (k : Uuid) (t : Tracked) : Prop where
  bind : ∀ r, t.node.rows k = some r → Follows bindGroup {m | m ∈ t.log} r
  row : ∀ r, t.node.rows k = some r → Follows rowGroup {m | m ∈ t.log} r
  empty : t.node.rows k = none → t.log = []
  logout : (∃ v, TombOf t.node.tombs k v) → t.node.rows k = none

theorem TrackInv.start (h : newestTomb s.tombs k ≠ none → s.rows k = none) : TrackInv k (.start k s) where
  bind r hr := by simpa [Tracked.start, show s.rows k = some r from hr] using follows_singleton
  row r hr := by simpa [Tracked.start, show s.rows k = some r from hr] using follows_singleton
  empty hr := by simp [Tracked.start, show s.rows k = none from hr]
  logout := by
    rintro ⟨v, hv⟩
    exact h fun hn => newestTomb_eq_none.1 hn v hv

theorem log_concat (L : List Session) (y : Session) : {m | m ∈ L ++ [y]} = insert y {m | m ∈ L} := by
  ext m
  simp [or_comm]

theorem KeyStep.follows {s' : SessionNode} {ys L : List Session} (h : KeyStep k s s' ys)
    (hg : ∀ {o y r}, RowMerges o y r → Merges g o y r)
    (hL : ∀ o, s.rows k = some o → Follows g {m | m ∈ L} o) (hnil : s.rows k = none → L = [])
    (hr : s'.rows k = some r) : Follows g {m | m ∈ L ++ ys} r := by
  cases h with
  | gone hgone => simp [hgone] at hr
  | same hsame hys =>
    rw [hys, List.append_nil]
    exact hL r (hsame ▸ hr)
  | merged ho hr' hys hm =>
    obtain rfl := Option.some.inj (hr'.symm.trans hr)
    rw [hys, log_concat]
    exact (hL _ ho).merge (hg hm)
  | appeared ho _ hr' hys =>
    obtain rfl := Option.some.inj (hr'.symm.trans hr)
    simpa [hys, hnil ho] using follows_singleton

theorem track_inv (ht : TrackInv k t) (a : Act) :
    ∃ t', track k t a = .ok t' ∧ t.node.apply a = .ok t'.node ∧ TrackInv k t' ∧
      ∀ v, TombOf t.node.tombs k v → TombOf t'.node.tombs k v := by
  obtain ⟨s', h, hks, hmono, hnew⟩ := apply_keyStep t.node a k
  refine ⟨⟨s', if s'.rows k = none then [] else t.log ++ arrivals k s' a⟩, by simp [track, h, Except.map], h,
    ⟨?_, ?_, fun hr => by simp [show s'.rows k = none from hr], ?_⟩, hmono⟩
  · intro r (hr : s'.rows k = some r)
    simpa [hr] using hks.follows RowMerges.bind ht.bind ht.empty hr
  · intro r (hr : s'.rows k = some r)
    simpa [hr] using hks.follows RowMerges.row ht.row ht.empty hr
  · rintro ⟨v, hv⟩
    rcases hnew v hv with hold | hgone
    · -- the row was gone before, and only the absence of tombstones lets it appear
      have hnone := ht.logout ⟨v, hold⟩
      cases hks with
      | gone hgone => exact hgone
      | same hsame _ => exact hsame.trans hnone
      | merged ho _ _ _ => simp [hnone] at ho
      | appeared _ hno _ _ => exact absurd hold (newestTomb_eq_none.1 hno v)
    · exact hgone

theorem trackAll_inv (ht : TrackInv k t) (as : List Act) :
    ∃ t', trackAll k t as = .ok t' ∧ t.node.applyAll as = .ok t'.node ∧ TrackInv k t' ∧
      ∀ v, TombOf t.node.tombs k v → TombOf t'.node.tombs k v := by
  induction as generalizing t with
  | nil => exact ⟨t, rfl, rfl, ht, fun _ hv => hv⟩
  | cons a as ih =>
    obtain ⟨t₁, h₁, hn₁, hi₁, hm₁⟩ := track_inv ht a
    obtain ⟨t₂, h₂, hn₂, hi₂, hm₂⟩ := ih hi₁
    refine ⟨t₂, ?_, ?_, hi₂, fun v hv => hm₂ v (hm₁ v hv)⟩
    · simpa [trackAll, h₁, bind, Except.bind] using h₂
    · simpa [applyAll, hn₁, bind, Except.bind] using hn₂

/-- Equal versions of a group carry equal columns. -/
def GroupsAgree (g : Session → Int × β) (L : List Session) : Prop :=
  ∀ x ∈ L, ∀ y ∈ L, (g x).1 = (g y).1 → g x = g y

/-- The group of `r` is in the log with the greatest version there, and is the only one with it. -/
def IsGreatestGroup (g : Session → Int × β) (L : List Session) (r : Session) : Prop :=
  (∃ m ∈ L, g m = g r) ∧ (∀ m ∈ L, (g m).1 ≤ (g r).1) ∧ ∀ m ∈ L, (g m).1 = (g r).1 → g m = g r

theorem Follows.isGreatestGroup {L : List Session} (h : Follows g {m | m ∈ L} r) (hL : GroupsAgree g L) :
    IsGreatestGroup g L r := by
  obtain ⟨m, hm, hg⟩ := h
  rw [IsGreatestGroup, ← hg]
  exact ⟨⟨m, hm.1, rfl⟩, hm.2, fun y hy hv => hL y hy m hm.1 hv⟩

/-- In every run from a state where a tombstone of the key excludes its row no action fails; while the row lives,
each of its groups is the one with the greatest version since the row appeared; and once a tombstone of the key is
stored the row is gone. -/
theorem sessions_groups_and_logout (k : Uuid) (s : SessionNode) (as : List Act)
    (hs : newestTomb s.tombs k ≠ none → s.rows k = none) :
    ∃ t, trackAll k (.start k s) as = .ok t ∧ s.applyAll as = .ok t.node ∧
      (GroupsAgree bindGroup t.log → GroupsAgree rowGroup t.log → ∀ r, t.node.rows k = some r →
        IsGreatestGroup bindGroup t.log r ∧ IsGreatestGroup rowGroup t.log r) ∧
      ∀ pre post, as = pre ++ post → ∃ s₁, s.applyAll pre = .ok s₁ ∧
        (newestTomb s₁.tombs k ≠ none → t.node.rows k = none) := by
  obtain ⟨t, ht, hn, hi, -⟩ := trackAll_inv (TrackInv.start hs) as
  refine ⟨t, ht, hn, ?_, ?_⟩
  · intro hb hr r hrow
    exact ⟨(hi.bind r hrow).isGreatestGroup hb, (hi.row r hrow).isGreatestGroup hr⟩
  · rintro pre post rfl
    obtain ⟨t₁, -, hn₁, hi₁, -⟩ := trackAll_inv (TrackInv.start hs) pre
    refine ⟨t₁.node, hn₁, fun hne => hi.logout ?_⟩
    obtain ⟨tv, htv⟩ := Option.ne_none_iff_exists'.1 hne
    obtain ⟨t₂, -, hn₂, -, hm₂⟩ := trackAll_inv hi₁ post
    have heq : t₂.node = t.node := by
      have : s.applyAll (pre ++ post) = t₁.node.applyAll post := by
        have hn₁ : pre.foldlM SessionNode.apply s = .ok t₁.node := hn₁
        simp [applyAll, List.foldlM_append, hn₁, bind, Except.bind]
      have hn : s.applyAll (pre ++ post) = .ok t.node := hn
      rw [this, hn₂] at hn
      exact Except.ok.inj hn
    exact ⟨tv, heq ▸ hm₂ tv (newestTomb_eq_some.1 htv).1⟩

/-- A replicated touch with a newer row and an older bind moves the row group and keeps the local bind. -/
theorem sessions_groups_and_logout_at : ∃ t, trackAll 7 (.start 7 ⟨.main, .api, fun _ => none, []⟩)
        [.insert 7 ⟨none, 16, 5, none, 10, 33⟩, .localUpdate 7 ⟨some [1], 16, 5, none, 10, 33⟩ 3 3,
          .insert 7 ⟨none, 16, 5, none, 20, 81⟩] = .ok t ∧
      IsGreatestGroup bindGroup t.log ⟨some [1], 50, 5, none, 20, 81⟩ ∧
      IsGreatestGroup rowGroup t.log ⟨some [1], 50, 5, none, 20, 81⟩ := by
  obtain ⟨t, ht, -, hgroups, -⟩ := sessions_groups_and_logout 7 ⟨.main, .api, fun _ => none, []⟩
    [.insert 7 ⟨none, 16, 5, none, 10, 33⟩, .localUpdate 7 ⟨some [1], 16, 5, none, 10, 33⟩ 3 3,
      .insert 7 ⟨none, 16, 5, none, 20, 81⟩] (fun _ => rfl)
  have hlog : some t.log = some [⟨none, 16, 5, none, 10, 33⟩, ⟨some [1], 50, 5, none, 10, 33⟩,
      ⟨none, 16, 5, none, 20, 81⟩] :=
    (congrArg (fun e => e.toOption.map Tracked.log) ht).symm.trans (by decide)
  have hrow : some (t.node.rows 7) = some (some ⟨some [1], 50, 5, none, 20, 81⟩) :=
    (congrArg (fun e => e.toOption.map fun t => t.node.rows 7) ht).symm.trans (by decide)
  have hlog := Option.some.inj hlog
  refine ⟨t, ht, hgroups ?_ ?_ _ (Option.some.inj hrow)⟩
  · rw [hlog]
    unfold GroupsAgree
    decide
  · rw [hlog]
    unfold GroupsAgree
    decide

end SC.Proof.Replication
