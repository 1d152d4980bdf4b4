import SoundCloudBackend.Framework.Run
import SoundCloudBackend.Proof.Replication.Publish

/-!
# Write-through converges

Core owns the rows of a C table; the api writes them ahead of core and repairs
what core saw differently. The invariant `Inv` says of each key:

* replaying the acknowledgements on their way leaves exactly the commands that
  core has not dispatched yet;
* if there are such commands, the last one recorded the hash of the row that
  the api has now;
* if there are none, replaying the messages turns the api's row into core's.
-/

namespace SC.Proof.Replication

open Impl.Replication
open List Function

variable {K V H Args : Type} [DecidableEq K] [DecidableEq H] {sch : Schema K V H Args} {m : Msg K V} {k : K}
variable {s s' : System K V H Args} {now : Int}
variable {kind : String} {args : Args} {id : Uuid} {row : Outbox K H Args}

/-! ## The api, seen from one key -/

def pendingOn (a : Api K V H Args) (k : K) : List CmdKey :=
  (a.cmdPending.filter fun p => p.pk = k).map Pending.key

/-- The row of `k` and the commands pending on it. -/
def view (a : Api K V H Args) (k : K) : Option V × List CmdKey :=
  (a.rows k, pendingOn a k)

def used (a : Api K V H Args) : List CmdKey :=
  a.cmdOutbox.map fun o => o.row.key

variable {a a' : Api K V H Args}

omit [DecidableEq H] in
theorem held_iff : a.held k = true ↔ pendingOn a k ≠ [] := by
  simp [Api.held, pendingOn, filter_eq_nil_iff]

omit [DecidableEq H] in
theorem ownerInsert_spec (i : Nat) (a : Api K V H Args) (k : K) (v : V) : a.ownerInsert (i + 1) k v =
      .ok (if pendingOn a k = [] then { a with rows := update a.rows k (some v) } else a) := by
  rw [Api.ownerInsert]
  by_cases h : pendingOn a k = []
  · have hh : ¬ a.held k = true := by simp [held_iff, h]
    rw [if_neg hh, if_pos h]
    cases hk : a.rows k with
    | none => simp
    | some w => rfl
  · rw [if_pos (held_iff.2 h), if_neg h]

omit [DecidableEq H] in
theorem view_set {k' : K} {o' : Option V} (hm : ∀ ps, dropDone a.node ps m = ps)
    (he : ∀ k, effect a.node k (a.rows k) m = if k' = k then o' else a.rows k) (k : K) :
    view (if pendingOn a k' = [] then { a with rows := update a.rows k' o' } else a) k =
      absorb a.node k (view a k) m := by
  simp only [absorb, view, hm, he]
  by_cases hk : k' = k
  · subst hk
    split <;> simp [pendingOn]
  · split <;> simp [pendingOn, update_of_ne (Ne.symm hk)]

omit [DecidableEq H] in
theorem deliver_view (hc : ∀ k, sch.tableClass k = .c) (hk : ∀ c, m = .row c → c.KeepsKey) (now : Int) :
    ∃ a', a.deliver sch now m = .ok a' ∧ a'.node = a.node ∧
      used a' = used a ∧
      ∀ k, view a' k = absorb a.node k (view a k) m := by
  -- every message but an acknowledgement sets one row, or none
  have hset : ∀ (k' : K) (o' : Option V), (∀ ps, dropDone a.node ps m = ps) →
      (∀ k, effect a.node k (a.rows k) m = if k' = k then o' else a.rows k) →
      a.deliver sch now m =
        .ok (if pendingOn a k' = [] then { a with rows := update a.rows k' o' } else a) →
      ∃ a', a.deliver sch now m = .ok a' ∧ a'.node = a.node ∧
        used a' = used a ∧
        ∀ k, view a' k = absorb a.node k (view a k) m :=
    fun _ _ hd he h => ⟨_, h, by split <;> rfl, by split <;> rfl, view_set hd he⟩
  cases m with
  | row c =>
    cases c with
    | insert k' v =>
      exact hset k' (some v) (fun _ => rfl) (fun k => by simp [effect]) (ownerInsert_spec 2 a k' v)
    | update old new v =>
      obtain rfl : old = new := hk _ rfl
      refine hset old ((a.rows old).map fun _ => v) (fun _ => rfl) (fun k => ?_) ?_
      · by_cases h : old = k
        · subst h
          simp [effect]
        · simp [effect, h]
      · cases hrow : a.rows old with
        | none =>
          have hupd : update a.rows old none = a.rows := by rw [← hrow, update_eq_self]
          simp [Api.deliver, Api.applyChange, hrow, hupd]
        | some w =>
          by_cases hp : pendingOn a old = []
          · have hh : ¬ a.held old = true := by simp [held_iff, hp]
            simp [Api.deliver, Api.applyChange, Api.ownerUpdate, hrow, hh, hp]
          · simp [Api.deliver, Api.applyChange, Api.ownerUpdate, hrow, held_iff.2 hp, hp]
    | delete k' =>
      refine hset k' none (fun _ => rfl) (fun k => by simp [effect]) ?_
      cases hrow : a.rows k' with
      | none =>
        have hupd : update a.rows k' none = a.rows := by rw [← hrow, update_eq_self]
        simp [Api.deliver, Api.applyChange, hrow, hupd]
      | some w =>
        by_cases hp : pendingOn a k' = []
        · have hh : ¬ a.held k' = true := by simp [held_iff, hp]
          simp [Api.deliver, Api.applyChange, hrow, hh, hp]
        · simp [Api.deliver, Api.applyChange, hrow, held_iff.2 hp, hp]
  | done d =>
    refine ⟨_, rfl, ?_, ?_, fun k => ?_⟩
    · simp only [Api.onCmdDone]
      split <;> rfl
    · simp only [Api.onCmdDone, used]
      split
      · simp only [map_map]
        refine map_congr_left fun o _ => ?_
        simp only [Function.comp]
        split <;> rfl
      · rfl
    · by_cases hn : d.key.node = a.node
      · simp [Api.onCmdDone, hn, absorb, view, effect, dropDone, pendingOn, filter_map, filter_filter,
          comp_def, Bool.and_comm]
      · by_cases hp : pendingOn a k = [] <;> simp [Api.onCmdDone, hn, absorb, view, effect, dropDone, hp]
  | reassert r =>
    by_cases hn : r.key.node = a.node
    · refine hset r.pk (some r.row) (fun _ => rfl) (fun k => by simp [effect, hn]) ?_
      simp [Api.deliver, Api.onCmdReassert, hn, hc, ownerInsert_spec]
    · refine ⟨a, by simp [Api.deliver, Api.onCmdReassert, hn], rfl, rfl, fun k => ?_⟩
      simp [absorb, effect, hn, dropDone]
  | purge p =>
    by_cases hn : p.key.node = a.node
    · refine hset p.pk none (fun _ => rfl) (fun k => by simp [effect, hn]) ?_
      by_cases hp : pendingOn a p.pk = []
      · have hh : ¬ a.held p.pk = true := by simp [held_iff, hp]
        simp [Api.deliver, Api.onCmdPurge, hn, hc, hh, hp]
      · simp [Api.deliver, Api.onCmdPurge, held_iff.2 hp, hp]
    · refine ⟨a, by simp [Api.deliver, Api.onCmdPurge, hn], rfl, rfl, fun k => ?_⟩
      simp [absorb, effect, hn, dropDone]

/-! ## The invariant -/

def waiting (rs : List (Outbox K H Args)) (k : K) : List CmdKey :=
  (rs.filter fun r => k ∈ r.touched.map Touched.pk).map Outbox.key

omit [DecidableEq H] in
theorem waiting_append (rs qs : List (Outbox K H Args)) (k : K) :
    waiting (rs ++ qs) k = waiting rs k ++ waiting qs k := by
  simp [waiting]

omit [DecidableEq H] in
theorem waiting_cons (r : Outbox K H Args) (rs : List (Outbox K H Args)) (k : K) :
    waiting (r :: rs) k = if k ∈ r.touched.map Touched.pk then r.key :: waiting rs k else waiting rs k := by
  simp only [waiting, filter_cons, decide_eq_true_eq]
  split <;> rfl

/-- Past the completions still on the way, a key's pending commands are those the core has yet to run. -/
structure Inv (sch : Schema K V H Args) (s : System K V H Args) : Prop where
  node : ∀ r ∈ s.toCore, r.key.node = s.api.node
  nodup : (s.toCore.map Outbox.key).Nodup
  sentUsed : ∀ r ∈ s.toCore, r.key ∈ used s.api
  doneUsed : ∀ d, .done d ∈ s.toApi → d.key ∈ used s.api
  fixedUsed : ∀ key k, Fixed s.core key k → key ∈ used s.api
  fixedSent : ∀ r ∈ s.toCore, ∀ k, ¬ Fixed s.core r.key k
  keeps : ∀ c, .row c ∈ s.toApi → c.KeepsKey
  pending : ∀ k, s.toApi.foldl (dropDone s.api.node) (pendingOn s.api k) = waiting s.toCore k
  hashed : ∀ k pre r post, s.toCore = pre ++ r :: post → waiting post k = [] →
    ∀ e ∈ r.touched, e.pk = k → e.hash = s.api.rowHash sch k
  synced : ∀ k, waiting s.toCore k = [] →
    (s.toApi.foldl (absorb s.api.node k) (view s.api k)).1 = s.core.rows k

/-- Where the system starts: equal tables, empty channels, nothing pending. -/
structure Start (s : System K V H Args) : Prop where
  rows : s.api.rows = s.core.rows
  toCore : s.toCore = []
  toApi : s.toApi = []
  pending : s.api.cmdPending = []
  fixedUsed : ∀ key k, Fixed s.core key k → key ∈ used s.api

omit [DecidableEq H] in
theorem Start.inv (h : Start s) : Inv sch s where
  node := by simp [h.toCore]
  nodup := by simp [h.toCore]
  sentUsed := by simp [h.toCore]
  doneUsed := by simp [h.toApi]
  fixedUsed := h.fixedUsed
  fixedSent := by simp [h.toCore]
  keeps := by simp [h.toApi]
  pending k := by simp [h.toApi, h.toCore, waiting, pendingOn, h.pending]
  hashed k pre r post hr := by simp [h.toCore] at hr
  synced k _ := by simp [h.toApi, view, h.rows]

theorem Inv.deliver (hs : Comparable sch) (hi : Inv sch s)
    (h : s.step sch (.deliver now) = some s') : Inv sch s' := by
  simp only [System.step] at h
  cases hq : s.toApi with
  | nil => simp [hq] at h
  | cons m rest =>
    have hkm : ∀ c, m = .row c → c.KeepsKey := fun c hc => hi.keeps c (by simp [hq, hc])
    obtain ⟨a', ha, hnode, hused, hview⟩ := deliver_view (a := s.api) hs.classC hkm now
    obtain rfl : s' = { s with api := a', toApi := rest } := by simpa [hq, ha] using h.symm
    have hrest : ∀ {x}, x ∈ rest → x ∈ s.toApi := fun hx => by simp [hq, hx]
    have hpend : ∀ k, rest.foldl (dropDone a'.node) (pendingOn a' k) = waiting s.toCore k := by
      intro k
      have hp : pendingOn a' k = dropDone s.api.node (pendingOn s.api k) m := congrArg Prod.snd (hview k)
      rw [← hi.pending k, hq, foldl_cons, hp, hnode]
    refine ⟨?_, hi.nodup, ?_, ?_, ?_, hi.fixedSent, fun c hc => hi.keeps c (hrest hc), hpend, ?_, ?_⟩
    · intro r hr
      exact (hi.node r hr).trans hnode.symm
    · intro r hr
      exact hused.symm ▸ hi.sentUsed r hr
    · intro d hd
      exact hused.symm ▸ hi.doneUsed d (hrest hd)
    · intro key k hf
      exact hused.symm ▸ hi.fixedUsed key k hf
    · intro k pre r post hr hpost e he hek
      -- a command waits on `k`, so one is pending and the row has not changed
      have hne : pendingOn s.api k ≠ [] := by
        intro hnil
        have hw := hi.pending k
        have hmem : k ∈ r.touched.map Touched.pk := mem_map.2 ⟨e, he, hek⟩
        rw [hnil, dropDones_nil, show s.toCore = pre ++ r :: post from hr, waiting_append, waiting_cons,
          if_pos hmem] at hw
        simp at hw
      have hrow : a'.rows k = s.api.rows k := by
        have := congrArg Prod.fst (hview k)
        simpa [absorb, view, hne] using this
      simpa [Api.rowHash, hrow] using hi.hashed k pre r post hr hpost e he hek
    · intro k hk
      rw [← hi.synced k hk, hq, foldl_cons, ← hview k, hnode]

theorem Inv.coreWrite (hi : Inv sch s) {c : Change K V} (h : s.step sch (.coreWrite c) = some s') : Inv sch s' := by
  simp only [System.step] at h
  split_ifs at h with hc
  cases h
  refine ⟨hi.node, hi.nodup, hi.sentUsed, ?_, hi.fixedUsed, hi.fixedSent, ?_, ?_, hi.hashed, ?_⟩
  · intro d hd
    exact hi.doneUsed d (by simpa using hd)
  · intro c' hc'
    rcases mem_append.1 hc' with hc' | hc'
    · exact hi.keeps c' hc'
    · obtain rfl : c' = c := by simpa using hc'
      exact hc.2
  · intro k
    rw [foldl_append, hi.pending k]
    rfl
  · intro k hk
    have hfst := hi.synced k hk
    have hsnd : (s.toApi.foldl (absorb s.api.node k) (view s.api k)).2 = [] :=
      (absorbs_snd ..).trans ((hi.pending k).trans hk)
    rw [foldl_append, foldl_cons, foldl_nil, absorb, if_pos hsnd, hfst]
    exact effect_row hc.1 hc.2

theorem Inv.dispatch (hs : Comparable sch) (hi : Inv sch s)
    (h : s.step sch (.dispatch now) = some s') : Inv sch s' := by
  simp only [System.step] at h
  cases hq : s.toCore with
  | nil => simp [hq] at h
  | cons r rest =>
    have hr : r ∈ s.toCore := by simp [hq]
    have hrest : ∀ {x}, x ∈ rest → x ∈ s.toCore := fun hx => by simp [hq, hx]
    simp only [hq] at h
    obtain ⟨d, hd, rfl⟩ := Option.map_eq_some_iff.1 h
    obtain ⟨a, ms, hp⟩ := scdDispatch_publishes hs (hi.node r hr) (hi.fixedSent r hr) hd
    have hnodup : r.key ∉ rest.map Outbox.key ∧ (rest.map Outbox.key).Nodup := by
      have := hi.nodup
      rw [hq, map_cons, nodup_cons] at this
      exact this
    -- the acknowledgement removes this command and no other from the waiting ones
    have hdrop : ∀ k, dropDone s.api.node (waiting s.toCore k) (.done a : Msg K V) = waiting rest k := by
      intro k
      have hnot : ∀ p ∈ waiting rest k, p ≠ r.key := by
        rintro p hp rfl
        obtain ⟨q, hq, hqk⟩ := mem_map.1 hp
        exact hnodup.1 (hqk ▸ mem_map_of_mem (mem_filter.1 hq).1)
      have hfilter : (waiting rest k).filter (fun p => p ≠ r.key) = waiting rest k :=
        filter_eq_self.2 fun p hp => by simpa using hnot p hp
      rw [dropDone, hp.key, if_pos (hi.node r hr), hq, waiting_cons]
      split
      · simpa using hfilter
      · exact hfilter
    refine ⟨fun q hq => hi.node q (hrest hq), hnodup.2, fun q hq => hi.sentUsed q (hrest hq), ?_, ?_, ?_, ?_,
      ?_, ?_, ?_⟩
    · intro b hb
      rw [hp.out] at hb
      rcases mem_append.1 hb with hb | hb
      · exact hi.doneUsed b hb
      · rcases mem_cons.1 hb with hb | hb
        · cases hb
          exact hp.key ▸ hi.sentUsed r hr
        · exact absurd hb (hp.notDone b)
    · intro key k hf
      rcases hp.fixed key k hf with hf | rfl
      · exact hi.fixedUsed key k hf
      · exact hi.sentUsed r hr
    · intro q hq k hf
      rcases hp.fixed q.key k hf with hf | hqr
      · exact hi.fixedSent q (hrest hq) k hf
      · exact hnodup.1 (hqr ▸ mem_map_of_mem hq)
    · intro c hc
      rw [hp.out] at hc
      rcases mem_append.1 hc with hc | hc
      · exact hi.keeps c hc
      · exact hp.keeps c (by simpa using hc)
    · intro k
      rw [hp.out, foldl_append, hi.pending k, foldl_cons, hdrop k]
      exact dropDones_of_notDone hp.notDone _
    · intro k pre q post hpre
      exact hi.hashed k (r :: pre) q post (by rw [hq, show rest = pre ++ q :: post from hpre]; rfl)
    · intro k hk
      have hsnd := (absorbs_snd (n := s.api.node) (k := k) s.toApi (view s.api k)).trans (hi.pending k)
      -- the row that meets the messages after the acknowledgement
      obtain ⟨o, ho, hold, hhash⟩ : ∃ o, (s.toApi.foldl (absorb s.api.node k) (view s.api k)).1 = o ∧
          (k ∉ r.touched.map Touched.pk → o = s.core.rows k) ∧
          ∀ e ∈ r.touched, e.pk = k → e.hash = o.map (sch.rowHash k) := by
        by_cases htouch : k ∈ r.touched.map Touched.pk
        · refine ⟨s.api.rows k, absorbs_of_pending ?_, fun hno => absurd htouch hno, fun e he hek => ?_⟩
          · rw [hi.pending k, hq, waiting_cons, if_pos htouch]
            simp
          · exact hi.hashed k [] r rest hq hk e he hek
        · refine ⟨s.core.rows k, hi.synced k ?_, fun _ => rfl, fun e he hek => ?_⟩
          · rw [hq, waiting_cons, if_neg htouch]
            exact hk
          · exact absurd (mem_map.2 ⟨e, he, hek⟩) htouch
      have hmid : absorb s.api.node k (s.toApi.foldl (absorb s.api.node k) (view s.api k)) (.done a) = (o, []) := by
        simp only [absorb, effect, ite_self, ho, hsnd, hdrop k]
        exact congrArg _ hk
      rw [hp.out, foldl_append, foldl_cons, hmid, absorbs_of_free]
      exact hp.follows k o hold hhash

def pendingIn (ps : List (Pending K)) (k : K) : List CmdKey :=
  (ps.filter fun p => p.pk = k).map Pending.key

theorem pendingIn_addPending (ps : List (Pending K)) (k k' : K) (key : CmdKey) :
    pendingIn (Api.addPending ps ⟨k', key⟩) k =
      if key ∈ pendingIn ps k ∨ k ≠ k' then pendingIn ps k else pendingIn ps k ++ [key] := by
  have hmem : ∀ q : K, (⟨q, key⟩ : Pending K) ∈ ps ↔ key ∈ pendingIn ps q := by
    intro q
    simp only [pendingIn, mem_map, mem_filter, decide_eq_true_eq]
    constructor
    · exact fun h => ⟨_, ⟨h, rfl⟩, rfl⟩
    · rintro ⟨p, ⟨hp, rfl⟩, rfl⟩
      exact hp
  by_cases hk : k = k'
  · subst hk
    by_cases hp : key ∈ pendingIn ps k
    · simp [Api.addPending, (hmem k).2 hp, hp]
    · rw [Api.addPending, if_neg (mt (hmem k).1 hp), if_neg (by simpa using hp)]
      simp [pendingIn]
  · rw [if_pos (.inr hk), Api.addPending]
    split
    · rfl
    · simp [pendingIn, Ne.symm hk]

theorem pendingIn_addPendings {ks : List K} {ps : List (Pending K)} {key : CmdKey} (h : key ∉ pendingIn ps k) :
    pendingIn (ks.foldl (fun ps k => Api.addPending ps ⟨k, key⟩) ps) k =
      pendingIn ps k ++ if k ∈ ks then [key] else [] := by
  have hstay : ∀ (ks : List K) (ps : List (Pending K)), key ∈ pendingIn ps k →
      pendingIn (ks.foldl (fun ps k => Api.addPending ps ⟨k, key⟩) ps) k = pendingIn ps k := by
    intro ks
    induction ks with
    | nil => exact fun _ _ => rfl
    | cons k' ks ih =>
      intro ps hp
      have hadd : pendingIn (Api.addPending ps ⟨k', key⟩) k = pendingIn ps k := by
        rw [pendingIn_addPending, if_pos (.inl hp)]
      rw [foldl_cons, ih _ (hadd ▸ hp), hadd]
  induction ks generalizing ps with
  | nil => simp
  | cons k' ks ih =>
    rw [foldl_cons]
    by_cases hk : k = k'
    · subst hk
      have hadd : pendingIn (Api.addPending ps ⟨k, key⟩) k = pendingIn ps k ++ [key] := by
        rw [pendingIn_addPending, if_neg (by simpa using h)]
      rw [hstay ks _ (by simp [hadd]), hadd]
      simp
    · have hadd : pendingIn (Api.addPending ps ⟨k', key⟩) k = pendingIn ps k := by
        rw [pendingIn_addPending, if_pos (.inr hk)]
      rw [ih (hadd ▸ h), hadd]
      simp [hk]

omit [DecidableEq H] in
theorem ship_spec {b : Api K V H Args} {touched : List K}
    (h : b.ship sch kind args id now touched = .ok (a', row)) :
    row.key = ⟨b.node, id⟩ ∧ a'.node = b.node ∧ row.key ∉ used b ∧ used a' = used b ++ [row.key] ∧
      a'.rows = b.rows ∧ row.touched = touched.map (fun k => ⟨k, b.rowHash sch k⟩) ∧
      ∀ k, row.key ∉ pendingOn b k → pendingOn a' k = pendingOn b k ++ if k ∈ touched then [row.key] else [] := by
  simp only [Api.ship] at h
  split_ifs at h with hany
  cases h
  refine ⟨rfl, rfl, fun hmem => hany ?_, by simp [used], rfl, rfl, fun k hk => pendingIn_addPendings hk⟩
  obtain ⟨o, ho, hok⟩ := mem_map.1 hmem
  exact any_eq_true.2 ⟨o, ho, by simpa using hok⟩

omit [DecidableEq H] in
/-- What `scd_wt` does: it records the command under a new id, holds the touched keys and hashes
their rows; it writes no other row. -/
theorem scdWt_spec (h : a.scdWt sch kind args id now = .ok (a', row)) :
    row.key.node = a.node ∧ a'.node = a.node ∧ row.key ∉ used a ∧ used a' = used a ++ [row.key] ∧
      (∀ e ∈ row.touched, e.hash = a'.rowHash sch e.pk) ∧
      (∀ k, k ∉ row.touched.map Touched.pk → a'.rows k = a.rows k) ∧
      ∀ k, row.key ∉ pendingOn a k → pendingOn a' k =
        pendingOn a k ++ if k ∈ row.touched.map Touched.pk then [row.key] else [] := by
  -- the kind ran on `a` and left the rows of `b`, writing only what it lists
  obtain ⟨b, touched, hship, hnode, hused, hpend, hrows⟩ : ∃ (b : Api K V H Args) (touched : List K),
      b.ship sch kind args id now touched = .ok (a', row) ∧ b.node = a.node ∧ used b = used a ∧
      (∀ k, pendingOn b k = pendingOn a k) ∧ ∀ k, k ∉ touched → b.rows k = a.rows k := by
    unfold Api.scdWt at h
    split at h
    · cases h
    rename_i kd _
    split at h
    · split at h
      · cases h
      rename_i res hexec
      refine ⟨_, _, h, rfl, rfl, fun _ => rfl, fun k hk => ?_⟩
      exact Change.applyAll_of_notMem fun c hc hkc => hk (kd.listed hexec c hc k hkc)
    · exact ⟨a, [], h, rfl, rfl, fun _ => rfl, fun _ _ => rfl⟩
  obtain ⟨hkey, hnode', hnew, hused', hrows', htouched, hpend'⟩ := ship_spec hship
  have hpk : row.touched.map Touched.pk = touched := by simp [htouched, comp_def]
  refine ⟨by rw [hkey]; exact hnode, hnode'.trans hnode, hused ▸ hnew, hused ▸ hused', ?_, ?_, ?_⟩
  · intro e he
    obtain ⟨k, -, rfl⟩ := mem_map.1 (htouched ▸ he)
    simp [Api.rowHash, hrows']
  · intro k hk
    rw [hrows', hrows k (hpk ▸ hk)]
  · intro k hk
    rw [hpend' k (by rw [hpend]; exact hk), hpend, hpk]

theorem Inv.wt (hi : Inv sch s) (h : s.step sch (.wt kind args id now) = some s') : Inv sch s' := by
  simp only [System.step] at h
  cases hwt : s.api.scdWt sch kind args id now with
  | error e => simp [hwt] at h
  | ok res =>
    obtain ⟨a', row⟩ := res
    obtain ⟨hnode, hnode', hnew, hused, hhash, hrows, hpend⟩ := scdWt_spec hwt
    obtain rfl : s' = { s with api := a', toCore := s.toCore ++ [row] } := by simpa [hwt] using h.symm
    have hsub : ∀ {key}, key ∈ used s.api → key ∈ used a' := fun hk => by simp [hused, hk]
    have hnotDone : ∀ d, .done d ∈ s.toApi → d.key ≠ row.key :=
      fun d hd heq => hnew (heq ▸ hi.doneUsed d hd)
    have hnotWaiting : ∀ k, row.key ∉ waiting s.toCore k := by
      intro k hk
      obtain ⟨q, hq, hqk⟩ := mem_map.1 hk
      exact hnew (hqk ▸ hi.sentUsed q (mem_filter.1 hq).1)
    have hpend : ∀ k, pendingOn a' k =
        pendingOn s.api k ++ if k ∈ row.touched.map Touched.pk then [row.key] else [] :=
      fun k => hpend k fun hk => hnotWaiting k (hi.pending k ▸ mem_dropDones hk hnotDone)
    have hwait : ∀ k, waiting (s.toCore ++ [row]) k =
        waiting s.toCore k ++ if k ∈ row.touched.map Touched.pk then [row.key] else [] := by
      intro k
      rw [waiting_append, waiting_cons]
      rfl
    refine ⟨?_, ?_, ?_, fun d hd => hsub (hi.doneUsed d hd), fun key k hf => hsub (hi.fixedUsed key k hf), ?_,
      hi.keeps, ?_, ?_, ?_⟩
    · intro r hr
      rcases mem_append.1 hr with hr | hr
      · exact (hi.node r hr).trans hnode'.symm
      · rw [mem_singleton.1 hr]
        exact hnode.trans hnode'.symm
    · rw [map_append, nodup_append]
      refine ⟨hi.nodup, by simp, ?_⟩
      intro x hx y hy hxy
      obtain rfl : y = row.key := by simpa using hy
      obtain ⟨q, hq, rfl⟩ := mem_map.1 hx
      exact hnew (hxy ▸ hi.sentUsed q hq)
    · intro r hr
      rcases mem_append.1 hr with hr | hr
      · exact hsub (hi.sentUsed r hr)
      · rw [mem_singleton.1 hr]
        simp [hused]
    · intro r hr k hf
      rcases mem_append.1 hr with hr | hr
      · exact hi.fixedSent r hr k hf
      · rw [mem_singleton.1 hr] at hf
        exact hnew (hi.fixedUsed _ k hf)
    · intro k
      rw [hwait, hnode', hpend, dropDones_append, hi.pending k]
      split
      · rw [dropDones_singleton hnotDone]
      · rw [dropDones_nil]
    · intro k pre r post hr hpost e he hek
      have hr : s.toCore ++ [row] = pre ++ r :: post := hr
      rcases eq_nil_or_concat post with rfl | ⟨post', x, rfl⟩
      · obtain ⟨-, hrow⟩ := append_inj' hr rfl
        obtain rfl : row = r := by simpa using hrow
        exact hek ▸ hhash e he
      · have hr : s.toCore ++ [row] = (pre ++ r :: post') ++ [x] := by simpa using hr
        obtain ⟨hcore, hrow⟩ := append_inj' hr rfl
        obtain rfl : row = x := by simpa using hrow
        have hpost : waiting post' k = [] ∧ k ∉ row.touched.map Touched.pk := by
          rw [concat_eq_append, waiting_append, waiting_cons, append_eq_nil_iff] at hpost
          exact ⟨hpost.1, fun hmem => by simp [hmem] at hpost⟩
        simpa [Api.rowHash, hrows k hpost.2] using hi.hashed k pre r post' hcore hpost.1 e he hek
    · intro k hk
      rw [hwait] at hk
      have hk := append_eq_nil_iff.1 hk
      have htouch : k ∉ row.touched.map Touched.pk := by
        intro hmem
        simp [hmem] at hk
      have hview : view a' k = view s.api k := by
        rw [view, hpend, if_neg htouch, append_nil, hrows k htouch]
        rfl
      rw [hnode', hview]
      exact hi.synced k hk.1

theorem step_inv (hs : Comparable sch) {x : SysAct K V Args} (hi : Inv sch s)
    (h : s.step sch x = some s') : Inv sch s' := by
  cases x with
  | wt kind args id now => exact hi.wt h
  | coreWrite c => exact hi.coreWrite h
  | dispatch now => exact hi.dispatch hs h
  | deliver now => exact hi.deliver hs h

/-- Write-through converges: in every run of the api, core and the two channels from equal tables,
whenever both channels are empty nothing is pending and the two tables are equal. -/
theorem writeThrough_converges (sch : Schema K V H Args) (hs : Comparable sch) (s₀ s : System K V H Args)
    (xs : List (SysAct K V Args)) (h₀ : Start s₀) (h : run (System.step sch) s₀ xs = some s)
    (hcore : s.toCore = []) (hapi : s.toApi = []) : s.api.cmdPending = [] ∧ ∀ k, s.api.rows k = s.core.rows k := by
  have hi : Inv sch s := run_invariant (step_inv hs) h₀.inv h
  constructor
  · rw [eq_nil_iff_forall_not_mem]
    intro p hp
    have hk := hi.pending p.pk
    rw [hapi, hcore] at hk
    have hmem : p.key ∈ pendingOn s.api p.pk := mem_map.2 ⟨p, by simp [hp], rfl⟩
    rw [show pendingOn s.api p.pk = [] from hk] at hmem
    cases hmem
  · intro k
    have hk := hi.synced k (by rw [hcore]; rfl)
    rw [hapi] at hk
    exact hk

/-- The api writes a row that core writes differently meanwhile; core's image is dropped, and the
tables agree once the command has run. -/
theorem writeThrough_converges_at : ∃ s, run (System.step (upsertSchema Nat Nat))
        ⟨⟨.main, fun _ => none, [], []⟩, ⟨fun _ => none, [], [], [], []⟩, [], []⟩
        [.wt "upsert" (3, 4) 1 0, .coreWrite (.insert 3 9), .deliver 1, .dispatch 1, .coreWrite (.delete 3),
          .deliver 2, .deliver 2, .deliver 2] = some s ∧
      s.toCore = [] ∧ s.toApi = [] ∧ s.api.cmdPending = [] ∧ s.api.rows 3 = s.core.rows 3 := by
  obtain ⟨s, hrun⟩ : ∃ s, run (System.step (upsertSchema Nat Nat))
      ⟨⟨.main, fun _ => none, [], []⟩, ⟨fun _ => none, [], [], [], []⟩, [], []⟩
      [.wt "upsert" (3, 4) 1 0, .coreWrite (.insert 3 9), .deliver 1, .dispatch 1, .coreWrite (.delete 3),
        .deliver 2, .deliver 2, .deliver 2] = some s := ⟨_, rfl⟩
  have hcore : some s.toCore = some [] := (congrArg (Option.map System.toCore) hrun).symm.trans rfl
  have hapi : some s.toApi = some [] := (congrArg (Option.map System.toApi) hrun).symm.trans rfl
  have hcore := Option.some.inj hcore
  have hapi := Option.some.inj hapi
  have h := writeThrough_converges (upsertSchema Nat Nat)
    ⟨fun _ => rfl, fun _ => rfl, fun _ _ _ h => h⟩ _ s _ ⟨rfl, rfl, rfl, rfl, by simp [Fixed]⟩ hrun hcore hapi
  exact ⟨s, hrun, hcore, hapi, h.1, h.2 3⟩

end SC.Proof.Replication
