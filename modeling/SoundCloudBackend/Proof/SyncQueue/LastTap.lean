import SoundCloudBackend.Framework.Run
import SoundCloudBackend.Proof.SyncQueue.Intent

/-!
# The last tap wins

Once the mirror of a like says that it is synced and the queue has nothing left to do, SoundCloud should
have what the last tap wanted (`LastTapWins`). A tap that revives a parked row breaks this
(`parked_like_revived`): the row keeps the `created_at` of its first tap, runs before an inverse row that was
already attempted, and that one writes last.
-/

namespace SC.Proof.SyncQueue

open Impl.Replication Impl.SyncQueue

variable {likeFirst : Bool} {s s' : Pair} {k : Kind} {r r' : Row} {m : Mutation}

/-- With no live row left and the mirror synced, SoundCloud has what the last tap wanted. -/
def LastTapWins (s : Pair) : Prop :=
  ∀ mirror, s.mirror = some mirror → s.live .like = false → s.live .unlike = false →
    mirror.syncedForV = mirror.wantedV → s.remote = mirror.wanted

/-- No parked row is revived ahead of a hot inverse row, and a target is missing only where the write would
change nothing. -/
def Orderly (likeFirst : Bool) (s : Pair) : Action → Prop
  | .adopt k => ¬BehindHotInverse likeFirst s k
  | .respond .targetMissing _ => ∀ m phase, s.worker = .busy m phase → s.remote = m.kind.state
  | _ => True

/-! ## A parked like is revived -/

/-- An execution that SoundCloud refuses, and one that succeeds. -/
def refused (k : Kind) : List Action := [.claim k, .work, .work, .respond .other false, .work]
def executed (k : Kind) : List Action := [.claim k, .work, .work, .respond .written true, .work, .work]

/-- The like is parked after five refusals, the unlike is refused once, and the second like revives the
first one. -/
def parkedLike : List Action :=
  [.tap .like 0, .adopt .like] ++ (List.replicate maxRetries (refused .like)).flatten ++
    [.tap .unlike 0, .adopt .unlike] ++ refused .unlike ++
    [.tap .like 0, .adopt .like] ++ executed .like ++ executed .unlike

theorem parked_like_revived :
    ∃ s, run (pairStep true) (Pair.start none false 0) parkedLike = some s ∧ ¬LastTapWins s := by
  refine ⟨_, rfl, fun h => ?_⟩
  have hwrong := h _ rfl rfl rfl rfl
  cases hwrong

/-! ## Runs -/

theorem pairStep_valid {a : Action} (h : PairValid likeFirst s) (ha : Orderly likeFirst s a)
    (hs : pairStep likeFirst s a = some s') : PairValid likeFirst s' := by
  cases a with
  | tap k wait =>
    cases hs
    exact tap_valid h (by omega)
  | heal wait =>
    cases hs
    exact heal_valid h (by omega)
  | forceDue =>
    simp only [pairStep] at hs
    split at hs <;> cases hs
    rename_i hw
    exact forceDue_valid h hw
  | adopt k =>
    simp only [pairStep] at hs
    split at hs
    · rename_i r hw hr
      split at hs <;> cases hs
      rename_i hfresh
      exact adopt_valid h hw hr hfresh ha
    · cases hs
  | settle k =>
    simp only [pairStep] at hs
    split at hs <;> cases hs
    rename_i r hw hr
    exact settle_valid h hw hr
  | claim k =>
    simp only [pairStep] at hs
    split at hs
    · rename_i r hw hr
      split at hs <;> cases hs
      rename_i hcond
      obtain ⟨hc, hhead⟩ := Bool.and_eq_true_iff.1 hcond
      exact claim_valid h hr hc hhead
    · cases hs
  | work =>
    simp only [pairStep] at hs
    split at hs
    · rename_i m phase hw
      exact work_valid h hw hs
    · cases hs
  | hold =>
    simp only [pairStep] at hs
    split at hs <;> cases hs <;> rename_i m hw <;> exact leave_valid h hw fun hv => postpone_cools hv m
  | respond response lands =>
    simp only [pairStep] at hs
    split at hs <;> cases hs
    rename_i m refreshed hw
    refine respond_valid h hw fun hmissing => ?_
    subst hmissing
    exact ha m _ hw
  | crash pending =>
    simp only [pairStep] at hs
    split at hs <;> cases hs
    · rename_i m refreshed hw
      exact crash_valid h hw
    · exact stop_valid h
  | land k =>
    simp only [pairStep] at hs
    split at hs <;> cases hs
    rename_i hk
    exact land_valid h hk
  | lose k =>
    cases hs
    exact lose_valid h
  | expire k =>
    simp only [pairStep] at hs
    split at hs
    · rename_i r hr
      split at hs <;> cases hs
      rename_i hcond
      obtain ⟨hlanding, hon⟩ := Bool.or_eq_false_iff.1 (by simpa using hcond)
      exact expire_valid h hr hlanding hon
    · cases hs

/-- From a pair without rows whose mirror is right if it is synced, the last tap wins in every run in which no
parked row is revived ahead of a hot inverse row, and no target is reported missing where a write was to
change it. -/
theorem last_tap_wins (likeFirst : Bool) (mirror : Option Mirror) (remote : Bool) (clock : Int)
    (hmirror : ∀ m, mirror = some m → m.syncedForV ≤ m.wantedV ∧ (m.syncedForV = m.wantedV → remote = m.wanted))
    (acts : List Action) (s : Pair) (hrun : run (pairStep likeFirst) (Pair.start mirror remote clock) acts = some s)
    (hmeets : Meets (pairStep likeFirst) (Orderly likeFirst) (Pair.start mirror remote clock) acts) :
    LastTapWins s := by
  have hs : PairValid likeFirst s :=
    run_invariant_of_meets pairStep_valid (start_valid mirror remote clock hmirror) hmeets hrun
  exact fun _ hm _ _ heq => (hs.synced hm heq).1

/-- The worker of the like crashes after it sends, the unlike is tapped, and the write arrives late: the like
is executed once more, and then the unlike. -/
def crashedLike : List Action :=
  [.tap .like 0, .adopt .like, .claim .like, .work, .work, .crash true, .tap .unlike 0, .land .like, .expire .like,
    .adopt .unlike] ++ executed .like ++ executed .unlike

theorem last_tap_wins_crash :
    ∃ s, run (pairStep true) (Pair.start none false 0) crashedLike = some s ∧ s.live .like = false ∧
      s.live .unlike = false ∧ (∃ mirror, s.mirror = some mirror ∧ mirror.syncedForV = mirror.wantedV) ∧
      s.remote = false ∧ LastTapWins s := by
  refine ⟨_, rfl, rfl, rfl, ⟨_, rfl, rfl⟩, rfl, ?_⟩
  refine last_tap_wins true none false 0 nofun crashedLike _ rfl ?_
  refine meets_cons rfl trivial (meets_cons rfl ?_ ?_)
  · rintro ⟨r, r', -, hr', -⟩
    cases hr'
  · iterate 7 refine meets_cons rfl trivial ?_
    refine meets_cons rfl ?_ ?_
    · -- the unlike is not parked
      rintro ⟨r, r', hr, -, hdead, -⟩
      cases hr
      cases hdead
    · iterate 12 refine meets_cons rfl trivial ?_
      exact meets_nil _

end SC.Proof.SyncQueue
