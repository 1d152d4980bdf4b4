import SoundCloudBackend.Framework.Run
import SoundCloudBackend.Impl.Rooms.Cas

/-!
# Rooms lose no update

The history of a room is read off the log of the writes: the room that was
inserted and the changes that were made to it since, under whatever code it had.
`Inv` says that every stored room is what its history makes of the inserted one.
It holds because a script finds the version that its call loaded only if the
stored room is still the loaded one (`Past`): versions go up under a code, and a
code is never given to a second room.
-/

namespace SC.Proof.Rooms.Cas

open Impl.Rooms.Cas
open Impl.Rooms (Room AppError Store)
open List Option Function

variable {room after : Room} {h? : Option History} {rooms : String → Option Hash} {code : String} {log : List Event}

/-! ## Histories -/

/-- A change that a call made, and the code if it gave the room another one. -/
structure Write where
  call : Nat
  change : Room → Except AppError Room
  code : Option String

def Write.apply (w : Write) (room : Room) : Except AppError Room := do
  let after ← w.change room
  return { after with code := w.code.getD after.code, version := room.version + 1 }

/-- The call that inserted a room, the room, and the writes to it in their order. -/
structure History where
  call : Nat
  room : Room
  writes : List Write

def History.result (h : History) : Except AppError Room := h.writes.foldlM (fun room w => w.apply room) h.room

def History.push (h : History) (w : Write) : History := { h with writes := h.writes ++ [w] }

/-- The histories of the rooms under each code after a write. -/
def record (e : Event) (hs : String → Option History) : String → Option History :=
  match e with
  | .inserted n room => update hs room.code (some ⟨n, room, []⟩)
  | .updated n code change => update hs code ((hs code).map fun h => h.push ⟨n, change, none⟩)
  | .relocated n code new change =>
    update (update hs code none) new ((hs code).map fun h => h.push ⟨n, change, some new⟩)
  | .deleted code => update hs code none

/-- The history of the room that is stored under a code. -/
def history (log : List Event) : String → Option History := log.foldr record fun _ => none

def callOf : Event → Option Nat
  | .inserted n _ | .updated n _ _ | .relocated n _ _ _ => some n
  | .deleted _ => none

def writers (log : List Event) : List Nat := log.filterMap callOf

theorem version_apply {w : Write} (h : w.apply room = .ok after) : after.version = room.version + 1 := by
  obtain ⟨x, -, hx⟩ := bind_eq_ok h
  cases hx
  rfl

theorem result_push {h : History} {w : Write} (hresult : h.result = .ok room)
    (happly : w.apply room = .ok after) : (h.push w).result = .ok after := by
  unfold History.result History.push at *
  rw [foldlM_append, hresult]
  show (w.apply room >>= fun room => Except.ok room) = .ok after
  rw [happly]
  rfl

def Tracks : Option Hash → Option History → Prop
  | none, none => True
  | some hash, some h => hash.v = hash.body.version ∧ h.result = .ok hash.body ∧
      hash.body.version = h.room.version + h.writes.length
  | _, _ => False

theorem Tracks.of_some {hash : Hash} (ht : Tracks (some hash) h?) :
    ∃ h, h? = some h ∧ hash.v = hash.body.version ∧ h.result = .ok hash.body ∧
      hash.body.version = h.room.version + h.writes.length := by
  cases h? with
  | none => exact ht.elim
  | some h => exact ⟨h, rfl, ht⟩

theorem Tracks.push {hash : Hash} (ht : Tracks (some hash) h?) {w : Write} (happly : w.apply hash.body = .ok after) :
    Tracks (some ⟨after.version, after⟩) (h?.map fun h => h.push w) := by
  obtain ⟨h, rfl, -, hresult, hversion⟩ := ht.of_some
  refine ⟨rfl, result_push hresult happly, ?_⟩
  show after.version = h.room.version + (h.writes ++ [w]).length
  rw [version_apply happly, hversion, length_append, length_singleton]
  omega

theorem tracks_update {hs : String → Option History}
    (h : ∀ code, Tracks (rooms code) (hs code)) (code : String) {hash? : Option Hash} (hcode : Tracks hash? h?) :
    ∀ c, Tracks (update rooms code hash? c) (update hs code h? c) := by
  intro c
  by_cases hc : c = code
  · subst hc
    rw [update_self, update_self]
    exact hcode
  · rw [update_of_ne hc, update_of_ne hc]
    exact h c

theorem update_eq_some {α : Type} {f : String → Option α} {c : String} {x? : Option α} {x : α} :
    update f code x? c = some x ↔ c = code ∧ x? = some x ∨ c ≠ code ∧ f c = some x := by
  by_cases hc : c = code
  · subst hc
    simp
  · simp [hc]

theorem of_update_none {α : Type} {f : String → Option α} {c : String} {x : α}
    (h : update f code none c = some x) : f c = some x := by
  rcases update_eq_some.1 h with ⟨-, hnone⟩ | ⟨-, hold⟩
  · cases hnone
  · exact hold

def Apart (hs : String → Option History) : Prop :=
  ∀ code code' h h', hs code = some h → hs code' = some h' → h.call = h'.call → code = code'

theorem Apart.update {hs : String → Option History} (h : Apart hs) (code : String)
    (hnew : ∀ new, h? = some new → ∀ c old, c ≠ code → hs c = some old → old.call ≠ new.call) :
    Apart (update hs code h?) := by
  intro c c' x x' hc hc' heq
  rcases update_eq_some.1 hc with ⟨hcode, hx⟩ | ⟨hcode, hx⟩ <;>
    rcases update_eq_some.1 hc' with ⟨hcode', hx'⟩ | ⟨hcode', hx'⟩
  · exact hcode.trans hcode'.symm
  · exact absurd heq.symm (hnew x hx c' x' hcode' hx')
  · exact absurd heq (hnew x' hx' c x hcode hx)
  · exact h c c' x x' hx hx' heq

/-! ## Calls -/

/-- A loaded room: the code is taken, and while the room there has the loaded version it is the loaded room. -/
structure Past (rooms : String → Option Hash) (log : List Event) (code : String) (loaded : Room) : Prop where
  used : code ∈ usedCodes log
  version : ∀ hash, rooms code = some hash →
    loaded.version ≤ hash.v ∧ (hash.v = loaded.version → hash = ⟨loaded.version, loaded⟩)

def Ready {T : Type} (rooms : String → Option Hash) (log : List Event) (call : Call T) : Phase T → Prop
  | .swap earlier _ loaded after outcome => ∃ code guard change, call = .update code guard change ∧
      Past rooms log code loaded ∧ ∃ x, change earlier loaded = .ok (x, outcome) ∧
        after = { x with version := loaded.version + 1 }
  | .move earlier _ loaded after => ∃ code change, call = .relocate code change ∧ Past rooms log code loaded ∧
      ∃ x new, change earlier loaded = .ok x ∧ after = { x with code := new, version := loaded.version + 1 }
  | _ => True

def wrote {T : Type} : Phase T → Bool
  | .done (.ok (.inserted created)) => created
  | .done (.ok (.updated ..)) | .done (.ok (.relocated _)) => true
  | _ => false

/-- What one step of a call does to the rooms and the log. -/
inductive Does {T : Type} (n : Nat) (r : Redis) (log : List Event) (p : Process T) : Effect T → Prop
  | quiet (phase : Phase T) (hready : Ready r.rooms log p.call phase) (hwrote : wrote phase = false) :
    Does n r log p (.quiet r phase)
  | inserted (room : Room) (hcreates : p.creates = some room.code) (hnew : r.rooms room.code = none) :
    Does n r log p ⟨{ r with rooms := update r.rooms room.code (some ⟨room.version, room⟩) },
      .done (.ok (.inserted true)), some (.inserted n room)⟩
  | updated (code : String) (change : Room → Except AppError Room) (loaded after : Room) (outcome : T)
    (hstored : r.rooms code = some ⟨loaded.version, loaded⟩)
    (happly : (⟨n, change, none⟩ : Write).apply loaded = .ok after) :
    Does n r log p ⟨{ r with rooms := update r.rooms code (some ⟨after.version, after⟩) },
      .done (.ok (.updated after outcome)), some (.updated n code change)⟩
  | relocated (code : String) (change : Room → Except AppError Room) (loaded after : Room)
    (seen : String → List (String × Int)) (hcreates : p.creates = some after.code)
    (hcall : ∃ raw, p.call = .relocate code raw)
    (hstored : r.rooms code = some ⟨loaded.version, loaded⟩) (hnew : r.rooms after.code = none)
    (happly : (⟨n, change, some after.code⟩ : Write).apply loaded = .ok after) :
    Does n r log p ⟨{ r with
      rooms := update (update r.rooms code none) after.code (some ⟨after.version, after⟩)
      seen := seen
      moved := update r.moved code (some after.code) },
      .done (.ok (.relocated after)), some (.relocated n code after.code change)⟩

theorem Past.stored {loaded : Room}
    (h : Past rooms log code loaded) (hv : (rooms code).map Hash.v = some loaded.version) :
    rooms code = some ⟨loaded.version, loaded⟩ := by
  obtain ⟨hash, hhash, hv⟩ := map_eq_some_iff.1 hv
  rw [hhash, (h.version hash hhash).2 hv]

theorem past_of_load {r : Redis} (h : r.load code = some room)
    (hused : ∀ hash, r.rooms code = some hash → code ∈ usedCodes log ∧ hash.v = hash.body.version) :
    Past r.rooms log code room := by
  obtain ⟨hash, hhash, rfl⟩ := map_eq_some_iff.1 h
  obtain ⟨hcode, hv⟩ := hused hash hhash
  refine ⟨hcode, fun hash' h' => ?_⟩
  obtain rfl : hash = hash' := some.inj (hhash.symm.trans h')
  exact ⟨hv.ge, fun _ => by rw [← hv]⟩

theorem swap_cases (r : Redis) (code guardKey : String) (expected version : Nat) (body : Room) (token : String) :
    (r.swap code guardKey expected version body token).2 ≠ 1 ∧
        (r.swap code guardKey expected version body token).1 = r ∨
      (r.rooms code).map Hash.v = some expected ∧ r.swap code guardKey expected version body token =
        ({ r with rooms := update r.rooms code (some ⟨version, body⟩) }, 1) := by
  unfold Redis.swap
  split
  · exact .inl ⟨show (0 : Int) ≠ 1 by decide, rfl⟩
  · split
    · exact .inl ⟨show (-1 : Int) ≠ 1 by decide, rfl⟩
    · rename_i hv _
      exact .inr ⟨not_not.1 hv, rfl⟩

theorem move_cases (r : Redis) (code new : String) (expected version : Nat) (body : Room) :
    (r.move code new expected version body).2 ≠ 1 ∧ (r.move code new expected version body).1 = r ∨
      (r.rooms code).map Hash.v = some expected ∧ r.rooms new = none ∧ ∃ seen, r.move code new expected version body =
        ({ r with
          rooms := update (update r.rooms code none) new (some ⟨version, body⟩)
          seen := seen
          moved := update r.moved code (some new) }, 1) := by
  unfold Redis.move
  split
  · exact .inl ⟨show (0 : Int) ≠ 1 by decide, rfl⟩
  · split
    · exact .inl ⟨show (0 : Int) ≠ 1 by decide, rfl⟩
    · rename_i hv hnew
      have hv := not_not.1 hv
      have hnew : r.rooms new = none := by simpa using hnew
      have hne : code ≠ new := by
        rintro rfl
        rw [hnew] at hv
        cases hv
      refine .inr ⟨hv, hnew, ?_⟩
      rw [update_comm hne]
      unfold Redis.renameSeen
      split
      · exact ⟨r.seen, rfl⟩
      · exact ⟨_, rfl⟩

section Steps

variable {T : Type} {n : Nat} {newCode : String} {r : Redis} {log : List Event} {effect : Effect T}

theorem insert_does {phase : Phase T} (h : Process.step n newCode r ⟨.insert room, phase⟩ = some effect) :
    Does n r log ⟨.insert room, phase⟩ effect := by
  cases phase with
  | create =>
    dsimp only [Process.step] at h
    cases hroom : r.rooms room.code with
    | some hash =>
      rw [show r.create room.code room.version room = (r, 0) by simp [Redis.create, hroom]] at h
      cases h
      exact .quiet _ trivial rfl
    | none =>
      rw [show r.create room.code room.version room = (_, 1) by simp only [Redis.create, hroom]; rfl] at h
      cases h
      exact .inserted room rfl hroom
  | load | swap | move | done => cases h

theorem update_does {guard : Option Guard} {change : List Room → Room → Except AppError (Room × T)}
    {phase : Phase T} (h : Process.step n newCode r ⟨.update code guard change, phase⟩ = some effect)
    (hready : Ready r.rooms log (.update code guard change) phase)
    (hused : ∀ hash, r.rooms code = some hash → code ∈ usedCodes log ∧ hash.v = hash.body.version) :
    Does n r log ⟨.update code guard change, phase⟩ effect := by
  cases phase with
  | load earlier tries =>
    cases tries with
    | zero =>
      cases h
      exact .quiet _ trivial rfl
    | succ tries =>
      dsimp only [Process.step] at h
      cases hload : r.load code with
      | none =>
        rw [hload] at h
        cases h
        exact .quiet _ trivial rfl
      | some room =>
        rw [hload] at h
        dsimp only at h
        cases hchange : change earlier room with
        | error error =>
          rw [hchange] at h
          cases h
          exact .quiet _ trivial rfl
        | ok result =>
          rw [hchange] at h
          cases h
          exact .quiet _ ⟨code, guard, change, rfl, past_of_load hload hused, result.1, hchange, rfl⟩ rfl
  | swap earlier tries loaded after outcome =>
    obtain ⟨_, _, _, heq, hpast, x, hchange, hafter⟩ := hready
    cases heq
    dsimp only [Process.step] at h
    rcases swap_cases r code (guard.elim (roomKey code, "") fun guard => (guard.key, guard.token)).1 loaded.version
      after.version after
      (guard.elim (roomKey code, "") fun guard => (guard.key, guard.token)).2 with ⟨hne, hsame⟩ | ⟨hv, hswap⟩
    · rw [if_neg hne, hsame] at h
      split at h <;> cases h <;> exact .quiet _ trivial rfl
    · rw [hswap, if_pos rfl] at h
      cases h
      refine .updated code _ loaded after outcome (hpast.stored hv) ?_
      show ((change earlier loaded).map Prod.fst >>= _) = _
      rw [hchange, hafter]
      rfl
  | create | move | done => cases h

theorem relocate_does {change : List Room → Room → Except AppError Room}
    {phase : Phase T} (h : Process.step n newCode r ⟨.relocate code change, phase⟩ = some effect)
    (hready : Ready r.rooms log (.relocate code change) phase)
    (hused : ∀ hash, r.rooms code = some hash → code ∈ usedCodes log ∧ hash.v = hash.body.version) :
    Does n r log ⟨.relocate code change, phase⟩ effect := by
  cases phase with
  | load earlier tries =>
    cases tries with
    | zero =>
      cases h
      exact .quiet _ trivial rfl
    | succ tries =>
      dsimp only [Process.step] at h
      cases hload : r.load code with
      | none =>
        rw [hload] at h
        cases h
        exact .quiet _ trivial rfl
      | some room =>
        rw [hload] at h
        dsimp only at h
        cases hchange : change earlier room with
        | error error =>
          rw [hchange] at h
          cases h
          exact .quiet _ trivial rfl
        | ok after =>
          rw [hchange] at h
          cases h
          exact .quiet _ ⟨code, change, rfl, past_of_load hload hused, after, newCode, hchange, rfl⟩ rfl
  | move earlier tries loaded after =>
    obtain ⟨_, _, heq, hpast, x, new, hchange, hafter⟩ := hready
    cases heq
    dsimp only [Process.step] at h
    rcases move_cases r code after.code loaded.version after.version after with ⟨hne, hsame⟩ | ⟨hv, hnew, seen, hmove⟩
    · rw [if_neg hne, hsame] at h
      cases h
      exact .quiet _ trivial rfl
    · rw [hmove, if_pos rfl] at h
      cases h
      refine .relocated code _ loaded after seen rfl ⟨change, rfl⟩ (hpast.stored hv) hnew ?_
      show (change earlier loaded >>= _) = _
      rw [hchange, hafter]
      rfl
  | create | swap | done => cases h

theorem process_does {p : Process T} (h : p.step n newCode r = some effect) (hready : Ready r.rooms log p.call p.phase)
    (hused : ∀ code hash, r.rooms code = some hash → code ∈ usedCodes log ∧ hash.v = hash.body.version) :
    Does n r log p effect := by
  obtain ⟨call, phase⟩ := p
  cases call with
  | insert room => exact insert_does h
  | update code guard change => exact update_does h hready (hused code)
  | relocate code change => exact relocate_does h hready (hused code)

end Steps

/-! ## The stored rooms -/

/-- Every stored room is the fold of its own history. -/
structure Sound (rooms : String → Option Hash) (log : List Event) : Prop where
  stored : ∀ code, Tracks (rooms code) (history log code)
  used : ∀ code hash, rooms code = some hash → code ∈ usedCodes log
  apart : Apart (history log)
  origin : ∀ code h, history log code = some h → h.call ∈ writers log

/-- Under a code that was used, a room stays or gets a higher version. -/
def Later (log : List Event) (rooms rooms' : String → Option Hash) : Prop :=
  ∀ code hash', rooms' code = some hash' → code ∈ usedCodes log →
    rooms code = some hash' ∨ ∃ hash, rooms code = some hash ∧ hash.v < hash'.v

theorem Past.later {rooms' : String → Option Hash} {log' : List Event} {loaded : Room}
    (h : Past rooms log code loaded) (hlater : Later log rooms rooms') (hlog : usedCodes log ⊆ usedCodes log') :
    Past rooms' log' code loaded := by
  refine ⟨hlog h.used, fun hash' hhash' => ?_⟩
  rcases hlater code hash' hhash' h.used with hsame | ⟨hash, hhash, hlt⟩
  · exact h.version hash' hsame
  · have := (h.version hash hhash).1
    exact ⟨by omega, fun heq => absurd heq (by omega)⟩

section Writes

variable {rooms : String → Option Hash} {log : List Event} {n : Nat}

theorem sound_inserted (h : Sound rooms log) (hfresh : room.code ∉ usedCodes log) (hn : n ∉ writers log) :
    Sound (update rooms room.code (some ⟨room.version, room⟩)) (.inserted n room :: log) ∧
      Later log rooms (update rooms room.code (some ⟨room.version, room⟩)) := by
  refine ⟨⟨tracks_update h.stored room.code ⟨rfl, rfl, rfl⟩, fun code hash hcode => ?_, ?_, fun code x hx => ?_⟩,
    fun code hash hcode hused => ?_⟩
  · rcases update_eq_some.1 hcode with ⟨hnew, -⟩ | ⟨-, hold⟩
    · exact mem_cons.2 (.inl hnew)
    · exact mem_cons_of_mem _ (h.used code hash hold)
  · refine h.apart.update room.code fun new hnew c old _ hold heq => ?_
    cases hnew
    have hmem := h.origin c old hold
    rw [heq] at hmem
    exact hn hmem
  · rcases update_eq_some.1 hx with ⟨-, hnew⟩ | ⟨-, hold⟩
    · cases hnew
      exact mem_cons_self
    · exact mem_cons_of_mem _ (h.origin code x hold)
  · rcases update_eq_some.1 hcode with ⟨rfl, -⟩ | ⟨-, hold⟩
    · exact absurd hused hfresh
    · exact .inl hold

theorem sound_updated (h : Sound rooms log) {change : Room → Except AppError Room} {loaded : Room}
    (hstored : rooms code = some ⟨loaded.version, loaded⟩)
    (happly : (⟨n, change, none⟩ : Write).apply loaded = .ok after) :
    Sound (update rooms code (some ⟨after.version, after⟩)) (.updated n code change :: log) ∧
      Later log rooms (update rooms code (some ⟨after.version, after⟩)) := by
  have htracks := h.stored code
  rw [hstored] at htracks
  refine ⟨⟨tracks_update h.stored code (htracks.push happly), fun c hash hc => ?_, ?_, fun c x hx => ?_⟩,
    fun c hash hc _ => ?_⟩
  · rcases update_eq_some.1 hc with ⟨rfl, -⟩ | ⟨-, hold⟩
    · exact h.used c _ hstored
    · exact h.used c hash hold
  · refine h.apart.update code fun new hnew c old hne hold heq => ?_
    obtain ⟨x, hx, rfl⟩ := map_eq_some_iff.1 hnew
    exact hne (h.apart c code old x hold hx heq)
  · refine mem_cons_of_mem _ ?_
    rcases update_eq_some.1 hx with ⟨rfl, hnew⟩ | ⟨-, hold⟩
    · obtain ⟨y, hy, rfl⟩ := map_eq_some_iff.1 hnew
      exact h.origin c y hy
    · exact h.origin c x hold
  · rcases update_eq_some.1 hc with ⟨rfl, hnew⟩ | ⟨-, hold⟩
    · cases hnew
      exact .inr ⟨_, hstored, by rw [version_apply happly]; exact Nat.lt_succ_self _⟩
    · exact .inl hold

theorem sound_relocated (h : Sound rooms log) {change : Room → Except AppError Room}
    {loaded : Room} (hstored : rooms code = some ⟨loaded.version, loaded⟩)
    (hfresh : after.code ∉ usedCodes log) (happly : (⟨n, change, some after.code⟩ : Write).apply loaded = .ok after) :
    Sound (update (update rooms code none) after.code (some ⟨after.version, after⟩))
        (.relocated n code after.code change :: log) ∧
      Later log rooms (update (update rooms code none) after.code (some ⟨after.version, after⟩)) := by
  have htracks := h.stored code
  rw [hstored] at htracks
  have hgone := tracks_update h.stored code (show Tracks none none from trivial)
  refine ⟨⟨tracks_update hgone after.code (htracks.push happly), fun c hash hc => ?_, ?_, fun c x hx => ?_⟩,
    fun c hash hc hused => ?_⟩
  · rcases update_eq_some.1 hc with ⟨hnew, -⟩ | ⟨-, hold⟩
    · exact mem_cons.2 (.inl hnew)
    · exact mem_cons_of_mem _ (h.used c hash (of_update_none hold))
  · have hrest : Apart (update (history log) code none) := h.apart.update code fun new hnew => by cases hnew
    refine hrest.update after.code fun new hnew c old _ hold heq => ?_
    obtain ⟨x, hx, rfl⟩ := map_eq_some_iff.1 hnew
    rcases update_eq_some.1 hold with ⟨-, hnone⟩ | ⟨hne, hold⟩
    · cases hnone
    · exact hne (h.apart c code old x hold hx heq)
  · refine mem_cons_of_mem _ ?_
    rcases update_eq_some.1 hx with ⟨-, hnew⟩ | ⟨-, hold⟩
    · obtain ⟨y, hy, rfl⟩ := map_eq_some_iff.1 hnew
      exact h.origin code y hy
    · exact h.origin c x (of_update_none hold)
  · rcases update_eq_some.1 hc with ⟨rfl, -⟩ | ⟨-, hold⟩
    · exact absurd hused hfresh
    · exact .inl (of_update_none hold)

theorem sound_deleted (h : Sound rooms log) (code : String) :
    Sound (update rooms code none) (.deleted code :: log) ∧ Later log rooms (update rooms code none) := by
  refine ⟨⟨tracks_update h.stored code trivial, fun c hash hc => h.used c hash (of_update_none hc), ?_,
    fun c x hx => h.origin c x (of_update_none hx)⟩, fun c hash hc _ => .inl (of_update_none hc)⟩
  exact h.apart.update code fun new hnew => by cases hnew

end Writes

/-! ## The invariant -/

theorem Ready.later {T : Type} {rooms' : String → Option Hash} {log' : List Event} {call : Call T}
    {phase : Phase T} (h : Ready rooms log call phase) (hlater : Later log rooms rooms')
    (hlog : usedCodes log ⊆ usedCodes log') : Ready rooms' log' call phase := by
  cases phase with
  | swap earlier tries loaded after outcome =>
    obtain ⟨code, guard, change, hcall, hpast, hchange⟩ := h
    exact ⟨code, guard, change, hcall, hpast.later hlater hlog, hchange⟩
  | move earlier tries loaded after =>
    obtain ⟨code, change, hcall, hpast, hchange⟩ := h
    exact ⟨code, change, hcall, hpast.later hlater hlog, hchange⟩
  | create | load | done => trivial

theorem writers_append (e? : Option Event) (log : List Event) :
    writers (e?.toList ++ log) = (e?.bind callOf).toList ++ writers log := by
  cases e? with
  | none => rfl
  | some e =>
    show List.filterMap callOf (e :: log) = _
    rw [filterMap_cons, bind_some]
    cases callOf e <;> rfl

theorem usedCodes_append (e? : Option Event) (log : List Event) : usedCodes log ⊆ usedCodes (e?.toList ++ log) := by
  unfold usedCodes
  rw [filterMap_append]
  exact subset_append_right _ _

/-- The rooms are sound, and a call is in the log once exactly when it wrote. -/
structure Inv {T : Type} (s : System T) : Prop where
  sound : Sound s.redis.rooms s.log
  ready : ∀ n p, s.calls n = some p → Ready s.redis.rooms s.log p.call p.phase
  wrote : ∀ n p, s.calls n = some p → (n ∈ writers s.log ↔ wrote p.phase = true)
  started : ∀ n p, s.calls n = some p → n < s.next
  known : ∀ n ∈ writers s.log, n < s.next
  once : (writers s.log).Nodup

section System

variable {T : Type} {s s' : System T} {n : Nat} {p : Process T} {newCode : String}

theorem Inv.advance (h : Inv s) (hp : s.calls n = some p) (hn : n ∉ writers s.log) {effect : Effect T}
    (hsound : Sound effect.redis.rooms (effect.wrote.toList ++ s.log))
    (hlater : Later s.log s.redis.rooms effect.redis.rooms)
    (hready : Ready effect.redis.rooms (effect.wrote.toList ++ s.log) p.call effect.phase)
    (hwrote : effect.wrote.bind callOf = if Cas.wrote effect.phase then some n else none) :
    Inv (s.advance n p.call effect) := by
  have hused := usedCodes_append effect.wrote s.log
  have hwriters := writers_append effect.wrote s.log
  rw [hwrote] at hwriters
  have hcases : ∀ {m q}, (s.advance n p.call effect).calls m = some q →
      m = n ∧ q = ⟨p.call, effect.phase⟩ ∨ m ≠ n ∧ s.calls m = some q := by
    intro m q hq
    by_cases hm : m = n
    · subst hm
      exact .inl ⟨rfl, some.inj (hq.symm.trans (update_self ..))⟩
    · exact .inr ⟨hm, (update_of_ne hm ..).symm.trans hq⟩
  have hlt := h.started n p hp
  refine ⟨hsound, fun m q hq => ?_, fun m q hq => ?_, fun m q hq => ?_, fun m hm => ?_, ?_⟩
  · rcases hcases hq with ⟨-, rfl⟩ | ⟨-, hq⟩
    · exact hready
    · exact (h.ready m q hq).later hlater hused
  · show m ∈ writers (effect.wrote.toList ++ s.log) ↔ _
    rw [hwriters]
    rcases hcases hq with ⟨rfl, rfl⟩ | ⟨hm, hq⟩
    · cases hw : Cas.wrote effect.phase <;> simp [hn]
    · rw [← h.wrote m q hq]
      cases hw : Cas.wrote effect.phase <;> simp [hm]
  · rcases hcases hq with ⟨rfl, -⟩ | ⟨-, hq⟩
    · exact hlt
    · exact h.started m q hq
  · replace hm : m ∈ writers (effect.wrote.toList ++ s.log) := hm
    rw [hwriters] at hm
    rcases mem_append.1 hm with hm | hm
    · cases hw : Cas.wrote effect.phase with
      | false =>
        rw [hw] at hm
        cases hm
      | true =>
        rw [hw] at hm
        rw [mem_singleton.1 hm]
        exact hlt
    · exact h.known m hm
  · show (writers (effect.wrote.toList ++ s.log)).Nodup
    rw [hwriters]
    cases hw : Cas.wrote effect.phase with
    | false => exact h.once
    | true => exact nodup_cons.2 ⟨hn, h.once⟩

theorem wrote_of_step {r : Redis} {effect : Effect T} (h : p.step n newCode r = some effect) :
    wrote p.phase = false := by
  obtain ⟨call, phase⟩ := p
  cases phase with
  | done => cases call <;> cases h
  | create | load | swap | move => rfl

theorem Inv.used (h : Inv s) (code : String) (hash : Hash) (hcode : s.redis.rooms code = some hash) :
    code ∈ usedCodes s.log ∧ hash.v = hash.body.version := by
  have htracks := h.sound.stored code
  rw [hcode] at htracks
  obtain ⟨x, -, hv, -⟩ := htracks.of_some
  exact ⟨h.sound.used code hash hcode, hv⟩

theorem Inv.does (h : Inv s) (hp : s.calls n = some p) {effect : Effect T} (hstep : p.step n newCode s.redis = some effect) :
    n ∉ writers s.log ∧ Does n s.redis s.log p effect := by
  refine ⟨fun hn => ?_, process_does hstep (h.ready n p hp) h.used⟩
  have hw := (h.wrote n p hp).1 hn
  rw [wrote_of_step hstep] at hw
  cases hw

theorem inv_does (h : Inv s) (hp : s.calls n = some p) (hfresh : NeverReuses s (.step n newCode))
    (hn : n ∉ writers s.log) {effect : Effect T} (hdoes : Does n s.redis s.log p effect) :
    Inv (s.advance n p.call effect) := by
  have hnew : ∀ {code}, p.creates = some code → s.redis.rooms code = none → code ∉ usedCodes s.log := by
    intro code hcreates hnone hused
    have hsome := hfresh code (by rw [hp]; exact hcreates) hused
    rw [hnone] at hsome
    cases hsome
  cases hdoes with
  | quiet phase hready hwrote =>
    refine h.advance hp hn h.sound (fun code hash hcode _ => .inl hcode) hready ?_
    show none = if wrote phase then some n else none
    rw [hwrote]
    rfl
  | inserted room hcreates hnone =>
    obtain ⟨hsound, hlater⟩ := sound_inserted h.sound (hnew hcreates hnone) hn
    exact h.advance hp hn hsound hlater trivial rfl
  | updated code change loaded after outcome hstored happly =>
    obtain ⟨hsound, hlater⟩ := sound_updated h.sound hstored happly
    exact h.advance hp hn hsound hlater trivial rfl
  | relocated code change loaded after seen hcreates hcall hstored hnone happly =>
    obtain ⟨hsound, hlater⟩ := sound_relocated h.sound hstored (hnew hcreates hnone) happly
    exact h.advance hp hn hsound hlater trivial rfl

theorem inv_delete (h : Inv s) (code : String) : Inv { s with
      redis := { s.redis with rooms := update s.redis.rooms code none }
      log := .deleted code :: s.log } := by
  obtain ⟨hsound, hlater⟩ := sound_deleted h.sound code
  exact ⟨hsound, fun n p hp => (h.ready n p hp).later hlater (usedCodes_append (some (.deleted code)) s.log),
    h.wrote, h.started, h.known, h.once⟩

theorem inv_call (h : Inv s) (call : Call T) :
    Inv { s with calls := update s.calls s.next (some (.start call)), next := s.next + 1 } := by
  have hcases : ∀ {m q}, update s.calls s.next (some (.start call)) m = some q →
      m = s.next ∧ q = .start call ∨ s.calls m = some q := by
    intro m q hq
    by_cases hm : m = s.next
    · subst hm
      exact .inl ⟨rfl, some.inj (hq.symm.trans (update_self ..))⟩
    · exact .inr ((update_of_ne hm ..).symm.trans hq)
  have hstart : Ready s.redis.rooms s.log call (Process.start call).phase ∧ wrote (Process.start call).phase = false := by
    cases call <;> exact ⟨trivial, rfl⟩
  refine ⟨h.sound, fun m q hq => ?_, fun m q hq => ?_, fun m q hq => ?_, fun m hm => ?_, h.once⟩
  · rcases hcases hq with ⟨-, rfl⟩ | hq
    · exact hstart.1
    · exact h.ready m q hq
  · rcases hcases hq with ⟨rfl, rfl⟩ | hq
    · rw [hstart.2]
      exact ⟨fun hm => absurd (h.known s.next hm) (Nat.lt_irrefl _), nofun⟩
    · exact h.wrote m q hq
  · rcases hcases hq with ⟨rfl, -⟩ | hq
    · exact Nat.lt_succ_self _
    · exact Nat.lt_succ_of_lt (h.started m q hq)
  · exact Nat.lt_succ_of_lt (h.known m hm)

theorem step_inv {a : Action T} (h : Inv s) (hfresh : NeverReuses s a) (hstep : s.step a = some s') : Inv s' := by
  cases a with
  | call call =>
    cases hstep
    exact inv_call h call
  | step n newCode =>
    obtain ⟨p, hp, hstep⟩ := bind_eq_some_iff.1 hstep
    obtain ⟨effect, heffect, rfl⟩ := map_eq_some_iff.1 hstep
    obtain ⟨hn, hdoes⟩ := h.does hp heffect
    exact inv_does h hp hfresh hn hdoes
  | fail n error =>
    obtain ⟨p, hp, hstep⟩ := bind_eq_some_iff.1 hstep
    have hquiet : wrote p.phase = false ∧ s.advance n p.call (.quiet s.redis (.done (.error error))) = s' := by
      cases hphase : p.phase with
      | done => simp [hphase] at hstep
      | create | load | swap | move => exact ⟨rfl, by simpa [hphase] using hstep⟩
    have hn : n ∉ writers s.log := fun hn => by
      have hw := (h.wrote n p hp).1 hn
      rw [hquiet.1] at hw
      cases hw
    rw [← hquiet.2]
    exact h.advance hp hn h.sound (fun code hash hcode _ => .inl hcode) trivial rfl
  | delete code =>
    cases hstep
    exact inv_delete h code
  | see | forgetMoved | setString =>
    cases hstep
    exact ⟨h.sound, h.ready, h.wrote, h.started, h.known, h.once⟩

theorem inv_start : Inv (.start : System T) where
  sound := ⟨fun _ => trivial, fun _ _ h => (by cases h), fun _ _ _ _ h => (by cases h), fun _ _ h => (by cases h)⟩
  ready := fun _ _ h => by cases h
  wrote := fun _ _ h => by cases h
  started := fun _ _ h => by cases h
  known := fun _ h => by cases h
  once := nodup_nil

end System

/-! ## Runs -/

/-- No write to a room is lost or made twice. -/
structure Lossless {T : Type} (s : System T) : Prop where
  version : ∀ code hash, s.redis.rooms code = some hash → hash.v = hash.body.version
  /-- A stored room is the fold of the writes in its history, and has one version more for each of them. -/
  fold : ∀ code hash, s.redis.rooms code = some hash → ∃ h, history s.log code = some h ∧
    h.result = .ok hash.body ∧ hash.body.version = h.room.version + h.writes.length
  /-- A room with a history is stored, under one code only. -/
  kept : ∀ code h, history s.log code = some h → (s.redis.rooms code).isSome
  apart : ∀ code code' h h', history s.log code = some h → history s.log code' = some h' → h.call = h'.call →
    code = code'
  /-- The writes are those of the calls that succeeded, one for each. -/
  calls : ∀ n p, s.calls n = some p → (n ∈ writers s.log ↔ wrote p.phase = true)
  once : (writers s.log).Nodup

/-- What a step of call `n` does to the keys: nothing, unless the call succeeds with it; and a room that it relocates is
under its new code, which the old one names. -/
structure Settles {T : Type} (n : Nat) (s s' : System T) : Prop where
  quiet : s'.redis = s.redis ∨ n ∈ writers s'.log
  moved : ∀ code change room, s'.calls n = some ⟨.relocate code change, .done (.ok (.relocated room))⟩ →
    s'.redis.rooms room.code = some ⟨room.version, room⟩ ∧ s'.redis.rooms code = none ∧
      s'.redis.moved code = some room.code

theorem Inv.lossless {T : Type} {s : System T} (h : Inv s) : Lossless s where
  version := fun code hash hcode => (h.used code hash hcode).2
  fold := fun code hash hcode => by
    have htracks := h.sound.stored code
    rw [hcode] at htracks
    obtain ⟨x, hx, -, hresult⟩ := htracks.of_some
    exact ⟨x, hx, hresult⟩
  kept := fun code x hx => by
    have htracks := h.sound.stored code
    rw [hx] at htracks
    cases hcode : s.redis.rooms code with
    | none =>
      rw [hcode] at htracks
      exact htracks.elim
    | some hash => rfl
  apart := h.sound.apart
  calls := h.wrote
  once := h.once

theorem Inv.settles {T : Type} {s s' : System T} {n : Nat} {newCode : String} (h : Inv s)
    (hstep : s.step (.step n newCode) = some s') : Settles n s s' := by
  obtain ⟨p, hp, hstep⟩ := bind_eq_some_iff.1 hstep
  obtain ⟨effect, heffect, rfl⟩ := map_eq_some_iff.1 hstep
  obtain ⟨-, hdoes⟩ := h.does hp heffect
  have hcall : ∀ {call phase}, (s.advance n p.call effect).calls n = some ⟨call, phase⟩ →
      p.call = call ∧ effect.phase = phase := by
    intro call phase hq
    change update s.calls n (some ⟨p.call, effect.phase⟩) n = some ⟨call, phase⟩ at hq
    rw [update_self] at hq
    cases hq
    exact ⟨rfl, rfl⟩
  cases hdoes with
  | quiet phase hready hwrote =>
    refine ⟨.inl rfl, fun code change room hq => ?_⟩
    cases (hcall hq).2
    cases hwrote
  | inserted room hcreates hnone | updated code change loaded after outcome hstored happly =>
    exact ⟨.inr mem_cons_self, fun code change room hq => by cases (hcall hq).2⟩
  | relocated code change loaded after seen hcreates hrelocate hstored hnone happly =>
    refine ⟨.inr mem_cons_self, fun code' change' room hq => ?_⟩
    obtain ⟨raw, hraw⟩ := hrelocate
    cases hraw.symm.trans (hcall hq).1
    cases (hcall hq).2
    have hne : code ≠ after.code := by
      rintro rfl
      rw [hnone] at hstored
      cases hstored
    refine ⟨update_self .., ?_, update_self ..⟩
    show update (update s.redis.rooms code none) after.code _ code = none
    rw [update_of_ne hne, update_self]

/-- Rooms lose no update, as long as no code is given to a room after another one was deleted. -/
theorem rooms_lose_no_update {T : Type} {as : List (Action T)} {s : System T} (h : run System.step .start as = some s)
    (hfresh : Meets System.step NeverReuses .start as) :
    Lossless s ∧ (∀ n newCode s', s.step (.step n newCode) = some s' → Settles n s s') ∧
      ∀ n error s', s.step (.fail n error) = some s' → s'.redis = s.redis := by
  have hinv : Inv s := run_invariant_of_meets step_inv inv_start hfresh h
  refine ⟨hinv.lossless, fun n newCode s' hstep => hinv.settles hstep, fun n error s' hstep => ?_⟩
  obtain ⟨p, -, hstep⟩ := bind_eq_some_iff.1 hstep
  cases hphase : p.phase with
  | done => simp [hphase] at hstep
  | create | load | swap | move =>
    simp only [hphase, some.injEq] at hstep
    rw [← hstep]
    rfl

def plainRoom : Room := .new "A" (.new "1" ⟨"", none⟩ 0) false 0 0

def moderating (user : String) (room : Room) : Room := { room with moderators := room.moderators ++ [user] }

/-- Two updates load the same room, the second has to try again, and the room gets another code. -/
def racingUpdates : List (Action Unit) :=
  [.call (.insert plainRoom), .step 0 "",
    .call (.update "A" none fun _ room => .ok (moderating "2" room, ())),
    .call (.update "A" (some ⟨"lock", "mine"⟩) fun _ room => .ok (moderating "3" room, ())), .setString "lock" (some "mine"),
    .step 1 "", .step 2 "", .step 1 "", .step 2 "", .step 2 "", .step 2 "",
    .call (.relocate "A" fun _ room => .ok room), .step 3 "B", .step 3 ""]

theorem rooms_lose_no_update_racing : ∃ s, run System.step .start racingUpdates = some s ∧
    (s.redis.rooms "B").map (fun hash => (hash.v, hash.body.moderators)) = some (4, ["2", "3"]) ∧
    s.redis.moved "A" = some "B" ∧ writers s.log = [3, 2, 1, 0] ∧ Lossless s := by
  refine ⟨_, rfl, by decide, rfl, rfl, (@rooms_lose_no_update Unit racingUpdates _ rfl ?_).1⟩
  refine meets_cons rfl trivial (meets_cons rfl nofun ?_)
  iterate 3 refine meets_cons rfl trivial ?_
  iterate 6 refine meets_cons rfl nofun ?_
  refine meets_cons rfl trivial (meets_cons rfl nofun (meets_cons rfl (fun code h hused => ?_) trivial))
  -- the code of the relocated room is new
  cases h
  exact absurd hused (by decide)

/-! ## The store of the service -/

/-- The keys as the service sees them, where a room has its version in its body only. -/
def storeOf (r : Redis) (hosted : String → Option String) : Store where
  rooms := r.load
  seen := r.seen
  moved := r.moved
  hosted := hosted

/-- Whatever calls ran before, the swap script without a guard is the swap of the service's store. -/
theorem swap_storeOf {T : Type} {as : List (Action T)} {s : System T} (h : run System.step .start as = some s)
    (hfresh : Meets System.step NeverReuses .start as) (hosted : String → Option String) (code : String)
    (expected : Nat) (room : Room) : (storeOf s.redis hosted).swap code expected room =
      if (s.redis.swap code (roomKey code) expected room.version room "").2 = 1 then
        some (storeOf (s.redis.swap code (roomKey code) expected room.version room "").1 hosted)
      else none := by
  have hlossless := (run_invariant_of_meets step_inv inv_start hfresh h : Inv s).lossless
  have hversion : (storeOf s.redis hosted).version code = (s.redis.rooms code).map Hash.v := by
    show ((s.redis.rooms code).map Hash.body).map Room.version = _
    cases hcode : s.redis.rooms code with
    | none => rfl
    | some hash => exact congrArg some (hlossless.version code hash hcode).symm
  unfold Store.swap
  rw [hversion]
  by_cases hv : (s.redis.rooms code).map Hash.v = some expected
  · have hswap : s.redis.swap code (roomKey code) expected room.version room "" =
        ({ s.redis with rooms := update s.redis.rooms code (some ⟨room.version, room⟩) }, 1) := by
      simp [Redis.swap, hv]
    have hload : update s.redis.load code (some room) =
        fun c => (update s.redis.rooms code (some ⟨room.version, room⟩) c).map Hash.body := by
      funext c
      by_cases hc : c = code
      · subst hc
        simp
      · simp [Redis.load, hc]
    rw [if_pos hv, hswap, if_pos rfl]
    exact congrArg (fun rooms => some (⟨rooms, s.redis.seen, s.redis.moved, hosted⟩ : Store)) hload
  · have hswap : s.redis.swap code (roomKey code) expected room.version room "" = (s.redis, 0) := by
      simp [Redis.swap, hv]
    rw [if_neg hv, hswap]
    rfl

theorem swap_storeOf_inserted : ∃ s : System Unit, run System.step .start [.call (.insert plainRoom), .step 0 ""] = some s ∧
    ((storeOf s.redis fun _ => none).swap "A" 1 { plainRoom with version := 2 }).isSome ∧
    (storeOf s.redis fun _ => none).swap "A" 1 { plainRoom with version := 2 } =
      if (s.redis.swap "A" (roomKey "A") 1 2 { plainRoom with version := 2 } "").2 = 1 then
        some (storeOf (s.redis.swap "A" (roomKey "A") 1 2 { plainRoom with version := 2 } "").1 fun _ => none)
      else none :=
  ⟨_, rfl, by decide, @swap_storeOf Unit [.call (.insert plainRoom), .step 0 ""] _ rfl
    (meets_cons rfl trivial (meets_cons rfl nofun trivial)) _ _ _ _⟩

end SC.Proof.Rooms.Cas
