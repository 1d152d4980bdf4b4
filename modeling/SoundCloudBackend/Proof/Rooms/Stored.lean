import SoundCloudBackend.Proof.Rooms.Cas
import SoundCloudBackend.Proof.Rooms.Structure

/-!
# Stored rooms are valid

What the operations keep of one room, the concurrent calls of the store keep of all rooms:
a call that loaded a room which was written since either fails or starts again, so that no
stored room mixes two of them.
-/

namespace SC.Proof.Rooms.Cas

open Impl.Rooms.Cas
open Impl.Rooms (Room RoomOp AppError Member Perks roomStep)
open Function Option

variable {T : Type} {artworkUrl : String → Option String} {r : Redis} {s s' : System T}
variable {room : Room} {code : String} {version expected : Nat} {r' : Redis} {reply : Int} {p : Process T}
variable {effect : Effect T}

/-- Changes of a room: its operations, and assignments that leave the lists alone, in any order. -/
inductive Changes (artworkUrl : String → Option String) (room : Room) : Room → Prop
  | none : Changes artworkUrl room room
  | op {mid after : Room} {op : RoomOp} (h : Changes artworkUrl room mid) (hop : roomStep artworkUrl mid op = some after) :
      Changes artworkUrl room after
  | assign {mid after : Room} (h : Changes artworkUrl room mid) (hsame : SameLists mid after) :
      Changes artworkUrl room after

/-- The call inserts a new room, or changes the one that it loaded, by operations and by assignments. -/
def Serves (artworkUrl : String → Option String) : Call T → Prop
  | .insert room => ∃ code host isPublic now id, Changes artworkUrl (Room.new code host isPublic now id) room
  | .update _ _ change => ∀ earlier room after outcome, change earlier room = .ok (after, outcome) →
      Changes artworkUrl room after
  | .relocate _ change => ∀ earlier room after, change earlier room = .ok after → Changes artworkUrl room after

def Stored (r : Redis) : Prop := ∀ code hash, r.rooms code = some hash → RoomValid hash.body

/-- The room that a call is about to write. -/
def Pending : Phase T → Prop
  | .swap _ _ _ after _ | .move _ _ _ after => RoomValid after
  | _ => True

theorem Changes.valid {room after : Room} (h : Changes artworkUrl room after) (hroom : RoomValid room) :
    RoomValid after := by
  induction h with
  | none => exact hroom
  | op _ hop ih => exact (roomStep_valid ih hop).valid
  | assign _ hsame ih => exact hsame.valid ih

theorem valid_of_renamed (h : RoomValid room) (code : String) (version : Nat) :
    RoomValid { room with code := code, version := version } :=
  @SameLists.valid room _ ⟨rfl, rfl, rfl, rfl, rfl⟩ h

theorem Stored.load (h : Stored r) (hload : r.load code = some room) : RoomValid room := by
  obtain ⟨hash, hhash, rfl⟩ := map_eq_some_iff.1 hload
  exact h code hash hhash

theorem Stored.write {rooms : String → Option Hash}
    (h : ∀ c hash, rooms c = some hash → RoomValid hash.body) (hroom : RoomValid room) :
    ∀ c hash, update rooms code (some ⟨version, room⟩) c = some hash → RoomValid hash.body := by
  intro c hash hc
  rcases update_eq_some.1 hc with ⟨-, hnew⟩ | ⟨-, hold⟩
  · cases hnew
    exact hroom
  · exact h c hash hold

theorem Stored.create (h : Stored r)
    (hroom : RoomValid room) (hcreate : r.create code version room = (r', reply)) : Stored r' := by
  unfold Redis.create at hcreate
  split at hcreate <;> cases hcreate
  · exact h
  · exact Stored.write h hroom

theorem Stored.swap {guardKey token : String}
    (h : Stored r) (hroom : RoomValid room) (hswap : r.swap code guardKey expected version room token = (r', reply)) :
    Stored r' := by
  unfold Redis.swap at hswap
  split_ifs at hswap <;> cases hswap
  · exact h
  · exact h
  · exact Stored.write h hroom

theorem Stored.move {new : String} (h : Stored r)
    (hroom : RoomValid room) (hmove : r.move code new expected version room = (r', reply)) : Stored r' := by
  rcases move_cases r code new expected version room with ⟨-, hsame⟩ | ⟨-, -, seen, hmoved⟩
  · rw [hmove] at hsame
    exact (show r' = r from hsame) ▸ h
  · cases hmove.symm.trans hmoved
    exact Stored.write (fun c hash hc => h c hash (of_update_none hc)) hroom

theorem stored_process {n : Nat} {newCode : String} (hstored : Stored r)
    (hserves : Serves artworkUrl p.call) (hpending : Pending p.phase) (h : p.step n newCode r = some effect) :
    Stored effect.redis ∧ Pending effect.phase := by
  revert h
  fun_cases Process.step n newCode r p <;> intro h <;> cases h
  case case1 room hphase hcall r' created hcreate =>
    rw [hcall] at hserves
    obtain ⟨code, host, isPublic, now, id, hroom⟩ := hserves
    exact ⟨hstored.create (hroom.valid (new_valid code host isPublic now id)) hcreate, trivial⟩
  case case5 code guard change earlier tries hphase hcall room hload after outcome hchange =>
    rw [hcall] at hserves
    exact ⟨hstored, valid_of_renamed ((hserves _ _ _ _ hchange).valid (hstored.load hload)) _ _⟩
  case case12 code change earlier tries hphase hcall room hload after hchange =>
    rw [hcall] at hserves
    exact ⟨hstored, valid_of_renamed ((hserves _ _ _ hchange).valid (hstored.load hload)) _ _⟩
  case case13 | case14 =>
    rw [‹p.phase = _›] at hpending
    exact ⟨hstored.move hpending ‹_›, trivial⟩
  case case6 | case7 | case8 =>
    rw [‹p.phase = _›] at hpending
    exact ⟨hstored.swap hpending ‹_›, trivial⟩
  all_goals exact ⟨hstored, trivial⟩

/-- What holds of the keys and of the calls. -/
structure Served (artworkUrl : String → Option String) (s : System T) : Prop where
  stored : Stored s.redis
  calls : ∀ n p, s.calls n = some p → Serves artworkUrl p.call ∧ Pending p.phase

theorem Served.advance {n : Nat} (h : Served artworkUrl s) (hp : s.calls n = some p)
    (heffect : Stored effect.redis ∧ Pending effect.phase) : Served artworkUrl (s.advance n p.call effect) := by
  refine ⟨heffect.1, fun m q hq => ?_⟩
  by_cases hm : m = n
  · subst hm
    cases (update_self m _ s.calls).symm.trans hq
    exact ⟨(h.calls m p hp).1, heffect.2⟩
  · exact h.calls m q ((update_of_ne hm _ s.calls).symm.trans hq)

theorem Served.step {a : Action T} (h : Served artworkUrl s) (ha : ∀ call, .call call = a → Serves artworkUrl call)
    (hstep : s.step a = some s') : Served artworkUrl s' := by
  cases a with
  | call call =>
    cases hstep
    refine ⟨h.stored, fun m q hq => ?_⟩
    by_cases hm : m = s.next
    · subst hm
      cases (update_self s.next _ s.calls).symm.trans hq
      exact ⟨ha call rfl, by cases call <;> trivial⟩
    · exact h.calls m q ((update_of_ne hm _ s.calls).symm.trans hq)
  | step n newCode =>
    obtain ⟨p, hp, hstep⟩ := bind_eq_some_iff.1 hstep
    obtain ⟨effect, heffect, rfl⟩ := map_eq_some_iff.1 hstep
    obtain ⟨hserves, hpending⟩ := h.calls n p hp
    exact h.advance hp (stored_process h.stored hserves hpending heffect)
  | fail n error =>
    obtain ⟨p, hp, hstep⟩ := bind_eq_some_iff.1 hstep
    split at hstep
    · cases hstep
    · cases hstep
      exact h.advance hp ⟨h.stored, trivial⟩
  | delete code =>
    cases hstep
    exact ⟨fun c hash hc => h.stored c hash (of_update_none hc), h.calls⟩
  | see | forgetMoved | setString =>
    cases hstep
    exact ⟨h.stored, h.calls⟩

/-- In every run of concurrent calls, retried or not, each stored room is valid. -/
theorem stored_rooms_valid {as : List (Action T)} (h : run System.step .start as = some s)
    (hserves : ∀ call, .call call ∈ as → Serves artworkUrl call) {code : String} {hash : Hash}
    (hcode : s.redis.rooms code = some hash) : RoomValid hash.body := by
  have hstart : Served artworkUrl (.start : System T) := ⟨fun _ _ h => (by cases h), fun _ _ h => (by cases h)⟩
  have hmeets : Meets System.step (fun _ a => ∀ call, .call call = a → Serves artworkUrl call) .start as :=
    meets_of_forall fun a ha _ call hcall => hserves call (hcall ▸ ha)
  exact (run_invariant_of_meets Served.step hstart hmeets h).stored code hash hcode

/-- `create`: the new room gets its title and perks before it is inserted. -/
def creating : Call Unit := .insert { plainRoom with title := some "quiet", perks := Perks.star }

def guest : Member := .new "2" ⟨"", none⟩ 0

def joining : Call Unit := .update "A" none fun _ room => (room.join guest).map (·, ())

/-- `unlist`. -/
def unlisting : Call Unit := .update "A" none fun _ room => .ok ({ room with unlisted := true }, ())

theorem creating_serves : Serves artworkUrl creating :=
  ⟨"A", .new "1" ⟨"", none⟩ 0, false, 0, 0, .assign .none ⟨rfl, rfl, rfl, rfl, rfl⟩⟩

theorem joining_serves : Serves artworkUrl joining := by
  intro earlier room after outcome h
  obtain ⟨room', hjoin, heq⟩ := map_eq_ok h
  cases heq
  have hop : roomStep artworkUrl room (.join guest) = some after := by
    simp [roomStep, Room.perform, Room.change, hjoin]
  exact .op .none hop

theorem unlisting_serves : Serves artworkUrl unlisting := by
  intro earlier room after outcome h
  cases h
  exact .assign .none ⟨rfl, rfl, rfl, rfl, rfl⟩

/-- A join and an unlisting load the same room, and the second has to start again. -/
def racingCalls : List (Action Unit) :=
  [.call creating, .step 0 "", .call joining, .call unlisting,
    .step 1 "", .step 2 "", .step 1 "", .step 2 "", .step 2 "", .step 2 ""]

theorem stored_rooms_valid_racing : ∃ s hash, run System.step .start racingCalls = some s ∧
    s.redis.rooms "A" = some hash ∧ hash.body.memberIds = ["1", "2"] ∧ hash.body.unlisted = true ∧ hash.v = 3 ∧
    RoomValid hash.body := by
  have hserves : ∀ call, .call call ∈ racingCalls → Serves (fun _ => none) call := by
    intro call h
    simp only [racingCalls, List.mem_cons, Action.call.injEq, reduceCtorEq, List.not_mem_nil, or_false, false_or] at h
    rcases h with rfl | rfl | rfl
    · exact creating_serves
    · exact joining_serves
    · exact unlisting_serves
  obtain ⟨s, h⟩ : ∃ s, run System.step .start racingCalls = some s := ⟨_, rfl⟩
  obtain ⟨hash, hcode, hids, hunlisted, hv⟩ : ∃ hash, s.redis.rooms "A" = some hash ∧
      hash.body.memberIds = ["1", "2"] ∧ hash.body.unlisted = true ∧ hash.v = 3 := by
    cases h
    exact ⟨_, rfl, by decide, by decide, by decide⟩
  exact ⟨s, hash, h, hcode, hids, hunlisted, hv, stored_rooms_valid h hserves hcode⟩

end SC.Proof.Rooms.Cas
