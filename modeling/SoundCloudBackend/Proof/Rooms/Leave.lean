import SoundCloudBackend.Impl.Rooms.Service
import SoundCloudBackend.Proof.Rooms.Structure

/-!
# Leaving a room that others join

A leave decides from a snapshot, and then swaps the room under a version check,
or deletes it without one. `KeepsOthers` says that a step of the leave takes
nobody else out of a room, unless the leaving user is its host and has no
successor at that moment. The delete can break it (`leave_deletes_joined_room`):
a join in between the snapshot and the delete is lost. In every run without such
joins it holds for every step of the leave (`leave_keeps_others`).
-/

namespace SC.Proof.Rooms

open Impl Impl.Rooms
open List Function

variable {starPerks : UserId → Perks} {user : UserId} {w w' : World} {st st' : Store} {code : String}
variable {r r' : Room} {userId : UserId} {now : Int} {pc : LeavePc}
variable {host leaving id : UserId} {candidates online : List UserId} {P : UserId → Prop} {req : JoinRequest}
variable {change : LeaveChange} {surprise : Option UserId} {left : Nat}

/-- Each room is stored under its code, and its lists fit together. -/
structure StoreValid (st : Store) : Prop where
  code : ∀ {c r}, st.rooms c = some r → r.code = c
  valid : ∀ {c r}, st.rooms c = some r → RoomValid r

def Inside (w : World) (code : String) (userId : UserId) : Prop :=
  ∃ r, w.store.rooms code = some r ∧ userId ∈ r.memberIds

/-- The user is the host of the room, and nobody could be the next one. -/
def LacksSuccessor (w : World) (code : String) (user : UserId) : Prop :=
  ∃ r, w.store.rooms code = some r ∧ r.hostId = user ∧
    r.nextHost user (w.store.hostCandidates r user w.clock) = none

/-- The step takes nobody else out of a room, unless the user is its host without a successor. -/
def KeepsOthers (user : UserId) (w w' : World) : Prop :=
  ∀ code other, other ≠ user → Inside w code other → ¬LacksSuccessor w code user → Inside w' code other

/-- The successors that the loop over the users online has found and is to find in its snapshot. -/
def found (user : UserId) (st : Store) (room : Room) (online free : List UserId) : List UserId :=
  free ++ online.filter fun id => id ≠ user ∧ room.isMember id ∧ !st.isBusy room.code id

/-- The room that the leave is to end, with the members whom it can still find to take it over. -/
def ending (user : UserId) (st : Store) : LeavePc → Option (String × List UserId)
  | .candidates room _ => some (room.code, room.memberIds)
  | .checking room online free _ => if found user st room online free = [] then some (room.code, []) else none
  | .endLoad code => some (code, [])
  | .endForget room => some (room.code, [])
  | _ => none

/-- Nobody gets into the room that the leave is to end, but users whom it can still find and hosts of other rooms. -/
def NoSuccessorJoins (user : UserId) (w : World) : Action → Prop
  | .join code req => ∀ known, ending user w.store w.pc = some (code, known) →
      (w.store.admitUser code req w.clock).isOk → req.userId ∈ known ∨ w.store.isBusy code req.userId
  | _ => True

/-! ## A join is lost -/

def aloneInRoom : World where
  store :=
    { rooms := fun code => if code = "R" then some (Room.new "R" (Member.new "1" ⟨"", none⟩ 0) false 0 0) else none
      seen := fun _ => [("1", 0)]
      moved := fun _ => none
      hosted := fun _ => none }
  clock := 0
  pc := .resolve "R"

/-- `2` joins after the snapshot, and before the load of `end`. -/
def joinIntoTheEnd : List Action :=
  [.leave, .leave, .join "R" ⟨"2", ⟨"", none⟩, false, false, 0⟩, .leave]

theorem leave_deletes_joined_room :
    ∃ w w', run (worldStep (fun _ => .free) "1") aloneInRoom joinIntoTheEnd = some w ∧
      worldStep (fun _ => .free) "1" w .leave = some w' ∧ Inside w "R" "2" ∧
      ¬LacksSuccessor w "R" "1" ∧ w'.store.rooms "R" = none := by
  refine ⟨_, _, rfl, rfl, ⟨_, rfl, by decide⟩, ?_, rfl⟩
  rintro ⟨r, hr, -, hnone⟩
  cases hr
  revert hnone
  decide

/-! ## Successors -/

/-- A member who can take the room over. -/
structure Eligible (st : Store) (r : Room) (host : UserId) (now : Int) (userId : UserId) : Prop where
  member : userId ∈ r.memberIds
  other : userId ≠ host
  online : userId ∈ st.seenSince r.code (now - onlineWindowMs)
  free : st.isBusy r.code userId = false

theorem mem_hostCandidates : userId ∈ st.hostCandidates r host now ↔ Eligible st r host now userId := by
  simp only [Store.hostCandidates, mem_filter, Room.isMember, decide_eq_true_eq, Bool.not_eq_true']
  constructor
  · rintro ⟨honline, hother, hmember, hfree⟩
    exact ⟨hmember, hother, honline, hfree⟩
  · rintro ⟨hmember, hother, honline, hfree⟩
    exact ⟨honline, hother, hmember, hfree⟩

theorem nextHost_eq_none
    (h : r.nextHost leaving candidates = none) : ∀ id ∈ r.memberIds, id ≠ leaving → id ∉ candidates := by
  intro id hid hne hin
  obtain ⟨m, hm, rfl⟩ := mem_map.1 hid
  have hmin : Room.minMember (r.members.filter fun m => m.userId ≠ leaving ∧ m.userId ∈ candidates) = none :=
    Option.map_eq_none_iff.1 h
  have hmem : m ∈ r.members.filter fun m => m.userId ≠ leaving ∧ m.userId ∈ candidates :=
    mem_filter.2 ⟨hm, decide_eq_true ⟨hne, hin⟩⟩
  generalize (r.members.filter fun m => m.userId ≠ leaving ∧ m.userId ∈ candidates) = l at hmin hmem
  cases l with
  | nil => cases hmem
  | cons a l => cases hmin

theorem nextHost_eq_none_of
    (h : ∀ id ∈ r.memberIds, id ≠ leaving → id ∉ candidates) : r.nextHost leaving candidates = none := by
  cases hnext : r.nextHost leaving candidates with
  | none => rfl
  | some next =>
    obtain ⟨hmem, hne, hin⟩ := nextHost_spec hnext
    exact absurd hin (h next hmem hne)

/-- The room, if it is there, is the user's, and `P` holds of each successor. -/
def Covered (user : UserId) (st : Store) (now : Int) (code : String) (P : UserId → Prop) : Prop :=
  ∀ r, st.rooms code = some r → r.hostId = user ∧ ∀ id, Eligible st r user now id → P id

theorem Covered.mono {Q : UserId → Prop} (h : Covered user st now code P) (hPQ : ∀ id, P id → Q id) :
    Covered user st now code Q := fun r hr => ⟨(h r hr).1, fun id hid => hPQ id ((h r hr).2 id hid)⟩

theorem Covered.lacksSuccessor (h : Covered user w.store w.clock code fun _ => False)
    (hin : Inside w code id) : LacksSuccessor w code user := by
  obtain ⟨r, hr, -⟩ := hin
  obtain ⟨hhost, hnone⟩ := h r hr
  exact ⟨r, hr, hhost, nextHost_eq_none_of fun id _ _ hcand => hnone id (mem_hostCandidates.1 hcand)⟩

theorem mem_seenSince {since : Int} :
    userId ∈ st.seenSince code since ↔ ∃ at_, since ≤ at_ ∧ (userId, at_) ∈ st.seen code := by
  simp only [Store.seenSince, mem_map, mem_filter, decide_eq_true_eq]
  constructor
  · rintro ⟨⟨id, at_⟩, ⟨hin, hle⟩, rfl⟩
    exact ⟨at_, hle, hin⟩
  · rintro ⟨at_, hle, hin⟩
    exact ⟨(userId, at_), ⟨hin, hle⟩, rfl⟩

theorem Eligible.earlier {later : Int} (h : Eligible st r host later id)
    (hle : now ≤ later) : Eligible st r host now id := by
  obtain ⟨at_, hat, hin⟩ := mem_seenSince.1 h.online
  exact { h with online := mem_seenSince.2 ⟨at_, by omega, hin⟩ }

theorem Covered.tick (h : Covered user st now code P) (ms : Nat) : Covered user st (now + ms) code P := fun r hr =>
  ⟨(h r hr).1, fun id hid => (h r hr).2 id (hid.earlier (by omega))⟩

/-! ## Joins -/

/-- What a join changes: at most the joining user comes in. -/
structure Joined (userId : UserId) (r r' : Room) : Prop where
  host : r'.hostId = r.hostId
  code : r'.code = r.code
  members : ∀ id ∈ r'.memberIds, id ∈ r.memberIds ∨ id = userId
  valid : RoomValid r → RoomValid r'

theorem join_joined {m : Member} (h : r.join m = .ok r') : Joined m.userId r r' := by
  have hvalid : RoomValid r → RoomValid r' := fun hr => join_valid hr h
  rcases join_cases h with ⟨hsame, hcode⟩ | ⟨-, -, -, rfl⟩
  · exact ⟨hsame.host, hcode, fun id hid => .inl (hsame.members ▸ hid), hvalid⟩
  · refine ⟨rfl, rfl, fun id hid => ?_, hvalid⟩
    simpa [Room.memberIds] using hid

theorem admitChange_joined {m : Member} {publicOnly : Bool} {checkedHost : UserId}
    {recent : Int} (h : admitChange m publicOnly checkedHost online recent r = .ok r') : Joined m.userId r r' := by
  rw [admitChange] at h
  split at h
  · exact join_joined h
  · split at h
    · cases h
    split at h
    · cases h
    split at h
    · have hj := join_joined h
      refine ⟨hj.host, hj.code, fun id hid => ?_, fun hr => hj.valid (dropAbsent_valid hr online recent)⟩
      exact (hj.members id hid).imp_left fun hin => (memberIds_filter _).subset hin
    · exact join_joined h

theorem admit_cases (h : st.admitUser code req now = .ok st') :
    ∃ r r', st.rooms code = some r ∧ Joined req.userId r r' ∧ r'.version = r.version + 1 ∧
      st' = { st with rooms := update st.rooms code (some r') }.touch code req.userId now := by
  rw [Store.admitUser] at h
  split at h
  · cases h
  rename_i r hr
  split at h
  · cases h
  obtain ⟨r', hchange, h⟩ := bind_eq_ok h
  cases h
  have hj : Joined req.userId r r' := admitChange_joined hchange
  have hsame : SameLists r' { r' with version := r.version + 1 } := ⟨rfl, rfl, rfl, rfl, rfl⟩
  exact ⟨r, { r' with version := r.version + 1 }, hr,
    ⟨hj.host, hj.code, hj.members, fun hv => hsame.valid (hj.valid hv)⟩, rfl, rfl⟩

/-- The fields that a join leaves alone, and those it changes at one code. -/
structure JoinedAt (code : String) (userId : UserId) (st st' : Store) : Prop where
  here : ∃ r r', st.rooms code = some r ∧ st'.rooms code = some r' ∧ Joined userId r r' ∧
    r'.version = r.version + 1
  elsewhere : ∀ c, c ≠ code → st'.rooms c = st.rooms c
  seen : ∀ {c id at_}, (id, at_) ∈ st'.seen c → c = code ∧ id = userId ∨ (id, at_) ∈ st.seen c
  busy : ∀ c id, st'.isBusy c id = st.isBusy c id

theorem admit_joinedAt (h : st.admitUser code req now = .ok st') : JoinedAt code req.userId st st' := by
  obtain ⟨r, r', hr, hj, hv, rfl⟩ := admit_cases h
  have hrooms : ∀ c, (update st.rooms code (some r') c).isSome = (st.rooms c).isSome := by
    intro c
    by_cases hc : c = code
    · subst hc
      simp [hr]
    · rw [update_of_ne hc]
  refine ⟨⟨r, r', hr, update_self .., hj, hv⟩, fun c hc => update_of_ne hc .., ?_, ?_⟩
  · intro c id at_ hin
    by_cases hc : c = code
    · subst hc
      simp only [Store.touch, update_self, mem_append, mem_singleton, Prod.mk.injEq] at hin
      rcases hin with hin | ⟨hid, -⟩
      · exact .inr (mem_of_mem_filter hin)
      · exact .inl ⟨rfl, hid⟩
    · simp only [Store.touch, update_of_ne hc] at hin
      exact .inr hin
  · intro c id
    simp only [Store.isBusy, Store.version, Store.touch, Option.isSome_map, hrooms]

theorem JoinedAt.eligible {c : String}
    (h : JoinedAt code userId st st') (hcode : r.code = c) (hr : st.rooms c = some r) (hr' : st'.rooms c = some r')
    (he : Eligible st' r' host now id) (hne : c = code → id ≠ userId) :
    r'.hostId = r.hostId ∧ Eligible st r host now id := by
  have hsame : r'.hostId = r.hostId ∧ r'.code = r.code ∧ (id ∈ r'.memberIds → id ∈ r.memberIds) := by
    by_cases hc : c = code
    · subst hc
      obtain ⟨r₁, r₂, h₁, h₂, hj, -⟩ := h.here
      cases h₁.symm.trans hr
      cases h₂.symm.trans hr'
      exact ⟨hj.host, hj.code, fun hin => (hj.members id hin).resolve_right (hne rfl)⟩
    · rw [h.elsewhere c hc, hr] at hr'
      cases hr'
      exact ⟨rfl, rfl, fun hin => hin⟩
  refine ⟨hsame.1, hsame.2.2 he.member, he.other, ?_, ?_⟩
  · obtain ⟨at_, hat, hin⟩ := mem_seenSince.1 he.online
    rcases h.seen hin with ⟨hc, hid⟩ | hin
    · exact absurd hid (hne (by rw [← hc, hsame.2.1, hcode]))
    · exact mem_seenSince.2 ⟨at_, hat, hsame.2.1 ▸ hin⟩
  · rw [← hsame.2.1, ← h.busy]
    exact he.free

theorem JoinedAt.storeValid (h : JoinedAt code userId st st') (hst : StoreValid st) : StoreValid st' := by
  obtain ⟨r, r', hr, hr', hj, -⟩ := h.here
  constructor <;> intro c r₁ h₁ <;> by_cases hc : c = code
  · subst hc
    cases hr'.symm.trans h₁
    exact hj.code.trans (hst.code hr)
  · exact hst.code ((h.elsewhere c hc).symm.trans h₁)
  · subst hc
    cases hr'.symm.trans h₁
    exact hj.valid (hst.valid hr)
  · exact hst.valid ((h.elsewhere c hc).symm.trans h₁)

theorem Covered.join {c : String}
    (h : Covered user st now c P) (hst : StoreValid st) (hj : JoinedAt code userId st st')
    (hnew : c = code → P userId ∨ st.isBusy c userId) : Covered user st' now c P := by
  intro r' hr'
  obtain ⟨r, hr, hhost⟩ : ∃ r, st.rooms c = some r ∧ r'.hostId = r.hostId := by
    by_cases hc : c = code
    · subst hc
      obtain ⟨r, r₂, hr, hr₂, hj, -⟩ := hj.here
      cases hr₂.symm.trans hr'
      exact ⟨r, hr, hj.host⟩
    · exact ⟨r', (hj.elsewhere c hc).symm.trans hr', rfl⟩
  refine ⟨hhost.trans (h r hr).1, fun id hid => ?_⟩
  by_contra hP
  refine hP ((h r hr).2 id (hj.eligible (hst.code hr) hr hr' hid fun hc heq => ?_).2)
  have hfree := hid.free
  rw [(hj.storeValid hst).code hr', hj.busy, heq, (hnew hc).resolve_left (heq ▸ hP)] at hfree
  cases hfree

/-! ## The invariant -/

/-- The swap writes the change of the room that was loaded, and a stored room with the same version is the
loaded one. -/
structure Fresh (user : UserId) (st : Store) (code : String) (change : LeaveChange) (loaded after : Room)
    (surprise : Option UserId) : Prop where
  change : ∃ r, change.apply user loaded = .ok (r, surprise) ∧ after = { r with version := loaded.version + 1 }
  version : ∀ {r}, st.rooms code = some r → loaded.version ≤ r.version
  same : ∀ {r}, st.rooms code = some r → r.version = loaded.version → r = loaded

def PcValid (user : UserId) (st : Store) (now : Int) : LeavePc → Prop
  | .candidates room _ => Covered user st now room.code fun id => id ∈ room.memberIds
  | .checking room online free _ =>
    (∀ id ∈ free, id ∈ room.memberIds ∧ id ≠ user) ∧
      (found user st room online free = [] → Covered user st now room.code fun _ => False)
  | .endLoad code => Covered user st now code fun _ => False
  | .endForget room => Covered user st now room.code fun _ => False
  | .casSwap code change loaded after surprise _ _ => Fresh user st code change loaded after surprise
  | _ => True

/-- The stored rooms are valid, and so is what the leave relies on. -/
structure WorldValid (user : UserId) (w : World) : Prop where
  store : StoreValid w.store
  pc : PcValid user w.store w.clock w.pc

theorem PcValid.tick (h : PcValid user st now pc) (ms : Nat) : PcValid user st (now + ms) pc := by
  cases pc with
  | candidates room left => exact Covered.tick h ms
  | checking room online free left => exact ⟨h.1, fun hfree => (h.2 hfree).tick ms⟩
  | endLoad code | endForget room => exact Covered.tick h ms
  | _ => exact h

theorem PcValid.join (h : PcValid user st now pc) (hst : StoreValid st) (hj : JoinedAt code userId st st')
    (hnew : ∀ known, ending user st pc = some (code, known) → userId ∈ known ∨ st.isBusy code userId) :
    PcValid user st' now pc := by
  -- where nobody is to be found any more, the join is that of a busy user
  have hat : ∀ c, ending user st pc = some (c, []) → c = code → False ∨ st.isBusy c userId := by
    rintro c hc rfl
    exact (hnew [] hc).imp_left not_mem_nil
  cases pc with
  | candidates room left =>
    refine Covered.join h hst hj ?_
    rintro rfl
    exact hnew _ rfl
  | checking room online free left =>
    have hfound : found user st' room online free = found user st room online free := by simp only [found, hj.busy]
    refine ⟨h.1, fun hempty => ?_⟩
    rw [hfound] at hempty
    exact (h.2 hempty).join hst hj (hat _ (if_pos hempty))
  | endLoad code | endForget room => exact Covered.join h hst hj (hat _ rfl)
  | casSwap c change loaded after surprise tries left =>
    by_cases hc : c = code
    · -- the version of the joined room is a later one
      subst hc
      obtain ⟨r, r', hr, hr', -, hv⟩ := hj.here
      have hle := h.version hr
      refine ⟨h.change, fun h₁ => ?_, fun h₁ heq => ?_⟩ <;> cases hr'.symm.trans h₁ <;> omega
    · refine ⟨h.change, fun h₁ => h.version ?_, fun h₁ => h.same ?_⟩ <;> rwa [← hj.elsewhere c hc]
  | _ => exact trivial

/-! ## Steps of the leave -/

theorem remove_keeps (hid : id ∈ r.memberIds) (hne : id ≠ user) :
    id ∈ (r.remove user).memberIds := mem_remove.2 ⟨hid, hne⟩

theorem handOff_keeps {next : UserId} (h : r.handOff leaving candidates = some (r', next)) :
    r'.code = r.code ∧ ∀ id ∈ r.memberIds, id ≠ leaving → id ∈ r'.memberIds := by
  rw [Room.handOff] at h
  split at h
  · cases h
  simp only [Option.some.injEq, Prod.mk.injEq] at h
  obtain ⟨rfl, rfl⟩ := h
  refine ⟨?_, fun id hid hne => ?_⟩
  · rw [Room.dropImageBackdrop]
    split <;> rfl
  · rw [(dropImageBackdrop_same _).members]
    exact remove_keeps hid hne

/-- Nobody but the user left the room. -/
structure Departed (user : UserId) (r r' : Room) : Prop where
  valid : RoomValid r'
  code : r'.code = r.code
  others : ∀ id ∈ r.memberIds, id ≠ user → id ∈ r'.memberIds

theorem Departed.same {r'' : Room} (h : Departed user r r') (hs : SameLists r' r'') (hcode : r''.code = r'.code) :
    Departed user r r'' :=
  ⟨hs.valid h.valid, hcode.trans h.code, fun id hid hne => hs.members ▸ h.others id hid hne⟩

theorem change_departed (hr : RoomValid r) (h : change.apply user r = .ok (r', surprise)) : Departed user r r' := by
  have hremove : user ≠ r.hostId → Departed user r (r.remove user) := fun hne =>
    ⟨remove_valid hr hne, rfl, fun id hid hid' => remove_keeps hid hid'⟩
  cases change with
  | depart =>
    rw [LeaveChange.apply] at h
    split_ifs at h with hhost
    cases h
    exact hremove fun heq => hhost (by simp [Room.isHost, heq])
  | handOff candidates expected perks =>
    rw [LeaveChange.apply] at h
    split at h
    · rename_i hhost
      cases h
      exact hremove fun heq => by simp [Room.isHost, heq] at hhost
    · split at h
      · cases h
      rename_i r₁ next hoff
      have hkeeps := handOff_keeps hoff
      have hd : Departed user r r₁ := ⟨(handOff_valid hr hoff).1, hkeeps.1, hkeeps.2⟩
      split at h <;> cases h <;> exact hd.same ⟨rfl, rfl, rfl, rfl, rfl⟩ rfl
  | settlePerks host perks after =>
    have hself : Departed user r r := ⟨hr, rfl, fun _ hid _ => hid⟩
    cases h
    split
    · exact hself.same ⟨rfl, rfl, rfl, rfl, rfl⟩ rfl
    · exact hself

/-- The rooms after a step of the leave: the same, one swapped for its change, or one that has no
successor deleted. -/
inductive RoomsStep (user : UserId) (st : Store) (now : Int) (rooms : String → Option Room) : Prop
  | same (h : rooms = st.rooms)
  | swap (code : String) (r r' : Room) (hr : st.rooms code = some r) (hd : Departed user r r')
      (h : rooms = update st.rooms code (some r'))
  | delete (code : String) (hnone : Covered user st now code fun _ => False)
      (h : rooms = update st.rooms code none)

theorem StoreValid.update {room : Option Room} (hst : StoreValid st)
    (hrooms : st'.rooms = update st.rooms code room) (hroom : ∀ r ∈ room, r.code = code ∧ RoomValid r) :
    StoreValid st' := by
  have hall : ∀ {c r}, st'.rooms c = some r → r.code = c ∧ RoomValid r := by
    intro c r hr
    rw [hrooms] at hr
    by_cases hc : c = code
    · subst hc
      rw [update_self] at hr
      exact hroom r hr
    · rw [update_of_ne hc] at hr
      exact ⟨hst.code hr, hst.valid hr⟩
  exact ⟨fun hr => (hall hr).1, fun hr => (hall hr).2⟩

theorem RoomsStep.storeValid (h : RoomsStep user st now st'.rooms) (hst : StoreValid st) : StoreValid st' := by
  cases h with
  | same h => exact ⟨fun hr => hst.code (h ▸ hr), fun hr => hst.valid (h ▸ hr)⟩
  | swap code r r' hr hd h =>
    refine hst.update h ?_
    rintro r₁ ⟨⟩
    exact ⟨hd.code.trans (hst.code hr), hd.valid⟩
  | delete code hnone h => exact hst.update h fun r hr => nomatch hr

theorem RoomsStep.keepsOthers (h : RoomsStep user w.store w.clock w'.store.rooms) : KeepsOthers user w w' := by
  intro c other hne hin hnot
  obtain ⟨r, hr, hmem⟩ := hin
  cases h with
  | same h => exact ⟨r, h ▸ hr, hmem⟩
  | swap code r₁ r₂ hr₁ hd h =>
    by_cases hc : c = code
    · subst hc
      cases hr₁.symm.trans hr
      exact ⟨r₂, by rw [h, update_self], hd.others other hmem hne⟩
    · exact ⟨r, by rw [h, update_of_ne hc, hr], hmem⟩
  | delete code hnone h =>
    by_cases hc : c = code
    · subst hc
      exact absurd (hnone.lacksSuccessor ⟨r, hr, hmem⟩) hnot
    · exact ⟨r, by rw [h, update_of_ne hc, hr], hmem⟩

theorem failed_valid {error : AppError} : PcValid user st now (.failed code change error left) := by
  unfold LeavePc.failed
  split
  · trivial
  · split <;> trivial

theorem swapped_valid {loaded after : Room} :
    PcValid user st now (.swapped starPerks user code change loaded after surprise left) := by
  unfold LeavePc.swapped
  split
  · split <;> trivial
  all_goals trivial

theorem covered_of_alone (hst : StoreValid st) (hr : st.rooms code = some r)
    (hmember : user ∈ r.memberIds) (hone : r.members.length = 1) : Covered user st now code fun _ => False := by
  obtain ⟨m, hm⟩ := length_eq_one_iff.1 hone
  have hids : ∀ id ∈ r.memberIds, id = m.userId := by simp [Room.memberIds, hm]
  have hhost := (hids _ (hst.valid hr).host_member).trans (hids _ hmember).symm
  intro r₁ h₁
  cases hr.symm.trans h₁
  exact ⟨hhost, fun id hid => hid.other ((hids _ hid.member).trans (hids _ hmember).symm)⟩

theorem attempt_valid (hst : StoreValid st)
    (h : leaveStep starPerks user now st (.attempt code (left + 1)) = some (st', pc)) :
    st' = st ∧ PcValid user st now pc := by
  rw [leaveStep] at h
  split at h
  · cases h
    exact ⟨rfl, trivial⟩
  · rename_i r hr
    split at h
    · cases h
      exact ⟨rfl, trivial⟩
    · rename_i hmember
      have hmember : user ∈ r.memberIds := by simpa [Room.isMember] using hmember
      split at h
      · rename_i hone
        cases h
        exact ⟨rfl, covered_of_alone hst hr hmember hone⟩
      · split at h
        · rename_i hhost
          cases h
          refine ⟨rfl, fun r₁ h₁ => ?_⟩
          rw [hst.code hr] at h₁
          cases hr.symm.trans h₁
          exact ⟨of_decide_eq_true hhost, fun id hid => hid.member⟩
        · cases h
          exact ⟨rfl, trivial⟩

theorem found_cons (user : UserId) (st : Store) (room : Room) (u : UserId) (online free : List UserId) :
    found user st room (u :: online) free =
      if u ≠ user ∧ room.isMember u ∧ !st.isBusy room.code u then found user st room online (free ++ [u])
      else found user st room online free := by
  simp only [found, filter_cons, decide_eq_true_eq]
  split
  · rw [append_assoc, singleton_append]
  · rfl

theorem checking_valid {room : Room} {free : List UserId}
    (hpc : PcValid user st now (.checking room online free left))
    (h : leaveStep starPerks user now st (.checking room online free left) = some (st', pc)) :
    st' = st ∧ PcValid user st now pc := by
  obtain ⟨hfree, hcover⟩ := hpc
  cases online with
  | nil =>
    rw [leaveStep] at h
    split at h
    · rename_i hnone
      cases h
      have hempty : free = [] := by
        cases free with
        | nil => rfl
        | cons id free =>
          have hid := hfree id (mem_cons_self ..)
          exact absurd (mem_cons_self ..) (nextHost_eq_none hnone id hid.1 hid.2)
      exact ⟨rfl, hcover (by rw [hempty]; rfl)⟩
    · cases h
      exact ⟨rfl, trivial⟩
  | cons u online =>
    rw [leaveStep] at h
    rw [found_cons] at hcover
    split at h
    · rename_i hskip
      cases h
      rw [if_neg fun hmay => hskip.elim hmay.1 fun hout => by simp [hmay.2.1] at hout] at hcover
      exact ⟨rfl, hfree, hcover⟩
    · rename_i hmay
      have hmay : u ≠ user ∧ room.isMember u = true := by simpa using hmay
      split at h
      · rename_i hbusy
        cases h
        rw [if_neg fun hok => by simp [hbusy] at hok] at hcover
        exact ⟨rfl, hfree, hcover⟩
      · rename_i hbusy
        cases h
        rw [if_pos ⟨hmay.1, hmay.2, by simpa using hbusy⟩] at hcover
        refine ⟨rfl, fun id hid => ?_, hcover⟩
        rcases mem_append.1 hid with hid | hid
        · exact hfree id hid
        · rw [mem_singleton.1 hid]
          exact ⟨of_decide_eq_true hmay.2, hmay.1⟩

theorem leaveStep_valid {pc' : LeavePc} (hst : StoreValid st) (hpc : PcValid user st now pc)
    (h : leaveStep starPerks user now st pc = some (st', pc')) :
    PcValid user st' now pc' ∧ RoomsStep user st now st'.rooms := by
  have hread : st' = st ∧ PcValid user st now pc' → PcValid user st' now pc' ∧ RoomsStep user st now st'.rooms := by
    rintro ⟨rfl, hpc'⟩
    exact ⟨hpc', .same rfl⟩
  cases pc with
  | resolve code =>
    rw [leaveStep] at h
    split at h <;> cases h <;> exact hread ⟨rfl, trivial⟩
  | attempt code left =>
    cases left with
    | zero =>
      cases h
      exact hread ⟨rfl, trivial⟩
    | succ left => exact hread (attempt_valid hst h)
  | candidates room left =>
    cases h
    refine hread ⟨rfl, fun id hid => absurd hid not_mem_nil, fun hempty r hr => ?_⟩
    obtain ⟨hhost, hall⟩ := hpc r hr
    refine ⟨hhost, fun id hid => not_mem_nil (a := id) ?_⟩
    rw [← hempty]
    exact mem_hostCandidates.2 ⟨hall id hid, hid.other, hst.code hr ▸ hid.online, hst.code hr ▸ hid.free⟩
  | checking room online free left => exact hread (checking_valid hpc h)
  | endLoad code =>
    rw [leaveStep] at h
    split at h
    · cases h
      exact hread ⟨rfl, trivial⟩
    · rename_i r hr
      cases h
      refine hread ⟨rfl, ?_⟩
      rw [PcValid, hst.code hr]
      exact hpc
  | endForget room =>
    cases h
    exact ⟨trivial, .delete room.code hpc rfl⟩
  | endClose room =>
    cases h
    refine ⟨trivial, .same ?_⟩
    rw [Store.releaseHost]
    split <;> rfl
  | casLoad code change tries left =>
    cases tries with
    | zero =>
      cases h
      exact hread ⟨rfl, failed_valid⟩
    | succ tries =>
      rw [leaveStep] at h
      split at h
      · cases h
        exact hread ⟨rfl, failed_valid⟩
      · rename_i r hr
        split at h
        · cases h
          exact hread ⟨rfl, failed_valid⟩
        · rename_i after surprise hchange
          cases h
          refine hread ⟨rfl, ⟨after, hchange, rfl⟩, fun h₁ => ?_, fun h₁ _ => ?_⟩ <;> cases hr.symm.trans h₁
          · exact Nat.le_refl _
          · rfl
  | casSwap code change loaded after surprise tries left =>
    rw [leaveStep] at h
    split at h
    · rename_i st₁ hswap
      cases h
      refine ⟨swapped_valid, ?_⟩
      rw [Store.swap] at hswap
      split_ifs at hswap with hversion
      cases hswap
      obtain ⟨r, hr, hv⟩ := Option.map_eq_some_iff.1 hversion
      cases hpc.same hr hv
      obtain ⟨r', hchange, rfl⟩ := hpc.change
      have hd : Departed user loaded { r' with version := loaded.version + 1 } :=
        (change_departed (hst.valid hr) hchange).same ⟨rfl, rfl, rfl, rfl, rfl⟩ rfl
      exact .swap code loaded _ hr hd rfl
    · cases h
      exact hread ⟨rfl, trivial⟩
  | departed code =>
    cases h
    exact ⟨trivial, .same rfl⟩
  | tidy after =>
    cases h
    refine ⟨trivial, .same ?_⟩
    rw [Store.releaseHost]
    split <;> rfl
  | done outcome => cases h

/-! ## Runs -/

theorem worldStep_valid {a : Action} (hw : WorldValid user w) (ha : NoSuccessorJoins user w a)
    (h : worldStep starPerks user w a = some w') : WorldValid user w' := by
  cases a with
  | leave =>
    obtain ⟨⟨st, pc⟩, hstep, rfl⟩ := Option.map_eq_some_iff.1 h
    obtain ⟨hpc, hrooms⟩ := leaveStep_valid hw.store hw.pc hstep
    exact ⟨hrooms.storeValid hw.store, hpc⟩
  | join code req =>
    rw [worldStep] at h
    split_ifs at h
    split at h
    · rename_i st hin
      cases h
      have hj := admit_joinedAt hin
      exact ⟨hj.storeValid hw.store, hw.pc.join hw.store hj fun known hc => ha known hc (by rw [hin]; rfl)⟩
    · cases h
      exact hw
  | tick ms =>
    cases h
    exact ⟨hw.store, hw.pc.tick ms⟩

/-- As long as nobody who could take the room over gets into it unseen once the leave is to end it, no step of the
leave takes anybody else out of a room that has a successor or another host. -/
theorem leave_keeps_others (starPerks : UserId → Perks) (user : UserId) (code : String) (st : Store) (now : Int)
    (hst : StoreValid st) (acts : List Action) (w w' : World)
    (hrun : run (worldStep starPerks user) ⟨st, now, .resolve code⟩ acts = some w)
    (hmeets : Meets (worldStep starPerks user) (NoSuccessorJoins user) ⟨st, now, .resolve code⟩ acts)
    (hstep : worldStep starPerks user w .leave = some w') : KeepsOthers user w w' := by
  have hstart : WorldValid user ⟨st, now, .resolve code⟩ := ⟨hst, trivial⟩
  have hw : WorldValid user w := run_invariant_of_meets worldStep_valid hstart hmeets hrun
  obtain ⟨⟨st, pc⟩, hleave, rfl⟩ := Option.map_eq_some_iff.1 hstep
  exact (leaveStep_valid hw.store hw.pc hleave).2.keepsOthers

/-- The host `1` leaves to `2`, and `3` joins before the swap, which is tried again. -/
def joinIntoTheSwap : List Action :=
  [.join "R" ⟨"2", ⟨"", none⟩, false, false, 0⟩, .leave, .leave, .leave, .leave, .leave, .leave, .leave,
    .join "R" ⟨"3", ⟨"", none⟩, false, false, 0⟩, .leave, .leave]

theorem aloneInRoom_valid : StoreValid aloneInRoom.store := by
  have hroom : ∀ {c r}, aloneInRoom.store.rooms c = some r →
      c = "R" ∧ r = Room.new "R" (Member.new "1" ⟨"", none⟩ 0) false 0 0 := by
    intro c r hr
    simp only [aloneInRoom] at hr
    split_ifs at hr with hc
    exact ⟨hc, (Option.some.inj hr).symm⟩
  refine ⟨fun hr => ?_, fun hr => ?_⟩ <;> obtain ⟨rfl, rfl⟩ := hroom hr
  · rfl
  · exact new_valid ..

theorem leave_keeps_others_swap :
    ∃ w w', run (worldStep (fun _ => .free) "1") aloneInRoom joinIntoTheSwap = some w ∧
      worldStep (fun _ => .free) "1" w .leave = some w' ∧
      (w'.store.rooms "R").map Room.memberIds = some ["2", "3"] ∧ KeepsOthers "1" w w' := by
  refine ⟨_, _, rfl, rfl, by decide, ?_⟩
  refine leave_keeps_others (fun _ => .free) "1" "R" aloneInRoom.store 0 aloneInRoom_valid joinIntoTheSwap _ _ rfl ?_ rfl
  -- neither join finds the leave on its way to the end of the room
  refine meets_cons rfl nofun ?_
  iterate 7 refine meets_cons rfl trivial ?_
  refine meets_cons rfl nofun ?_
  iterate 2 refine meets_cons rfl trivial ?_
  exact meets_nil _

end SC.Proof.Rooms
