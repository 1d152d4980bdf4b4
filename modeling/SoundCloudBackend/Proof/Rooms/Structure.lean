import Mathlib.Data.List.Nodup
import SoundCloudBackend.Framework.Run
import SoundCloudBackend.Impl.Rooms.Operations

/-!
# The structure of a room

Twelve operations change the lists of a room. `RoomValid` says how the lists fit
together: the host is a member, moderators are members and not the host, nobody
inside is banned, the host is not muted. Each operation that succeeds keeps it
(`change_valid`), and only a join lets a room grow, up to the capacity of that
moment; `room_lists_valid` says so of every run.
-/

namespace SC.Proof.Rooms

open Impl Impl.Rooms
open List Bool

variable {r r' : Room} {artworkUrl : String → Option String}
variable {user actor target : UserId}
variable {α : Type} {cooldown : Option Int} {m : Member} {banned candidates : List UserId} {muted : List Mute}
variable {leaving next : UserId} {op : RoomOp}

/-- A room keeps its host, its members distinct and its moderators and bans apart from them. -/
structure RoomValid (r : Room) : Prop where
  host_member : r.hostId ∈ r.memberIds
  members_distinct : r.memberIds.Nodup
  moderators_distinct : r.moderators.Nodup
  moderators_members : ∀ id ∈ r.moderators, id ∈ r.memberIds
  host_not_moderator : r.hostId ∉ r.moderators
  none_banned : ∀ id ∈ r.memberIds, id ∉ r.banned
  banned_distinct : r.banned.Nodup
  banned_bounded : r.banned.length ≤ maxBanned
  host_not_muted : r.hostId ∉ r.muted.map Mute.userId
  muted_distinct : (r.muted.map Mute.userId).Nodup

theorem new_valid (code : String) (host : Member) (isPublic : Bool) (now : Int) (id : BitVec 128) :
    RoomValid (Room.new code host isPublic now id) where
  host_member := mem_singleton.2 rfl
  members_distinct := nodup_singleton _
  moderators_distinct := nodup_nil
  moderators_members := by simp [Room.new]
  host_not_moderator := by simp [Room.new]
  none_banned := by simp [Room.new]
  banned_distinct := nodup_nil
  banned_bounded := Nat.zero_le _
  host_not_muted := by simp [Room.new]
  muted_distinct := nodup_nil

/-! ## Operations that leave the lists alone -/

/-- The host, the member ids and the three lists are the same. -/
structure SameLists (r r' : Room) : Prop where
  host : r'.hostId = r.hostId
  members : r'.memberIds = r.memberIds
  moderators : r'.moderators = r.moderators
  banned : r'.banned = r.banned
  muted : r'.muted = r.muted

theorem SameLists.refl (r : Room) : SameLists r r := ⟨rfl, rfl, rfl, rfl, rfl⟩

theorem SameLists.trans {r'' : Room} (h : SameLists r r') (h' : SameLists r' r'') : SameLists r r'' :=
  ⟨h'.host.trans h.host, h'.members.trans h.members, h'.moderators.trans h.moderators, h'.banned.trans h.banned,
    h'.muted.trans h.muted⟩

theorem SameLists.valid (h : SameLists r r') (hr : RoomValid r) : RoomValid r' where
  host_member := by rw [h.host, h.members]; exact hr.host_member
  members_distinct := by rw [h.members]; exact hr.members_distinct
  moderators_distinct := by rw [h.moderators]; exact hr.moderators_distinct
  moderators_members := by rw [h.moderators, h.members]; exact hr.moderators_members
  host_not_moderator := by rw [h.host, h.moderators]; exact hr.host_not_moderator
  none_banned := by rw [h.members, h.banned]; exact hr.none_banned
  banned_distinct := by rw [h.banned]; exact hr.banned_distinct
  banned_bounded := by rw [h.banned]; exact hr.banned_bounded
  host_not_muted := by rw [h.host, h.muted]; exact hr.host_not_muted
  muted_distinct := by rw [h.muted]; exact hr.muted_distinct

theorem SameLists.length (h : SameLists r r') : r'.members.length = r.members.length := by
  have := congrArg List.length h.members
  simpa [Room.memberIds] using this

theorem map_modifyFirst {β : Type} (p : α → Bool) {f : α → α} {g : α → β} (l : List α)
    (hg : ∀ a, g (f a) = g a) : (modifyFirst p f l).map g = l.map g := by
  induction l with
  | nil => rfl
  | cons x l ih =>
    rw [modifyFirst]
    split
    · simp [hg]
    · simp [ih]

theorem setPublic_same {b : Bool} (h : r.setPublic user b = .ok r') : SameLists r r' := by
  rw [Room.setPublic] at h
  split_ifs at h
  cases h
  exact ⟨rfl, rfl, rfl, rfl, rfl⟩

theorem patchCover_same {patch : Option (Option Cover)} (h : r.patchCover artworkUrl patch = .ok r') :
    SameLists r r' := by
  rcases patch with _ | _ | cover
  · cases h
    exact ⟨rfl, rfl, rfl, rfl, rfl⟩
  · cases h
    exact ⟨rfl, rfl, rfl, rfl, rfl⟩
  · rw [Room.patchCover] at h
    split at h <;> cases h
    exact ⟨rfl, rfl, rfl, rfl, rfl⟩

theorem patchImages_same {policy : Option RoomImages} (h : r.patchImages policy = .ok r') : SameLists r r' := by
  cases policy with
  | none =>
    cases h
    exact ⟨rfl, rfl, rfl, rfl, rfl⟩
  | some policy =>
    rw [Room.patchImages] at h
    split at h <;> cases h
    exact ⟨rfl, rfl, rfl, rfl, rfl⟩

theorem patchBackdrop_same {patch : Option (Option Backdrop)}
    (h : r.patchBackdrop cooldown patch = .ok r') : SameLists r r' := by
  rcases patch with _ | _ | backdrop
  · cases h
    exact ⟨rfl, rfl, rfl, rfl, rfl⟩
  · cases h
    exact ⟨rfl, rfl, rfl, rfl, rfl⟩
  · simp only [Room.patchBackdrop] at h
    split_ifs at h
    cases backdrop <;> cases cooldown <;> cases h <;> exact ⟨rfl, rfl, rfl, rfl, rfl⟩

theorem applySettings_same {patch : SettingsPatch}
    (h : r.applySettings artworkUrl actor patch cooldown = .ok r') : SameLists r r' := by
  rw [Room.applySettings] at h
  split at h
  · cases h
  split_ifs at h
  obtain ⟨r₁, h₁, h⟩ := bind_eq_ok h
  obtain ⟨r₂, h₂, h⟩ := bind_eq_ok h
  obtain ⟨r₃, h₃, h⟩ := bind_eq_ok h
  have h₄ : SameLists r₃ r' := by
    cases h
    exact ⟨rfl, rfl, rfl, rfl, rfl⟩
  exact (patchCover_same h₁).trans ((patchImages_same h₂).trans ((patchBackdrop_same h₃).trans h₄))

theorem setPlayback_same {update : PlaybackUpdate} {now : Int}
    (h : r.setPlayback user update now = .ok r') : SameLists r r' := by
  rw [Room.setPlayback] at h
  split_ifs at h
  obtain ⟨urn, -, h⟩ := bind_eq_ok h
  split_ifs at h
  obtain ⟨-, -, h⟩ := bind_eq_ok h
  obtain ⟨-, -, h⟩ := bind_eq_ok h
  cases h
  exact ⟨rfl, rfl, rfl, rfl, rfl⟩

theorem markReady_same {urn : String} (h : r.markReady user urn = .ok r') : SameLists r r' := by
  rw [Room.markReady] at h
  obtain ⟨urn', -, h⟩ := bind_eq_ok h
  split_ifs at h
  cases h
  exact ⟨rfl, map_modifyFirst _ r.members fun _ => rfl, rfl, rfl, rfl⟩

/-! ## Members leaving and joining -/

theorem memberIds_filter (p : Member → Bool) :
    ({ r with members := r.members.filter p } : Room).memberIds.Sublist r.memberIds :=
  filter_sublist.map _

theorem nodup_push {l : List α} {a : α} (hl : l.Nodup) (ha : a ∉ l) : (l ++ [a]).Nodup := by
  rw [← concat_eq_append]
  exact hl.concat ha

theorem filterMembers_valid {p : Member → Bool} (hr : RoomValid r) (hhost : ∀ m, m.userId = r.hostId → p m) :
    RoomValid (Room.keepMembersOnly { r with members := r.members.filter p }) := by
  have hsub : ∀ id ∈ (r.members.filter p).map Member.userId, id ∈ r.memberIds := fun id hid =>
    (memberIds_filter p).subset hid
  have hstay : r.hostId ∈ (r.members.filter p).map Member.userId := by
    obtain ⟨m, hm, hid⟩ := mem_map.1 hr.host_member
    exact mem_map.2 ⟨m, mem_filter.2 ⟨hm, hhost m hid⟩, hid⟩
  exact
    { host_member := hstay
      members_distinct := hr.members_distinct.sublist (memberIds_filter p)
      moderators_distinct := hr.moderators_distinct.filter _
      moderators_members := fun id hid => of_decide_eq_true (mem_filter.1 hid).2
      host_not_moderator := fun h => hr.host_not_moderator (mem_of_mem_filter h)
      none_banned := fun id hid => hr.none_banned id (hsub id hid)
      banned_distinct := hr.banned_distinct
      banned_bounded := hr.banned_bounded
      host_not_muted := hr.host_not_muted
      muted_distinct := hr.muted_distinct }

theorem remove_valid (hr : RoomValid r) (hne : user ≠ r.hostId) : RoomValid (r.remove user) :=
  filterMembers_valid hr fun m hm => by simpa [hm] using Ne.symm hne

theorem dropAbsent_valid (hr : RoomValid r) (online : List UserId) (joinedAfter : Int) :
    RoomValid (r.dropAbsent online joinedAfter) :=
  filterMembers_valid hr fun m hm => by simp [hm]

theorem remove_length_le (r : Room) (user : UserId) : (r.remove user).members.length ≤ r.members.length :=
  length_filter_le ..

theorem mem_remove {id : UserId} : id ∈ (r.remove user).memberIds ↔ id ∈ r.memberIds ∧ id ≠ user := by
  simp only [Room.remove, Room.keepMembersOnly, Room.memberIds, mem_map, mem_filter, ne_eq,
    decide_not, not_eq_true', decide_eq_false_iff_not]
  constructor
  · rintro ⟨m, ⟨hm, hne⟩, rfl⟩
    exact ⟨⟨m, hm, rfl⟩, hne⟩
  · rintro ⟨⟨m, hm, rfl⟩, hne⟩
    exact ⟨m, ⟨hm, hne⟩, rfl⟩

/-- A join changes a profile, or lets somebody in who is not banned while there is room. -/
theorem join_cases (h : r.join m = .ok r') :
    (SameLists r r' ∧ r'.code = r.code) ∨ (m.userId ∉ r.memberIds ∧ m.userId ∉ r.banned ∧
      r.members.length < r.capacity ∧ r' = { r with members := r.members ++ [m] }) := by
  rw [Room.join] at h
  split at h
  · cases h
    exact .inl ⟨⟨rfl, map_modifyFirst _ r.members fun _ => rfl, rfl, rfl, rfl⟩, rfl⟩
  · rename_i hmember
    split at h
    · cases h
    rename_i hbanned
    split_ifs at h with hfull
    cases h
    refine .inr ⟨by simpa [Room.isMember] using hmember, by simpa [Room.isBanned] using hbanned, ?_, rfl⟩
    simpa [Room.isFull] using hfull

theorem join_valid (hr : RoomValid r) (h : r.join m = .ok r') : RoomValid r' := by
  rcases join_cases h with ⟨hsame, -⟩ | ⟨hnew, hfree, -, rfl⟩
  · exact hsame.valid hr
  · have hids : ({ r with members := r.members ++ [m] } : Room).memberIds = r.memberIds ++ [m.userId] := by
      simp [Room.memberIds]
    exact
      { hr with
        host_member := hids ▸ mem_append_left _ hr.host_member
        members_distinct := by
          rw [hids]
          exact nodup_push hr.members_distinct hnew
        moderators_members := fun id hid => hids ▸ mem_append_left _ (hr.moderators_members id hid)
        none_banned := by
          rw [hids]
          intro id hid
          rcases mem_append.1 hid with hid | hid
          · exact hr.none_banned id hid
          · rw [mem_singleton.1 hid]
            exact hfree }

/-! ## Moderation -/

theorem mayActOn_ne_host {u : Unit} (h : r.mayActOn actor target = .ok u) : target ≠ r.hostId := by
  rw [Room.mayActOn] at h
  split_ifs at h with hnot
  rintro rfl
  simp [Room.isHost] at hnot

theorem kick_valid (hr : RoomValid r) (h : r.kick actor target = .ok r') :
    RoomValid r' ∧ r'.members.length ≤ r.members.length := by
  rw [Room.kick] at h
  obtain ⟨u, hmay, h⟩ := bind_eq_ok h
  split_ifs at h
  cases h
  exact ⟨remove_valid hr (mayActOn_ne_host hmay), remove_length_le r target⟩

theorem trimFront_sublist (l : List α) (n : Nat) : (trimFront l n).Sublist l :=
  drop_sublist _ _

theorem trimFront_length_le (l : List α) (n : Nat) : (trimFront l n).length ≤ n := by
  rw [trimFront, length_drop]
  omega

theorem setBanned_valid (hr : RoomValid r) (hnone : ∀ id ∈ r.memberIds, id ∉ banned)
    (hdistinct : banned.Nodup) (hbounded : banned.length ≤ maxBanned) : RoomValid { r with banned := banned } :=
  { hr with none_banned := hnone, banned_distinct := hdistinct, banned_bounded := hbounded }

theorem setMuted_valid (hr : RoomValid r) (hhost : r.hostId ∉ muted.map Mute.userId)
    (hdistinct : (muted.map Mute.userId).Nodup) : RoomValid { r with muted := muted } :=
  { hr with host_not_muted := hhost, muted_distinct := hdistinct }

theorem setModerators_valid {moderators : List UserId} (hr : RoomValid r) (hdistinct : moderators.Nodup)
    (hmembers : ∀ id ∈ moderators, id ∈ r.memberIds) (hhost : r.hostId ∉ moderators) :
    RoomValid { r with moderators := moderators } :=
  { hr with moderators_distinct := hdistinct, moderators_members := hmembers, host_not_moderator := hhost }

/-- Somebody who is not inside goes on the list of the banned, and the oldest entries give way. -/
theorem pushBanned_valid (hr : RoomValid r) (hout : target ∉ r.memberIds)
    (hbanned : banned = if r.isBanned target then r.banned else r.banned ++ [target]) :
    RoomValid { r with banned := trimFront banned maxBanned } := by
  have hmem : ∀ id ∈ banned, id ∈ r.banned ∨ id = target := by
    intro id hid
    rw [hbanned] at hid
    split at hid
    · exact .inl hid
    · simpa using hid
  have hdistinct : banned.Nodup := by
    rw [hbanned]
    split
    · exact hr.banned_distinct
    · rename_i hnot
      exact nodup_push hr.banned_distinct (by simpa [Room.isBanned] using hnot)
  refine setBanned_valid hr (fun id hid hin => ?_) (hdistinct.sublist (trimFront_sublist _ _))
    (trimFront_length_le banned maxBanned)
  rcases hmem id ((trimFront_sublist _ _).subset hin) with hold | rfl
  · exact hr.none_banned id hid hold
  · exact hout hid

theorem ban_valid (hr : RoomValid r) (h : r.ban actor target = .ok r') :
    RoomValid r' ∧ r'.members.length ≤ r.members.length := by
  simp only [Room.ban] at h
  split at h
  · cases h
  rename_i hhost
  split at h
  · cases h
  rename_i hself
  split at h
  · cases h
  cases h
  have hne : target ≠ r.hostId := by
    have hactor : r.hostId = actor := by simpa only [Room.isHost, not_eq_true', not_eq_false,
      decide_eq_false_iff_not, Decidable.not_not] using hhost
    rintro rfl
    exact hself hactor.symm
  have hout : target ∉ (r.remove target).memberIds := fun h => (mem_remove.1 h).2 rfl
  exact ⟨pushBanned_valid (remove_valid hr hne) hout rfl, remove_length_le r target⟩

/-- The entry of a target that is not the host is replaced, and the oldest entries give way. -/
theorem pushMuted_valid {p : Mute → Bool} {entry : List Mute} (hr : RoomValid r)
    (hne : target ≠ r.hostId) (hp : ∀ m, p m → m.userId ≠ target)
    (hentry : entry.map Mute.userId = [] ∨ entry.map Mute.userId = [target])
    (hmuted : muted = r.muted.filter p ++ entry) : RoomValid { r with muted := trimFront muted maxMuted } := by
  have hold : ((r.muted.filter p).map Mute.userId).Sublist (r.muted.map Mute.userId) := filter_sublist.map _
  have hnot : target ∉ (r.muted.filter p).map Mute.userId := by
    intro h
    obtain ⟨m, hm, hid⟩ := mem_map.1 h
    exact hp m (mem_filter.1 hm).2 hid
  have hnew : (entry.map Mute.userId).Sublist [target] := by
    rcases hentry with h | h <;> simp [h]
  have hall : (muted.map Mute.userId).Sublist ((r.muted.filter p).map Mute.userId ++ [target]) := by
    rw [hmuted, map_append]
    exact (List.Sublist.refl _).append hnew
  have hleft := ((trimFront_sublist muted maxMuted).map Mute.userId).trans hall
  refine setMuted_valid hr (fun h => ?_) (List.Nodup.sublist hleft ?_)
  · rcases mem_append.1 (hleft.subset h) with h | h
    · exact hr.host_not_muted (hold.subset h)
    · exact hne (mem_singleton.1 h).symm
  · exact nodup_push (hr.muted_distinct.sublist hold) hnot

theorem mute_valid {seconds : Nat} {now : Int} (hr : RoomValid r) (h : r.mute actor target seconds now = .ok r') :
    RoomValid r' ∧ r'.members.length ≤ r.members.length := by
  simp only [Room.mute] at h
  obtain ⟨u, hmay, h⟩ := bind_eq_ok h
  split at h
  · cases h
  cases h
  have hp : ∀ m : Mute, decide (m.untilMs > now ∧ m.userId ≠ target) → m.userId ≠ target := fun m hm =>
    (of_decide_eq_true hm).2
  refine ⟨?_, Nat.le_refl _⟩
  split
  · exact pushMuted_valid hr (mayActOn_ne_host hmay) hp (.inr rfl) rfl
  · exact pushMuted_valid hr (mayActOn_ne_host hmay) hp (.inl rfl) (append_nil _).symm

theorem setModerator_valid {on : Bool} (hr : RoomValid r) (h : r.setModerator actor target on = .ok r') :
    RoomValid r' ∧ r'.members.length ≤ r.members.length := by
  rw [Room.setModerator] at h
  split at h
  · cases h
  split at h
  · cases h
  rename_i hhost
  split at h
  · cases h
    refine ⟨setModerators_valid hr (hr.moderators_distinct.filter _) ?_ ?_, Nat.le_refl _⟩
    · exact fun id hid => hr.moderators_members id (mem_of_mem_filter hid)
    · exact fun hid => hr.host_not_moderator (mem_of_mem_filter hid)
  · split at h
    · cases h
    rename_i hmember
    split at h
    · cases h
      exact ⟨hr, Nat.le_refl _⟩
    · rename_i hnew
      split_ifs at h
      cases h
      have hnew : target ∉ r.moderators := by simpa [Room.isModerator] using hnew
      have hmember : target ∈ r.memberIds := by simpa [Room.isMember] using hmember
      have hhost : r.hostId ≠ target := by simpa [Room.isHost] using hhost
      refine ⟨setModerators_valid hr (nodup_push hr.moderators_distinct hnew) ?_ ?_, Nat.le_refl _⟩
      · intro id hid
        rcases mem_append.1 hid with hid | hid
        · exact hr.moderators_members id hid
        · rwa [mem_singleton.1 hid]
      · intro hid
        rcases mem_append.1 hid with hid | hid
        · exact hr.host_not_moderator hid
        · exact hhost (mem_singleton.1 hid)

/-! ## Change of host -/

theorem minMember_mem {l : List Member} (h : Room.minMember l = some m) : m ∈ l := by
  cases l with
  | nil => cases h
  | cons a l =>
    cases h
    refine mem_cons.2 ?_
    induction l generalizing a with
    | nil => exact .inl rfl
    | cons b l ih =>
      rw [foldl_cons]
      rcases ih (if Room.earlier b a then b else a) with h | h
      · rw [h]
        split
        · exact .inr (mem_cons_self ..)
        · exact .inl rfl
      · exact .inr (mem_cons_of_mem _ h)

theorem nextHost_spec (h : r.nextHost leaving candidates = some next) :
    next ∈ r.memberIds ∧ next ≠ leaving ∧ next ∈ candidates := by
  obtain ⟨m, hm, rfl⟩ := Option.map_eq_some_iff.1 h
  obtain ⟨hin, hp⟩ := mem_filter.1 (minMember_mem hm)
  obtain ⟨hne, hcand⟩ := of_decide_eq_true hp
  exact ⟨mem_map_of_mem hin, hne, hcand⟩

theorem dropImageBackdrop_same (r : Room) : SameLists r r.dropImageBackdrop := by
  rw [Room.dropImageBackdrop]
  split <;> exact ⟨rfl, rfl, rfl, rfl, rfl⟩

theorem handOff_valid (hr : RoomValid r) (h : r.handOff leaving candidates = some (r', next)) :
    RoomValid r' ∧ r'.members.length ≤ r.members.length := by
  rw [Room.handOff] at h
  split at h
  · cases h
  rename_i next' hnext
  obtain ⟨hmem, hne, -⟩ := nextHost_spec hnext
  generalize hleft : r.remove leaving = left at h
  simp only [Option.some.injEq, Prod.mk.injEq] at h
  obtain ⟨rfl, rfl⟩ := h
  have hin : next' ∈ left.memberIds := hleft ▸ mem_remove.2 ⟨hmem, hne⟩
  have hlists : left.banned = r.banned ∧ left.muted = r.muted := by
    rw [← hleft]
    exact ⟨rfl, rfl⟩
  have hmods : left.moderators.Sublist r.moderators := by
    rw [← hleft]
    exact filter_sublist
  have hmodsIn : ∀ id ∈ left.moderators, id ∈ left.memberIds := by
    rw [← hleft]
    exact fun id hid => of_decide_eq_true (mem_filter.1 hid).2
  have hids : left.memberIds.Sublist r.memberIds := by
    rw [← hleft]
    exact memberIds_filter _
  have hlen : left.members.length ≤ r.members.length := hleft ▸ remove_length_le r leaving
  refine ⟨(dropImageBackdrop_same _).valid ?_, (dropImageBackdrop_same _).length.le.trans hlen⟩
  have hmuted : (left.muted.filter fun m => m.userId ≠ next').Sublist r.muted := by
    rw [hlists.2]
    exact filter_sublist
  exact
    { host_member := hin
      members_distinct := hr.members_distinct.sublist hids
      moderators_distinct := (hr.moderators_distinct.sublist hmods).filter _
      moderators_members := fun id hid => hmodsIn id (mem_of_mem_filter hid)
      host_not_moderator := fun hid => by simpa using (mem_filter.1 hid).2
      none_banned := fun id hid => hlists.1 ▸ hr.none_banned id (hids.subset hid)
      banned_distinct := hlists.1 ▸ hr.banned_distinct
      banned_bounded := hlists.1 ▸ hr.banned_bounded
      host_not_muted := fun hid => by
        obtain ⟨m, hm, heq⟩ := mem_map.1 hid
        exact absurd heq (by simpa using (mem_filter.1 hm).2)
      muted_distinct := hr.muted_distinct.sublist (hmuted.map _) }

/-! ## Runs -/

/-- What an operation does to a valid room: it stays valid, and if it grew, it has at most as many members
as the capacity it had. -/
structure StepValid (r r' : Room) : Prop where
  valid : RoomValid r'
  growth : r.members.length < r'.members.length → r'.members.length ≤ r.capacity

theorem StepValid.of_le (h : RoomValid r' ∧ r'.members.length ≤ r.members.length) : StepValid r r' :=
  ⟨h.1, fun hgrow => absurd h.2 (by omega)⟩

theorem StepValid.of_same (hr : RoomValid r) (h : SameLists r r') : StepValid r r' :=
  .of_le ⟨h.valid hr, h.length.le⟩

/-- One operation. Only the host's own removal is left out: the service hands the room off, or ends it. -/
theorem change_valid (hr : RoomValid r) (hop : op ≠ .remove r.hostId)
    (h : r.change artworkUrl op = .ok r') : StepValid r r' := by
  cases op with
  | join m =>
    refine ⟨join_valid hr h, fun hgrow => ?_⟩
    rcases join_cases h with ⟨hsame, -⟩ | ⟨-, -, hroom, rfl⟩
    · exact absurd hsame.length (by omega)
    · rw [length_append]
      exact hroom
  | remove user =>
    cases h
    exact .of_le ⟨remove_valid hr fun heq => hop (by rw [heq]), remove_length_le r user⟩
  | kick actor target => exact .of_le (kick_valid hr h)
  | ban actor target => exact .of_le (ban_valid hr h)
  | mute actor target seconds now => exact .of_le (mute_valid hr h)
  | setModerator actor target on => exact .of_le (setModerator_valid hr h)
  | handOff leaving candidates =>
    rw [Room.change] at h
    cases hoff : r.handOff leaving candidates with
    | none =>
      rw [hoff] at h
      cases h
      exact .of_same hr (.refl r)
    | some next =>
      rw [hoff] at h
      cases h
      exact .of_le (handOff_valid hr hoff)
  | dropAbsent online joinedAfter =>
    cases h
    exact .of_le ⟨dropAbsent_valid hr online joinedAfter, length_filter_le ..⟩
  | setPublic user isPublic => exact .of_same hr (setPublic_same h)
  | applySettings actor patch cooldown => exact .of_same hr (applySettings_same h)
  | setPlayback user update now => exact .of_same hr (setPlayback_same h)
  | markReady user urn => exact .of_same hr (markReady_same h)
  | setPerks perks =>
    cases h
    exact .of_same hr ⟨rfl, rfl, rfl, rfl, rfl⟩

theorem roomStep_valid (hr : RoomValid r) (h : roomStep artworkUrl r op = some r') : StepValid r r' := by
  rw [roomStep] at h
  split_ifs at h with hop
  cases h
  rw [Room.perform]
  split
  · rename_i r' hchange
    exact change_valid hr hop hchange
  · exact .of_same hr (.refl r)

/-- In every run from a new room the lists fit together, and no step lets the room grow beyond the capacity
that it has before the step. -/
theorem room_lists_valid (artworkUrl : String → Option String) (code : String) (host : Member) (isPublic : Bool)
    (now : Int) (id : BitVec 128) (ops : List RoomOp) (r : Room)
    (h : run (roomStep artworkUrl) (Room.new code host isPublic now id) ops = some r) :
    RoomValid r ∧ ∀ op r', roomStep artworkUrl r op = some r' →
      r.members.length < r'.members.length → r'.members.length ≤ r.capacity := by
  have hr : RoomValid r :=
    run_invariant (fun hs hstep => (roomStep_valid hs hstep).valid) (new_valid code host isPublic now id) h
  exact ⟨hr, fun op r' hstep => (roomStep_valid hr hstep).growth⟩

/-- The host `1` lets `2` and `3` in, makes `2` a moderator, bans `3`, and leaves the room to `2`. -/
def lifeOfARoom : List RoomOp :=
  [.join (Member.new "2" ⟨"", none⟩ 10), .join (Member.new "3" ⟨"", none⟩ 20), .setModerator "1" "2" true,
    .ban "1" "3", .join (Member.new "3" ⟨"", none⟩ 30), .handOff "1" ["2"]]

theorem room_lists_valid_handOff :
    ∃ r, run (roomStep fun _ => none) (Room.new "ABC" (Member.new "1" ⟨"", none⟩ 0) false 0 0) lifeOfARoom = some r ∧
      r.hostId = "2" ∧ r.memberIds = ["2"] ∧ r.banned = ["3"] ∧ RoomValid r := by
  refine ⟨_, rfl, by decide, by decide, by decide, ?_⟩
  exact (room_lists_valid (fun _ => none) "ABC" (Member.new "1" ⟨"", none⟩ 0) false 0 0 lifeOfARoom _ rfl).1

end SC.Proof.Rooms
