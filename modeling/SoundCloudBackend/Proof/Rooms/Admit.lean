import SoundCloudBackend.Framework.Run
import SoundCloudBackend.Impl.Rooms.Service

/-!
# Seats of absent guests

`admit` frees the seats of absent guests when the room has exactly as many members as
its capacity, and `join` then refuses if there are as many or more. So a user for whom
there is room without the absent guests is let in exactly if the room has not more
members than its capacity (`admit_frees_seats_iff`). It has more after the perks of a
STAR host were lost: then the seats stay taken (`downgraded_room_stays_full`).
-/

namespace SC.Proof.Rooms

open Impl Impl.Rooms

variable {r : Room} {member : Member} {online : List UserId} {recent : Int}
variable {publicOnly : Bool}

/-- The members that keep their seats: the host, those online and those who joined after a moment. -/
def present (r : Room) (online : List UserId) (recent : Int) : List Member :=
  r.members.filter fun m => m.userId = r.hostId ∨ m.userId ∈ online ∨ recent < m.joinedAt

theorem dropAbsent_members (r : Room) (online : List UserId) (recent : Int) :
    (r.dropAbsent online recent).members = present r online recent := by
  refine List.filter_congr fun m _ => ?_
  rw [decide_eq_decide, or_comm (a := m.userId ∈ online)]

theorem dropAbsent_isMember (hm : r.isMember member.userId = false) :
    (r.dropAbsent online recent).isMember member.userId = false := by
  simp only [Room.isMember, Room.memberIds, decide_eq_false_iff_not, List.mem_map, not_exists, not_and] at hm ⊢
  intro m hmem
  rw [dropAbsent_members] at hmem
  exact hm m (List.mem_filter.1 hmem).1

theorem join_ok_iff (hm : r.isMember member.userId = false) (hb : r.isBanned member.userId = false) :
    (∃ r', r.join member = .ok r') ↔ r.members.length < r.capacity := by
  simp only [Room.join, hm, hb, Room.isFull, Bool.false_eq_true, if_false, decide_eq_true_eq]
  constructor
  · rintro ⟨r', hr'⟩
    by_contra hfull
    rw [if_pos (Nat.not_lt.1 hfull)] at hr'
    cases hr'
  · intro hseat
    exact ⟨_, if_neg (Nat.not_le.2 hseat)⟩

theorem refusal_eq_none_iff (hb : r.isBanned member.userId = false) :
    refusal r member.userId publicOnly = none ↔ (publicOnly = true → r.isPublic = true ∧ r.unlisted = false) := by
  cases publicOnly <;> simp [refusal, hb]

theorem admitChange_of_newcomer (hm : r.isMember member.userId = false)
    (hr : refusal r member.userId publicOnly = none) : admitChange member publicOnly r.hostId online recent r =
      if r.members.length = r.capacity then (r.dropAbsent online recent).join member else r.join member := by
  simp [admitChange, hm, hr]

/-- A user who is neither a member nor banned, in a room that has a seat without its absent guests, is let in exactly
if the room is open to them and has not more members than seats. -/
theorem admit_frees_seats_iff (r : Room) (member : Member) (publicOnly : Bool) (checkedHost : UserId)
    (online : List UserId) (now : Int) (hm : r.isMember member.userId = false) (hb : r.isBanned member.userId = false)
    (hseat : (present r online (now - onlineWindowMs)).length < r.capacity) :
    (∃ r', admitChange member publicOnly checkedHost online (now - onlineWindowMs) r = .ok r') ↔
      (publicOnly = true → r.isPublic = true ∧ r.unlisted = false) ∧ r.hostId = checkedHost ∧
        r.members.length ≤ r.capacity := by
  by_cases hpublic : publicOnly = true → r.isPublic = true ∧ r.unlisted = false
  · have hr := (refusal_eq_none_iff hb).2 hpublic
    by_cases hhost : r.hostId = checkedHost
    · subst hhost
      rw [admitChange_of_newcomer hm hr, and_iff_right hpublic, and_iff_right rfl]
      by_cases hfull : r.members.length = r.capacity
      · have hnot : (r.dropAbsent online (now - onlineWindowMs)).isMember member.userId = false := dropAbsent_isMember hm
        have hjoin := join_ok_iff hnot hb
        rw [dropAbsent_members] at hjoin
        rw [if_pos hfull]
        exact ⟨fun _ => Nat.le_of_eq hfull, fun _ => hjoin.2 hseat⟩
      · rw [if_neg hfull, join_ok_iff hm hb]
        omega
    · have herror : admitChange member publicOnly checkedHost online (now - onlineWindowMs) r = .error tooQuick := by
        simp [admitChange, hm, hr, hhost]
      simp [herror, hhost]
  · obtain ⟨error, herror⟩ := Option.ne_none_iff_exists'.1 (mt (refusal_eq_none_iff hb).1 hpublic)
    have hrefused : admitChange member publicOnly checkedHost online (now - onlineWindowMs) r = .error error := by
      simp [admitChange, hm, herror]
    simp [hrefused, hpublic]

def guest (id : UserId) : Member := ⟨id, id, none, 0, none, 0⟩

def roomOf (perks : Perks) (guests : List UserId) : Room :=
  { Room.new "room" (guest "host") false 0 0 with members := (guest "host") :: guests.map guest, perks }

theorem admit_frees_seats_full_room : ∃ r', admitChange (guest "new") false "host" [] (100000 - onlineWindowMs)
      (roomOf .free ["1", "2", "3", "4", "5", "6", "7", "8", "9"]) = .ok r' :=
  (admit_frees_seats_iff (roomOf .free ["1", "2", "3", "4", "5", "6", "7", "8", "9"]) (guest "new") false "host" [] 100000
    (by decide) (by decide) (by decide)).2 ⟨by decide, rfl, by decide⟩

/-- Ten guests join the room of a STAR host, who then loses the perks. -/
def downgradeOps : List RoomOp :=
  .setPerks .star :: (["1", "2", "3", "4", "5", "6", "7", "8", "9", "10"].map fun id => .join (guest id)) ++ [.setPerks .free]

/-- All ten guests are absent, and still a newcomer finds the room full. -/
theorem downgraded_room_stays_full :
    ∃ r, run (roomStep fun _ => none) (Room.new "room" (guest "host") false 0 0) downgradeOps = some r ∧
      r.isMember "new" = false ∧ r.isBanned "new" = false ∧
      (present r [] (100000 - onlineWindowMs)).length < r.capacity ∧
      admitChange (guest "new") false r.hostId [] (100000 - onlineWindowMs) r = .error roomFull :=
  ⟨_, rfl, by decide, by decide, by decide, by decide⟩

end SC.Proof.Rooms
