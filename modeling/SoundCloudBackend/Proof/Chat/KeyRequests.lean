import SoundCloudBackend.Proof.Chat.Epochs

/-!
# Key requests of a removed member

A change that removes a member closes the current epoch: it marks the group for a
new key, and no message is stored before the next epoch. What the member was
answered before is of closed epochs then. Two things break this. A key request
reads its membership once, in its first step, and the list of keys in its last
one, so that a request under way at the removal lists the keys made after it. And
`decline` removes an invited member, who may request keys, without the mark.
`KeepsOut` says of a step that it is neither.
-/

namespace SC.Proof.Chat.Groups

open Impl.Chat.Groups
open List

variable {g g' : Group} {w w' : World} {a : Action}
variable {user : String} {access : Access} {call : Call} {epoch : Int}

/-! ## Removals in the log -/

/-- The last epoch that was over when the user was removed, if it was not admitted since. -/
def removedAt : List Event → String → Option Int
  | [], _ => none
  | .removed gone closed :: log, user =>
    if gone = user then some ((removedAt log user).getD closed) else removedAt log user
  | .admitted joining _ :: log, user => if joining = user then none else removedAt log user
  | .stored _ :: log, user => removedAt log user
  | .answered _ _ :: log, user => removedAt log user

def answeredTo (log : List Event) (user : String) : List Int :=
  log.flatMap fun
    | .answered asking epochs => if asking = user then epochs else []
    | _ => []

theorem answeredTo_answered (log : List Event) (user asking : String) (epochs : List Int) :
    answeredTo (.answered asking epochs :: log) user = (if asking = user then epochs else []) ++ answeredTo log user := rfl

theorem removedAt_append {log later : List Event} {closed : Int} (h : removedAt log user = some closed)
    (hlater : ∀ hidden, .admitted user hidden ∉ later) : removedAt (later ++ log) user = some closed := by
  induction later with
  | nil => exact h
  | cons event later ih =>
    have ih := ih fun hidden hmem => hlater hidden (mem_cons_of_mem _ hmem)
    cases event with
    | removed gone other =>
      simp only [cons_append, removedAt, ih]
      split <;> rfl
    | admitted joining hidden =>
      have hne : joining ≠ user := fun heq => hlater hidden (heq ▸ mem_cons_self)
      simp only [cons_append, removedAt, if_neg hne, ih]
    | stored message | answered other epochs => exact ih

theorem removedAt_removed (log : List Event) (user : String) (closed : Int) :
    ∃ first, removedAt (.removed user closed :: log) user = some first := ⟨_, if_pos rfl⟩

theorem removedAt_admitted (users : List String) (hidden : Bool) (log : List Event) (user : String) :
    removedAt (users.map (fun user => .admitted user hidden) ++ log) user =
      if user ∈ users then none else removedAt log user := by
  induction users with
  | nil => rfl
  | cons first rest ih =>
    rw [map_cons, cons_append, removedAt, ih]
    by_cases hfirst : first = user
    · simp [hfirst]
    · simp [hfirst, Ne.symm hfirst]

theorem removedAt_removals (users : List String) (closed : Int) (log : List Event) (user : String) :
    removedAt (users.map (fun user => .removed user closed) ++ log) user =
      if user ∈ users then some ((removedAt log user).getD closed) else removedAt log user := by
  induction users with
  | nil => rfl
  | cons first rest ih =>
    rw [map_cons, cons_append, removedAt, ih]
    by_cases hfirst : first = user
    · by_cases hrest : user ∈ rest
      · simp [hfirst, hrest]
      · simp [hfirst, hrest]
    · simp [hfirst, Ne.symm hfirst]

theorem removedAt_memberEvents (g g' : Group) (users : List String) (log : List Event) (user : String) :
    removedAt (memberEvents g g' users ++ log) user =
      if user ∈ users then none
      else if user ∈ removedUsers g.members g'.members then some ((removedAt log user).getD g'.closedEpoch)
      else removedAt log user := by
  unfold memberEvents
  rw [append_assoc, removedAt_admitted, removedAt_removals]

theorem mem_removedUsers {before after : Members} : user ∈ removedUsers before after ↔
      ∃ m, after.find user = some m ∧ m.state ∉ live ∧ (before.find user).map Member.state ≠ some m.state := by
  unfold removedUsers
  simp only [mem_map, mem_filter, decide_eq_true_eq]
  constructor
  · rintro ⟨m, ⟨hm, hgone, hchanged⟩, rfl⟩
    exact ⟨m, find_of_mem hm, hgone, hchanged⟩
  · rintro ⟨m, hm, hgone, hchanged⟩
    have hid := userId_of_find hm
    exact ⟨m, ⟨mem_of_find hm, hgone, by rw [hid]; exact hchanged⟩, hid⟩

theorem mem_memberEvents {users : List String} {event : Event} (h : event ∈ memberEvents g g' users) :
    (∃ user hidden, event = .admitted user hidden) ∨ ∃ user closed, event = .removed user closed := by
  rcases mem_append.1 h with h | h
  · obtain ⟨user, -, rfl⟩ := mem_map.1 h
    exact .inl ⟨user, _, rfl⟩
  · obtain ⟨user, -, rfl⟩ := mem_map.1 h
    exact .inr ⟨user, _, rfl⟩

theorem answeredTo_memberEvents (g g' : Group) (users : List String) (log : List Event) (user : String) :
    answeredTo (memberEvents g g' users ++ log) user = answeredTo log user := by
  unfold answeredTo
  rw [flatMap_append, append_left_eq_self, flatMap_eq_nil_iff]
  intro event hevent
  rcases mem_memberEvents hevent with ⟨_, _, rfl⟩ | ⟨_, _, rfl⟩ <;> rfl

/-! ## Removals of live members -/

/-- A change that removes a live member deletes the group, or marks it for a new key, or is a `decline`. -/
theorem Effect.removes {users : List String} (h : Effect access g call users g')
    {m' : Member} (huser : user ∉ users) (hm' : g'.members.find user = some m') (hgone : m'.state ∉ live)
    (hlive : ∀ m, g.members.find user = some m → m.state ∈ live) :
    g'.closedEpoch = g.keyEpoch ∨ call = .decline ∧ user = access.userId ∧ g.deleted = false ∧
      ∃ m, g.members.find user = some m ∧ m.state = .invited := by
  have hclosed (hmarked : g'.deleted = true ∨ g'.rekey = true) : g'.closedEpoch = g.keyEpoch :=
    (closedEpoch_of_rekey hmarked).trans h.follows.keyEpoch
  cases h with
  | same _ => exact absurd (hlive m' hm') hgone
  | left m _ hm _ hfollows hmembers hrest => exact .inl (hclosed (hrest.imp_right And.left))
  | handedOver m heir _ _ _ _ _ _ _ _ _ hrekey => exact .inl (hclosed (.inr hrekey))
  | removed target _ m next _ hm _ _ _ hmembers hrekey =>
    rw [hmembers] at hm'
    rcases find_put.1 hm' with ⟨rfl, -⟩ | ⟨-, hm'⟩
    · have hid : m.userId = target := userId_of_find hm
      exact .inl (hclosed (.inr (hrekey (hlive m (hid ▸ hm)))))
    · exact absurd (hlive m' hm') hgone
  | unbanned target m _ hm hstate _ hmembers =>
    rw [hmembers] at hm'
    rcases find_put.1 hm' with ⟨rfl, -⟩ | ⟨-, hm'⟩
    · have hid : m.userId = target := userId_of_find hm
      have hbanned := hlive m (hid ▸ hm)
      rw [hstate] at hbanned
      exact absurd hbanned (by decide)
    · exact absurd (hlive m' hm') hgone
  | promoted target o m _ ho _ hactive _ _ hstate _ hmembers =>
    rw [hmembers] at hm'
    rcases find_put.1 hm' with ⟨-, rfl⟩ | ⟨-, hm'⟩
    · exact absurd (hstate ▸ mem_cons_self) hgone
    rcases find_put.1 hm' with ⟨-, rfl⟩ | ⟨-, hm'⟩
    · exact absurd (hactive ▸ mem_cons_self) hgone
    · exact absurd (hlive m' hm') hgone
  | ranked target role m _ _ _ _ _ _ _ hstate _ hmembers =>
    rw [hmembers] at hm'
    rcases find_put.1 hm' with ⟨-, rfl⟩ | ⟨-, hm'⟩
    · exact absurd (hstate ▸ mem_cons_self) hgone
    · exact absurd (hlive m' hm') hgone
  | accepted m _ _ _ _ hmembers =>
    rw [hmembers] at hm'
    rcases find_put.1 hm' with ⟨-, rfl⟩ | ⟨-, hm'⟩
    · exact absurd mem_cons_self hgone
    · exact absurd (hlive m' hm') hgone
  | declined m _ hdeleted hm hstate _ hmembers =>
    rw [hmembers] at hm'
    rcases find_put.1 hm' with ⟨rfl, -⟩ | ⟨-, hm'⟩
    · have hid : m.userId = access.userId := userId_of_find hm
      exact .inr ⟨rfl, hid, hdeleted, m, hid ▸ hm, hstate⟩
    · exact absurd (hlive m' hm') hgone
  | added _ _ _ _ hadmits =>
    rw [hadmits.others user huser] at hm'
    exact absurd (hlive m' hm') hgone

/-! ## Runs -/

def listedFor (w : World) (n : Nat) : Option String :=
  (w.requests n).bind fun
    | (request, .list _ _) => some request.user
    | _ => none

/-- The step tells a removed member nothing new: a key list that is read for a user who was removed lists no key of a
later epoch, and a `decline` finds the group marked for a new key, or the member without the current key. -/
def KeepsOut (w : World) : Action → Prop
  | .advance n => ∀ user ∈ listedFor w n, ∀ closed ∈ removedAt w.log user, ∀ key ∈ w.group.keys, key.epoch ≤ closed
  | .run access .decline =>
    w.group.deleted = false → (w.group.members.find access.userId).map Member.state = some .invited →
      w.group.rekey = true ∨ w.group.keyEpoch ∉ answeredTo w.log access.userId
  | _ => True

instance (w : World) : DecidablePred (KeepsOut w)
  | .advance n => inferInstanceAs (Decidable (∀ user ∈ listedFor w n, _))
  | .run _ .decline => inferInstanceAs (Decidable (_ → _ → _ ∨ _))
  | .run _ .leave | .run _ (.remove _ _) | .run _ (.unban _) | .run _ (.setRole _ _) | .run _ .accept | .run _ (.add _)
  | .read _ | .join _ _ | .send _ _ | .system _ | .ensureCurrent | .rotateIfDue _ | .markRekey | .setHistory _
  | .request _ _ | .tick _ => inferInstanceAs (Decidable True)

/-- Who was removed was answered closed epochs only, and messages are stored in later ones. -/
structure Apart (w : World) : Prop where
  keys : ∀ key ∈ w.group.keys, key.epoch ≤ w.group.keyEpoch
  answers : ∀ user, ∀ epoch ∈ answeredTo w.log user, epoch ≤ w.group.keyEpoch
  gone : ∀ user m, w.group.members.find user = some m → m.state ∉ live → ∃ closed, removedAt w.log user = some closed
  removed : ∀ user closed, removedAt w.log user = some closed →
    closed ≤ w.group.closedEpoch ∧ ∀ epoch ∈ answeredTo w.log user, epoch ≤ closed
  stored : ∀ message log user closed, .stored message :: log <:+ w.log → removedAt log user = some closed →
    closed < message.epoch

theorem mem_listKeys {floor : Int} {page : Nat} (h : epoch ∈ g.listKeys floor page) :
    ∃ key ∈ g.keys, key.epoch = epoch := by
  have hsorted := (perm_insertionSort _ _).subset (mem_of_mem_take h)
  obtain ⟨key, hkey, heq⟩ := mem_map.1 (mem_of_mem_filter hsorted)
  exact ⟨key, hkey, heq⟩

theorem Turn.keys_le (h : Turn g g') (hkeys : ∀ key ∈ g.keys, key.epoch ≤ g.keyEpoch) :
    ∀ key ∈ g'.keys, key.epoch ≤ g'.keyEpoch := by
  intro key hkey
  cases h with
  | wrote _ hfollows _ _ => exact hfollows.keyEpoch ▸ hkeys key (hfollows.keys hkey)
  | keyed keys hnew =>
    rcases hnew key hkey with hold | heq
    · exact hkeys key hold
    · exact heq.le
  | rotated keys now _ hnew =>
    dsimp only [Group.advanceEpoch]
    rcases hnew key hkey with hold | heq
    · have hle := hkeys key hold
      omega
    · omega

theorem suffix_of_append {α : Type} {x : α} {rest new log : List α} (h : x :: rest <:+ new ++ log) (hx : x ∉ new) :
    x :: rest <:+ log := by
  induction new with
  | nil => exact h
  | cons first new ih =>
    rcases suffix_cons_iff.1 h with heq | h
    · rw [List.cons.injEq] at heq
      exact absurd (heq.1 ▸ mem_cons_self) hx
    · exact ih h fun hmem => hx (mem_cons_of_mem _ hmem)

section MemberChange

variable {users : List String}

/-- A member change keeps removed members apart, if those it removes were answered closed epochs only. -/
theorem Apart.memberChange (h : Apart w) (hfollows : Follows w.group g')
    (hjoined : ∀ user ∈ users, ∃ m, g'.members.find user = some m ∧ m.state ∈ live)
    (hclosed : ∀ user, user ∉ users → user ∈ removedUsers w.group.members g'.members → removedAt w.log user = none →
      ∀ epoch ∈ answeredTo w.log user, epoch ≤ g'.closedEpoch) :
    Apart { w with group := g', log := memberEvents w.group g' users ++ w.log } := by
  refine ⟨fun key hkey => ?_, fun user => ?_, fun user m hm hgone => ?_, fun user closed hremoved => ?_,
    fun message log user closed hsuffix => ?_⟩
  · exact hfollows.keyEpoch ▸ h.keys key (hfollows.keys hkey)
  · dsimp only
    rw [answeredTo_memberEvents, hfollows.keyEpoch]
    exact h.answers user
  · have huser : user ∉ users := fun hmem => by
      obtain ⟨m', hm', hlive⟩ := hjoined user hmem
      rw [hm] at hm'
      cases hm'
      exact hgone hlive
    rw [removedAt_memberEvents, if_neg huser]
    split
    · exact ⟨_, rfl⟩
    · rename_i hkept
      -- the state of the row is not new
      have hsame : (w.group.members.find user).map Member.state = some m.state :=
        not_not.1 fun hchanged => hkept (mem_removedUsers.2 ⟨m, hm, hgone, hchanged⟩)
      obtain ⟨old, hold, hstate⟩ := Option.map_eq_some_iff.1 hsame
      exact h.gone user old hold (hstate ▸ hgone)
  · dsimp only at hremoved ⊢
    rw [answeredTo_memberEvents]
    rw [removedAt_memberEvents] at hremoved
    split at hremoved
    · cases hremoved
    rename_i huser
    have hbefore (hlog : removedAt w.log user = some closed) :
        closed ≤ g'.closedEpoch ∧ ∀ epoch ∈ answeredTo w.log user, epoch ≤ closed :=
      ⟨Int.le_trans (h.removed user closed hlog).1 hfollows.closedEpoch, (h.removed user closed hlog).2⟩
    split at hremoved
    · rename_i hgone
      cases hlog : removedAt w.log user with
      | none =>
        rw [hlog] at hremoved
        cases hremoved
        exact ⟨Int.le_refl _, hclosed user huser hgone hlog⟩
      | some first =>
        rw [hlog] at hremoved
        cases hremoved
        exact hbefore hlog
    · exact hbefore hremoved
  · refine h.stored message log user closed (suffix_of_append hsuffix fun hnew => ?_)
    rcases mem_memberEvents hnew with ⟨_, _, heq⟩ | ⟨_, _, heq⟩ <;> cases heq

theorem Admits.not_mem_removedUsers (hadmits : Admits g g' users) (huser : user ∉ users) :
    user ∉ removedUsers g.members g'.members := fun hgone => by
  obtain ⟨m, hm, -, hchanged⟩ := mem_removedUsers.1 hgone
  rw [hadmits.others user huser] at hm
  exact hchanged (by rw [hm]; rfl)

theorem Admits.joined_live (hadmits : Admits g g' users) :
    ∀ user ∈ users, ∃ m, g'.members.find user = some m ∧ m.state ∈ live := fun user huser => by
  obtain ⟨m, hm, -, hlive, -⟩ := hadmits.joined user huser
  exact ⟨m, hm, hlive⟩

theorem Apart.effect (h : Apart w) (hkeeps : KeepsOut w (.run access call))
    (heffect : Effect access w.group call users g') (huser : user ∉ users)
    (hgone : user ∈ removedUsers w.group.members g'.members) (hlog : removedAt w.log user = none)
    (hepoch : epoch ∈ answeredTo w.log user) : epoch ≤ g'.closedEpoch := by
  obtain ⟨m', hm', hdead, -⟩ := mem_removedUsers.1 hgone
  have hlive : ∀ m, w.group.members.find user = some m → m.state ∈ live := fun m hm => not_not.1 fun hdead => by
    obtain ⟨closed, hclosed⟩ := h.gone user m hm hdead
    rw [hlog] at hclosed
    cases hclosed
  have hle := h.answers user epoch hepoch
  rcases heffect.removes huser hm' hdead hlive with hclosed | ⟨rfl, rfl, hdeleted, m, hm, hinvited⟩
  · exact hclosed ▸ hle
  · rcases hkeeps hdeleted (by rw [hm, Option.map_some, hinvited]) with hrekey | hnew
    · have hclosed := closedEpoch_of_rekey (.inr (heffect.follows.rekey hrekey))
      rw [hclosed, heffect.follows.keyEpoch]
      exact hle
    · -- the current key was not answered, and every earlier epoch is closed
      have hne : epoch ≠ w.group.keyEpoch := fun heq => hnew (heq ▸ hepoch)
      have hclosed := le_closedEpoch g'
      have hkey := heffect.follows.keyEpoch
      omega

end MemberChange

theorem Apart.answered {asking : String} {epochs : List Int} (h : Apart w) (hgroup : w'.group = w.group)
    (hlog : w'.log = .answered asking epochs :: w.log) (hepochs : ∀ epoch ∈ epochs, ∃ key ∈ w.group.keys, key.epoch = epoch)
    (hkeeps : ∀ closed, removedAt w.log asking = some closed → ∀ key ∈ w.group.keys, key.epoch ≤ closed) : Apart w' := by
  refine ⟨hgroup ▸ h.keys, fun user epoch hepoch => ?_, ?_, fun user closed hremoved => ?_, ?_⟩
  · rw [hlog, answeredTo_answered] at hepoch
    rw [hgroup]
    rcases mem_append.1 hepoch with hnew | hold
    · split at hnew
      · obtain ⟨key, hkey, rfl⟩ := hepochs epoch hnew
        exact h.keys key hkey
      · cases hnew
    · exact h.answers user epoch hold
  · rw [hgroup, hlog]
    exact h.gone
  · rw [hlog] at hremoved
    have hremoved : removedAt w.log user = some closed := hremoved
    rw [hlog, hgroup, answeredTo_answered]
    obtain ⟨hclosed, hanswers⟩ := h.removed user closed hremoved
    refine ⟨hclosed, fun epoch hepoch => ?_⟩
    rcases mem_append.1 hepoch with hnew | hold
    · split at hnew
      · rename_i huser
        obtain ⟨key, hkey, rfl⟩ := hepochs epoch hnew
        exact hkeeps closed (huser ▸ hremoved) key hkey
      · cases hnew
    · exact hanswers epoch hold
  · intro message log user closed hsuffix
    rw [hlog] at hsuffix
    exact h.stored message log user closed ((suffix_cons_iff.1 hsuffix).resolve_left nofun)

theorem Apart.sent {row : Message} (h : Apart w) (hstored : Stored w.group row g') :
    Apart { w with group := g', log := .stored row :: w.log } := by
  have hopen := hstored.open
  obtain ⟨-, -, -, -, rfl⟩ := hstored
  refine ⟨h.keys, h.answers, h.gone, h.removed, fun message log user closed hsuffix hremoved => ?_⟩
  rcases suffix_cons_iff.1 hsuffix with heq | hsuffix
  · cases heq
    exact Int.lt_of_le_of_lt (h.removed user closed hremoved).1 hopen
  · exact h.stored message log user closed hsuffix hremoved

theorem Apart.turned (h : Apart w) (hturn : Turn w.group w'.group) (hlog : w'.log = w.log) : Apart w' := by
  refine ⟨hturn.keys_le h.keys, fun user epoch hepoch => ?_, ?_, fun user closed hremoved => ?_, ?_⟩
  · exact Int.le_trans (h.answers user epoch (hlog ▸ hepoch)) hturn.keyEpoch
  · rw [hturn.members, hlog]
    exact h.gone
  · obtain ⟨hclosed, hanswers⟩ := h.removed user closed (hlog ▸ hremoved)
    exact ⟨Int.le_trans hclosed hturn.closedEpoch, hlog ▸ hanswers⟩
  · rw [hlog]
    exact h.stored

theorem apart_step (h : Apart w) (hkeeps : KeepsOut w a) (hstep : step w a = some w') : Apart w' := by
  cases step_does hstep with
  | changed access call change g' hrun heffect =>
    refine h.memberChange heffect.follows (fun user huser => ?_) fun user huser hgone hlog epoch hepoch => ?_
    · exact (heffect.admits huser).joined_live user huser
    · exact h.effect hkeeps heffect huser hgone hlog hepoch
  | joined user createdBy g' hfollows hadmits =>
    refine h.memberChange hfollows hadmits.joined_live fun other hother hgone => ?_
    exact absurd hgone (hadmits.not_mem_removedUsers hother)
  | sent sender out row g' hstored => exact h.sent hstored
  | answered n request access gate floor _ hrequest hgroup hlog =>
    have hlisted : listedFor w n = some request.user := by
      unfold listedFor
      rw [hrequest]
      rfl
    exact h.answered hgroup hlog (fun epoch hepoch => mem_listKeys hepoch) (hkeeps request.user hlisted)
  | turned _ _ hturn hlog => exact h.turned hturn hlog

theorem group_apart {placed : List (String × MemberState)} {now clock : Int}
    (hplaced : ∀ one ∈ placed, one.2 ∈ live) (h : Group.group user placed now = .ok g) : Apart (World.start g clock) := by
  obtain ⟨⟨members, joined⟩, hjoin, h⟩ := bind_eq_ok h
  obtain ⟨⟨row, g₁⟩, hsystem, h⟩ := bind_eq_ok h
  cases h
  obtain ⟨hfollows, hmembers, -, -, -⟩ := insertSystem_eq_ok hsystem
  obtain ⟨new, rfl, hjoins⟩ := joinMany_eq_ok (fun _ => rfl) hjoin
  have hkeys : g₁.keys = [] := subset_nil.1 hfollows.keys
  refine ⟨fun key hkey => ?_, fun _ _ h => (by cases h), fun one m hm hgone => ?_, fun _ _ h => (by cases h),
    fun _ _ _ _ h => absurd (suffix_nil.1 h) (by simp)⟩
  · have hkey : key ∈ g₁.keys := hkey
    rw [hkeys] at hkey
    cases hkey
  · have hm : members.find one = some m := (congrArg (Members.find · one) hmembers).symm.trans hm
    have hone : one ∈ joined.map Member.userId := not_not.1 fun hone => by
      rw [hjoins.others one hone] at hm
      cases hm
    obtain ⟨m', hnew, rfl⟩ := mem_map.1 hone
    obtain rfl := Option.some.inj ((hjoins.found m' hnew).symm.trans hm)
    obtain ⟨j, hj, rfl⟩ := hjoins.rows m' hnew
    rcases mem_cons.1 hj with rfl | hj
    · exact absurd mem_cons_self hgone
    · obtain ⟨other, hother, rfl⟩ := mem_map.1 hj
      exact absurd (hplaced other hother) hgone

/-- The user was removed and not admitted again, and was answered the key of a message that was stored after the
removal. -/
def ReadsOn (log : List Event) (user : String) : Prop :=
  ∃ later closed earlier message, log = later ++ .removed user closed :: earlier ∧
    (∀ hidden, .admitted user hidden ∉ later) ∧ .stored message ∈ later ∧ message.epoch ∈ answeredTo log user

/-- A removed member cannot read on, in a run of which every step keeps removed members out. -/
theorem removed_member_cannot_read_on {creator : String} {placed : List (String × MemberState)} {now clock : Int}
    {as : List Action} (hplaced : ∀ one ∈ placed, one.2 ∈ live) (hgroup : Group.group creator placed now = .ok g)
    (hrun : run step (World.start g clock) as = some w) (hkeeps : Meets step KeepsOut (World.start g clock) as)
    (user : String) : ¬ ReadsOn w.log user := by
  have hapart := run_invariant_of_meets apart_step (group_apart hplaced hgroup) hkeeps hrun
  rintro ⟨later, closed, earlier, message, hlog, hadmitted, hstored, hepoch⟩
  obtain ⟨newer, older, rfl⟩ := append_of_mem hstored
  obtain ⟨first, hfirst⟩ := removedAt_removed earlier user closed
  -- the bound of the first removal holds when the message is stored, and still in the end
  have hbefore : removedAt (older ++ .removed user closed :: earlier) user = some first :=
    removedAt_append hfirst fun hidden hmem => hadmitted hidden (by simp [hmem])
  have hend : removedAt w.log user = some first := hlog ▸ removedAt_append hfirst hadmitted
  have hsuffix : .stored message :: (older ++ .removed user closed :: earlier) <:+ w.log :=
    ⟨newer, by rw [hlog, append_assoc]; rfl⟩
  have hlater := hapart.stored message _ user first hsuffix hbefore
  have hanswer := (hapart.removed user first hend).2 message.epoch hepoch
  omega

/-- A member is kicked during a request, which lists the keys before the next one is made. -/
def kickedDuringRequest : List Action :=
  [.request 0 ⟨"202", ⟨0, true⟩, none, 640⟩, .advance 0, .advance 0, .read "101",
    .run ⟨"101", .group, .owner, .active, ["101", "202"]⟩ (.remove "202" false), .advance 0, .ensureCurrent,
    .send "101" ⟨7, .post, 1, post_not_system⟩]

theorem removed_member_cannot_read_on_kicked :
    ∃ w, run step (World.start (pair .active 2) 0) kickedDuringRequest = some w ∧
      w.log = [.stored ⟨3, some 7, "101", .post, 1, none⟩, .answered "202" [0], .removed "202" 0] ∧
      ¬ ReadsOn w.log "202" := by
  have hlog : (run step (World.start (pair .active 2) 0) kickedDuringRequest).map World.log =
      some [.stored ⟨3, some 7, "101", .post, 1, none⟩, .answered "202" [0], .removed "202" 0] := by decide
  obtain ⟨w, hw, hlog⟩ := Option.map_eq_some_iff.1 hlog
  exact ⟨w, hw, hlog, removed_member_cannot_read_on (by decide) group_pair_active hw (by decide) "202"⟩

/-- Two ways to read on: a request is under way when its member is kicked, and lists the key made after it; a member
who declines was answered the current key, in which messages are stored on. -/
theorem removed_member_reads_on :
    (Group.group "101" [("202", .active)] 0 = .ok (pair .active 2) ∧
      ∃ w, run step (World.start (pair .active 2) 0)
        [.request 0 ⟨"202", ⟨0, true⟩, none, 640⟩, .advance 0, .advance 0, .read "101",
          .run ⟨"101", .group, .owner, .active, ["101", "202"]⟩ (.remove "202" false), .ensureCurrent,
          .send "101" ⟨7, .post, 1, post_not_system⟩, .advance 0] = some w ∧ ReadsOn w.log "202") ∧
    Group.group "101" [("202", .invited)] 0 = .ok (pair .invited 1) ∧
      ∃ w, run step (World.start (pair .invited 1) 0)
        [.request 0 ⟨"202", ⟨0, true⟩, none, 640⟩, .advance 0, .advance 0, .advance 0, .read "202",
          .run ⟨"202", .group, .member, .invited, ["101", "202"]⟩ .decline,
          .send "101" ⟨7, .post, 0, post_not_system⟩] = some w ∧ ReadsOn w.log "202" := by
  constructor
  · have hlog : (run step (World.start (pair .active 2) 0)
        [.request 0 ⟨"202", ⟨0, true⟩, none, 640⟩, .advance 0, .advance 0, .read "101",
          .run ⟨"101", .group, .owner, .active, ["101", "202"]⟩ (.remove "202" false), .ensureCurrent,
          .send "101" ⟨7, .post, 1, post_not_system⟩, .advance 0]).map World.log =
        some [.answered "202" [0, 1], .stored ⟨3, some 7, "101", .post, 1, none⟩, .removed "202" 0] := by decide
    obtain ⟨w, hw, hlog⟩ := Option.map_eq_some_iff.1 hlog
    exact ⟨group_pair_active, w, hw, [.answered "202" [0, 1], .stored ⟨3, some 7, "101", .post, 1, none⟩], 0, [],
      ⟨3, some 7, "101", .post, 1, none⟩, hlog, by decide, by decide, by rw [hlog]; decide⟩
  · have hlog : (run step (World.start (pair .invited 1) 0)
        [.request 0 ⟨"202", ⟨0, true⟩, none, 640⟩, .advance 0, .advance 0, .advance 0, .read "202",
          .run ⟨"202", .group, .member, .invited, ["101", "202"]⟩ .decline,
          .send "101" ⟨7, .post, 0, post_not_system⟩]).map World.log =
        some [.stored ⟨2, some 7, "101", .post, 0, none⟩, .removed "202" (-1), .answered "202" [0]] := by decide
    obtain ⟨w, hw, hlog⟩ := Option.map_eq_some_iff.1 hlog
    exact ⟨group_pair_invited, w, hw, [.stored ⟨2, some 7, "101", .post, 0, none⟩], -1, [.answered "202" [0]],
      ⟨2, some 7, "101", .post, 0, none⟩, hlog, by decide, by decide, by rw [hlog]; decide⟩

end SC.Proof.Chat.Groups
