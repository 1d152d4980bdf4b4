import SoundCloudBackend.Proof.Chat.Members

/-!
# The steps of a group

`Does` lists what a step can do, and `step_does` says that it does one of these:
a member change with its effect, the admission of one user, the store of a message,
the answer of a key request, or a turn, which stores nothing of a member and
leaves the members as they are. No step lowers the key epoch or the last closed
epoch, and a message is stored in a later epoch than the closed one.
-/

namespace SC.Proof.Chat.Groups

open Impl.Chat.Groups

variable {g g' : Group} {w w' : World} {a : Action}
variable {now : Int}

theorem Effect.follows {access : Access} {call : Call} {users : List String} (h : Effect access g call users g') :
    Follows g g' := by
  cases h with
  | same _ => exact .refl g
  | _ => assumption

/-! ## Sends and rotations -/

/-- The message of a member is the last one, in the current epoch. -/
structure Stored (g : Group) (row : Message) (g' : Group) : Prop where
  deleted : g.deleted = false
  rekey : g.rekey = false
  seq : row.seq = g.lastSeq + 1
  epoch : row.epoch = g.keyEpoch
  after : g' = { g with lastSeq := g.lastSeq + 1, epochMessages := g.epochMessages + 1, messages := g.messages ++ [row] }

theorem store_eq_some {sender : String} {out : Group.Outgoing} {row : Message}
    (h : g.store sender out now = some (row, g')) : Stored g row g' := by
  unfold Group.store at h
  split at h
  · cases h
  rename_i hstale
  simp only [not_or] at hstale
  split_ifs at h
  cases h
  exact ⟨by simpa using hstale.1, by simpa using hstale.2.2.1, rfl, (not_not.1 hstale.2.1).symm, rfl⟩

/-- A step of the group that leaves the members as they are and stores no message of a member. -/
inductive Turn (g : Group) : Group → Prop
  | wrote (g' : Group) (hfollows : Follows g g') (hmembers : g'.members = g.members) (hdeleted : g'.deleted = g.deleted) :
    Turn g g'
  | keyed (keys : List Key) (hkeys : ∀ key ∈ keys, key ∈ g.keys ∨ key.epoch = g.keyEpoch) : Turn g { g with keys := keys }
  | rotated (keys : List Key) (now : Int) (hdeleted : g.deleted = false)
    (hkeys : ∀ key ∈ keys, key ∈ g.keys ∨ key.epoch = g.keyEpoch + 1) :
    Turn g (Group.advanceEpoch now { g with keys := keys })

theorem Turn.refl (g : Group) : Turn g g := .wrote g (.refl g) rfl rfl

theorem Turn.members (h : Turn g g') : g'.members = g.members := by
  cases h with
  | wrote _ _ hmembers _ => exact hmembers
  | keyed _ _ | rotated _ _ _ _ => rfl

theorem Turn.deleted (h : Turn g g') : g'.deleted = g.deleted := by
  cases h with
  | wrote _ _ _ hdeleted => exact hdeleted
  | keyed _ _ | rotated _ _ _ _ => rfl

theorem insertKey_eq (g : Group) (epoch now : Int) :
    ∃ keys, g.insertKey epoch now = { g with keys := keys } ∧ ∀ key ∈ keys, key ∈ g.keys ∨ key.epoch = epoch := by
  unfold Group.insertKey
  split
  · exact ⟨g.keys, rfl, fun key hkey => .inl hkey⟩
  · refine ⟨_, rfl, fun key hkey => ?_⟩
    rcases List.mem_append.1 hkey with hkey | hkey
    · exact .inl hkey
    · exact .inr (by rw [List.mem_singleton.1 hkey])

theorem ensureCurrent_turn (h : g.ensureCurrent now = .ok g') : Turn g g' := by
  unfold Group.ensureCurrent at h
  split at h
  · cases h
  rename_i hdeleted
  split at h
  · split_ifs at h
    cases h
    obtain ⟨keys, heq, hkeys⟩ := insertKey_eq g (g.keyEpoch + 1) now
    rw [heq]
    exact .rotated keys now (by simpa using hdeleted) hkeys
  · cases h
    obtain ⟨keys, heq, hkeys⟩ := insertKey_eq g g.keyEpoch now
    rw [heq]
    exact .keyed keys hkeys

theorem rotateIfDue_turn {epoch : Int} (h : g.rotateIfDue epoch now = some g') : Turn g g' := by
  unfold Group.rotateIfDue at h
  split_ifs at h with hdue
  cases h
  exact .rotated g.keys now (by simpa using hdue.2.1) fun key hkey => .inl hkey

theorem markRekey_turn (g : Group) : Turn g g.markRekey := by
  unfold Group.markRekey
  split
  · exact .refl g
  · exact .wrote _ (follows_rekey g) rfl rfl

/-! ## Steps -/

/-- What an action of the group can do, with the effect of the call it ran. -/
inductive Does (w : World) : Action → World → Prop
  | changed (access : Access) (call : Call) (change : Impl.Chat.Groups.Change) (g' : Group)
    (hrun : call.run access w.group = .ok (change, g')) (heffect : Effect access w.group call change.added g') :
    Does w (.run access call) { w with group := g', log := memberEvents w.group g' change.added ++ w.log }
  | joined (user createdBy : String) (g' : Group) (hfollows : Follows w.group g') (hadmits : Admits w.group g' [user]) :
    Does w (.join user createdBy) { w with group := g', log := memberEvents w.group g' [user] ++ w.log }
  | sent (sender : String) (out : Group.Outgoing) (row : Message) (g' : Group) (hstored : Stored w.group row g') :
    Does w (.send sender out) { w with group := g', log := .stored row :: w.log }
  | answered (n : Nat) (request : KeyRequest) (access : Group.KeyAccess) (gate floor : Int) (w' : World)
    (hrequest : w.requests n = some (request, .list access gate)) (hgroup : w'.group = w.group)
    (hlog : w'.log = .answered request.user (w.group.listKeys floor (Group.pageSize request.maxBytes)) :: w.log) :
    Does w (.advance n) w'
  | turned (a : Action) (w' : World) (hturn : Turn w.group w'.group) (hlog : w'.log = w.log) : Does w a w'

theorem advanceRequest_does {n : Nat} (h : advanceRequest w n = some w') : Does w (.advance n) w' := by
  unfold advanceRequest at h
  split at h
  · cases h
  · split at h
    · split at h
      · cases h
        exact .turned _ _ (.refl _) rfl
      · rename_i hensure
        cases h
        exact .turned _ _ (ensureCurrent_turn hensure) rfl
    · cases h
      exact .turned _ _ (.refl _) rfl
  · cases h
    exact .turned _ _ (.refl _) rfl
  · rename_i request access gate hrequest
    cases h
    exact .answered n request access gate _ _ hrequest rfl rfl

theorem step_does (h : step w a = some w') : Does w a w' := by
  cases a with
  | read user =>
    obtain ⟨access, -, rfl⟩ := Option.map_eq_some_iff.1 h
    exact .turned _ _ (.refl _) rfl
  | run access call =>
    simp only [step] at h
    split_ifs at h with hready
    split at h
    · cases h
      exact .turned _ _ (.refl _) rfl
    · rename_i change g hrun
      cases h
      exact .changed access call change g hrun (effect_of_run hready.2 hrun)
  | join user createdBy =>
    simp only [step] at h
    split at h
    · cases h
      exact .turned _ _ (.refl _) rfl
    · rename_i row g hadmit
      cases h
      obtain ⟨hfollows, hadmits⟩ := admitMember_eq_ok hadmit
      exact .joined user createdBy g hfollows hadmits
  | send sender out =>
    simp only [step] at h
    split at h
    · cases h
      exact .turned _ _ (.refl _) rfl
    · rename_i row g hstore
      cases h
      exact .sent sender out row g (store_eq_some hstore)
  | system event =>
    simp only [step] at h
    split at h
    · cases h
      exact .turned _ _ (.refl _) rfl
    · rename_i row g hinsert
      cases h
      obtain ⟨hfollows, hmembers, -, hdeleted, -⟩ := insertSystem_eq_ok hinsert
      exact .turned _ _ (.wrote g hfollows hmembers hdeleted) rfl
  | ensureCurrent =>
    cases h
    refine .turned _ _ ?_ rfl
    cases hensure : w.group.ensureCurrent w.clock with
    | error error => exact .refl _
    | ok g => exact ensureCurrent_turn hensure
  | rotateIfDue epoch =>
    cases h
    refine .turned _ _ ?_ rfl
    cases hrotate : w.group.rotateIfDue epoch w.clock with
    | none => exact .refl _
    | some g => exact rotateIfDue_turn hrotate
  | markRekey =>
    cases h
    exact .turned _ _ (markRekey_turn _) rfl
  | setHistory visible =>
    simp only [step] at h
    split at h
    · cases h
      exact .turned _ _ (.refl _) rfl
    · cases h
      exact .turned _ _ (.wrote _ ⟨fun h => h, rfl, fun h => h, Int.le_refl _, List.Subset.refl _, [],
        (List.append_nil _).symm, nofun⟩ rfl rfl) rfl
  | request n request =>
    simp only [step] at h
    split_ifs at h
    split at h <;> cases h <;> exact .turned _ _ (.refl _) rfl
  | advance n => exact advanceRequest_does h
  | tick ms =>
    cases h
    exact .turned _ _ (.refl _) rfl

/-! ## A small group -/

theorem post_not_system : MessageClass.post ≠ .system := by decide

/-- A group of an owner and one other, who is active or invited. -/
def pair (state : MemberState) (count : Nat) : Group where
  deleted := false
  lastSeq := 1
  keyEpoch := 0
  rekey := false
  epochMessages := 0
  epochStartedAt := 0
  historyVisible := true
  memberCount := count
  members := ⟨[⟨"101", .owner, .active, 0, 0, none⟩, ⟨"202", .member, state, 0, 0, some "101"⟩],
    show ["101", "202"].Nodup by decide⟩
  keys := []
  messages := [⟨1, none, "101", .system, 0, some (.created "101")⟩]

theorem group_pair_active : Group.group "101" [("202", .active)] 0 = .ok (pair .active 2) := rfl

theorem group_pair_invited : Group.group "101" [("202", .invited)] 0 = .ok (pair .invited 1) := rfl

end SC.Proof.Chat.Groups
