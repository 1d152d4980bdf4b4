import SoundCloudBackend.Impl.Rooms.Model

/-!
# The operations of a room

Moderation, the change of host, settings and playback
(`api/src/modules/rooms/model/{moderation,handoff,settings,backdrop,title,playback}.rs`),
and `perform`, which runs an operation and drops the copy that failed.
-/

namespace SC.Impl.Rooms

/-! ## Moderation -/

/-- `MAX_BANNED`, `MAX_MUTED`, `MAX_MUTE_SECS` and `MAX_USER_ID_CHARS`. -/
def maxBanned : Nat := 200
def maxMuted : Nat := 200
def maxMuteSecs : Nat := 24 * 3600
def maxUserIdChars : Nat := 24

def plausibleUser (id : UserId) : Bool :=
  let digits := (stripFront "lt:" id).toList
  id.utf8ByteSize ≤ maxUserIdChars ∧ digits ≠ [] ∧ digits.all Char.isDigit

def trimFront {α : Type} (list : List α) (max : Nat) : List α :=
  list.drop (list.length - max)

namespace Room

def isModerator (r : Room) (userId : UserId) : Bool := userId ∈ r.moderators

def canModerate (r : Room) (userId : UserId) : Bool := r.isHost userId || r.isModerator userId

def mayActOn (r : Room) (actor target : UserId) : Except AppError Unit :=
  let outranked := r.isHost target || (!r.isHost actor && r.isModerator target)
  if !r.canModerate actor || actor = target || outranked then .error notAllowed else .ok ()

def kick (r : Room) (actor target : UserId) : Except AppError Room := do
  r.mayActOn actor target
  if !r.removes target then .error missing else .ok (r.remove target)

def ban (r : Room) (actor target : UserId) : Except AppError Room :=
  if !r.isHost actor then .error hostOnly
  else if actor = target then .error notAllowed
  else if !r.isMember target && !plausibleUser target then .error missing
  else
    let r := r.remove target
    let banned := if r.isBanned target then r.banned else r.banned ++ [target]
    .ok { r with banned := trimFront banned maxBanned }

def mute (r : Room) (actor target : UserId) (seconds : Nat) (now : Int) : Except AppError Room := do
  r.mayActOn actor target
  if !r.isMember target then .error missing
  else
    let muted := r.muted.filter fun m => m.untilMs > now ∧ m.userId ≠ target
    let muted := if seconds > 0 then muted ++ [⟨target, now + (min seconds maxMuteSecs : Nat) * 1000⟩] else muted
    .ok { r with muted := trimFront muted maxMuted }

def setModerator (r : Room) (actor target : UserId) (on : Bool) : Except AppError Room :=
  if !r.isHost actor then .error hostOnly
  else if r.isHost target then .error notAllowed
  else if !on then .ok { r with moderators := r.moderators.filter fun id => id ≠ target }
  else if !r.isMember target then .error missing
  else if r.isModerator target then .ok r
  else if r.perks.modsMax ≤ r.moderators.length then .error moderatorsFull
  else .ok { r with moderators := r.moderators ++ [target] }

/-! ## Change of host -/

/-- `a.joined_at.cmp(&b.joined_at).then_with(|| a.user_id.cmp(&b.user_id))` is `Less`. -/
def earlier (a b : Member) : Bool :=
  a.joinedAt < b.joinedAt ∨ (a.joinedAt = b.joinedAt ∧ a.userId < b.userId)

/-- `min_by`: the first of the least members. -/
def minMember : List Member → Option Member
  | [] => none
  | m :: ms => some (ms.foldl (fun least m => if earlier m least then m else least) m)

def nextHost (r : Room) (leaving : UserId) (candidates : List UserId) : Option UserId :=
  (minMember (r.members.filter fun m => m.userId ≠ leaving ∧ m.userId ∈ candidates)).map Member.userId

def dropImageBackdrop (r : Room) : Room :=
  match r.backdrop with
  | some (.image _) => { r with backdrop := none }
  | _ => r

/-- `hand_off`; `none` leaves the room as it is. -/
def handOff (r : Room) (leaving : UserId) (candidates : List UserId) : Option (Room × UserId) :=
  match r.nextHost leaving candidates with
  | none => none
  | some next =>
    let r := r.remove leaving
    some (dropImageBackdrop { r with
      hostId := next
      moderators := r.moderators.filter fun id => id ≠ next
      muted := r.muted.filter fun m => m.userId ≠ next }, next)

end Room

/-! ## Settings -/

def maxSlowModeSecs : Nat := 600

def presets : List String :=
  ["aurora", "vinyl", "sunset-clouds", "ocean-rays", "dunes", "misty-forest", "snow-lamp", "satin", "paper",
    "peach-clouds", "pastel-lake", "watercolor", "candy-sky"]

def Backdrop.known : Backdrop → Bool
  | .preset id => id ∈ presets
  | .image _ => true

def invisible (c : Char) : Bool :=
  let n := c.toNat
  (0x200B ≤ n ∧ n ≤ 0x200F) ∨ (0x202A ≤ n ∧ n ≤ 0x202E) ∨ (0x2060 ≤ n ∧ n ≤ 0x2069) ∨ n = 0xFEFF

def cleanTitle (raw : String) : Option String :=
  let visible := (raw.toList.map fun c => if isWhitespace c then ' ' else c).filter fun c =>
    !isControl c && !invisible c
  let title := trimEnd ((joinWords visible).take 48)
  if title = [] then none else some (String.ofList title)

/-- `SettingsPatch`. A field that is set to `null` is `some none`. -/
structure SettingsPatch where
  title : Option String := none
  slowModeS : Option Nat := none
  chatEnabled : Option Bool := none
  links : Option Bool := none
  cover : Option (Option Cover) := none
  roomImages : Option RoomImages := none
  backdrop : Option (Option Backdrop) := none
  deriving DecidableEq

def SettingsPatch.setsStarPerk (patch : SettingsPatch) : Bool :=
  patch.cover.join.isSome || patch.backdrop.join.isSome

namespace Room

section Settings

-- `artwork_url`, which parses a URL
variable (artworkUrl : String → Option String)

def checkedCover (cover : Cover) : Option Cover := do
  let url ← artworkUrl cover.url
  guard (cover.accent < coverAccents)
  return ⟨url, cover.accent⟩

/-- The cover of a patch, and the error of one that is not valid. -/
def patchCover (r : Room) : Option (Option Cover) → Except AppError Room
  | none => .ok r
  | some none => .ok { r with cover := none }
  | some (some cover) =>
    match checkedCover artworkUrl cover with
    | some cover => .ok { r with cover := some cover }
    | none => .error invalid

def patchImages (r : Room) : Option RoomImages → Except AppError Room
  | none => .ok r
  | some policy =>
    if policy = .members ∧ r.isPublic then .error invalid else .ok { r with roomImages := some policy }

def patchBackdrop (r : Room) (cooldown : Option Int) : Option (Option Backdrop) → Except AppError Room
  | none => .ok r
  | some none => .ok { r with backdrop := none }
  | some (some backdrop) =>
    if !backdrop.known then .error invalid
    else
      match backdrop, cooldown with
      | .image _, some _ => .error coolingDown
      | _, _ => .ok { r with backdrop := some backdrop }

/-- The fields of a patch that cannot fail. -/
def patchRest (r : Room) (patch : SettingsPatch) : Room :=
  { r with
    title := match patch.title with
      | some title => cleanTitle title
      | none => r.title
    slowModeS := match patch.slowModeS with
      | some seconds => some (min seconds maxSlowModeSecs)
      | none => r.slowModeS
    chatEnabled := patch.chatEnabled.getD r.chatEnabled
    links := patch.links.getD r.links }

def applySettings (r : Room) (actor : UserId) (patch : SettingsPatch) (cooldown : Option Int) :
    Except AppError Room :=
  if !r.isHost actor then .error hostOnly
  else if patch.setsStarPerk && !r.perks.starHost then .error starRequired
  else do
    let r ← r.patchCover artworkUrl patch.cover
    let r ← r.patchImages patch.roomImages
    let r ← r.patchBackdrop cooldown patch.backdrop
    return r.patchRest patch

end Settings

end Room

/-! ## Playback -/

/-- `MAX_TRACK_BYTES`, `MAX_START_LEAD_MS` and `MAX_CROSSFADE_SEC`. -/
def maxTrackBytes : Nat := 24 * 1024
def maxStartLeadMs : Int := 3000
def maxCrossfadeSec : Nat := 12

structure PlaybackUpdate where
  status : PlaybackStatus
  track : Option String := none
  trackUrn : Option String := none
  nextTrack : Option String := none
  positionMs : Int := 0
  leadMs : Int := 0
  rate : Option Rat := none
  crossfadeSec : Option Nat := none
  deriving DecidableEq

/-- `require_ref(EntityKind::Track, urn)?.urn()`. -/
def requireTrackUrn (urn : String) : Except AppError String :=
  match EntityRef.parse .track urn with
  | some r => .ok r.urn
  | none => .error (.badRequest "invalid track identifier")

/-- `check_snapshot`; the text of a JSON object starts with a brace. -/
def checkSnapshot : Option String → Except AppError Unit
  | none => .ok ()
  | some track =>
    if track.utf8ByteSize > maxTrackBytes ∨ track.toList.head? ≠ some '\x7b' then
      .error (.badRequest "track snapshot is too large")
    else .ok ()

def PlaybackUpdate.canonicalUrn (update : PlaybackUpdate) : Except AppError (Option String) :=
  match update.trackUrn with
  | some urn => (requireTrackUrn urn).map some
  | none => .ok none

namespace Room

def setPlayback (r : Room) (userId : UserId) (update : PlaybackUpdate) (now : Int) : Except AppError Room :=
  if !r.isHost userId then .error (.forbidden "Only the host controls playback")
  else do
    let trackUrn ← update.canonicalUrn
    if trackUrn.isNone ∧ update.status ≠ .idle then .error (.badRequest "trackUrn is required")
    else
      checkSnapshot update.track
      checkSnapshot update.nextTrack
      let sameTrack := trackUrn = r.playback.trackUrn
      return { r with
        playback :=
          { status := update.status
            track := update.track.or (if sameTrack then r.playback.track else none)
            trackUrn := trackUrn
            nextTrack := update.nextTrack.or (if sameTrack then r.playback.nextTrack else none)
            positionMs := max update.positionMs 0
            at_ := now + min (max update.leadMs 0) maxStartLeadMs
            rate := min (max (update.rate.getD 1) (1 / 2)) 2
            crossfadeSec := min (update.crossfadeSec.getD r.playback.crossfadeSec) maxCrossfadeSec } }

def markReady (r : Room) (userId : UserId) (trackUrn : String) : Except AppError Room := do
  let urn ← requireTrackUrn trackUrn
  if !r.isMember userId then .error notMember
  else return { r with
    members := modifyFirst (fun m => m.userId = userId) (fun m => { m with readyUrn := some urn }) r.members }

end Room

/-! ## Runs -/

inductive RoomOp where
  | join (member : Member)
  | remove (userId : UserId)
  | kick (actor target : UserId)
  | ban (actor target : UserId)
  | mute (actor target : UserId) (seconds : Nat) (now : Int)
  | setModerator (actor target : UserId) (on : Bool)
  | handOff (leaving : UserId) (candidates : List UserId)
  | dropAbsent (online : List UserId) (joinedAfter : Int)
  | setPublic (userId : UserId) (isPublic : Bool)
  | applySettings (actor : UserId) (patch : SettingsPatch) (cooldown : Option Int)
  | setPlayback (userId : UserId) (update : PlaybackUpdate) (now : Int)
  | markReady (userId : UserId) (trackUrn : String)
  | setPerks (perks : Perks)
  deriving DecidableEq

/-- The room after an operation, or its error. -/
def Room.change (artworkUrl : String → Option String) (r : Room) : RoomOp → Except AppError Room
  | .join member => r.join member
  | .remove userId => .ok (r.remove userId)
  | .kick actor target => r.kick actor target
  | .ban actor target => r.ban actor target
  | .mute actor target seconds now => r.mute actor target seconds now
  | .setModerator actor target on => r.setModerator actor target on
  | .handOff leaving candidates => .ok (((r.handOff leaving candidates).map Prod.fst).getD r)
  | .dropAbsent online joinedAfter => .ok (r.dropAbsent online joinedAfter)
  | .setPublic userId isPublic => r.setPublic userId isPublic
  | .applySettings actor patch cooldown => r.applySettings artworkUrl actor patch cooldown
  | .setPlayback userId update now => r.setPlayback userId update now
  | .markReady userId trackUrn => r.markReady userId trackUrn
  | .setPerks perks => .ok { r with perks := perks }

def Room.perform (artworkUrl : String → Option String) (r : Room) (op : RoomOp) : Room :=
  match r.change artworkUrl op with
  | .ok r => r
  | .error _ => r

/-- A step of a run. The service never removes the host: it hands the room off or ends it. -/
def roomStep (artworkUrl : String → Option String) (r : Room) (op : RoomOp) : Option Room :=
  if op = .remove r.hostId then none else some (r.perform artworkUrl op)

end SC.Impl.Rooms
