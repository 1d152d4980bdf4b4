import SoundCloudBackend.Impl.Chat.Epochs

/-!
# Invite links

One link of a group: `join_with`, `admit_member` and `revoke` (`chat/invites.rs`) with
their statements in `api/queries/chat/invites`. Each statement of a join before its
transaction is a step and reads what is committed. In the transaction `now()` is the time
at which it began; `consume.sql` locks the row of the link and `lock_group.sql` that of the
conversation, and what they write takes effect at the commit. Everything else on the group
is a step of `SC.Impl.Chat.Groups`. The answers of `users::check` and
`blocked_between` are inputs, and a call can fail at every step, which rolls its
transaction back.
-/

namespace SC.Impl.Chat.Invites

open Chat.Groups

/-- The row of the link in `chat.invites`. -/
structure Invite where
  createdBy : String
  expiresAt : Int
  usesLeft : Option Int
  revoked : Bool
  deriving DecidableEq

/-- `JoinAnswer`, or an error; `refused` is the error of a check outside. -/
inductive Answer where
  | joined
  | stayed
  | error (error : ChatError)
  | refused
  deriving DecidableEq

/-- Where a join is. From `lockGroup` on it holds the row of the link, and in `admitMember` that of the group. -/
inductive Phase where
  | find
  | membership (usesLeft : Option Int)
  | check
  | begin_
  | consume (begun : Int)
  | lockGroup (begun : Int)
  | admitMember (begun : Int)
  | done (answer : Answer)
  deriving DecidableEq

structure Join where
  user : String
  phase : Phase
  deriving DecidableEq

/-- The group, the link, the holders of their locks, the joins, and the callers of `revoke` whose statement found a
link that they may revoke. `joined` has the calls that answered `joined = true`, the last one first. -/
structure World where
  groups : Groups.World
  invite : Invite
  inviteLock : Option Nat
  groupLock : Option Nat
  joins : Nat → Option Join
  revokers : List String
  joined : List Nat

def World.start (group : Group) (clock : Int) (invite : Invite) : World :=
  ⟨.start group clock, invite, none, none, fun _ => none, [], []⟩

namespace World

def clock (w : World) : Int := w.groups.clock

def group (w : World) : Group := w.groups.group

def setJoin (w : World) (n : Nat) (j : Join) (phase : Phase) : World :=
  { w with joins := Function.update w.joins n (some { j with phase := phase }) }

def endJoin (w : World) (n : Nat) (j : Join) (answer : Answer) : World :=
  { w.setJoin n j (.done answer) with
    inviteLock := if w.inviteLock = some n then none else w.inviteLock
    groupLock := if w.groupLock = some n then none else w.groupLock }

end World

def creatorLeads (g : Group) (invite : Invite) : Bool :=
  !g.deleted && (g.members.find invite.createdBy).any fun m => m.state = .active ∧ m.role.isAdmin

def find (w : World) : Option (Option Int) :=
  if w.invite.revoked = false ∧ w.invite.expiresAt > w.clock ∧ creatorLeads w.group w.invite then
    some w.invite.usesLeft
  else none

/-- The condition of `consume.sql` in a transaction that began at `begun`. -/
def Consumes (invite : Invite) (begun : Int) : Prop :=
  invite.revoked = false ∧ invite.expiresAt > begun ∧ invite.usesLeft.all fun uses => uses > 0

instance (invite : Invite) (begun : Int) : Decidable (Consumes invite begun) :=
  inferInstanceAs (Decidable (_ ∧ _ ∧ _))

def Invite.consumed (invite : Invite) : Invite := { invite with usesLeft := invite.usesLeft.map fun uses => uses - 1 }

/-- The condition of `revoke.sql`: the caller made the link, or leads the group. -/
def mayRevoke (w : World) (user : String) : Bool :=
  w.invite.createdBy = user || (w.group.members.find user).any fun m => m.state = .active ∧ m.role.isAdmin

/-- The steps of the group that take no lock of its row. `unban` is one statement on banned members. -/
def lockless : Groups.Action → Bool
  | .read _ | .tick _ | .request _ _ => true
  | .run _ (.unban _) => true
  | _ => false

/-- The steps. The join of a user through another link is one of the group. -/
inductive Action where
  | join (n : Nat) (user : String)
  | find (n : Nat)
  | membership (n : Nat)
  | check (n : Nat) (refused : Bool)
  | begin_ (n : Nat)
  | consume (n : Nat)
  | lockGroup (n : Nat)
  | admitMember (n : Nat)
  | fail (n : Nat)
  | askRevoke (user : String)
  | revoke (user : String)
  | group (a : Groups.Action)

/-- The statements of `admit_member` under the lock of the group, and the commit. Meanwhile only `unban` changes the
members, and it does not touch the row of somebody who is not banned. -/
def admitMember (w : World) (n : Nat) (j : Join) : World :=
  match w.group.admitMember j.user w.invite.createdBy with
  | .error error => w.endJoin n j (.error error)
  | .ok (_, g) =>
    { w.endJoin n j .joined with
      groups := { w.groups with group := g, log := memberEvents w.group g [j.user] ++ w.groups.log }
      invite := w.invite.consumed
      joined := n :: w.joined }

def step (w : World) : Action → Option World
  | .join n user => if (w.joins n).isSome then none else some (w.setJoin n ⟨user, .find⟩ .find)
  | .find n =>
    (w.joins n).bind fun j =>
      match j.phase with
      | .find =>
        match find w with
        | none => some (w.endJoin n j (.error .notFound))
        | some usesLeft => some (w.setJoin n j (.membership usesLeft))
      | _ => none
  | .membership n =>
    (w.joins n).bind fun j =>
      match j.phase with
      | .membership usesLeft =>
        match (w.group.members.find j.user).map Member.state with
        | some .active => some (w.endJoin n j .stayed)
        | some .banned => some (w.endJoin n j (.error .unavailable))
        | _ =>
          if usesLeft.any fun uses => uses ≤ 0 then some (w.endJoin n j (.error .notFound))
          else some (w.setJoin n j .check)
      | _ => none
  | .check n refused =>
    (w.joins n).bind fun j =>
      match j.phase with
      | .check => some (if refused then w.endJoin n j .refused else w.setJoin n j .begin_)
      | _ => none
  | .begin_ n =>
    (w.joins n).bind fun j =>
      match j.phase with
      | .begin_ => some (w.setJoin n j (.consume w.clock))
      | _ => none
  | .consume n =>
    (w.joins n).bind fun j =>
      match j.phase with
      | .consume begun =>
        if ¬ Consumes w.invite begun then some (w.endJoin n j (.error .notFound))
        else if w.inviteLock = none then some { w.setJoin n j (.lockGroup begun) with inviteLock := some n }
        else none
      | _ => none
  | .lockGroup n =>
    (w.joins n).bind fun j =>
      match j.phase with
      | .lockGroup begun =>
        if w.group.deleted then some (w.endJoin n j (.error .notFound))
        else if w.groupLock = none then some { w.setJoin n j (.admitMember begun) with groupLock := some n }
        else none
      | _ => none
  | .admitMember n =>
    (w.joins n).bind fun j =>
      match j.phase with
      | .admitMember _ => some (admitMember w n j)
      | _ => none
  | .fail n =>
    (w.joins n).bind fun j =>
      match j.phase with
      | .done _ => none
      | _ => some (w.endJoin n j (.error .internal))
  | .askRevoke user =>
    some (if w.invite.revoked = false ∧ mayRevoke w user then { w with revokers := user :: w.revokers } else w)
  | .revoke user =>
    if user ∈ w.revokers ∧ w.inviteLock = none then
      some { w with revokers := w.revokers.erase user, invite := { w.invite with revoked := true } }
    else none
  | .group a =>
    if lockless a ∨ w.groupLock = none then (Groups.step w.groups a).map fun groups => { w with groups := groups }
    else none

end SC.Impl.Chat.Invites
