import SoundCloudBackend.Impl.Chat.Store

/-!
# Posts before a request is accepted

`request_room` (`chat/messages/gate.rs`) in front of the store of a message: while the
peer of a direct conversation is invited, `deliver` counts the posts of the sender
(`api/queries/chat/messages/posts_by.sql`) and later stores the message in a transaction
of its own. The calls of the sender pass the count first; everything else on the
conversation is a step of `SC.Impl.Chat.Store`.
-/

namespace SC.Impl.Chat.Requests

open Replication (Uuid)
open Chat.Store (Row Access Outgoing)

def messagesBeforeAccept : Nat := 3

def postsBy (messages : List Row) (user : String) (clientId : Uuid) : Nat :=
  messages.countP fun row => row.senderUser = user ∧ row.messageClass = .post ∧ row.clientId ≠ clientId

/-- `request_room`, while the peer is invited: whether the message may be stored. -/
def requestRoom (messages : List Row) (access : Access) (out : Outgoing) : Bool :=
  out.messageClass ≠ .post ∨ postsBy messages access.userId out.clientId < messagesBeforeAccept

/-- A call that `request_room` has let through, and the posts that it counted. -/
structure Gate where
  access : Access
  device : Uuid
  out : Outgoing
  sent : Nat

structure World where
  store : Store.World
  gates : Nat → Option Gate

def World.start (c : Store.Conversation) (clock : Int) : World := ⟨.start c clock, fun _ => none⟩

inductive Action where
  | request (n : Nat) (access : Access) (device : Uuid) (out : Outgoing)
  | enter (n : Nat)
  | store (a : Store.Action)

/-- The call of a user that reaches the store without the count. -/
def Sends (user : String) : Store.Action → Bool
  | .send _ access _ _ _ => access.userId = user
  | _ => false

/-- A step, with `sender` the user whose request is open. -/
def step (sender : String) (w : World) : Action → Option World
  | .request n access device out =>
    if access.userId ≠ sender ∨ (w.gates n).isSome ∨ (w.store.sends n).isSome then none
    else if requestRoom w.store.messages access out then
      let gate : Gate := ⟨access, device, out, postsBy w.store.messages access.userId out.clientId⟩
      some { w with gates := Function.update w.gates n (some gate) }
    else some w
  | .enter n =>
    (w.gates n).bind fun gate =>
      (Store.step w.store (.send n gate.access gate.device gate.out none)).map fun store => { w with store := store }
  | .store a => if Sends sender a then none else (Store.step w.store a).map fun store => { w with store := store }

end SC.Impl.Chat.Requests
