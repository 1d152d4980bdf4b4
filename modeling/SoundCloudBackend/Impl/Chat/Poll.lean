import SoundCloudBackend.Impl.Chat.Answer

/-!
# A client that polls

The keys of one user in Redis, the bumps on them, and one client of the user:
it takes the position of an answer, sends it with the next request
(`Poll::answer`, `chat/sync/poll.rs`), and starts anew when it is told to reset.
Everything else that an answer depends on is any value at each poll.
-/

namespace SC.Impl.Chat

open Replication (Uuid)

/-- What an answer depends on besides the changes: the request, the tables and the cache. -/
structure Context where
  inc : Option Uuid
  incarnation : Uuid
  ask : Ask
  states : List ConversationState
  cache : HotCache
  stored : Messages
  fetchedAt : Int
  now : Int

def Context.look (context : Context) (pos : Nat) (changes : Changes) : Look :=
  Chat.look pos context.inc context.incarnation context.ask.includeFocus changes

def Context.build (context : Context) (changes : Changes) : Assembly :=
  Chat.build context.ask changes context.states context.cache context.stored context.fetchedAt context.now

structure Reply where
  version : Nat
  context : Context
  answer : Assembly

/-- A client: the position that it started from, its position now, and the answers since. -/
structure Client where
  start : Nat
  pos : Nat
  replies : List Reply

def Client.at (pos : Nat) : Client := ⟨pos, pos, []⟩

/-- The keys, the clock of Redis in milliseconds, the client, and every bump with the newest first. -/
structure Feed where
  store : Store
  clock : Nat
  client : Option Client
  bumped : List Delta

namespace Feed

def start (clock : Nat) : Feed := ⟨.empty, clock, none, []⟩

def lastBump (s : Feed) (member : Change) : Option Nat :=
  (s.bumped.find? fun d => d.change = member).map Delta.version

def bump (before : Change → Change → Bool) (members : List Change) (s : Feed) : Feed :=
  let store := s.store.bump before s.clock members
  { s with store := store, bumped := members.map (⟨store.v.getD 0, ·⟩) ++ s.bumped }

def join (context : Context) (pos : Nat) (s : Feed) : Feed :=
  let (store, changes) := s.store.read s.clock pos
  match context.look pos changes with
  | .reset versions => { s with store := store, client := some (.at versions.version) }
  | .news changes => { s with store := store, client := some (.at (context.build changes).pos) }
  | .quiet => { s with store := store }

def poll (context : Context) (client : Client) (s : Feed) : Feed :=
  let (store, changes) := s.store.read s.clock client.pos
  match context.look client.pos changes with
  | .reset versions => { s with store := store, client := some (.at versions.version) }
  | .news changes =>
    let answer := context.build changes
    let reply := ⟨changes.versions.version, context, answer⟩
    { s with
      store := store
      client := some { client with pos := answer.pos, replies := reply :: client.replies } }
  | .quiet => { s with store := store }

end Feed

inductive FeedAction where
  | bump (members : List Change)
  | rememberRequests (count : Nat)
  | read (pos : Nat)
  | join (context : Context) (pos : Nat)
  | poll (context : Context)
  /-- Both keys expire; the clock is past their version by then. -/
  | expire
  | tick (wait : Nat)

/-- A step of the feed. `before` is the order of the members of the set. -/
def feedStep (before : Change → Change → Bool) (s : Feed) : FeedAction → Option Feed
  | .bump members => some (s.bump before members)
  | .rememberRequests count => some { s with store := s.store.rememberRequests count }
  | .read pos => some { s with store := (s.store.read s.clock pos).1 }
  | .join context pos => some (s.join context pos)
  | .poll context => s.client.map fun client => s.poll context client
  | .expire => if s.store.v.all fun v => v < s.clock then some { s with store := .empty } else none
  | .tick wait => some { s with clock := s.clock + wait }

end SC.Impl.Chat
