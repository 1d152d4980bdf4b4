import SoundCloudBackend.Impl.Chat.Answer

/-!
# Concurrent calls on the hot cache

`HotCache::put` (`chat/hot_cache.rs`) reads the tail of the conversation, and later writes
the new tail; between the two it holds the lock of the conversation's stripe.
`HotCache::forget` is one invalidation and takes no lock, and the cache may drop a tail at
any time for its size or age. `stored` and `forgotten` are ghosts: the rows of completed
puts, and those of them that were forgotten and not put again.
-/

namespace SC.Impl.Chat.HotCalls

open Replication (Uuid)

def stripes : Nat := 64

/-- `stripe_of`: the last byte of the id. -/
def stripeOf (conversation : Uuid) : Nat := conversation.toNat % 256 % stripes

/-- A `put` that holds its stripe: its row and the tail it has read. -/
structure PutCall where
  row : MessageRow
  read : List MessageRow
  deriving DecidableEq

structure World where
  cache : HotCache
  writing : List PutCall
  stored : List MessageRow
  forgotten : List MessageRow

def init : World := ⟨fun _ => none, [], [], []⟩

inductive Action where
  | beginPut (row : MessageRow)
  | endPut (call : Nat)
  | forget (conversation : Uuid)
  | evict (conversation : Uuid)
  deriving DecidableEq

/-- The first half of `put`, once the lock is free. -/
def beginPut (w : World) (row : MessageRow) : Option World :=
  if w.writing.any fun call => stripeOf call.row.conversationId = stripeOf row.conversationId then none
  else some { w with writing := w.writing ++ [⟨row, (w.cache row.conversationId).getD []⟩] }

/-- The second half of `put`; a row that is older than the tail is not stored. -/
def endPut (w : World) (k : Nat) : Option World :=
  w.writing[k]?.map fun call =>
    { cache :=
        match HotCache.insert call.row call.read with
        | some rows => Function.update w.cache call.row.conversationId (some (HotCache.trim rows))
        | none => w.cache
      writing := w.writing.eraseIdx k
      stored := call.row :: w.stored
      forgotten := w.forgotten.filter fun row => row ≠ call.row }

def forget (w : World) (conversation : Uuid) : World :=
  { w with
    cache := w.cache.forget conversation
    forgotten := (w.stored.filter fun row => row.conversationId = conversation) ++ w.forgotten }

def step (w : World) : Action → Option World
  | .beginPut row => beginPut w row
  | .endPut call => endPut w call
  | .forget conversation => some (forget w conversation)
  | .evict conversation => some { w with cache := w.cache.forget conversation }

end SC.Impl.Chat.HotCalls
