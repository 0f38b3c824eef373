import KeyedStore.Identity
import KeyedStore.Policy
import KeyedStore.Slots
import KeyedStore.HashedMap.Sizes
/-!
The hashed map: an array of chains, each a list of links in the order in which they were attached. A
link keeps the hash of the key as it was passed, so moving it to another bucket never asks the policy
again, and a serial number that is higher than every number given out before it was attached.
-/
namespace KeyedStore

/-- A stored key, its hash, its serial number, and where its value lies (`Entry`). -/
structure Link (K : Type) where
  handle : Handle
  key : Held K
  hash : UInt64
  serial : Nat
  deriving DecidableEq

/-- The entries of one bucket, in the order in which they were attached. -/
abbrev Chain (K : Type) := List (Link K)

/-- A hashed map (`HashTable`). -/
structure HashedMap (K V : Type) where
  id : Identity
  policy : HashPolicy K V
  /-- Refuses to replace the value of a key that is present. -/
  noOverwrite : Bool
  rung : Rung := Rung.lowest
  buckets : Array (Chain K) := Array.replicate Rung.lowest.size []
  slots : Slots (Held V) := .empty
  nextSerial : Nat := 0
  /-- Counts new entries, removals, releases and rebuildings. -/
  transactions : Nat := 0
  /-- Counts rebuildings. -/
  epoch : Nat := 0

namespace HashedMap

variable {K V : Type}

/-- The number of entries (`len`). -/
def size (map : HashedMap K V) : Nat := map.slots.size

/-- There are no entries (`is_empty`). -/
def isEmpty (map : HashedMap K V) : Bool := map.size == 0

/-- The number of buckets (`bucket_count`). -/
def bucketCount (map : HashedMap K V) : Nat := map.buckets.size

/-- The sizes at which the table grows and below which it shrinks (`load`). -/
def limits (map : HashedMap K V) : Nat × Nat := (map.rung.growAt, map.rung.shrinkBelow)

/-- The bucket of a hash among so many. -/
def bucketIndex (hash : UInt64) (count : Nat) : Nat := hash.toNat % count

/-- The bucket of a hash, with its chain (`bucket_of`). -/
def chainOf (map : HashedMap K V) (hash : UInt64) : Except Fault (Nat × Chain K) :=
  let bucket := bucketIndex hash map.bucketCount
  match map.buckets[bucket]? with
  | some chain => .ok (bucket, chain)
  | none => .error .noBucket

/-- The link answers a search: its hash is the sought one and the policy calls the keys equal. -/
def answers (policy : HashPolicy K V) (key : K) (hash : UInt64) (link : Link K) : Bool :=
  link.hash == hash && policy.base.compare key link.key.val == .eq

/-- The first link in its chain that answers the search for a key (`find`). -/
def find (map : HashedMap K V) (key : K) : Except Fault (Option (Link K)) := do
  let hash := map.policy.hash key
  let (_, chain) ← map.chainOf hash
  return chain.find? (answers map.policy key hash)

/-- Key and value of a link that a chain holds. -/
def entry (map : HashedMap K V) (link : Link K) : Except Fault (K × V) := do
  let value ← map.slots.fetch link.handle
  return (link.key.val, value.val)

/-- The stored key and the value that a key finds (`get_key_value`). -/
def lookupEntry (map : HashedMap K V) (key : K) : Except Fault (Option (K × V)) := do
  match ← map.find key with
  | none => return none
  | some link => return some (← map.entry link)

/-- The value that a key finds (`get`). -/
def lookup (map : HashedMap K V) (key : K) : Except Fault (Option V) := do
  return (← map.lookupEntry key).map (·.2)

/-- The key is present (`contains_key`). -/
def contains (map : HashedMap K V) (key : K) : Except Fault Bool := do
  return (← map.lookup key).isSome

/-- Puts a link at the end of the chain of its bucket, under the next serial number (`append`). -/
def attach (map : HashedMap K V) (link : Link K) : Except Fault (HashedMap K V) := do
  let (bucket, chain) ← map.chainOf link.hash
  return { map with
    buckets := map.buckets.setIfInBounds bucket (chain ++ [{ link with serial := map.nextSerial }])
    nextSerial := map.nextSerial + 1 }

/-- Takes a link out of the chain of its bucket (`unlink`). -/
def detach (map : HashedMap K V) (link : Link K) : Except Fault (HashedMap K V) := do
  let (bucket, chain) ← map.chainOf link.hash
  return { map with
    buckets := map.buckets.setIfInBounds bucket (chain.eraseP (·.handle = link.handle)) }

/-- Every link, by bucket and along each chain. -/
def links (map : HashedMap K V) : List (Link K) := map.buckets.toList.flatten

/-- Moves to another rung: the buckets start empty and every link is attached again, in the order of the old buckets
and chains (`resize`). -/
def rebuild (map : HashedMap K V) (rung : Rung) : Except Fault (HashedMap K V) := do
  let bare := { map with rung := rung, buckets := Array.replicate rung.size [] }
  let filled ← map.links.foldlM attach bare
  return { filled with epoch := map.epoch + 1, transactions := map.transactions + 1 }

/-- One step along the ladder (`rebalance`), if the number of entries calls for it and memory is granted for the
other array of buckets. A table that is refused the array stays as it is until the next change asks again. -/
def settle (map : HashedMap K V) (granted : Bool := true) : Except Fault (HashedMap K V) :=
  match map.rung.towards? map.size with
  | some rung => if granted then map.rebuild rung else .ok map
  | none => .ok map

/-- Adds an entry, or replaces the value of the entry that the key finds (`insert`). Only an addition that makes an
entry lets the table settle, and it does so before the entry is counted. -/
def insert (map : HashedMap K V) (key : Held K) (value : Held V) (granted : Bool := true) :
    Except Fault (Except AddError Addition × HashedMap K V) := do
  match ← map.find key.val with
  | some link =>
    if map.noOverwrite then return (.error .keyExists, map)
    let slots ← map.slots.replace link.handle (map.policy.base.secureValue value)
    return (.ok .updated, { map with slots := slots })
  | none =>
    if map.slots.isFull then return (.error .noRoom, map)
    let settled ← map.settle granted
    let longer ← settled.attach {
      handle := settled.slots.next
      key := settled.policy.base.secureKey key
      hash := settled.policy.hash key.val
      serial := settled.nextSerial }
    return (.ok .inserted, { longer with
      slots := settled.slots.insert (settled.policy.base.secureValue value)
      transactions := settled.transactions + 1 })

/-- Takes out the entry that the key finds and hands back its value as it was held (`remove`). Only a removal that
leaves the table too empty lets it settle. -/
def remove (map : HashedMap K V) (key : K) (granted : Bool := true) :
    Except Fault (Option (Held V) × HashedMap K V) := do
  match ← map.find key with
  | none => return (none, map)
  | some link =>
    let detached ← map.detach link
    let (value, slots) ← map.slots.take link.handle
    let shorter := { detached with slots := slots, transactions := map.transactions + 1 }
    if shorter.size < shorter.rung.shrinkBelow then return (some value, ← shorter.settle granted)
    return (some value, shorter)

/-- Releases every entry, bucket by bucket along each chain, and says how many there were (`destroy`). The bucket
count stays; releasing nothing is no transaction. -/
def releaseAll (map : HashedMap K V) : Except Fault (Nat × HashedMap K V) := do
  let slots ← map.links.foldlM (fun slots link => do return (← slots.take link.handle).2) map.slots
  let released := map.links.length
  return (released, { map with
    buckets := Array.replicate map.bucketCount []
    slots := slots
    transactions := if released = 0 then map.transactions else map.transactions + 1 })

/-- Releases every entry and returns to the lowest rung, if memory is granted for its array (`clear`). -/
def clear (map : HashedMap K V) (granted : Bool := true) : Except Fault (Nat × HashedMap K V) := do
  let (released, bare) ← map.releaseAll
  if bare.rung = Rung.lowest then return (released, bare)
  if granted then return (released, ← bare.rebuild Rung.lowest)
  return (released, bare)

/-- The number of entries in each bucket (`chain_lengths`). -/
def chainSizes (map : HashedMap K V) : List Nat := map.buckets.toList.map List.length

end HashedMap

end KeyedStore
