import KeyedStore.HashedMap.Basic
/-!
The hashed map with its chains threaded through the entries. A bucket knows the first and the last entry
of its chain, every entry knows the one before and the one after it, and a change of a chain is a change
of these handles. A chain is walked from its head, and the walk is given up when it goes on for longer
than there are entries.
-/
namespace KeyedStore

/-- An entry with its place in the chain of its bucket: the entries before and after it (`Entry`). -/
structure Knot (K V : Type) where
  prev : Option Handle
  next : Option Handle
  hash : UInt64
  serial : Nat
  key : Held K
  value : Held V

/-- The ends of the chain of a bucket (`Chain`). -/
structure ChainEnds where
  head : Option Handle := none
  tail : Option Handle := none
  deriving DecidableEq

/-- A hashed map of entries in storage (`HashTable`). -/
structure ThreadedMap (K V : Type) where
  id : Identity
  policy : HashPolicy K V
  noOverwrite : Bool
  rung : Rung := Rung.lowest
  ends : Array ChainEnds := Array.replicate Rung.lowest.size {}
  knots : Slots (Knot K V) := .empty
  nextSerial : Nat := 0
  transactions : Nat := 0
  epoch : Nat := 0

namespace ThreadedMap

variable {K V σ : Type}

/-- The number of entries (`len`). -/
def size (map : ThreadedMap K V) : Nat := map.knots.size

/-- The number of buckets (`bucket_count`). -/
def bucketCount (map : ThreadedMap K V) : Nat := map.ends.size

/-- The sizes at which the table grows and below which it shrinks (`load`). -/
def limits (map : ThreadedMap K V) : Nat × Nat := (map.rung.growAt, map.rung.shrinkBelow)

/-- The bucket of a hash (`bucket_of`). -/
def bucketOf (map : ThreadedMap K V) (hash : UInt64) : Nat :=
  HashedMap.bucketIndex hash map.bucketCount

/-- The bucket of a hash, as long as there are buckets (`bucket_of`). -/
def placeOf (map : ThreadedMap K V) (hash : UInt64) : Except Fault Nat :=
  if map.bucketCount = 0 then .error .zeroModulus else .ok (map.bucketOf hash)

/-- The ends of the chain of a bucket that is relied upon to be there. -/
def endsOf (map : ThreadedMap K V) (bucket : Nat) : Except Fault ChainEnds :=
  match map.ends[bucket]? with
  | some ends => .ok ends
  | none => .error .noBucket

/-! ### Walks -/

/-- Walks the chains of some buckets, one after the other. -/
def sweep (act : σ → Handle → Except Fault (Option Handle × σ)) (limit : Nat) (buckets : List ChainEnds)
    (state : σ) : Except Fault σ :=
  buckets.foldlM (fun state ends => wander act limit ends.head state) state

/-- Looks at one entry in the search for a key. The walk ends where the key is found. -/
def inspect (map : ThreadedMap K V) (key : K) (hash : UInt64) (found : Option Handle) (handle : Handle) :
    Except Fault (Option Handle × Option Handle) := do
  let knot ← map.knots.fetch handle
  if knot.hash == hash && map.policy.base.compare key knot.key.val == .eq then return (none, some handle)
  return (knot.next, found)

/-- The first entry in its chain that answers the search for a key (`find`). -/
def find (map : ThreadedMap K V) (key : K) : Except Fault (Option Handle) := do
  let hash := map.policy.hash key
  let ends ← map.endsOf (← map.placeOf hash)
  wander (map.inspect key hash) map.size ends.head none

/-- The stored key and the value that a key finds (`get_key_value`). -/
def lookupEntry (map : ThreadedMap K V) (key : K) : Except Fault (Option (K × V)) := do
  match ← map.find key with
  | none => return none
  | some handle =>
    let knot ← map.knots.fetch handle
    return some (knot.key.val, knot.value.val)

/-- The value that a key finds (`get`). -/
def lookup (map : ThreadedMap K V) (key : K) : Except Fault (Option V) := do
  return (← map.lookupEntry key).map (·.2)

/-- The key is present (`contains_key`). -/
def contains (map : ThreadedMap K V) (key : K) : Except Fault Bool := do
  return (← map.lookup key).isSome

/-- Counts one entry. -/
def tally (map : ThreadedMap K V) (count : Nat) (handle : Handle) : Except Fault (Option Handle × Nat) := do
  let knot ← map.knots.fetch handle
  return (knot.next, count + 1)

/-- The number of entries in each bucket (`chain_lengths`). -/
def chainSizes (map : ThreadedMap K V) : Except Fault (List Nat) :=
  map.ends.toList.mapM fun ends => wander map.tally map.size ends.head 0

/-! ### Changes of the chains -/

/-- Changes the entry behind a handle. -/
def retie (map : ThreadedMap K V) (handle : Handle) (change : Knot K V → Knot K V) :
    Except Fault (ThreadedMap K V) := do
  let knot ← map.knots.fetch handle
  let knots ← map.knots.replace handle (change knot)
  return { map with knots := knots }

/-- Changes the ends of the chain of a bucket. -/
def setEnds (map : ThreadedMap K V) (bucket : Nat) (change : ChainEnds → ChainEnds) :
    Except Fault (ThreadedMap K V) := do
  let ends ← map.endsOf bucket
  return { map with ends := map.ends.setIfInBounds bucket (change ends) }

/-- Says what comes after an entry, or, where there is no entry before, what the chain begins with. -/
def linkNext (map : ThreadedMap K V) (bucket : Nat) (prev next : Option Handle) :
    Except Fault (ThreadedMap K V) :=
  match prev with
  | some handle => map.retie handle ({ · with next := next })
  | none => map.setEnds bucket ({ · with head := next })

/-- Says what comes before an entry, or, where there is no entry after, what the chain ends with. -/
def linkPrev (map : ThreadedMap K V) (bucket : Nat) (next prev : Option Handle) :
    Except Fault (ThreadedMap K V) :=
  match next with
  | some handle => map.retie handle ({ · with prev := prev })
  | none => map.setEnds bucket ({ · with tail := prev })

/-- Puts an entry at the end of the chain of its bucket, under the next serial number, whatever chain its own handles
may still point into (`append`). -/
def append (map : ThreadedMap K V) (handle : Handle) : Except Fault (ThreadedMap K V) := do
  let knot ← map.knots.fetch handle
  let bucket ← map.placeOf knot.hash
  let ends ← map.endsOf bucket
  let renumbered := { map with nextSerial := map.nextSerial + 1 }
  let placed ← renumbered.retie handle
    ({ · with prev := ends.tail, next := none, serial := map.nextSerial })
  let linked ← placed.linkNext bucket ends.tail (some handle)
  linked.linkPrev bucket none (some handle)

/-- Closes the chain of an entry over it (`unlink`). -/
def unlink (map : ThreadedMap K V) (handle : Handle) : Except Fault (ThreadedMap K V) := do
  let knot ← map.knots.fetch handle
  let bucket ← map.placeOf knot.hash
  let linked ← map.linkNext bucket knot.prev knot.next
  linked.linkPrev bucket knot.next knot.prev

/-- Appends an entry of an old chain. The entry after it is read before, since appending writes there. -/
def transfer (map : ThreadedMap K V) (handle : Handle) :
    Except Fault (Option Handle × ThreadedMap K V) := do
  let knot ← map.knots.fetch handle
  return (knot.next, ← map.append handle)

/-- Moves to another rung: the buckets start empty, and the entries are appended again in place, along the old chains
(`resize`). -/
def rebuild (map : ThreadedMap K V) (rung : Rung) : Except Fault (ThreadedMap K V) := do
  let bare := { map with rung := rung, ends := Array.replicate rung.size {} }
  let filled ← sweep transfer map.size map.ends.toList bare
  return { filled with epoch := map.epoch + 1, transactions := map.transactions + 1 }

/-- One step along the ladder, if the number of entries calls for it and the array can be had (`rebalance`). -/
def settle (map : ThreadedMap K V) (granted : Bool) : Except Fault (ThreadedMap K V) :=
  match map.rung.towards? map.size with
  | some rung => if granted then map.rebuild rung else .ok map
  | none => .ok map

/-! ### Operations -/

/-- Adds an entry, or replaces the value of the entry that the key finds (`insert`). -/
def insert (map : ThreadedMap K V) (granted : Bool) (key : Held K) (value : Held V) :
    Except Fault (Except AddError Addition × ThreadedMap K V) := do
  match ← map.find key.val with
  | some handle =>
    if map.noOverwrite then return (.error .keyExists, map)
    let updated ← map.retie handle ({ · with value := map.policy.base.secureValue value })
    return (.ok .updated, updated)
  | none =>
    if map.knots.isFull then return (.error .noRoom, map)
    let settled ← map.settle granted
    let knots := settled.knots.insert {
      prev := none
      next := none
      hash := settled.policy.hash key.val
      serial := 0
      key := settled.policy.base.secureKey key
      value := settled.policy.base.secureValue value }
    let longer ← { settled with knots := knots }.append settled.knots.next
    return (.ok .inserted, { longer with transactions := longer.transactions + 1 })

/-- Takes out the entry that the key finds and hands back its value as it was held (`remove`). -/
def remove (map : ThreadedMap K V) (granted : Bool) (key : K) :
    Except Fault (Option (Held V) × ThreadedMap K V) := do
  match ← map.find key with
  | none => return (none, map)
  | some handle =>
    let unlinked ← map.unlink handle
    let (knot, knots) ← unlinked.knots.take handle
    let shorter := { unlinked with knots := knots, transactions := unlinked.transactions + 1 }
    if shorter.size < shorter.rung.shrinkBelow then
      return (some knot.value, ← shorter.settle granted)
    return (some knot.value, shorter)

/-- Releases one entry and counts it. -/
def release (state : Nat × Slots (Knot K V)) (handle : Handle) :
    Except Fault (Option Handle × Nat × Slots (Knot K V)) := do
  let (knot, knots) ← state.2.take handle
  return (knot.next, state.1 + 1, knots)

/-- Releases every entry, bucket by bucket along each chain, and says how many there were (`destroy`). -/
def releaseAll (map : ThreadedMap K V) : Except Fault (Nat × ThreadedMap K V) := do
  let (released, knots) ← sweep release map.size map.ends.toList (0, map.knots)
  return (released, { map with
    ends := Array.replicate map.bucketCount {}
    knots := knots
    transactions := if released = 0 then map.transactions else map.transactions + 1 })

/-- Releases every entry and returns to the lowest rung, if its array can be had (`clear`). -/
def clear (map : ThreadedMap K V) (granted : Bool) : Except Fault (Nat × ThreadedMap K V) := do
  let (released, bare) ← map.releaseAll
  if bare.rung = Rung.lowest then return (released, bare)
  if granted then return (released, ← bare.rebuild Rung.lowest)
  return (released, bare)

end ThreadedMap

end KeyedStore
