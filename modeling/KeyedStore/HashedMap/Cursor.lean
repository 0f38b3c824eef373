import KeyedStore.HashedMap.Basic
/-!
A position in a hashed map that outlives changes of the map: a bucket, and the link of that bucket
that was returned last, with its serial number. The number finds the place again when the link itself
has been taken out. After a rebuilding buckets mean something else, and the traversal ends.
-/
namespace KeyedStore

/-- A position in a hashed map (`BucketCursor`). -/
structure HashedCursor where
  owner : Identity
  bucket : Nat := 0
  /-- The link of this bucket that was returned last, and its serial number. -/
  last : Option (Handle × Nat) := none
  epoch : Nat
  finished : Bool := false
  deriving DecidableEq

/-- Ends the traversal for good (`finish`). -/
def HashedCursor.stop (cursor : HashedCursor) : HashedCursor :=
  { cursor with last := none, finished := true }

namespace Chain

variable {K : Type}

/-- The link after the one with this handle. -/
def following (chain : Chain K) (handle : Handle) : Option (Link K) :=
  (chain.dropWhile (·.handle ≠ handle)).tail.head?

/-- The first link with a higher serial number (`first_after`). -/
def beyond (chain : Chain K) (serial : Nat) : Option (Link K) :=
  chain.find? (serial < ·.serial)

end Chain

namespace HashedMap

variable {K V : Type}

/-- A cursor before the first entry (`cursor`). -/
def start (map : HashedMap K V) : HashedCursor where
  owner := map.id
  epoch := map.epoch

/-- The link to return next from the bucket that the cursor stands in. -/
def upcoming (map : HashedMap K V) (chain : Chain K) (last : Option (Handle × Nat)) :
    Option (Link K) :=
  match last with
  | none => chain.head?
  | some (handle, serial) =>
    if map.slots.contains handle then chain.following handle else chain.beyond serial

/-- The first link in the buckets from this one on, with the bucket that holds it. -/
def firstFrom (buckets : Array (Chain K)) (bucket : Nat) : Option (Nat × Link K) :=
  if bound : bucket < buckets.size then
    match buckets[bucket] with
    | link :: _ => some (bucket, link)
    | [] => firstFrom buckets (bucket + 1)
  else none
termination_by buckets.size - bucket

/-- The next link for a cursor that stands in a bucket with this chain, with the bucket it is in. -/
def nextLink (map : HashedMap K V) (chain : Chain K) (cursor : HashedCursor) :
    Option (Nat × Link K) :=
  match map.upcoming chain cursor.last with
  | some link => some (cursor.bucket, link)
  | none => firstFrom map.buckets (cursor.bucket + 1)

/-- The next entry (`step`). A cursor of another map ends, and so does one from before a rebuilding. One that has
nothing left ends behind the last bucket. -/
def advance (map : HashedMap K V) (cursor : HashedCursor) :
    Except Fault (Option (K × V) × HashedCursor) :=
  if cursor.finished then .ok (none, cursor)
  else if cursor.owner ≠ map.id ∨ cursor.epoch ≠ map.epoch then .ok (none, cursor.stop)
  else
    match map.buckets[cursor.bucket]? with
    | none => .ok (none, cursor.stop)
    | some chain =>
      match map.nextLink chain cursor with
      | none => .ok (none, { cursor with bucket := map.bucketCount }.stop)
      | some (bucket, link) => do
        let entry ← map.entry link
        return (some entry, { cursor with bucket := bucket, last := some (link.handle, link.serial) })

end HashedMap

end KeyedStore
