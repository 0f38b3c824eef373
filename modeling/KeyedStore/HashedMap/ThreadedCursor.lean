import KeyedStore.HashedMap.Threaded
import KeyedStore.HashedMap.Cursor
/-!
A cursor of the hashed map on chains that are threaded through the entries. The entry returned last leads on to the
next one while it is there; when it has been taken out, its chain is walked again for the first higher serial number.
-/
namespace KeyedStore

namespace ThreadedMap

variable {K V : Type}

/-- A cursor before the first entry (`cursor`). -/
def start (map : ThreadedMap K V) : HashedCursor where
  owner := map.id
  epoch := map.epoch

/-- Looks at one entry in the search for a higher serial number. The walk ends where there is one. -/
def pass (map : ThreadedMap K V) (serial : Nat) (_ : Option Handle) (handle : Handle) :
    Except Fault (Option Handle × Option Handle) := do
  let knot ← map.knots.fetch handle
  if serial < knot.serial then return (none, some handle)
  return (knot.next, none)

/-- The first entry of a bucket with a higher serial number (`first_after`). -/
def firstAfter (map : ThreadedMap K V) (bucket serial : Nat) : Except Fault (Option Handle) := do
  let ends ← map.endsOf bucket
  wander (map.pass serial) map.size ends.head none

/-- The entry to return next from the bucket that the cursor stands in. -/
def candidate (map : ThreadedMap K V) (cursor : HashedCursor) : Except Fault (Option Handle) :=
  match cursor.last with
  | none => do return (← map.endsOf cursor.bucket).head
  | some (handle, serial) =>
    match map.knots.get? handle with
    | some knot => .ok knot.next
    | none => map.firstAfter cursor.bucket serial

/-- Goes on from the candidate of a bucket to the first entry there is, in this bucket or a later one. -/
def settleOn (map : ThreadedMap K V) (bucket : Nat) (candidate : Option Handle) : Option (Nat × Handle) :=
  match candidate with
  | some handle => some (bucket, handle)
  | none =>
    if bound : bucket + 1 < map.ends.size then map.settleOn (bucket + 1) map.ends[bucket + 1].head else none
termination_by map.ends.size - bucket

/-- The next entry (`step`). A cursor of another map ends, and so does one from before a rebuilding. One that has
nothing left ends behind the last bucket. -/
def advance (map : ThreadedMap K V) (cursor : HashedCursor) : Except Fault (Option (K × V) × HashedCursor) :=
  if cursor.finished then .ok (none, cursor)
  else if cursor.owner ≠ map.id ∨ cursor.epoch ≠ map.epoch ∨ map.bucketCount ≤ cursor.bucket then
    .ok (none, cursor.stop)
  else do
    let candidate ← map.candidate cursor
    match map.settleOn cursor.bucket candidate with
    | none => return (none, { cursor with bucket := map.bucketCount }.stop)
    | some (bucket, handle) =>
      let knot ← map.knots.fetch handle
      return (some (knot.key.val, knot.value.val), { cursor with bucket, last := some (handle, knot.serial) })

end ThreadedMap

end KeyedStore
