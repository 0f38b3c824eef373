import KeyedStore.OrderedMap.Basic
/-!
A position in an ordered map that outlives changes of the map. The cursor keeps the spot it goes to
next and the count of transactions at which that spot was found. When the count has moved on, the spot
is given up and found again from the key that was returned last.
-/
namespace KeyedStore

/-- A position in an ordered map (`TreeCursor`). -/
structure OrderedCursor (K : Type) where
  owner : Identity
  /-- The entry to return next, in the shape that the map had at `transactions`. -/
  next : Option (Spot (Tag K))
  /-- The key returned last. -/
  lastKey : Option (Held K) := none
  transactions : Nat
  finished : Bool := false

namespace OrderedCursor

variable {K V : Type}

/-- Ends the traversal for good (`finish`). -/
def stop (cursor : OrderedCursor K) : OrderedCursor K :=
  { cursor with next := none, lastKey := none, finished := true }

/-- Where a cursor goes on that finds the map changed: at the first entry with a greater key than the
one returned last, or at the first of all. -/
def resume (map : OrderedMap K V) (lastKey : Option (Held K)) : Option (Spot (Tag K)) :=
  match lastKey with
  | none => Path.firstSpot [] map.shape
  | some key => Path.firstBeyond (OrderedMap.probe map.policy key.val) map.shape

/-- The same cursor with a spot in the present shape. -/
def synchronize (cursor : OrderedCursor K) (map : OrderedMap K V) : OrderedCursor K :=
  if cursor.transactions = map.transactions then cursor
  else { cursor with next := resume map cursor.lastKey, transactions := map.transactions }

end OrderedCursor

namespace OrderedMap

variable {K V : Type}

/-- A cursor before the first entry (`cursor`). -/
def start (map : OrderedMap K V) : OrderedCursor K where
  owner := map.id
  next := Path.firstSpot [] map.shape
  transactions := map.transactions

/-- The next entry (`step`). A cursor of another map ends, and so does one that has nothing left. -/
def advance (map : OrderedMap K V) (cursor : OrderedCursor K) :
    Except Fault (Option (K × V) × OrderedCursor K) :=
  if cursor.finished then .ok (none, cursor)
  else if cursor.owner ≠ map.id then .ok (none, cursor.stop)
  else
    let cursor := cursor.synchronize map
    match cursor.next with
    | none => .ok (none, cursor.stop)
    | some spot => do
      let entry ← map.entry spot.label
      return (some entry, { cursor with
        next := spot.next?
        lastKey := some (map.policy.rememberKey spot.label.key) })

end OrderedMap

end KeyedStore
