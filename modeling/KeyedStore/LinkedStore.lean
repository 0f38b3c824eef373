import KeyedStore.OrderedMap.Linked
import KeyedStore.HashedMap.ThreadedCursor
import KeyedStore.Session
/-!
Stores of which every map lies in storage, its entries linked by handles, and the cursors over them. What is asked of
such a store goes to its map; a cursor of the other kind ends at once.
-/
namespace KeyedStore

/-- A map of either kind in storage (`Map`). -/
inductive LinkedStore (K V : Type) where
  | ordered (map : RootedMap K V)
  | hashed (map : ThreadedMap K V)

/-- A restartable position in such a store, by handles (`Cursor`). -/
inductive LinkedCursor (K : Type) where
  | ordered (cursor : StackedCursor K)
  | hashed (cursor : HashedCursor)

namespace LinkedCursor

variable {K : Type}

/-- The cursor has reported the end of its traversal (`is_finished`). -/
def isFinished : LinkedCursor K → Bool
  | ordered cursor => cursor.finished
  | hashed cursor => cursor.finished

/-- Ends the traversal for good (`finish`). -/
def stop : LinkedCursor K → LinkedCursor K
  | ordered cursor => ordered cursor.stop
  | hashed cursor => hashed cursor.stop

end LinkedCursor

namespace LinkedStore

variable {K V : Type}

/-- A fresh store (`new_ordered`, `new_hashed`). -/
def build (id : Identity) : Blueprint K V → LinkedStore K V
  | .ordered policy noOverwrite => ordered { id, policy, noOverwrite }
  | .hashed policy noOverwrite => hashed { id, policy, noOverwrite }

/-- The kind of a store (`kind`). -/
def kind : LinkedStore K V → Kind
  | ordered _ => .ordered
  | hashed _ => .hashed

/-- The number of entries (`len`). -/
def size : LinkedStore K V → Nat
  | ordered map => map.size
  | hashed map => map.size

/-- The stored key and the value that a key finds (`get_key_value`). -/
def lookupEntry (store : LinkedStore K V) (key : K) : Except Fault (Option (K × V)) :=
  match store with
  | ordered map => map.lookupEntry key
  | hashed map => map.lookupEntry key

/-- The value that a key finds (`get`). -/
def lookup (store : LinkedStore K V) (key : K) : Except Fault (Option V) :=
  match store with
  | ordered map => map.lookup key
  | hashed map => map.lookup key

/-- The key is present (`contains_key`). -/
def contains (store : LinkedStore K V) (key : K) : Except Fault Bool := do
  return (← store.lookup key).isSome

/-- Adds an entry or replaces a value (`add`). -/
def insert (store : LinkedStore K V) (key : Held K) (value : Held V) (granted : Bool) :
    Except Fault (Except AddError Addition × LinkedStore K V) :=
  match store with
  | ordered map => do
    let (outcome, map) ← map.insert key value
    return (outcome, ordered map)
  | hashed map => do
    let (outcome, map) ← map.insert granted key value
    return (outcome, hashed map)

/-- Takes an entry out and hands back its value as it was held (`delete`). -/
def remove (store : LinkedStore K V) (key : K) (granted : Bool) : Except Fault (Option (Held V) × LinkedStore K V) :=
  match store with
  | ordered map => do
    let (value, map) ← map.remove key
    return (value, ordered map)
  | hashed map => do
    let (value, map) ← map.remove granted key
    return (value, hashed map)

/-- Releases every entry and says how many there were (`clear`). -/
def clear (store : LinkedStore K V) (granted : Bool) : Except Fault (Nat × LinkedStore K V) :=
  match store with
  | ordered map => do
    let (released, map) ← map.clear
    return (released, ordered map)
  | hashed map => do
    let (released, map) ← map.clear granted
    return (released, hashed map)

/-- Releases every entry of a store that is given up, and says how many there were (`free`). -/
def dispose (store : LinkedStore K V) : Except Fault Nat :=
  match store with
  | ordered map => do return (← map.clear).1
  | hashed map => do return (← map.releaseAll).1

/-- The store as it presents itself. -/
def profile (store : LinkedStore K V) : Except Fault (Profile K V) :=
  match store with
  | ordered map => do
    let root ← map.rootKey
    let check ← map.check
    let first ← map.extreme .left
    let last ← map.extreme .right
    return .ordered map.size map.transactions root check first last
  | hashed map => .ok (.hashed map.size map.transactions map.epoch map.bucketCount map.limits)

/-- The number of entries in each bucket (`chain_lengths`). An ordered store has none. -/
def chainSizes (store : LinkedStore K V) : Except Fault (Option (List Nat)) :=
  match store with
  | ordered _ => .ok none
  | hashed map => do return some (← map.chainSizes)

/-- A cursor before the first entry (`travinit`). -/
def start (store : LinkedStore K V) : Except Fault (LinkedCursor K) :=
  match store with
  | ordered map => do return .ordered (← map.start)
  | hashed map => .ok (.hashed map.start)

/-- The next entry for a cursor (`traverse`). A cursor that gets none is finished from then on. -/
def advance (store : LinkedStore K V) (cursor : LinkedCursor K) :
    Except Fault (Option (K × V) × LinkedCursor K) :=
  match store, cursor with
  | ordered map, .ordered cursor => do
    let (found, cursor) ← map.advance cursor
    return (found, .ordered (if found.isSome then cursor else cursor.stop))
  | hashed map, .hashed cursor => do
    let (found, cursor) ← map.advance cursor
    return (found, .hashed (if found.isSome then cursor else cursor.stop))
  | _, cursor => .ok (none, cursor.stop)

/-- Stores and cursors that lie in storage. -/
@[reducible] def engine : Engine (LinkedStore K V) (LinkedCursor K) K V where
  build := build
  kind := kind
  size := size
  lookupEntry := lookupEntry
  lookup := lookup
  contains := contains
  insert := insert
  remove := remove
  clear := clear
  dispose := dispose
  profile := profile
  chainSizes := chainSizes
  start := start
  advance := advance
  isFinished := LinkedCursor.isFinished

end LinkedStore

end KeyedStore
