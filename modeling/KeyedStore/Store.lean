import KeyedStore.OrderedMap.Cursor
import KeyedStore.HashedMap.Cursor
import KeyedStore.Engine
/-!
One store over either kind of map, and one cursor over either kind of position. Every operation goes
to the map that the store has; a cursor of the other kind ends at once, as does a cursor of another
store.
-/
namespace KeyedStore

/-- A map of either kind (`Map`). -/
inductive Store (K V : Type) where
  | ordered (map : OrderedMap K V)
  | hashed (map : HashedMap K V)

/-- A restartable position in a store (`Cursor`). It holds none of the store's values. -/
inductive Cursor (K : Type) where
  | ordered (cursor : OrderedCursor K)
  | hashed (cursor : HashedCursor)

namespace Cursor

variable {K : Type}

/-- The cursor has reported the end of its traversal (`is_finished`). -/
def isFinished : Cursor K → Bool
  | ordered cursor => cursor.finished
  | hashed cursor => cursor.finished

/-- Ends the traversal for good (`finish`). -/
def stop : Cursor K → Cursor K
  | ordered cursor => ordered cursor.stop
  | hashed cursor => hashed cursor.stop

theorem isFinished_stop (cursor : Cursor K) : cursor.stop.isFinished = true := by
  cases cursor <;> rfl

end Cursor

namespace Store

variable {K V : Type}

/-- A fresh store (`new_ordered`, `new_hashed`). -/
def build (id : Identity) : Blueprint K V → Store K V
  | .ordered policy noOverwrite => ordered { id, policy, noOverwrite }
  | .hashed policy noOverwrite => hashed { id, policy, noOverwrite }

/-- The kind of a store (`kind`). -/
def kind : Store K V → Kind
  | ordered _ => .ordered
  | hashed _ => .hashed

def id : Store K V → Identity
  | ordered map => map.id
  | hashed map => map.id

/-- How the store compares and copies (`ops`). -/
def policy : Store K V → Policy K V
  | ordered map => map.policy
  | hashed map => map.policy.base

/-- The number of entries (`len`). -/
def size : Store K V → Nat
  | ordered map => map.size
  | hashed map => map.size

/-- There are no entries (`is_empty`). -/
def isEmpty (store : Store K V) : Bool := store.size == 0

/-- How many changes were counted (`transactions`). -/
def transactions : Store K V → Nat
  | ordered map => map.transactions
  | hashed map => map.transactions

/-- The stored key and the value that a key finds (`get_key_value`). -/
def lookupEntry (store : Store K V) (key : K) : Except Fault (Option (K × V)) :=
  match store with
  | ordered map => map.lookupEntry key
  | hashed map => map.lookupEntry key

/-- The value that a key finds (`get`). -/
def lookup (store : Store K V) (key : K) : Except Fault (Option V) :=
  match store with
  | ordered map => map.lookup key
  | hashed map => map.lookup key

/-- The key is present (`contains_key`). -/
def contains (store : Store K V) (key : K) : Except Fault Bool := do
  return (← store.lookup key).isSome

/-- Adds an entry or replaces a value (`add`). A refused addition leaves the store as it was. Only a hashed store may
ask for memory beside that of the entry, and goes on without it. -/
def insert (store : Store K V) (key : Held K) (value : Held V) (granted : Bool := true) :
    Except Fault (Except AddError Addition × Store K V) :=
  match store with
  | ordered map => do
    let (outcome, map) ← map.insert key value
    return (outcome, ordered map)
  | hashed map => do
    let (outcome, map) ← map.insert key value granted
    return (outcome, hashed map)

/-- Takes an entry out and hands back its value as it was held (`delete`). -/
def remove (store : Store K V) (key : K) (granted : Bool := true) :
    Except Fault (Option (Held V) × Store K V) :=
  match store with
  | ordered map => do
    let (value, map) ← map.remove key
    return (value, ordered map)
  | hashed map => do
    let (value, map) ← map.remove key granted
    return (value, hashed map)

/-- Releases every entry and says how many there were (`clear`); the store stays usable. -/
def clear (store : Store K V) (granted : Bool := true) : Except Fault (Nat × Store K V) :=
  match store with
  | ordered map => do
    let (released, map) ← map.clear
    return (released, ordered map)
  | hashed map => do
    let (released, map) ← map.clear granted
    return (released, hashed map)

/-- Releases every entry of a store that is given up, and says how many there were (`free`). -/
def dispose (store : Store K V) : Except Fault Nat :=
  match store with
  | ordered map => do return (← map.clear).1
  | hashed map => do return (← map.releaseAll).1

/-- A cursor before the first entry: in key order, or in bucket order (`travinit`). -/
def start : Store K V → Cursor K
  | ordered map => .ordered map.start
  | hashed map => .hashed map.start

/-- The next entry for a cursor (`traverse`). A cursor that gets none is finished from then on. -/
def advance (store : Store K V) (cursor : Cursor K) : Except Fault (Option (K × V) × Cursor K) :=
  match store, cursor with
  | ordered map, .ordered cursor => do
    let (found, cursor) ← map.advance cursor
    return (found, .ordered (if found.isSome then cursor else cursor.stop))
  | hashed map, .hashed cursor => do
    let (found, cursor) ← map.advance cursor
    return (found, .hashed (if found.isSome then cursor else cursor.stop))
  | ordered _, .hashed cursor => .ok (none, .hashed cursor.stop)
  | hashed _, .ordered cursor => .ok (none, .ordered cursor.stop)

/-- The store as it presents itself. -/
def profile : Store K V → Except Fault (Profile K V)
  | ordered map => do
    return .ordered map.size map.transactions map.root map.check (← map.first) (← map.last)
  | hashed map => .ok (.hashed map.size map.transactions map.epoch map.bucketCount map.limits)

/-- The number of entries in each bucket (`chain_lengths`). An ordered store has none. -/
def chainSizes : Store K V → Option (List Nat)
  | ordered _ => none
  | hashed map => some map.chainSizes

/-- Stores and cursors as they are here. -/
@[reducible] def engine : Engine (Store K V) (Cursor K) K V where
  build := build
  kind := kind
  size := size
  lookupEntry := lookupEntry
  lookup := lookup
  contains := contains
  insert store key value granted := store.insert key value granted
  remove store key granted := store.remove key granted
  clear store granted := store.clear granted
  dispose := dispose
  profile := profile
  chainSizes store := .ok store.chainSizes
  start store := .ok store.start
  advance := advance
  isFinished := Cursor.isFinished

/-- The next entries for a cursor, at most so many. -/
abbrev walk (store : Store K V) (limit : Nat) (cursor : Cursor K) : Except Fault (List (K × V) × Cursor K) :=
  engine.walk store limit cursor

/-- All further entries for a cursor, and the end after them. -/
abbrev drain (store : Store K V) (cursor : Cursor K) : Except Fault (List (K × V) × Cursor K) :=
  engine.drain store cursor

/-- The entries that a fresh cursor returns, all of them or at most so many (`iter`). -/
abbrev entries (store : Store K V) (limit : Option Nat) : Except Fault (List (K × V)) :=
  engine.entries store limit

/-- At most so many times: the next entry for a cursor, which is then removed by its stored key. -/
abbrev consume (store : Store K V) (limit : Nat) (cursor : Cursor K) (granted : Bool := true) :
    Except Fault (List ((K × V) × Option (Held V)) × Cursor K × Store K V) :=
  engine.consume store limit cursor granted

end Store

end KeyedStore
