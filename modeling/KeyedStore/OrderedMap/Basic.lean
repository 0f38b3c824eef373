import KeyedStore.Identity
import KeyedStore.Policy
import KeyedStore.Slots
import KeyedStore.Shape.Repair
import KeyedStore.Shape.Check
/-!
The ordered map: a coloured search tree of keys, each tagged with the handle of its value. Replacing a
value touches only the slots; the shape and the count of transactions change exactly when an entry is
made or taken out. `toList` of the shape is the view: its tags in key order.
-/
namespace KeyedStore

/-- A stored key and where its value lies. -/
structure Tag (K : Type) where
  handle : Handle
  key : Held K
  deriving DecidableEq

/-- An ordered map (`TreeMap`). -/
structure OrderedMap (K V : Type) where
  id : Identity
  policy : Policy K V
  /-- Refuses to replace the value of a key that is present. -/
  noOverwrite : Bool
  shape : Shape (Tag K) := .nil
  slots : Slots (Held V) := .empty
  /-- Counts the changes of the shape. -/
  transactions : Nat := 0

namespace OrderedMap

variable {K V : Type}

/-- The number of entries (`len`). -/
def size (map : OrderedMap K V) : Nat := map.slots.size

/-- There are no entries (`is_empty`). -/
def isEmpty (map : OrderedMap K V) : Bool := map.size == 0

/-- Where a key lies from a stored one. The sought key is always the first to be compared. -/
def probe (policy : Policy K V) (key : K) (tag : Tag K) : Ordering :=
  policy.compare key tag.key.val

/-- The descent for a key: where it ends, and the subtree found there (`locate`). -/
def descend (map : OrderedMap K V) (key : K) : Path (Tag K) × Shape (Tag K) :=
  Path.search (probe map.policy key) [] map.shape

/-- The tag that the descent for a key meets. -/
def find? (map : OrderedMap K V) (key : K) : Option (Tag K) :=
  (map.descend key).2.root?.map (·.1)

/-- Key and value of a tag that the shape holds. -/
def entry (map : OrderedMap K V) (tag : Tag K) : Except Fault (K × V) := do
  let value ← map.slots.fetch tag.handle
  return (tag.key.val, value.val)

/-- The entry of a tag, if there is a tag. -/
def entry? (map : OrderedMap K V) : Option (Tag K) → Except Fault (Option (K × V))
  | none => .ok none
  | some tag => do return some (← map.entry tag)

/-- The stored key and the value that a key finds (`get_key_value`). -/
def lookupEntry (map : OrderedMap K V) (key : K) : Except Fault (Option (K × V)) :=
  map.entry? (map.find? key)

/-- The value that a key finds (`get`). -/
def lookup (map : OrderedMap K V) (key : K) : Except Fault (Option V) := do
  return (← map.lookupEntry key).map (·.2)

/-- The key is present (`contains_key`). -/
def contains (map : OrderedMap K V) (key : K) : Bool := (map.find? key).isSome

/-- The entry with the smallest key (`first`). -/
def first (map : OrderedMap K V) : Except Fault (Option (K × V)) := map.entry? map.shape.first?

/-- The entry with the largest key (`last`). -/
def last (map : OrderedMap K V) : Except Fault (Option (K × V)) := map.entry? map.shape.last?

/-- The key at the root and its colour (`root`). -/
def root (map : OrderedMap K V) : Option (K × Color) :=
  map.shape.root?.map fun (tag, color) => (tag.key.val, color)

/-- Adds an entry, or replaces the value of the entry that the key finds (`insert`). The stored key of such an entry
stays, and a refused addition leaves the map as it was. -/
def insert (map : OrderedMap K V) (key : Held K) (value : Held V) :
    Except Fault (Except AddError Addition × OrderedMap K V) :=
  match map.descend key.val with
  | (_, .node _ _ tag _) =>
    if map.noOverwrite then .ok (.error .keyExists, map)
    else do
      let slots ← map.slots.replace tag.handle (map.policy.secureValue value)
      return (.ok .updated, { map with slots := slots })
  | (path, .nil) =>
    if map.slots.isFull then .ok (.error .noRoom, map)
    else
      .ok (.ok .inserted, { map with
        shape := Shape.repairRed path .nil ⟨map.slots.next, map.policy.secureKey key⟩ .nil
        slots := map.slots.insert (map.policy.secureValue value)
        transactions := map.transactions + 1 })

/-- Takes out the entry that the key finds and hands back its value as it was held (`remove`). -/
def remove (map : OrderedMap K V) (key : K) :
    Except Fault (Option (Held V) × OrderedMap K V) :=
  match map.descend key with
  | (_, .nil) => .ok (none, map)
  | (path, .node color left tag right) => do
    let shape ← Shape.removeAt path color left right
    let (value, slots) ← map.slots.take tag.handle
    return (some value, { map with
      shape := shape
      slots := slots
      transactions := map.transactions + 1 })

/-- Releases the values of some tags, one after the other. -/
def release (slots : Slots (Held V)) (tags : List (Tag K)) : Except Fault (Slots (Held V)) :=
  tags.foldlM (fun slots tag => do return (← slots.take tag.handle).2) slots

/-- Releases every entry, each after the entries below it, and says how many there were (`clear`, `destroy`). Clearing
an empty map is no transaction. -/
def clear (map : OrderedMap K V) : Except Fault (Nat × OrderedMap K V) := do
  let slots ← release map.slots map.shape.postorder
  let released := map.shape.size
  return (released, { map with
    shape := .nil
    slots := slots
    transactions := if released = 0 then map.transactions else map.transactions + 1 })

/-- The first law found broken, or the black height (`check_invariants`). Colours come first, then the count of
entries, then the order of neighbouring keys. -/
def check (map : OrderedMap K V) : Except Defect Nat :=
  if map.shape.isRed then .error .redRoot
  else do
    let height ← map.shape.blackHeight
    if map.shape.size ≠ map.size then .error .miscount
    else if ascending map.policy.compare (map.shape.toList.map (·.key.val)) then .ok height
    else .error .disorder

end OrderedMap

end KeyedStore
