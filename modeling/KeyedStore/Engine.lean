import KeyedStore.Identity
import KeyedStore.Policy
import KeyedStore.Outcome
import KeyedStore.Shape.Basic
/-!
What a session asks of its stores and of the cursors over them, whatever these are made of: an engine is a choice of
all of this. Traversals of several steps are put together from single ones.
-/
namespace KeyedStore

/-- The kinds of map (`MapKind`). -/
inductive Kind where
  | ordered
  | hashed
  deriving DecidableEq

/-- What a store is made from. -/
inductive Blueprint (K V : Type) where
  | ordered (policy : Policy K V) (noOverwrite : Bool)
  | hashed (policy : HashPolicy K V) (noOverwrite : Bool)

/-- A store as it presents itself from outside. -/
inductive Profile (K V : Type) where
  | ordered (size transactions : Nat) (root : Option (K × Color)) (check : Except Defect Nat)
      (first last : Option (K × V))
  | hashed (size transactions epoch buckets : Nat) (limits : Nat × Nat)

/-- The operations of stores and of the cursors over them. With one that may change a hashed store comes whether memory
is granted for another array of buckets while it is carried out. -/
structure Engine (S C K V : Type) where
  /-- A fresh store. -/
  build : Identity → Blueprint K V → S
  kind : S → Kind
  size : S → Nat
  /-- The stored key and the value that a key finds. -/
  lookupEntry : S → K → Except Fault (Option (K × V))
  lookup : S → K → Except Fault (Option V)
  contains : S → K → Except Fault Bool
  /-- Adds an entry or replaces a value. A refused addition leaves the store as it was. -/
  insert : S → Held K → Held V → Bool → Except Fault (Except AddError Addition × S)
  /-- Takes an entry out and hands back its value as it was held. -/
  remove : S → K → Bool → Except Fault (Option (Held V) × S)
  /-- Releases every entry and says how many there were; the store stays usable. -/
  clear : S → Bool → Except Fault (Nat × S)
  /-- Releases every entry of a store that is given up, and says how many there were. -/
  dispose : S → Except Fault Nat
  profile : S → Except Fault (Profile K V)
  /-- The number of entries in each bucket. An ordered store has none. -/
  chainSizes : S → Except Fault (Option (List Nat))
  /-- A cursor before the first entry. -/
  start : S → Except Fault C
  /-- The next entry for a cursor. A cursor that gets none is finished from then on. -/
  advance : S → C → Except Fault (Option (K × V) × C)
  /-- The cursor has reported the end of its traversal. -/
  isFinished : C → Bool

namespace Engine

variable {S C K V : Type}

/-- The next entries for a cursor, at most so many. -/
def walk (engine : Engine S C K V) (store : S) : Nat → C → Except Fault (List (K × V) × C)
  | 0, cursor => .ok ([], cursor)
  | limit + 1, cursor => do
    let (found, cursor) ← engine.advance store cursor
    match found with
    | none => return ([], cursor)
    | some entry =>
      let (rest, cursor) ← engine.walk store limit cursor
      return (entry :: rest, cursor)

/-- All further entries for a cursor, and the end after them. A traversal of a store that stays as it
is returns no entry twice, so one step more than there are entries is enough. -/
def drain (engine : Engine S C K V) (store : S) (cursor : C) : Except Fault (List (K × V) × C) :=
  engine.walk store (engine.size store + 1) cursor

/-- The entries that a fresh cursor returns, all of them or at most so many (`iter`). -/
def entries (engine : Engine S C K V) (store : S) (limit : Option Nat) : Except Fault (List (K × V)) := do
  let cursor ← engine.start store
  let (found, _) ← engine.walk store (limit.getD (engine.size store + 1)) cursor
  return found

/-- At most so many times: the next entry for a cursor, which is then removed by its stored key. Each
entry comes with what its removal handed back. -/
def consume (engine : Engine S C K V) (store : S) (limit : Nat) (cursor : C) (granted : Bool) :
    Except Fault (List ((K × V) × Option (Held V)) × C × S) :=
  match limit with
  | 0 => .ok ([], cursor, store)
  | limit + 1 => do
    let (found, cursor) ← engine.advance store cursor
    match found with
    | none => return ([], cursor, store)
    | some entry =>
      let (value, store) ← engine.remove store entry.1 granted
      let (rest, cursor, store) ← engine.consume store limit cursor granted
      return ((entry, value) :: rest, cursor, store)

end Engine

end KeyedStore
