import KeyedStore.Store
import KeyedStore.Text.Layout
/-!
The texts by which policies, cursors and stores describe themselves.
-/
namespace KeyedStore

open Text

def Ownership.word : Ownership → String
  | .owned => "Owned"
  | .borrowed => "Borrowed"

variable {K V : Type}

/-- A policy tells who owns stored keys and values, not what its functions are. -/
def Policy.describe (policy : Policy K V) : String :=
  record "OpsPolicy"
    [("keys", policy.keyOwner.word), ("data", policy.valueOwner.word)]

def HashPolicy.describe (policy : HashPolicy K V) : String :=
  record "HashOps" [("ops", policy.base.describe)]

/-- A cursor tells what makes it stale and, on an ordered map, the key it would go on from. -/
def Cursor.describe [Shown K] : Cursor K → String
  | .ordered cursor => record "Cursor::Tree" [
      ("checkpoint", Shown.line (cursor.lastKey.map (·.val))),
      ("transactions", Shown.line cursor.transactions),
      ("finished", Shown.line cursor.finished)]
  | .hashed cursor => record "Cursor::Bucket" [
      ("bucket", Shown.line cursor.bucket),
      ("epoch", Shown.line cursor.epoch),
      ("finished", Shown.line cursor.finished)]

/-- The entries of a store in a line, in the order of its traversal. -/
def Store.describe [Shown K] [Shown V] (store : Store K V) : Except Fault String := do
  return entriesLine (← store.entries none)

/-- The entries of a store in a block. -/
def Store.describeBlock [Shown K] [Shown V] (store : Store K V) : Except Fault String := do
  return "\n".intercalate (entriesBlock (← store.entries none))

end KeyedStore
