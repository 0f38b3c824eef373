import KeyedStore.Held
import KeyedStore.Hash.Accumulator
import KeyedStore.Hash.Digest
/-!
What a container is told about its keys and values: how to compare keys, whether to copy what is lent
to it, and, for hashed storage, how to hash a key. No law is asked of any of these functions.
-/
namespace KeyedStore

/-- How keys are compared, and how lent keys and values are copied on their way into storage (`OpsPolicy`). -/
structure Policy (K V : Type) where
  compare : K → K → Ordering
  copyKey : Option (K → K) := none
  copyValue : Option (V → V) := none

namespace Policy

variable {K V : Type}

/-- The natural order of the keys (`ordered`); nothing is copied. -/
def natural [Ord K] : Policy K V := { compare := Ord.compare }

/-- Texts in their natural order, copied when lent (`strings`). -/
def texts : Policy String V := { compare := Ord.compare, copyKey := some id }

/-- Copies of lent keys by a function (`with_key_dup`). -/
def copyingKeysBy (policy : Policy K V) (copy : K → K) : Policy K V :=
  { policy with copyKey := some copy }

/-- Copies of lent values by a function (`with_data_dup`). -/
def copyingValuesBy (policy : Policy K V) (copy : V → V) : Policy K V :=
  { policy with copyValue := some copy }

/-- Faithful copies of lent keys (`dup_keys`). -/
def copyingKeys (policy : Policy K V) : Policy K V := policy.copyingKeysBy id

/-- Faithful copies of lent values (`dup_data`). -/
def copyingValues (policy : Policy K V) : Policy K V := policy.copyingValuesBy id

/-- Whose a stored key is that came in lent (`key_ownership`). -/
def keyOwner (policy : Policy K V) : Ownership :=
  if policy.copyKey.isSome then .owned else .borrowed

/-- Whose a stored value is that came in lent (`data_ownership`). -/
def valueOwner (policy : Policy K V) : Ownership :=
  if policy.copyValue.isSome then .owned else .borrowed

/-- A key on its way into storage (`adopt_key`). -/
def secureKey (policy : Policy K V) (key : Held K) : Held K := key.secure policy.copyKey

/-- A value on its way into storage (`adopt_data`). -/
def secureValue (policy : Policy K V) (value : Held V) : Held V := value.secure policy.copyValue

/-- A stored key as a cursor remembers it (`checkpoint`). -/
def rememberKey (policy : Policy K V) (stored : Held K) : Held K := stored.remember policy.copyKey

end Policy

/-- A policy together with the hash function that hashed storage needs (`HashOps`). -/
structure HashPolicy (K V : Type) where
  base : Policy K V
  hash : K → UInt64

/-- Adds a hash function to a policy (`hashed_by`). -/
def Policy.hashingBy {K V : Type} (policy : Policy K V) (hash : K → UInt64) : HashPolicy K V :=
  ⟨policy, hash⟩

/-- The natural order with the general hash (`hashed`). -/
def Policy.naturalHashed {K V : Type} [Ord K] [Digest K] : HashPolicy K V :=
  natural.hashingBy digest

namespace HashPolicy

variable {K V : Type}

/-- Texts in their natural order, copied when lent, with the string hash (`strings`). -/
def texts : HashPolicy String V := Policy.texts.hashingBy Accumulator.ofString

/-- The same policy with another hash function (`with_hash`). -/
def hashingBy (policy : HashPolicy K V) (hash : K → UInt64) : HashPolicy K V :=
  { policy with hash := hash }

def copyingKeys (policy : HashPolicy K V) : HashPolicy K V :=
  { policy with base := policy.base.copyingKeys }

def copyingValues (policy : HashPolicy K V) : HashPolicy K V :=
  { policy with base := policy.base.copyingValues }

end HashPolicy

end KeyedStore
