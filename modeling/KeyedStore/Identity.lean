/-!
The identity of a container. Containers with equal contents are still told apart by it, and a cursor
walks only the container whose identity it carries.
-/
namespace KeyedStore

/-- What tells a container apart (`MapId`). -/
structure Identity where
  serial : Nat
  deriving DecidableEq

/-- The identity issued after this one (`fresh`). -/
def Identity.next (identity : Identity) : Identity := ⟨identity.serial + 1⟩

end KeyedStore
