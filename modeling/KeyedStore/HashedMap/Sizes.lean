/-!
The ladder of bucket counts. Every count is prime and far from a power of two, and a table moves one
rung at a time: up when it is seven tenths full, down when it is less than a quarter full.
-/
namespace KeyedStore

/-- A rung of the ladder (`power`). -/
abbrev Rung := Fin 28

namespace Rung

/-- The bucket counts (`PRIMES`). -/
def ladder : Vector Nat 28 := #v[
  13, 29, 53, 97, 193, 389, 769, 1543, 3079, 6151, 12289, 24593, 49157, 98317, 196613, 393241,
  786433, 1572869, 3145739, 6291469, 12582917, 25165843, 50331653, 100663319, 201326611,
  402653189, 805306457, 1610612741]

/-- The bucket count of a rung. -/
def size (rung : Rung) : Nat := ladder[rung]

/-- A table that holds this many entries grows before it takes another (`thresholds`). The product by seven is taken
of the tens and of the units apart. -/
def growAt (rung : Rung) : Nat := rung.size / 10 * 7 + rung.size % 10 * 7 / 10

/-- A table that holds fewer entries than this shrinks (`thresholds`). On the lowest rung none does. -/
def shrinkBelow (rung : Rung) : Nat := if rung = 0 then 0 else rung.size / 4

def lowest : Rung := 0

def above? (rung : Rung) : Option Rung :=
  if bound : rung.val + 1 < 28 then some ⟨rung.val + 1, bound⟩ else none

def below? (rung : Rung) : Option Rung :=
  if 0 < rung.val then some ⟨rung.val - 1, by omega⟩ else none

/-- Where a table with so many entries should move, if anywhere. -/
def towards? (rung : Rung) (count : Nat) : Option Rung :=
  match (if rung.growAt ≤ count then rung.above? else none) with
  | some higher => some higher
  | none => if count < rung.shrinkBelow then rung.below? else none

end Rung

end KeyedStore
