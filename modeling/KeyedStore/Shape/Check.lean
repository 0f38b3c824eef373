import KeyedStore.Shape.Basic
/-!
The checks that a shape passes when it is a well-formed search tree, each as a function that answers
the first law it finds broken. They assume nothing about the shape.
-/
namespace KeyedStore

namespace Shape

variable {α : Type}

/-- The number of black nodes on the way down to any absent node, that end itself counted once (`black_height`); or
the first place, nodes before their subtrees and left before right, where a red node has a red child or two paths
disagree. -/
def blackHeight : Shape α → Except Defect Nat
  | nil => .ok 1
  | node color left _ right =>
    if color = .red ∧ (left.isRed ∨ right.isRed) then .error .redEdge
    else do
      let onLeft ← left.blackHeight
      let onRight ← right.blackHeight
      if onLeft ≠ onRight then .error .unevenHeight
      else .ok (onLeft + if color = .black then 1 else 0)

end Shape

/-- Every two neighbours in the list are in strictly ascending order. -/
def ascending {α : Type} (compare : α → α → Ordering) : List α → Bool
  | first :: second :: rest => compare first second = .lt && ascending compare (second :: rest)
  | _ => true

end KeyedStore
