import KeyedStore.Outcome
/-!
Coloured binary trees over labels. Nothing here compares labels: a shape is the links and colours of
a search tree, and `toList` is its view, the labels from left to right.
-/
namespace KeyedStore

inductive Color where
  | red
  | black
  deriving DecidableEq

/-- The two directions below a node (`Dir`). -/
inductive Side where
  | left
  | right
  deriving DecidableEq

/-- The other direction (`flip`). -/
def Side.other : Side → Side
  | .left => .right
  | .right => .left

/-- Of two children, the one on this side. -/
def Side.near {β : Type} : Side → β → β → β
  | .left, l, _ => l
  | .right, _, r => r

/-- Of two children, the one on the other side. -/
def Side.far {β : Type} : Side → β → β → β
  | .left, _, r => r
  | .right, l, _ => l

/-- A binary tree of coloured nodes. -/
inductive Shape (α : Type) where
  | nil
  | node (color : Color) (left : Shape α) (label : α) (right : Shape α)
  deriving DecidableEq

namespace Shape

variable {α : Type}

/-- A node given from one side: `near` becomes its child on `side`, `far` the other one. -/
def branch (side : Side) (color : Color) (near : Shape α) (label : α) (far : Shape α) : Shape α :=
  match side with
  | .left => node color near label far
  | .right => node color far label near

theorem branch_near_far (side : Side) (color : Color) (left : Shape α) (label : α) (right : Shape α) :
    branch side color (side.near left right) label (side.far left right) =
      node color left label right := by
  cases side <;> rfl

theorem branch_other (side : Side) (color : Color) (near : Shape α) (label : α) (far : Shape α) :
    branch side.other color near label far = branch side color far label near := by
  cases side <;> rfl

/-- The labels from left to right. -/
def toList : Shape α → List α
  | nil => []
  | node _ left label right => left.toList ++ label :: right.toList

/-- The labels in the order in which a release from the leaves up meets them. -/
def postorder : Shape α → List α
  | nil => []
  | node _ left label right => left.postorder ++ right.postorder ++ [label]

def size : Shape α → Nat
  | nil => 0
  | node _ left _ right => left.size + right.size + 1

/-- The root is red (`is_red`); a missing one is not. -/
def isRed : Shape α → Bool
  | node .red _ _ _ => true
  | _ => false

/-- The same shape under a black root. -/
def blacken : Shape α → Shape α
  | nil => nil
  | node _ left label right => node .black left label right

/-- The label and colour of the root. -/
def root? : Shape α → Option (α × Color)
  | nil => none
  | node color _ label _ => some (label, color)

/-- The leftmost label. -/
def first? : Shape α → Option α
  | nil => none
  | node _ left label _ => some (left.first?.getD label)

/-- The rightmost label. -/
def last? : Shape α → Option α
  | nil => none
  | node _ _ label right => some (right.last?.getD label)

theorem toList_branch (side : Side) (color : Color) (near : Shape α) (label : α) (far : Shape α) :
    (branch side color near label far).toList =
      side.near (near.toList ++ label :: far.toList) (far.toList ++ label :: near.toList) := by
  cases side <;> rfl

theorem toList_blacken (shape : Shape α) : shape.blacken.toList = shape.toList := by
  cases shape <;> rfl

theorem length_toList (shape : Shape α) : shape.toList.length = shape.size := by
  induction shape with
  | nil => rfl
  | node color left label right ihLeft ihRight =>
    simp only [toList, size, List.length_append, List.length_cons, ihLeft, ihRight]
    omega

theorem perm_postorder (shape : Shape α) : shape.postorder.Perm shape.toList := by
  induction shape with
  | nil => exact .refl _
  | node color left label right ihLeft ihRight =>
    have together : (left.postorder ++ right.postorder ++ [label]).Perm
        (left.postorder ++ label :: right.postorder) := by
      rw [List.append_assoc]
      exact (List.perm_append_singleton label right.postorder).append_left left.postorder
    exact together.trans (ihLeft.append (ihRight.cons label))

theorem first?_eq_head? (shape : Shape α) : shape.first? = shape.toList.head? := by
  induction shape with
  | nil => rfl
  | node color left label right ihLeft _ =>
    rw [first?, toList, ihLeft, List.head?_append]
    cases left.toList.head? <;> rfl

theorem last?_eq_getLast? (shape : Shape α) : shape.last? = shape.toList.getLast? := by
  induction shape with
  | nil => rfl
  | node color left label right _ ihRight =>
    simp only [last?, toList, List.getLast?_append, List.getLast?_cons, ihRight]
    rfl

end Shape

end KeyedStore
