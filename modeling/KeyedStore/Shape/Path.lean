import KeyedStore.Shape.Basic
/-!
A position in a shape, recorded without parent links: the ancestors of a subtree, nearest first, each
with the side taken below it and the subtree left aside. `plug` puts a subtree back into its
position. Searching and walking in order only extend and shorten such paths, so what they return
always plugs back into the shape they started from.
-/
namespace KeyedStore

/-- An ancestor: its color and label, the side that was taken, and the child that was not. -/
structure Crumb (α : Type) where
  color : Color
  label : α
  side : Side
  other : Shape α
  deriving DecidableEq

namespace Crumb

variable {α : Type}

/-- The ancestor over a given child on the side that was taken. -/
def fill (crumb : Crumb α) (child : Shape α) : Shape α :=
  Shape.branch crumb.side crumb.color child crumb.label crumb.other

/-- What stands left of the position because of this ancestor. -/
def before (crumb : Crumb α) : List α :=
  match crumb.side with
  | .left => []
  | .right => crumb.other.toList ++ [crumb.label]

/-- What stands right of the position because of this ancestor. -/
def after (crumb : Crumb α) : List α :=
  match crumb.side with
  | .left => crumb.label :: crumb.other.toList
  | .right => []

theorem toList_fill (crumb : Crumb α) (child : Shape α) :
    (crumb.fill child).toList = crumb.before ++ child.toList ++ crumb.after := by
  cases crumb with
  | mk color label side other => cases side <;> simp [fill, before, after, Shape.branch, Shape.toList]

end Crumb

/-- The ancestors of a position, nearest first (`Path`). -/
abbrev Path (α : Type) := List (Crumb α)

namespace Path

variable {α : Type}

/-- The whole shape, with a subtree put into the position. -/
def plug : Path α → Shape α → Shape α
  | [], inside => inside
  | crumb :: path, inside => plug path (crumb.fill inside)

/-- Everything left of the position. -/
def before : Path α → List α
  | [] => []
  | crumb :: path => before path ++ crumb.before

/-- Everything right of the position. -/
def after : Path α → List α
  | [] => []
  | crumb :: path => crumb.after ++ after path

theorem toList_plug (path : Path α) (inside : Shape α) :
    (path.plug inside).toList = path.before ++ inside.toList ++ path.after := by
  induction path generalizing inside with
  | nil => simp [plug, before, after]
  | cons crumb path ih => simp [plug, before, after, ih, Crumb.toList_fill]

theorem plug_append (path rest : Path α) (inside : Shape α) :
    plug (path ++ rest) inside = plug rest (plug path inside) := by
  induction path generalizing inside with
  | nil => rfl
  | cons crumb path ih => exact ih (crumb.fill inside)

end Path

/-- A position that holds a node. -/
structure Spot (α : Type) where
  path : Path α
  color : Color
  left : Shape α
  label : α
  right : Shape α
  deriving DecidableEq

namespace Spot

variable {α : Type}

/-- The subtree of the node. -/
def inside (spot : Spot α) : Shape α := .node spot.color spot.left spot.label spot.right

/-- The shape that the position belongs to. -/
def whole (spot : Spot α) : Shape α := spot.path.plug spot.inside

/-- The labels before the node. -/
def before (spot : Spot α) : List α := spot.path.before ++ spot.left.toList

/-- The labels after the node. -/
def after (spot : Spot α) : List α := spot.right.toList ++ spot.path.after

theorem toList_whole (spot : Spot α) :
    spot.whole.toList = spot.before ++ spot.label :: spot.after := by
  simp [whole, inside, before, after, Path.toList_plug, Shape.toList]

end Spot

namespace Path

variable {α : Type}

/-- The descent of a search (`locate`). `probe` says where the sought position lies from a label; the descent ends at
a label it calls equal, or where it falls off the shape. -/
def search (probe : α → Ordering) (path : Path α) : Shape α → Path α × Shape α
  | .nil => (path, .nil)
  | .node color left label right =>
    match probe label with
    | .lt => search probe (⟨color, label, .left, right⟩ :: path) left
    | .gt => search probe (⟨color, label, .right, left⟩ :: path) right
    | .eq => (path, .node color left label right)

/-- The leftmost node of a subtree (`leftmost`). -/
def firstSpot (path : Path α) : Shape α → Option (Spot α)
  | .nil => none
  | .node color left label right =>
    some ((firstSpot (⟨color, label, .left, right⟩ :: path) left).getD ⟨path, color, left, label, right⟩)

/-- The nearest ancestor that has the position on its left (`climb`). -/
def ascend : Path α → Shape α → Option (Spot α)
  | [], _ => none
  | crumb :: path, inside =>
    match crumb.side with
    | .left => some ⟨path, crumb.color, inside, crumb.label, crumb.other⟩
    | .right => ascend path (crumb.fill inside)

/-- The descent to the gap beyond a sought position. It goes on to the right below a label that
`probe` calls equal, and ends where it falls off the shape. -/
def gapBeyond (probe : α → Ordering) (path : Path α) : Shape α → Path α
  | .nil => path
  | .node color left label right =>
    match probe label with
    | .lt => gapBeyond probe (⟨color, label, .left, right⟩ :: path) left
    | _ => gapBeyond probe (⟨color, label, .right, left⟩ :: path) right

/-- The first node that `probe` puts strictly after the sought position: the last one that the descent passed on the
left (`seek_after`). -/
def firstBeyond (probe : α → Ordering) (shape : Shape α) : Option (Spot α) :=
  ascend (gapBeyond probe [] shape) .nil

theorem plug_search (probe : α → Ordering) (path : Path α) (shape : Shape α) :
    plug (search probe path shape).1 (search probe path shape).2 = plug path shape := by
  fun_induction search probe path shape with
  | case1 => rfl
  | case2 path color left label right found ih => simpa [plug, Crumb.fill, Shape.branch] using ih
  | case3 path color left label right found ih => simpa [plug, Crumb.fill, Shape.branch] using ih
  | case4 => rfl

theorem whole_firstSpot {path : Path α} {shape : Shape α} {spot : Spot α}
    (found : firstSpot path shape = some spot) : spot.whole = plug path shape := by
  induction shape generalizing path spot with
  | nil => cases found
  | node color left label right ihLeft _ =>
    simp only [firstSpot, Option.some.injEq] at found
    cases deeper : firstSpot (⟨color, label, .left, right⟩ :: path) left with
    | none => rw [deeper] at found; subst found; rfl
    | some inner =>
      rw [deeper] at found
      subst found
      exact ihLeft deeper

theorem whole_ascend {path : Path α} {inside : Shape α} {spot : Spot α}
    (found : ascend path inside = some spot) : spot.whole = plug path inside := by
  fun_induction ascend path inside with
  | case1 => cases found
  | case2 inside crumb path side =>
    cases found
    simp [Spot.whole, Spot.inside, plug, Crumb.fill, Shape.branch, side]
  | case3 inside crumb path side ih => exact ih found

theorem plug_gapBeyond (probe : α → Ordering) (path : Path α) (shape : Shape α) :
    plug (gapBeyond probe path shape) .nil = plug path shape := by
  fun_induction gapBeyond probe path shape with
  | case1 => rfl
  | case2 path color left label right found ih => simpa [plug, Crumb.fill, Shape.branch] using ih
  | case3 path color left label right found ih => simpa [plug, Crumb.fill, Shape.branch] using ih

theorem whole_firstBeyond {probe : α → Ordering} {shape : Shape α} {spot : Spot α}
    (found : firstBeyond probe shape = some spot) : spot.whole = shape :=
  (whole_ascend found).trans (plug_gapBeyond probe [] shape)

end Path

namespace Spot

variable {α : Type}

/-- The next node in order: the leftmost one on the right, else the nearest ancestor that has this node on its left
(`successor`). -/
def next? (spot : Spot α) : Option (Spot α) :=
  match spot.right with
  | .nil => spot.path.ascend spot.inside
  | .node _ _ _ _ =>
    Path.firstSpot (⟨spot.color, spot.label, .right, spot.left⟩ :: spot.path) spot.right

theorem whole_next? {spot following : Spot α} (found : spot.next? = some following) :
    following.whole = spot.whole := by
  unfold next? at found
  split at found
  · exact Path.whole_ascend found
  · exact (Path.whole_firstSpot found).trans rfl

end Spot

end KeyedStore
