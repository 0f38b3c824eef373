import KeyedStore.Proofs.Simulation
import KeyedStore.Shape.Repair
import KeyedStore.Shape.Check
/-!
Other labels on the same shape. No operation on shapes, paths and spots looks at a label, except through the
probe that it is given; so each does to a shape with other labels what it does to the shape itself, and where
it fails it fails for both.
-/
namespace KeyedStore

variable {α β : Type}

namespace Shape

/-- The same shape with other labels. -/
def relabel (name : α → β) : Shape α → Shape β
  | nil => nil
  | node color left label right => node color (left.relabel name) (name label) (right.relabel name)

variable (name : α → β)

@[simp] theorem relabel_nil : (nil : Shape α).relabel name = nil := rfl

@[simp] theorem relabel_node (color : Color) (left : Shape α) (label : α) (right : Shape α) :
    (node color left label right).relabel name =
      node color (left.relabel name) (name label) (right.relabel name) := rfl

theorem relabel_relabel {γ : Type} (other : β → γ) (shape : Shape α) :
    (shape.relabel name).relabel other = shape.relabel (other ∘ name) := by
  induction shape with
  | nil => rfl
  | node color left label right ihLeft ihRight => simp only [relabel, ihLeft, ihRight, Function.comp_apply]

@[simp] theorem relabel_branch (side : Side) (color : Color) (near : Shape α) (label : α) (far : Shape α) :
    (branch side color near label far).relabel name =
      branch side color (near.relabel name) (name label) (far.relabel name) := by
  cases side <;> rfl

@[simp] theorem relabel_near (side : Side) (left right : Shape α) :
    (side.near left right).relabel name = side.near (left.relabel name) (right.relabel name) := by
  cases side <;> rfl

@[simp] theorem relabel_far (side : Side) (left right : Shape α) :
    (side.far left right).relabel name = side.far (left.relabel name) (right.relabel name) := by
  cases side <;> rfl

@[simp] theorem relabel_blacken (shape : Shape α) :
    shape.blacken.relabel name = (shape.relabel name).blacken := by
  cases shape <;> rfl

@[simp] theorem isRed_relabel (shape : Shape α) : (shape.relabel name).isRed = shape.isRed := by
  cases shape with
  | nil => rfl
  | node color left label right => cases color <;> rfl

@[simp] theorem toList_relabel (shape : Shape α) : (shape.relabel name).toList = shape.toList.map name := by
  induction shape with
  | nil => rfl
  | node color left label right ihLeft ihRight => simp [toList, ihLeft, ihRight]

@[simp] theorem postorder_relabel (shape : Shape α) :
    (shape.relabel name).postorder = shape.postorder.map name := by
  induction shape with
  | nil => rfl
  | node color left label right ihLeft ihRight => simp [postorder, ihLeft, ihRight]

@[simp] theorem size_relabel (shape : Shape α) : (shape.relabel name).size = shape.size := by
  induction shape with
  | nil => rfl
  | node color left label right ihLeft ihRight => simp [size, ihLeft, ihRight]

@[simp] theorem root?_relabel (shape : Shape α) :
    (shape.relabel name).root? = shape.root?.map fun (label, color) => (name label, color) := by
  cases shape <;> rfl

@[simp] theorem first?_relabel (shape : Shape α) : (shape.relabel name).first? = shape.first?.map name := by
  rw [first?_eq_head?, first?_eq_head?, toList_relabel, List.head?_map]

@[simp] theorem last?_relabel (shape : Shape α) : (shape.relabel name).last? = shape.last?.map name := by
  rw [last?_eq_getLast?, last?_eq_getLast?, toList_relabel, List.getLast?_map]

@[simp] theorem blackHeight_relabel (shape : Shape α) :
    (shape.relabel name).blackHeight = shape.blackHeight := by
  induction shape with
  | nil => rfl
  | node color left label right ihLeft ihRight =>
    simp only [relabel, blackHeight, isRed_relabel, ihLeft, ihRight]

end Shape

/-! ### Positions -/

/-- The same ancestor with other labels. -/
def Crumb.relabel (name : α → β) (crumb : Crumb α) : Crumb β :=
  ⟨crumb.color, name crumb.label, crumb.side, crumb.other.relabel name⟩

/-- The same path with other labels. -/
def Path.relabel (name : α → β) (path : Path α) : Path β := path.map (Crumb.relabel name)

/-- The same spot with other labels. -/
def Spot.relabel (name : α → β) (spot : Spot α) : Spot β :=
  ⟨spot.path.relabel name, spot.color, spot.left.relabel name, name spot.label, spot.right.relabel name⟩

section Positions

variable (name : α → β)

@[simp] theorem Crumb.relabel_fill (crumb : Crumb α) (child : Shape α) :
    (crumb.fill child).relabel name = (crumb.relabel name).fill (child.relabel name) :=
  Shape.relabel_branch name crumb.side crumb.color child crumb.label crumb.other

@[simp] theorem Crumb.color_relabel (crumb : Crumb α) : (crumb.relabel name).color = crumb.color := rfl

@[simp] theorem Crumb.label_relabel (crumb : Crumb α) : (crumb.relabel name).label = name crumb.label := rfl

@[simp] theorem Crumb.side_relabel (crumb : Crumb α) : (crumb.relabel name).side = crumb.side := rfl

@[simp] theorem Crumb.other_relabel (crumb : Crumb α) :
    (crumb.relabel name).other = crumb.other.relabel name := rfl

@[simp] theorem Crumb.relabel_paint (crumb : Crumb α) (color : Color) :
    (crumb.paint color).relabel name = (crumb.relabel name).paint color := rfl

namespace Path

@[simp] theorem relabel_nil : relabel name ([] : Path α) = [] := rfl

@[simp] theorem relabel_cons (crumb : Crumb α) (path : Path α) :
    relabel name (crumb :: path) = crumb.relabel name :: path.relabel name := rfl

@[simp] theorem relabel_append (path rest : Path α) :
    relabel name (path ++ rest) = path.relabel name ++ rest.relabel name := List.map_append

@[simp] theorem relabel_plug (path : Path α) (inside : Shape α) :
    (path.plug inside).relabel name = (path.relabel name).plug (inside.relabel name) := by
  induction path generalizing inside with
  | nil => rfl
  | cons crumb path ih => rw [plug, ih, Crumb.relabel_fill]; rfl

/-- A search in the shape with other labels is the search for what the new labels say. -/
theorem search_relabel (probe : β → Ordering) (path : Path α) (shape : Shape α) :
    search probe (path.relabel name) (shape.relabel name) =
      ((search (probe ∘ name) path shape).1.relabel name,
        (search (probe ∘ name) path shape).2.relabel name) := by
  induction shape generalizing path with
  | nil => rfl
  | node color left label right ihLeft ihRight =>
    simp only [Shape.relabel, search, Function.comp_apply]
    cases probe (name label) with
    | lt => exact ihLeft (⟨color, label, .left, right⟩ :: path)
    | gt => exact ihRight (⟨color, label, .right, left⟩ :: path)
    | eq => rfl

theorem firstSpot_relabel (path : Path α) (shape : Shape α) :
    firstSpot (path.relabel name) (shape.relabel name) = (firstSpot path shape).map (Spot.relabel name) := by
  induction shape generalizing path with
  | nil => rfl
  | node color left label right ihLeft _ =>
    have deeper := ihLeft (⟨color, label, .left, right⟩ :: path)
    simp only [Shape.relabel, firstSpot, Option.map_some, Option.some.injEq]
    rw [show (⟨color, name label, .left, right.relabel name⟩ :: path.relabel name : Path β) =
      relabel name (⟨color, label, .left, right⟩ :: path) from rfl, deeper]
    cases firstSpot (⟨color, label, .left, right⟩ :: path) left <;> rfl

theorem ascend_relabel (path : Path α) (inside : Shape α) :
    ascend (path.relabel name) (inside.relabel name) = (ascend path inside).map (Spot.relabel name) := by
  induction path generalizing inside with
  | nil => rfl
  | cons crumb path ih =>
    rcases crumb with ⟨color, label, side, other⟩
    cases side with
    | left => rfl
    | right => exact ih (.node color other label inside)

theorem gapBeyond_relabel (probe : β → Ordering) (path : Path α) (shape : Shape α) :
    gapBeyond probe (path.relabel name) (shape.relabel name) =
      (gapBeyond (probe ∘ name) path shape).relabel name := by
  induction shape generalizing path with
  | nil => rfl
  | node color left label right ihLeft ihRight =>
    simp only [Shape.relabel, gapBeyond, Function.comp_apply]
    cases probe (name label) with
    | lt => exact ihLeft (⟨color, label, .left, right⟩ :: path)
    | gt => exact ihRight (⟨color, label, .right, left⟩ :: path)
    | eq => exact ihRight (⟨color, label, .right, left⟩ :: path)

theorem firstBeyond_relabel (probe : β → Ordering) (shape : Shape α) :
    firstBeyond probe (shape.relabel name) = (firstBeyond (probe ∘ name) shape).map (Spot.relabel name) := by
  have gap := gapBeyond_relabel name probe [] shape
  have climb := ascend_relabel name (gapBeyond (probe ∘ name) [] shape) .nil
  rw [← gap] at climb
  exact climb

end Path

theorem Spot.next?_relabel (spot : Spot α) :
    (spot.relabel name).next? = spot.next?.map (Spot.relabel name) := by
  rcases spot with ⟨path, color, left, label, right⟩
  cases right with
  | nil => exact Path.ascend_relabel name path (.node color left label .nil)
  | node shade near middle far =>
    exact Path.firstSpot_relabel name (⟨color, label, .right, left⟩ :: path) (.node shade near middle far)

end Positions

/-! ### Repairs -/

namespace Shape

variable (name : α → β)

theorem repairRed_relabel (path : Path α) (left : Shape α) (label : α) (right : Shape α) :
    repairRed (path.relabel name) (left.relabel name) (name label) (right.relabel name) =
      (repairRed path left label right).relabel name := by
  fun_induction repairRed path left label right with
  | case1 => rfl
  | case2 parent left label right => simp [repairRed]
  | case3 parent grand path left label right black => simp [repairRed, black]
  | case4 parent grand path left label right red redUncle uncle inside side ih =>
    simpa [repairRed, red, redUncle, side, uncle, inside] using ih
  | case5 parent grand path left label right red redUncle uncle inside side ih =>
    simpa [repairRed, red, redUncle, side, uncle, inside] using ih
  | case6 parent grand path left label right red blackUncle same =>
    simp [repairRed, red, blackUncle, same]
  | case7 parent grand path left label right red blackUncle across =>
    simp [repairRed, red, blackUncle, across]

theorem lend_relabel (side : Side) (color : Color) (deficient : Shape α) (label : α) (left : Shape α)
    (sibling : α) (right : Shape α) :
    lend side color (deficient.relabel name) (name label)
        (side.near (left.relabel name) (right.relabel name)) (name sibling)
        (side.far (left.relabel name) (right.relabel name)) =
      (lend side color deficient label (side.near left right) sibling (side.far left right)).map
        (relabel name) := by
  rw [← relabel_near, ← relabel_far]
  unfold lend
  rw [isRed_relabel]
  split
  · simp
  · cases side.near left right with
    | nil => rfl
    | node shade outer middle inner => cases shade <;> simp

theorem repairDeficit_relabel (path : Path α) (deficient : Shape α) :
    repairDeficit (path.relabel name) (deficient.relabel name) =
      relabel name <$> repairDeficit path deficient := by
  fun_induction repairDeficit path deficient with
  | case1 deficient => simp [repairDeficit]
  | case2 parent path deficient red => simp [repairDeficit, red]
  | case3 parent path deficient black alone => simp [repairDeficit, black, alone]
  | case4 parent path deficient black left sibling right other settled lent =>
    simp [repairDeficit, black, other, lend_relabel, lent]
  | case5 parent path deficient black left sibling right other lent ih =>
    simpa [repairDeficit, black, other, lend_relabel, lent] using ih
  | case6 parent path deficient black left sibling right other alone =>
    have near := relabel_near name parent.side left right
    rw [alone] at near
    simp [repairDeficit, black, other, ← near]
  | case7 parent path deficient black left sibling right other upper color outer nephew inner near settled
      lent =>
    have nearby := relabel_near name parent.side left right
    rw [near] at nearby
    simp [repairDeficit, black, other, ← nearby, lend_relabel, lent, upper, Crumb.relabel]
  | case8 parent path deficient black left sibling right other upper color outer nephew inner near lent =>
    have nearby := relabel_near name parent.side left right
    rw [near] at nearby
    simp [repairDeficit, black, other, ← nearby, lend_relabel, lent, upper, Crumb.relabel]

theorem closeGap_relabel (path : Path α) (removed : Color) (inside : Shape α) :
    closeGap (path.relabel name) removed (inside.relabel name) =
      relabel name <$> closeGap path removed inside := by
  cases removed with
  | red => exact congrArg Except.ok (Path.relabel_plug name path inside).symm
  | black => exact repairDeficit_relabel name path inside

theorem removeAt_relabel (path : Path α) (color : Color) (left right : Shape α) :
    removeAt (path.relabel name) color (left.relabel name) (right.relabel name) =
      relabel name <$> removeAt path color left right := by
  have first := Path.firstSpot_relabel name [] right
  rw [Path.relabel_nil] at first
  cases reached : Path.firstSpot [] right with
  | none =>
    rw [reached, Option.map_none] at first
    simp only [removeAt, first, reached]
    exact closeGap_relabel name path color left
  | some spot =>
    rw [reached, Option.map_some] at first
    cases left with
    | nil =>
      simp only [removeAt, relabel_nil, first, reached]
      exact closeGap_relabel name path color right
    | node shade outer label inner =>
      have closed := closeGap_relabel name
        (spot.path ++ ⟨color, spot.label, .right, .node shade outer label inner⟩ :: path) spot.color spot.right
      rw [Path.relabel_append] at closed
      simp only [removeAt, relabel_node, first, reached]
      exact closed

end Shape

end KeyedStore
