import KeyedStore.Shape.Path
/-!
Restoring the colour laws after one change, along the path of that change. `repairRed` hangs a red
node below a path and removes the one red edge this may cause; `repairDeficit` puts a subtree whose
paths have one black node too few into a position. Both walk up the path they are given, never look
at a label, and leave the labels in order.
-/
namespace KeyedStore

namespace Crumb

variable {α : Type}

/-- The same ancestor in another colour. -/
def paint (crumb : Crumb α) (color : Color) : Crumb α := { crumb with color := color }

end Crumb

namespace Shape

variable {α : Type}

/-- Puts a red node below a path (`insert_fixup`). A black parent takes it as it is. Under a red parent with a red
uncle both turn black and the trouble moves two levels up, to a red grandparent; with a black uncle one rotation, or
two when the node is an inner grandchild, put a black node over two red ones. -/
def repairRed : Path α → Shape α → α → Shape α → Shape α
  | [], left, label, right => .node .black left label right
  | [parent], left, label, right => (parent.fill (.node .red left label right)).blacken
  | parent :: grand :: path, left, label, right =>
    match parent.color with
    | .black => (Path.plug (parent :: grand :: path) (.node .red left label right)).blacken
    | .red =>
      if grand.other.isRed then
        let uncle := grand.other.blacken
        let inside := (parent.paint .black).fill (.node .red left label right)
        match grand.side with
        | .left => repairRed path inside grand.label uncle
        | .right => repairRed path uncle grand.label inside
      else if parent.side = grand.side then
        (Path.plug path (branch grand.side .black (.node .red left label right) parent.label
          (branch grand.side .red parent.other grand.label grand.other))).blacken
      else
        (Path.plug path (branch grand.side .black
          (branch grand.side .red parent.other parent.label (grand.side.near left right)) label
          (branch grand.side .red (grand.side.far left right) grand.label grand.other))).blacken

/-- Pays a deficit from the sibling. The position stands on `side` of a parent with colour and label
as given; its sibling has the children `near` and `far`. A red nephew is enough: the far one after one
rotation, the near one after two. The subtree that results has the parent's colour at its root. -/
def lend (side : Side) (color : Color) (deficient : Shape α) (label : α)
    (near : Shape α) (sibling : α) (far : Shape α) : Option (Shape α) :=
  if far.isRed then
    some (branch side color (branch side .black deficient label near) sibling far.blacken)
  else
    match near with
    | .node .red left middle right =>
      some (branch side color (branch side .black deficient label (side.near left right)) middle
        (branch side .black (side.far left right) sibling far))
    | _ => none

/-- Puts a subtree that is one black node short into a position (`remove_fixup`). A red root pays by turning black; a
red sibling is first rotated over the parent; a sibling with a red child lends; a sibling without one turns red, which
leaves the parent's subtree one black node short. -/
def repairDeficit : Path α → Shape α → Except Fault (Shape α)
  | [], deficient => .ok deficient.blacken
  | parent :: path, deficient =>
    if deficient.isRed then .ok (Path.plug (parent :: path) deficient.blacken)
    else
      match parent.other with
      | .nil => .error .missingSibling
      | .node .black left sibling right =>
        match lend parent.side parent.color deficient parent.label
            (parent.side.near left right) sibling (parent.side.far left right) with
        | some settled => .ok (Path.plug path settled).blacken
        | none =>
          repairDeficit path
            (branch parent.side parent.color deficient parent.label (.node .red left sibling right))
      | .node .red left sibling right =>
        let upper : Path α := ⟨.black, sibling, parent.side, parent.side.far left right⟩ :: path
        match parent.side.near left right with
        | .nil => .error .missingSibling
        | .node _ nearLeft nephew nearRight =>
          match lend parent.side .red deficient parent.label
              (parent.side.near nearLeft nearRight) nephew (parent.side.far nearLeft nearRight) with
          | some settled => .ok (Path.plug upper settled).blacken
          | none =>
            .ok (Path.plug upper
              (branch parent.side .black deficient parent.label (.node .red nearLeft nephew nearRight)))

/-- Closes the gap that a node of a given colour left: its only subtree moves up into the position. -/
def closeGap (path : Path α) (removed : Color) (inside : Shape α) : Except Fault (Shape α) :=
  match removed with
  | .red => .ok (Path.plug path inside)
  | .black => repairDeficit path inside

/-- Takes the node out of a position. With two subtrees its successor moves into its place and takes
over its colour (`remove`), and the gap to close is where the successor was. -/
def removeAt (path : Path α) (color : Color) (left right : Shape α) : Except Fault (Shape α) :=
  match left, Path.firstSpot [] right with
  | _, none => closeGap path color left
  | .nil, some _ => closeGap path color right
  | .node _ _ _ _, some spot =>
    closeGap (spot.path ++ ⟨color, spot.label, .right, left⟩ :: path) spot.color spot.right

end Shape

end KeyedStore
