import KeyedStore.Shape.Repair
/-!
What repairs and walks do to the labels from left to right. A repair may move any node in the tree, but
its list of labels is the one around the change. A walk splits that list at one label: what its spot
says stands before and after is what the list says.
-/
namespace KeyedStore

namespace Shape

variable {α : Type}

/-! ### Repairs keep the labels in order -/

theorem toList_repairRed (path : Path α) (left : Shape α) (label : α) (right : Shape α) :
    (repairRed path left label right).toList =
      path.before ++ (left.toList ++ label :: right.toList) ++ path.after := by
  fun_induction repairRed path left label right with
  | case1 left label right => simp [Path.before, Path.after, toList]
  | case2 parent left label right =>
    simp [toList_blacken, Crumb.toList_fill, Path.before, Path.after, toList]
  | case3 parent grand path left label right black =>
    simp only [toList_blacken, Path.toList_plug, toList]
  | case4 parent grand path left label right red uncleRed uncle inside side =>
    rename_i ih
    rw [ih, toList_blacken, Crumb.toList_fill]
    simp [Path.before, Path.after, Crumb.before, Crumb.after, Crumb.paint, side, toList]
  | case5 parent grand path left label right red uncleRed uncle inside side =>
    rename_i ih
    rw [ih, toList_blacken, Crumb.toList_fill]
    simp [Path.before, Path.after, Crumb.before, Crumb.after, Crumb.paint, side, toList]
  | case6 parent grand path left label right red uncleBlack outer =>
    cases side : grand.side <;>
      simp [toList_blacken, Path.toList_plug, toList_branch, Side.near, Path.before, Path.after,
        Crumb.before, Crumb.after, outer, side, toList]
  | case7 parent grand path left label right red uncleBlack inner =>
    cases upper : grand.side <;> cases lower : parent.side <;> first
      | exact absurd (lower.trans upper.symm) inner
      | simp [toList_blacken, Path.toList_plug, toList_branch, Side.near, Side.far, Path.before,
          Path.after, Crumb.before, Crumb.after, lower, upper]

theorem toList_lend {side : Side} {color : Color} {deficient near far settled : Shape α}
    {label sibling : α}
    (lent : lend side color deficient label near sibling far = some settled) :
    settled.toList = side.near
      (deficient.toList ++ label :: (near.toList ++ sibling :: far.toList))
      ((far.toList ++ sibling :: near.toList) ++ label :: deficient.toList) := by
  unfold lend at lent
  split at lent
  · cases lent
    cases side <;> simp [toList_branch, toList_blacken, Side.near]
  · split at lent
    · cases lent
      cases side <;> simp [toList_branch, Side.near, Side.far, toList]
    · cases lent

theorem toList_repairDeficit {path : Path α} {deficient shape : Shape α}
    (done : repairDeficit path deficient = .ok shape) :
    shape.toList = path.before ++ deficient.toList ++ path.after := by
  fun_induction repairDeficit path deficient with
  | case1 deficient =>
    cases done
    simp [Path.before, Path.after, toList_blacken]
  | case2 parent path deficient red =>
    cases done
    simp only [Path.toList_plug, toList_blacken]
  | case3 => cases done
  | case4 parent path deficient black left sibling right blackSibling settled lent =>
    cases done
    rw [toList_blacken, Path.toList_plug, toList_lend lent]
    cases side : parent.side <;>
      simp [Path.before, Path.after, Crumb.before, Crumb.after, Side.near, Side.far, side, blackSibling,
        toList]
  | case5 parent path deficient black left sibling right blackSibling none ih =>
    rw [ih done]
    cases side : parent.side <;>
      simp [toList_branch, Path.before, Path.after, Crumb.before, Crumb.after, Side.near, side,
        blackSibling, toList]
  | case6 => cases done
  | case7 parent path deficient black left sibling right redSibling upper color nearLeft nephew
      nearRight found settled =>
    rename_i lent
    cases done
    rw [toList_blacken, Path.toList_plug, toList_lend lent]
    cases side : parent.side <;> simp only [side, Side.near] at found <;>
      simp [upper, Path.before, Path.after, Crumb.before, Crumb.after, Side.near, Side.far, side,
        redSibling, found, toList]
  | case8 parent path deficient black left sibling right redSibling upper color nearLeft nephew
      nearRight found =>
    cases done
    rw [Path.toList_plug]
    cases side : parent.side <;> simp only [side, Side.near] at found <;>
      simp [upper, toList_branch, Path.before, Path.after, Crumb.before, Crumb.after, Side.near, Side.far,
        side, redSibling, found, toList]

end Shape

/-! ### Walking in order -/

namespace Path

variable {α : Type}

theorem before_append (path rest : Path α) : before (path ++ rest) = before rest ++ before path := by
  induction path with
  | nil => simp [before]
  | cons crumb path ih => simp [before, ih]

theorem after_append (path rest : Path α) : after (path ++ rest) = after path ++ after rest := by
  induction path with
  | nil => simp [after]
  | cons crumb path ih => simp [after, ih]

theorem firstSpot_eq_none {path : Path α} {shape : Shape α} :
    firstSpot path shape = none ↔ shape = .nil := by
  cases shape <;> simp [firstSpot]

/-- The leftmost node has nothing of its subtree before it. -/
theorem split_firstSpot {path : Path α} {shape : Shape α} {spot : Spot α}
    (found : firstSpot path shape = some spot) :
    spot.before = path.before ∧ spot.label :: spot.after = shape.toList ++ path.after := by
  induction shape generalizing path spot with
  | nil => cases found
  | node color left label right ihLeft _ =>
    simp only [firstSpot, Option.some.injEq] at found
    cases deeper : firstSpot (⟨color, label, .left, right⟩ :: path) left with
    | none =>
      rw [deeper] at found
      subst found
      obtain rfl := firstSpot_eq_none.mp deeper
      simp [Spot.before, Spot.after, Shape.toList]
    | some inner =>
      rw [deeper] at found
      subst found
      obtain ⟨first, rest⟩ := ihLeft deeper
      simp only [before, after, Crumb.before, Crumb.after, List.append_nil] at first rest
      exact ⟨first, by simp [rest, Shape.toList]⟩

/-- The ancestor that a climb stops at is the first label behind the position. -/
theorem split_ascend {path : Path α} {inside : Shape α} {spot : Spot α}
    (found : ascend path inside = some spot) :
    spot.before = path.before ++ inside.toList ∧ spot.label :: spot.after = path.after := by
  fun_induction ascend path inside with
  | case1 => cases found
  | case2 inside crumb path side =>
    cases found
    simp [Spot.before, Spot.after, before, after, Crumb.before, Crumb.after, side]
  | case3 inside crumb path side ih =>
    obtain ⟨first, rest⟩ := ih found
    simp [first, rest, before, after, Crumb.before, Crumb.after, side, Crumb.toList_fill]

theorem after_of_ascend_none {path : Path α} {inside : Shape α} (none : ascend path inside = none) :
    path.after = [] := by
  fun_induction ascend path inside with
  | case1 => rfl
  | case2 => cases none
  | case3 inside crumb path side ih => simp [after, Crumb.after, side, ih none]

end Path

namespace Spot

variable {α : Type}

/-- One step to the right in the list of labels. -/
theorem split_next? {spot following : Spot α} (found : spot.next? = some following) :
    following.before = spot.before ++ [spot.label] ∧
      following.label :: following.after = spot.after := by
  unfold next? at found
  split at found
  · rename_i empty
    obtain ⟨first, rest⟩ := Path.split_ascend found
    rw [first, rest]
    simp [before, after, inside, empty, Shape.toList]
  · obtain ⟨first, rest⟩ := Path.split_firstSpot found
    rw [first, rest]
    simp [before, after, Path.before, Path.after, Crumb.before, Crumb.after]

theorem after_of_next?_none {spot : Spot α} (none : spot.next? = none) : spot.after = [] := by
  unfold next? at none
  split at none
  · rename_i empty
    simp [after, empty, Shape.toList, Path.after_of_ascend_none none]
  · rename_i filled
    exact absurd (Path.firstSpot_eq_none.mp none) (by simp [filled])

end Spot

namespace Shape

variable {α : Type}

theorem toList_closeGap {path : Path α} {removed : Color} {inside shape : Shape α}
    (done : closeGap path removed inside = .ok shape) :
    shape.toList = path.before ++ inside.toList ++ path.after := by
  cases removed with
  | red => cases done; exact Path.toList_plug path inside
  | black => exact toList_repairDeficit done

/-- Taking a node out leaves the labels around it, in their order. -/
theorem toList_removeAt {path : Path α} {color : Color} {left right shape : Shape α}
    (done : removeAt path color left right = .ok shape) :
    shape.toList = path.before ++ (left.toList ++ right.toList) ++ path.after := by
  unfold removeAt at done
  split at done
  · rename_i found
    obtain rfl := Path.firstSpot_eq_none.mp found
    simpa [toList] using toList_closeGap done
  · simpa [toList] using toList_closeGap done
  · rename_i spot found
    obtain ⟨first, rest⟩ := Path.split_firstSpot found
    have nothing : spot.path.before = [] := by
      simp only [Spot.before, Path.before, List.append_eq_nil_iff] at first
      exact first.1
    simp only [Path.after, List.append_nil, Spot.after] at rest
    rw [toList_closeGap done, ← rest]
    simp [Path.before_append, Path.after_append, nothing, Crumb.before, Crumb.after, Path.before, Path.after]

end Shape

end KeyedStore
