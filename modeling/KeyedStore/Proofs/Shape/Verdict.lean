import KeyedStore.Proofs.Shape.Balance
import KeyedStore.Proofs.Shape.Search
/-!
What the checks of a shape decide, for any shape at all. The check of the heights looks at one node after the
other, at the colours next to it and the two heights below it, and stops at the first fault; what it answers is true
of all ways down. It can count the nodes that it comes to on the same pass, and the order of the labels can be checked
on a walk that keeps the last label and no list.
-/
namespace KeyedStore

namespace Shape

variable {α : Type} {shape : Shape α}

/-- A check of the heights ends in one of three ways, and each of them tells something of the whole shape. -/
inductive Verdict (shape : Shape α) : Except Defect Nat → Prop where
  | sound {height : Nat} (sound : shape.Sound height) : Verdict shape (.ok (height + 1))
  | redEdge (joined : ¬shape.Separated) : Verdict shape (.error .redEdge)
  | unevenHeight (uneven : ∀ height, ¬shape.Levels height) : Verdict shape (.error .unevenHeight)

theorem Levels.unique {height other : Nat} (levels : shape.Levels height) (also : shape.Levels other) :
    height = other := by
  obtain ⟨way, member⟩ := List.exists_mem_of_ne_nil _ shape.descents_ne_nil
  exact (levels_iff_descents.mp levels way member).symm.trans (levels_iff_descents.mp also way member)

/-- The check sees no more than one node and what the subtrees answered, yet its answer holds of all ways down. -/
theorem blackHeight_verdict (shape : Shape α) : shape.Verdict shape.blackHeight := by
  induction shape with
  | nil =>
    have nothing : (nil : Shape α).Sound 0 := ⟨trivial, rfl⟩
    exact .sound nothing
  | node color left label right ihLeft ihRight =>
    rw [blackHeight]
    by_cases edge : color = .red ∧ (left.isRed = true ∨ right.isRed = true)
    · rw [if_pos edge]
      apply Verdict.redEdge
      intro apart
      obtain ⟨onLeft, onRight⟩ := apart.1 edge.1
      simp [onLeft, onRight] at edge
    · rw [if_neg edge]
      generalize left.blackHeight = leftward at ihLeft
      generalize right.blackHeight = rightward at ihRight
      cases ihLeft with
      | redEdge joined => exact .redEdge fun apart => joined apart.2.1
      | unevenHeight uneven =>
        apply Verdict.unevenHeight
        rintro _ ⟨below, _, onLeft, _⟩
        exact uneven below onLeft
      | @sound below leftSound =>
        cases ihRight with
        | redEdge joined => exact .redEdge fun apart => joined apart.2.2
        | unevenHeight uneven =>
          apply Verdict.unevenHeight
          rintro _ ⟨below, _, _, onRight⟩
          exact uneven below onRight
        | @sound also rightSound =>
          by_cases same : below = also
          · subst same
            have counted : below + 1 + (if color = .black then 1 else 0) = below + color.weight + 1 := by
              cases color <;> simp [Color.weight]
            simp only [bind, Except.bind, ne_eq, not_true_eq_false, if_false, counted]
            apply Verdict.sound
            apply (sound_branch .left).mpr
            exact ⟨fun red => by simpa [red] using edge, below, rfl, leftSound, rightSound⟩
          · have apart : below + 1 ≠ also + 1 := fun equal => same (Nat.succ.inj equal)
            simp only [bind, Except.bind, if_pos apart]
            apply Verdict.unevenHeight
            rintro _ ⟨_, _, onLeft, onRight⟩
            exact same ((leftSound.2.unique onLeft).trans (onRight.unique rightSound.2))

/-- A shape in which some red node has a red child has a way down on which one follows the other. -/
theorem exists_red_edge (joined : ¬shape.Separated) :
    ∃ way ∈ shape.descents, ¬way.IsChain fun upper lower => ¬(upper = .red ∧ lower = .red) := by
  by_contra none
  apply joined
  apply separated_iff_descents.mpr
  intro way member
  by_contra broken
  exact none ⟨way, member, broken⟩

/-- When no number of black nodes fits all ways down, two of them differ. -/
theorem exists_uneven (uneven : ∀ height, ¬shape.Levels height) :
    ∃ way ∈ shape.descents, ∃ other ∈ shape.descents, way.count .black ≠ other.count .black := by
  obtain ⟨way, member⟩ := List.exists_mem_of_ne_nil _ shape.descents_ne_nil
  by_contra none
  apply uneven (way.count .black)
  apply levels_iff_descents.mpr
  intro other also
  by_contra differs
  exact none ⟨way, member, other, also, Ne.symm differs⟩

/-! ### The checks on one pass -/

/-- The check of the heights that also counts the nodes it comes to, from a number on. -/
def survey : Shape α → Nat → Except Defect (Nat × Nat)
  | nil, reached => .ok (1, reached)
  | node color left _ right, reached =>
    if color = .red ∧ (left.isRed ∨ right.isRed) then .error .redEdge
    else do
      let (onLeft, reached) ← left.survey (reached + 1)
      let (onRight, reached) ← right.survey reached
      if onLeft ≠ onRight then .error .unevenHeight
      else .ok (onLeft + if color = .black then 1 else 0, reached)

/-- A survey that comes to its end has met every node once. -/
theorem survey_eq (shape : Shape α) (reached : Nat) :
    shape.survey reached = do return (← shape.blackHeight, reached + shape.size) := by
  induction shape generalizing reached with
  | nil => rfl
  | node color left label right ihLeft ihRight =>
    have total : reached + 1 + left.size + right.size = reached + (node color left label right).size := by
      rw [size]
      omega
    rw [survey, blackHeight, ihLeft]
    by_cases edge : color = .red ∧ (left.isRed = true ∨ right.isRed = true)
    · rw [if_pos edge, if_pos edge]
      rfl
    · rw [if_neg edge, if_neg edge]
      cases left.blackHeight with
      | error defect => rfl
      | ok onLeft =>
        simp only [bind, Except.bind, pure, Except.pure, ihRight]
        cases right.blackHeight with
        | error defect => rfl
        | ok onRight =>
          by_cases same : onLeft = onRight
          · simp [same, total]
          · simp [same]

end Shape

namespace Spot

variable {α β : Type}

/-- Walks from a spot to the end, as long as every key comes out greater than the one before it. -/
def ascends (compare : β → β → Ordering) (keyOf : α → β) (earlier : Option β) : Option (Spot α) → Bool
  | none => true
  | some spot =>
    earlier.all (compare · (keyOf spot.label) = .lt) &&
      ascends compare keyOf (some (keyOf spot.label)) spot.next?
termination_by spot => (onward spot).length
decreasing_by
  rw [onward_next?]
  exact Nat.lt_succ_self _

/-- The walk decides the order of the keys that are ahead, and of the first of them after the one before. -/
theorem ascends_eq (compare : β → β → Ordering) (keyOf : α → β) (earlier : Option β) (next : Option (Spot α)) :
    ascends compare keyOf earlier next =
      ascending compare (earlier.toList ++ (onward next).map keyOf) := by
  fun_induction ascends compare keyOf earlier next with
  | case1 earlier => cases earlier <;> rfl
  | case2 earlier spot ih =>
    rw [onward_next?] at ih
    rw [ih]
    cases earlier with
    | none => rfl
    | some previous => rfl

end Spot

end KeyedStore
