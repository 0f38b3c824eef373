import KeyedStore.Proofs.Shape.InOrder
/-!
Searching a shape whose labels are in order. A search either meets a label that the probe calls equal, or
ends in the gap between the labels before the sought position and those after it; the search beyond a
position ends in front of exactly the labels after it.
-/
namespace KeyedStore

variable {α : Type}

/-- The probe parts the labels: once it has said that the position lies before a label, it says so of all
further ones, and where it says after it has said so of all earlier ones. -/
def Splits (probe : α → Ordering) (labels : List α) : Prop :=
  labels.Pairwise fun first second =>
    (probe first = .lt → probe second = .lt) ∧ (probe second = .gt → probe first = .gt)

namespace Spot

/-- The labels from a spot on. -/
def onward : Option (Spot α) → List α
  | none => []
  | some spot => spot.label :: spot.after

theorem onward_next? (spot : Spot α) : onward spot.next? = spot.after := by
  cases found : spot.next? with
  | none => exact (after_of_next?_none found).symm
  | some following => exact (split_next? found).2

end Spot

namespace Path

theorem onward_firstSpot (shape : Shape α) : Spot.onward (firstSpot [] shape) = shape.toList := by
  cases found : firstSpot [] shape with
  | none =>
    obtain rfl := firstSpot_eq_none.mp found
    rfl
  | some spot => exact (split_firstSpot found).2.trans (List.append_nil _)

theorem onward_ascend (path : Path α) (inside : Shape α) :
    Spot.onward (ascend path inside) = path.after := by
  cases found : ascend path inside with
  | none => exact (after_of_ascend_none found).symm
  | some spot => exact (split_ascend found).2

variable {probe : α → Ordering}

/-- A search ends at a label only when the probe calls it equal. -/
theorem probe_of_met {path ended : Path α} {shape left right : Shape α} {color : Color} {label : α}
    (met : search probe path shape = (ended, .node color left label right)) : probe label = .eq := by
  fun_induction search probe path shape with
  | case1 => cases met
  | case2 path color left label right found ih => exact ih met
  | case3 path color left label right found ih => exact ih met
  | case4 path color left label right found =>
    cases met
    exact found

/-- What a step down leaves aside on the right of a label that lies after the position. -/
private theorem after_of_lt {left right : Shape α} {color : Color} {label : α} {later : List α}
    (splits : Splits probe (Shape.node color left label right).toList) (found : probe label = .lt)
    (beyond : ∀ other ∈ later, probe other = .lt) :
    ∀ other ∈ (label :: right.toList) ++ later, probe other = .lt := by
  intro other member
  obtain ⟨_, below, _⟩ := List.pairwise_append.mp splits
  rcases List.mem_append.mp member with near | far
  · rcases List.mem_cons.mp near with rfl | inside
    · exact found
    · exact ((List.pairwise_cons.mp below).1 other inside).1 found
  · exact beyond other far

/-- The gap that a search ends in parts the labels in order. -/
theorem split_missed (path : Path α) {ended : Path α} {shape : Shape α} (splits : Splits probe shape.toList)
    (earlier : ∀ label ∈ path.before, probe label = .gt)
    (later : ∀ label ∈ path.after, probe label = .lt)
    (missed : search probe path shape = (ended, .nil)) :
    (∀ label ∈ ended.before, probe label = .gt) ∧ ∀ label ∈ ended.after, probe label = .lt := by
  fun_induction search probe path shape with
  | case1 path =>
    cases missed
    exact ⟨earlier, later⟩
  | case2 path color left label right found ih =>
    obtain ⟨onLeft, _, _⟩ := List.pairwise_append.mp splits
    refine ih onLeft ?_ ?_ missed
    · simpa only [before, Crumb.before, List.append_nil] using earlier
    · exact after_of_lt splits found later
  | case3 path color left label right found ih =>
    obtain ⟨_, below, across⟩ := List.pairwise_append.mp splits
    refine ih (List.pairwise_cons.mp below).2 ?_ ?_ missed
    · intro other member
      simp only [before, Crumb.before, List.mem_append, List.mem_singleton] at member
      rcases member with far | near | rfl
      · exact earlier other far
      · exact (across other near label List.mem_cons_self).2 found
      · exact found
    · simpa only [after, Crumb.after, List.nil_append] using later
  | case4 => cases missed

/-- The gap beyond a position has in front of it what the probe does not put after the position. -/
theorem split_gapBeyond (path : Path α) {shape : Shape α} (splits : Splits probe shape.toList)
    (earlier : ∀ label ∈ path.before, probe label ≠ .lt)
    (later : ∀ label ∈ path.after, probe label = .lt) :
    (∀ label ∈ (gapBeyond probe path shape).before, probe label ≠ .lt) ∧
      ∀ label ∈ (gapBeyond probe path shape).after, probe label = .lt := by
  fun_induction gapBeyond probe path shape with
  | case1 => exact ⟨earlier, later⟩
  | case2 path color left label right found ih =>
    obtain ⟨onLeft, _, _⟩ := List.pairwise_append.mp splits
    refine ih onLeft ?_ ?_
    · simpa only [before, Crumb.before, List.append_nil] using earlier
    · exact after_of_lt splits found later
  | case3 path color left label right found ih =>
    obtain ⟨_, below, across⟩ := List.pairwise_append.mp splits
    refine ih (List.pairwise_cons.mp below).2 ?_ ?_
    · intro other member
      simp only [before, Crumb.before, List.mem_append, List.mem_singleton] at member
      rcases member with far | near | rfl
      · exact earlier other far
      · exact fun less => found ((across other near label List.mem_cons_self).1 less)
      · exact found
    · simpa only [after, Crumb.after, List.nil_append] using later

/-- From the first label beyond a position on there stand exactly the labels after the position. -/
theorem onward_firstBeyond {shape : Shape α} (splits : Splits probe shape.toList) :
    Spot.onward (firstBeyond probe shape) = shape.toList.filter (probe · == .lt) := by
  obtain ⟨earlier, later⟩ := split_gapBeyond [] splits (by simp [before]) (by simp [after])
  have listed := toList_plug (gapBeyond probe [] shape) .nil
  rw [plug_gapBeyond, plug, Shape.toList, List.append_nil] at listed
  rw [firstBeyond, onward_ascend, listed, List.filter_append,
    List.filter_eq_nil_iff.mpr (by simpa using earlier), List.nil_append]
  exact (List.filter_eq_self.mpr (by simpa using later)).symm

end Path

end KeyedStore
