import Mathlib.Algebra.Ring.Nat
import KeyedStore.Proofs.Shape.Balance
/-!
How deep a red-black tree can be, and what that means for a search. All ways down pass the same number of black
nodes, which a tree with few nodes cannot make large, and no two red ones follow each other, so that no way is more
than twice as long as another. A search asks its probe about one node of one way after the other: it is run here
with a probe that writes down what it is asked about.
-/
namespace KeyedStore

/-! ### Ways down -/

/-- Between two black nodes of a way there is at most one red one. -/
theorem length_le_of_apart {way : List Color}
    (apart : way.IsChain fun upper lower => ¬(upper = .red ∧ lower = .red)) :
    way.length ≤ 2 * way.count .black + if way.head? = some .red then 1 else 0 := by
  induction way with
  | nil => exact Nat.zero_le _
  | cons color way ih =>
    obtain ⟨beside, rest⟩ := List.isChain_cons.mp apart
    have shorter := ih rest
    cases color with
    | red =>
      have black : way.head? ≠ some .red := fun red => beside .red red ⟨rfl, rfl⟩
      rw [if_neg black] at shorter
      simp only [List.length_cons, List.head?_cons, if_true, List.count_cons_of_ne (show Color.red ≠ .black by decide)]
      omega
    | black =>
      rw [List.length_cons, List.count_cons_self]
      split at shorter <;> omega

namespace Shape

variable {α : Type} {shape : Shape α} {height : Nat}

/-- So many nodes stand on one way down. -/
def Reaches (shape : Shape α) (count : Nat) : Prop := ∃ way ∈ shape.descents, count ≤ way.length

namespace Reaches

variable {color : Color} {left right : Shape α} {label : α} {count : Nat}

theorem nil : shape.Reaches 0 := by
  obtain ⟨way, member⟩ := List.exists_mem_of_ne_nil _ shape.descents_ne_nil
  exact ⟨way, member, Nat.zero_le _⟩

theorem of_left (reaches : left.Reaches count) : (node color left label right).Reaches (count + 1) := by
  obtain ⟨way, member, bound⟩ := reaches
  exact ⟨color :: way, List.mem_map_of_mem (List.mem_append_left _ member), Nat.succ_le_succ bound⟩

theorem of_right (reaches : right.Reaches count) : (node color left label right).Reaches (count + 1) := by
  obtain ⟨way, member, bound⟩ := reaches
  exact ⟨color :: way, List.mem_map_of_mem (List.mem_append_right _ member), Nat.succ_le_succ bound⟩

end Reaches

/-- With every black node that all ways pass the number of places for absent nodes doubles at least. -/
theorem two_pow_le_size (levels : shape.Levels height) : 2 ^ height ≤ shape.size + 1 := by
  induction shape generalizing height with
  | nil =>
    rw [Levels] at levels
    rw [levels]
    exact Nat.le_refl _
  | node color left label right ihLeft ihRight =>
    obtain ⟨below, rfl, onLeft, onRight⟩ := levels
    have more := ihLeft onLeft
    have again := ihRight onRight
    have most : 2 ^ (below + color.weight) ≤ 2 ^ below * 2 := by
      cases color with
      | red => exact Nat.le_mul_of_pos_right _ Nat.two_pos
      | black => exact Nat.le_of_eq (pow_succ 2 below)
    rw [size]
    omega

/-- A tree that keeps the laws has no way that passes more than twice as many nodes as black ones. -/
theorem Balanced.length_le (balanced : shape.Balanced height) {way : List Color} (member : way ∈ shape.descents) :
    way.length ≤ 2 * height := by
  obtain ⟨black, apart, levels⟩ := balanced
  have bound := length_le_of_apart (separated_iff_descents.mp apart way member)
  rw [if_neg (head_descents.mpr black way member), levels_iff_descents.mp levels way member] at bound
  exact bound

/-- No way down is longer than twice the binary logarithm of the number of nodes. -/
theorem Balanced.reaches_le (balanced : shape.Balanced height) {count : Nat} (reaches : shape.Reaches count) :
    count ≤ 2 * (shape.size + 1).log2 := by
  obtain ⟨way, member, bound⟩ := reaches
  have low : height ≤ (shape.size + 1).log2 :=
    (Nat.le_log2 (Nat.succ_ne_zero _)).mpr (two_pow_le_size balanced.2.2)
  calc count ≤ way.length := bound
    _ ≤ 2 * height := balanced.length_le member
    _ ≤ 2 * (shape.size + 1).log2 := Nat.mul_le_mul_left 2 low

end Shape

/-! ### Searches -/

namespace Path

variable {α : Type} {m : Type → Type} [Monad m]

/-- The descent of a search whose probe may do more than answer. -/
def searchM (probe : α → m Ordering) (path : Path α) : Shape α → m (Path α × Shape α)
  | .nil => pure (path, .nil)
  | .node color left label right => do
    match ← probe label with
    | .lt => searchM probe (⟨color, label, .left, right⟩ :: path) left
    | .gt => searchM probe (⟨color, label, .right, left⟩ :: path) right
    | .eq => pure (path, .node color left label right)

/-- The descent to the gap beyond a sought position, with such a probe. -/
def gapBeyondM (probe : α → m Ordering) (path : Path α) : Shape α → m (Path α)
  | .nil => pure path
  | .node color left label right => do
    match ← probe label with
    | .lt => gapBeyondM probe (⟨color, label, .left, right⟩ :: path) left
    | _ => gapBeyondM probe (⟨color, label, .right, left⟩ :: path) right

/-- A probe that writes down the labels that it is asked about, the latest first. -/
def noting (probe : α → Ordering) (label : α) : StateM (List α) Ordering := do
  modify (label :: ·)
  return probe label

/-- A search asks about the nodes of a way down, from the root on, and about each of them once. -/
theorem run_searchM_noting (probe : α → Ordering) (path : Path α) (shape : Shape α) (earlier : List α) :
    ∃ asked, (searchM (noting probe) path shape).run earlier = (search probe path shape, asked ++ earlier) ∧
      shape.Reaches asked.length := by
  fun_induction search probe path shape generalizing earlier with
  | case1 => exact ⟨[], rfl, .nil⟩
  | case2 path color left label right found ih =>
    obtain ⟨asked, ran, reaches⟩ := ih (label :: earlier)
    refine ⟨asked ++ [label], by simp [searchM, noting, found, ran], ?_⟩
    rw [List.length_append]
    exact reaches.of_left
  | case3 path color left label right found ih =>
    obtain ⟨asked, ran, reaches⟩ := ih (label :: earlier)
    refine ⟨asked ++ [label], by simp [searchM, noting, found, ran], ?_⟩
    rw [List.length_append]
    exact reaches.of_right
  | case4 path color left label right found =>
    refine ⟨[label], ?_, Shape.Reaches.nil.of_left⟩
    simp [searchM, noting, found]
    rfl

/-- So does the descent to the gap beyond a position. -/
theorem run_gapBeyondM_noting (probe : α → Ordering) (path : Path α) (shape : Shape α) (earlier : List α) :
    ∃ asked, (gapBeyondM (noting probe) path shape).run earlier = (gapBeyond probe path shape, asked ++ earlier) ∧
      shape.Reaches asked.length := by
  fun_induction gapBeyond probe path shape generalizing earlier with
  | case1 => exact ⟨[], rfl, .nil⟩
  | case2 path color left label right found ih =>
    obtain ⟨asked, ran, reaches⟩ := ih (label :: earlier)
    refine ⟨asked ++ [label], by simp [gapBeyondM, noting, found, ran], ?_⟩
    rw [List.length_append]
    exact reaches.of_left
  | case3 path color left label right found ih =>
    obtain ⟨asked, ran, reaches⟩ := ih (label :: earlier)
    refine ⟨asked ++ [label], by simp [gapBeyondM, noting, ran], ?_⟩
    rw [List.length_append]
    exact reaches.of_right

end Path

end KeyedStore
