import Mathlib.Data.List.Chain
import KeyedStore.Shape.Repair
import KeyedStore.Shape.Check
/-!
The colour laws of a search tree, stated over all its ways down, and what they mean for one position:
a path is balanced at a height when every subtree of that height completes it to a balanced shape.
The laws never mention labels.
-/
namespace KeyedStore

/-- What a node of this colour adds to the black nodes on a way. -/
def Color.weight : Color → Nat
  | .red => 0
  | .black => 1

namespace Shape

variable {α : Type}

/-- The colours met on each way from the root down to an absent node. -/
def descents : Shape α → List (List Color)
  | nil => [[]]
  | node color left _ right => (left.descents ++ right.descents).map (color :: ·)

/-- The laws of a red-black tree: the root is black or absent, no red node has a red child, and all ways
down pass the same number of black nodes. -/
structure RedBlack (shape : Shape α) : Prop where
  blackRoot : shape.isRed = false
  noRedEdge : ∀ way ∈ shape.descents, way.IsChain fun upper lower => ¬(upper = .red ∧ lower = .red)
  sameHeight : ∃ height, ∀ way ∈ shape.descents, way.count .black = height

/-- No red node has a red child. -/
def Separated : Shape α → Prop
  | nil => True
  | node color left _ right =>
    (color = .red → left.isRed = false ∧ right.isRed = false) ∧ left.Separated ∧ right.Separated

/-- Every way down passes this many black nodes. -/
def Levels : Shape α → Nat → Prop
  | nil, height => height = 0
  | node color left _ right, height =>
    ∃ below, height = below + color.weight ∧ left.Levels below ∧ right.Levels below

/-- The laws below a root of either colour, together with the height the ways agree on. -/
def Sound (shape : Shape α) (height : Nat) : Prop := shape.Separated ∧ shape.Levels height

/-- All laws together with the height. -/
def Balanced (shape : Shape α) (height : Nat) : Prop := shape.isRed = false ∧ shape.Sound height

theorem descents_ne_nil (shape : Shape α) : shape.descents ≠ [] := by
  induction shape with
  | nil => simp [descents]
  | node color left label right ihLeft _ => simp [descents, ihLeft]

theorem levels_iff_descents {shape : Shape α} {height : Nat} :
    shape.Levels height ↔ ∀ way ∈ shape.descents, way.count .black = height := by
  induction shape generalizing height with
  | nil => simp [Levels, descents, eq_comm]
  | node color left label right ihLeft ihRight =>
    have counted : ∀ way : List Color,
        (color :: way).count .black = way.count .black + color.weight := by
      intro way
      cases color <;> simp [Color.weight]
    simp only [Levels, descents, List.forall_mem_map, List.forall_mem_append, counted, ihLeft, ihRight]
    constructor
    · rintro ⟨below, rfl, onLeft, onRight⟩
      exact ⟨fun way member => by rw [onLeft way member], fun way member => by rw [onRight way member]⟩
    · rintro ⟨onLeft, onRight⟩
      obtain ⟨some, member⟩ := List.exists_mem_of_ne_nil _ left.descents_ne_nil
      have total := onLeft some member
      refine ⟨some.count .black, total.symm, ?_, ?_⟩
      · intro way there
        have same := onLeft way there
        omega
      · intro way there
        have same := onRight way there
        omega

/-- The colour a way down begins with is that of the root. -/
theorem head_descents {shape : Shape α} :
    (∀ way ∈ shape.descents, way.head? ≠ some .red) ↔ shape.isRed = false := by
  cases shape with
  | nil => simp [descents, isRed]
  | node color left label right =>
    obtain ⟨way, member⟩ := List.exists_mem_of_ne_nil _ left.descents_ne_nil
    simp only [descents, List.forall_mem_map, List.forall_mem_append, List.head?_cons]
    cases color with
    | red => exact iff_of_false (fun all => all.1 way member rfl) (by simp [isRed])
    | black => simp [isRed]

theorem separated_iff_descents {shape : Shape α} :
    shape.Separated ↔
      ∀ way ∈ shape.descents, way.IsChain fun upper lower => ¬(upper = .red ∧ lower = .red) := by
  induction shape with
  | nil => simp [Separated, descents]
  | node color left label right ihLeft ihRight =>
    have linked : ∀ way : List Color,
        ((color :: way).IsChain fun upper lower => ¬(upper = .red ∧ lower = .red)) ↔
          (color = .red → way.head? ≠ some .red) ∧
            way.IsChain fun upper lower => ¬(upper = .red ∧ lower = .red) := by
      intro way
      cases way <;> simp [List.isChain_cons_cons]
    simp only [Separated, descents, List.forall_mem_map, List.forall_mem_append, linked, ihLeft, ihRight,
      ← head_descents]
    constructor
    · rintro ⟨apart, onLeft, onRight⟩
      exact ⟨fun way member => ⟨fun red => (apart red).1 way member, onLeft way member⟩,
        fun way member => ⟨fun red => (apart red).2 way member, onRight way member⟩⟩
    · rintro ⟨onLeft, onRight⟩
      exact ⟨fun red => ⟨fun way member => (onLeft way member).1 red,
        fun way member => (onRight way member).1 red⟩,
        fun way member => (onLeft way member).2, fun way member => (onRight way member).2⟩

theorem redBlack_iff {shape : Shape α} : shape.RedBlack ↔ ∃ height, shape.Balanced height := by
  constructor
  · rintro ⟨root, apart, height, same⟩
    exact ⟨height, root, separated_iff_descents.mpr apart, levels_iff_descents.mpr same⟩
  · rintro ⟨height, root, apart, levels⟩
    exact ⟨root, separated_iff_descents.mp apart, height, levels_iff_descents.mp levels⟩

/-! ### One node at a time -/

theorem isRed_branch {side : Side} {color : Color} {near far : Shape α} {label : α} :
    (branch side color near label far).isRed = true ↔ color = .red := by
  cases side <;> cases color <;> simp [branch, isRed]

theorem levels_branch {side : Side} {color : Color} {near far : Shape α} {label : α} {height : Nat} :
    (branch side color near label far).Levels height ↔
      ∃ below, height = below + color.weight ∧ near.Levels below ∧ far.Levels below := by
  cases side
  · exact Iff.rfl
  · simp only [branch, Levels, and_comm (a := far.Levels _)]

theorem separated_branch {side : Side} {color : Color} {near far : Shape α} {label : α} :
    (branch side color near label far).Separated ↔
      (color = .red → near.isRed = false ∧ far.isRed = false) ∧ near.Separated ∧ far.Separated := by
  cases side
  · exact Iff.rfl
  · simp only [branch, Separated, and_comm (a := far.Separated), and_comm (a := far.isRed = false)]

theorem sound_branch (side : Side) {color : Color} {near far : Shape α} {label : α} {height : Nat} :
    (branch side color near label far).Sound height ↔
      (color = .red → near.isRed = false ∧ far.isRed = false) ∧
        ∃ below, height = below + color.weight ∧ near.Sound below ∧ far.Sound below := by
  simp only [Sound, separated_branch, levels_branch]
  constructor
  · rintro ⟨⟨red, nearApart, farApart⟩, below, total, onNear, onFar⟩
    exact ⟨red, below, total, ⟨nearApart, onNear⟩, farApart, onFar⟩
  · rintro ⟨red, below, total, ⟨nearApart, onNear⟩, farApart, onFar⟩
    exact ⟨⟨red, nearApart, farApart⟩, below, total, onNear, onFar⟩

theorem blacken_of_black {shape : Shape α} (black : shape.isRed = false) : shape.blacken = shape := by
  match shape with
  | nil => rfl
  | node .black _ _ _ => rfl
  | node .red _ _ _ => simp [isRed] at black

/-- A red root turned black adds one to every way. -/
theorem Sound.blacken {shape : Shape α} {height : Nat} (sound : shape.Sound height) :
    shape.blacken.Balanced (height + if shape.isRed then 1 else 0) := by
  match shape with
  | nil => exact ⟨rfl, sound⟩
  | node .black left _ right => exact ⟨rfl, sound⟩
  | node .red left _ right =>
    obtain ⟨⟨_, leftApart, rightApart⟩, below, same, onLeft, onRight⟩ := sound
    exact ⟨rfl, ⟨nofun, leftApart, rightApart⟩, below, congrArg (· + 1) same, onLeft, onRight⟩

/-- The check of the heights accepts every shape that keeps the laws, and counts the absent node at the
end of a way as well. -/
theorem blackHeight_of_sound {shape : Shape α} {height : Nat} (sound : shape.Sound height) :
    shape.blackHeight = .ok (height + 1) := by
  obtain ⟨apart, levels⟩ := sound
  induction shape generalizing height with
  | nil => rw [Levels.eq_1] at levels; rw [levels]; rfl
  | node color left label right ihLeft ihRight =>
    obtain ⟨below, rfl, onLeft, onRight⟩ := levels
    have noEdge : ¬(color = .red ∧ (left.isRed = true ∨ right.isRed = true)) := by
      rintro ⟨red, onLeft | onRight⟩
      · rw [(apart.1 red).1] at onLeft; cases onLeft
      · rw [(apart.1 red).2] at onRight; cases onRight
    simp only [blackHeight, if_neg noEdge, ihLeft apart.2.1 onLeft, ihRight apart.2.2 onRight]
    cases color <;> simp [bind, Except.bind, Color.weight]

end Shape

/-! ### A position -/

namespace Path

variable {α : Type}

/-- The position may hold a red node: it has a parent, and that is black. -/
def TakesRed : Path α → Prop
  | [] => False
  | parent :: _ => parent.color = .black

/-- The ancestors keep the colour laws among themselves and with the subtrees left aside, and a subtree
in which all ways pass `below` black nodes gives the whole shape the height `height`. -/
def Balanced : Path α → Nat → Nat → Prop
  | [], below, height => below = height
  | parent :: path, below, height =>
    parent.other.Sound below ∧
      (parent.color = .red → parent.other.isRed = false ∧ TakesRed path) ∧
      Balanced path (below + parent.color.weight) height

/-- A whole shape keeps the laws exactly when the subtree in some position and the path to it do, and
the subtree is no red node where none may stand. -/
theorem balanced_plug {path : Path α} {inside : Shape α} {height : Nat} :
    (path.plug inside).Balanced height ↔
      ∃ below, inside.Sound below ∧ (inside.isRed = true → path.TakesRed) ∧
        path.Balanced below height := by
  induction path generalizing inside with
  | nil => simp [plug, Shape.Balanced, TakesRed, Balanced, and_comm]
  | cons parent path ih =>
    simp only [plug, ih, Crumb.fill, Shape.sound_branch, Shape.isRed_branch, TakesRed, Balanced]
    constructor
    · rintro ⟨_, ⟨red, below, rfl, onInside, onOther⟩, top, rest⟩
      refine ⟨below, onInside, fun insideRed => ?_, onOther,
        fun parentRed => ⟨(red parentRed).2, top parentRed⟩, rest⟩
      cases color : parent.color with
      | black => rfl
      | red => rw [(red color).1] at insideRed; cases insideRed
    · rintro ⟨below, onInside, insideRed, onOther, parentRed, rest⟩
      refine ⟨_, ⟨fun red => ⟨?_, (parentRed red).1⟩, below, rfl, onInside, onOther⟩,
        fun red => (parentRed red).2, rest⟩
      cases colored : inside.isRed with
      | false => rfl
      | true => rw [insideRed colored] at red; cases red

end Path

end KeyedStore
