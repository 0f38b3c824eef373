import KeyedStore.Proofs.Shape.Repair
import KeyedStore.Proofs.Shape.InOrder
/-!
What a repair may be given, said over all ways down. A way down of a whole shape either leaves the path to a
position somewhere or goes through the position; the laws may be broken on the latter alone, by a number of black
nodes that are missing there and by one red edge at the position itself.
-/
namespace KeyedStore

variable {α : Type}

/-- No two red nodes follow each other on a way down. -/
def Apart (way : List Color) : Prop := way.IsChain fun upper lower => ¬(upper = .red ∧ lower = .red)

instance (way : List Color) : Decidable (Apart way) :=
  inferInstanceAs (Decidable (way.IsChain fun upper lower => ¬(upper = .red ∧ lower = .red)))

theorem apart_nil : Apart [] := .nil

theorem apart_cons {color : Color} {way : List Color} :
    Apart (color :: way) ↔ (color = .red → way.head? ≠ some .red) ∧ Apart way := by
  cases way with
  | nil => simp [Apart]
  | cons lower way =>
    refine List.isChain_cons_cons.trans (and_congr_left' ?_)
    simp

/-- A way is looked at above and below one of its nodes. -/
theorem apart_split {front back : List Color} {color : Color} :
    Apart (front ++ color :: back) ↔ Apart (front ++ [color]) ∧ Apart (color :: back) :=
  List.isChain_split

namespace Shape

theorem mem_descents_branch {side : Side} {color : Color} {near far : Shape α} {label : α} {way : List Color} :
    way ∈ (branch side color near label far).descents ↔
      ∃ rest, (rest ∈ near.descents ∨ rest ∈ far.descents) ∧ color :: rest = way := by
  cases side
  · simp only [branch, descents, List.mem_map, List.mem_append]
  · simp only [branch, descents, List.mem_map, List.mem_append, or_comm]

theorem sound_iff {shape : Shape α} {height : Nat} :
    shape.Sound height ↔ ∀ way ∈ shape.descents, way.count .black = height ∧ Apart way := by
  rw [Sound, separated_iff_descents, levels_iff_descents]
  exact and_comm.trans forall₂_and.symm

/-- What an ancestor asks of the subtree beside the path, said over its ways down. -/
theorem sound_below {shape : Shape α} {color : Color} {below : Nat} :
    shape.Sound below ∧ (color = .red → shape.isRed = false) ↔
      ∀ way ∈ shape.descents, way.count .black = below ∧ Apart (color :: way) := by
  rw [sound_iff, ← head_descents]
  constructor
  · rintro ⟨sound, black⟩ way member
    exact ⟨(sound way member).1, apart_cons.mpr ⟨fun red => black red way member, (sound way member).2⟩⟩
  · intro all
    exact ⟨fun way member => ⟨(all way member).1, (apart_cons.mp (all way member).2).2⟩,
      fun red way member => (apart_cons.mp (all way member).2).1 red⟩

end Shape

namespace Path

/-- The colours of the ancestors, from the root down. -/
def above : Path α → List Color
  | [] => []
  | parent :: path => above path ++ [parent.color]

/-- The colours on the ways down that leave the path to a position before it ends. -/
def beside : Path α → List (List Color)
  | [] => []
  | parent :: path => beside path ++ parent.other.descents.map fun way => above path ++ parent.color :: way

/-- All ways down pass a position or leave the path to it. -/
theorem mem_descents_plug {path : Path α} {inside : Shape α} {way : List Color} :
    way ∈ (path.plug inside).descents ↔ way ∈ path.beside ∨ ∃ rest ∈ inside.descents, path.above ++ rest = way := by
  induction path generalizing inside way with
  | nil => simp [plug, beside, above]
  | cons parent path ih =>
    rw [plug, ih, Crumb.fill]
    simp only [Shape.mem_descents_branch, beside, above, List.mem_append, List.mem_map]
    constructor
    · rintro (aside | ⟨_, ⟨rest, through | leaving, rfl⟩, rfl⟩)
      · exact .inl (.inl aside)
      · exact .inr ⟨rest, through, by simp⟩
      · exact .inl (.inr ⟨rest, leaving, rfl⟩)
    · rintro ((aside | ⟨rest, leaving, rfl⟩) | ⟨rest, through, rfl⟩)
      · exact .inl aside
      · exact .inr ⟨_, ⟨rest, .inr leaving, rfl⟩, rfl⟩
      · exact .inr ⟨_, ⟨rest, .inl through, rfl⟩, by simp⟩

/-- A red ancestor wants a black one above it, so that the way to it begins with a black one. -/
theorem apart_above {parent : Crumb α} {path : Path α} :
    Apart (above (parent :: path)) ∧ (above (parent :: path)).head? ≠ some .red ↔
      (Apart (above path) ∧ (above path).head? ≠ some .red) ∧ (parent.color = .red → TakesRed path) := by
  cases path with
  | nil => cases color : parent.color <;> simp [above, TakesRed, color, apart_cons, apart_nil]
  | cons grand path =>
    have upper : (above (parent :: grand :: path)).head? = (above (grand :: path)).head? :=
      List.head?_append_of_ne_nil _ (by simp [above])
    have joint : Apart (above (parent :: grand :: path)) ↔
        Apart (above (grand :: path)) ∧ (parent.color = .red → grand.color = .black) := by
      rw [above, above, List.append_assoc, List.singleton_append, apart_split]
      refine and_congr_right' ?_
      cases parent.color <;> cases grand.color <;> simp [apart_cons, apart_nil]
    rw [upper, joint, TakesRed]
    exact and_right_comm

/-- What a path asks of the subtree in its position, said over the ways down that do not pass it. -/
theorem balanced_iff {path : Path α} {below height : Nat} :
    Balanced path below height ↔ (∀ way ∈ beside path, way.count .black = height ∧ Apart way) ∧
      (above path).count .black + below = height ∧ Apart (above path) ∧ (above path).head? ≠ some .red := by
  induction path generalizing below with
  | nil => simp [Balanced, beside, above, apart_nil]
  | cons parent path ih =>
    have counted : (above (parent :: path)).count .black = (above path).count .black + parent.color.weight := by
      rw [above, List.count_append]
      cases parent.color <;> rfl
    have leaving : ∀ way : List Color, (above path ++ parent.color :: way).count .black =
        (above path).count .black + parent.color.weight + way.count .black := by
      intro way
      rw [List.count_append, Nat.add_assoc]
      cases parent.color <;> simp [Color.weight, Nat.add_comm]
    rw [Balanced, ih, apart_above, beside, List.forall_mem_append, List.forall_mem_map, counted]
    constructor
    · rintro ⟨onOther, red, aside, total, upper⟩
      obtain ⟨apart, black⟩ := apart_above.mpr ⟨upper, fun isRed => (red isRed).2⟩
      have beyond := Shape.sound_below.mp ⟨onOther, fun isRed => (red isRed).1⟩
      refine ⟨⟨aside, fun way member => ?_⟩, by omega, upper, fun isRed => (red isRed).2⟩
      obtain ⟨counts, lower⟩ := beyond way member
      rw [leaving]
      exact ⟨by omega, apart_split.mpr ⟨apart, lower⟩⟩
    · rintro ⟨⟨aside, beyond⟩, total, upper, takes⟩
      have lower : ∀ way ∈ parent.other.descents, way.count .black = below ∧ Apart (parent.color :: way) := by
        intro way member
        obtain ⟨counts, apart⟩ := beyond way member
        rw [leaving] at counts
        exact ⟨by omega, (apart_split.mp apart).2⟩
      obtain ⟨onOther, black⟩ := Shape.sound_below.mpr lower
      exact ⟨onOther, fun isRed => ⟨black isRed, takes isRed⟩, aside, by omega, upper⟩

theorem isRed_plug {path : Path α} (inside : Shape α) (below : path ≠ []) :
    (path.plug inside).isRed = false ↔ (above path).head? ≠ some .red := by
  induction path generalizing inside with
  | nil => exact absurd rfl below
  | cons parent path ih =>
    cases path with
    | nil =>
      have colored : (parent.fill inside).isRed = true ↔ parent.color = .red := Shape.isRed_branch
      simpa [plug, above, Crumb.fill] using not_congr colored
    | cons grand path =>
      have upper : (above (parent :: grand :: path)).head? = (above (grand :: path)).head? :=
        List.head?_append_of_ne_nil _ (by simp [above])
      rw [plug, upper]
      exact ih (parent.fill inside) (List.cons_ne_nil _ _)

/-- The laws hold of a whole shape except at one position: all ways down pass `height` black nodes once `missing`
more are counted on those through the position, no two red nodes follow each other unless they stand right above
and below it, and the root is black unless the position is there. -/
structure Poised (path : Path α) (inside : Shape α) (missing height : Nat) : Prop where
  aside : ∀ way ∈ path.beside, way.count .black = height
  through : ∀ way ∈ inside.descents, (path.above ++ way).count .black + missing = height
  apartAside : ∀ way ∈ path.beside, Apart way
  apartAbove : Apart path.above
  apartBelow : ∀ way ∈ inside.descents, Apart way
  root : path ≠ [] → (path.plug inside).isRed = false

/-- The subtree keeps the laws on its own, and the path would keep them around one that is higher by what is
missing. -/
theorem poised_iff {path : Path α} {inside : Shape α} {missing height : Nat} :
    path.Poised inside missing height ↔ ∃ below, inside.Sound below ∧ path.Balanced (below + missing) height := by
  simp only [Shape.sound_iff, balanced_iff]
  constructor
  · intro poised
    obtain ⟨some, member⟩ := List.exists_mem_of_ne_nil _ inside.descents_ne_nil
    have total := poised.through some member
    rw [List.count_append] at total
    refine ⟨some.count .black, fun way there => ⟨?_, poised.apartBelow way there⟩,
      fun way there => ⟨poised.aside way there, poised.apartAside way there⟩, by omega, poised.apartAbove, ?_⟩
    · have same := poised.through way there
      rw [List.count_append] at same
      omega
    · cases path with
      | nil => simp [above]
      | cons parent path => exact (isRed_plug inside (List.cons_ne_nil _ _)).mp (poised.root (List.cons_ne_nil _ _))
  · rintro ⟨below, onInside, aside, total, upper, black⟩
    refine ⟨fun way there => (aside way there).1, fun way there => ?_, fun way there => (aside way there).2, upper,
      fun way there => (onInside way there).2, fun nonempty => (isRed_plug inside nonempty).mpr black⟩
    rw [List.count_append, (onInside way there).1]
    omega

end Path

namespace Shape

theorem redBlack_of_balanced {shape : Shape α} {height : Nat} (balanced : shape.Balanced height) :
    shape.RedBlack ∧ ∀ way ∈ shape.descents, way.count .black = height :=
  ⟨redBlack_iff.mpr ⟨height, balanced⟩, levels_iff_descents.mp balanced.2.2⟩

/-! ### A black node too few -/

/-- Whatever the tree and the position in it: if all ways down would pass the same number of black nodes once one
more is counted on those through the position, if no red node has a red child but for a red subtree in the position
under a red parent, and if the root is black or the subtree is the whole tree, then paying the deficit never lacks a
sibling. The nodes stay in their order, and what results is a red-black tree whose ways down pass that number of
black nodes, or one less. -/
theorem repairDeficit_restores_laws {path : Path α} {deficient : Shape α} {height : Nat}
    (poised : path.Poised deficient 1 height) :
    ∃ shape lowered, repairDeficit path deficient = .ok shape ∧
      shape.toList = (path.plug deficient).toList ∧ shape.RedBlack ∧
      (lowered = height ∨ lowered + 1 = height) ∧ ∀ way ∈ shape.descents, way.count .black = lowered := by
  obtain ⟨below, onDeficient, onPath⟩ := Path.poised_iff.mp poised
  obtain ⟨shape, lowered, done, near, balanced⟩ := balanced_repairDeficit onPath onDeficient.blacken
  obtain ⟨redBlack, counts⟩ := redBlack_of_balanced balanced
  refine ⟨shape, lowered, done, ?_, redBlack, near, counts⟩
  rw [toList_repairDeficit done, Path.toList_plug]

/-- The sibling is red, and the one that comes down after its rotation lends its near child. -/
theorem repairDeficit_restores_laws_nephew :
    let path : Path Nat := [⟨.black, 2, .left, .node .red (.node .black (.node .red .nil 3 .nil) 4 .nil) 5
      (.node .black .nil 6 .nil)⟩]
    path.Poised .nil 1 2 ∧ ∃ shape lowered, repairDeficit path .nil = .ok shape ∧
      shape.toList = [2, 3, 4, 5, 6] ∧ shape.RedBlack ∧ (lowered = 2 ∨ lowered + 1 = 2) ∧
      ∀ way ∈ shape.descents, way.count .black = lowered := by
  intro path
  have poised : path.Poised .nil 1 2 :=
    ⟨by decide, by decide, by decide, by decide, by decide, fun _ => rfl⟩
  exact ⟨poised, repairDeficit_restores_laws poised⟩

/-! ### A red node too many -/

variable {path : Path α} {parent grand : Crumb α} {left right : Shape α} {label : α} {below height : Nat}

/-- A turn that goes on leaves the rest of the repair to the next one. -/
theorem repairRed_raised (red : parent.color = .red) (uncleRed : grand.other.isRed = true) :
    repairRed (parent :: grand :: path) left label right =
      repairRed path (raised path parent grand left label right).left grand.label
        (raised path parent grand left label right).right := by
  cases side : grand.side <;> simp [repairRed, raised, red, uncleRed, side, Side.near, Side.far]

theorem toList_raised (path : Path α) (parent grand : Crumb α) (left right : Shape α) (label : α) :
    (raised path parent grand left label right).whole.toList =
      (Path.plug (parent :: grand :: path) (.node .red left label right)).toList := by
  simp only [raised, Spot.whole, Spot.inside, Path.toList_plug, Path.before, Path.after, Crumb.before, Crumb.after]
  cases grand.side <;>
    simp [Side.near, Side.far, toList, toList_blacken, Crumb.toList_fill, Crumb.paint, Crumb.before, Crumb.after]

theorem balanced_raised (red : parent.color = .red) (uncleRed : grand.other.isRed = true)
    (onPath : Path.Balanced (parent :: grand :: path) below height) (onLeft : left.Balanced below)
    (onRight : right.Balanced below) :
    path.Balanced (below + 1) height ∧ (raised path parent grand left label right).left.Balanced (below + 1) ∧
      (raised path parent grand left label right).right.Balanced (below + 1) := by
  obtain ⟨onOther, onUncle, above⟩ := red_parent onPath red
  have onUncle : grand.other.blacken.Balanced (below + 1) := by simpa [uncleRed] using onUncle.blacken
  exact ⟨above, (both_sides grand.side (P := (·.Balanced (below + 1)))).mpr
    ⟨painted_parent onOther onLeft onRight, onUncle⟩⟩

/-- What is so at the beginning of each turn of a repair: a red node stands where a repair may be given one, in the
same tree but for colours, from where the repair goes to the same end; and a red parent has a parent. -/
structure RedTurn (path : Path α) (left : Shape α) (label : α) (right : Shape α) (height : Nat) (turn : Spot α) :
    Prop where
  red : turn.color = .red
  poised : turn.path.Poised turn.inside 0 height
  toList : turn.whole.toList = (path.plug (.node .red left label right)).toList
  repaired : repairRed turn.path turn.left turn.label turn.right = repairRed path left label right
  grandparent : ∀ parent rest, turn.path = parent :: rest → parent.color = .red → rest ≠ []

/-- The repair begins with such a turn. -/
theorem redTurn_first (onPath : path.Balanced below height) (onLeft : left.Balanced below)
    (onRight : right.Balanced below) (label : α) :
    RedTurn path left label right height ⟨path, .red, left, label, right⟩ := by
  refine ⟨rfl, Path.poised_iff.mpr ⟨below, sound_red .left onLeft onRight, onPath⟩, rfl, rfl, ?_⟩
  rintro parent rest rfl red rfl
  exact (onPath.2.1 red).2

/-- Two levels of the path go with every turn but the last. -/
theorem length_redTurns (path : Path α) (left : Shape α) (label : α) (right : Shape α) :
    2 * (redTurns path left label right).length ≤ path.length + 2 := by
  fun_induction redTurns path left label right with
  | case1 => exact Nat.le_refl _
  | case2 => exact Nat.le_succ _
  | case3 parent grand path left label right ih =>
    rw [List.length_cons, List.length_cons, List.length_cons]
    split
    · omega
    · simp

/-- And each turn is such a one. -/
theorem redTurn_of_mem {turn : Spot α} (onPath : path.Balanced below height) (onLeft : left.Balanced below)
    (onRight : right.Balanced below) (member : turn ∈ redTurns path left label right) :
    RedTurn path left label right height turn := by
  fun_induction redTurns path left label right generalizing below with
  | case1 left label right =>
    obtain rfl := List.mem_singleton.mp member
    exact redTurn_first onPath onLeft onRight label
  | case2 parent left label right =>
    obtain rfl := List.mem_singleton.mp member
    exact redTurn_first onPath onLeft onRight label
  | case3 parent grand path left label right ih =>
    rcases List.mem_cons.mp member with rfl | later
    · exact redTurn_first onPath onLeft onRight label
    · split at later
      · rename_i goes
        obtain ⟨red, uncleRed⟩ := goes
        obtain ⟨above, onNear, onFar⟩ := balanced_raised red uncleRed onPath onLeft onRight
        have turned := ih above onNear onFar later
        exact ⟨turned.red, turned.poised, turned.toList.trans (toList_raised path parent grand left right label),
          turned.repaired.trans (repairRed_raised red uncleRed).symm, turned.grandparent⟩
      · cases later

/-- Whatever the tree and the red node in it: if all ways down pass the same number of black nodes, if no red node
has a red child but for this one under a red parent, and if the root is black or is this node, then the repair keeps
the nodes in their order and gives a red-black tree. It is one higher exactly when the red colour goes up to the
root, and every turn on the way there finds what the first one found; none of them meets a red parent that has no
parent itself. -/
theorem repairRed_restores_laws (poised : path.Poised (.node .red left label right) 0 height) :
    (repairRed path left label right).toList = (path.plug (.node .red left label right)).toList ∧
      (repairRed path left label right).RedBlack ∧
      (∀ way ∈ (repairRed path left label right).descents, way.count .black =
        if ∃ turn ∈ redTurns path left label right, turn.path = [] then height + 1 else height) ∧
      2 * (redTurns path left label right).length ≤ path.length + 2 ∧
      ∀ turn ∈ redTurns path left label right, RedTurn path left label right height turn := by
  obtain ⟨below, onNode, onPath⟩ := Path.poised_iff.mp poised
  obtain ⟨black, inner, total, onLeft, onRight⟩ := (sound_branch .left).mp onNode
  obtain rfl : below = inner := total
  have onLeft : left.Balanced below := ⟨(black rfl).1, onLeft⟩
  have onRight : right.Balanced below := ⟨(black rfl).2, onRight⟩
  have balanced := balanced_repairRed onPath onLeft onRight label
  have reaches : reddensRoot path left label right = true ↔
      ∃ turn ∈ redTurns path left label right, turn.path = [] := by
    simp [reddensRoot]
  obtain ⟨redBlack, counts⟩ := redBlack_of_balanced balanced
  simp only [reaches] at counts
  refine ⟨?_, redBlack, counts, length_redTurns path left label right, fun turn member => ?_⟩
  · rw [toList_repairRed, Path.toList_plug, toList]
  · exact redTurn_of_mem onPath onLeft onRight member

/-- The first turn sends the red node two levels up, where the second one finds it on the inner side. -/
theorem repairRed_restores_laws_inner :
    let path : Path Nat := [⟨.red, 6, .left, .nil⟩, ⟨.black, 4, .right, .node .red .nil 3 .nil⟩,
      ⟨.red, 2, .right, .node .black .nil 1 .nil⟩, ⟨.black, 7, .left, .node .black .nil 8 .nil⟩]
    path.Poised (.node .red .nil 5 .nil) 0 2 ∧
      (repairRed path .nil 5 .nil).toList = [1, 2, 3, 4, 5, 6, 7, 8] ∧ (repairRed path .nil 5 .nil).RedBlack ∧
      (redTurns path .nil 5 .nil).map (·.label) = [5, 4] ∧
      ∀ turn ∈ redTurns path .nil 5 .nil, RedTurn path .nil 5 .nil 2 turn := by
  intro path
  have poised : path.Poised (.node .red .nil 5 .nil) 0 2 :=
    ⟨by decide, by decide, by decide, by decide, by decide, fun _ => rfl⟩
  obtain ⟨same, redBlack, _, _, turns⟩ := repairRed_restores_laws poised
  exact ⟨poised, same, redBlack, rfl, turns⟩

end Shape

end KeyedStore
