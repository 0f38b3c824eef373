import KeyedStore.Proofs.Shape.Balance
/-!
The repairs restore the colour laws. A red node hung below a balanced path, or a balanced path that is
one black node short at its end, is all that a repair may be given; the height that results is the old
one or its neighbour. In between, every rotation is one black or red branch over balanced subtrees.
-/
namespace KeyedStore.Shape

variable {α : Type}

theorem balanced_black (side : Side) {near far : Shape α} {label : α} {below : Nat}
    (onNear : near.Sound below) (onFar : far.Sound below) :
    (branch side .black near label far).Balanced (below + 1) := by
  refine ⟨?_, (sound_branch _).mpr ⟨nofun, below, rfl, onNear, onFar⟩⟩
  cases side <;> rfl

theorem sound_red (side : Side) {near far : Shape α} {label : α} {below : Nat}
    (onNear : near.Balanced below) (onFar : far.Balanced below) :
    (branch side .red near label far).Sound below :=
  (sound_branch _).mpr ⟨fun _ => ⟨onNear.1, onFar.1⟩, below, rfl, onNear.2, onFar.2⟩

/-- A subtree with a black root fits into every position of its height. -/
theorem plug_black {path : Path α} {inside : Shape α} {below height : Nat}
    (onPath : path.Balanced below height) (onInside : inside.Balanced below) :
    (path.plug inside).Balanced height :=
  Path.balanced_plug.mpr
    ⟨below, onInside.2, fun red => absurd red (by simp [onInside.1]), onPath⟩

/-- A red node fits under a black parent. -/
theorem plug_red {path : Path α} {left right : Shape α} {label : α} {below height : Nat}
    (onPath : path.Balanced below height) (takes : path.TakesRed) (onLeft : left.Balanced below)
    (onRight : right.Balanced below) : (path.plug (.node .red left label right)).Balanced height :=
  Path.balanced_plug.mpr ⟨below, sound_red .left onLeft onRight, fun _ => takes, onPath⟩

/-- The root of a balanced shape is black already. -/
theorem Balanced.blacken {shape : Shape α} {height : Nat} (balanced : shape.Balanced height) :
    shape.blacken.Balanced height :=
  (blacken_of_black balanced.1).symm ▸ balanced

/-! ### A red node too many -/

/-- What stands around a red parent: a sibling that is black, and an uncle of the same height. -/
theorem red_parent {parent grand : Crumb α} {path : Path α} {below height : Nat}
    (onPath : Path.Balanced (parent :: grand :: path) below height) (red : parent.color = .red) :
    parent.other.Balanced below ∧ grand.other.Sound below ∧ path.Balanced (below + 1) height := by
  obtain ⟨onOther, both, onUncle, _, above⟩ := onPath
  obtain ⟨otherBlack, grandBlack⟩ := both red
  rw [red] at onUncle above
  rw [show grand.color = .black from grandBlack] at above
  exact ⟨⟨otherBlack, onOther⟩, onUncle, above⟩

/-- The parent of a red node, turned black. -/
theorem painted_parent {parent : Crumb α} {left right : Shape α} {label : α} {below : Nat}
    (onOther : parent.other.Balanced below) (onLeft : left.Balanced below)
    (onRight : right.Balanced below) :
    ((parent.paint .black).fill (.node .red left label right)).Balanced (below + 1) :=
  balanced_black _ (sound_red .left onLeft onRight) onOther.2

/-- The red node that a turn hands on: the grandparent, over the parent and the uncle, both turned black. -/
def raised (path : Path α) (parent grand : Crumb α) (left : Shape α) (label : α) (right : Shape α) : Spot α where
  path := path
  color := .red
  left := grand.side.near ((parent.paint .black).fill (.node .red left label right)) grand.other.blacken
  label := grand.label
  right := grand.side.far ((parent.paint .black).fill (.node .red left label right)) grand.other.blacken

/-- Where the red node stands at the beginning of each turn of a repair. A red parent and a red uncle send it two
levels up; any other surroundings end the repair. -/
def redTurns : Path α → Shape α → α → Shape α → List (Spot α)
  | [], left, label, right => [⟨[], .red, left, label, right⟩]
  | [parent], left, label, right => [⟨[parent], .red, left, label, right⟩]
  | parent :: grand :: path, left, label, right =>
    ⟨parent :: grand :: path, .red, left, label, right⟩ ::
      if parent.color = .red ∧ grand.other.isRed then
        redTurns path (raised path parent grand left label right).left grand.label
          (raised path parent grand left label right).right
      else []

/-- The red colour goes up to the root. -/
def reddensRoot (path : Path α) (left : Shape α) (label : α) (right : Shape α) : Bool :=
  (redTurns path left label right).any (·.path.isEmpty)

theorem reddensRoot_raised {parent grand : Crumb α} {path : Path α} {left right : Shape α} {label : α}
    (red : parent.color = .red) (uncleRed : grand.other.isRed = true) :
    reddensRoot (parent :: grand :: path) left label right =
      reddensRoot path (raised path parent grand left label right).left grand.label
        (raised path parent grand left label right).right := by
  rw [reddensRoot, redTurns, if_pos ⟨red, uncleRed⟩]
  rfl

theorem reddensRoot_settled {parent grand : Crumb α} {path : Path α} {left right : Shape α} {label : α}
    (settled : ¬(parent.color = .red ∧ grand.other.isRed = true)) :
    reddensRoot (parent :: grand :: path) left label right = false := by
  rw [reddensRoot, redTurns, if_neg settled]
  rfl

/-- Hanging a red node with balanced children below a balanced path gives a balanced shape. It is one
higher when the red colour goes up to the root, and as high as before otherwise. -/
theorem balanced_repairRed {path : Path α} {left right : Shape α} {below height : Nat}
    (onPath : path.Balanced below height) (onLeft : left.Balanced below)
    (onRight : right.Balanced below) (label : α) :
    (repairRed path left label right).Balanced
      (if reddensRoot path left label right then height + 1 else height) := by
  fun_induction repairRed path left label right generalizing below with
  | case1 left label right =>
    rw [Path.Balanced] at onPath
    subst onPath
    exact balanced_black .left onLeft.2 onRight.2
  | case2 parent left label right =>
    have black : parent.color = .black := by
      cases color : parent.color with
      | black => rfl
      | red => exact ((onPath.2.1 color).2).elim
    exact (plug_red onPath black onLeft onRight).blacken
  | case3 parent grand path left label right black =>
    rw [reddensRoot_settled (by simp [black])]
    exact (plug_red onPath black onLeft onRight).blacken
  | case4 parent grand path left label right red uncleRed uncle inside side =>
    rename_i ih
    obtain ⟨onOther, onUncle, above⟩ := red_parent onPath red
    rw [reddensRoot_raised red uncleRed, raised, side]
    exact ih above (painted_parent onOther onLeft onRight) (by simpa [uncleRed] using onUncle.blacken)
  | case5 parent grand path left label right red uncleRed uncle inside side =>
    rename_i ih
    obtain ⟨onOther, onUncle, above⟩ := red_parent onPath red
    rw [reddensRoot_raised red uncleRed, raised, side]
    exact ih above (by simpa [uncleRed] using onUncle.blacken)
      (painted_parent onOther onLeft onRight)
  | case6 parent grand path left label right red uncleBlack outer =>
    obtain ⟨onOther, onUncle, above⟩ := red_parent onPath red
    have onUncle : grand.other.Balanced below := ⟨Bool.eq_false_iff.mpr uncleBlack, onUncle⟩
    rw [reddensRoot_settled (by simp [uncleBlack])]
    refine (plug_black above ?_).blacken
    exact balanced_black _ (sound_red .left onLeft onRight) (sound_red _ onOther onUncle)
  | case7 parent grand path left label right red uncleBlack inner =>
    obtain ⟨onOther, onUncle, above⟩ := red_parent onPath red
    have onUncle : grand.other.Balanced below := ⟨Bool.eq_false_iff.mpr uncleBlack, onUncle⟩
    have onNear : (grand.side.near left right).Balanced below := by cases grand.side <;> assumption
    have onFar : (grand.side.far left right).Balanced below := by cases grand.side <;> assumption
    rw [reddensRoot_settled (by simp [uncleBlack])]
    refine (plug_black above ?_).blacken
    exact balanced_black _ (sound_red _ onOther onNear) (sound_red _ onFar onUncle)

/-! ### A black node too few -/

/-- A subtree that is one black node short of its position. A red root pays by turning black, so its
children may be red. -/
def Deficient (shape : Shape α) (below : Nat) : Prop :=
  shape.blacken.Balanced (below + if shape.isRed then 1 else 0)

/-- A sibling with a red child lends it: the result has the height that the position wants, and is red
only where the parent was. -/
theorem sound_lend {side : Side} {color : Color} {deficient near far settled : Shape α}
    {label sibling : α} {below : Nat} (onDeficient : deficient.Balanced below)
    (onNear : near.Sound below) (onFar : far.Sound below)
    (lent : lend side color deficient label near sibling far = some settled) :
    settled.Sound (below + 1 + color.weight) ∧ (settled.isRed = true → color = .red) := by
  have whole : ∀ {inner outer : Shape α} {middle : α}, inner.Balanced (below + 1) →
      outer.Balanced (below + 1) →
      (branch side color inner middle outer).Sound (below + 1 + color.weight) :=
    fun onInner onOuter =>
      (sound_branch _).mpr ⟨fun _ => ⟨onInner.1, onOuter.1⟩, below + 1, rfl, onInner.2, onOuter.2⟩
  unfold lend at lent
  split at lent
  · rename_i farRed
    cases lent
    refine ⟨whole (balanced_black _ onDeficient.2 onNear) ?_, isRed_branch.mp⟩
    simpa [farRed] using onFar.blacken
  · split at lent
    · rename_i left middle right
      cases lent
      obtain ⟨_, inner, rfl, onLeft, onRight⟩ := (sound_branch .left).mp onNear
      refine ⟨whole (balanced_black _ onDeficient.2 ?_) (balanced_black _ ?_ onFar), isRed_branch.mp⟩
      · cases side <;> assumption
      · cases side <;> assumption
    · cases lent

/-- A sibling that cannot lend has no red child. -/
theorem black_of_lend_none {side : Side} {color : Color} {deficient near far : Shape α}
    {label sibling : α} (none : lend side color deficient label near sibling far = none) :
    near.isRed = false ∧ far.isRed = false := by
  unfold lend at none
  split at none
  · cases none
  · rename_i farBlack
    refine ⟨?_, Bool.eq_false_iff.mpr farBlack⟩
    match near with
    | .nil => rfl
    | .node .black _ _ _ => rfl
    | .node .red _ _ _ => cases none

theorem both_sides (side : Side) {P : Shape α → Prop} {left right : Shape α} :
    P (side.near left right) ∧ P (side.far left right) ↔ P left ∧ P right := by
  cases side
  · exact Iff.rfl
  · exact and_comm

theorem blacken_branch {side : Side} {color : Color} {near far : Shape α} {label : α} :
    (branch side color near label far).blacken = branch side .black near label far := by
  cases side <;> rfl

theorem Deficient.balanced {deficient : Shape α} {below : Nat} (onDeficient : deficient.Deficient below)
    (black : ¬deficient.isRed = true) : deficient.Balanced below := by
  simpa [Deficient, black, blacken_of_black (Bool.eq_false_iff.mpr black)] using onDeficient

/-- The children of a black root. -/
theorem sound_children {color : Color} {left right : Shape α} {label : α} {below : Nat}
    (balanced : (node color left label right).Balanced (below + 1)) :
    left.Sound below ∧ right.Sound below := by
  obtain ⟨black, sound⟩ := balanced
  obtain ⟨_, inner, total, onLeft, onRight⟩ := (sound_branch .left).mp sound
  cases color with
  | red => cases black
  | black =>
    obtain rfl : below = inner := Nat.succ.inj total
    exact ⟨onLeft, onRight⟩

/-- A red sibling has black children that are as high as it is, so it can be rotated over the parent,
which is black. -/
theorem red_sibling {parent : Crumb α} {path : Path α} {left right : Shape α} {sibling : α}
    {below height : Nat} (onPath : Path.Balanced (parent :: path) (below + 1) height)
    (red : parent.other = .node .red left sibling right) :
    (parent.side.near left right).Balanced (below + 1) ∧
      Path.Balanced (⟨.black, sibling, parent.side, parent.side.far left right⟩ :: path)
        (below + 1) height := by
  obtain ⟨onOther, both, above⟩ := onPath
  obtain ⟨black, inner, total, onLeft, onRight⟩ := (sound_branch .left).mp (red ▸ onOther)
  obtain rfl : below + 1 = inner := total
  obtain ⟨onNear, onFar⟩ := (both_sides parent.side (P := (·.Balanced (below + 1)))).mpr
    ⟨⟨(black rfl).1, onLeft⟩, (black rfl).2, onRight⟩
  cases color : parent.color with
  | red => exact absurd (both color).1 (by simp [red, isRed])
  | black => exact ⟨onNear, onFar.2, (fun painted => by cases painted), by rwa [color] at above⟩

/-- A sibling that cannot lend turns red instead. Under a black parent the deficit is paid with that. -/
theorem balanced_painted {side : Side} {color : Color} {deficient left right : Shape α}
    {label sibling : α} {below : Nat} (onDeficient : deficient.Balanced below)
    (onLeft : left.Sound below) (onRight : right.Sound below)
    (none : lend side color deficient label (side.near left right) sibling (side.far left right) = none) :
    (branch side .black deficient label (.node .red left sibling right)).Balanced (below + 1) := by
  obtain ⟨leftBlack, rightBlack⟩ := (both_sides _ (P := (·.isRed = false))).mp (black_of_lend_none none)
  have onSibling : (node .red left sibling right).Sound below :=
    sound_red .left ⟨leftBlack, onLeft⟩ ⟨rightBlack, onRight⟩
  exact balanced_black _ onDeficient.2 onSibling

/-- Putting a subtree that is one black node short into its position always succeeds and gives a
balanced shape. It is one lower when the deficit went up to the root. -/
theorem balanced_repairDeficit {path : Path α} {deficient : Shape α} {below height : Nat}
    (onPath : path.Balanced (below + 1) height) (onDeficient : deficient.Deficient below) :
    ∃ shape lowered, repairDeficit path deficient = .ok shape ∧
      (lowered = height ∨ lowered + 1 = height) ∧ shape.Balanced lowered := by
  fun_induction repairDeficit path deficient generalizing below with
  | case1 deficient =>
    rw [Path.Balanced] at onPath
    refine ⟨_, _, rfl, ?_, onDeficient⟩
    split <;> omega
  | case2 parent path deficient red =>
    refine ⟨_, height, rfl, .inl rfl, plug_black onPath ?_⟩
    simpa [Deficient, red] using onDeficient
  | case3 parent path deficient black missing =>
    have levels := onPath.1.2
    rw [missing, Levels] at levels
    omega
  | case4 parent path deficient black left sibling right blackSibling settled lent =>
    obtain ⟨onOther, both, above⟩ := onPath
    obtain ⟨_, inner, total, onLeft, onRight⟩ :=
      (sound_branch .left).mp (blackSibling ▸ onOther)
    obtain rfl : below = inner := Nat.succ.inj total
    obtain ⟨onNear, onFar⟩ := (both_sides parent.side (P := (·.Sound below))).mpr ⟨onLeft, onRight⟩
    obtain ⟨onSettled, parentRed⟩ := sound_lend (onDeficient.balanced black) onNear onFar lent
    exact ⟨_, height, rfl, .inl rfl, (Path.balanced_plug.mpr
      ⟨_, onSettled, fun red => (both (parentRed red)).2, above⟩).blacken⟩
  | case5 parent path deficient black left sibling right blackSibling none ih =>
    obtain ⟨onOther, both, above⟩ := onPath
    obtain ⟨_, inner, total, onLeft, onRight⟩ :=
      (sound_branch .left).mp (blackSibling ▸ onOther)
    obtain rfl : below = inner := Nat.succ.inj total
    have paid := balanced_painted (onDeficient.balanced black) onLeft onRight none
    -- A red parent turns black at the next step, a black one passes the deficit on.
    refine @ih (below + parent.color.weight) (by rwa [Nat.add_right_comm]) ?_
    rw [Deficient, blacken_branch]
    cases color : parent.color <;> simpa [isRed_branch, Color.weight] using paid
  | case6 parent path deficient black left sibling right redSibling missing =>
    obtain ⟨onNear, _⟩ := red_sibling onPath redSibling
    have levels := onNear.2.2
    rw [missing, Levels] at levels
    omega
  | case7 parent path deficient black left sibling right redSibling upper color nearLeft nephew
      nearRight found settled =>
    rename_i lent
    obtain ⟨onNear, onUpper⟩ := red_sibling onPath redSibling
    obtain ⟨onLeft, onRight⟩ := sound_children (found ▸ onNear)
    obtain ⟨onNear, onFar⟩ := (both_sides parent.side (P := (·.Sound below))).mpr ⟨onLeft, onRight⟩
    obtain ⟨onSettled, _⟩ := sound_lend (onDeficient.balanced black) onNear onFar lent
    have whole : (upper.plug settled).Balanced height :=
      Path.balanced_plug.mpr ⟨_, onSettled, fun _ => rfl, onUpper⟩
    exact ⟨_, height, rfl, .inl rfl, whole.blacken⟩
  | case8 parent path deficient black left sibling right redSibling upper color nearLeft nephew
      nearRight found =>
    rename_i none
    obtain ⟨onNear, onUpper⟩ := red_sibling onPath redSibling
    obtain ⟨onLeft, onRight⟩ := sound_children (found ▸ onNear)
    have paid := balanced_painted (onDeficient.balanced black) onLeft onRight none
    exact ⟨_, height, rfl, .inl rfl, plug_black onUpper paid⟩

/-! ### Taking a node out -/

private theorem balanced_closeGap {path : Path α} {removed : Color} {inside : Shape α}
    {below height : Nat} (onPath : path.Balanced (below + removed.weight) height)
    (onInside : inside.Sound below) (apart : removed = .red → inside.isRed = false) :
    ∃ shape lowered, closeGap path removed inside = .ok shape ∧
      (lowered = height ∨ lowered + 1 = height) ∧ shape.Balanced lowered := by
  cases removed with
  | red => exact ⟨_, height, rfl, .inl rfl, plug_black onPath ⟨apart rfl, onInside⟩⟩
  | black => exact balanced_repairDeficit onPath onInside.blacken

private theorem balanced_relabel {path : Path α} {color : Color} {left right : Shape α} {label : α}
    {height : Nat} (whole : (path.plug (.node color left label right)).Balanced height) (other : α) :
    (path.plug (.node color left other right)).Balanced height := by
  obtain ⟨below, sound, red, onPath⟩ := Path.balanced_plug.mp whole
  refine Path.balanced_plug.mpr ⟨below, sound, ?_, onPath⟩
  cases color <;> exact red

theorem left_of_firstSpot {path : Path α} {shape : Shape α} {spot : Spot α}
    (found : Path.firstSpot path shape = some spot) : spot.left = .nil := by
  induction shape generalizing path spot with
  | nil => cases found
  | node color left label right ihLeft _ =>
    simp only [Path.firstSpot, Option.some.injEq] at found
    cases deeper : Path.firstSpot (⟨color, label, .left, right⟩ :: path) left with
    | none =>
      rw [deeper] at found
      subst found
      cases left with
      | nil => rfl
      | node => simp [Path.firstSpot] at deeper
    | some inner =>
      rw [deeper] at found
      subst found
      exact ihLeft deeper

/-- The leftmost node of a shape, with what there is on its right, below its ancestors. -/
theorem plug_firstSpot {shape : Shape α} {spot : Spot α} (found : Path.firstSpot [] shape = some spot) :
    spot.path.plug (.node spot.color .nil spot.label spot.right) = shape := by
  rw [← left_of_firstSpot found]
  exact Path.whole_firstSpot found

/-- The successor takes over the place, which leaves its own position, further down on the right, as the
one to close. -/
private theorem balanced_succession {path : Path α} {color : Color} {left right : Shape α} {label : α}
    {height : Nat} {spot : Spot α} (whole : (path.plug (.node color left label right)).Balanced height)
    (found : Path.firstSpot [] right = some spot) :
    (Path.plug (spot.path ++ ⟨color, spot.label, .right, left⟩ :: path)
      (.node spot.color .nil spot.label spot.right)).Balanced height := by
  rw [Path.plug_append, plug_firstSpot found]
  exact balanced_relabel whole spot.label

/-- A node with at most one child leaves that child in its own position. -/
private theorem balanced_splice {path : Path α} {color : Color} {left right inside : Shape α} {label : α}
    {height : Nat} (whole : (path.plug (.node color left label right)).Balanced height)
    (child : inside = left ∨ inside = right) :
    ∃ shape lowered, closeGap path color inside = .ok shape ∧
      (lowered = height ∨ lowered + 1 = height) ∧ shape.Balanced lowered := by
  obtain ⟨_, sound, _, onPath⟩ := Path.balanced_plug.mp whole
  obtain ⟨red, below, rfl, onLeft, onRight⟩ := (sound_branch .left).mp sound
  rcases child with rfl | rfl
  · exact balanced_closeGap onPath onLeft fun isRed => (red isRed).1
  · exact balanced_closeGap onPath onRight fun isRed => (red isRed).2

/-- Taking the node out of a position of a balanced shape always succeeds and gives a balanced shape, as
high as before or one lower. -/
theorem balanced_removeAt {path : Path α} {color : Color} {left right : Shape α} {label : α}
    {height : Nat} (whole : (path.plug (.node color left label right)).Balanced height) :
    ∃ shape lowered, removeAt path color left right = .ok shape ∧
      (lowered = height ∨ lowered + 1 = height) ∧ shape.Balanced lowered := by
  unfold removeAt
  split
  · exact balanced_splice whole (.inl rfl)
  · exact balanced_splice whole (.inr rfl)
  · rename_i found
    exact balanced_splice (balanced_succession whole found) (.inr rfl)

end KeyedStore.Shape
