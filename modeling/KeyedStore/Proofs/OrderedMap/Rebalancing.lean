import KeyedStore.Proofs.OrderedMap.Linking
/-!
The repairs of the colour laws in storage do to the links what the repairs of shapes do to the tree. Each step of a turn
is a colour or a rotation at one place below the path that is still to be climbed, so the tree is always known as that
path with what hangs below it; and the stack of the repair names the path.
-/
namespace KeyedStore

variable {K V : Type}

/-! ### Paths and stacks -/

namespace Path

@[simp] theorem trail_nil : trail ([] : Path (Tag K)) = [] := rfl

@[simp] theorem trail_cons (crumb : Crumb (Tag K)) (path : Path (Tag K)) :
    trail (crumb :: path) = (crumb.label.handle, crumb.side) :: path.trail := rfl

end Path

namespace Trail

theorem lastDepth_cons (step : Handle × Side) (trail : Trail) : lastDepth (step :: trail) = .ok trail.length := rfl

theorem slotOfLast_cons (step : Handle × Side) (trail : Trail) : slotOfLast (step :: trail) = .ok trail.head? := by
  cases trail with
  | nil => rfl
  | cons above rest =>
    have found : (step :: above :: rest).reverse[rest.length]? = some above := by
      simp
    simp only [slotOfLast, List.length_cons, stepAt, found]
    rfl

theorem setStep_append (front back : Trail) (old step : Handle × Side) :
    setStep (front ++ old :: back) back.length step = .ok (front ++ step :: back) := by
  have within : back.length < (front ++ old :: back).length := by
    rw [List.length_append, List.length_cons]
    omega
  rw [setStep, if_pos within]
  simp

end Trail

/-! ### Who lends -/

namespace Shape

variable {α : Type} {side : Side} {color : Color} {deficient near far settled : Shape α} {label sibling : α}

theorem red_of_lend (lends : lend side color deficient label near sibling far = some settled) :
    (near.isRed || far.isRed) = true := by
  unfold lend at lends
  cases red : far.isRed with
  | true => exact Bool.or_true _
  | false =>
    rw [red, if_neg Bool.false_ne_true] at lends
    split at lends
    · rfl
    · cases lends

theorem black_of_lend (keeps : lend side color deficient label near sibling far = none) :
    near.isRed = false ∧ far.isRed = false := by
  unfold lend at keeps
  cases red : far.isRed with
  | true =>
    rw [red, if_pos rfl] at keeps
    cases keeps
  | false =>
    rw [red, if_neg Bool.false_ne_true] at keeps
    split at keeps
    · cases keeps
    · rename_i black
      refine ⟨?_, rfl⟩
      cases near with
      | nil => rfl
      | node color left label right =>
        cases color with
        | red => exact absurd rfl (black _ _ _)
        | black => rfl

end Shape

namespace RootedMap.Forms

variable {rooted : RootedMap K V} {map : OrderedMap K V} {path : Path (Tag K)} {side within : Side}
  {upper lower color : Color} {near far left right shape between beyond outer uncle deficient settled : Shape (Tag K)}
  {tag top parent grand pivot sibling : Tag K} {straight : RootedMap K V} {limit : Nat} {rest : Trail} {first : Handle}

/-! ### Single steps -/

theorem isRed_node (forms : rooted.Forms map (path.plug (.branch side color near tag far))) :
    rooted.isRed (some tag.handle) = .ok (decide (color = .red)) := by
  obtain ⟨fork, fetched, stands⟩ := forms.stands
  simp only [RootedMap.isRed, fetched, stands.color, bind, Except.bind, pure, Except.pure]

theorem blackenRoot (forms : rooted.Forms map shape) :
    ∃ after, rooted.paintAny rooted.root .black = .ok after ∧ after.Forms map shape.blacken := by
  rw [forms.lays.spans.top]
  exact forms.whole.blacken

/-- A rotation towards the other side. -/
theorem rotate_other
    (forms : rooted.Forms map (path.plug (.branch side upper (.branch side lower outer pivot between) tag beyond))) :
    ∃ after, rooted.rotate path.trail.head? tag.handle side.other = .ok (pivot.handle, after) ∧
      after.Forms map (path.plug (.branch side lower outer pivot (.branch side upper between tag beyond))) := by
  have mirrored : rooted.Forms map
      (path.plug (.branch side.other upper beyond tag (.branch side.other lower between pivot outer))) := by
    rw [Shape.branch_other, Shape.branch_other]
    exact forms
  obtain ⟨after, done, turned⟩ := mirrored.rotate
  rw [Shape.branch_other, Shape.branch_other] at turned
  exact ⟨after, done, turned⟩

/-! ### Below a red parent -/

/-- What a turn reads: the colour of the parent, and the uncle with its colour. -/
theorem reads
    (forms : rooted.Forms map (path.plug (.branch side upper (.branch within lower near parent far) grand uncle))) :
    rooted.isRed (some parent.handle) = .ok (decide (lower = .red)) ∧
      (∃ fork, rooted.forks.fetch grand.handle = .ok fork ∧ fork.child side.other = uncle.top?) ∧
      rooted.isRed uncle.top? = .ok uncle.isRed := by
  obtain ⟨fork, fetched, stands⟩ := forms.stands
  refine ⟨?_, ⟨fork, fetched, stands.child_other⟩, ?_⟩
  · exact forms.below.isRed_node
  · exact forms.aside.isRed

/-- A red uncle turns black with the parent, and the grandparent red. -/
theorem recolor
    (forms : rooted.Forms map (path.plug (.branch side upper (.branch within lower near parent far) grand uncle))) :
    ∃ one two after, rooted.paint parent.handle .black = .ok one ∧ one.paintAny uncle.top? .black = .ok two ∧
      two.paint grand.handle .red = .ok after ∧
      after.Forms map (path.plug (.branch side .red (.branch within .black near parent far) grand uncle.blacken)) := by
  obtain ⟨one, first, forms⟩ := forms.below.paint .black
  obtain ⟨two, second, forms⟩ := forms.above.aside.blacken
  rw [← Path.plug_aside] at forms
  obtain ⟨after, third, forms⟩ := forms.paint .red
  exact ⟨one, two, after, first, second, third, forms⟩

/-- A node on the outer side is raised over the grandparent. -/
theorem raise
    (forms : rooted.Forms map (path.plug (.branch side upper (.branch side lower outer top between) grand beyond))) :
    ∃ one two after, rooted.rotate path.trail.head? grand.handle side.other = .ok (top.handle, one) ∧
      one.paint top.handle .black = .ok two ∧ two.paint grand.handle .red = .ok after ∧
      after.Forms map (path.plug (.branch side .black outer top (.branch side .red between grand beyond))) := by
  obtain ⟨one, first, forms⟩ := forms.rotate_other
  obtain ⟨two, second, forms⟩ := forms.paint .black
  obtain ⟨after, third, forms⟩ := forms.aside.paint .red
  rw [← Path.plug_aside] at forms
  exact ⟨one, two, after, first, second, third, forms⟩

theorem mendRed (forms : rooted.Forms map (path.plug (.node .red left tag right))) :
    ∃ after, rooted.mendRed path.trail = .ok after ∧ after.Forms map (Shape.repairRed path left tag right) := by
  fun_induction Shape.repairRed path left tag right generalizing rooted with
  | case1 left tag right => exact forms.blackenRoot
  | case2 parent left tag right =>
    obtain ⟨after, done, blackened⟩ := forms.blackenRoot
    have color := forms.above.isRed_node
    refine ⟨after, ?_, blackened⟩
    simp only [Path.trail_cons, Path.trail_nil, RootedMap.mendRed, color, done, bind, Except.bind, ite_self]
  | case3 parent grand path left tag right black =>
    obtain ⟨after, done, blackened⟩ := forms.blackenRoot
    have color := forms.above.isRed_node
    refine ⟨after, ?_, blackened⟩
    simp only [Path.trail_cons, RootedMap.mendRed, color, black, done, bind, Except.bind]
    rfl
  | case4 parent grand path left tag right red uncleRed uncle inside onSide
  | case5 parent grand path left tag right red uncleRed uncle inside onSide =>
    rename_i ih
    obtain ⟨ofParent, ⟨fork, fetched, child⟩, ofUncle⟩ := forms.above.above.reads
    obtain ⟨one, two, three, first, second, third, recolored⟩ := forms.above.above.recolor
    rw [onSide] at recolored
    obtain ⟨after, done, mended⟩ := ih recolored
    refine ⟨after, ?_, mended⟩
    simp only [Path.trail_cons, RootedMap.mendRed, ofParent, red, fetched, child, ofUncle, uncleRed, first, second,
      third, bind, Except.bind, decide_true, if_true]
    exact done
  | case6 parent grand path left tag right red uncleBlack same =>
    obtain ⟨ofParent, ⟨fork, fetched, child⟩, ofUncle⟩ := forms.above.above.reads
    have outer := forms.above.above
    rw [same] at outer
    obtain ⟨one, two, three, first, second, third, raised⟩ := outer.raise
    obtain ⟨after, fourth, blackened⟩ := raised.blackenRoot
    rw [Bool.not_eq_true] at uncleBlack
    refine ⟨after, ?_, blackened⟩
    simp only [Path.trail_cons, RootedMap.mendRed, ofParent, red, fetched, child, ofUncle, uncleBlack, same, first,
      second, third, fourth, bind, Except.bind, pure, Except.pure, decide_true, if_true, Bool.false_eq_true, if_false]
  | case7 parent grand path left tag right red uncleBlack differ =>
    obtain ⟨ofParent, ⟨fork, fetched, child⟩, ofUncle⟩ := forms.above.above.reads
    have opposite : parent.side = grand.side.other := by
      cases one : parent.side <;> cases two : grand.side <;> simp_all [Side.other]
    -- The node stands on the inner side of its parent, and is raised over it first.
    have inner : rooted.Forms map (Path.plug (grand :: path) (.branch grand.side parent.color parent.other parent.label
        (.branch grand.side .red (grand.side.near left right) tag (grand.side.far left right)))) := by
      rw [Shape.branch_near_far, ← Shape.branch_other, ← opposite]
      exact forms
    obtain ⟨zero, ahead, straight⟩ := inner.rotate
    obtain ⟨one, two, three, first, second, third, raised⟩ := straight.above.raise
    obtain ⟨after, fourth, blackened⟩ := raised.blackenRoot
    rw [Bool.not_eq_true] at uncleBlack
    rw [Path.trail_cons, List.head?_cons] at ahead
    refine ⟨after, ?_, red ▸ blackened⟩
    simp only [Path.trail_cons, RootedMap.mendRed, ofParent, red, fetched, child, ofUncle, uncleBlack, differ, ahead,
      first, second, third, fourth, bind, Except.bind, decide_true, if_true, Bool.false_eq_true, if_false]

/-! ### Where a black node is missing -/

theorem sibling_eq (forms : rooted.Forms map (path.plug (.branch side color near parent far)))
    (top : far.top? = some sibling.handle) : rooted.sibling parent.handle side = .ok sibling.handle := by
  obtain ⟨fork, fetched, stands⟩ := forms.stands
  simp only [RootedMap.sibling, fetched, stands.child_other, top, bind, Except.bind, pure, Except.pure]

theorem straighten_black
    (forms : rooted.Forms map (path.plug (.branch side color outer parent (.branch side .black near sibling far))))
    (trail : Trail) :
    rooted.straighten trail parent.handle side sibling.handle = .ok (trail, sibling.handle, rooted) := by
  simp only [straighten, forms.aside.isRed_node, bind, Except.bind, pure, Except.pure]
  rfl

/-- A red sibling comes to stand over the parent, which turns red and has the near nephew for a sibling. -/
theorem straighten_red {nephew : Tag K}
    (forms : rooted.Forms map (path.plug (.branch side color outer parent (.branch side .red near sibling far))))
    (top : near.top? = some nephew.handle) :
    ∃ after, rooted.straighten ((parent.handle, side) :: path.trail) parent.handle side sibling.handle =
        .ok ((parent.handle, side) :: (sibling.handle, side) :: path.trail, nephew.handle, after) ∧
      after.Forms map (Path.plug (⟨.black, sibling, side, far⟩ :: path) (.branch side .red outer parent near)) := by
  have red := forms.aside.isRed_node
  obtain ⟨one, first, forms⟩ := forms.aside.paint .black
  rw [← Path.plug_aside] at forms
  obtain ⟨two, second, forms⟩ := forms.paint .red
  obtain ⟨after, third, forms⟩ := forms.rotate
  refine ⟨after, ?_, forms⟩
  have upper := Trail.setStep_append [] path.trail (parent.handle, side) (sibling.handle, side)
  rw [List.nil_append, List.nil_append] at upper
  have last := forms.below.sibling_eq top
  simp only [straighten, red, first, second, Trail.slotOfLast_cons, third, Trail.lastDepth_cons, upper, last,
    decide_true, if_true, bind, Except.bind, pure, Except.pure]

theorem bend_far
    (forms : rooted.Forms map (path.plug (.branch side color outer parent (.branch side lower near sibling far))))
    (red : far.isRed = true) (node : Option Handle) :
    rooted.bend parent.handle side sibling.handle node far.top? = .ok (sibling.handle, rooted) := by
  simp only [bend, forms.aside.aside.isRed, red, if_true, bind, Except.bind, pure, Except.pure]

/-- A red near nephew comes to stand over the sibling. -/
theorem bend_near {nephew : Tag K}
    (forms : rooted.Forms map (path.plug (.branch side color outer parent
      (.branch side lower (.branch side upper near nephew between) sibling far)))) (black : far.isRed = false) :
    ∃ after, rooted.bend parent.handle side sibling.handle (some nephew.handle) far.top? = .ok (nephew.handle, after) ∧
      after.Forms map (path.plug (.branch side color outer parent
        (.branch side .black near nephew (.branch side .red between sibling far)))) := by
  have ofFar : rooted.isRed far.top? = .ok false := black ▸ forms.aside.aside.isRed
  obtain ⟨one, first, forms⟩ := forms.aside.below.paint .black
  obtain ⟨two, second, forms⟩ := forms.above.paint .red
  obtain ⟨after, third, forms⟩ := forms.rotate_other
  rw [← Path.plug_aside] at forms
  refine ⟨after, ?_, forms⟩
  rw [Path.trail_cons, List.head?_cons] at third
  simp only [bend, ofFar, paintAny, first, second, third, Bool.false_eq_true, if_false, bind, Except.bind]

/-- The sibling comes to stand over the parent, in its colour and between two black nodes. -/
theorem borrow
    (forms : rooted.Forms map (path.plug (.branch side color outer parent (.branch side lower near sibling far)))) :
    ∃ after, rooted.borrow ((parent.handle, side) :: path.trail) parent.handle side sibling.handle = .ok after ∧
      after.Forms map
        (path.plug (.branch side color (.branch side .black outer parent near) sibling far.blacken)) := by
  obtain ⟨fork, fetched, stands⟩ := forms.stands
  have color := stands.color
  obtain ⟨one, first, forms⟩ := forms.aside.paint fork.color
  rw [← Path.plug_aside] at forms
  obtain ⟨two, second, forms⟩ := forms.paint .black
  obtain ⟨below, found, high⟩ := forms.aside.stands
  obtain ⟨three, third, forms⟩ := forms.aside.aside.blacken
  rw [← Path.plug_aside, ← Path.plug_aside] at forms
  obtain ⟨after, fourth, forms⟩ := forms.rotate
  refine ⟨after, ?_, color ▸ forms⟩
  simp only [RootedMap.borrow, fetched, first, second, found, high.child_other, third, Trail.slotOfLast_cons, fourth,
    bind, Except.bind, pure, Except.pure]

/-- A sibling with a red child pays, whichever of the two it is. -/
theorem lends
    (forms : rooted.Forms map (path.plug (.branch side color outer parent (.branch side lower near sibling far))))
    (lent : Shape.lend side color outer parent near sibling far = some settled) :
    ∃ raised bent after, rooted.bend parent.handle side sibling.handle near.top? far.top? = .ok (raised, bent) ∧
      bent.borrow ((parent.handle, side) :: path.trail) parent.handle side raised = .ok after ∧
      after.Forms map (path.plug settled) := by
  unfold Shape.lend at lent
  cases red : far.isRed with
  | true =>
    rw [red, if_pos rfl] at lent
    cases lent
    obtain ⟨after, done, paid⟩ := forms.borrow
    exact ⟨_, _, after, forms.bend_far red _, done, paid⟩
  | false =>
    rw [red, if_neg Bool.false_ne_true] at lent
    split at lent
    · rename_i left nephew right
      cases lent
      rw [← Shape.branch_near_far side] at forms
      obtain ⟨bent, first, forms⟩ := forms.bend_near red
      obtain ⟨after, done, paid⟩ := forms.borrow
      refine ⟨_, bent, after, first, done, ?_⟩
      cases side <;> exact paid
    · cases lent

/-- The rest of a turn, once the sibling is black or has come to be one level lower: a sibling with a red child
lends, and all is well. -/
theorem repay_lends {node : Option Handle} (black : rooted.isRed node = .ok false)
    (beside : rooted.sibling parent.handle side = .ok first)
    (straightened : rooted.straighten ((parent.handle, side) :: rest) parent.handle side first =
      .ok ((parent.handle, side) :: path.trail, sibling.handle, straight))
    (forms : straight.Forms map (path.plug (.branch side color outer parent (.branch side lower near sibling far))))
    (lent : Shape.lend side color outer parent near sibling far = some settled) :
    ∃ after, rooted.repay (limit + 1) ((parent.handle, side) :: rest) node = .ok after ∧
      after.Forms map (path.plug settled).blacken := by
  obtain ⟨raised, bent, paid, one, two, paidForms⟩ := forms.lends lent
  obtain ⟨after, three, blackened⟩ := paidForms.blackenRoot
  refine ⟨after, ?_, blackened⟩
  have red := Shape.red_of_lend lent
  obtain ⟨fork, fetched, stands⟩ := forms.aside.stands
  simp only [RootedMap.repay, black, beside, straightened, fetched, stands.child, stands.child_other,
    forms.aside.below.isRed, forms.aside.aside.isRed, red, one, two, three, Bool.false_eq_true, if_false, if_true, bind,
    Except.bind]

/-- A sibling without one turns red, and the black node is missing above the parent. -/
theorem repay_passes {node : Option Handle} (black : rooted.isRed node = .ok false)
    (beside : rooted.sibling parent.handle side = .ok first)
    (straightened : rooted.straighten ((parent.handle, side) :: rest) parent.handle side first =
      .ok ((parent.handle, side) :: path.trail, sibling.handle, straight))
    (forms : straight.Forms map (path.plug (.branch side color outer parent (.branch side lower near sibling far))))
    (keeps : Shape.lend side color outer parent near sibling far = none) :
    ∃ next : RootedMap K V, rooted.repay (limit + 1) ((parent.handle, side) :: rest) node =
        next.repay limit path.trail (some parent.handle) ∧
      next.Forms map (path.plug (.branch side color outer parent (.branch side .red near sibling far))) := by
  obtain ⟨nearBlack, farBlack⟩ := Shape.black_of_lend keeps
  obtain ⟨fork, fetched, stands⟩ := forms.aside.stands
  obtain ⟨next, painted, reddened⟩ := forms.aside.paint .red
  rw [← Path.plug_aside] at reddened
  refine ⟨next, ?_, reddened⟩
  simp only [RootedMap.repay, black, beside, straightened, fetched, stands.child, stands.child_other,
    forms.aside.below.isRed, forms.aside.aside.isRed, nearBlack, farBlack, painted, Bool.false_eq_true, Bool.or_false,
    if_false, bind, Except.bind, List.tail_cons]

/-- The sibling of a position, seen from the parent. -/
theorem beside_parent {parent : Crumb (Tag K)} (forms : rooted.Forms map (Path.plug (parent :: path) deficient))
    (beside : parent.other = .node color left sibling right) :
    rooted.Forms map (path.plug (.branch parent.side parent.color deficient parent.label
      (.branch parent.side color (parent.side.near left right) sibling (parent.side.far left right)))) := by
  rw [Shape.branch_near_far, ← beside]
  exact forms

theorem repay (forms : rooted.Forms map (path.plug deficient)) (enough : path.length ≤ limit)
    (done : Shape.repairDeficit path deficient = .ok shape) :
    ∃ after, rooted.repay limit path.trail deficient.top? = .ok after ∧ after.Forms map shape := by
  fun_induction Shape.repairDeficit path deficient generalizing rooted limit with
  | case1 deficient =>
    cases done
    have ofNode := forms.isRed
    obtain ⟨after, painted, blackened⟩ := forms.blacken
    refine ⟨after, ?_, blackened⟩
    unfold RootedMap.repay
    simp only [ofNode, bind, Except.bind, Path.trail_nil, painted, ite_self]
  | case2 parent path deficient red =>
    cases done
    have ofNode := forms.isRed
    obtain ⟨after, painted, blackened⟩ := forms.blacken
    refine ⟨after, ?_, blackened⟩
    unfold RootedMap.repay
    simp only [ofNode, red, bind, Except.bind, painted, if_true]
  | case3 => cases done
  | case4 parent path deficient black left sibling right beside settled lent =>
    cases done
    obtain ⟨limit, rfl⟩ := Nat.exists_eq_add_one.mpr (Nat.zero_lt_of_lt enough)
    rw [Bool.not_eq_true] at black
    have here := beside_parent forms beside
    exact repay_lends (black ▸ forms.isRed) (here.sibling_eq Shape.top?_branch) (here.straighten_black _) here lent
  | case5 parent path deficient black left sibling right beside keeps ih =>
    obtain ⟨limit, rfl⟩ := Nat.exists_eq_add_one.mpr (Nat.zero_lt_of_lt enough)
    rw [Bool.not_eq_true] at black
    have here := beside_parent forms beside
    obtain ⟨next, turned, passed⟩ :=
      repay_passes (black ▸ forms.isRed) (here.sibling_eq Shape.top?_branch) (here.straighten_black _) here keeps
    rw [Shape.branch_near_far] at passed
    obtain ⟨after, ended, repaid⟩ := ih passed (Nat.le_of_succ_le_succ enough) done
    rw [Shape.top?_branch] at ended
    exact ⟨after, turned.trans ended, repaid⟩
  | case6 => cases done
  | case7 parent path deficient black left sibling right beside upper color nearLeft nephew nearRight near settled =>
    rename_i lent
    cases done
    obtain ⟨limit, rfl⟩ := Nat.exists_eq_add_one.mpr (Nat.zero_lt_of_lt enough)
    rw [Bool.not_eq_true] at black
    have here := beside_parent forms beside
    rw [near] at here
    obtain ⟨straight, straightened, lowered⟩ := here.straighten_red (show _ = some nephew.handle from rfl)
    rw [← Shape.branch_near_far parent.side] at lowered
    exact repay_lends (black ▸ forms.isRed) (here.sibling_eq Shape.top?_branch) straightened lowered lent
  | case8 parent path deficient black left sibling right beside upper color nearLeft nephew nearRight near =>
    rename_i keeps
    cases done
    obtain ⟨limit, rfl⟩ := Nat.exists_eq_add_one.mpr (Nat.zero_lt_of_lt enough)
    rw [Bool.not_eq_true] at black
    have here := beside_parent forms beside
    rw [near] at here
    obtain ⟨straight, straightened, lowered⟩ := here.straighten_red (show _ = some nephew.handle from rfl)
    rw [← Shape.branch_near_far parent.side] at lowered
    obtain ⟨next, turned, passed⟩ :=
      repay_passes (black ▸ forms.isRed) (here.sibling_eq Shape.top?_branch) straightened lowered keeps
    rw [Shape.branch_near_far] at passed
    have red := passed.isRed_node
    obtain ⟨after, painted, blackened⟩ := passed.paint .black
    refine ⟨after, turned.trans ?_, blackened⟩
    unfold RootedMap.repay
    simp only [red, decide_true, if_true, bind, Except.bind]
    exact painted

end RootedMap.Forms

end KeyedStore
