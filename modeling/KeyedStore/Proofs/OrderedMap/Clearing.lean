import KeyedStore.Proofs.OrderedMap.Spanning
import KeyedStore.Proofs.Policy
/-!
A clearing that goes through the links in storage. While it is under way the stack names the roots of trees that have
no node in common: cutting the link that is followed parts the tree on top into two, and the order in which their nodes
are due stays what it was. A node is taken out when it is the first that is due. So the nodes go in the order from the
leaves up, and no handle is followed whose node is gone. Of a map that changes have made, nothing is left in storage.
-/
namespace KeyedStore

variable {K V : Type}

/-- The node that a stroke takes out, if it takes one out. -/
def Stroke.taken? : Stroke → Option Handle
  | .cut _ _ _ => none
  | .taken handle => some handle

/-- The nodes that were taken out, one after the other. -/
def takenBy (strokes : List Stroke) : List Handle := strokes.filterMap Stroke.taken?

theorem takenBy_cons (stroke : Stroke) (strokes : List Stroke) :
    takenBy (stroke :: strokes) = stroke.taken?.toList ++ takenBy strokes := by
  cases stroke <;> rfl

namespace Spans

variable {forks after : Slots (Fork K V)} {handle child : Handle} {fork : Fork K V} {left right : Shape (Tag K)}
  {side : Side}

/-- Without the link that is followed, the tree falls into the one below that link and the rest. -/
theorem parted (onLeft : Spans forks fork.left left) (onRight : Spans forks fork.right right)
    (linked : fork.onward? = some (side, child)) (fresh : handle ∉ left.upward ++ right.upward)
    (changed : after.get? handle = some (fork.cut side))
    (same : ∀ other, other ≠ handle → after.get? other = forks.get? other) :
    ∃ below rest, Spans after (some child) below ∧ Spans after (some handle) rest ∧
      (Shape.node fork.color left ⟨handle, fork.key⟩ right).upward = below.upward ++ rest.upward := by
  rw [List.mem_append, not_or] at fresh
  replace onLeft := onLeft.congr fun other member => same other (ne_of_mem_of_not_mem member fresh.1)
  replace onRight := onRight.congr fun other member => same other (ne_of_mem_of_not_mem member fresh.2)
  rcases fork with ⟨color, _ | first, second, key, value⟩
  · cases onLeft
    cases second with
    | none => cases linked
    | some second =>
      cases linked
      exact ⟨right, _, onRight, .node changed .nil .nil, by simp⟩
  · cases linked
    exact ⟨left, _, onLeft, .node changed .nil onRight, by simp⟩

/-- A node without links is a tree of its own. -/
theorem alone (onLeft : Spans forks fork.left left) (onRight : Spans forks fork.right right)
    (bare : fork.onward? = none) : left = .nil ∧ right = .nil := by
  obtain ⟨noLeft, noRight⟩ := Fork.onward?_eq_none.mp bare
  rw [noLeft] at onLeft
  rw [noRight] at onRight
  cases onLeft
  cases onRight
  exact ⟨rfl, rfl⟩

end Spans

namespace Clearing

variable {work middle after : Clearing K V} {trees : List (Shape (Tag K))} {tree : Shape (Tag K)}
  {due taken others further : List Handle}

/-! ### What goes on in storage -/

/-- These nodes were taken out in between, and nothing but the nodes that were due has changed. -/
structure Clears (work : Clearing K V) (due taken : List Handle) (after : Clearing K V) : Prop where
  released : after.released = work.released + taken.length
  size : after.forks.size + taken.length = work.forks.size
  next : after.forks.next = work.forks.next
  gone : ∀ handle ∈ taken, after.forks.get? handle = none
  elsewhere : ∀ handle, handle ∉ due → after.forks.get? handle = work.forks.get? handle

namespace Clears

theorem refl (work : Clearing K V) : work.Clears due [] work :=
  ⟨rfl, rfl, rfl, nofun, fun _ _ => rfl⟩

theorem trans (first : work.Clears due taken middle) (second : middle.Clears others further after)
    (within : others ⊆ due) (apart : ∀ handle ∈ taken, handle ∉ others) :
    work.Clears due (taken ++ further) after := by
  constructor
  case released => rw [second.released, first.released, List.length_append, Nat.add_assoc]
  case size => rw [List.length_append, Nat.add_comm taken.length, ← Nat.add_assoc, second.size, first.size]
  case next => rw [second.next, first.next]
  case gone =>
    intro handle member
    rcases List.mem_append.mp member with sooner | later
    · rw [second.elsewhere handle (apart handle sooner)]
      exact first.gone handle sooner
    · exact second.gone handle later
  case elsewhere =>
    intro handle outside
    rw [second.elsewhere handle fun inside => outside (within inside)]
    exact first.elsewhere handle outside

theorem mono (clears : work.Clears due taken after) (within : due ⊆ others) : work.Clears others taken after :=
  ⟨clears.released, clears.size, clears.next, clears.gone, fun handle outside =>
    clears.elsewhere handle fun inside => outside (within inside)⟩

theorem of_cut {handle : Handle} {fork : Fork K V} {forks : Slots (Fork K V)}
    (done : work.forks.replace handle fork = .ok forks) (stack : List Handle) :
    work.Clears [handle] [] { work with forks := forks, stack := stack } := by
  constructor
  case released => rfl
  case size => exact Slots.size_replace done
  case next => exact Slots.next_replace done
  case gone => exact fun _ => nofun
  case elsewhere =>
    intro other outside
    rw [Slots.get?_replace done, if_neg (mt List.mem_singleton.mpr outside)]

theorem of_taken {handle : Handle} {fork : Fork K V} {forks : Slots (Fork K V)}
    (done : work.forks.take handle = .ok (fork, forks)) (stack : List Handle) :
    work.Clears [handle] [handle] { forks := forks, stack := stack, released := work.released + 1 } := by
  constructor
  case released => rfl
  case size => exact Slots.size_take done
  case next => exact Slots.next_take done
  case gone =>
    intro other member
    rw [Slots.get?_take done, if_pos (List.mem_singleton.mp member)]
  case elsewhere =>
    intro other outside
    rw [Slots.get?_take done, if_neg (mt List.mem_singleton.mpr outside)]

/-- When all that was due is taken out, that is what is missing. -/
theorem get? (clears : work.Clears due due after) (handle : Handle) :
    after.forks.get? handle = if handle ∈ due then none else work.forks.get? handle := by
  by_cases member : handle ∈ due
  · rw [if_pos member]
    exact clears.gone handle member
  · rw [if_neg member]
    exact clears.elsewhere handle member

/-- Nothing is left then if nothing else was there. -/
theorem bare_iff (clears : work.Clears due due after) :
    after.forks.size = 0 ↔ ∀ handle, work.forks.contains handle = true → handle ∈ due := by
  have unused : after.forks.size = 0 ↔ ∀ handle, after.forks.contains handle = true → handle ∈ [] :=
    Slots.size_eq_length_iff .nil nofun
  rw [unused]
  apply forall_congr'
  intro handle
  rw [Slots.contains, Slots.contains, clears.get?]
  by_cases member : handle ∈ due
  · simp [member]
  · simp [member]

end Clears

/-! ### One turn -/

/-- The stack names the roots of these trees, none of which has a node twice or in common with another. -/
structure Grows (work : Clearing K V) (trees : List (Shape (Tag K))) : Prop where
  spans : List.Forall₂ (fun handle tree => Spans work.forks (some handle) tree) work.stack trees
  apart : (trees.flatMap Shape.upward).Nodup

/-- The tree on top, with its node as it is in storage, and the others below it. -/
structure Tops (work : Clearing K V) (handle : Handle) (above : List Handle) (fork : Fork K V)
    (left right : Shape (Tag K)) (rest : List (Shape (Tag K))) : Prop where
  held : work.forks.get? handle = some fork
  onLeft : Spans work.forks fork.left left
  onRight : Spans work.forks fork.right right
  others : List.Forall₂ (fun handle tree => Spans work.forks (some handle) tree) above rest
  fresh : handle ∉ left.upward ++ right.upward
  apart : handle ∉ rest.flatMap Shape.upward

theorem Grows.top {handle : Handle} {above : List Handle} (grows : work.Grows trees)
    (stacked : work.stack = handle :: above) :
    ∃ fork left right rest, trees = .node fork.color left ⟨handle, fork.key⟩ right :: rest ∧
      work.Tops handle above fork left right rest := by
  obtain ⟨spans, apart⟩ := grows
  rw [stacked] at spans
  cases spans with
  | @cons _ tree _ rest top others =>
    cases top with
    | @node _ fork left right held onLeft onRight =>
      rw [List.flatMap_cons, Shape.upward_node, List.append_assoc, List.singleton_append, List.nodup_middle,
        List.nodup_cons, List.mem_append, not_or] at apart
      exact ⟨fork, left, right, rest, rfl, held, onLeft, onRight, others, apart.1.1, apart.1.2⟩

/-- What a turn leaves: the trees that remain, with the nodes that are due then. -/
structure Follows (work : Clearing K V) (trees : List (Shape (Tag K))) (stroke : Stroke) (after : Clearing K V)
    (rest : List (Shape (Tag K))) : Prop where
  grows : after.Grows rest
  due : trees.flatMap Shape.upward = stroke.taken?.toList ++ rest.flatMap Shape.upward
  clears : work.Clears (trees.flatMap Shape.upward) stroke.taken?.toList after
  fewer : rest.length + 2 * stroke.taken?.toList.length = trees.length + 1

/-- Trees stay what they are where none of their nodes is touched. -/
theorem forest_congr {forks later : Slots (Fork K V)} {stack : List Handle}
    (spans : List.Forall₂ (fun handle tree => Spans forks (some handle) tree) stack trees)
    (same : ∀ handle ∈ trees.flatMap Shape.upward, later.get? handle = forks.get? handle) :
    List.Forall₂ (fun handle tree => Spans later (some handle) tree) stack trees := by
  induction spans with
  | nil => exact .nil
  | cons top below ih =>
    simp only [List.flatMap_cons, List.mem_append] at same
    exact .cons (top.congr fun handle member => same handle (.inl member))
      (ih fun handle member => same handle (.inr member))

/-- With trees on the stack a turn goes through. -/
theorem Grows.turn_ends (grows : work.Grows (tree :: trees)) :
    ∃ stroke after, work.turn = .ok (some (stroke, after)) := by
  cases stacked : work.stack with
  | nil =>
    have spans := grows.spans
    rw [stacked] at spans
    cases spans
  | cons handle above =>
    obtain ⟨fork, left, right, rest, _, top⟩ := grows.top stacked
    cases linked : fork.onward? with
    | some link =>
      obtain ⟨side, child⟩ := link
      obtain ⟨forks, done⟩ := Slots.replace_of_get? top.held (fork.cut side)
      refine ⟨.cut handle side child, { work with forks := forks, stack := child :: handle :: above }, ?_⟩
      simp only [turn, stacked, Slots.fetch, top.held, linked, done, bind, Except.bind, pure, Except.pure]
    | none =>
      obtain ⟨forks, done⟩ := Slots.take_of_get? top.held
      refine ⟨.taken handle, { forks := forks, stack := above, released := work.released + 1 }, ?_⟩
      simp only [turn, stacked, Slots.fetch, top.held, linked, done, bind, Except.bind, pure, Except.pure]

section Following

variable {handle child : Handle} {above : List Handle} {fork : Fork K V} {side : Side} {left right : Shape (Tag K)}
  {rest : List (Shape (Tag K))} {forks : Slots (Fork K V)}

/-- A cut leaves the tree below the link on top of what remains of the other, and the same nodes are due. -/
theorem Grows.follow_cut (grows : work.Grows (.node fork.color left ⟨handle, fork.key⟩ right :: rest))
    (top : work.Tops handle above fork left right rest) (linked : fork.onward? = some (side, child))
    (done : work.forks.replace handle (fork.cut side) = .ok forks) :
    ∃ trees, work.Follows (.node fork.color left ⟨handle, fork.key⟩ right :: rest) (.cut handle side child)
      { work with forks := forks, stack := child :: handle :: above } trees := by
  have clears := Clears.of_cut done (child :: handle :: above)
  have same : ∀ other, other ≠ handle → forks.get? other = work.forks.get? other :=
    fun other apart => clears.elsewhere other (mt List.mem_singleton.mp apart)
  have changed : forks.get? handle = some (fork.cut side) := by rw [Slots.get?_replace done, if_pos rfl]
  obtain ⟨below, remains, onBelow, onRemains, order⟩ :=
    top.onLeft.parted top.onRight linked top.fresh changed same
  have due : (Shape.node fork.color left ⟨handle, fork.key⟩ right :: rest).flatMap Shape.upward =
      (below :: remains :: rest).flatMap Shape.upward := by
    rw [List.flatMap_cons, List.flatMap_cons, List.flatMap_cons, order, List.append_assoc]
  have others := forest_congr top.others fun other member => same other (ne_of_mem_of_not_mem member top.apart)
  use below :: remains :: rest
  constructor
  case grows => exact ⟨.cons onBelow (.cons onRemains others), due ▸ grows.apart⟩
  case due => exact due
  case clears =>
    apply clears.mono
    simp
  case fewer => rfl

/-- Where there is nothing below the node on top, it is the first that is due, and the others remain. -/
theorem Grows.follow_taken (grows : work.Grows (.node fork.color left ⟨handle, fork.key⟩ right :: rest))
    (top : work.Tops handle above fork left right rest) (bare : fork.onward? = none)
    (done : work.forks.take handle = .ok (fork, forks)) :
    work.Follows (.node fork.color left ⟨handle, fork.key⟩ right :: rest) (.taken handle)
      { forks := forks, stack := above, released := work.released + 1 } rest := by
  obtain ⟨rfl, rfl⟩ := top.onLeft.alone top.onRight bare
  have clears := Clears.of_taken done above
  constructor
  case grows =>
    refine ⟨forest_congr top.others fun other member => ?_, grows.apart.of_append_right⟩
    exact clears.elsewhere other (mt List.mem_singleton.mp (ne_of_mem_of_not_mem member top.apart))
  case due => rfl
  case clears =>
    apply clears.mono
    simp
  case fewer => rfl

end Following

/-- Either way a turn leaves trees on the stack. -/
theorem Grows.follow {stroke : Stroke} (grows : work.Grows trees) (turned : work.Turned stroke after) :
    ∃ rest, work.Follows trees stroke after rest := by
  cases turned with
  | @cut handle child above fork side forks stacked held linked done =>
    obtain ⟨found, left, right, rest, rfl, top⟩ := grows.top stacked
    obtain rfl : found = fork := Option.some.inj (top.held.symm.trans held)
    exact grows.follow_cut top linked done
  | @taken handle above fork forks stacked bare done =>
    obtain ⟨found, left, right, rest, rfl, top⟩ := grows.top stacked
    obtain rfl : found = fork := Option.some.inj (top.held.symm.trans (Slots.get?_of_take done))
    exact ⟨rest, grows.follow_taken top bare done⟩

/-! ### All turns -/

theorem finish_idle (idle : work.turn = .ok none) : work.finish = .ok ([], work) := by
  rw [finish]
  split
  · rename_i fault failed
    cases idle.symm.trans failed
  · rfl
  · rename_i stroke next turned
    cases idle.symm.trans turned

theorem finish_turned {stroke : Stroke} {strokes : List Stroke} (turned : work.turn = .ok (some (stroke, middle)))
    (ran : middle.finish = .ok (strokes, after)) : work.finish = .ok (stroke :: strokes, after) := by
  rw [finish]
  split
  · rename_i fault failed
    cases turned.symm.trans failed
  · rename_i idle
    cases turned.symm.trans idle
  · rename_i next step
    cases turned.symm.trans step
    rw [ran]
    rfl

/-- A clearing takes out all nodes that are due, in the order in which they are, and follows each of their links
once. -/
theorem Grows.finish (grows : work.Grows trees) :
    ∃ strokes after, work.finish = .ok (strokes, after) ∧ after.stack = [] ∧
      takenBy strokes = trees.flatMap Shape.upward ∧
      work.Clears (trees.flatMap Shape.upward) (trees.flatMap Shape.upward) after ∧
      strokes.length + trees.length = 2 * (trees.flatMap Shape.upward).length := by
  generalize weighed : work.weight = weight
  induction weight using Nat.strongRecOn generalizing work trees with
  | ind weight ih =>
    cases trees with
    | nil =>
      have empty : work.stack = [] := List.forall₂_nil_right_iff.mp grows.spans
      have idle : work.turn = .ok none := by rw [turn, empty]
      exact ⟨[], work, finish_idle idle, empty, rfl, .refl work, rfl⟩
    | cons tree trees =>
      obtain ⟨stroke, middle, turned⟩ := grows.turn_ends
      have inverted := turn_inverts turned
      obtain ⟨rest, kept, due, clears, fewer⟩ := grows.follow inverted
      have lighter : middle.weight < weight := by
        have step := inverted.weight
        omega
      obtain ⟨strokes, after, ran, emptied, order, cleared, turns⟩ := ih middle.weight lighter kept rfl
      have once := grows.apart
      rw [due, List.nodup_append'] at once
      have whole : work.Clears ((tree :: trees).flatMap Shape.upward) ((tree :: trees).flatMap Shape.upward) after := by
        have both := clears.trans cleared (due ▸ List.subset_append_right _ _) fun handle member => once.2.2 member
        rwa [← due] at both
      refine ⟨stroke :: strokes, after, finish_turned turned ran, emptied, ?_, whole, ?_⟩
      · rw [takenBy_cons, order, due]
      · rw [due, List.length_append, List.length_cons]
        omega

end Clearing

namespace RootedMap

variable {map rooted : RootedMap K V} {shape : Shape (Tag K)}

/-- What a clearing of a map in storage does, turn by turn, and what it leaves. No handle was followed whose node was
gone, since it would have ended there. -/
structure Takes (map : RootedMap K V) (strokes : List Stroke) (after : RootedMap K V) : Prop where
  ran : ∃ work, map.opening.finish = .ok (strokes, work) ∧ work.stack = []
  answered : map.clear = .ok ((takenBy strokes).length, after)
  once : (takenBy strokes).Nodup
  reached : ∀ handle, handle ∈ takenBy strokes ↔ Reaches map.forks map.root handle
  below : ∀ handle fork, handle ∈ takenBy strokes → map.forks.get? handle = some fork →
    ∀ lower, Reaches map.forks fork.left lower ∨ Reaches map.forks fork.right lower →
      ∃ sooner later, takenBy strokes = sooner ++ handle :: later ∧ lower ∈ sooner
  forks : ∀ handle, after.forks.get? handle = if handle ∈ takenBy strokes then none else map.forks.get? handle
  size : after.forks.size + (takenBy strokes).length = map.forks.size
  /-- Nothing is left in storage if everything there was in reach, and only then. -/
  bare : after.forks.size = 0 ↔ ∀ handle, map.forks.contains handle = true → Reaches map.forks map.root handle
  next : after.forks.next = map.forks.next
  frame : after = { map with
    root := none
    forks := after.forks
    transactions := if takenBy strokes = [] then map.transactions else map.transactions + 1 }
  /-- Every link and every node takes one turn. -/
  turns : strokes.length = 2 * (takenBy strokes).length - 1

/-- A clearing begins with the whole tree, if there is one. -/
theorem grows_opening (spans : Spans map.forks map.root shape) (distinct : shape.handles.Nodup) :
    ∃ trees, map.opening.Grows trees ∧ trees.flatMap Shape.upward = shape.upward ∧ trees.length = min 1 shape.size := by
  have once : shape.upward.Nodup := shape.perm_upward.nodup_iff.mpr distinct
  rcases map with ⟨id, policy, noOverwrite, _ | root, forks, transactions⟩
  · cases spans
    exact ⟨[], ⟨.nil, .nil⟩, rfl, rfl⟩
  · have whole : [shape].flatMap Shape.upward = shape.upward := List.flatMap_singleton _ _
    refine ⟨[shape], ⟨.cons spans .nil, whole ▸ once⟩, whole, ?_⟩
    cases spans
    simp [Shape.size]

/-- Where the links span a tree, its nodes are taken out from the leaves up. -/
theorem takes_of_spans (spans : Spans map.forks map.root shape) (distinct : shape.handles.Nodup) :
    ∃ strokes after, map.Takes strokes after ∧ takenBy strokes = shape.upward := by
  obtain ⟨trees, grows, whole, count⟩ := grows_opening spans distinct
  obtain ⟨strokes, work, ran, emptied, taken, clears, turns⟩ := grows.finish
  rw [whole] at taken clears turns
  have released : work.released = (takenBy strokes).length := by
    rw [clears.released, taken]
    exact Nat.zero_add _
  refine ⟨strokes, { map with
    root := none
    forks := work.forks
    transactions := if takenBy strokes = [] then map.transactions else map.transactions + 1 }, ?_, taken⟩
  constructor
  case ran => exact ⟨work, ran, emptied⟩
  case answered =>
    simp only [clear, ran, bind, Except.bind, pure, Except.pure, released, List.length_eq_zero_iff]
  case once =>
    rw [taken]
    exact shape.perm_upward.nodup_iff.mpr distinct
  case reached =>
    intro handle
    rw [taken]
    exact spans.reaches_iff.symm
  case below =>
    intro handle fork member held lower under
    rw [taken] at member ⊢
    exact spans.below_sooner member held under
  case forks =>
    rw [taken]
    exact clears.get?
  case size =>
    rw [taken]
    exact clears.size
  case bare =>
    simp only [spans.reaches_iff]
    exact clears.bare_iff
  case next => exact clears.next
  case frame => rfl
  case turns =>
    rw [taken]
    rw [shape.length_upward] at turns ⊢
    omega

/-- A map in storage is cleared as the map that it lays out, and nothing is left in storage. -/
theorem Lays.clear_inStep {ordered : OrderedMap K V} (lays : rooted.Lays ordered) (wellFormed : ordered.WellFormed) :
    ∃ after cleared, rooted.clear = .ok (ordered.size, after) ∧ ordered.clear = .ok (ordered.size, cleared) ∧
      after.Lays cleared ∧ after.forks.size = 0 := by
  obtain ⟨strokes, after, takes, taken⟩ := takes_of_spans lays.spans wellFormed.inUse.nodup
  obtain ⟨slots, empty, next, done⟩ := OrderedMap.clear_ends wellFormed
  have count : (takenBy strokes).length = ordered.size := by
    rw [taken, ordered.shape.length_upward, wellFormed.size_eq]
  have bare : after.forks.size = 0 := takes.bare.mpr fun handle live =>
    lays.spans.reaches_iff.mpr (ordered.shape.perm_upward.mem_iff.mpr (((lays.inUse wellFormed).live handle).mpr live))
  have answered := takes.answered
  rw [count] at answered
  refine ⟨after, ordered.cleared slots, answered, done, ?_, bare⟩
  have frame := takes.frame
  constructor
  case id => exact (congrArg RootedMap.id frame).trans lays.id
  case policy => exact (congrArg RootedMap.policy frame).trans lays.policy
  case noOverwrite => exact (congrArg RootedMap.noOverwrite frame).trans lays.noOverwrite
  case transactions =>
    have counted := congrArg RootedMap.transactions frame
    simp only [← List.length_eq_zero_iff, count, lays.transactions] at counted
    exact counted
  case spans =>
    have root : after.root = none := congrArg RootedMap.root frame
    rw [root]
    exact .nil
  case values =>
    intro handle
    have unused : (ordered.cleared slots).slots.get? handle = none := empty.get?_eq_none List.not_mem_nil
    rw [unused, takes.forks, taken]
    by_cases member : handle ∈ ordered.shape.upward
    · rw [if_pos member]
      rfl
    · rw [if_neg member, (lays.inUse wellFormed).get?_eq_none (mt ordered.shape.perm_upward.mem_iff.mpr member)]
      rfl
  case next => exact takes.next.trans (lays.next.trans next.symm)

/-- In storage, whatever its colours, a tree is cleared from the leaves up: each node that can be reached from the root
is taken out once, after everything that can be reached from its children, and no other node changes. Whatever the
comparison answers, every map that a run of changes makes lies so in storage, and when it is cleared nothing is left
there. -/
theorem clear_takes_whole_tree :
    (∀ map : RootedMap K V, map.IsTree → ∃ strokes after, map.Takes strokes after) ∧
      ∀ (id : Identity) (policy : Policy K V) (noOverwrite : Bool) (changes : List (Change K V)),
        ∃ map, changes.foldlM OrderedMap.apply { id, policy, noOverwrite } = .ok map ∧ map.rooted.Lays map ∧
          ∀ rooted : RootedMap K V, rooted.Lays map → rooted.IsTree ∧ ∃ after cleared,
            rooted.clear = .ok (map.size, after) ∧ map.clear = .ok (map.size, cleared) ∧ after.Lays cleared ∧
            after.forks.size = 0 := by
  constructor
  · rintro map ⟨shape, spans, distinct⟩
    obtain ⟨strokes, after, takes, _⟩ := takes_of_spans spans distinct
    exact ⟨strokes, after, takes⟩
  · intro id policy noOverwrite changes
    obtain ⟨map, done, wellFormed⟩ :=
      OrderedMap.applyAll_wellFormed (OrderedMap.wellFormed_fresh id policy noOverwrite) changes
    refine ⟨map, done, OrderedMap.lays_rooted wellFormed, fun rooted lays => ?_⟩
    exact ⟨⟨map.shape, lays.spans, wellFormed.inUse.nodup⟩, lays.clear_inStep wellFormed⟩

/-- Three red nodes one below the other, and a fourth one that leads to the last of them and to itself. -/
def lopsided : RootedMap Nat String where
  id := ⟨0⟩
  policy := Policy.tens
  noOverwrite := false
  root := some ⟨1⟩
  forks := (((Slots.empty.insert ⟨.red, none, some ⟨2⟩, ⟨.owned, 50⟩, ⟨.owned, "a"⟩⟩).insert
    ⟨.red, some ⟨0⟩, none, ⟨.owned, 90⟩, ⟨.owned, "b"⟩⟩).insert
    ⟨.red, none, none, ⟨.borrowed, 72⟩, ⟨.owned, "c"⟩⟩).insert
    ⟨.black, some ⟨2⟩, some ⟨3⟩, ⟨.owned, 10⟩, ⟨.owned, "d"⟩⟩

/-- The stray node is still there in the end. Nothing is, after three additions to a fresh map and a removal. -/
theorem clear_takes_whole_tree_lopsided :
    lopsided.IsTree ∧
      (∃ after, lopsided.Takes
        [.cut ⟨1⟩ .left ⟨0⟩, .cut ⟨0⟩ .right ⟨2⟩, .taken ⟨2⟩, .taken ⟨0⟩, .taken ⟨1⟩] after ∧ after.forks.size = 1) ∧
      ∃ map after,
        [.insert ⟨.owned, 57⟩ ⟨.owned, "a"⟩, .insert ⟨.borrowed, 12⟩ ⟨.owned, "b"⟩,
          .insert ⟨.owned, 35⟩ ⟨.owned, "c"⟩, .remove 19].foldlM
          OrderedMap.apply { id := ⟨0⟩, policy := Policy.tens, noOverwrite := false } = .ok map ∧
        map.rooted.Lays map ∧ map.rooted.clear = .ok (2, after) ∧ after.forks.size = 0 := by
  have spans : Spans lopsided.forks lopsided.root (.node .red (.node .red .nil ⟨⟨0⟩, ⟨.owned, 50⟩⟩
      (.node .red .nil ⟨⟨2⟩, ⟨.borrowed, 72⟩⟩ .nil)) ⟨⟨1⟩, ⟨.owned, 90⟩⟩ .nil) :=
    @Spans.node _ _ _ ⟨1⟩ ⟨.red, some ⟨0⟩, none, ⟨.owned, 90⟩, ⟨.owned, "b"⟩⟩ _ _ rfl
      (@Spans.node _ _ _ ⟨0⟩ ⟨.red, none, some ⟨2⟩, ⟨.owned, 50⟩, ⟨.owned, "a"⟩⟩ _ _ rfl .nil
        (@Spans.node _ _ _ ⟨2⟩ ⟨.red, none, none, ⟨.borrowed, 72⟩, ⟨.owned, "c"⟩⟩ _ _ rfl .nil .nil)) .nil
  have tree : lopsided.IsTree := ⟨_, spans, by decide⟩
  obtain ⟨everyTree, everyRun⟩ := clear_takes_whole_tree (K := Nat) (V := String)
  obtain ⟨strokes, after, takes⟩ := everyTree lopsided tree
  obtain ⟨work, ran, _⟩ := takes.ran
  have evaluated : lopsided.opening.finish.map Prod.fst =
      .ok [.cut ⟨1⟩ .left ⟨0⟩, .cut ⟨0⟩ .right ⟨2⟩, .taken ⟨2⟩, .taken ⟨0⟩, .taken ⟨1⟩] := by
    decide +kernel
  rw [ran] at evaluated
  obtain rfl := Except.ok.inj evaluated
  refine ⟨tree, ⟨after, takes, Nat.add_right_cancel takes.size⟩, ?_⟩
  obtain ⟨map, done, lays, cleared⟩ := everyRun ⟨0⟩ Policy.tens false
    [.insert ⟨.owned, 57⟩ ⟨.owned, "a"⟩, .insert ⟨.borrowed, 12⟩ ⟨.owned, "b"⟩, .insert ⟨.owned, 35⟩ ⟨.owned, "c"⟩,
      .remove 19]
  obtain ⟨_, after, _, answered, _, _, bare⟩ := cleared map.rooted lays
  refine ⟨map, after, done, lays, ?_, bare⟩
  obtain rfl := Except.ok.inj done
  exact answered

end RootedMap

end KeyedStore
