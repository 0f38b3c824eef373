import KeyedStore.OrderedMap.Rooted
import KeyedStore.Proofs.OrderedMap.Stack
import KeyedStore.Proofs.OrderedMap.Changes
/-!
Links in storage as a tree. They span a shape when each node of it is live and leads to the roots of its two subtrees.
What can be reached through links is then what the shape names, and the order from the leaves up puts every node after
what can be reached from it. A map in storage lays out one with a shape when its links span that shape over the same
values.
-/
namespace KeyedStore

variable {K V : Type}

namespace Shape

/-- The handles from the leaves up: each one after those below it. -/
def upward (shape : Shape (Tag K)) : List Handle := shape.postorder.map (·.handle)

@[simp] theorem upward_nil : (nil : Shape (Tag K)).upward = [] := rfl

@[simp] theorem upward_node (color : Color) (left : Shape (Tag K)) (tag : Tag K) (right : Shape (Tag K)) :
    (node color left tag right).upward = left.upward ++ right.upward ++ [tag.handle] := by
  simp only [upward, postorder, List.map_append, List.map_cons, List.map_nil]

theorem perm_upward (shape : Shape (Tag K)) : shape.upward.Perm shape.handles :=
  shape.perm_postorder.map Tag.handle

theorem length_upward (shape : Shape (Tag K)) : shape.upward.length = shape.size := by
  rw [shape.perm_upward.length_eq, handles, List.length_map, length_toList]

end Shape

/-- The links from here on make this tree of live nodes. -/
inductive Spans (forks : Slots (Fork K V)) : Option Handle → Shape (Tag K) → Prop where
  | nil : Spans forks none .nil
  | node {handle : Handle} {fork : Fork K V} {left right : Shape (Tag K)} (held : forks.get? handle = some fork)
      (onLeft : Spans forks fork.left left) (onRight : Spans forks fork.right right) :
      Spans forks (some handle) (.node fork.color left ⟨handle, fork.key⟩ right)

/-- From here links lead to a live node. -/
inductive Reaches (forks : Slots (Fork K V)) : Option Handle → Handle → Prop where
  | here {handle : Handle} {fork : Fork K V} (held : forks.get? handle = some fork) :
      Reaches forks (some handle) handle
  | left {handle target : Handle} {fork : Fork K V} (held : forks.get? handle = some fork)
      (below : Reaches forks fork.left target) : Reaches forks (some handle) target
  | right {handle target : Handle} {fork : Fork K V} (held : forks.get? handle = some fork)
      (below : Reaches forks fork.right target) : Reaches forks (some handle) target

namespace Spans

variable {forks after : Slots (Fork K V)} {root : Option Handle} {shape : Shape (Tag K)} {target lower : Handle}

/-- Only the nodes of the tree matter. -/
theorem congr (spans : Spans forks root shape) (same : ∀ handle ∈ shape.upward, after.get? handle = forks.get? handle) :
    Spans after root shape := by
  induction spans with
  | nil => exact .nil
  | @node handle fork left right held onLeft onRight ihLeft ihRight =>
    simp only [Shape.upward_node, List.mem_append, List.mem_singleton] at same
    have kept : after.get? handle = some fork := (same handle (.inr rfl)).trans held
    exact .node kept (ihLeft fun other member => same other (.inl (.inl member)))
      (ihRight fun other member => same other (.inl (.inr member)))

theorem reaches_iff (spans : Spans forks root shape) : Reaches forks root target ↔ target ∈ shape.upward := by
  induction spans with
  | nil => exact ⟨nofun, nofun⟩
  | @node handle fork left right held onLeft onRight ihLeft ihRight =>
    simp only [Shape.upward_node, List.mem_append, List.mem_singleton, ← ihLeft, ← ihRight]
    constructor
    · intro reaches
      cases reaches with
      | here => exact .inr rfl
      | left found below =>
        cases held.symm.trans found
        exact .inl (.inl below)
      | right found below =>
        cases held.symm.trans found
        exact .inl (.inr below)
    · rintro ((below | below) | rfl)
      · exact .left held below
      · exact .right held below
      · exact .here held

/-- From the leaves up every node comes after what can be reached from its children. -/
theorem below_sooner (spans : Spans forks root shape) (member : target ∈ shape.upward) {fork : Fork K V}
    (held : forks.get? target = some fork) (below : Reaches forks fork.left lower ∨ Reaches forks fork.right lower) :
    ∃ sooner later, shape.upward = sooner ++ target :: later ∧ lower ∈ sooner := by
  induction spans with
  | nil => cases member
  | @node handle top left right found onLeft onRight ihLeft ihRight =>
    rw [Shape.upward_node, List.mem_append, List.mem_append, List.mem_singleton] at member
    rw [Shape.upward_node]
    rcases member with (member | member) | rfl
    · obtain ⟨sooner, later, split, inside⟩ := ihLeft member
      exact ⟨sooner, later ++ right.upward ++ [handle], by simp [split], inside⟩
    · obtain ⟨sooner, later, split, inside⟩ := ihRight member
      exact ⟨left.upward ++ sooner, later ++ [handle], by simp [split], List.mem_append_right _ inside⟩
    · cases found.symm.trans held
      refine ⟨left.upward ++ right.upward, [], rfl, List.mem_append.mpr ?_⟩
      exact below.imp onLeft.reaches_iff.mp onRight.reaches_iff.mp

end Spans

namespace RootedMap

/-- The links from the root make a tree: each node is live and is come to in one way only. -/
def IsTree (map : RootedMap K V) : Prop :=
  ∃ shape : Shape (Tag K), Spans map.forks map.root shape ∧ shape.handles.Nodup

/-- The same map in storage: its links span the shape, over the same values under the same handles. -/
structure Lays (rooted : RootedMap K V) (map : OrderedMap K V) : Prop where
  id : rooted.id = map.id
  policy : rooted.policy = map.policy
  noOverwrite : rooted.noOverwrite = map.noOverwrite
  transactions : rooted.transactions = map.transactions
  spans : Spans rooted.forks rooted.root map.shape
  values : ∀ handle, (rooted.forks.get? handle).map Fork.value = map.slots.get? handle
  next : rooted.forks.next = map.slots.next

/-- What is in use in storage are the nodes of the tree. -/
theorem Lays.inUse {rooted : RootedMap K V} {map : OrderedMap K V} (lays : rooted.Lays map)
    (wellFormed : map.WellFormed) : rooted.forks.InUse map.shape.handles := by
  apply Slots.inUse_of_live wellFormed.inUse.nodup
  intro handle
  apply (wellFormed.inUse.live handle).trans
  rw [Slots.contains, Slots.contains, ← lays.values, Option.isSome_map]

theorem lays_fresh (id : Identity) (policy : Policy K V) (noOverwrite : Bool) :
    Lays { id, policy, noOverwrite } { id, policy, noOverwrite } :=
  ⟨rfl, rfl, rfl, rfl, .nil, fun _ => rfl, rfl⟩

end RootedMap

/-! ### Every map can be laid out -/

namespace Shape

variable {shape : Shape (Tag K)} {handle : Handle}

/-- The handle at the root. -/
def top? (shape : Shape (Tag K)) : Option Handle := shape.root?.map fun root => root.1.handle

/-- The node with a handle as it is stored, with this value. -/
def fork? (handle : Handle) (value : Held V) : Shape (Tag K) → Option (Fork K V)
  | .nil => none
  | .node color left tag right =>
    if tag.handle = handle then some ⟨color, left.top?, right.top?, tag.key, value⟩
    else (left.fork? handle value).or (right.fork? handle value)

theorem fork?_eq_none {value : Held V} (absent : handle ∉ shape.handles) : shape.fork? handle value = none := by
  induction shape with
  | nil => rfl
  | node color left tag right ihLeft ihRight =>
    simp only [handles_node, List.mem_append, List.mem_cons, not_or] at absent
    rw [fork?, if_neg (Ne.symm absent.2.1), ihLeft absent.1, ihRight absent.2.2, Option.or_none]

theorem exists_fork? (member : handle ∈ shape.handles) (value : Held V) :
    ∃ fork, shape.fork? handle value = some fork := by
  apply Option.isSome_iff_exists.mp
  induction shape with
  | nil => cases member
  | node color left tag right ihLeft ihRight =>
    rw [fork?]
    by_cases here : tag.handle = handle
    · rw [if_pos here]
      rfl
    · simp only [handles_node, List.mem_append, List.mem_cons, Ne.symm here, false_or] at member
      rw [if_neg here, Option.isSome_or, Bool.or_eq_true]
      exact member.imp ihLeft ihRight

theorem value_of_fork? {value : Held V} {fork : Fork K V} (found : shape.fork? handle value = some fork) :
    fork.value = value := by
  induction shape with
  | nil => cases found
  | node color left tag right ihLeft ihRight =>
    rw [fork?] at found
    by_cases here : tag.handle = handle
    · rw [if_pos here] at found
      cases found
      rfl
    · rw [if_neg here] at found
      rcases Option.or_eq_some_iff.mp found with onLeft | ⟨_, onRight⟩
      · exact ihLeft onLeft
      · exact ihRight onRight

theorem spans_of_fork? {forks : Slots (Fork K V)} (distinct : shape.handles.Nodup)
    (laid : ∀ handle ∈ shape.handles, ∃ value, forks.get? handle = shape.fork? handle value) :
    Spans forks shape.top? shape := by
  induction shape with
  | nil => exact .nil
  | node color left tag right ihLeft ihRight =>
    rw [handles_node, List.nodup_middle, List.nodup_cons, List.mem_append, not_or, List.nodup_append'] at distinct
    obtain ⟨⟨notLeft, notRight⟩, onLeft, onRight, apart⟩ := distinct
    simp only [handles_node, List.mem_append, List.mem_cons] at laid
    obtain ⟨value, top⟩ := laid tag.handle (.inr (.inl rfl))
    rw [fork?, if_pos rfl] at top
    apply Spans.node top
    · apply ihLeft onLeft
      intro handle member
      obtain ⟨value, held⟩ := laid handle (.inl member)
      have below : tag.handle ≠ handle := (ne_of_mem_of_not_mem member notLeft).symm
      exact ⟨value, by rw [held, fork?, if_neg below, fork?_eq_none (apart member), Option.or_none]⟩
    · apply ihRight onRight
      intro handle member
      obtain ⟨value, held⟩ := laid handle (.inr (.inr member))
      have below : tag.handle ≠ handle := (ne_of_mem_of_not_mem member notRight).symm
      have notBeside : handle ∉ left.handles := fun other => apart other member
      exact ⟨value, by rw [held, fork?, if_neg below, fork?_eq_none notBeside, Option.none_or]⟩

end Shape

namespace OrderedMap

/-- The map as it lies in storage: each value in the node that names it. A value that no node names has no place. -/
def rooted (map : OrderedMap K V) : RootedMap K V where
  id := map.id
  policy := map.policy
  noOverwrite := map.noOverwrite
  root := map.shape.top?
  forks :=
    { places := map.slots.places.mapIdx fun index place => place.bind fun value => map.shape.fork? ⟨index⟩ value
      size := _
      size_eq := rfl }
  transactions := map.transactions

theorem get?_rooted (map : OrderedMap K V) (handle : Handle) :
    map.rooted.forks.get? handle = (map.slots.get? handle).bind (map.shape.fork? handle) := by
  rw [Slots.get?, Slots.get?, rooted, Array.getElem?_mapIdx]
  cases map.slots.places[handle.index]? with
  | none => rfl
  | some place => rfl

theorem lays_rooted {map : OrderedMap K V} (wellFormed : map.WellFormed) : map.rooted.Lays map := by
  constructor
  case id => rfl
  case policy => rfl
  case noOverwrite => rfl
  case transactions => rfl
  case spans =>
    apply Shape.spans_of_fork? wellFormed.inUse.nodup
    intro handle member
    obtain ⟨value, held⟩ := wellFormed.inUse.get? member
    exact ⟨value, by rw [get?_rooted, held, Option.bind_some]⟩
  case values =>
    intro handle
    rw [get?_rooted]
    cases held : map.slots.get? handle with
    | none => rfl
    | some value =>
      have live : map.slots.contains handle = true := Option.isSome_iff_exists.mpr ⟨value, held⟩
      obtain ⟨fork, found⟩ := Shape.exists_fork? ((wellFormed.inUse.live handle).mpr live) value
      rw [Option.bind_some, found, Option.map_some, Shape.value_of_fork? found]
  case next => rw [Slots.next, Slots.next, rooted, Array.size_mapIdx]

end OrderedMap

end KeyedStore
