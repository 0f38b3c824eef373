import KeyedStore.Proofs.OrderedMap.Stack
import KeyedStore.Proofs.OrderedMap.Order
/-!
Seeking the first key beyond a given one, and going on from there. The descent does not stop at an equal key: it
goes on to a gap below the leaves, and the stack it leaves there is popped to the node that stands after the gap,
which may be far above. What remains on the stack are the ancestors of that node.
-/
namespace KeyedStore

variable {K V : Type}

/-- Going from each node to its successor comes by these handles, one after the other, and then to an end. -/
inductive Trail.Visits (shape : Shape (Tag K)) : Option Handle × Trail → List Handle → Prop where
  | ended {trail : Trail} : Visits shape (none, trail) []
  | visit {trail : Trail} {handle : Handle} {following : Option Handle × Trail} {handles : List Handle}
      (moved : Trail.successor shape trail handle = .ok following) (rest : Visits shape following handles) :
      Visits shape (some handle, trail) (handle :: handles)

/-- From a spot on, the successors are what stands behind it. -/
theorem Spot.visits_onward {shape : Shape (Tag K)} (distinct : shape.handles.Nodup) (found : Option (Spot (Tag K)))
    (whole : ∀ spot, found = some spot → spot.whole = shape) :
    Trail.Visits shape (Spot.place found) ((Spot.onward found).map (·.handle)) := by
  generalize listed : Spot.onward found = tags
  induction tags generalizing found with
  | nil =>
    cases found with
    | none => exact .ended
    | some spot => cases listed
  | cons tag tags ih =>
    cases found with
    | none => cases listed
    | some spot =>
      obtain ⟨rfl, behind⟩ := List.cons.inj listed
      obtain rfl := whole spot rfl
      apply Trail.Visits.visit (Trail.successor_eq distinct)
      apply ih
      · exact fun following next => whole_next? next
      · rw [onward_next?, behind]

namespace OrderedMap

variable {map : OrderedMap K V} {key : K}

/-- A place beyond a key: its node has the least of all greater keys, the stack is the way to it, and the successors
from there on are the nodes with greater keys, in ascending order. -/
structure LandsBeyond (map : OrderedMap K V) (key : K) (found : Option Handle × Trail) : Prop where
  none : found.1 = none ↔ ∀ tag ∈ map.shape.toList, map.policy.compare key tag.key.val ≠ .lt
  least : ∀ handle, found.1 = some handle →
    ∃ tag ∈ map.shape.toList, tag.handle = handle ∧ map.policy.compare key tag.key.val = .lt ∧
      ∀ other ∈ map.shape.toList, map.policy.compare key other.key.val = .lt →
        other = tag ∨ map.policy.compare tag.key.val other.key.val = .lt
  located : map.shape.Located found
  visits : ∃ tags : List (Tag K), Trail.Visits map.shape found (tags.map (·.handle)) ∧
    (∀ tag, tag ∈ tags ↔ tag ∈ map.shape.toList ∧ map.policy.compare key tag.key.val = .lt) ∧
    tags.Pairwise (Precedes map.policy)

/-- A spot with exactly the greater keys ahead is such a place. -/
theorem landsBeyond_of_onward (sorted : map.Sorted) (distinct : map.shape.handles.Nodup)
    {found : Option (Spot (Tag K))} (whole : ∀ spot, found = some spot → spot.whole = map.shape)
    (greater : Spot.onward found = map.shape.toList.filter (probe map.policy key · == .lt)) :
    map.LandsBeyond key (Spot.place found) := by
  have member : ∀ tag, tag ∈ Spot.onward found ↔
      tag ∈ map.shape.toList ∧ map.policy.compare key tag.key.val = .lt := by
    intro tag
    rw [greater, List.mem_filter, beq_iff_eq, probe]
  have ascending : (Spot.onward found).Pairwise (Precedes map.policy) := by
    rw [greater]
    exact List.Pairwise.filter _ sorted
  have located := Spot.located distinct whole
  have visits := Spot.visits_onward distinct found whole
  cases found with
  | none =>
    have nothing : ∀ tag ∈ map.shape.toList, map.policy.compare key tag.key.val ≠ .lt :=
      fun tag inside less => List.not_mem_nil ((member tag).mpr ⟨inside, less⟩)
    exact ⟨iff_of_true rfl nothing, nofun, located, _, visits, member, ascending⟩
  | some spot =>
    obtain ⟨inside, beyond⟩ := (member spot.label).mp List.mem_cons_self
    constructor
    case none => exact iff_of_false nofun fun nothing => nothing spot.label inside beyond
    case least =>
      intro handle reached
      refine ⟨spot.label, inside, Option.some.inj reached, beyond, fun other stored less => ?_⟩
      rcases List.mem_cons.mp ((member other).mpr ⟨stored, less⟩) with same | behind
      · exact .inl same
      · exact .inr ((List.pairwise_cons.mp ascending).1 other behind)
    case located => exact located
    case visits => exact ⟨_, visits, member, ascending⟩

/-- Whatever the key and whatever the stack held before, present keys and those below or above all others included:
the seek lands on the node with the least greater key, or nowhere when there is none. That is where a cursor goes on
that returned this key last. -/
theorem seekAfter_lands_beyond (order : Std.TransCmp map.policy.compare) (sorted : map.Sorted)
    (distinct : map.shape.handles.Nodup) (key : K) (previous : Trail) :
    map.LandsBeyond key (Trail.seekAfter (probe map.policy key) map.shape previous) ∧
      Trail.seekAfter (probe map.policy key) map.shape previous =
        Spot.place (Path.firstBeyond (probe map.policy key) map.shape) := by
  have greater := Path.onward_firstBeyond (sorted.splits_of_order order key)
  have found := Trail.seekAfter_eq (probe map.policy key) map.shape previous
  refine ⟨?_, found⟩
  rw [found]
  exact landsBeyond_of_onward sorted distinct (fun spot => Path.whole_firstBeyond) greater

/-- The key is equal to one in the left subtree of its successor: the descent ends two levels below that node, and
what was on the stack is gone. -/
theorem seekAfter_lands_beyond_tens :
    let shape : Shape (Tag Nat) := .node .black (.node .black .nil ⟨⟨1⟩, ⟨.owned, 10⟩⟩ .nil) ⟨⟨0⟩, ⟨.owned, 20⟩⟩
      (.node .red
        (.node .black .nil ⟨⟨3⟩, ⟨.owned, 30⟩⟩ (.node .red .nil ⟨⟨5⟩, ⟨.borrowed, 47⟩⟩ .nil))
        ⟨⟨2⟩, ⟨.owned, 50⟩⟩ (.node .black .nil ⟨⟨4⟩, ⟨.owned, 60⟩⟩ .nil))
    let map : OrderedMap Nat String := { id := ⟨0⟩, policy := Policy.tens, noOverwrite := false, shape }
    Trail.seekAfter (probe map.policy 41) shape [(⟨9⟩, .left)] = (some ⟨2⟩, [(⟨0⟩, .right)]) ∧
      map.LandsBeyond 41 (some ⟨2⟩, [(⟨0⟩, .right)]) := by
  intro shape map
  have sorted : map.Sorted := by
    simp [Sorted, Precedes, map, shape, Shape.toList, Policy.tens, compareOn, compare, compareOfLessAndEq]
  have distinct : map.shape.handles.Nodup := by decide
  exact ⟨rfl, (seekAfter_lands_beyond Policy.lawful_tens.order sorted distinct 41 [(⟨9⟩, .left)]).1⟩

end OrderedMap

end KeyedStore
