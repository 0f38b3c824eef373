import KeyedStore.OrderedMap.Basic
/-!
The ordered map as it lies in storage: a node knows its children by their handles, and the map knows its root. A
clearing goes through the tree with a stack of handles. It cuts every link that it follows, and takes a node out when
nothing hangs below it any more. Whether the links make a tree is not asked: each turn leaves a link or a node less in
storage, so there is an end to it even where they run in circles.
-/
namespace KeyedStore

variable {K V : Type}

/-- A node that names its children (`Node`). -/
structure Fork (K V : Type) where
  color : Color
  left : Option Handle
  right : Option Handle
  key : Held K
  value : Held V

namespace Fork

/-- The link that a clearing follows: the left one, and the right one when there is none on the left. -/
def onward? (fork : Fork K V) : Option (Side × Handle) :=
  match fork.left, fork.right with
  | some child, _ => some (.left, child)
  | none, some child => some (.right, child)
  | none, none => none

theorem onward?_eq_none {fork : Fork K V} : fork.onward? = none ↔ fork.left = none ∧ fork.right = none := by
  rcases fork with ⟨color, left, right, key, value⟩
  cases left <;> cases right <;> simp [onward?]

/-- The node without its link on a side. -/
def cut (fork : Fork K V) : Side → Fork K V
  | .left => { fork with left := none }
  | .right => { fork with right := none }

/-- The child on a side (`child`). -/
def child (fork : Fork K V) : Side → Option Handle
  | .left => fork.left
  | .right => fork.right

/-- The node with another child on a side (`child_mut`). -/
def withChild (fork : Fork K V) (side : Side) (child : Option Handle) : Fork K V :=
  match side with
  | .left => { fork with left := child }
  | .right => { fork with right := child }

/-- The number of links from a node. -/
def degree (fork : Fork K V) : Nat := fork.left.isSome.toNat + fork.right.isSome.toNat

theorem degree_cut {fork : Fork K V} {side : Side} {child : Handle} (linked : fork.onward? = some (side, child)) :
    (fork.cut side).degree + 1 = fork.degree := by
  rcases fork with ⟨color, left, right, key, value⟩
  cases left with
  | some other =>
    cases linked
    simp only [cut, degree, Option.isSome_none, Option.isSome_some, Bool.toNat_false, Bool.toNat_true]
    omega
  | none =>
    cases right with
    | some other =>
      cases linked
      rfl
    | none => cases linked

end Fork

/-- What one turn of a clearing does. -/
inductive Stroke where
  /-- Cuts the link to a child and goes on there. -/
  | cut (parent : Handle) (side : Side) (child : Handle)
  /-- Takes a node out and goes back. -/
  | taken (handle : Handle)
  deriving DecidableEq

/-- A clearing under way. -/
structure Clearing (K V : Type) where
  forks : Slots (Fork K V)
  /-- The nodes that were come to and are still there, latest first. -/
  stack : List Handle
  released : Nat

namespace Clearing

/-- One turn at the node on top of the stack. There is none when the stack is empty. -/
def turn (work : Clearing K V) : Except Fault (Option (Stroke × Clearing K V)) :=
  match work.stack with
  | [] => .ok none
  | handle :: above => do
    let fork ← work.forks.fetch handle
    match fork.onward? with
    | some (side, child) =>
      let forks ← work.forks.replace handle (fork.cut side)
      return some (.cut handle side child, { work with forks := forks, stack := child :: handle :: above })
    | none =>
      let (_, forks) ← work.forks.take handle
      return some (.taken handle, { forks := forks, stack := above, released := work.released + 1 })

/-- What a turn does, with what it found. -/
inductive Turned (work : Clearing K V) : Stroke → Clearing K V → Prop where
  | cut {handle child : Handle} {above : List Handle} {fork : Fork K V} {side : Side} {forks : Slots (Fork K V)}
      (top : work.stack = handle :: above) (held : work.forks.get? handle = some fork)
      (linked : fork.onward? = some (side, child)) (done : work.forks.replace handle (fork.cut side) = .ok forks) :
      Turned work (.cut handle side child) { work with forks := forks, stack := child :: handle :: above }
  | taken {handle : Handle} {above : List Handle} {fork : Fork K V} {forks : Slots (Fork K V)}
      (top : work.stack = handle :: above) (bare : fork.onward? = none)
      (done : work.forks.take handle = .ok (fork, forks)) :
      Turned work (.taken handle) { forks := forks, stack := above, released := work.released + 1 }

/-- The links and nodes in storage. -/
def weight (work : Clearing K V) : Nat :=
  work.forks.size + (work.forks.count (·.left.isSome) + work.forks.count (·.right.isSome))

theorem turn_inverts {work after : Clearing K V} {stroke : Stroke} (turned : work.turn = .ok (some (stroke, after))) :
    Turned work stroke after := by
  unfold turn at turned
  cases top : work.stack with
  | nil =>
    rw [top] at turned
    cases turned
  | cons handle above =>
    rw [top] at turned
    cases held : work.forks.get? handle with
    | none =>
      simp only [Slots.fetch, held] at turned
      cases turned
    | some fork =>
      simp only [Slots.fetch, held, bind, Except.bind] at turned
      cases linked : fork.onward? with
      | some link =>
        obtain ⟨forks, done⟩ := Slots.replace_of_get? held (fork.cut link.1)
        simp only [linked, done] at turned
        cases turned
        exact .cut top held linked done
      | none =>
        obtain ⟨forks, done⟩ := Slots.take_of_get? held
        simp only [linked, done] at turned
        cases turned
        exact .taken top linked done

/-- Each turn takes exactly one link or one node out of storage. -/
theorem Turned.weight {work after : Clearing K V} {stroke : Stroke} (turned : work.Turned stroke after) :
    after.weight + 1 = work.weight := by
  cases turned with
  | @cut handle child above fork side forks top held linked done =>
    have size := Slots.size_replace done
    have onLeft := Slots.count_replace held done (·.left.isSome)
    have onRight := Slots.count_replace held done (·.right.isSome)
    have fewer := Fork.degree_cut linked
    simp only [Fork.degree] at fewer
    simp only [Clearing.weight]
    omega
  | @taken handle above fork forks top bare done =>
    have size := Slots.size_take done
    have onLeft := Slots.count_take done (·.left.isSome)
    have onRight := Slots.count_take done (·.right.isSome)
    obtain ⟨noLeft, noRight⟩ := Fork.onward?_eq_none.mp bare
    simp only [noLeft, noRight, Option.isSome_none, Bool.toNat_false] at onLeft onRight
    simp only [Clearing.weight]
    omega

/-- Turn after turn until the stack is empty, with what they did. -/
def finish (work : Clearing K V) : Except Fault (List Stroke × Clearing K V) :=
  match _ : work.turn with
  | .error fault => .error fault
  | .ok none => .ok ([], work)
  | .ok (some (stroke, next)) => do
    let (strokes, last) ← next.finish
    return (stroke :: strokes, last)
termination_by work.weight
decreasing_by
  rename_i turned
  have lighter := (turn_inverts turned).weight
  omega

end Clearing

/-- An ordered map of nodes in storage (`TreeMap`). -/
structure RootedMap (K V : Type) where
  id : Identity
  policy : Policy K V
  noOverwrite : Bool
  root : Option Handle := none
  forks : Slots (Fork K V) := .empty
  /-- Counts the changes of the tree. -/
  transactions : Nat := 0

namespace RootedMap

/-- A clearing begins with the root on the stack. -/
def opening (map : RootedMap K V) : Clearing K V where
  forks := map.forks
  stack := map.root.toList
  released := 0

/-- Forgets the root, releases what can be reached from it, and says how many nodes there were (`destroy`). -/
def clear (map : RootedMap K V) : Except Fault (Nat × RootedMap K V) := do
  let (_, work) ← map.opening.finish
  return (work.released, { map with
    root := none
    forks := work.forks
    transactions := if work.released = 0 then map.transactions else map.transactions + 1 })

end RootedMap

end KeyedStore
