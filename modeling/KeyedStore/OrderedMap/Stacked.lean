import KeyedStore.OrderedMap.Cursor
/-!
The position of a cursor by handles alone: the next entry, and a stack of its ancestors. Handles tell nothing
about the shape, so each move looks the nodes up again; a stack that was left over from another shape leads
anywhere, or to a handle that is no more.
-/
namespace KeyedStore

/-- Ancestors by their handles, nearest first, each with the side that was taken below it (`Path`). -/
abbrev Trail := List (Handle × Side)

variable {K V : Type}

namespace Shape

/-- The node with a handle, by its tag and what is on its right. -/
def named? (handle : Handle) : Shape (Tag K) → Option (Tag K × Shape (Tag K))
  | .nil => none
  | .node _ left tag right =>
    if tag.handle = handle then some (tag, right) else (left.named? handle).or (right.named? handle)

/-- The node with a handle that is relied upon to be there. -/
def named (shape : Shape (Tag K)) (handle : Handle) : Except Fault (Tag K × Shape (Tag K)) :=
  match shape.named? handle with
  | some found => .ok found
  | none => .error .deadHandle

end Shape

namespace Trail

/-- The leftmost node of a subtree (`leftmost`). -/
def leftmost (trail : Trail) : Shape (Tag K) → Option Handle × Trail
  | .nil => (none, trail)
  | .node _ .nil tag _ => (some tag.handle, trail)
  | .node _ left tag _ => leftmost ((tag.handle, .left) :: trail) left

/-- Pops up to the nearest ancestor that was left on its left side (`climb`). -/
def climb : Trail → Option Handle × Trail
  | [] => (none, [])
  | (handle, .left) :: trail => (some handle, trail)
  | (_, .right) :: trail => climb trail

/-- From a node with these ancestors to the next one in order (`successor`). -/
def successor (shape : Shape (Tag K)) (trail : Trail) (handle : Handle) : Except Fault (Option Handle × Trail) := do
  let node ← shape.named handle
  match node.2 with
  | .nil => return climb trail
  | .node .. => return leftmost ((handle, .right) :: trail) node.2

/-- The descent to the gap beyond a sought position. -/
def descend (probe : Tag K → Ordering) (trail : Trail) : Shape (Tag K) → Trail
  | .nil => trail
  | .node _ left tag right =>
    match probe tag with
    | .lt => descend probe ((tag.handle, .left) :: trail) left
    | _ => descend probe ((tag.handle, .right) :: trail) right

/-- The first node that `probe` puts strictly after the sought position (`seek_after`). What was on the stack before
is cleared. -/
def seekAfter (probe : Tag K → Ordering) (shape : Shape (Tag K)) (_ : Trail) : Option Handle × Trail :=
  climb (descend probe [] shape)

end Trail

/-- A position in an ordered map, by handles (`TreeCursor`). -/
structure StackedCursor (K : Type) where
  owner : Identity
  /-- The ancestors of `next`. -/
  path : Trail
  next : Option Handle
  /-- The key returned last. -/
  lastKey : Option (Held K) := none
  transactions : Nat
  finished : Bool := false

namespace StackedCursor

/-- Ends the traversal for good (`finish`). -/
def stop (cursor : StackedCursor K) : StackedCursor K :=
  { cursor with path := [], next := none, lastKey := none, finished := true }

/-- Where a cursor goes on that finds the map changed. -/
def resume (map : OrderedMap K V) (cursor : StackedCursor K) : Option Handle × Trail :=
  match cursor.lastKey with
  | none => Trail.leftmost [] map.shape
  | some key => Trail.seekAfter (OrderedMap.probe map.policy key.val) map.shape cursor.path

/-- The same cursor in a place of the present shape. -/
def synchronize (cursor : StackedCursor K) (map : OrderedMap K V) : StackedCursor K :=
  if cursor.transactions = map.transactions then cursor
  else { cursor with
    path := (cursor.resume map).2
    next := (cursor.resume map).1
    transactions := map.transactions }

end StackedCursor

namespace OrderedMap

/-- A cursor before the first entry (`cursor`). -/
def startStacked (map : OrderedMap K V) : StackedCursor K where
  owner := map.id
  path := (Trail.leftmost [] map.shape).2
  next := (Trail.leftmost [] map.shape).1
  transactions := map.transactions

/-- The next entry, under its handle (`step`). A cursor of another map ends, and so does one that has nothing left. -/
def advanceStacked (map : OrderedMap K V) (cursor : StackedCursor K) :
    Except Fault (Option (Handle × K × V) × StackedCursor K) :=
  if cursor.finished then .ok (none, cursor)
  else if cursor.owner ≠ map.id then .ok (none, cursor.stop)
  else
    let cursor := cursor.synchronize map
    match cursor.next with
    | none => .ok (none, cursor.stop)
    | some handle => do
      let following ← Trail.successor map.shape cursor.path handle
      let node ← map.shape.named handle
      let entry ← map.entry node.1
      return (some (handle, entry), { cursor with
        path := following.2
        next := following.1
        lastKey := some (map.policy.rememberKey node.1.key) })

end OrderedMap

end KeyedStore
