import KeyedStore.OrderedMap.Rooted
import KeyedStore.OrderedMap.Stacked
/-!
The operations of the ordered map on nodes in storage. A search goes down along the links and stacks up the ancestors
that it comes through; a repair goes back up along that stack and sets links and colours as it goes. What the program
relies on without asking is asked here: that a handle leads to a node, that a rotation finds the child it raises and a
repair the sibling it pays from, that an ancestor is looked up within the path, and that a walk comes to an end before
it has gone on for longer than there are nodes. Where this does not hold the answer is a fault.
-/
namespace KeyedStore

namespace Trail

/-- The ancestor at a depth, the root being at depth zero. -/
def stepAt (trail : Trail) (depth : Nat) : Except Fault (Handle × Side) :=
  match trail.reverse[depth]? with
  | some step => .ok step
  | none => .error .offPath

/-- Puts another ancestor at a depth. -/
def setStep (trail : Trail) (depth : Nat) (step : Handle × Side) : Except Fault Trail :=
  if depth < trail.length then .ok (trail.reverse.set depth step).reverse else .error .offPath

/-- The depth of the nearest ancestor. -/
def lastDepth (trail : Trail) : Except Fault Nat :=
  match trail.length with
  | 0 => .error .emptyPath
  | depth + 1 => .ok depth

/-- Where the nearest ancestor hangs: below the one before it, or nowhere when it is the root. -/
def slotOfLast (trail : Trail) : Except Fault (Option (Handle × Side)) :=
  match trail.length with
  | depth + 2 => do return some (← trail.stepAt depth)
  | _ => .ok none

end Trail

namespace RootedMap

variable {K V : Type}

/-- The number of entries (`len`). -/
def size (map : RootedMap K V) : Nat := map.forks.size

/-! ### Links and colours -/

/-- A node is red (`is_red`). A missing one is not. -/
def isRed (map : RootedMap K V) : Option Handle → Except Fault Bool
  | none => .ok false
  | some handle => do
    let fork ← map.forks.fetch handle
    return fork.color = .red

/-- Changes the node behind a handle. -/
def refork (map : RootedMap K V) (handle : Handle) (change : Fork K V → Fork K V) : Except Fault (RootedMap K V) := do
  let fork ← map.forks.fetch handle
  let forks ← map.forks.replace handle (change fork)
  return { map with forks := forks }

/-- Colours a node (`paint`). -/
def paint (map : RootedMap K V) (handle : Handle) (color : Color) : Except Fault (RootedMap K V) :=
  map.refork handle ({ · with color := color })

/-- Colours a node if there is one. -/
def paintAny (map : RootedMap K V) (node : Option Handle) (color : Color) : Except Fault (RootedMap K V) :=
  match node with
  | none => .ok map
  | some handle => map.paint handle color

/-- Lets a slot, a side of a node or the root, lead to a child (`link`). -/
def link (map : RootedMap K V) (slot : Option (Handle × Side)) (child : Option Handle) :
    Except Fault (RootedMap K V) :=
  match slot with
  | none => .ok { map with root := child }
  | some (parent, side) => map.refork parent (·.withChild side child)

/-- Lowers the node in a slot towards a side and raises its child on the other side into the slot (`rotate`). -/
def rotate (map : RootedMap K V) (slot : Option (Handle × Side)) (top : Handle) (side : Side) :
    Except Fault (Handle × RootedMap K V) := do
  let upper ← map.forks.fetch top
  match upper.child side.other with
  | none => .error .missingPivot
  | some pivot =>
    let lower ← map.forks.fetch pivot
    let lowered ← map.refork top (·.withChild side.other (lower.child side))
    let raised ← lowered.refork pivot (·.withChild side (some top))
    let linked ← raised.link slot (some pivot)
    return (pivot, linked)

/-! ### Searching -/

/-- One node of the descent for a key. It ends at a node that compares equal. -/
def compareAt (map : RootedMap K V) (key : K) (state : Option Handle × Trail) (handle : Handle) :
    Except Fault (Option Handle × Option Handle × Trail) := do
  let fork ← map.forks.fetch handle
  match map.policy.compare key fork.key.val with
  | .lt => return (fork.left, none, (handle, .left) :: state.2)
  | .gt => return (fork.right, none, (handle, .right) :: state.2)
  | .eq => return (none, some handle, state.2)

/-- The descent for a key: the node that it meets, and its ancestors or those of the gap (`locate`). -/
def descend (map : RootedMap K V) (key : K) : Except Fault (Option Handle × Trail) :=
  wander (map.compareAt key) map.size map.root (none, [])

/-- The key and the value of a node. -/
def entry (map : RootedMap K V) (handle : Handle) : Except Fault (K × V) := do
  let fork ← map.forks.fetch handle
  return (fork.key.val, fork.value.val)

/-- The stored key and the value that a key finds (`get_key_value`). -/
def lookupEntry (map : RootedMap K V) (key : K) : Except Fault (Option (K × V)) := do
  match ← map.descend key with
  | (none, _) => return none
  | (some handle, _) => return some (← map.entry handle)

/-- The value that a key finds (`get`). -/
def lookup (map : RootedMap K V) (key : K) : Except Fault (Option V) := do
  return (← map.lookupEntry key).map (·.2)

/-- One node of the way to an end. -/
def keepTo (map : RootedMap K V) (side : Side) (_ handle : Handle) : Except Fault (Option Handle × Handle) := do
  let fork ← map.forks.fetch handle
  return (fork.child side, handle)

/-- The entry at one end (`extreme`). -/
def extreme (map : RootedMap K V) (side : Side) : Except Fault (Option (K × V)) :=
  match map.root with
  | none => .ok none
  | some root => do
    let handle ← wander (map.keepTo side) map.size (some root) root
    return some (← map.entry handle)

/-- The key at the root and its colour (`root`). -/
def rootKey (map : RootedMap K V) : Except Fault (Option (K × Color)) :=
  match map.root with
  | none => .ok none
  | some handle => do
    let fork ← map.forks.fetch handle
    return some (fork.key.val, fork.color)

/-! ### Adding an entry -/

/-- Restores the colour laws after a red node was hung below the ancestors (`insert_fixup`). -/
def mendRed (map : RootedMap K V) : Trail → Except Fault (RootedMap K V)
  | [] => map.paintAny map.root .black
  | (parent, side) :: above => do
    if ← map.isRed (some parent) then
      match above with
      | [] => map.paintAny map.root .black
      | (grand, onSide) :: trail =>
        let fork ← map.forks.fetch grand
        let uncle := fork.child onSide.other
        if ← map.isRed uncle then
          let map ← map.paint parent .black
          let map ← map.paintAny uncle .black
          let map ← map.paint grand .red
          map.mendRed trail
        else
          let (top, map) ←
            if side = onSide then pure (parent, map) else map.rotate (some (grand, onSide)) parent onSide
          let (_, map) ← map.rotate trail.head? grand onSide.other
          let map ← map.paint top .black
          let map ← map.paint grand .red
          map.paintAny map.root .black
    else map.paintAny map.root .black

/-- Adds an entry, or replaces the value of the entry that the key finds (`insert`). -/
def insert (map : RootedMap K V) (key : Held K) (value : Held V) :
    Except Fault (Except AddError Addition × RootedMap K V) := do
  match ← map.descend key.val with
  | (some handle, _) =>
    if map.noOverwrite then return (.error .keyExists, map)
    let updated ← map.refork handle ({ · with value := map.policy.secureValue value })
    return (.ok .updated, updated)
  | (none, trail) =>
    if map.forks.isFull then return (.error .noRoom, map)
    let forks := map.forks.insert ⟨.red, none, none, map.policy.secureKey key, map.policy.secureValue value⟩
    let linked ← link { map with forks := forks } trail.head? (some map.forks.next)
    let mended ← mendRed { linked with transactions := linked.transactions + 1 } trail
    return (.ok .inserted, mended)

/-! ### Taking an entry out -/

/-- One node of the way down to the leftmost one: the node, with the ancestors below which it hangs. -/
def keepLeft (map : RootedMap K V) (state : Handle × Trail) (handle : Handle) :
    Except Fault (Option Handle × Handle × Trail) := do
  let fork ← map.forks.fetch handle
  match fork.left with
  | some left => return (some left, left, (handle, .left) :: state.2)
  | none => return (none, handle, state.2)

/-- The leftmost node below one, with its ancestors. -/
def lowest (map : RootedMap K V) (handle : Handle) (trail : Trail) : Except Fault (Handle × Trail) :=
  wander map.keepLeft map.size (some handle) (handle, trail)

/-- A place that a node was taken out of: its ancestors, the colour that is missing there, and what moved in. -/
structure Gap where
  trail : Trail
  removed : Color
  filler : Option Handle

/-- Takes a node out of its place (`remove`). With two children its successor is taken out in its stead, and put in the
place of the node. -/
def vacate (map : RootedMap K V) (trail : Trail) (target : Handle) : Except Fault (Gap × RootedMap K V) := do
  let fork ← map.forks.fetch target
  match fork.left, fork.right with
  | some _, some right =>
    let (next, below) ← map.lowest right ((target, .right) :: trail)
    let successor ← map.forks.fetch next
    let detached ← map.link below.head? successor.right
    let emptied ← detached.forks.fetch target
    let moved ← detached.refork next
      ({ · with left := emptied.left, right := emptied.right, color := emptied.color })
    let placed ← moved.link trail.head? (some next)
    return (⟨← below.setStep trail.length (next, .right), successor.color, successor.right⟩, placed)
  | left, right =>
    let filler := left.or right
    return (⟨trail, fork.color, filler⟩, ← map.link trail.head? filler)

/-- The sibling of a position below a node, which is relied upon to be there. -/
def sibling (map : RootedMap K V) (parent : Handle) (side : Side) : Except Fault Handle := do
  let fork ← map.forks.fetch parent
  match fork.child side.other with
  | some handle => return handle
  | none => .error .missingSibling

/-- Rotates a red sibling over the parent. The position is then one level lower, below the same parent, with another
sibling. -/
def straighten (map : RootedMap K V) (trail : Trail) (parent : Handle) (side : Side) (sibling : Handle) :
    Except Fault (Trail × Handle × RootedMap K V) := do
  if ← map.isRed (some sibling) then
    let map ← map.paint sibling .black
    let map ← map.paint parent .red
    let (_, map) ← map.rotate (← trail.slotOfLast) parent side
    let upper ← trail.setStep (← trail.lastDepth) (sibling, side)
    return ((parent, side) :: upper, ← map.sibling parent side, map)
  else
    return (trail, sibling, map)

/-- Brings the red child of the sibling to the far side: unless it is there already, it is rotated over the sibling. -/
def bend (map : RootedMap K V) (parent : Handle) (side : Side) (sibling : Handle) (near far : Option Handle) :
    Except Fault (Handle × RootedMap K V) := do
  if ← map.isRed far then return (sibling, map)
  else
    let map ← map.paintAny near .black
    let map ← map.paint sibling .red
    map.rotate (some (parent, side.other)) sibling side.other

/-- Pays for the missing black node from a sibling with a red child on the far side. -/
def borrow (map : RootedMap K V) (trail : Trail) (parent : Handle) (side : Side) (sibling : Handle) :
    Except Fault (RootedMap K V) := do
  let upper ← map.forks.fetch parent
  let map ← map.paint sibling upper.color
  let map ← map.paint parent .black
  let lower ← map.forks.fetch sibling
  let map ← map.paintAny (lower.child side.other) .black
  let (_, map) ← map.rotate (← trail.slotOfLast) parent side
  return map

/-- Restores the colour laws where a black node is missing above the node that moved in (`remove_fixup`). The loop is
given up after a number of turns. -/
def repay (limit : Nat) (map : RootedMap K V) (trail : Trail) (filler : Option Handle) :
    Except Fault (RootedMap K V) := do
  if ← map.isRed filler then map.paintAny filler .black
  else
    match limit, trail with
    | _, [] => map.paintAny filler .black
    | 0, _ :: _ => .error .endlessWalk
    | limit + 1, (parent, side) :: _ =>
      let sibling ← map.sibling parent side
      let (trail, sibling, map) ← map.straighten trail parent side sibling
      let fork ← map.forks.fetch sibling
      let near := fork.child side
      let far := fork.child side.other
      if (← map.isRed near) || (← map.isRed far) then
        let (sibling, map) ← map.bend parent side sibling near far
        let map ← map.borrow trail parent side sibling
        map.paintAny map.root .black
      else
        let map ← map.paint sibling .red
        repay limit map trail.tail (some parent)

/-- Closes the gap that a node left. Only where a black one is missing is there anything to repair. -/
def closeGap (map : RootedMap K V) (gap : Gap) : Except Fault (RootedMap K V) :=
  match gap.removed with
  | .red => .ok map
  | .black => repay gap.trail.length map gap.trail gap.filler

/-- Takes out the entry that the key finds and hands back its value as it was held (`remove`). -/
def remove (map : RootedMap K V) (key : K) : Except Fault (Option (Held V) × RootedMap K V) := do
  match ← map.descend key with
  | (none, _) => return (none, map)
  | (some target, trail) =>
    let (gap, vacated) ← map.vacate trail target
    let closed ← closeGap { vacated with transactions := vacated.transactions + 1 } gap
    let (fork, forks) ← closed.forks.take target
    return (some fork.value, { closed with forks := forks })

/-! ### Going on in order -/

/-- The leftmost node below a link, with its ancestors (`leftmost`). -/
def leftmost (map : RootedMap K V) (start : Option Handle) (trail : Trail) : Except Fault (Option Handle × Trail) :=
  match start with
  | none => .ok (none, trail)
  | some handle => do
    let (handle, trail) ← map.lowest handle trail
    return (some handle, trail)

/-- From a node with these ancestors to the next one in order (`successor`). -/
def successor (map : RootedMap K V) (trail : Trail) (handle : Handle) : Except Fault (Option Handle × Trail) := do
  let fork ← map.forks.fetch handle
  match fork.right with
  | some right => map.leftmost (some right) ((handle, .right) :: trail)
  | none => return Trail.climb trail

/-- One node of the descent to the gap beyond a key. -/
def passAt (map : RootedMap K V) (key : K) (trail : Trail) (handle : Handle) :
    Except Fault (Option Handle × Trail) := do
  let fork ← map.forks.fetch handle
  match map.policy.compare key fork.key.val with
  | .lt => return (fork.left, (handle, .left) :: trail)
  | _ => return (fork.right, (handle, .right) :: trail)

/-- The first node with a greater key, with its ancestors (`seek_after`). -/
def seekAfter (map : RootedMap K V) (key : K) : Except Fault (Option Handle × Trail) := do
  let trail ← wander (map.passAt key) map.size map.root []
  return trail.climb

/-- A cursor before the first entry (`cursor`). -/
def start (map : RootedMap K V) : Except Fault (StackedCursor K) := do
  let (next, path) ← map.leftmost map.root []
  return { owner := map.id, path, next, transactions := map.transactions }

/-- Where a cursor goes on that finds the map changed. -/
def resume (map : RootedMap K V) (cursor : StackedCursor K) : Except Fault (Option Handle × Trail) :=
  match cursor.lastKey with
  | none => map.leftmost map.root []
  | some key => map.seekAfter key.val

/-- The same cursor in a place of the present tree. -/
def synchronize (map : RootedMap K V) (cursor : StackedCursor K) : Except Fault (StackedCursor K) := do
  if cursor.transactions = map.transactions then return cursor
  let (next, path) ← map.resume cursor
  return { cursor with path, next, transactions := map.transactions }

/-- The next entry (`step`). A cursor of another map ends, and so does one that has nothing left. -/
def advance (map : RootedMap K V) (cursor : StackedCursor K) :
    Except Fault (Option (K × V) × StackedCursor K) :=
  if cursor.finished then .ok (none, cursor)
  else if cursor.owner ≠ map.id then .ok (none, cursor.stop)
  else do
    let cursor ← map.synchronize cursor
    match cursor.next with
    | none => return (none, cursor.stop)
    | some handle =>
      let (next, path) ← map.successor cursor.path handle
      let fork ← map.forks.fetch handle
      return (some (fork.key.val, fork.value.val), { cursor with
        path, next, lastKey := some (map.policy.rememberKey fork.key) })

/-! ### Checking -/

/-- The number of black nodes on the way down to a missing node, with the number of nodes below the link
(`black_height`); or the first colour law found broken. The recursion is given up below a depth. -/
def blackHeight (map : RootedMap K V) : Nat → Option Handle → Except Fault (Except Defect (Nat × Nat))
  | _, none => .ok (.ok (1, 0))
  | 0, some _ => .error .endlessWalk
  | depth + 1, some handle => do
    let fork ← map.forks.fetch handle
    if fork.color = .red then
      if (← map.isRed fork.left) || (← map.isRed fork.right) then return .error .redEdge
    match ← map.blackHeight depth fork.left with
    | .error defect => return .error defect
    | .ok (onLeft, fewer) =>
      match ← map.blackHeight depth fork.right with
      | .error defect => return .error defect
      | .ok (onRight, more) =>
        if onLeft ≠ onRight then return .error .unevenHeight
        return .ok (onLeft + if fork.color = .black then 1 else 0, fewer + more + 1)

/-- What is known on the way through the keys: whether they have been in order so far, and the last of them, with the
ancestors of the node that is next. -/
structure Scan (K : Type) where
  ordered : Bool := true
  last : Option (Held K) := none
  trail : Trail

/-- One node of the way through the keys. It ends at a key that does not come after the one before it. -/
def scanAt (map : RootedMap K V) (scan : Scan K) (handle : Handle) : Except Fault (Option Handle × Scan K) := do
  let fork ← map.forks.fetch handle
  if scan.last.any fun last => map.policy.compare last.val fork.key.val ≠ .lt then
    return (none, { scan with ordered := false })
  let (next, trail) ← map.successor scan.trail handle
  return (next, { scan with last := some fork.key, trail })

/-- The first law found broken, or the black height (`check_invariants`). -/
def check (map : RootedMap K V) : Except Fault (Except Defect Nat) := do
  if ← map.isRed map.root then return .error .redRoot
  match ← map.blackHeight map.size map.root with
  | .error defect => return .error defect
  | .ok (height, reached) =>
    if reached ≠ map.size then return .error .miscount
    let (first, trail) ← map.leftmost map.root []
    let scan ← wander map.scanAt map.size first { trail }
    if scan.ordered then return .ok height
    return .error .disorder

end RootedMap

end KeyedStore
