import Mathlib.Data.List.Nodup
import KeyedStore.OrderedMap.Stacked
import KeyedStore.Proofs.Shape.Search
/-!
A stack of handles as the ancestors of a spot. Where each node has a handle of its own, there is one way down to
the node with a given handle; the stack of a spot is that way, upwards, and every move of the stack is the move of
the spot.
-/
namespace KeyedStore

variable {K : Type}

/-- The ancestors of a position by their handles. -/
def Path.trail (path : Path (Tag K)) : Trail := path.map fun crumb => (crumb.label.handle, crumb.side)

/-- A spot by the handles of its node and of its ancestors. -/
def Spot.place : Option (Spot (Tag K)) → Option Handle × Trail
  | none => (none, [])
  | some spot => (some spot.label.handle, spot.path.trail)

namespace Shape

/-- The handles from left to right. -/
def handles (shape : Shape (Tag K)) : List Handle := shape.toList.map (·.handle)

@[simp] theorem handles_nil : (nil : Shape (Tag K)).handles = [] := rfl

@[simp] theorem handles_node (color : Color) (left : Shape (Tag K)) (tag : Tag K) (right : Shape (Tag K)) :
    (node color left tag right).handles = left.handles ++ tag.handle :: right.handles := List.map_append

/-- The way down from the root to the node with a handle: the handle of each node above it, with the side that is
taken there. -/
inductive Route (target : Handle) : Shape (Tag K) → List (Handle × Side) → Prop where
  | here {color : Color} {left right : Shape (Tag K)} {tag : Tag K} (found : tag.handle = target) :
      Route target (node color left tag right) []
  | left {color : Color} {left right : Shape (Tag K)} {tag : Tag K} {route : List (Handle × Side)}
      (below : Route target left route) : Route target (node color left tag right) ((tag.handle, .left) :: route)
  | right {color : Color} {left right : Shape (Tag K)} {tag : Tag K} {route : List (Handle × Side)}
      (below : Route target right route) : Route target (node color left tag right) ((tag.handle, .right) :: route)

namespace Route

variable {target : Handle} {shape : Shape (Tag K)} {route other : List (Handle × Side)}

theorem mem_handles (way : Route target shape route) : target ∈ shape.handles := by
  induction way with
  | here found => simp [found]
  | left below ih => simp [ih]
  | right below ih => simp [ih]

theorem above_mem_handles (way : Route target shape route) : ∀ step ∈ route, step.1 ∈ shape.handles := by
  induction way with
  | here found => simp
  | left below ih => simpa using fun handle side member => .inl (ih (handle, side) member)
  | right below ih => simpa using fun handle side member => .inr (.inr (ih (handle, side) member))

/-- Where no handle is there twice, no two ways lead to one. -/
theorem unique (distinct : shape.handles.Nodup) (way : Route target shape route)
    (again : Route target shape other) : route = other := by
  induction way generalizing other with
  | @here color left right tag found =>
    rw [handles_node, List.nodup_middle, List.nodup_cons, List.mem_append] at distinct
    subst found
    cases again with
    | here _ => rfl
    | left below => exact absurd (.inl below.mem_handles) distinct.1
    | right below => exact absurd (.inr below.mem_handles) distinct.1
  | @left color left right tag route below ih =>
    rw [handles_node, List.nodup_middle, List.nodup_cons, List.mem_append, List.nodup_append'] at distinct
    obtain ⟨fresh, onLeft, _, apart⟩ := distinct
    cases again with
    | here found => exact absurd (.inl (found ▸ below.mem_handles)) fresh
    | left another => rw [ih onLeft another]
    | right another => exact absurd another.mem_handles (apart below.mem_handles)
  | @right color left right tag route below ih =>
    rw [handles_node, List.nodup_middle, List.nodup_cons, List.mem_append, List.nodup_append'] at distinct
    obtain ⟨fresh, _, onRight, apart⟩ := distinct
    cases again with
    | here found => exact absurd (.inr (found ▸ below.mem_handles)) fresh
    | left another => exact absurd below.mem_handles (apart another.mem_handles)
    | right another => rw [ih onRight another]

end Route

/-- The stack is the one way from the root to the node, upwards; where there is no node, it is empty. -/
structure Located (shape : Shape (Tag K)) (found : Option Handle × Trail) : Prop where
  route : ∀ handle, found.1 = some handle → ∀ route, shape.Route handle route ↔ route = found.2.reverse
  empty : found.1 = none → found.2 = []

/-- All handles of a place are handles of the shape. -/
theorem Located.mem_handles {shape : Shape (Tag K)} {found : Option Handle × Trail} {handle : Handle}
    (located : shape.Located found) (named : found.1 = some handle ∨ handle ∈ found.2.map Prod.fst) :
    handle ∈ shape.handles := by
  cases reached : found.1 with
  | none => simp [reached, located.empty reached] at named
  | some target =>
    have way : shape.Route target found.2.reverse := (located.route target reached _).mpr rfl
    rcases named with same | above
    · obtain rfl := Option.some.inj (reached.symm.trans same)
      exact way.mem_handles
    · obtain ⟨step, member, rfl⟩ := List.mem_map.mp above
      exact way.above_mem_handles step (List.mem_reverse.mpr member)

theorem named?_of_notMem {handle : Handle} {shape : Shape (Tag K)} (absent : handle ∉ shape.handles) :
    shape.named? handle = none := by
  induction shape with
  | nil => rfl
  | node color left tag right ihLeft ihRight =>
    simp only [handles_node, List.mem_append, List.mem_cons, not_or] at absent
    rw [named?, if_neg (Ne.symm absent.2.1), ihLeft absent.1, ihRight absent.2.2, Option.or_none]

end Shape

namespace Path

variable {path : Path (Tag K)} {inside : Shape (Tag K)} {handle : Handle}

theorem handles_plug (path : Path (Tag K)) (inside : Shape (Tag K)) :
    (path.plug inside).handles = path.before.map (·.handle) ++ inside.handles ++ path.after.map (·.handle) := by
  rw [Shape.handles, toList_plug, List.map_append, List.map_append, Shape.handles]

/-- The way down to a subtree goes on inside it. -/
theorem route_plug {route : List (Handle × Side)} (below : inside.Route handle route) :
    (path.plug inside).Route handle (path.trail.reverse ++ route) := by
  induction path generalizing inside route with
  | nil => exact below
  | cons crumb path ih =>
    have inFilled : (crumb.fill inside).Route handle ((crumb.label.handle, crumb.side) :: route) := by
      cases crumb with
      | mk color tag side other =>
        cases side with
        | left => exact .left below
        | right => exact .right below
    simpa [trail, plug] using ih inFilled

/-- A node that is not beside the path is looked up in the subtree. -/
theorem named?_plug (apart : handle ∉ path.before.map (·.handle) ∧ handle ∉ path.after.map (·.handle)) :
    (path.plug inside).named? handle = inside.named? handle := by
  induction path generalizing inside with
  | nil => rfl
  | cons crumb path ih =>
    simp only [before, after, List.map_append, List.mem_append, not_or] at apart
    obtain ⟨⟨before, onCrumb⟩, onCrumbToo, after⟩ := apart
    rw [plug, ih ⟨before, after⟩]
    cases crumb with
    | mk color tag side other =>
      cases side with
      | left =>
        simp only [Crumb.after, List.map_cons, List.mem_cons, not_or] at onCrumbToo
        simp only [Crumb.fill, Shape.branch, Shape.named?, if_neg (Ne.symm onCrumbToo.1),
          Shape.named?_of_notMem onCrumbToo.2, Option.or_none]
      | right =>
        simp only [Crumb.before, List.map_append, List.map_cons, List.map_nil, List.mem_append,
          List.mem_singleton, not_or] at onCrumb
        simp only [Crumb.fill, Shape.branch, Shape.named?, if_neg (Ne.symm onCrumb.2),
          Shape.named?_of_notMem onCrumb.1, Option.none_or]

end Path

namespace Spot

variable {spot : Spot (Tag K)}

theorem place_fst (found : Option (Spot (Tag K))) : (place found).1 = ((onward found).map (·.handle)).head? := by
  cases found <;> rfl

/-- A node is found again by its handle. -/
theorem named_whole (distinct : spot.whole.handles.Nodup) :
    spot.whole.named spot.label.handle = .ok (spot.label, spot.right) := by
  have apart : spot.label.handle ∉ spot.path.before.map (·.handle) ∧
      spot.label.handle ∉ spot.path.after.map (·.handle) := by
    rw [whole, Path.handles_plug, inside, Shape.handles_node] at distinct
    grind
  rw [Shape.named, whole, Path.named?_plug apart, inside, Shape.named?, if_pos rfl]

/-- The stack of a spot is the one way from the root to its node. -/
theorem route_iff (distinct : spot.whole.handles.Nodup) {route : List (Handle × Side)} :
    spot.whole.Route spot.label.handle route ↔ route = spot.path.trail.reverse := by
  have way : spot.whole.Route spot.label.handle (spot.path.trail.reverse ++ []) :=
    Path.route_plug (.here rfl)
  rw [List.append_nil] at way
  constructor
  · exact fun again => again.unique distinct way
  · rintro rfl
    exact way

theorem located {shape : Shape (Tag K)} (distinct : shape.handles.Nodup) {found : Option (Spot (Tag K))}
    (whole : ∀ spot, found = some spot → spot.whole = shape) : shape.Located (place found) := by
  cases found with
  | none => exact ⟨nofun, fun _ => rfl⟩
  | some spot =>
    obtain rfl := whole spot rfl
    refine ⟨fun handle reached route => ?_, nofun⟩
    obtain rfl : spot.label.handle = handle := Option.some.inj reached
    exact route_iff distinct

end Spot

namespace Trail

variable {path : Path (Tag K)} {shape : Shape (Tag K)}

theorem leftmost_trail (path : Path (Tag K)) (filled : shape ≠ .nil) :
    leftmost path.trail shape = Spot.place (path.firstSpot shape) := by
  induction shape generalizing path with
  | nil => exact absurd rfl filled
  | node color left tag right ihLeft _ =>
    cases left with
    | nil => rfl
    | node inner below label beside =>
      have deeper := ihLeft (⟨color, tag, .left, right⟩ :: path) nofun
      exact deeper

theorem leftmost_root (shape : Shape (Tag K)) : leftmost [] shape = Spot.place (Path.firstSpot [] shape) := by
  cases shape with
  | nil => rfl
  | node color left tag right => exact leftmost_trail [] nofun

theorem climb_trail (path : Path (Tag K)) (inside : Shape (Tag K)) :
    climb path.trail = Spot.place (path.ascend inside) := by
  fun_induction Path.ascend path inside with
  | case1 => rfl
  | case2 inside crumb path side => simp [Path.trail, side, climb, Spot.place]
  | case3 inside crumb path side ih => simpa [Path.trail, side, climb] using ih

theorem descend_trail (probe : Tag K → Ordering) (path : Path (Tag K)) (shape : Shape (Tag K)) :
    descend probe path.trail shape = (Path.gapBeyond probe path shape).trail := by
  fun_induction Path.gapBeyond probe path shape with
  | case1 => rfl
  | case2 path color left tag right found ih =>
    rw [descend, found]
    exact ih
  | case3 path color left tag right found ih =>
    rw [descend]
    cases answer : probe tag with
    | lt => exact absurd answer found
    | eq => exact ih
    | gt => exact ih

/-- Whatever the stack held, it becomes that of the first node beyond. -/
theorem seekAfter_eq (probe : Tag K → Ordering) (shape : Shape (Tag K)) (previous : Trail) :
    seekAfter probe shape previous = Spot.place (Path.firstBeyond probe shape) := by
  have gap : descend probe [] shape = (Path.gapBeyond probe [] shape).trail := descend_trail probe [] shape
  rw [seekAfter, gap, climb_trail _ .nil, Path.firstBeyond]

/-- The stack of a spot becomes that of the next one. -/
theorem successor_eq {spot : Spot (Tag K)} (distinct : spot.whole.handles.Nodup) :
    successor spot.whole spot.path.trail spot.label.handle = .ok (Spot.place spot.next?) := by
  rw [successor, Spot.named_whole distinct]
  unfold Spot.next?
  cases behind : spot.right with
  | nil => exact congrArg Except.ok (climb_trail spot.path spot.inside)
  | node color left tag right =>
    exact congrArg Except.ok
      (leftmost_trail (⟨spot.color, spot.label, .right, spot.left⟩ :: spot.path) nofun)

end Trail

end KeyedStore
