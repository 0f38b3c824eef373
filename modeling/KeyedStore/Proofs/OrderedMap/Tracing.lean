import KeyedStore.Proofs.OrderedMap.Linking
import KeyedStore.Proofs.OrderedMap.Inspection
/-!
What is read from a map in storage. Every walk along its links comes to the node that the same walk through the shape
comes to, with the ancestors of that node on its stack; and none goes on for longer than there are nodes, since each
step leads from a tree into one that is smaller. A handle that leads nowhere in the shape leads nowhere in storage.
-/
namespace KeyedStore

variable {K V : Type}

namespace Spans

variable {rooted : RootedMap K V} {start : Option Handle} {shape : Shape (Tag K)} {limit : Nat}

/-! ### Walks down a tree -/

/-- The descent for a key ends at the node that it meets, below the ancestors of the position. -/
theorem descend_eq (spans : Spans rooted.forks start shape) (enough : shape.size ≤ limit) (key : K)
    (path : Path (Tag K)) : wander (rooted.compareAt key) limit start (none, path.trail) =
      .ok ((Path.search (OrderedMap.probe rooted.policy key) path shape).2.top?,
        (Path.search (OrderedMap.probe rooted.policy key) path shape).1.trail) := by
  induction spans generalizing path limit with
  | nil => exact wander_none _ _ _
  | @node handle fork left right held onLeft onRight ihLeft ihRight =>
    rw [Shape.size] at enough
    obtain ⟨limit, rfl⟩ := Nat.exists_eq_add_one.mpr (Nat.zero_lt_of_lt enough)
    have fetched := Slots.fetch_of_get? held
    rw [Path.search, OrderedMap.probe]
    cases answer : rooted.policy.compare key fork.key.val with
    | lt =>
      have acted : rooted.compareAt key (none, path.trail) handle =
          .ok (fork.left, none, (handle, .left) :: path.trail) := by
        simp only [RootedMap.compareAt, fetched, answer, bind, Except.bind, pure, Except.pure]
      rw [wander_step acted]
      exact ihLeft (by omega) (⟨fork.color, ⟨handle, fork.key⟩, .left, right⟩ :: path)
    | gt =>
      have acted : rooted.compareAt key (none, path.trail) handle =
          .ok (fork.right, none, (handle, .right) :: path.trail) := by
        simp only [RootedMap.compareAt, fetched, answer, bind, Except.bind, pure, Except.pure]
      rw [wander_step acted]
      exact ihRight (by omega) (⟨fork.color, ⟨handle, fork.key⟩, .right, left⟩ :: path)
    | eq =>
      have acted : rooted.compareAt key (none, path.trail) handle = .ok (none, some handle, path.trail) := by
        simp only [RootedMap.compareAt, fetched, answer, bind, Except.bind, pure, Except.pure]
      rw [wander_step acted]
      exact wander_none _ _ _

/-- The descent to the gap beyond a key stacks up the ancestors of the gap. -/
theorem pass_eq (spans : Spans rooted.forks start shape) (enough : shape.size ≤ limit) (key : K) (trail : Trail) :
    wander (rooted.passAt key) limit start trail =
      .ok (Trail.descend (OrderedMap.probe rooted.policy key) trail shape) := by
  induction spans generalizing trail limit with
  | nil => exact wander_none _ _ _
  | @node handle fork left right held onLeft onRight ihLeft ihRight =>
    rw [Shape.size] at enough
    obtain ⟨limit, rfl⟩ := Nat.exists_eq_add_one.mpr (Nat.zero_lt_of_lt enough)
    have fetched := Slots.fetch_of_get? held
    rw [Trail.descend, OrderedMap.probe]
    by_cases before : rooted.policy.compare key fork.key.val = .lt
    · have acted : rooted.passAt key trail handle = .ok (fork.left, (handle, .left) :: trail) := by
        simp only [RootedMap.passAt, fetched, before, bind, Except.bind, pure, Except.pure]
      rw [wander_step acted, before]
      exact ihLeft (by omega) _
    · have acted : rooted.passAt key trail handle = .ok (fork.right, (handle, .right) :: trail) := by
        simp only [RootedMap.passAt, fetched, bind, Except.bind, pure, Except.pure]
      rw [wander_step acted]
      cases answer : rooted.policy.compare key fork.key.val with
      | lt => exact absurd answer before
      | eq => exact ihRight (by omega) _
      | gt => exact ihRight (by omega) _

/-- The way to an end comes to the outermost node there, if it comes to any. -/
theorem keepTo_eq (spans : Spans rooted.forks start shape) (enough : shape.size ≤ limit) (side : Side)
    (last : Handle) : wander (rooted.keepTo side) limit start last =
      .ok (((side.near shape.first? shape.last?).map (·.handle)).getD last) := by
  induction spans generalizing last limit with
  | nil => cases side <;> exact wander_none _ _ _
  | @node handle fork left right held onLeft onRight ihLeft ihRight =>
    rw [Shape.size] at enough
    obtain ⟨limit, rfl⟩ := Nat.exists_eq_add_one.mpr (Nat.zero_lt_of_lt enough)
    have acted : rooted.keepTo side last handle = .ok (fork.child side, handle) := by
      simp only [RootedMap.keepTo, Slots.fetch_of_get? held, bind, Except.bind, pure, Except.pure]
    rw [wander_step acted]
    cases side with
    | left =>
      apply (ihLeft (by omega) handle).trans
      cases first : left.first? <;> simp [Side.near, Shape.first?, first]
    | right =>
      apply (ihRight (by omega) handle).trans
      cases last : right.last? <;> simp [Side.near, Shape.last?, last]

theorem lowest_eq {handle : Handle} (spans : Spans rooted.forks (some handle) shape) (enough : shape.size ≤ limit)
    (trail : Trail) : ∃ next below, wander rooted.keepLeft limit (some handle) (handle, trail) = .ok (next, below) ∧
      Trail.leftmost trail shape = (some next, below) := by
  induction shape generalizing handle trail limit with
  | nil => cases spans
  | node color left tag right ihLeft _ =>
    obtain ⟨limit, rfl⟩ := Nat.exists_eq_add_one.mpr (Nat.zero_lt_of_lt enough)
    rw [Shape.size] at enough
    cases spans with
    | @node _ fork _ _ held onLeft onRight =>
      have fetched := Slots.fetch_of_get? held
      cases linked : fork.left with
      | none =>
        rw [linked] at onLeft
        cases onLeft
        have acted : rooted.keepLeft (handle, trail) handle = .ok (none, handle, trail) := by
          simp only [RootedMap.keepLeft, fetched, linked, bind, Except.bind, pure, Except.pure]
        exact ⟨handle, trail, (wander_step acted limit).trans (wander_none _ _ _), rfl⟩
      | some child =>
        rw [linked] at onLeft
        have acted : rooted.keepLeft (handle, trail) handle = .ok (some child, child, (handle, .left) :: trail) := by
          simp only [RootedMap.keepLeft, fetched, linked, bind, Except.bind, pure, Except.pure]
        have fewer : left.size ≤ limit := by omega
        obtain ⟨next, below, walked, leftmost⟩ := ihLeft onLeft fewer ((handle, .left) :: trail)
        refine ⟨next, below, (wander_step acted limit).trans walked, ?_⟩
        cases onLeft
        exact leftmost

/-- The node with a handle, with what is on its right. -/
theorem named {handle : Handle} (spans : Spans rooted.forks start shape) (member : handle ∈ shape.handles) :
    ∃ fork right, rooted.forks.get? handle = some fork ∧ shape.named? handle = some (⟨handle, fork.key⟩, right) ∧
      Spans rooted.forks fork.right right ∧ right.size ≤ shape.size := by
  induction spans with
  | nil => cases member
  | @node top fork left right held onLeft onRight ihLeft ihRight =>
    rw [Shape.named?, Shape.size]
    by_cases here : top = handle
    · subst here
      exact ⟨fork, right, held, if_pos rfl, onRight, by omega⟩
    rw [if_neg here]
    rw [Shape.handles_node, List.mem_append, List.mem_cons] at member
    by_cases beside : handle ∈ left.handles
    · obtain ⟨found, below, there, named, spans, fewer⟩ := ihLeft beside
      exact ⟨found, below, there, by rw [named, Option.some_or], spans, by omega⟩
    · obtain ⟨found, below, there, named, spans, fewer⟩ :=
        ihRight ((member.resolve_left beside).resolve_left (Ne.symm here))
      exact ⟨found, below, there, by rw [Shape.named?_of_notMem beside, named, Option.none_or], spans, by omega⟩

/-- The black height with the number of nodes, or the first colour law that is broken. -/
theorem blackHeight_eq (spans : Spans rooted.forks start shape) (enough : shape.size ≤ limit) :
    rooted.blackHeight limit start = .ok ((fun height => (height, shape.size)) <$> shape.blackHeight) := by
  induction spans generalizing limit with
  | nil => cases limit <;> rfl
  | @node handle fork left right held onLeft onRight ihLeft ihRight =>
    rw [Shape.size] at enough
    obtain ⟨limit, rfl⟩ := Nat.exists_eq_add_one.mpr (Nat.zero_lt_of_lt enough)
    have below := ihLeft (show left.size ≤ limit by omega)
    have beside := ihRight (show right.size ≤ limit by omega)
    simp only [RootedMap.blackHeight, Slots.fetch_of_get? held, onLeft.isRed, onRight.isRed, below, beside,
      Shape.blackHeight, Shape.size, bind, Except.bind, pure, Except.pure]
    by_cases edge : fork.color = .red ∧ (left.isRed = true ∨ right.isRed = true)
    · simp [edge]
    simp only [Bool.or_eq_true, ← ite_and, if_neg edge]
    cases left.blackHeight with
    | error defect => rfl
    | ok onLeft =>
      cases right.blackHeight with
      | error defect => rfl
      | ok onRight =>
        by_cases same : onLeft = onRight
        · simp [same]
        · simp [same]

/-- A node of the tree is stored with the key of its tag. -/
theorem held {tag : Tag K} (spans : Spans rooted.forks start shape) (member : tag ∈ shape.toList) :
    ∃ fork, rooted.forks.get? tag.handle = some fork ∧ fork.key = tag.key := by
  induction spans with
  | nil => cases member
  | @node handle fork left right found onLeft onRight ihLeft ihRight =>
    rw [Shape.toList, List.mem_append, List.mem_cons] at member
    rcases member with member | rfl | member
    · exact ihLeft member
    · exact ⟨fork, found, rfl⟩
    · exact ihRight member

end Spans

namespace RootedMap.Lays

variable {rooted : RootedMap K V} {map : OrderedMap K V} {limit : Nat}

theorem forms (lays : rooted.Lays map) (wellFormed : map.WellFormed) : rooted.Forms map map.shape :=
  ⟨lays, wellFormed.inUse.nodup⟩

/-- Without its links every node is the value it carries. -/
theorem slots_eq (lays : rooted.Lays map) : rooted.forks.map Fork.value = map.slots := by
  apply Slots.eq_of_get?
  · rw [Slots.next_map, lays.next]
  · intro handle
    rw [Slots.get?_map, lays.values]

theorem size_eq (lays : rooted.Lays map) : rooted.size = map.size :=
  congrArg Slots.size lays.slots_eq

theorem isFull_eq (lays : rooted.Lays map) : rooted.forks.isFull = map.slots.isFull :=
  congrArg Slots.isFull lays.slots_eq

/-- No walk goes on for longer than there are nodes. -/
theorem enough (lays : rooted.Lays map) (wellFormed : map.WellFormed) : map.shape.size ≤ rooted.size := by
  rw [lays.size_eq, wellFormed.size_eq]

/-! ### Lookups -/

theorem descend_eq (lays : rooted.Lays map) (wellFormed : map.WellFormed) (key : K) :
    rooted.descend key = .ok ((map.descend key).2.top?, (map.descend key).1.trail) := by
  rw [OrderedMap.descend, ← lays.policy]
  exact lays.spans.descend_eq (lays.enough wellFormed) key []

theorem entry_eq {tag : Tag K} (lays : rooted.Lays map) (member : tag ∈ map.shape.toList) :
    rooted.entry tag.handle = map.entry tag := by
  obtain ⟨fork, held, key⟩ := lays.spans.held member
  have value : map.slots.get? tag.handle = some fork.value := by
    rw [← lays.values, held, Option.map_some]
  simp only [RootedMap.entry, OrderedMap.entry, Slots.fetch_of_get? held, Slots.fetch_of_get? value, key, bind,
    Except.bind]

theorem lookupEntry_eq (lays : rooted.Lays map) (wellFormed : map.WellFormed) (key : K) :
    rooted.lookupEntry key = map.lookupEntry key := by
  rw [RootedMap.lookupEntry, lays.descend_eq wellFormed, OrderedMap.lookupEntry, OrderedMap.find?]
  cases ended : map.descend key with
  | mk path inside =>
    cases inside with
    | nil => rfl
    | node color left tag right =>
      have member : tag ∈ map.shape.toList := by simp [OrderedMap.toList_met ended]
      exact congrArg (· >>= fun found => pure (some found)) (lays.entry_eq member)

theorem lookup_eq (lays : rooted.Lays map) (wellFormed : map.WellFormed) (key : K) :
    rooted.lookup key = map.lookup key := by
  rw [RootedMap.lookup, OrderedMap.lookup, lays.lookupEntry_eq wellFormed]

theorem extreme_eq (lays : rooted.Lays map) (wellFormed : map.WellFormed) (side : Side) :
    rooted.extreme side = map.entry? (side.near map.shape.first? map.shape.last?) := by
  have walked := lays.spans.keepTo_eq (lays.enough wellFormed) side
  have ends : ∀ tag, side.near map.shape.first? map.shape.last? = some tag → tag ∈ map.shape.toList := by
    rw [Shape.first?_eq_head?, Shape.last?_eq_getLast?]
    cases side with
    | left => exact fun tag first => List.mem_of_head? first
    | right => exact fun tag last => List.mem_of_getLast? last
  have top := lays.spans.top
  cases shape : map.shape with
  | nil =>
    rw [shape] at top
    rw [RootedMap.extreme, top]
    cases side <;> rfl
  | node color left tag right =>
    obtain ⟨last, found⟩ : ∃ last, side.near map.shape.first? map.shape.last? = some last := by
      rw [shape]
      cases side <;> exact ⟨_, rfl⟩
    have root : rooted.root = some tag.handle := by rw [top, shape]; rfl
    rw [← shape, found]
    rw [found, root] at walked
    simp only [RootedMap.extreme, root, walked, Option.map_some, Option.getD_some, lays.entry_eq (ends last found),
      bind, Except.bind]
    rfl

theorem rootKey_eq (lays : rooted.Lays map) : rooted.rootKey = .ok map.root := by
  have spans := lays.spans
  rw [RootedMap.rootKey, OrderedMap.root]
  generalize rooted.root = root at spans
  generalize map.shape = shape at spans
  cases spans with
  | nil => rfl
  | node held onLeft onRight =>
    simp only [Slots.fetch_of_get? held]
    rfl

/-! ### Going on in order -/

theorem leftmost_eq {start : Option Handle} {shape : Shape (Tag K)} (spans : Spans rooted.forks start shape)
    (enough : shape.size ≤ rooted.size) (trail : Trail) :
    rooted.leftmost start trail = .ok (Trail.leftmost trail shape) := by
  cases start with
  | none =>
    cases spans
    rfl
  | some handle =>
    obtain ⟨next, below, walked, leftmost⟩ := spans.lowest_eq enough trail
    rw [leftmost]
    simp only [RootedMap.leftmost, lowest, walked, bind, Except.bind, pure, Except.pure]

theorem dead (lays : rooted.Lays map) (wellFormed : map.WellFormed) {handle : Handle}
    (absent : handle ∉ map.shape.handles) : rooted.forks.fetch handle = .error .deadHandle := by
  rw [Slots.fetch, (lays.inUse wellFormed).get?_eq_none absent]

theorem successor_eq (lays : rooted.Lays map) (wellFormed : map.WellFormed) (trail : Trail) (handle : Handle) :
    rooted.successor trail handle = Trail.successor map.shape trail handle := by
  by_cases member : handle ∈ map.shape.handles
  · obtain ⟨fork, right, held, named, onRight, fewer⟩ := lays.spans.named member
    have leftmost := leftmost_eq onRight (fewer.trans (lays.enough wellFormed)) ((handle, .right) :: trail)
    simp only [RootedMap.successor, Trail.successor, Shape.named, named, Slots.fetch_of_get? held, bind, Except.bind]
    cases linked : fork.right with
    | none =>
      rw [linked] at onRight
      cases onRight
      rfl
    | some child =>
      rw [linked] at onRight leftmost
      cases onRight
      exact leftmost
  · rw [RootedMap.successor, lays.dead wellFormed member, Trail.successor, Shape.named,
      Shape.named?_of_notMem member]
    rfl

theorem seekAfter_eq (lays : rooted.Lays map) (wellFormed : map.WellFormed) (key : K) (previous : Trail) :
    rooted.seekAfter key = .ok (Trail.seekAfter (OrderedMap.probe map.policy key) map.shape previous) := by
  rw [RootedMap.seekAfter, lays.spans.pass_eq (lays.enough wellFormed), lays.policy]
  rfl

theorem start_eq (lays : rooted.Lays map) (wellFormed : map.WellFormed) : rooted.start = .ok map.startStacked := by
  rw [RootedMap.start, leftmost_eq lays.spans (lays.enough wellFormed), lays.id, lays.transactions]
  rfl

theorem synchronize_eq (lays : rooted.Lays map) (wellFormed : map.WellFormed) (cursor : StackedCursor K) :
    rooted.synchronize cursor = .ok (cursor.synchronize map) := by
  have resumed : rooted.resume cursor = .ok (cursor.resume map) := by
    unfold RootedMap.resume StackedCursor.resume
    cases cursor.lastKey with
    | none => exact leftmost_eq lays.spans (lays.enough wellFormed) []
    | some key => exact lays.seekAfter_eq wellFormed key.val cursor.path
  rw [RootedMap.synchronize, StackedCursor.synchronize, lays.transactions, resumed]
  by_cases present : cursor.transactions = map.transactions
  · rw [if_pos present, if_pos present]
    rfl
  · rw [if_neg present, if_neg present]
    rfl

/-- A cursor moves along the links as it does through the shape, wherever its stack leads. -/
theorem advance_eq (lays : rooted.Lays map) (wellFormed : map.WellFormed) (cursor : StackedCursor K) :
    rooted.advance cursor = (fun done => (done.1.map Prod.snd, done.2)) <$> map.advanceStacked cursor := by
  rw [RootedMap.advance, OrderedMap.advanceStacked, lays.id]
  by_cases finished : cursor.finished = true
  · rw [if_pos finished, if_pos finished]
    rfl
  rw [if_neg finished, if_neg finished]
  by_cases foreign : cursor.owner ≠ map.id
  · rw [if_pos foreign, if_pos foreign]
    rfl
  rw [if_neg foreign, if_neg foreign, lays.synchronize_eq wellFormed]
  generalize cursor.synchronize map = placed
  simp only [bind, Except.bind]
  cases next : placed.next with
  | none => rfl
  | some handle =>
    simp only [lays.successor_eq wellFormed]
    by_cases member : handle ∈ map.shape.handles
    · obtain ⟨fork, right, held, named, _⟩ := lays.spans.named member
      have value : map.slots.get? handle = some fork.value := by rw [← lays.values, held, Option.map_some]
      simp only [Trail.successor, Shape.named, named, OrderedMap.entry, Slots.fetch_of_get? held,
        Slots.fetch_of_get? value, lays.policy, bind, Except.bind]
      cases right <;> rfl
    · simp only [Trail.successor, Shape.named, Shape.named?_of_notMem member, bind, Except.bind]
      rfl

/-! ### The check -/

/-- The way through the keys ends with what the walk over spots decides. -/
theorem scan_eq (lays : rooted.Lays map) (wellFormed : map.WellFormed) {found : Option (Spot (Tag K))}
    (whole : ∀ spot, found = some spot → spot.whole = map.shape) (enough : (Spot.onward found).length ≤ limit)
    (last : Option (Held K)) :
    ∃ scan, wander rooted.scanAt limit (Spot.place found).1 { last, trail := (Spot.place found).2 } = .ok scan ∧
      scan.ordered = Spot.ascends map.policy.compare (·.key.val) (last.map (·.val)) found := by
  induction limit generalizing found last with
  | zero =>
    cases found with
    | none => exact ⟨_, wander_none _ _ _, by rw [Spot.ascends]⟩
    | some spot => cases enough
  | succ limit ih =>
    cases found with
    | none => exact ⟨_, wander_none _ _ _, by rw [Spot.ascends]⟩
    | some spot =>
      have here := whole spot rfl
      have member : spot.label ∈ map.shape.toList := by simp [← here, Spot.toList_whole]
      have distinct : spot.whole.handles.Nodup := here ▸ wellFormed.inUse.nodup
      obtain ⟨fork, held, key⟩ := lays.spans.held member
      have following := Trail.successor_eq distinct
      rw [here, ← lays.successor_eq wellFormed] at following
      rw [Spot.ascends]
      by_cases ordered : (last.map (·.val)).all (map.policy.compare · spot.label.key.val = .lt) = true
      · have acted : rooted.scanAt { last, trail := spot.path.trail } spot.label.handle =
            .ok ((Spot.place spot.next?).1, { last := some spot.label.key, trail := (Spot.place spot.next?).2 }) := by
          cases last <;>
            simp_all [RootedMap.scanAt, Slots.fetch_of_get? held, lays.policy, bind, Except.bind, pure, Except.pure]
        obtain ⟨scan, walked, decided⟩ := ih
          (fun next reached => (Spot.whole_next? reached).trans here)
          (by rw [Spot.onward_next?]; exact Nat.le_of_succ_le_succ enough) (some spot.label.key)
        refine ⟨scan, (wander_step acted limit).trans walked, ?_⟩
        rw [ordered, Bool.true_and]
        exact decided
      · have acted : rooted.scanAt { last, trail := spot.path.trail } spot.label.handle =
            .ok (none, { ordered := false, last, trail := spot.path.trail }) := by
          cases last <;>
            simp_all [RootedMap.scanAt, Slots.fetch_of_get? held, lays.policy, bind, Except.bind, pure, Except.pure]
        refine ⟨_, (wander_step acted limit).trans (wander_none _ _ _), ?_⟩
        rw [Bool.not_eq_true] at ordered
        rw [ordered, Bool.false_and]

/-- The check of a map in storage answers what the check of its shape does. -/
theorem check_eq (lays : rooted.Lays map) (wellFormed : map.WellFormed) : rooted.check = .ok map.check := by
  have height := lays.spans.blackHeight_eq (lays.enough wellFormed)
  have first := leftmost_eq lays.spans (lays.enough wellFormed) []
  rw [Trail.leftmost_root] at first
  obtain ⟨scan, walked, decided⟩ := lays.scan_eq wellFormed
    (fun spot reached => (Path.whole_firstSpot reached).trans rfl)
    (show (Spot.onward (Path.firstSpot [] map.shape)).length ≤ rooted.size by
      rw [Path.onward_firstSpot, Shape.length_toList]
      exact lays.enough wellFormed) none
  rw [lays.size_eq] at height walked
  rw [← OrderedMap.inspect_eq_check, OrderedMap.inspect, Shape.survey_eq]
  simp only [RootedMap.check, lays.spans.isRed, height, first, lays.size_eq, bind, Except.bind, pure,
    Except.pure]
  cases map.shape.isRed with
  | true => rfl
  | false =>
    cases map.shape.blackHeight with
    | error defect => rfl
    | ok height =>
      simp only [Nat.zero_add, ok_carried, Bool.false_eq_true, if_false, walked, decided, Option.map_none]
      by_cases counted : map.shape.size = map.size
      · simp only [counted, ne_eq, not_true_eq_false, if_false]
        split <;> rfl
      · simp only [counted, ne_eq, not_false_eq_true, if_true]

end RootedMap.Lays

end KeyedStore
