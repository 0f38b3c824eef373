import KeyedStore.Proofs.OrderedMap.Rebalancing
import KeyedStore.Proofs.OrderedMap.Tracing
/-!
Additions to a map in storage and removals from it. A new node is stored apart and then hung into the gap that the
descent ended in. A node that is taken out gives its place to what hangs below it, or to its successor, which first
gives up its own; it stays in storage, outside the tree, until the repair is through. What the stack names is at each
time the path to the place that the repair begins at.
-/
namespace KeyedStore

variable {K V : Type}

namespace Path

theorem trail_append (front back : Path (Tag K)) : trail (front ++ back) = front.trail ++ back.trail := List.map_append

/-- Below further ancestors the leftmost node of a subtree has those as well. -/
theorem firstSpot_append {α : Type} (front back : Path α) (shape : Shape α) :
    firstSpot (front ++ back) shape =
      (firstSpot front shape).map fun spot => { spot with path := spot.path ++ back } := by
  induction shape generalizing front with
  | nil => rfl
  | node color left label right ihLeft _ =>
    have deeper := ihLeft (⟨color, label, .left, right⟩ :: front)
    rw [List.cons_append] at deeper
    rw [firstSpot, firstSpot, deeper]
    cases firstSpot (⟨color, label, .left, right⟩ :: front) left <;> rfl

/-- What has fewer handles fits below a path as well. -/
theorem nodup_plug_of_subset {path : Path (Tag K)} {inside other : Shape (Tag K)}
    (distinct : (path.plug inside).handles.Nodup) (nodup : other.handles.Nodup)
    (within : other.handles ⊆ inside.handles) : (path.plug other).handles.Nodup := by
  obtain ⟨ofPath, _, apart⟩ := nodup_plug.mp distinct
  exact nodup_plug.mpr ⟨ofPath, nodup, fun handle above below => apart above (within below)⟩

end Path

namespace RootedMap.Forms

variable {rooted : RootedMap K V} {map : OrderedMap K V} {path : Path (Tag K)} {side : Side} {color : Color}
  {left right inside shape : Shape (Tag K)} {tag : Tag K}

/-- A change is counted in storage as it is counted in the map. -/
theorem counted (forms : rooted.Forms map shape) :
    { rooted with transactions := rooted.transactions + 1 }.Forms
      { map with transactions := map.transactions + 1 } shape := by
  obtain ⟨⟨id, policy, noOverwrite, transactions, spans, values, next⟩, distinct⟩ := forms
  exact ⟨⟨id, policy, noOverwrite, congrArg Nat.succ transactions, spans, values, next⟩, distinct⟩

/-! ### Vacating a place -/

/-- A node with nothing on one side gives its place to what is on the other. -/
theorem bypass (forms : rooted.Forms map (path.plug (.branch side color inside tag .nil))) :
    ∃ after, rooted.link path.trail.head? inside.top? = .ok after ∧ rooted.Keeps after ∧
      after.Forms map (path.plug inside) ∧
      ∀ handle, handle ∉ path.handles → after.forks.get? handle = rooted.forks.get? handle := by
  obtain ⟨_, ofNode, _⟩ := Path.nodup_plug.mp forms.distinct
  have nodup := (Shape.perm_handles_branch.nodup_iff.mp ofNode).of_cons.of_append_left
  apply forms.link forms.below.inner
  apply Path.nodup_plug_of_subset forms.distinct nodup
  intro handle member
  exact Shape.perm_handles_branch.mem_iff.mpr (List.mem_cons_of_mem _ (List.mem_append_left _ member))

section Succession

variable {below : Path (Tag K)} {shade : Color} {next : Tag K} {beyond : Shape (Tag K)}

/-- The way down to the successor, as it is stacked up. -/
theorem lowest_eq (forms : rooted.Forms map (path.plug (.node color left tag right))) {child : Handle}
    (top : right.top? = some child) (reached : Path.firstSpot [] right = some ⟨below, shade, .nil, next, beyond⟩)
    (enough : right.size ≤ rooted.size) : rooted.lowest child ((tag.handle, .right) :: path.trail) =
      .ok (next.handle, below.trail ++ (tag.handle, .right) :: path.trail) := by
  have onNode : rooted.Forms map (path.plug (.branch .left color left tag right)) := forms
  have spans := onNode.aside.inner
  have filled : right ≠ .nil := by
    rintro rfl
    cases top
  rw [top] at spans
  obtain ⟨handle, trail, walked, leftmost⟩ := spans.lowest_eq enough ((tag.handle, .right) :: path.trail)
  have ends := Trail.leftmost_trail (⟨color, tag, .right, left⟩ :: path) filled
  have deeper := Path.firstSpot_append [] (⟨color, tag, .right, left⟩ :: path) right
  rw [reached, List.nil_append] at deeper
  rw [deeper, Path.trail_cons, leftmost] at ends
  cases ends
  rw [RootedMap.lowest, walked, Path.trail_append]
  rfl

/-- A node that is stored outside the tree takes the place of another one, with its colour and what hangs below it. -/
theorem supplant {near far : Shape (Tag K)} {fork : Fork K V}
    (forms : rooted.Forms map (path.plug (.branch side color near tag far)))
    (held : rooted.forks.get? next.handle = some fork) (key : fork.key = next.key)
    (outside : next.handle ∉ (path.plug (.branch side color near tag far)).handles) :
    ∃ place moved after, rooted.forks.fetch tag.handle = .ok place ∧
      rooted.refork next.handle
        ({ · with left := place.left, right := place.right, color := place.color }) = .ok moved ∧
      moved.link path.trail.head? (some next.handle) = .ok after ∧
      after.Forms map (path.plug (.branch side color near next far)) := by
  obtain ⟨place, fetched, stands⟩ := forms.stands
  obtain ⟨moved, first, keeps, root, changed, same⟩ := refork_ends held
    ({ · with left := place.left, right := place.right, color := place.color }) rfl
  have kept : ∀ handle ∈ (path.plug (.branch side color near tag far)).handles,
      moved.forks.get? handle = rooted.forks.get? handle :=
    fun handle member => same handle (ne_of_mem_of_not_mem member outside)
  have spans := forms.lays.spans.kept kept
  rw [← root] at spans
  have movedForms : moved.Forms map (path.plug (.branch side color near tag far)) :=
    forms.keeps keeps spans forms.distinct
  obtain ⟨ofPath, ofNode, apart⟩ := Path.nodup_plug.mp forms.distinct
  rw [(Path.perm_handles_plug _ _).mem_iff, List.mem_append, not_or, Shape.perm_handles_branch.mem_iff, List.mem_cons,
    not_or] at outside
  have fits : (path.plug (.branch side color near next far)).handles.Nodup := by
    rw [Path.nodup_plug, Shape.perm_handles_branch.nodup_iff, List.nodup_cons]
    refine ⟨ofPath, ⟨outside.2.2, (Shape.perm_handles_branch.nodup_iff.mp ofNode).of_cons⟩, ?_⟩
    intro handle above member
    rw [Shape.perm_handles_branch.mem_iff, List.mem_cons] at member
    rcases member with rfl | member
    · exact outside.1 above
    · exact apart above (Shape.perm_handles_branch.mem_iff.mpr (List.mem_cons_of_mem _ member))
  have taken : Stands moved.forks side color near next far
      { fork with left := place.left, right := place.right, color := place.color } := by
    obtain ⟨_, _, again⟩ := movedForms.stands
    have onNear := again.near
    have onFar := again.far
    rw [again.child, ← stands.child] at onNear
    rw [again.child_other, ← stands.child_other] at onFar
    refine ⟨changed, stands.color, key, ?_, ?_⟩
    · cases side <;> exact onNear
    · cases side <;> exact onFar
  have top : (Shape.branch side color near next far).top? = some next.handle := Shape.top?_branch
  have filled := taken.spans
  rw [← top] at filled
  obtain ⟨after, second, _, placed, _⟩ := movedForms.link filled fits
  rw [top] at second
  exact ⟨place, moved, after, fetched, first, second, placed⟩

/-- A node with two subtrees gives its place to its successor. -/
theorem succeed (forms : rooted.Forms map (path.plug (.node color left tag right))) {first child : Handle}
    (onLeft : left.top? = some first) (onRight : right.top? = some child)
    (reached : Path.firstSpot [] right = some ⟨below, shade, .nil, next, beyond⟩)
    (enough : right.size ≤ rooted.size) :
    ∃ after, rooted.vacate path.trail tag.handle =
        .ok (⟨Path.trail (below ++ ⟨color, next, .right, left⟩ :: path), shade, beyond.top?⟩, after) ∧
      after.Forms map (Path.plug (below ++ ⟨color, next, .right, left⟩ :: path) beyond) := by
  have lowest := forms.lowest_eq onRight reached enough
  obtain rfl := Shape.plug_firstSpot reached
  have onNode : rooted.Forms map
      (path.plug (.branch .left color left tag (below.plug (.node shade .nil next beyond)))) := forms
  obtain ⟨fork, fetched, stands⟩ := onNode.stands
  -- The successor leaves its place to what is on its right.
  have onNext : rooted.Forms map
      (Path.plug (below ++ ⟨color, tag, .right, left⟩ :: path) (.branch .right shade beyond next .nil)) := by
    rw [Path.plug_append]
    exact forms
  obtain ⟨low, found, under⟩ := onNext.stands
  obtain ⟨detached, first, keeps, bypassed, same⟩ := onNext.bypass
  have absent : next.handle ∉ Path.handles (below ++ ⟨color, tag, .right, left⟩ :: path) := by
    obtain ⟨_, _, apart⟩ := Path.nodup_plug.mp onNext.distinct
    exact fun member => apart member (Shape.perm_handles_branch.mem_iff.mpr List.mem_cons_self)
  have gone : next.handle ∉ beyond.handles := by
    obtain ⟨_, ofNode, _⟩ := Path.nodup_plug.mp onNext.distinct
    have nodup := Shape.perm_handles_branch.nodup_iff.mp ofNode
    rw [List.nodup_cons, List.mem_append, not_or] at nodup
    exact nodup.1.1
  -- Then it takes the place of the node.
  have outside : next.handle ∉ (Path.plug (below ++ ⟨color, tag, .right, left⟩ :: path) beyond).handles := by
    rw [(Path.perm_handles_plug _ _).mem_iff, List.mem_append, not_or]
    exact ⟨absent, gone⟩
  have held := (same next.handle absent).trans under.held
  rw [Path.plug_append] at bypassed outside
  obtain ⟨place, moved, after, second, third, fourth, placed⟩ := bypassed.above.supplant held under.key outside
  have renamed := Trail.setStep_append below.trail path.trail (tag.handle, .right) (next.handle, .right)
  refine ⟨after, ?_, ?_⟩
  · rw [Path.trail_append, Path.trail_cons] at first
    have linkedLeft : fork.left = some _ := stands.child.trans onLeft
    have linkedRight : fork.right = some child := stands.child_other.trans onRight
    have onward : low.right = beyond.top? := under.child
    simp only [RootedMap.vacate, fetched, linkedLeft, linkedRight, lowest, found, onward, first, second, third, fourth,
      renamed, under.color, Path.trail_append, Path.trail_cons, bind, Except.bind, pure, Except.pure]
  · rw [Path.plug_append]
    exact placed

end Succession

/-- Where a child is missing, the other one moves up, if there is one. -/
theorem vacate_bare {trail : Trail} {target : Handle} {fork : Fork K V} {after : RootedMap K V}
    (fetched : rooted.forks.fetch target = .ok fork) (bare : fork.left = none ∨ fork.right = none)
    (linked : rooted.link trail.head? (fork.left.or fork.right) = .ok after) :
    rooted.vacate trail target = .ok (⟨trail, fork.color, fork.left.or fork.right⟩, after) := by
  rcases fork with ⟨color, _ | left, _ | right, key, value⟩
  · simp only [RootedMap.vacate, fetched, linked, bind, Except.bind, pure, Except.pure]
  · simp only [RootedMap.vacate, fetched, linked, bind, Except.bind, pure, Except.pure]
  · simp only [RootedMap.vacate, fetched, linked, bind, Except.bind, pure, Except.pure]
  · rcases bare with nothing | nothing <;> cases nothing

/-- A place is vacated in storage as it is in the shape: the same gap is left, with the same colour missing. -/
theorem vacate (forms : rooted.Forms map (path.plug (.node color left tag right))) (enough : right.size ≤ rooted.size) :
    ∃ (gap : Path (Tag K)) (removed : Color) (filler : Shape (Tag K)) (after : RootedMap K V),
      rooted.vacate path.trail tag.handle = .ok (⟨gap.trail, removed, filler.top?⟩, after) ∧
      after.Forms map (gap.plug filler) ∧ Shape.removeAt path color left right = Shape.closeGap gap removed filler := by
  have onNode : rooted.Forms map (path.plug (.branch .left color left tag right)) := forms
  obtain ⟨fork, fetched, stands⟩ := onNode.stands
  have onLeft : fork.left = left.top? := stands.child
  have onRight : fork.right = right.top? := stands.child_other
  cases reached : Path.firstSpot [] right with
  | none =>
    obtain rfl := Path.firstSpot_eq_none.mp reached
    obtain ⟨after, linked, _, bypassed, _⟩ := onNode.bypass
    have filler : fork.left.or fork.right = left.top? := by rw [onLeft, onRight]; exact Option.or_none
    rw [← filler] at linked
    refine ⟨path, color, left, after, ?_, bypassed, by cases left <;> rfl⟩
    rw [vacate_bare fetched (.inr onRight) linked, filler, stands.color]
  | some spot =>
    cases left with
    | nil =>
      have mirrored : rooted.Forms map (path.plug (.branch .right color right tag .nil)) := forms
      obtain ⟨after, linked, _, bypassed, _⟩ := mirrored.bypass
      have filler : fork.left.or fork.right = right.top? := by rw [onLeft, onRight]; exact Option.none_or
      rw [← filler] at linked
      refine ⟨path, color, right, after, ?_, bypassed, by simp only [Shape.removeAt, reached]⟩
      rw [vacate_bare fetched (.inl onLeft) linked, filler, stands.color]
    | node shade near first far =>
      obtain ⟨child, top⟩ : ∃ child, right.top? = some child := by
        cases right with
        | nil => cases reached
        | node => exact ⟨_, rfl⟩
      obtain ⟨below, lowest, outer, next, beyond⟩ := spot
      obtain rfl : outer = .nil := Shape.left_of_firstSpot reached
      obtain ⟨after, done, placed⟩ := forms.succeed rfl top reached enough
      exact ⟨_, _, _, after, done, placed, by simp only [Shape.removeAt, reached]⟩

theorem closeGap {gap : Path (Tag K)} {removed : Color} {filler : Shape (Tag K)}
    (forms : rooted.Forms map (gap.plug filler)) (closed : Shape.closeGap gap removed filler = .ok shape) :
    ∃ after, rooted.closeGap ⟨gap.trail, removed, filler.top?⟩ = .ok after ∧ after.Forms map shape := by
  cases removed with
  | red =>
    cases closed
    exact ⟨rooted, rfl, forms⟩
  | black =>
    have enough : gap.length ≤ gap.trail.length := by rw [Path.trail, List.length_map]
    exact forms.repay enough closed

/-! ### Hanging a node into a gap -/

/-- A new node is stored apart, hung into the gap and made to fit in. -/
theorem hang (forms : rooted.Forms map (path.plug .nil)) (fresh : map.slots.next ∉ path.handles) (key : Held K)
    (value : Held V) :
    ∃ linked after,
      RootedMap.link { rooted with forks := rooted.forks.insert ⟨.red, none, none, key, value⟩ } path.trail.head?
        (some rooted.forks.next) = .ok linked ∧
      RootedMap.mendRed { linked with transactions := linked.transactions + 1 } path.trail = .ok after ∧
      after.Forms { map with slots := map.slots.insert value, transactions := map.transactions + 1 }
        (Shape.repairRed path .nil ⟨map.slots.next, key⟩ .nil) := by
  obtain ⟨⟨id, policy, noOverwrite, transactions, spans, values, next⟩, distinct⟩ := forms
  have outside : rooted.forks.next ∉ (path.plug .nil).handles := by
    rw [next, (Path.perm_handles_plug _ _).mem_iff, Shape.handles_nil, List.append_nil]
    exact fresh
  have stored : Forms { rooted with forks := rooted.forks.insert ⟨.red, none, none, key, value⟩ }
      { map with slots := map.slots.insert value } (path.plug .nil) := by
    refine ⟨⟨id, policy, noOverwrite, transactions, spans.kept fun handle member => ?_, fun handle => ?_, ?_⟩, distinct⟩
    · rw [Slots.get?_insert, if_neg (ne_of_mem_of_not_mem member outside)]
    · rw [Slots.get?_insert, Slots.get?_insert, next]
      by_cases new : handle = map.slots.next
      · rw [if_pos new, if_pos new]
        rfl
      · rw [if_neg new, if_neg new]
        exact values handle
    · rw [Slots.next_insert, Slots.next_insert, next]
  have held : (rooted.forks.insert ⟨.red, none, none, key, value⟩).get? map.slots.next =
      some ⟨.red, none, none, key, value⟩ := by rw [Slots.get?_insert, next, if_pos rfl]
  have single : Spans (rooted.forks.insert ⟨.red, none, none, key, value⟩)
      (Shape.node .red .nil ⟨map.slots.next, key⟩ .nil).top? (.node .red .nil ⟨map.slots.next, key⟩ .nil) :=
    .node held .nil .nil
  have fits : (path.plug (.node .red .nil ⟨map.slots.next, key⟩ .nil)).handles.Nodup := by
    refine Path.nodup_plug.mpr ⟨(Path.nodup_plug.mp distinct).1, List.nodup_singleton _, fun handle above member => ?_⟩
    obtain rfl := List.mem_singleton.mp member
    exact fresh above
  obtain ⟨linked, first, _, hung, _⟩ := stored.link single fits
  obtain ⟨after, second, mended⟩ := hung.counted.mendRed
  refine ⟨linked, after, ?_, second, mended⟩
  rw [next]
  exact first

/-- A node outside the tree is taken out of storage. -/
theorem release {handle : Handle} {value : Held V} {slots : Slots (Held V)} (forms : rooted.Forms map shape)
    (outside : handle ∉ shape.handles) (taken : map.slots.take handle = .ok (value, slots)) :
    ∃ fork forks, rooted.forks.take handle = .ok (fork, forks) ∧ fork.value = value ∧
      RootedMap.Lays { rooted with forks := forks } { map with shape := shape, slots := slots } := by
  obtain ⟨⟨id, policy, noOverwrite, transactions, spans, values, next⟩, _⟩ := forms
  obtain ⟨fork, held, same⟩ := Option.map_eq_some_iff.mp ((values handle).trans (Slots.get?_of_take taken))
  obtain ⟨forks, done⟩ := Slots.take_of_get? held
  refine ⟨fork, forks, done, same, id, policy, noOverwrite, transactions, spans.kept fun other member => ?_,
    fun other => ?_, ?_⟩
  · rw [Slots.get?_take done, if_neg (ne_of_mem_of_not_mem member outside)]
  · rw [Slots.get?_take done, Slots.get?_take taken]
    by_cases here : other = handle
    · rw [if_pos here, if_pos here]
      rfl
    · rw [if_neg here, if_neg here]
      exact values other
  · rw [Slots.next_take done, Slots.next_take taken, next]

end RootedMap.Forms

namespace RootedMap.Lays

variable {rooted : RootedMap K V} {map : OrderedMap K V}

theorem descend_met {key : K} {path : Path (Tag K)} {color : Color} {left right : Shape (Tag K)} {tag : Tag K}
    (lays : rooted.Lays map) (wellFormed : map.WellFormed)
    (met : map.descend key = (path, .node color left tag right)) :
    rooted.descend key = .ok (some tag.handle, path.trail) := by
  rw [lays.descend_eq wellFormed, met]
  rfl

theorem descend_missed {key : K} {path : Path (Tag K)} (lays : rooted.Lays map) (wellFormed : map.WellFormed)
    (missed : map.descend key = (path, .nil)) : rooted.descend key = .ok (none, path.trail) := by
  rw [lays.descend_eq wellFormed, missed]
  rfl

/-- Another value for a node. -/
theorem update {path : Path (Tag K)} {color : Color} {left right : Shape (Tag K)} {tag : Tag K} {value : Held V}
    {slots : Slots (Held V)} (lays : rooted.Lays map) (wellFormed : map.WellFormed)
    (whole : path.plug (.node color left tag right) = map.shape)
    (done : map.slots.replace tag.handle value = .ok slots) :
    ∃ after, rooted.refork tag.handle ({ · with value := value }) = .ok after ∧
      after.Lays { map with slots := slots } := by
  have onNode : rooted.Forms map (path.plug (.branch .left color left tag right)) := by
    rw [show path.plug (.branch .left color left tag right) = map.shape from whole]
    exact lays.forms wellFormed
  obtain ⟨fork, fetched, stands⟩ := onNode.stands
  obtain ⟨forks, replaced⟩ := Slots.replace_of_get? stands.held { fork with value := value }
  have changed : forks.get? tag.handle = some { fork with color := color, value := value } := by
    rw [Slots.get?_replace replaced, if_pos rfl, ← stands.color]
  refine ⟨_, refork_eq stands.held _ replaced, lays.id, lays.policy, lays.noOverwrite, lays.transactions, ?_,
    fun handle => ?_, ?_⟩
  · have recast := onNode.lays.spans.recast onNode.distinct stands changed fun handle other => by
      rw [Slots.get?_replace replaced, if_neg other]
    rw [show path.plug (.branch .left color left tag right) = map.shape from whole] at recast
    exact recast
  · rw [Slots.get?_replace replaced, Slots.get?_replace done]
    by_cases here : handle = tag.handle
    · rw [if_pos here, if_pos here]
      rfl
    · rw [if_neg here, if_neg here]
      exact lays.values handle
  · rw [Slots.next_replace replaced, Slots.next_replace done, lays.next]

/-- An addition to a map in storage answers what the addition to the map answers, and lays out what it leaves. -/
theorem insert_inStep (lays : rooted.Lays map) (wellFormed : map.WellFormed) (key : Held K) (value : Held V) :
    Along (fun also done => also.1 = done.1 ∧ also.2.Lays done.2) (rooted.insert key value) (map.insert key value) := by
  rintro ⟨outcome, after⟩ ended
  obtain ⟨_, _, same, insertion⟩ := OrderedMap.insert_ends wellFormed key value
  cases same.symm.trans ended
  cases insertion with
  | @refused path color left right tag met kept =>
    have bars : rooted.noOverwrite = true := lays.noOverwrite.trans kept
    have descended := lays.descend_met wellFormed met
    refine ⟨(.error .keyExists, rooted), ?_, rfl, lays⟩
    simp only [RootedMap.insert, descended, bars, if_true, bind, Except.bind, pure, Except.pure]
  | @full path missed full =>
    have descended := lays.descend_missed wellFormed missed
    refine ⟨(.error .noRoom, rooted), ?_, rfl, lays⟩
    simp only [RootedMap.insert, descended, lays.isFull_eq, full, if_true, bind, Except.bind, pure, Except.pure]
  | @updated path color left right tag slots met free done =>
    have lets : rooted.noOverwrite = false := lays.noOverwrite.trans free
    have descended := lays.descend_met wellFormed met
    obtain ⟨after, updated, laid⟩ := lays.update wellFormed (OrderedMap.plug_descend met) done
    refine ⟨(.ok .updated, after), ?_, rfl, laid⟩
    simp only [RootedMap.insert, descended, lets, lays.policy, updated, bind, Except.bind, pure, Except.pure,
      Bool.false_eq_true, if_false]
  | @inserted path missed room =>
    have descended := lays.descend_missed wellFormed missed
    have whole := OrderedMap.plug_descend missed
    have forms := lays.forms wellFormed
    rw [← whole] at forms
    have fresh : map.slots.next ∉ path.handles := by
      have absent : map.slots.next ∉ map.shape.handles := wellFormed.inUse.next_notMem
      rw [← whole, (Path.perm_handles_plug _ _).mem_iff, List.mem_append, not_or] at absent
      exact absent.1
    obtain ⟨linked, after, first, second, mended⟩ :=
      forms.hang fresh (rooted.policy.secureKey key) (rooted.policy.secureValue value)
    refine ⟨(.ok .inserted, after), ?_, rfl, lays.policy ▸ mended.lays⟩
    simp only [RootedMap.insert, descended, lays.isFull_eq, room, first, second, bind, Except.bind, pure, Except.pure,
      Bool.false_eq_true, if_false]

/-- A removal from a map in storage hands back what the removal from the map does, and lays out what it leaves. -/
theorem remove_inStep (lays : rooted.Lays map) (wellFormed : map.WellFormed) (key : K) :
    Along (fun also done => also.1 = done.1 ∧ also.2.Lays done.2) (rooted.remove key) (map.remove key) := by
  rintro ⟨value, after⟩ ended
  obtain ⟨_, _, same, removal⟩ := OrderedMap.remove_ends wellFormed key
  cases same.symm.trans ended
  have kept := removal.wellFormed wellFormed
  cases removal with
  | @missed path missed =>
    have descended := lays.descend_missed wellFormed missed
    refine ⟨(none, rooted), ?_, rfl, lays⟩
    simp only [RootedMap.remove, descended, bind, Except.bind, pure, Except.pure]
  | @removed path color left right shape tag value slots met closed taken =>
    have descended := lays.descend_met wellFormed met
    have whole := OrderedMap.plug_descend met
    have forms := lays.forms wellFormed
    rw [← whole] at forms
    have enough : right.size ≤ rooted.size := by
      have all := lays.enough wellFormed
      rw [← Shape.length_toList, OrderedMap.toList_met met] at all
      simp only [List.length_append, List.length_cons, Shape.length_toList] at all
      omega
    obtain ⟨gap, missing, filler, vacated, first, opened, same⟩ := forms.vacate enough
    rw [same] at closed
    obtain ⟨repaired, second, mended⟩ := opened.counted.closeGap closed
    have outside : tag.handle ∉ shape.handles := by
      intro member
      have live := (kept.inUse.live tag.handle).mp member
      rw [Slots.contains, Slots.get?_take taken, if_pos rfl] at live
      cases live
    obtain ⟨fork, forks, third, handed, laid⟩ := mended.release outside taken
    refine ⟨(some fork.value, { repaired with forks := forks }), ?_, congrArg some handed, laid⟩
    simp only [RootedMap.remove, descended, first, second, third, bind, Except.bind, pure, Except.pure]

end RootedMap.Lays

end KeyedStore
