import KeyedStore.OrderedMap.Linked
import KeyedStore.Proofs.OrderedMap.Spanning
/-!
Links and colours that are set at one place of a tree in storage. A change below a path leaves the path as it lies, as
long as the same node stays on top of what hangs there; and letting the slot at the end of the path lead elsewhere puts
another subtree there. A rotation is two changes of nodes and one of a slot, and what comes out spans the rotated shape.
-/
namespace KeyedStore

variable {K V : Type}

theorem Side.other_other (side : Side) : side.other.other = side := by
  cases side <;> rfl

/-! ### Nodes with another child -/

namespace Fork

variable (fork : Fork K V) (side : Side) (child : Option Handle)

@[simp] theorem child_withChild : (fork.withChild side child).child side = child := by
  cases side <;> rfl

@[simp] theorem child_other_withChild : (fork.withChild side child).child side.other = fork.child side.other := by
  cases side <;> rfl

@[simp] theorem color_withChild : (fork.withChild side child).color = fork.color := by
  cases side <;> rfl

@[simp] theorem key_withChild : (fork.withChild side child).key = fork.key := by
  cases side <;> rfl

@[simp] theorem value_withChild : (fork.withChild side child).value = fork.value := by
  cases side <;> rfl

end Fork

/-! ### The handles along a path -/

namespace Shape

variable {side : Side} {color : Color} {near far : Shape (Tag K)} {tag : Tag K}

theorem perm_handles_branch :
    (branch side color near tag far).handles.Perm (tag.handle :: (near.handles ++ far.handles)) := by
  cases side with
  | left => exact (handles_node color near tag far).symm ▸ List.perm_middle
  | right =>
    rw [branch, handles_node]
    exact List.perm_middle.trans (List.perm_append_comm.cons _)

theorem top?_branch : (branch side color near tag far).top? = some tag.handle := by
  cases side <;> rfl

/-- Two nodes one below the other, and what hangs below them. -/
theorem perm_handles_pair {lower : Color} {pivot : Tag K} {beyond : Shape (Tag K)} :
    (branch side color near tag (branch side lower far pivot beyond)).handles.Perm
      (tag.handle :: pivot.handle :: (near.handles ++ (far.handles ++ beyond.handles))) :=
  perm_handles_branch.trans (((perm_handles_branch.append_left _).trans List.perm_middle).cons _)

/-- A rotation moves no node in or out. -/
theorem perm_handles_rotated {lower : Color} {pivot : Tag K} {beyond : Shape (Tag K)} :
    (branch side lower (branch side color near tag far) pivot beyond).handles.Perm
      (branch side color near tag (branch side lower far pivot beyond)).handles := by
  refine perm_handles_branch.trans (.trans ?_ perm_handles_pair.symm)
  refine ((perm_handles_branch.append_right _).cons _).trans ?_
  rw [List.cons_append, List.append_assoc]
  exact .swap _ _ _

end Shape

namespace Path

variable {path : Path (Tag K)} {inside : Shape (Tag K)} {handle : Handle}

/-- A node below a path is an ancestor of the subtree on either of its sides. -/
theorem plug_aside (path : Path (Tag K)) (side : Side) (color : Color) (near far : Shape (Tag K)) (tag : Tag K) :
    path.plug (.branch side color near tag far) = Path.plug (⟨color, tag, side.other, near⟩ :: path) far := by
  rw [plug, Crumb.fill, Shape.branch_other]

/-- The handles of the ancestors and of what hangs aside. -/
def handles (path : Path (Tag K)) : List Handle := path.before.map (·.handle) ++ path.after.map (·.handle)

theorem perm_handles_plug (path : Path (Tag K)) (inside : Shape (Tag K)) :
    (path.plug inside).handles.Perm (path.handles ++ inside.handles) := by
  rw [handles_plug, handles, List.append_assoc, List.append_assoc]
  exact List.perm_append_comm.append_left _

theorem nodup_plug : (path.plug inside).handles.Nodup ↔
    path.handles.Nodup ∧ inside.handles.Nodup ∧ path.handles.Disjoint inside.handles :=
  (perm_handles_plug path inside).nodup_iff.trans List.nodup_append'

theorem mem_handles_cons {crumb : Crumb (Tag K)} : handle ∈ handles (crumb :: path) ↔
    handle = crumb.label.handle ∨ handle ∈ crumb.other.handles ∨ handle ∈ path.handles := by
  cases crumb with
  | mk color tag side other =>
    cases side <;>
      simp only [handles, before, after, Crumb.before, Crumb.after, Shape.handles, List.map_append, List.map_cons,
        List.map_nil, List.mem_append, List.mem_cons, List.not_mem_nil] <;> tauto

end Path

/-! ### Subtrees and their places -/

/-- What is stored of a node, as seen from one of its sides. -/
structure Stands (forks : Slots (Fork K V)) (side : Side) (color : Color) (near : Shape (Tag K)) (tag : Tag K)
    (far : Shape (Tag K)) (fork : Fork K V) : Prop where
  held : forks.get? tag.handle = some fork
  color : fork.color = color
  key : fork.key = tag.key
  near : Spans forks (fork.child side) near
  far : Spans forks (fork.child side.other) far

variable {forks later : Slots (Fork K V)} {start root : Option Handle} {shape inside other near far : Shape (Tag K)}
  {path : Path (Tag K)} {side : Side} {color : Color} {tag : Tag K} {fork : Fork K V}

namespace Spans

theorem top (spans : Spans forks start shape) : start = shape.top? := by
  cases spans <;> rfl

theorem stands (spans : Spans forks start (.branch side color near tag far)) :
    ∃ fork, Stands forks side color near tag far fork := by
  cases side with
  | left =>
    cases spans with
    | node held onLeft onRight => exact ⟨_, held, rfl, rfl, onLeft, onRight⟩
  | right =>
    cases spans with
    | node held onLeft onRight => exact ⟨_, held, rfl, rfl, onRight, onLeft⟩

/-- Only the nodes of the tree matter. -/
theorem kept (spans : Spans forks start shape)
    (same : ∀ handle ∈ shape.handles, later.get? handle = forks.get? handle) : Spans later start shape :=
  spans.congr fun handle member => same handle (shape.perm_upward.mem_iff.mp member)

end Spans

namespace Stands

theorem spans (stands : Stands forks side color near tag far fork) :
    Spans forks (some tag.handle) (.branch side color near tag far) := by
  obtain ⟨held, rfl, key, onNear, onFar⟩ := stands
  cases tag with
  | mk handle name =>
    obtain rfl : fork.key = name := key
    cases side with
    | left => exact .node held onNear onFar
    | right => exact .node held onFar onNear

theorem child (stands : Stands forks side color near tag far fork) : fork.child side = near.top? := stands.near.top

theorem child_other (stands : Stands forks side color near tag far fork) : fork.child side.other = far.top? :=
  stands.far.top

/-- The same node from its other side. -/
theorem turn (stands : Stands forks side color near tag far fork) :
    Stands forks side.other color far tag near fork := by
  refine ⟨stands.held, stands.color, stands.key, stands.far, ?_⟩
  rw [side.other_other]
  exact stands.near

/-- The same node with another subtree on the near side. -/
theorem withChild (stands : Stands forks side color near tag far fork)
    (held : later.get? tag.handle = some (fork.withChild side other.top?)) (filled : Spans later other.top? other)
    (same : ∀ handle ∈ far.handles, later.get? handle = forks.get? handle) :
    Stands later side color other tag far (fork.withChild side other.top?) := by
  refine ⟨held, (fork.color_withChild _ _).trans stands.color, (fork.key_withChild _ _).trans stands.key, ?_, ?_⟩
  · rw [Fork.child_withChild]
    exact filled
  · rw [Fork.child_other_withChild]
    exact stands.far.kept same

end Stands

/-- When the upper of two nodes has taken over what hung between them, and the lower one has taken the upper one, they
are rotated. -/
theorem Stands.rotated {lower : Color} {pivot : Tag K} {outer between beyond : Shape (Tag K)} {high low : Fork K V}
    (onTop : Stands forks side color outer tag (.branch side lower between pivot beyond) high)
    (below : Stands forks side lower between pivot beyond low)
    (distinct : (Shape.branch side color outer tag (.branch side lower between pivot beyond)).handles.Nodup)
    (lowered : later.get? tag.handle = some (high.withChild side.other between.top?))
    (raised : later.get? pivot.handle = some (low.withChild side (some tag.handle)))
    (same : ∀ handle, handle ≠ tag.handle → handle ≠ pivot.handle → later.get? handle = forks.get? handle) :
    Spans later (some pivot.handle) (.branch side lower (.branch side color outer tag between) pivot beyond) := by
  have nodup := Shape.perm_handles_pair.nodup_iff.mp distinct
  rw [List.nodup_cons, List.nodup_cons, List.mem_cons, not_or] at nodup
  obtain ⟨⟨_, notTop⟩, notPivot, _⟩ := nodup
  have beside : ∀ handle ∈ outer.handles ++ (between.handles ++ beyond.handles),
      later.get? handle = forks.get? handle :=
    fun handle member => same handle (fun equal => notTop (equal ▸ member)) fun equal => notPivot (equal ▸ member)
  simp only [List.mem_append] at beside
  have upper := onTop.turn.withChild lowered
    (below.child ▸ below.near.kept fun handle member => beside handle (.inr (.inl member)))
    fun handle member => beside handle (.inl member)
  have pair := upper.spans
  have top : (Shape.branch side color outer tag between).top? = some tag.handle := Shape.top?_branch
  rw [Shape.branch_other, ← top] at pair
  rw [← top] at raised
  exact (below.withChild raised pair fun handle member => beside handle (.inr (.inr member))).spans

namespace Spans

/-- What hangs below a path. -/
theorem inner (spans : Spans forks root (path.plug inside)) : Spans forks inside.top? inside := by
  induction path generalizing inside with
  | nil => exact spans.top ▸ spans
  | cons crumb path ih =>
    obtain ⟨fork, stands⟩ := (ih spans).stands
    rw [← stands.child]
    exact stands.near

/-- Another subtree with the same node on top hangs below the path, which lies as it lay. -/
theorem replug (spans : Spans forks root (path.plug inside)) (top : other.top? = inside.top?)
    (filled : Spans later other.top? other) (same : ∀ handle ∈ path.handles, later.get? handle = forks.get? handle) :
    Spans later root (path.plug other) := by
  induction path generalizing inside other with
  | nil =>
    rw [spans.top]
    exact top ▸ filled
  | cons crumb path ih =>
    have onParent : Spans forks root (Path.plug path (crumb.fill inside)) := spans
    obtain ⟨fork, stands⟩ := (inner spans : Spans forks _ (crumb.fill inside)).stands
    have refilled : Stands later crumb.side crumb.color other crumb.label crumb.other fork := by
      refine ⟨?_, stands.color, stands.key, ?_, ?_⟩
      · exact (same _ (Path.mem_handles_cons.mpr (.inl rfl))).trans stands.held
      · rw [stands.child, ← top]
        exact filled
      · exact stands.far.kept fun handle member => same handle (Path.mem_handles_cons.mpr (.inr (.inl member)))
    show Spans later root (Path.plug path (crumb.fill other))
    apply ih onParent
    · exact Shape.top?_branch.trans Shape.top?_branch.symm
    · rw [show (crumb.fill other).top? = some crumb.label.handle from Shape.top?_branch]
      exact refilled.spans
    · exact fun handle member => same handle (Path.mem_handles_cons.mpr (.inr (.inr member)))

/-- One node may get another colour and another value. -/
theorem recast {other : Color} {value : Held V} (spans : Spans forks root (path.plug (.branch side color near tag far)))
    (distinct : (path.plug (.branch side color near tag far)).handles.Nodup)
    (stands : Stands forks side color near tag far fork)
    (changed : later.get? tag.handle = some { fork with color := other, value := value })
    (same : ∀ handle, handle ≠ tag.handle → later.get? handle = forks.get? handle) :
    Spans later root (path.plug (.branch side other near tag far)) := by
  obtain ⟨_, ofNode, apart⟩ := Path.nodup_plug.mp distinct
  have inside := Shape.perm_handles_branch.nodup_iff.mp ofNode
  rw [List.nodup_cons, List.mem_append, not_or] at inside
  apply spans.replug (Shape.top?_branch.trans Shape.top?_branch.symm)
  · rw [Shape.top?_branch]
    have near := stands.near.kept fun handle inNear => same handle fun equal => inside.1.1 (equal ▸ inNear)
    have far := stands.far.kept fun handle inFar => same handle fun equal => inside.1.2 (equal ▸ inFar)
    apply Stands.spans ⟨changed, rfl, stands.key, ?_, ?_⟩
    · cases side <;> exact near
    · cases side <;> exact far
  · have member : tag.handle ∈ (Shape.branch side color near tag far).handles :=
      Shape.perm_handles_branch.mem_iff.mpr List.mem_cons_self
    exact fun handle inPath => same handle fun equal => apart inPath (equal ▸ member)

theorem isRed {rooted : RootedMap K V} (spans : Spans rooted.forks start shape) :
    rooted.isRed start = .ok shape.isRed := by
  cases spans with
  | nil => rfl
  | @node handle fork left right held onLeft onRight =>
    simp only [RootedMap.isRed, Slots.fetch_of_get? held, bind, Except.bind, pure, Except.pure]
    cases fork.color <;> rfl

end Spans

namespace RootedMap

/-- Links and colours may have changed, but no key and no value. -/
structure Keeps (map after : RootedMap K V) : Prop where
  frame : after = { map with root := after.root, forks := after.forks }
  values : ∀ handle, (after.forks.get? handle).map Fork.value = (map.forks.get? handle).map Fork.value
  next : after.forks.next = map.forks.next

variable {map middle after : RootedMap K V} {handle : Handle}

theorem Keeps.trans (one : map.Keeps middle) (two : middle.Keeps after) : map.Keeps after := by
  refine ⟨?_, fun handle => (two.values handle).trans (one.values handle), two.next.trans one.next⟩
  rw [two.frame, one.frame]

theorem refork_eq {forks : Slots (Fork K V)} (held : map.forks.get? handle = some fork) (change : Fork K V → Fork K V)
    (done : map.forks.replace handle (change fork) = .ok forks) :
    map.refork handle change = .ok { map with forks := forks } := by
  simp only [refork, Slots.fetch_of_get? held, done, bind, Except.bind, pure, Except.pure]

theorem refork_ends (held : map.forks.get? handle = some fork) (change : Fork K V → Fork K V)
    (value : (change fork).value = fork.value) :
    ∃ after, map.refork handle change = .ok after ∧ map.Keeps after ∧ after.root = map.root ∧
      after.forks.get? handle = some (change fork) ∧
      ∀ other, other ≠ handle → after.forks.get? other = map.forks.get? other := by
  obtain ⟨forks, done⟩ := Slots.replace_of_get? held (change fork)
  have view := Slots.get?_replace done
  refine ⟨_, refork_eq held change done, ⟨rfl, fun other => ?_, Slots.next_replace done⟩, rfl,
    (view handle).trans (if_pos rfl), fun other different => (view other).trans (if_neg different)⟩
  rw [view]
  by_cases same : other = handle
  · rw [if_pos same, same, held, Option.map_some, Option.map_some, value]
  · rw [if_neg same]

/-- The slot at the end of a path leads to another subtree from now on. -/
theorem link_ends (spans : Spans forks map.root (path.plug inside))
    (same : ∀ handle ∈ path.handles, map.forks.get? handle = forks.get? handle)
    (filled : Spans map.forks other.top? other) (distinct : (path.plug inside).handles.Nodup)
    (apart : path.handles.Disjoint other.handles) :
    ∃ after, map.link path.trail.head? other.top? = .ok after ∧ map.Keeps after ∧
      Spans after.forks after.root (path.plug other) ∧
      ∀ handle, handle ∉ path.handles → after.forks.get? handle = map.forks.get? handle := by
  cases path with
  | nil => exact ⟨{ map with root := other.top? }, rfl, ⟨rfl, fun _ => rfl, rfl⟩, filled, fun _ _ => rfl⟩
  | cons crumb path =>
    have onParent : Spans forks map.root (Path.plug path (crumb.fill inside)) := spans
    obtain ⟨fork, stands⟩ := (onParent.inner : Spans forks _ (crumb.fill inside)).stands
    have top : crumb.label.handle ∈ Path.handles (crumb :: path) := Path.mem_handles_cons.mpr (.inl rfl)
    obtain ⟨after, done, keeps, root, changed, still⟩ := refork_ends ((same _ top).trans stands.held)
      (·.withChild crumb.side other.top?) (fork.value_withChild _ _)
    refine ⟨after, done, keeps, ?_, fun handle outside => ?_⟩
    · -- The rest of the path has the parent on top before and after.
      have fits : (Path.plug path (crumb.fill inside)).handles.Nodup := distinct
      obtain ⟨_, ofParent, beyond⟩ := Path.nodup_plug.mp fits
      have parent := Shape.perm_handles_branch.nodup_iff.mp ofParent
      rw [List.nodup_cons, List.mem_append, not_or] at parent
      have inFill {handle : Handle} (member : handle = crumb.label.handle ∨ handle ∈ crumb.other.handles) :
          handle ∈ (crumb.fill inside).handles := by
        apply Shape.perm_handles_branch.mem_iff.mpr
        rw [List.mem_cons, List.mem_append]
        exact member.imp_right .inr
      rw [root]
      show Spans after.forks map.root (Path.plug path (crumb.fill other))
      apply onParent.replug
      · exact Shape.top?_branch.trans Shape.top?_branch.symm
      · rw [show (crumb.fill other).top? = some crumb.label.handle from Shape.top?_branch]
        apply (stands.withChild changed ?_ ?_).spans
        · exact filled.kept fun handle member => still handle fun equal => apart top (equal ▸ member)
        · intro handle member
          rw [still handle fun equal => parent.1.2 (equal ▸ member)]
          exact same handle (Path.mem_handles_cons.mpr (.inr (.inl member)))
      · intro handle member
        rw [still handle fun equal => beyond member (inFill (.inl equal))]
        exact same handle (Path.mem_handles_cons.mpr (.inr (.inr member)))
    · exact still handle fun equal => outside (equal ▸ top)

/-! ### Maps with a tree under way -/

/-- The map in storage is this one with another tree, in which no node occurs twice. -/
structure Forms (rooted : RootedMap K V) (map : OrderedMap K V) (shape : Shape (Tag K)) : Prop where
  lays : rooted.Lays { map with shape := shape }
  distinct : shape.handles.Nodup

namespace Forms

variable {rooted : RootedMap K V} {map : OrderedMap K V}

theorem keeps (forms : rooted.Forms map shape) (keeps : rooted.Keeps after)
    (spans : Spans after.forks after.root other) (distinct : other.handles.Nodup) : after.Forms map other := by
  obtain ⟨frame, values, next⟩ := keeps
  refine ⟨⟨?_, ?_, ?_, ?_, spans, fun handle => ?_, next.trans forms.lays.next⟩, distinct⟩
  · rw [frame]
    exact forms.lays.id
  · rw [frame]
    exact forms.lays.policy
  · rw [frame]
    exact forms.lays.noOverwrite
  · rw [frame]
    exact forms.lays.transactions
  · exact (values handle).trans (forms.lays.values handle)

theorem inner (forms : rooted.Forms map (path.plug inside)) : Spans rooted.forks inside.top? inside :=
  forms.lays.spans.inner

/-! ### The same tree from another place -/

theorem whole (forms : rooted.Forms map shape) : rooted.Forms map (Path.plug [] shape) := forms

theorem above {crumb : Crumb (Tag K)} (forms : rooted.Forms map (Path.plug (crumb :: path) inside)) :
    rooted.Forms map (path.plug (.branch crumb.side crumb.color inside crumb.label crumb.other)) := forms

theorem below (forms : rooted.Forms map (path.plug (.branch side color near tag far))) :
    rooted.Forms map (Path.plug (⟨color, tag, side, far⟩ :: path) near) := forms

theorem aside (forms : rooted.Forms map (path.plug (.branch side color near tag far))) :
    rooted.Forms map (Path.plug (⟨color, tag, side.other, near⟩ :: path) far) := by
  rw [← Path.plug_aside]
  exact forms

/-! ### Single steps -/

/-- The node below a path is found as it is stored. -/
theorem stands (forms : rooted.Forms map (path.plug (.branch side color near tag far))) :
    ∃ fork, rooted.forks.fetch tag.handle = .ok fork ∧ Stands rooted.forks side color near tag far fork := by
  obtain ⟨fork, stands⟩ := forms.inner.stands
  exact ⟨fork, Slots.fetch_of_get? stands.held, stands⟩

theorem isRed (forms : rooted.Forms map (path.plug inside)) : rooted.isRed inside.top? = .ok inside.isRed :=
  forms.inner.isRed

theorem paint (forms : rooted.Forms map (path.plug (.branch side color near tag far))) (other : Color) :
    ∃ after, rooted.paint tag.handle other = .ok after ∧
      after.Forms map (path.plug (.branch side other near tag far)) := by
  obtain ⟨fork, _, stands⟩ := forms.stands
  obtain ⟨after, done, keeps, root, changed, same⟩ := refork_ends stands.held ({ · with color := other }) rfl
  refine ⟨after, done, forms.keeps keeps ?_ ?_⟩
  · rw [root]
    exact forms.lays.spans.recast forms.distinct stands changed same
  · have recolored :
        (Shape.branch side other near tag far).handles = (Shape.branch side color near tag far).handles := by
      cases side <;> simp [Shape.branch]
    obtain ⟨ofPath, ofNode, apart⟩ := Path.nodup_plug.mp forms.distinct
    exact Path.nodup_plug.mpr ⟨ofPath, recolored ▸ ofNode, recolored ▸ apart⟩

/-- The subtree below a path gets a black root, if it has a root. -/
theorem blacken (forms : rooted.Forms map (path.plug inside)) :
    ∃ after, rooted.paintAny inside.top? .black = .ok after ∧ after.Forms map (path.plug inside.blacken) := by
  cases inside with
  | nil => exact ⟨rooted, rfl, forms⟩
  | node color left tag right =>
    have onNode : rooted.Forms map (path.plug (.branch .left color left tag right)) := forms
    exact onNode.paint .black

/-- The slot at the end of a path is made to lead to another subtree that is there. -/
theorem link (forms : rooted.Forms map (path.plug inside)) (filled : Spans rooted.forks other.top? other)
    (fits : (path.plug other).handles.Nodup) :
    ∃ after, rooted.link path.trail.head? other.top? = .ok after ∧ rooted.Keeps after ∧
      after.Forms map (path.plug other) ∧
      ∀ handle, handle ∉ path.handles → after.forks.get? handle = rooted.forks.get? handle := by
  obtain ⟨_, _, apart⟩ := Path.nodup_plug.mp fits
  obtain ⟨after, done, keeps, spans, same⟩ :=
    link_ends forms.lays.spans (fun _ _ => rfl) filled forms.distinct apart
  exact ⟨after, done, keeps, forms.keeps keeps spans fits, same⟩

/-- A rotation raises the far child of the node below a path, and hands the child between the two over. -/
theorem rotate {upper lower : Color} {pivot : Tag K} {outer between beyond : Shape (Tag K)}
    (forms : rooted.Forms map
      (path.plug (.branch side upper outer tag (.branch side lower between pivot beyond)))) :
    ∃ after, rooted.rotate path.trail.head? tag.handle side = .ok (pivot.handle, after) ∧
      after.Forms map (path.plug (.branch side lower (.branch side upper outer tag between) pivot beyond)) := by
  obtain ⟨high, fetched, onTop⟩ := forms.stands
  obtain ⟨low, below⟩ := onTop.far.stands
  obtain ⟨ofPath, ofNodes, apart⟩ := Path.nodup_plug.mp forms.distinct
  have fits : path.handles.Disjoint
      (Shape.branch side lower (.branch side upper outer tag between) pivot beyond).handles :=
    fun handle member there => apart member (Shape.perm_handles_rotated.mem_iff.mp there)
  have different : tag.handle ≠ pivot.handle := by
    have nodup := Shape.perm_handles_pair.nodup_iff.mp ofNodes
    rw [List.nodup_cons, List.mem_cons, not_or] at nodup
    exact nodup.1.1
  obtain ⟨lowered, one, kept, root, onHigh, apartTop⟩ := refork_ends onTop.held
    (·.withChild side.other (low.child side)) (high.value_withChild _ _)
  obtain ⟨raised, two, keptToo, rootToo, onLow, apartLow⟩ := refork_ends
    ((apartTop pivot.handle (Ne.symm different)).trans below.held)
    (·.withChild side (some tag.handle)) (low.value_withChild _ _)
  have same : ∀ handle, handle ≠ tag.handle → handle ≠ pivot.handle →
      raised.forks.get? handle = rooted.forks.get? handle := by
    intro handle notTop notLow
    rw [apartLow handle notLow, apartTop handle notTop]
  replace onHigh : raised.forks.get? tag.handle = some (high.withChild side.other between.top?) := by
    rw [apartLow _ different, onHigh, below.child]
  have filled := onTop.rotated below ofNodes onHigh onLow same
  have top : (Shape.branch side lower (.branch side upper outer tag between) pivot beyond).top? = some pivot.handle :=
    Shape.top?_branch
  rw [← top] at filled
  have spans : Spans rooted.forks raised.root
      (path.plug (.branch side upper outer tag (.branch side lower between pivot beyond))) := by
    rw [rootToo, root]
    exact forms.lays.spans
  have beside : ∀ handle ∈ path.handles, raised.forks.get? handle = rooted.forks.get? handle := by
    intro handle member
    have absent := fun there => apart member (Shape.perm_handles_pair.mem_iff.mpr there)
    exact same handle (fun equal => absent (by simp [equal])) fun equal => absent (by simp [equal])
  obtain ⟨after, three, keptLast, spansLast, _⟩ := link_ends spans beside filled forms.distinct fits
  rw [top] at three
  refine ⟨after, ?_, forms.keeps ((kept.trans keptToo).trans keptLast) spansLast
    (Path.nodup_plug.mpr ⟨ofPath, Shape.perm_handles_rotated.nodup_iff.mpr ofNodes, fits⟩)⟩
  have child : high.child side.other = some pivot.handle := onTop.child_other.trans Shape.top?_branch
  simp only [RootedMap.rotate, fetched, child, Slots.fetch_of_get? below.held, one, two, three, bind, Except.bind,
    pure, Except.pure]

end Forms

end RootedMap

end KeyedStore
