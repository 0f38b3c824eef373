import KeyedStore.Proofs.Simulation
import KeyedStore.Proofs.Slots
import KeyedStore.Proofs.Ledger
import KeyedStore.Proofs.Shape.Repair
import KeyedStore.Proofs.Shape.InOrder
/-!
What the operations of an ordered map can do, stated once, and the shape that every run of them keeps.
Nothing is asked of the comparison: where a descent ends is taken as it comes, and the colour laws and
the bookkeeping of handles follow from the repairs alone.
-/
namespace KeyedStore.OrderedMap

variable {K V : Type}

/-- The shape is a red-black tree, and its tags name exactly the values that are stored, each once. -/
structure WellFormed (map : OrderedMap K V) : Prop where
  redBlack : map.shape.RedBlack
  inUse : map.slots.InUse (map.shape.toList.map (·.handle))

/-- The four ways in which an addition ends, each with what it leaves behind. -/
inductive Insertion (map : OrderedMap K V) (key : Held K) (value : Held V) :
    Except AddError Addition → OrderedMap K V → Prop where
  | refused {path : Path (Tag K)} {color : Color} {left right : Shape (Tag K)} {tag : Tag K}
      (met : map.descend key.val = (path, .node color left tag right))
      (kept : map.noOverwrite = true) : Insertion map key value (.error .keyExists) map
  | updated {path : Path (Tag K)} {color : Color} {left right : Shape (Tag K)} {tag : Tag K}
      {slots : Slots (Held V)} (met : map.descend key.val = (path, .node color left tag right))
      (free : map.noOverwrite = false)
      (done : map.slots.replace tag.handle (map.policy.secureValue value) = .ok slots) :
      Insertion map key value (.ok .updated) { map with slots := slots }
  | full {path : Path (Tag K)} (missed : map.descend key.val = (path, .nil))
      (full : map.slots.isFull = true) : Insertion map key value (.error .noRoom) map
  | inserted {path : Path (Tag K)} (missed : map.descend key.val = (path, .nil))
      (room : map.slots.isFull = false) :
      Insertion map key value (.ok .inserted) { map with
        shape := Shape.repairRed path .nil ⟨map.slots.next, map.policy.secureKey key⟩ .nil
        slots := map.slots.insert (map.policy.secureValue value)
        transactions := map.transactions + 1 }

/-- The two ways in which a removal ends. -/
inductive Removal (map : OrderedMap K V) (key : K) : Option (Held V) → OrderedMap K V → Prop where
  | missed {path : Path (Tag K)} (missed : map.descend key = (path, .nil)) : Removal map key none map
  | removed {path : Path (Tag K)} {color : Color} {left right shape : Shape (Tag K)} {tag : Tag K}
      {value : Held V} {slots : Slots (Held V)}
      (met : map.descend key = (path, .node color left tag right))
      (closed : Shape.removeAt path color left right = .ok shape)
      (taken : map.slots.take tag.handle = .ok (value, slots)) :
      Removal map key (some value) { map with
        shape := shape
        slots := slots
        transactions := map.transactions + 1 }

/-- What a clearing leaves. Clearing an empty map is no transaction. -/
def cleared (map : OrderedMap K V) (slots : Slots (Held V)) : OrderedMap K V :=
  { map with
    shape := .nil
    slots := slots
    transactions := if map.size = 0 then map.transactions else map.transactions + 1 }

variable {map after : OrderedMap K V}

/-! ### Where a descent ends -/

theorem plug_descend {key : K} {path : Path (Tag K)} {inside : Shape (Tag K)}
    (ended : map.descend key = (path, inside)) : path.plug inside = map.shape := by
  have whole := Path.plug_search (probe map.policy key) [] map.shape
  rw [show Path.search (probe map.policy key) [] map.shape = (path, inside) from ended] at whole
  exact whole

/-- A descent that falls off the shape ends in a gap between two tags. -/
theorem toList_missed {key : K} {path : Path (Tag K)} (missed : map.descend key = (path, .nil)) :
    map.shape.toList = path.before ++ path.after := by
  rw [← plug_descend missed, Path.toList_plug, Shape.toList, List.append_nil]

/-- A descent that meets a tag splits the others around it. -/
theorem toList_met {key : K} {path : Path (Tag K)} {color : Color} {left right : Shape (Tag K)}
    {tag : Tag K} (met : map.descend key = (path, .node color left tag right)) :
    map.shape.toList = (path.before ++ left.toList) ++ tag :: (right.toList ++ path.after) := by
  rw [← plug_descend met, Path.toList_plug, Shape.toList]
  simp

theorem toList_hung (path : Path (Tag K)) (tag : Tag K) :
    (Shape.repairRed path .nil tag .nil).toList = path.before ++ tag :: path.after := by
  simp [Shape.toList_repairRed, Shape.toList]

theorem toList_closed {path : Path (Tag K)} {color : Color} {left right shape : Shape (Tag K)}
    (closed : Shape.removeAt path color left right = .ok shape) :
    shape.toList = (path.before ++ left.toList) ++ (right.toList ++ path.after) := by
  simp [Shape.toList_removeAt closed]

namespace WellFormed

theorem balanced (wellFormed : map.WellFormed) : ∃ height, map.shape.Balanced height :=
  Shape.redBlack_iff.mp wellFormed.redBlack

theorem size_eq (wellFormed : map.WellFormed) : map.shape.size = map.size := by
  rw [size, wellFormed.inUse.size, List.length_map, Shape.length_toList]

/-- The tag a descent meets names a stored value. -/
theorem get?_of_met (wellFormed : map.WellFormed) {key : K} {path : Path (Tag K)} {color : Color}
    {left right : Shape (Tag K)} {tag : Tag K}
    (met : map.descend key = (path, .node color left tag right)) :
    ∃ value, map.slots.get? tag.handle = some value := by
  apply wellFormed.inUse.get?
  simp [toList_met met]

end WellFormed

/-! ### Every operation ends in one of its ways -/

theorem insert_ends (wellFormed : map.WellFormed) (key : Held K) (value : Held V) :
    ∃ outcome after, map.insert key value = .ok (outcome, after) ∧
      Insertion map key value outcome after := by
  cases ended : map.descend key.val with
  | mk path inside =>
    cases inside with
    | nil =>
      cases room : map.slots.isFull with
      | true => exact ⟨_, _, by simp [insert, ended, room], .full ended room⟩
      | false => exact ⟨_, _, by simp [insert, ended, room], .inserted ended room⟩
    | node color left tag right =>
      cases kept : map.noOverwrite with
      | true => exact ⟨_, _, by simp [insert, ended, kept], .refused ended kept⟩
      | false =>
        obtain ⟨old, held⟩ := wellFormed.get?_of_met ended
        obtain ⟨slots, done⟩ := Slots.replace_of_get? held (map.policy.secureValue value)
        refine ⟨_, _, ?_, .updated ended kept done⟩
        simp [insert, ended, kept, done, bind, Except.bind, pure, Except.pure]

theorem remove_ends (wellFormed : map.WellFormed) (key : K) :
    ∃ value after, map.remove key = .ok (value, after) ∧ Removal map key value after := by
  cases ended : map.descend key with
  | mk path inside =>
    cases inside with
    | nil => exact ⟨_, _, by simp [remove, ended], .missed ended⟩
    | node color left tag right =>
      obtain ⟨height, balanced⟩ := wellFormed.balanced
      rw [← plug_descend ended] at balanced
      obtain ⟨shape, _, closed, _⟩ := Shape.balanced_removeAt balanced
      obtain ⟨value, held⟩ := wellFormed.get?_of_met ended
      obtain ⟨slots, taken⟩ := Slots.take_of_get? held
      refine ⟨_, _, ?_, .removed ended closed taken⟩
      simp [remove, ended, closed, taken, bind, Except.bind, pure, Except.pure]

/-- A clearing releases every value, and what it leaves is an empty shape over empty slots. -/
theorem clear_ends (wellFormed : map.WellFormed) :
    ∃ slots, slots.InUse [] ∧ slots.next = map.slots.next ∧ map.clear = .ok (map.size, map.cleared slots) := by
  have inUse := wellFormed.inUse.perm (map.shape.perm_postorder.symm.map (·.handle))
  obtain ⟨slots, released, empty⟩ := Slots.release_inUse _ _ inUse
  refine ⟨slots, empty, Slots.next_release _ _ released, ?_⟩
  simp only [clear, release, released, cleared, ← wellFormed.size_eq]
  rfl

/-! ### Every operation keeps the map well-formed -/

theorem Insertion.wellFormed {key : Held K} {value : Held V} {outcome : Except AddError Addition}
    (insertion : Insertion map key value outcome after) (wellFormed : map.WellFormed) :
    after.WellFormed := by
  cases insertion with
  | refused => exact wellFormed
  | full => exact wellFormed
  | updated met free done => exact ⟨wellFormed.redBlack, wellFormed.inUse.replace done⟩
  | @inserted path missed room =>
    constructor
    · obtain ⟨height, balanced⟩ := wellFormed.balanced
      rw [← plug_descend missed] at balanced
      obtain ⟨below, sound, _, onPath⟩ := Path.balanced_plug.mp balanced
      have repaired := Shape.balanced_repairRed onPath ⟨rfl, sound⟩ ⟨rfl, sound⟩
        ⟨map.slots.next, map.policy.secureKey key⟩
      exact Shape.redBlack_iff.mpr ⟨_, repaired⟩
    · refine wellFormed.inUse.insert.perm ?_
      rw [toList_missed missed, toList_hung, List.map_append, List.map_append]
      exact List.perm_middle.symm

theorem Removal.wellFormed {key : K} {value : Option (Held V)} (removal : Removal map key value after)
    (wellFormed : map.WellFormed) : after.WellFormed := by
  cases removal with
  | missed => exact wellFormed
  | @removed path color left right shape tag value slots met closed taken =>
    constructor
    · obtain ⟨height, balanced⟩ := wellFormed.balanced
      rw [← plug_descend met] at balanced
      obtain ⟨whole, lowered, done, _, repaired⟩ := Shape.balanced_removeAt balanced
      obtain rfl : whole = shape := Except.ok.inj (done.symm.trans closed)
      exact Shape.redBlack_iff.mpr ⟨lowered, repaired⟩
    · refine (wellFormed.inUse.perm ?_).take taken
      rw [toList_met met, toList_closed closed]
      exact List.perm_middle.map Tag.handle

theorem wellFormed_cleared (map : OrderedMap K V) {slots : Slots (Held V)} (empty : slots.InUse []) :
    (map.cleared slots).WellFormed :=
  ⟨Shape.redBlack_iff.mpr ⟨0, rfl, trivial, rfl⟩, empty⟩

theorem wellFormed_fresh (id : Identity) (policy : Policy K V) (noOverwrite : Bool) :
    ({ id, policy, noOverwrite } : OrderedMap K V).WellFormed :=
  ⟨Shape.redBlack_iff.mpr ⟨0, rfl, trivial, rfl⟩, .empty⟩

/-- Behind the colour laws the check comes down to a count and to the order of the keys. -/
theorem check_of_redBlack (redBlack : map.shape.RedBlack) :
    ∃ height, (∀ way ∈ map.shape.descents, way.count .black + 1 = height) ∧
      map.check =
        if map.shape.size ≠ map.size then .error .miscount
        else if ascending map.policy.compare (map.shape.toList.map (·.key.val)) then .ok height
        else .error .disorder := by
  obtain ⟨height, black, sound⟩ := Shape.redBlack_iff.mp redBlack
  refine ⟨height + 1, ?_, ?_⟩
  · intro way member
    rw [Shape.levels_iff_descents.mp sound.2 way member]
  · simp [check, black, Shape.blackHeight_of_sound sound, bind, Except.bind]

/-- On a well-formed map the check comes down to the order of the keys. -/
theorem check_eq (wellFormed : map.WellFormed) : ∃ height, map.check =
    if ascending map.policy.compare (map.shape.toList.map (·.key.val)) then .ok height
    else .error .disorder := by
  obtain ⟨height, _, checked⟩ := check_of_redBlack wellFormed.redBlack
  exact ⟨height, by rw [checked, if_neg (not_not.mpr wellFormed.size_eq)]⟩

theorem check_of_wellFormed (wellFormed : map.WellFormed) :
    (∃ height, map.check = .ok height) ∨ map.check = .error .disorder := by
  obtain ⟨height, checked⟩ := check_eq wellFormed
  rw [checked]
  split
  · exact .inl ⟨height, rfl⟩
  · exact .inr rfl

/-! ### Runs of changes -/

/-- The map after a change, whatever the change answers. -/
def apply (map : OrderedMap K V) : Change K V → Except Fault (OrderedMap K V)
  | .insert key value => do return (← map.insert key value).2
  | .remove key => do return (← map.remove key).2
  | .clear => do return (← map.clear).2

/-- The map that a change leaves, by the way in which the change ended. -/
inductive Changed (map : OrderedMap K V) : Change K V → OrderedMap K V → Prop where
  | insert {key : Held K} {value : Held V} {outcome : Except AddError Addition} {after : OrderedMap K V}
      (insertion : Insertion map key value outcome after) : Changed map (.insert key value) after
  | remove {key : K} {value : Option (Held V)} {after : OrderedMap K V}
      (removal : Removal map key value after) : Changed map (.remove key) after
  | clear {slots : Slots (Held V)} (empty : slots.InUse []) : Changed map .clear (map.cleared slots)

theorem apply_ends (wellFormed : map.WellFormed) (change : Change K V) :
    ∃ after, map.apply change = .ok after ∧ Changed map change after := by
  cases change with
  | insert key value =>
    obtain ⟨outcome, after, done, insertion⟩ := insert_ends wellFormed key value
    exact ⟨after, by simp [apply, done, bind, Except.bind, pure, Except.pure], .insert insertion⟩
  | remove key =>
    obtain ⟨value, after, done, removal⟩ := remove_ends wellFormed key
    exact ⟨after, by simp [apply, done, bind, Except.bind, pure, Except.pure], .remove removal⟩
  | clear =>
    obtain ⟨slots, empty, _, done⟩ := clear_ends wellFormed
    exact ⟨_, by simp only [apply, done]; rfl, .clear empty⟩

theorem Changed.wellFormed {change : Change K V} (changed : Changed map change after)
    (wellFormed : map.WellFormed) : after.WellFormed := by
  cases changed with
  | insert insertion => exact insertion.wellFormed wellFormed
  | remove removal => exact removal.wellFormed wellFormed
  | clear empty => exact wellFormed_cleared map empty

/-- A change keeps what makes the map this map. It is counted exactly when it may have changed the
shape. -/
theorem Changed.frame {change : Change K V} (changed : Changed map change after)
    (wellFormed : map.WellFormed) :
    after.id = map.id ∧ after.policy = map.policy ∧ after.noOverwrite = map.noOverwrite ∧
      (after.transactions = map.transactions + 1 ∨
        after.transactions = map.transactions ∧ after.shape = map.shape) := by
  cases changed with
  | insert insertion =>
    cases insertion with
    | refused => exact ⟨rfl, rfl, rfl, .inr ⟨rfl, rfl⟩⟩
    | updated => exact ⟨rfl, rfl, rfl, .inr ⟨rfl, rfl⟩⟩
    | full => exact ⟨rfl, rfl, rfl, .inr ⟨rfl, rfl⟩⟩
    | inserted => exact ⟨rfl, rfl, rfl, .inl rfl⟩
  | remove removal =>
    cases removal with
    | missed => exact ⟨rfl, rfl, rfl, .inr ⟨rfl, rfl⟩⟩
    | removed => exact ⟨rfl, rfl, rfl, .inl rfl⟩
  | clear empty =>
    refine ⟨rfl, rfl, rfl, ?_⟩
    by_cases nothing : map.size = 0
    · have bare : map.shape = .nil := by
        have none := wellFormed.size_eq.trans nothing
        cases shape : map.shape with
        | nil => rfl
        | node color left tag right => simp [shape, Shape.size] at none
      exact .inr ⟨if_pos nothing, bare.symm⟩
    · exact .inl (if_neg nothing)

theorem applyAll_wellFormed (wellFormed : map.WellFormed) (changes : List (Change K V)) :
    ∃ after, changes.foldlM apply map = .ok after ∧ after.WellFormed := by
  refine foldlM_keeps (fun map change wellFormed => ?_) changes wellFormed
  obtain ⟨after, applied, changed⟩ := apply_ends wellFormed change
  exact ⟨after, applied, changed.wellFormed wellFormed⟩

/-- Whatever the comparison and the copying functions answer, every run of changes of a fresh map goes
through. It ends in a red-black tree whose nodes name exactly the live handles, each once, as many as the
map says it holds; and the check never finds anything but keys out of order. -/
theorem run_keeps_redBlack (id : Identity) (policy : Policy K V) (noOverwrite : Bool)
    (changes : List (Change K V)) :
    ∃ map : OrderedMap K V, changes.foldlM apply { id, policy, noOverwrite } = .ok map ∧
      map.shape.RedBlack ∧
      (map.shape.toList.map (·.handle)).Nodup ∧
      (∀ handle, handle ∈ map.shape.toList.map (·.handle) ↔ map.slots.contains handle = true) ∧
      map.shape.size = map.size ∧
      ((∃ height, map.check = .ok height) ∨ map.check = .error .disorder) := by
  obtain ⟨map, done, wellFormed⟩ :=
    applyAll_wellFormed (wellFormed_fresh id policy noOverwrite) changes
  exact ⟨map, done, wellFormed.redBlack, wellFormed.inUse.nodup, wellFormed.inUse.live,
    wellFormed.size_eq, check_of_wellFormed wellFormed⟩

end KeyedStore.OrderedMap
