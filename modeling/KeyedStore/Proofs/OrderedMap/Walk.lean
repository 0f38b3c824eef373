import KeyedStore.Store
import KeyedStore.Proofs.Shape.Search
import KeyedStore.Proofs.OrderedMap.Records
/-!
Reading an ordered map, whatever the comparison. What a key has is stored where its descent ends. The entries
are the records of the tags from left to right; the first and the last entry are the ends of that list, and a
cursor on a map that stays as it is returns what is left of the list and then ends.
-/
namespace KeyedStore

variable {K V : Type}

/-- A cursor of this map that has not ended and whose spot is one of the present shape. -/
structure OrderedCursor.Current (cursor : OrderedCursor K) (map : OrderedMap K V) : Prop where
  active : cursor.finished = false
  owned : cursor.owner = map.id
  present : cursor.transactions = map.transactions

namespace OrderedMap

variable {map : OrderedMap K V}

theorem entry_of_get? {tag : Tag K} {value : Held V} (held : map.slots.get? tag.handle = some value) :
    map.entry tag = .ok (tag.key.val, value.val) := by
  simp only [entry, Slots.fetch, held]
  rfl

/-! ### What a key is found to have -/

section Lookup

variable {key : K} {path : Path (Tag K)} {color : Color} {left right : Shape (Tag K)} {tag : Tag K}

theorem find?_of_met (met : map.descend key = (path, .node color left tag right)) :
    map.find? key = some tag := by
  rw [find?, met]
  rfl

theorem find?_of_missed (missed : map.descend key = (path, .nil)) : map.find? key = none := by
  rw [find?, missed]
  rfl

theorem lookupEntry_of_met {value : Held V} (met : map.descend key = (path, .node color left tag right))
    (held : map.slots.get? tag.handle = some value) :
    map.lookupEntry key = .ok (some (tag.key.val, value.val)) := by
  simp only [lookupEntry, find?_of_met met, entry?, entry_of_get? held]
  rfl

theorem lookupEntry_of_missed (missed : map.descend key = (path, .nil)) :
    map.lookupEntry key = .ok none := by
  rw [lookupEntry, find?_of_missed missed]
  rfl

end Lookup

theorem lookupEntry_answers (wellFormed : map.WellFormed) (key : K) : ∃ found, map.lookupEntry key = .ok found := by
  cases ended : map.descend key with
  | mk path inside =>
    cases inside with
    | nil => exact ⟨none, lookupEntry_of_missed ended⟩
    | node color left tag right =>
      obtain ⟨value, held⟩ := wellFormed.get?_of_met ended
      exact ⟨_, lookupEntry_of_met ended held⟩

/-! ### The two ends -/

theorem first_eq (wellFormed : map.WellFormed) :
    map.first = .ok (map.records.head?.map Record.pair) := by
  rw [first, Shape.first?_eq_head?, records]
  cases listed : map.shape.toList with
  | nil => rfl
  | cons tag tags =>
    have member : tag ∈ map.shape.toList := by simp [listed]
    obtain ⟨value, held⟩ := wellFormed.live member
    rw [Slots.records_cons held]
    simp only [List.head?_cons, entry?, entry_of_get? held]
    rfl

theorem last_eq (wellFormed : map.WellFormed) :
    map.last = .ok (map.records.getLast?.map Record.pair) := by
  rw [last, Shape.last?_eq_getLast?, records]
  rcases List.eq_nil_or_concat map.shape.toList with listed | ⟨tags, tag, listed⟩
  · rw [listed]
    rfl
  · have member : tag ∈ map.shape.toList := by simp [listed]
    obtain ⟨value, held⟩ := wellFormed.live member
    rw [listed, List.concat_eq_append, Slots.records_append, Slots.records_cons held]
    simp only [List.getLast?_append, List.getLast?_singleton, Option.some_or, entry?, entry_of_get? held]
    simp [Slots.records, Record.pair, bind, Except.bind, pure, Except.pure]

/-! ### A cursor, step by step -/

section Step

variable {cursor : OrderedCursor K}

theorem advance_ended (active : cursor.finished = false) (owned : cursor.owner = map.id)
    (ended : (cursor.synchronize map).next = none) :
    map.advance cursor = .ok (none, (cursor.synchronize map).stop) := by
  simp [advance, active, owned, ended]

theorem advance_reached {spot : Spot (Tag K)} {value : Held V} (active : cursor.finished = false)
    (owned : cursor.owner = map.id) (reached : (cursor.synchronize map).next = some spot)
    (held : map.slots.get? spot.label.handle = some value) :
    map.advance cursor = .ok (some (spot.label.key.val, value.val), { cursor.synchronize map with
      next := spot.next?
      lastKey := some (map.policy.rememberKey spot.label.key) }) := by
  simp [advance, active, owned, reached, entry_of_get? held, bind, Except.bind, pure, Except.pure]

/-- Synchronizing changes only where the cursor goes next, and makes it current. -/
theorem current_synchronize (active : cursor.finished = false) (owned : cursor.owner = map.id) :
    (cursor.synchronize map).Current map := by
  unfold OrderedCursor.synchronize
  split
  · rename_i present
    exact ⟨active, owned, present⟩
  · exact ⟨active, owned, rfl⟩

theorem synchronize_of_present (present : cursor.transactions = map.transactions) :
    cursor.synchronize map = cursor := by
  rw [OrderedCursor.synchronize, if_pos present]

end Step

theorem current_start (map : OrderedMap K V) : map.start.Current map := ⟨rfl, rfl, rfl⟩

theorem onward_start (map : OrderedMap K V) : Spot.onward map.start.next = map.shape.toList :=
  Path.onward_firstSpot map.shape

/-- A walk on a map that stays as it is returns what lies ahead of the cursor, as far as it goes. It finishes the
cursor when it is asked for more than that. -/
theorem walk_onward (wellFormed : map.WellFormed) (limit : Nat) (cursor : OrderedCursor K)
    (current : cursor.Current map)
    (within : ∀ tag ∈ Spot.onward cursor.next, tag ∈ map.shape.toList) :
    ∃ ended, (Store.ordered map).walk limit (.ordered cursor) =
        .ok (((map.slots.records () (Spot.onward cursor.next)).take limit).map Record.pair, ended) ∧
      (ended.isFinished = true ↔ (Spot.onward cursor.next).length < limit) := by
  have same := synchronize_of_present current.present
  induction limit generalizing cursor with
  | zero => exact ⟨.ordered cursor, rfl, by simp [Cursor.isFinished, current.active]⟩
  | succ limit ih =>
    cases reached : cursor.next with
    | none =>
      have ended := advance_ended current.active current.owned (by rw [same, reached])
      refine ⟨.ordered (cursor.synchronize map).stop.stop, ?_, iff_of_true rfl (Nat.succ_pos limit)⟩
      simp only [Engine.walk, Store.advance, ended, bind, Except.bind, pure, Except.pure]
      rfl
    | some spot =>
      rw [reached] at within
      obtain ⟨value, held⟩ := wellFormed.live (within spot.label List.mem_cons_self)
      have stepped := advance_reached current.active current.owned (by rw [same, reached]) held
      rw [same] at stepped
      have rest := Spot.onward_next? spot
      have further : ∀ tag ∈ Spot.onward spot.next?, tag ∈ map.shape.toList := by
        intro tag member
        rw [rest] at member
        exact within tag (List.mem_cons_of_mem _ member)
      obtain ⟨ended, walked, finished⟩ := ih
        { cursor with next := spot.next?, lastKey := some (map.policy.rememberKey spot.label.key) }
        ⟨current.active, current.owned, current.present⟩ further
        (synchronize_of_present current.present)
      rw [rest] at walked finished
      refine ⟨ended, ?_, finished.trans Nat.succ_lt_succ_iff.symm⟩
      simp only [Engine.walk, Store.advance, stepped, bind, Except.bind, pure, Except.pure,
        Option.isSome_some, if_true, walked, Spot.onward, Slots.records_cons held, List.take_succ_cons,
        List.map_cons]
      rfl

/-- A fresh cursor on a map that stays as it is returns the entries in the order of the shape. -/
theorem walk_start (wellFormed : map.WellFormed) (limit : Nat) :
    ∃ ended, (Store.ordered map).walk limit (.ordered map.start) =
        .ok ((map.records.take limit).map Record.pair, ended) ∧
      (ended.isFinished = true ↔ map.size < limit) := by
  have walked := walk_onward wellFormed limit map.start (current_start map) fun tag member => onward_start map ▸ member
  rw [onward_start, Shape.length_toList, wellFormed.size_eq] at walked
  exact walked

/-- All of them, when it is not told where to stop. -/
theorem entries_eq (wellFormed : map.WellFormed) :
    (Store.ordered map).entries none = .ok (map.records.map Record.pair) := by
  have enough : map.records.length ≤ map.size + 1 := by
    rw [length_records wellFormed]
    exact Nat.le_succ _
  obtain ⟨ended, walked, _⟩ := walk_start wellFormed (map.size + 1)
  rw [List.take_of_length_le enough] at walked
  simp only [Engine.entries, Option.getD_none, Store.size, Store.start, walked, bind, Except.bind]
  rfl

/-! ### A cursor that may be late -/

/-- A cursor of this map that has not ended. Unless a change was counted since it was moved last, its spot is
one of the present shape. -/
structure Admits (map : OrderedMap K V) (cursor : OrderedCursor K) : Prop where
  active : cursor.finished = false
  owned : cursor.owner = map.id
  past : cursor.transactions ≤ map.transactions
  whole : cursor.transactions = map.transactions → ∀ spot, cursor.next = some spot → spot.whole = map.shape

theorem admits_start (map : OrderedMap K V) : map.Admits map.start :=
  ⟨rfl, rfl, Nat.le_refl _, fun _ _ found => Path.whole_firstSpot found⟩

/-- A change that was not counted left a cursor in the shape that it was in. -/
theorem Changed.still {change : Change K V} {after : OrderedMap K V} {cursor : OrderedCursor K}
    (changed : Changed map change after) (wellFormed : map.WellFormed)
    (past : cursor.transactions ≤ map.transactions) (present : cursor.transactions = after.transactions) :
    cursor.transactions = map.transactions ∧ after.shape = map.shape := by
  -- A counted change moves the count past every cursor, so none stands at it.
  obtain ⟨_, _, _, more | ⟨same, shape⟩⟩ := changed.frame wellFormed
  · omega
  · exact ⟨present.trans same, shape⟩

namespace Admits

variable {cursor : OrderedCursor K} {after : OrderedMap K V}

theorem changed {change : Change K V} (admits : map.Admits cursor) (changed : Changed map change after)
    (wellFormed : map.WellFormed) : after.Admits cursor := by
  obtain ⟨id, _, _, counted⟩ := changed.frame wellFormed
  have past := admits.past
  refine ⟨admits.active, admits.owned.trans id.symm, ?_, fun present => ?_⟩
  · omega
  · obtain ⟨before, shape⟩ := changed.still wellFormed past present
    rw [shape]
    exact admits.whole before

/-- Wherever a cursor goes on that finds the map changed, it is in the present shape. -/
theorem synchronize (admits : map.Admits cursor) : map.Admits (cursor.synchronize map) := by
  unfold OrderedCursor.synchronize
  split
  · exact admits
  · refine ⟨admits.active, admits.owned, Nat.le_refl _, fun _ spot resumed => ?_⟩
    change OrderedCursor.resume map cursor.lastKey = some spot at resumed
    unfold OrderedCursor.resume at resumed
    split at resumed
    · exact Path.whole_firstSpot resumed
    · exact Path.whole_firstBeyond resumed

theorem current (admits : map.Admits cursor) : (cursor.synchronize map).Current map :=
  current_synchronize admits.active admits.owned

/-- What lies ahead of a cursor is the end of the list of tags. -/
theorem onward_suffix (admits : map.Admits cursor) :
    Spot.onward (cursor.synchronize map).next <:+ map.shape.toList := by
  cases reached : (cursor.synchronize map).next with
  | none => exact List.nil_suffix
  | some spot =>
    rw [← admits.synchronize.whole admits.current.present spot reached, Spot.toList_whole]
    exact List.suffix_append _ _

/-- A cursor has nothing ahead, or a spot of the present shape whose value is stored. -/
theorem finds (admits : map.Admits cursor) (wellFormed : map.WellFormed) :
    (cursor.synchronize map).next = none ∨
      ∃ spot value, (cursor.synchronize map).next = some spot ∧ spot.whole = map.shape ∧
        map.slots.get? spot.label.handle = some value := by
  cases reached : (cursor.synchronize map).next with
  | none => exact .inl rfl
  | some spot =>
    have whole := admits.synchronize.whole admits.current.present spot reached
    have member : spot.label ∈ map.shape.toList := by
      rw [← whole, Spot.toList_whole]
      exact List.mem_append_right _ List.mem_cons_self
    obtain ⟨value, held⟩ := wellFormed.live member
    exact .inr ⟨spot, value, rfl, whole, held⟩

/-- From a spot of the present shape it goes on to one. -/
theorem moved {spot : Spot (Tag K)} (admits : map.Admits cursor) (whole : spot.whole = map.shape)
    (lastKey : Option (Held K)) :
    map.Admits { cursor.synchronize map with next := spot.next?, lastKey := lastKey } := by
  have current := admits.current
  refine ⟨current.active, current.owned, Nat.le_of_eq current.present, fun _ following found => ?_⟩
  exact (Spot.whole_next? found).trans whole

/-- A step of a cursor is answered, and leaves it in the present shape unless it ends. -/
theorem advance_answers (admits : map.Admits cursor) (wellFormed : map.WellFormed) :
    ∃ found moved, map.advance cursor = .ok (found, moved) ∧ moved.owner = cursor.owner ∧
      (found.isSome = true → map.Admits moved) := by
  have owner := admits.current.owned.trans admits.owned.symm
  rcases admits.finds wellFormed with ended | ⟨spot, value, reached, whole, held⟩
  · exact ⟨none, _, advance_ended admits.active admits.owned ended, owner, nofun⟩
  · exact ⟨_, _, advance_reached admits.active admits.owned reached held, owner, fun _ => admits.moved whole _⟩

theorem advance_synchronize (admits : map.Admits cursor) :
    map.advance (cursor.synchronize map) = map.advance cursor := by
  have current := admits.current
  have same := synchronize_of_present current.present
  simp [advance, same, current.active, current.owned, admits.active, admits.owned]

/-- One step more than there are entries takes any cursor to its end. -/
theorem drain_ends (admits : map.Admits cursor) (wellFormed : map.WellFormed) :
    ∃ found ended, (Store.ordered map).drain (.ordered cursor) = .ok (found, ended) ∧
      ended.isFinished = true := by
  have ahead := admits.onward_suffix
  have enough : (Spot.onward (cursor.synchronize map).next).length < map.size + 1 := by
    have bound := ahead.length_le
    rw [Shape.length_toList, wellFormed.size_eq] at bound
    omega
  obtain ⟨ended, walked, finished⟩ := walk_onward wellFormed (map.size + 1) (cursor.synchronize map)
    admits.current fun _ member => ahead.subset member
  have drained : (Store.ordered map).drain (.ordered cursor) =
      (Store.ordered map).drain (.ordered (cursor.synchronize map)) := by
    simp only [Engine.drain, Engine.walk, Store.advance, admits.advance_synchronize]
  exact ⟨_, ended, drained.trans walked, finished.mpr enough⟩

end Admits

end OrderedMap

end KeyedStore
