import KeyedStore.Session
import KeyedStore.Proofs.OrderedMap.Walk
import KeyedStore.Proofs.HashedMap.Traversal
/-!
Stores of either kind, whatever their policies answer. Every operation of a well-formed store is answered and
leaves a well-formed store, in which every cursor that stood in the old one still stands. A cursor that may
be moved on a store has ended, belongs to another store, or stands in it; in each case a step of it is
answered, and a traversal that is carried on comes to its end.
-/
namespace KeyedStore

variable {K V : Type}

/-- The store that a cursor walks. -/
def Cursor.owner : Cursor K → Identity
  | ordered cursor => cursor.owner
  | hashed cursor => cursor.owner

theorem Cursor.owner_stop (cursor : Cursor K) : cursor.stop.owner = cursor.owner := by
  cases cursor <;> rfl

namespace Store

/-- Where the values lie. -/
def slots : Store K V → Slots (Held V)
  | ordered map => map.slots
  | hashed map => map.slots

/-- The handles that the index names. -/
def handles : Store K V → List Handle
  | ordered map => map.shape.toList.map (·.handle)
  | hashed map => map.links.map (·.handle)

def WellFormed : Store K V → Prop
  | ordered map => map.WellFormed
  | hashed map => map.WellFormed

/-- A cursor of this store that has not ended and finds its place in it. -/
def Stands : Store K V → Cursor K → Prop
  | ordered map, .ordered cursor => map.Admits cursor
  | hashed map, .hashed cursor => ∃ last, map.Stands cursor last
  | _, _ => False

/-- The cursor may be moved on the store: it has ended, belongs to another store, or stands in this one. -/
def Bears (store : Store K V) (cursor : Cursor K) : Prop :=
  (cursor.isFinished = true ∨ cursor.owner ≠ store.id) ∨ store.Stands cursor

/-- What a store becomes is well-formed, and no cursor loses its place in it. -/
structure Evolves (store after : Store K V) : Prop where
  id : after.id = store.id
  wellFormed : after.WellFormed
  stands : ∀ cursor, store.Stands cursor → after.Stands cursor

/-- What becomes of a cursor that is moved on a store: if anything, it ends or stands in the store. -/
structure Moved (store : Store K V) (cursor moved : Cursor K) : Prop where
  owner : moved.owner = cursor.owner
  stands : moved = cursor ∨ moved.isFinished = true ∨ store.Stands moved

variable {store middle after : Store K V} {cursor moved : Cursor K}

theorem WellFormed.inUse (wellFormed : store.WellFormed) : store.slots.InUse store.handles := by
  cases store with
  | ordered map => exact OrderedMap.WellFormed.inUse wellFormed
  | hashed map => exact HashedMap.WellFormed.inUse wellFormed

theorem wellFormed_build (id : Identity) (blueprint : Blueprint K V) : (build id blueprint).WellFormed := by
  cases blueprint with
  | ordered policy noOverwrite => exact OrderedMap.wellFormed_fresh id policy noOverwrite
  | hashed policy noOverwrite => exact HashedMap.wellFormed_fresh id policy noOverwrite

theorem id_build (id : Identity) (blueprint : Blueprint K V) : (build id blueprint).id = id := by
  cases blueprint <;> rfl

/-! ### Changes of a store -/

namespace Evolves

theorem refl (wellFormed : store.WellFormed) : store.Evolves store :=
  ⟨rfl, wellFormed, fun _ stands => stands⟩

theorem trans (one : store.Evolves middle) (two : middle.Evolves after) : store.Evolves after :=
  ⟨two.id.trans one.id, two.wellFormed, fun cursor stands => two.stands cursor (one.stands cursor stands)⟩

theorem bears (evolves : store.Evolves after) (bears : store.Bears cursor) : after.Bears cursor := by
  rcases bears with (finished | foreign) | stands
  · exact .inl (.inl finished)
  · exact .inl (.inr (evolves.id ▸ foreign))
  · exact .inr (evolves.stands cursor stands)

theorem ordered {map after : OrderedMap K V} {change : Change K V} (changed : OrderedMap.Changed map change after)
    (wellFormed : map.WellFormed) : (Store.ordered map).Evolves (.ordered after) := by
  refine ⟨(changed.frame wellFormed).1, changed.wellFormed wellFormed, fun cursor stands => ?_⟩
  cases cursor with
  | ordered cursor => exact OrderedMap.Admits.changed stands changed wellFormed
  | hashed cursor => exact stands

theorem hashed {map after : HashedMap K V} {granted : Bool} {change : Change K V}
    (changed : HashedMap.Changed map granted change after) (wellFormed : map.WellFormed) :
    (Store.hashed map).Evolves (.hashed after) := by
  have steady := changed.steady wellFormed
  refine ⟨steady.id, changed.wellFormed wellFormed, fun cursor stands => ?_⟩
  cases cursor with
  | ordered cursor => exact stands
  | hashed cursor =>
    obtain ⟨last, stands⟩ := stands
    exact ⟨last, stands.steady steady⟩

end Evolves

theorem insert_answers (wellFormed : store.WellFormed) (key : Held K) (value : Held V) (granted : Bool) :
    ∃ outcome after, store.insert key value granted = .ok (outcome, after) ∧ store.Evolves after := by
  cases store with
  | ordered map =>
    obtain ⟨outcome, after, done, insertion⟩ := OrderedMap.insert_ends wellFormed key value
    exact ⟨outcome, ordered after, by simp only [insert, done]; rfl, .ordered (.insert insertion) wellFormed⟩
  | hashed map =>
    obtain ⟨outcome, after, done, insertion⟩ := HashedMap.insert_ends wellFormed granted key value
    exact ⟨outcome, hashed after, by simp only [insert, done]; rfl, .hashed (.insert insertion) wellFormed⟩

theorem remove_answers (wellFormed : store.WellFormed) (key : K) (granted : Bool) :
    ∃ value after, store.remove key granted = .ok (value, after) ∧ store.Evolves after := by
  cases store with
  | ordered map =>
    obtain ⟨value, after, done, removal⟩ := OrderedMap.remove_ends wellFormed key
    exact ⟨value, ordered after, by simp only [remove, done]; rfl, .ordered (.remove removal) wellFormed⟩
  | hashed map =>
    obtain ⟨value, after, done, removal⟩ := HashedMap.remove_ends wellFormed granted key
    exact ⟨value, hashed after, by simp only [remove, done]; rfl, .hashed (.remove removal) wellFormed⟩

theorem clear_answers (wellFormed : store.WellFormed) (granted : Bool) :
    ∃ after, store.clear granted = .ok (store.size, after) ∧ store.Evolves after := by
  cases store with
  | ordered map =>
    obtain ⟨slots, empty, _, done⟩ := OrderedMap.clear_ends wellFormed
    exact ⟨ordered (map.cleared slots), by simp only [clear, done]; rfl, .ordered (.clear empty) wellFormed⟩
  | hashed map =>
    obtain ⟨after, done, cleared⟩ := HashedMap.clear_ends wellFormed granted
    exact ⟨hashed after, by simp only [clear, done]; rfl, .hashed (.clear cleared) wellFormed⟩

theorem dispose_answers (wellFormed : store.WellFormed) : store.dispose = .ok store.size := by
  cases store with
  | ordered map =>
    obtain ⟨slots, _, _, done⟩ := OrderedMap.clear_ends wellFormed
    simp only [dispose, done]
    rfl
  | hashed map =>
    obtain ⟨slots, _, _, done⟩ := HashedMap.releaseAll_ends wellFormed
    simp only [dispose, done]
    rfl

/-! ### Questions to a store -/

theorem lookupEntry_answers (wellFormed : store.WellFormed) (key : K) :
    ∃ found, store.lookupEntry key = .ok found := by
  cases store with
  | ordered map => exact OrderedMap.lookupEntry_answers wellFormed key
  | hashed map =>
    have found := (HashedMap.WellFormed.chained wellFormed).find_eq key
    cases met : map.meant key with
    | none =>
      refine ⟨none, ?_⟩
      simp [lookupEntry, HashedMap.lookupEntry, found, met, bind, Except.bind, pure, Except.pure]
    | some link =>
      obtain ⟨value, held⟩ := HashedMap.WellFormed.get?_of_met wellFormed met
      refine ⟨some (link.key.val, value.val), ?_⟩
      simp [lookupEntry, HashedMap.lookupEntry, found, met, HashedMap.entry_of_get? held, bind, Except.bind,
        pure, Except.pure]

theorem lookup_answers (wellFormed : store.WellFormed) (key : K) : ∃ found, store.lookup key = .ok found := by
  obtain ⟨found, answered⟩ := lookupEntry_answers wellFormed key
  refine ⟨found.map (·.2), ?_⟩
  cases store with
  | ordered map =>
    simp only [lookupEntry] at answered
    simp only [lookup, OrderedMap.lookup, answered]
    rfl
  | hashed map =>
    simp only [lookupEntry] at answered
    simp only [lookup, HashedMap.lookup, answered]
    rfl

theorem contains_answers (wellFormed : store.WellFormed) (key : K) :
    ∃ answer, store.contains key = .ok answer := by
  obtain ⟨found, answered⟩ := lookup_answers wellFormed key
  exact ⟨found.isSome, by simp only [contains, answered]; rfl⟩

theorem profile_answers (wellFormed : store.WellFormed) : ∃ profile, store.profile = .ok profile := by
  cases store with
  | ordered map =>
    have first := OrderedMap.first_eq wellFormed
    have last := OrderedMap.last_eq wellFormed
    exact ⟨_, by simp only [profile, first, last]; rfl⟩
  | hashed map => exact ⟨_, rfl⟩

/-! ### Cursors on a store -/

theorem stands_start (store : Store K V) : store.Stands store.start := by
  cases store with
  | ordered map => exact OrderedMap.admits_start map
  | hashed map => exact ⟨none, HashedMap.stands_start map⟩

/-- A cursor that stands in a store is of its kind. -/
theorem Stands.kinds (stands : store.Stands cursor) :
    (∃ map position, store = ordered map ∧ cursor = .ordered position ∧ map.Admits position) ∨
      ∃ map position last, store = hashed map ∧ cursor = .hashed position ∧ map.Stands position last := by
  cases store with
  | ordered map =>
    cases cursor with
    | ordered position => exact .inl ⟨map, position, rfl, rfl, stands⟩
    | hashed position => exact stands.elim
  | hashed map =>
    cases cursor with
    | ordered position => exact stands.elim
    | hashed position =>
      obtain ⟨last, stands⟩ := stands
      exact .inr ⟨map, position, last, rfl, rfl, stands⟩

theorem Stands.owner (stands : store.Stands cursor) : cursor.owner = store.id := by
  rcases stands.kinds with ⟨map, position, rfl, rfl, admits⟩ | ⟨map, position, last, rfl, rfl, placed⟩
  · exact admits.owned
  · exact placed.owned

/-- A cursor that has been moved on one store may still be moved on any other. -/
theorem Moved.bears {other : Store K V} (moving : store.Moved cursor moved) (bears : other.Bears cursor)
    (apart : store.id ≠ other.id) : other.Bears moved := by
  rcases moving.stands with rfl | finished | stands
  · exact bears
  · exact .inl (.inl finished)
  · exact .inl (.inr (stands.owner ▸ apart))

theorem Moved.bears_self (moving : store.Moved cursor moved) (bears : store.Bears cursor) :
    store.Bears moved := by
  rcases moving.stands with rfl | finished | stands
  · exact bears
  · exact .inl (.inl finished)
  · exact .inr stands

/-- What becomes of a cursor that stands in the store becomes of the one that was moved there. -/
theorem Moved.of_stands (stands : store.Stands cursor) {former : Cursor K} (owner : cursor.owner = former.owner)
    (moving : store.Moved cursor moved) : store.Moved former moved := by
  refine ⟨moving.owner.trans owner, .inr ?_⟩
  rcases moving.stands with rfl | ended
  · exact .inr stands
  · exact ended

/-- A cursor that has ended or belongs to another store ends. -/
theorem advance_unborne (unborne : cursor.isFinished = true ∨ cursor.owner ≠ store.id) :
    store.advance cursor = .ok (none, cursor.stop) := by
  match store, cursor with
  | .ordered map, .ordered cursor =>
    by_cases finished : cursor.finished = true
    · simp [advance, OrderedMap.advance, finished, bind, Except.bind, pure, Except.pure, Cursor.stop]
    · have foreign : cursor.owner ≠ map.id := unborne.resolve_left finished
      simp [advance, OrderedMap.advance, finished, foreign, bind, Except.bind, pure, Except.pure,
        Cursor.stop, OrderedCursor.stop]
  | .hashed map, .hashed cursor =>
    by_cases finished : cursor.finished = true
    · simp [advance, HashedMap.advance, finished, bind, Except.bind, pure, Except.pure, Cursor.stop]
    · have foreign : cursor.owner ≠ map.id := unborne.resolve_left finished
      simp [advance, HashedMap.advance, finished, foreign, bind, Except.bind, pure, Except.pure,
        Cursor.stop, HashedCursor.stop]
  | .ordered map, .hashed cursor => rfl
  | .hashed map, .ordered cursor => rfl

/-- A step of any cursor that may be moved is answered. A cursor that returns nothing has ended. -/
theorem advance_answers (wellFormed : store.WellFormed) (bears : store.Bears cursor) :
    ∃ found moved, store.advance cursor = .ok (found, moved) ∧ moved.owner = cursor.owner ∧
      (found.isNone = true → moved.isFinished = true) ∧ (found.isSome = true → store.Stands moved) := by
  rcases bears with unborne | stands
  · exact ⟨none, cursor.stop, advance_unborne unborne, cursor.owner_stop, fun _ => cursor.isFinished_stop, by simp⟩
  · rcases stands.kinds with ⟨map, cursor, rfl, rfl, admits⟩ | ⟨map, cursor, last, rfl, rfl, placed⟩
    · obtain ⟨found, moved, stepped, owner, standing⟩ := admits.advance_answers wellFormed
      cases found with
      | none =>
        exact ⟨none, .ordered moved.stop, by simp only [advance, stepped]; rfl, owner, fun _ => rfl, by simp⟩
      | some entry =>
        exact ⟨some entry, .ordered moved, by simp only [advance, stepped]; rfl, owner, by simp, standing⟩
    · obtain ⟨found, moved, stepped, owner, standing⟩ := placed.advance_answers wellFormed
      cases found with
      | none =>
        exact ⟨none, .hashed moved.stop, by simp only [advance, stepped]; rfl, owner, fun _ => rfl, by simp⟩
      | some entry =>
        exact ⟨some entry, .hashed moved, by simp only [advance, stepped]; rfl, owner, by simp, standing⟩

theorem walk_answers (wellFormed : store.WellFormed) (limit : Nat) (bears : store.Bears cursor) :
    ∃ found moved, store.walk limit cursor = .ok (found, moved) ∧ store.Moved cursor moved := by
  induction limit generalizing cursor with
  | zero => exact ⟨[], cursor, rfl, rfl, .inl rfl⟩
  | succ limit ih =>
    obtain ⟨found, next, stepped, owner, ended, standing⟩ := advance_answers wellFormed bears
    cases found with
    | none =>
      refine ⟨[], next, ?_, owner, .inr (.inl (ended rfl))⟩
      simp only [Engine.walk, stepped, bind, Except.bind, pure, Except.pure]
    | some entry =>
      have stands := standing rfl
      obtain ⟨rest, moved, walked, moving⟩ := ih (.inr stands)
      refine ⟨entry :: rest, moved, ?_, moving.of_stands stands owner⟩
      simp only [Engine.walk, stepped, walked, bind, Except.bind, pure, Except.pure]

theorem entries_answers (wellFormed : store.WellFormed) (limit : Option Nat) :
    ∃ found, store.entries limit = .ok found := by
  have bears : store.Bears store.start := .inr store.stands_start
  obtain ⟨found, moved, walked, _⟩ := walk_answers wellFormed (limit.getD (store.size + 1)) bears
  exact ⟨found, by simp only [Engine.entries, walked, bind, Except.bind]; rfl⟩

/-- Carried on, the traversal of any cursor that may be moved comes to its end. -/
theorem drain_ends (wellFormed : store.WellFormed) (bears : store.Bears cursor) :
    ∃ found ended, store.drain cursor = .ok (found, ended) ∧ ended.isFinished = true := by
  rcases bears with unborne | stands
  · refine ⟨[], cursor.stop, ?_, cursor.isFinished_stop⟩
    simp only [Engine.drain, Engine.walk, advance_unborne unborne, bind, Except.bind, pure, Except.pure]
  · rcases stands.kinds with ⟨map, position, rfl, rfl, admits⟩ | ⟨map, position, last, rfl, rfl, placed⟩
    · exact admits.drain_ends wellFormed
    · exact placed.drain_ends wellFormed

/-- A traversal that removes what it returns, where nothing is left for it. -/
theorem consume_ended (limit : Nat) (granted : Bool) (stepped : store.advance cursor = .ok (none, moved)) :
    store.consume (limit + 1) cursor granted = .ok ([], moved, store) := by
  simp only [Engine.consume, stepped, bind, Except.bind, pure, Except.pure]

/-- A traversal that removes what it returns, from one entry on. -/
theorem consume_taken {limit : Nat} {granted : Bool} {entry : K × V} {value : Option (Held V)} {ended : Cursor K}
    {rest : List ((K × V) × Option (Held V))} (stepped : store.advance cursor = .ok (some entry, moved))
    (removed : store.remove entry.1 granted = .ok (value, middle))
    (consumed : middle.consume limit moved granted = .ok (rest, ended, after)) :
    store.consume (limit + 1) cursor granted = .ok ((entry, value) :: rest, ended, after) := by
  simp only [Engine.consume, stepped, removed, consumed, bind, Except.bind, pure, Except.pure]

/-- A cursor returns an entry whose removal by its key gives its value back. -/
structure Hands {M : Type} (store : Store K V) (cursor : Cursor K) (record : Record M K V) (moved : Cursor K)
    (after : Store K V) : Prop where
  stepped : store.advance cursor = .ok (some record.pair, moved)
  removed : store.remove record.key.val = .ok (some record.value, after)

theorem Hands.consume {M : Type} {limit : Nat} {record : Record M K V} {ended : Cursor K}
    {rest : List ((K × V) × Option (Held V))} (hands : store.Hands cursor record moved middle)
    (consumed : middle.consume limit moved = .ok (rest, ended, after)) :
    store.consume (limit + 1) cursor = .ok (record.handed :: rest, ended, after) :=
  consume_taken hands.stepped hands.removed consumed

/-- Removing what a cursor returns, step after step: the cursor keeps its place in what is left. -/
theorem consume_answers (wellFormed : store.WellFormed) (limit : Nat) (granted : Bool) (bears : store.Bears cursor) :
    ∃ found moved after, store.consume limit cursor granted = .ok (found, moved, after) ∧ store.Evolves after ∧
      after.Moved cursor moved := by
  induction limit generalizing store cursor with
  | zero => exact ⟨[], cursor, store, rfl, .refl wellFormed, rfl, .inl rfl⟩
  | succ limit ih =>
    obtain ⟨found, next, stepped, owner, ended, standing⟩ := advance_answers wellFormed bears
    cases found with
    | none =>
      exact ⟨[], next, store, consume_ended limit granted stepped, .refl wellFormed, owner, .inr (.inl (ended rfl))⟩
    | some entry =>
      obtain ⟨value, middle, removed, one⟩ := remove_answers wellFormed entry.1 granted
      have stands := one.stands next (standing rfl)
      obtain ⟨rest, moved, after, consumed, two, moving⟩ := ih one.wellFormed (.inr stands)
      exact ⟨(entry, value) :: rest, moved, after, consume_taken stepped removed consumed, one.trans two,
        moving.of_stands (two.stands next stands) owner⟩

end Store

end KeyedStore
