import KeyedStore.Proofs.Store
/-!
What cursors return. Whatever a step of a cursor returns is an entry of the store that it is moved on, at that
moment; only a cursor of this store that has not ended gets one, and a cursor has ended after a step exactly
when the step returned nothing. So too along a walk, and along a traversal that removes what it returns.
-/
namespace KeyedStore

variable {K V : Type}

namespace Store

/-- What the index of the store names. -/
def tags : Store K V → List (Tag K)
  | ordered map => map.shape.toList
  | hashed map => map.links.map Link.tag

/-- The store has this entry: its index names the key, with a handle that leads to the value. -/
def Has (store : Store K V) (entry : K × V) : Prop :=
  ∃ tag ∈ store.tags, ∃ value, store.slots.get? tag.handle = some value ∧ entry = (tag.key.val, value.val)

variable {store after : Store K V} {cursor moved : Cursor K} {found : Option (K × V)}

/-- The store has exactly what a fresh cursor returns. -/
theorem has_iff (wellFormed : store.WellFormed) {entry : K × V} :
    store.Has entry ↔ ∃ listed, store.entries none = .ok listed ∧ entry ∈ listed := by
  have listing : store.entries none = .ok ((store.slots.records () store.tags).map Record.pair) := by
    cases store with
    | ordered map => exact OrderedMap.entries_eq wellFormed
    | hashed map => exact HashedMap.entries_eq wellFormed
  simp only [listing, Except.ok.injEq, exists_eq_left', List.mem_map, Slots.mem_records]
  constructor
  · rintro ⟨tag, named, value, held, rfl⟩
    exact ⟨⟨(), tag.key, value⟩, ⟨tag, named, value, held, rfl⟩, rfl⟩
  · rintro ⟨_, ⟨tag, named, value, held, rfl⟩, rfl⟩
    exact ⟨tag, named, value, held, rfl⟩

/-- A cursor that stands in a store is one of this store, and has not ended. -/
theorem Stands.active (stands : store.Stands cursor) : cursor.isFinished = false := by
  rcases stands.kinds with ⟨map, position, rfl, rfl, admits⟩ | ⟨map, position, last, rfl, rfl, placed⟩
  · exact admits.active
  · exact placed.active

/-- What a step returns to a cursor is an entry of the store. -/
theorem Stands.has (stands : store.Stands cursor) (wellFormed : store.WellFormed) {entry : K × V}
    (stepped : store.advance cursor = .ok (some entry, moved)) : store.Has entry := by
  rcases stands.kinds with ⟨map, cursor, rfl, rfl, admits⟩ | ⟨map, cursor, last, rfl, rfl, placed⟩
  · cases reached : (cursor.synchronize map).next with
    | none =>
      simp only [advance, OrderedMap.advance_ended admits.active admits.owned reached] at stepped
      cases stepped
    | some spot =>
      have named : spot.label ∈ map.shape.toList := by
        apply admits.onward_suffix.subset
        rw [reached]
        exact List.mem_cons_self
      obtain ⟨value, held⟩ := OrderedMap.WellFormed.live wellFormed named
      simp only [advance, OrderedMap.advance_reached admits.active admits.owned reached held] at stepped
      cases stepped
      exact ⟨spot.label, named, value, held, rfl⟩
  · by_cases present : cursor.epoch = map.epoch
    · cases reached : map.ahead last with
      | nil =>
        obtain ⟨ended, ends, _⟩ := HashedMap.advance_ended wellFormed placed present reached
        simp only [advance, ends] at stepped
        cases stepped
      | cons item rest =>
        obtain ⟨value, live⟩ := HashedMap.WellFormed.live_of_ahead wellFormed reached
        obtain ⟨later, steps, _⟩ := HashedMap.advance_reached wellFormed placed present reached live
        have named : item.2 ∈ map.links := HashedMap.mem_links_of_ahead reached
        simp only [advance, steps] at stepped
        cases stepped
        exact ⟨item.2.tag, List.mem_map_of_mem named, value, live, rfl⟩
    · simp only [advance, HashedMap.advance_outdated placed present] at stepped
      cases stepped

/-- What a step of a cursor does: if it returns an entry, the cursor stood in the store and the entry is one of
the store; if it returns nothing, the cursor has ended. -/
structure Stepped (store : Store K V) (cursor : Cursor K) (found : Option (K × V)) (moved : Cursor K) :
    Prop where
  owner : moved.owner = cursor.owner
  finished : moved.isFinished = found.isNone
  stands : found.isSome = true → store.Stands moved
  stood : found.isSome = true → store.Stands cursor
  has : ∀ entry, found = some entry → store.Has entry

/-- A step of any cursor that may be moved is one of these. -/
theorem advance_steps (wellFormed : store.WellFormed) (bears : store.Bears cursor) :
    ∃ found moved, store.advance cursor = .ok (found, moved) ∧ store.Stepped cursor found moved := by
  obtain ⟨found, moved, stepped, owner, ended, standing⟩ := advance_answers wellFormed bears
  cases found with
  | none => exact ⟨none, moved, stepped, owner, ended rfl, nofun, nofun, nofun⟩
  | some entry =>
    have stood : store.Stands cursor := by
      rcases bears with unborne | stands
      · rw [advance_unborne unborne] at stepped
        cases stepped
      · exact stands
    refine ⟨some entry, moved, stepped, owner, (standing rfl).active, standing, fun _ => stood, ?_⟩
    rintro _ ⟨⟩
    exact stood.has wellFormed stepped

/-! ### Several steps -/

/-- A walk on a store that stays as it is: each step returns an entry of it, and the cursor has ended after
the walk if it had before, or if it was not given as many entries as it asked for. -/
theorem walk_steps (wellFormed : store.WellFormed) (limit : Nat) (bears : store.Bears cursor) :
    ∃ found moved, store.walk limit cursor = .ok (found, moved) ∧ moved.owner = cursor.owner ∧
      moved.isFinished = (cursor.isFinished || decide (found.length < limit)) ∧
      (found ≠ [] → store.Stands cursor) ∧ ∀ entry ∈ found, store.Has entry := by
  induction limit generalizing cursor with
  | zero => exact ⟨[], cursor, rfl, rfl, by simp, nofun, nofun⟩
  | succ limit ih =>
    obtain ⟨found, next, stepped, step⟩ := advance_steps wellFormed bears
    cases found with
    | none =>
      refine ⟨[], next, ?_, step.owner, ?_, nofun, nofun⟩
      · simp only [Engine.walk, stepped, bind, Except.bind, pure, Except.pure]
      · simp [step.finished]
    | some entry =>
      have active := (step.stood rfl).active
      obtain ⟨rest, moved, walked, owner, finished, _, listed⟩ := ih (.inr (step.stands rfl))
      refine ⟨entry :: rest, moved, ?_, owner.trans step.owner, ?_, fun _ => step.stood rfl, ?_⟩
      · simp only [Engine.walk, stepped, walked, bind, Except.bind, pure, Except.pure]
      · rw [finished, step.finished, active]
        simp
      · exact List.forall_mem_cons.mpr ⟨step.has entry rfl, listed⟩

/-- A traversal that removes what it returns: each step returns an entry of what the steps before it have
left of the store. -/
theorem consume_steps (wellFormed : store.WellFormed) (limit : Nat) (granted : Bool)
    (bears : store.Bears cursor) :
    ∃ found moved after, store.consume limit cursor granted = .ok (found, moved, after) ∧ store.Evolves after ∧
      moved.owner = cursor.owner ∧
      moved.isFinished = (cursor.isFinished || decide (found.length < limit)) ∧
      (found ≠ [] → store.Stands cursor) ∧
      ∀ count entry value, found[count]? = some (entry, value) →
        ∃ passing middle, store.consume count cursor granted = .ok (found.take count, passing, middle) ∧
          middle.Has entry := by
  induction limit generalizing store cursor with
  | zero => exact ⟨[], cursor, store, rfl, .refl wellFormed, rfl, by simp, nofun, nofun⟩
  | succ limit ih =>
    obtain ⟨found, next, stepped, step⟩ := advance_steps wellFormed bears
    cases found with
    | none =>
      refine ⟨[], next, store, consume_ended limit granted stepped, .refl wellFormed, step.owner, ?_, nofun, nofun⟩
      simp [step.finished]
    | some entry =>
      have active := (step.stood rfl).active
      obtain ⟨value, left, removed, one⟩ := remove_answers wellFormed entry.1 granted
      obtain ⟨rest, moved, after, consumed, two, owner, finished, _, listed⟩ :=
        ih one.wellFormed (.inr (one.stands next (step.stands rfl)))
      refine ⟨(entry, value) :: rest, moved, after, consume_taken stepped removed consumed, one.trans two,
        owner.trans step.owner, ?_, fun _ => step.stood rfl, ?_⟩
      · rw [finished, step.finished, active]
        simp
      · intro count other handed sought
        cases count with
        | zero =>
          obtain ⟨rfl, rfl⟩ := Prod.mk.inj (Option.some.inj sought)
          exact ⟨cursor, store, rfl, step.has entry rfl⟩
        | succ count =>
          obtain ⟨passing, middle, begun, has⟩ := listed count other handed sought
          exact ⟨passing, middle, consume_taken stepped removed begun, has⟩

end Store

end KeyedStore
