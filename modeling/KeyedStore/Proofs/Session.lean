import KeyedStore.Proofs.Store
/-!
Sessions of any number of stores and cursors, whatever the policies answer. The stores of a session are
well-formed and have identities of their own, and every cursor may be moved on every store. One command keeps
this and is answered, so every run of commands goes through.
-/
namespace KeyedStore

variable {K V : Type}

/-- The command makes a store. -/
def Command.makes : Command K V → Bool
  | .create _ _ => true
  | _ => false

/-- The command asks a question and changes nothing. -/
def Command.asks : Command K V → Bool
  | .lookup _ _ | .lookupEntry _ _ | .contains _ _ | .profile _ | .chainSizes _ | .entries _ _ | .isFinished _ => true
  | _ => false

namespace Session

/-- What every command keeps. -/
structure Sound (session : Session K V) : Prop where
  wellFormed : ∀ number store, session.stores.get? number = some store → store.WellFormed
  issued : ∀ number store, session.stores.get? number = some store →
    store.id.serial < session.nextId.serial
  apart : ∀ number other store twin, session.stores.get? number = some store →
    session.stores.get? other = some twin → store.id = twin.id → number = other
  owned : ∀ place cursor, session.cursors.get? place = some cursor →
    cursor.owner.serial < session.nextId.serial
  borne : ∀ number store place cursor, session.stores.get? number = some store →
    session.cursors.get? place = some cursor → store.Bears cursor

theorem sound_empty : ({} : Session K V).Sound := by
  have noStore : ∀ number store, ({} : Session K V).stores.get? number = some store → False := nofun
  have noCursor : ∀ place cursor, ({} : Session K V).cursors.get? place = some cursor → False := nofun
  exact ⟨fun number store held => (noStore number store held).elim,
    fun number store held => (noStore number store held).elim,
    fun number _ store _ held => (noStore number store held).elim,
    fun place cursor held => (noCursor place cursor held).elim,
    fun number store _ _ held => (noStore number store held).elim⟩

namespace Sound

variable {session : Session K V} {store after : Store K V} {cursor moved : Cursor K} {number place : Nat}

/-- A store gives way to what it has become. -/
theorem setStore (sound : session.Sound) (held : session.stores.get? number = some store)
    (evolves : store.Evolves after) : (session.setStore number after).Sound := by
  -- Whatever stands under a number is what stood there, or what it has become.
  have former : ∀ other current, (session.setStore number after).stores.get? other = some current →
      ∃ past, session.stores.get? other = some past ∧ past.Evolves current := by
    intro other current found
    rcases Roster.placed_or_get?_of_set found with ⟨rfl, rfl⟩ | old
    · exact ⟨store, held, evolves⟩
    · exact ⟨current, old, .refl (sound.wellFormed other current old)⟩
  constructor
  · intro other current found
    obtain ⟨_, _, evolved⟩ := former other current found
    exact evolved.wellFormed
  · intro other current found
    obtain ⟨past, known, evolved⟩ := former other current found
    rw [evolved.id]
    exact sound.issued other past known
  · intro one two first second found sought same
    obtain ⟨past, known, evolved⟩ := former one first found
    obtain ⟨twin, learnt, grown⟩ := former two second sought
    exact sound.apart one two past twin known learnt (evolved.id.symm.trans (same.trans grown.id))
  · exact sound.owned
  · intro other current place cursor found standing
    obtain ⟨past, known, evolved⟩ := former other current found
    exact evolved.bears (sound.borne other past place cursor known standing)

/-- A cursor takes a place that every store of the session agrees to. -/
theorem setCursor (sound : session.Sound) (place : Nat) (owned : cursor.owner.serial < session.nextId.serial)
    (borne : ∀ number store, session.stores.get? number = some store → store.Bears cursor) :
    (session.setCursor place cursor).Sound := by
  refine ⟨sound.wellFormed, sound.issued, sound.apart, ?_, ?_⟩
  · intro other current found
    rcases Roster.placed_or_get?_of_set found with ⟨_, rfl⟩ | old
    · exact owned
    · exact sound.owned other current old
  · intro number store other current held found
    rcases Roster.placed_or_get?_of_set found with ⟨_, rfl⟩ | old
    · exact borne number store held
    · exact sound.borne number store other current held old

/-- A cursor of one of the stores may be moved on all of them. -/
theorem bears_of_stands (sound : session.Sound) (held : session.stores.get? number = some store)
    (stands : store.Stands cursor) {other : Nat} {twin : Store K V}
    (found : session.stores.get? other = some twin) : twin.Bears cursor := by
  by_cases same : store.id = twin.id
  · obtain rfl := sound.apart number other store twin held found same
    obtain rfl : store = twin := Option.some.inj (held.symm.trans found)
    exact .inr stands
  · exact .inl (.inr (stands.owner ▸ same))

theorem opened (sound : session.Sound) (held : session.stores.get? number = some store) (place : Nat) :
    (session.setCursor place store.start).Sound := by
  have stands := store.stands_start
  refine sound.setCursor place ?_ fun other twin found => sound.bears_of_stands held stands found
  rw [stands.owner]
  exact sound.issued number store held

/-- A store and a cursor give way to what became of both. -/
theorem followed (sound : session.Sound) (held : session.stores.get? number = some store)
    (stood : session.cursors.get? place = some cursor) (evolves : store.Evolves after)
    (moving : after.Moved cursor moved) :
    ((session.setStore number after).setCursor place moved).Sound := by
  have middle := sound.setStore held evolves
  have standing : (session.setStore number after).stores.get? number = some after := by
    rw [Session.setStore, Roster.get?_set, if_pos rfl]
  refine middle.setCursor place ?_ fun other twin found => ?_
  · rw [moving.owner]
    exact sound.owned place cursor stood
  · have bears : twin.Bears cursor := middle.borne other twin place cursor found stood
    by_cases same : after.id = twin.id
    · obtain rfl := middle.apart number other after twin standing found same
      obtain rfl : after = twin := Option.some.inj (standing.symm.trans found)
      exact moving.bears_self bears
    · exact moving.bears bears same

/-- A fresh store has an identity that no store and no cursor of the session carries. -/
theorem created (sound : session.Sound) (number : Nat) (blueprint : Blueprint K V) :
    Sound { session.setStore number (Store.build session.nextId blueprint) with
      nextId := session.nextId.next } := by
  have fresh : (Store.build session.nextId blueprint).id = session.nextId := Store.id_build _ _
  have apart : ∀ other twin, session.stores.get? other = some twin →
      (Store.build session.nextId blueprint).id ≠ twin.id := by
    intro other twin old same
    have issued := sound.issued other twin old
    rw [← same, fresh] at issued
    exact absurd issued (Nat.lt_irrefl _)
  constructor
  · intro other current found
    rcases Roster.placed_or_get?_of_set found with ⟨_, rfl⟩ | old
    · exact Store.wellFormed_build _ _
    · exact sound.wellFormed other current old
  · intro other current found
    rcases Roster.placed_or_get?_of_set found with ⟨_, rfl⟩ | old
    · rw [fresh]
      exact Nat.lt_succ_self _
    · have issued := sound.issued other current old
      exact Nat.lt_succ_of_lt issued
  · intro one two first second found sought same
    rcases Roster.placed_or_get?_of_set found with ⟨rfl, rfl⟩ | old <;>
      rcases Roster.placed_or_get?_of_set sought with ⟨rfl, rfl⟩ | elder
    · rfl
    · exact absurd same (apart two second elder)
    · exact absurd same.symm (apart one first old)
    · exact sound.apart one two first second old elder same
  · intro place cursor stood
    have owned := sound.owned place cursor stood
    exact Nat.lt_succ_of_lt owned
  · intro other current place cursor found stood
    rcases Roster.placed_or_get?_of_set found with ⟨_, rfl⟩ | old
    · have owned := sound.owned place cursor stood
      refine .inl (.inr fun same => ?_)
      rw [same, fresh] at owned
      exact absurd owned (Nat.lt_irrefl _)
    · exact sound.borne other current place cursor old stood

theorem eraseStore (sound : session.Sound) (number : Nat) :
    Sound { session with stores := session.stores.erase number } := by
  have old : ∀ other current, (session.stores.erase number).get? other = some current →
      session.stores.get? other = some current := fun _ _ => Roster.get?_of_erase
  exact ⟨fun other current found => sound.wellFormed other current (old other current found),
    fun other current found => sound.issued other current (old other current found),
    fun one two first second found sought =>
      sound.apart one two first second (old one first found) (old two second sought),
    sound.owned,
    fun other current place cursor found => sound.borne other current place cursor (old other current found)⟩

theorem eraseCursor (sound : session.Sound) (place : Nat) :
    Sound { session with cursors := session.cursors.erase place } := by
  have old : ∀ other current, (session.cursors.erase place).get? other = some current →
      session.cursors.get? other = some current := fun _ _ => Roster.get?_of_erase
  exact ⟨sound.wellFormed, sound.issued, sound.apart,
    fun other current found => sound.owned other current (old other current found),
    fun number store other current held found =>
      sound.borne number store other current held (old other current found)⟩

/-! ### Commands -/

theorem ask_answers (sound : session.Sound) (number : Nat) {question : Store K V → Except Fault (Reply K V)}
    (answers : ∀ store : Store K V, store.WellFormed → ∃ reply, question store = .ok reply) :
    ∃ reply after, session.ask number question = .ok (reply, after) ∧ after.Sound := by
  cases held : session.stores.get? number with
  | none => exact ⟨.noStore, session, by simp only [ask, held], sound⟩
  | some store =>
    obtain ⟨reply, answered⟩ := answers store (sound.wellFormed number store held)
    exact ⟨reply, session, by simp only [ask, held, answered]; rfl, sound⟩

theorem change_answers (sound : session.Sound) (number : Nat)
    {action : Store K V → Except Fault (Reply K V × Store K V)}
    (answers : ∀ store : Store K V, store.WellFormed →
      ∃ reply after, action store = .ok (reply, after) ∧ store.Evolves after) :
    ∃ reply after, session.change number action = .ok (reply, after) ∧ after.Sound := by
  cases held : session.stores.get? number with
  | none => exact ⟨.noStore, session, by simp only [change, held], sound⟩
  | some store =>
    obtain ⟨reply, after, done, evolves⟩ := answers store (sound.wellFormed number store held)
    exact ⟨reply, session.setStore number after, by simp only [change, held, done]; rfl,
      sound.setStore held evolves⟩

theorem follow_answers (sound : session.Sound) (place number : Nat)
    {action : Store K V → Cursor K → Except Fault (Reply K V × Cursor K × Store K V)}
    (answers : ∀ (store : Store K V) (cursor : Cursor K), store.WellFormed → store.Bears cursor →
      ∃ reply moved after, action store cursor = .ok (reply, moved, after) ∧ store.Evolves after ∧
        after.Moved cursor moved) :
    ∃ reply after, session.follow place number action = .ok (reply, after) ∧ after.Sound := by
  cases held : session.stores.get? number with
  | none => exact ⟨.noStore, session, by simp only [follow, held], sound⟩
  | some store =>
    cases stood : session.cursors.get? place with
    | none => exact ⟨.noCursor, session, by simp only [follow, held, stood], sound⟩
    | some cursor =>
      obtain ⟨reply, moved, after, done, evolves, moving⟩ := answers store cursor
        (sound.wellFormed number store held) (sound.borne number store place cursor held stood)
      exact ⟨reply, (session.setStore number after).setCursor place moved,
        by simp only [follow, held, stood, done]; rfl, sound.followed held stood evolves moving⟩

/-- Every command is answered, and the session stays sound. -/
theorem step_answers (sound : session.Sound) (command : Command K V) :
    ∃ reply after, session.step command = .ok (reply, after) ∧ after.Sound := by
  cases command with
  | create number blueprint => exact ⟨_, _, rfl, sound.created number blueprint⟩
  | insert number key value granted =>
    refine sound.change_answers number fun store wellFormed => ?_
    obtain ⟨outcome, after, done, evolves⟩ := Store.insert_answers wellFormed key value granted
    exact ⟨.added outcome, after, by simp only [done]; rfl, evolves⟩
  | lookup number key =>
    refine sound.ask_answers number fun store wellFormed => ?_
    obtain ⟨found, answered⟩ := Store.lookup_answers wellFormed key
    exact ⟨.value found, by simp only [answered]; rfl⟩
  | lookupEntry number key =>
    refine sound.ask_answers number fun store wellFormed => ?_
    obtain ⟨found, answered⟩ := Store.lookupEntry_answers wellFormed key
    exact ⟨.entry found, by simp only [answered]; rfl⟩
  | contains number key =>
    refine sound.ask_answers number fun store wellFormed => ?_
    obtain ⟨answer, answered⟩ := Store.contains_answers wellFormed key
    exact ⟨.truth answer, by simp only [answered]; rfl⟩
  | remove number key granted =>
    refine sound.change_answers number fun store wellFormed => ?_
    obtain ⟨value, after, done, evolves⟩ := Store.remove_answers wellFormed key granted
    exact ⟨.removed value, after, by simp only [done]; rfl, evolves⟩
  | clear number granted =>
    refine sound.change_answers number fun store wellFormed => ?_
    obtain ⟨after, done, evolves⟩ := Store.clear_answers wellFormed granted
    exact ⟨.released store.size, after, by simp only [done]; rfl, evolves⟩
  | dispose number =>
    cases held : session.stores.get? number with
    | none => exact ⟨.noStore, session, by simp only [Engine.step, held], sound⟩
    | some store =>
      have released := Store.dispose_answers (sound.wellFormed number store held)
      exact ⟨.released store.size, _, by simp only [Engine.step, held, released]; rfl, sound.eraseStore number⟩
  | profile number =>
    refine sound.ask_answers number fun store wellFormed => ?_
    obtain ⟨profile, answered⟩ := Store.profile_answers wellFormed
    exact ⟨.profile profile, by simp only [answered]; rfl⟩
  | chainSizes number =>
    refine sound.ask_answers number fun store _ => ?_
    cases store with
    | ordered map => exact ⟨.chainSizes none, rfl⟩
    | hashed map => exact ⟨.chainSizes (some map.chainSizes), rfl⟩
  | entries number limit =>
    refine sound.ask_answers number fun store wellFormed => ?_
    obtain ⟨found, answered⟩ := Store.entries_answers wellFormed limit
    exact ⟨.entries found, by simp only [answered]; rfl⟩
  | openCursor place number =>
    cases held : session.stores.get? number with
    | none => exact ⟨.noStore, session, by simp only [Engine.step, held], sound⟩
    | some store => exact ⟨.done, _, by simp only [Engine.step, held]; rfl, sound.opened held place⟩
  | advance place number =>
    refine sound.follow_answers place number fun store cursor wellFormed bears => ?_
    obtain ⟨found, moved, stepped, owner, ended, stands⟩ := Store.advance_answers wellFormed bears
    refine ⟨.entry found, moved, store, by simp only [stepped]; rfl, .refl wellFormed, owner, .inr ?_⟩
    cases found with
    | none => exact .inl (ended rfl)
    | some entry => exact .inr (stands rfl)
  | drain place number =>
    refine sound.follow_answers place number fun store cursor wellFormed bears => ?_
    obtain ⟨found, moved, walked, moving⟩ := Store.walk_answers wellFormed (store.size + 1) bears
    refine ⟨.entries found, moved, store, ?_, .refl wellFormed, moving⟩
    simp only [Engine.drain, walked]
    rfl
  | consume place number limit granted =>
    refine sound.follow_answers place number fun store cursor wellFormed bears => ?_
    obtain ⟨found, moved, after, done, evolves, moving⟩ := Store.consume_answers wellFormed limit granted bears
    exact ⟨.consumed found, moved, after, by simp only [done]; rfl, evolves, moving⟩
  | isFinished place =>
    cases stood : session.cursors.get? place with
    | none => exact ⟨.noCursor, session, by simp only [Engine.step, stood], sound⟩
    | some cursor => exact ⟨.truth cursor.isFinished, session, by simp only [Engine.step, stood], sound⟩
  | closeCursor place =>
    cases stood : session.cursors.get? place with
    | none => exact ⟨.noCursor, session, by simp only [Engine.step, stood], sound⟩
    | some cursor => exact ⟨.done, _, by simp only [Engine.step, stood], sound.eraseCursor place⟩

end Sound

/-! ### What a reply comes from -/

section Inversion

variable {S C : Type} {engine : Engine S C K V} {session after : Session K V S C} {reply : Reply K V}

theorem ask_inverts {number : Nat} {question : S → Except Fault (Reply K V)}
    (asked : session.ask number question = .ok (reply, after)) : after = session := by
  unfold ask at asked
  split at asked
  · cases asked
    rfl
  · rename_i store held
    cases answered : question store with
    | error fault => rw [answered] at asked; cases asked
    | ok said => rw [answered] at asked; cases asked; rfl

theorem change_inverts {number : Nat} {action : S → Except Fault (Reply K V × S)}
    (changed : session.change number action = .ok (reply, after)) :
    after = session ∨ ∃ store later, session.stores.get? number = some store ∧
      action store = .ok (reply, later) ∧ after = session.setStore number later := by
  unfold change at changed
  split at changed
  · cases changed
    exact .inl rfl
  · rename_i store held
    cases done : action store with
    | error fault => rw [done] at changed; cases changed
    | ok said => rw [done] at changed; cases changed; exact .inr ⟨store, _, held, done, rfl⟩

theorem follow_inverts {place number : Nat}
    {action : S → C → Except Fault (Reply K V × C × S)}
    (followed : session.follow place number action = .ok (reply, after)) :
    after = session ∧ (reply = .noStore ∨ reply = .noCursor) ∨
      ∃ store cursor moved later, session.stores.get? number = some store ∧
        session.cursors.get? place = some cursor ∧ action store cursor = .ok (reply, moved, later) ∧
        after = (session.setStore number later).setCursor place moved := by
  unfold follow at followed
  split at followed
  · cases followed
    exact .inl ⟨rfl, .inl rfl⟩
  · cases followed
    exact .inl ⟨rfl, .inr rfl⟩
  · rename_i store cursor held stood
    cases done : action store cursor with
    | error fault => rw [done] at followed; cases followed
    | ok said => rw [done] at followed; cases followed; exact .inr ⟨store, cursor, _, _, held, stood, done, rfl⟩

theorem eq_of_asks {command : Command K V} (asks : command.asks = true)
    (stepped : engine.step session command = .ok (reply, after)) : after = session := by
  cases command with
  | lookup number key => exact ask_inverts stepped
  | lookupEntry number key => exact ask_inverts stepped
  | contains number key => exact ask_inverts stepped
  | profile number => exact ask_inverts stepped
  | chainSizes number => exact ask_inverts stepped
  | entries number limit => exact ask_inverts stepped
  | isFinished place =>
    simp only [Engine.step] at stepped
    split at stepped <;> cases stepped <;> rfl
  | _ => cases asks

theorem dispose_inverts {number : Nat} (stepped : engine.step session (.dispose number) = .ok (reply, after)) :
    after = session ∨ after = { session with stores := session.stores.erase number } := by
  simp only [Engine.step] at stepped
  split at stepped
  · cases stepped
    exact .inl rfl
  · obtain ⟨released, _, stepped⟩ := bind_eq_ok.mp stepped
    cases stepped
    exact .inr rfl

theorem openCursor_inverts {place number : Nat}
    (stepped : engine.step session (.openCursor place number) = .ok (reply, after)) :
    after = session ∨
      ∃ store cursor, engine.start store = .ok cursor ∧ after = session.setCursor place cursor := by
  simp only [Engine.step] at stepped
  split at stepped
  · cases stepped
    exact .inl rfl
  · obtain ⟨cursor, started, stepped⟩ := bind_eq_ok.mp stepped
    cases stepped
    exact .inr ⟨_, cursor, started, rfl⟩

theorem closeCursor_inverts {place : Nat} (stepped : engine.step session (.closeCursor place) = .ok (reply, after)) :
    after = session ∨ after = { session with cursors := session.cursors.erase place } := by
  simp only [Engine.step] at stepped
  split at stepped
  · cases stepped
    exact .inl rfl
  · cases stepped
    exact .inr rfl

/-- Only the making of a store issues an identity. -/
theorem nextId_of_step {command : Command K V} (makes : command.makes = false)
    (stepped : engine.step session command = .ok (reply, after)) : after.nextId = session.nextId := by
  have changing : ∀ {number action}, session.change number action = .ok (reply, after) →
      after.nextId = session.nextId := by
    intro number action changed
    rcases change_inverts changed with rfl | ⟨_, _, _, _, rfl⟩ <;> rfl
  have following : ∀ {place number action}, session.follow place number action = .ok (reply, after) →
      after.nextId = session.nextId := by
    intro place number action followed
    rcases follow_inverts followed with ⟨rfl, _⟩ | ⟨_, _, _, _, _, _, _, rfl⟩ <;> rfl
  cases command with
  | create number blueprint => cases makes
  | insert number key value granted => exact changing stepped
  | remove number key granted => exact changing stepped
  | clear number granted => exact changing stepped
  | dispose number => rcases dispose_inverts stepped with rfl | rfl <;> rfl
  | openCursor place number => rcases openCursor_inverts stepped with rfl | ⟨_, _, _, rfl⟩ <;> rfl
  | closeCursor place => rcases closeCursor_inverts stepped with rfl | rfl <;> rfl
  | advance place number => exact following stepped
  | drain place number => exact following stepped
  | consume place number limit granted => exact following stepped
  | _ => rw [eq_of_asks rfl stepped]

end Inversion

theorem run_eq_runAll {S C : Type} {engine : Engine S C K V} (session : Session K V S C)
    (commands : List (Command K V)) : engine.run session commands = runAll engine.step session commands := by
  induction commands generalizing session with
  | nil => rfl
  | cons command commands ih => simp only [Engine.run, runAll, ih]

end Session

end KeyedStore
