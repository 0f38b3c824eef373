import KeyedStore.Proofs.Returns
import KeyedStore.Proofs.Session
/-!
Cursors keep to the store that they were opened on. What happens to the stores and cursors of a session can be
read off its commands and replies: which stores come and go under a number, when a cursor is opened under a
number and closed, and what every single step of it returned. A step returns an entry only on the store that
is still the one on which its cursor was opened, and only as long as no step of the cursor has returned
nothing; a store that was put in its place since, with whatever contents, gives it none.
-/
namespace KeyedStore

variable {K V : Type}

/-- What has happened to the numbered stores and cursors of a session. -/
inductive Happening (K V : Type) where
  | made (number : Nat)
  | dropped (number : Nat)
  | opened (place number : Nat)
  | closed (place : Nat)
  /-- One step of a cursor on a store. -/
  | moved (place number : Nat) (found : Option (K × V))

namespace Happening

/-- After this another store, or none, is meant by the number. -/
def Replaces (number : Nat) : Happening K V → Prop
  | made other => other = number
  | dropped other => other = number
  | _ => False

/-- After this another cursor, or none, is meant by the number. -/
def Reopens (place : Nat) : Happening K V → Prop
  | opened other _ => other = place
  | closed other => other = place
  | _ => False

/-- The cursor of this number got nothing, from whatever store. -/
def Ends (place : Nat) : Happening K V → Prop
  | moved other _ none => other = place
  | _ => False

/-- The steps of a cursor that returned these entries, and the one behind them that returned nothing, if there
was one. -/
def steps (place number : Nat) (found : List (K × V)) (ended : Bool) : List (Happening K V) :=
  found.map (fun entry => moved place number (some entry)) ++ if ended then [moved place number none] else []

/-- What a command has made happen, by its reply. -/
def told : Command K V → Reply K V → List (Happening K V)
  | .create number _, .created _ => [made number]
  | .dispose number, .released _ => [dropped number]
  | .openCursor place number, .done => [opened place number]
  | .closeCursor place, .done => [closed place]
  | .advance place number, .entry found => steps place number found.toList found.isNone
  | .drain place number, .entries found => steps place number found true
  | .consume place number limit _, .consumed found =>
    steps place number (found.map (·.1)) (decide (found.length < limit))
  | _, _ => []

/-- What some commands have made happen, the earliest first. -/
def history (commands : List (Command K V)) (replies : List (Reply K V)) : List (Happening K V) :=
  (List.zipWith told commands replies).flatten

/-- The cursor of this number is open on the store of that number: since it was opened there, neither has given
way to another one, and no step of it has returned nothing. -/
def Open (place number : Nat) (past : List (Happening K V)) : Prop :=
  ∃ before since, past = before ++ opened place number :: since ∧
    ∀ happening ∈ since, ¬ happening.Reopens place ∧ ¬ happening.Replaces number ∧ ¬ happening.Ends place

/-- A step of the cursor of this number has returned nothing. -/
def Ended (place : Nat) (past : List (Happening K V)) : Prop :=
  ∃ before number since, past = before ++ moved place number none :: since ∧
    ∀ happening ∈ since, ¬ happening.Reopens place

/-- Every step that returned an entry was one of a cursor on the store that it was open on. -/
def Confined (past : List (Happening K V)) : Prop :=
  ∀ index place number entry, past[index]? = some (moved place number (some entry)) →
    Open place number (past.take index)

variable {place number : Nat} {found : List (K × V)} {ended : Bool} {past happened : List (Happening K V)}

/-! ### Steps -/

theorem mem_steps {happening : Happening K V} : happening ∈ steps place number found ended ↔
    (∃ entry ∈ found, happening = moved place number (some entry)) ∨
      ended = true ∧ happening = moved place number none := by
  unfold steps
  cases ended <;> simp [eq_comm]

theorem ends_of_steps {other : Nat} : (∃ happening ∈ steps place number found ended, happening.Ends other) ↔
    ended = true ∧ place = other := by
  constructor
  · rintro ⟨happening, member, ends⟩
    rcases mem_steps.mp member with ⟨entry, _, rfl⟩ | ⟨rfl, rfl⟩
    · exact ends.elim
    · exact ⟨rfl, ends⟩
  · rintro ⟨rfl, rfl⟩
    exact ⟨moved place number none, mem_steps.mpr (.inr ⟨rfl, rfl⟩), rfl⟩

theorem not_reopens_of_steps {other : Nat} :
    ∀ happening ∈ steps place number found ended, ¬ happening.Reopens other := by
  intro happening member reopens
  rcases mem_steps.mp member with ⟨entry, _, rfl⟩ | ⟨_, rfl⟩ <;> exact reopens

theorem not_replaces_of_steps {other : Nat} :
    ∀ happening ∈ steps place number found ended, ¬ happening.Replaces other := by
  intro happening member replaces
  rcases mem_steps.mp member with ⟨entry, _, rfl⟩ | ⟨_, rfl⟩ <;> exact replaces

/-- Before a step that returned an entry none returned nothing. -/
theorem before_of_steps {index other store : Nat} {entry : K × V}
    (stepped : (steps place number found ended)[index]? = some (moved other store (some entry))) :
    other = place ∧ store = number ∧ found ≠ [] ∧
      ∀ happening ∈ (steps place number found ended).take index, ¬ happening.Ends place := by
  have member := List.mem_of_getElem? stepped
  have same : other = place ∧ store = number ∧ found ≠ [] := by
    rcases mem_steps.mp member with ⟨former, listed, same⟩ | ⟨_, same⟩
    · cases same
      exact ⟨rfl, rfl, List.ne_nil_of_mem listed⟩
    · cases same
  refine ⟨same.1, same.2.1, same.2.2, ?_⟩
  have within : index < found.length := by
    by_contra beyond
    have length : (found.map fun entry => moved place number (some entry)).length ≤ index := by
      rw [List.length_map]
      exact Nat.le_of_not_lt beyond
    rw [steps, List.getElem?_append_right length] at stepped
    have last := List.mem_of_getElem? stepped
    cases ended with
    | true => cases List.mem_singleton.mp last
    | false => cases last
  intro happening earlier ends
  rw [steps, List.take_append_of_le_length (by rw [List.length_map]; exact Nat.le_of_lt within),
    ← List.map_take] at earlier
  obtain ⟨former, _, rfl⟩ := List.mem_map.mp earlier
  exact ends

/-! ### Longer histories -/

theorem Open.onward (isOpen : Open place number past)
    (untouched : ∀ happening ∈ happened,
      ¬ happening.Reopens place ∧ ¬ happening.Replaces number ∧ ¬ happening.Ends place) :
    Open place number (past ++ happened) := by
  obtain ⟨before, since, rfl, still⟩ := isOpen
  exact ⟨before, since ++ happened, by simp, List.forall_mem_append.mpr ⟨still, untouched⟩⟩

theorem Confined.onward (confined : Confined past)
    (further : ∀ index place number entry, happened[index]? = some (moved place number (some entry)) →
      Open place number (past ++ happened.take index)) : Confined (past ++ happened) := by
  intro index place number entry stepped
  rcases Nat.lt_or_ge index past.length with within | beyond
  · rw [List.getElem?_append_left within] at stepped
    rw [List.take_append_of_le_length (Nat.le_of_lt within)]
    exact confined index place number entry stepped
  · rw [List.getElem?_append_right beyond] at stepped
    rw [List.take_append, List.take_of_length_le beyond]
    exact further _ place number entry stepped

/-- A cursor has got nothing exactly if it has since it was opened. -/
theorem ended_iff {before since : List (Happening K V)}
    (still : ∀ happening ∈ since, ¬ happening.Reopens place) :
    Ended place (before ++ opened place number :: since) ↔ ∃ happening ∈ since, happening.Ends place := by
  constructor
  · rintro ⟨earlier, store, later, same, untouched⟩
    rcases List.append_eq_append_iff.mp same with ⟨between, _, rest⟩ | ⟨between, _, rest⟩
    · -- The step comes after the opening.
      cases between with
      | nil => cases rest
      | cons head between =>
        obtain ⟨_, rfl⟩ := List.cons.inj rest
        exact ⟨moved place store none, by simp, rfl⟩
    · -- The opening does not come after the step.
      cases between with
      | nil => cases rest
      | cons head between =>
        obtain ⟨_, rfl⟩ := List.cons.inj rest
        exact absurd rfl (untouched (opened place number) (by simp))
  · rintro ⟨happening, member, ends⟩
    obtain ⟨earlier, later, rfl⟩ := List.append_of_mem member
    have after : ∀ happening ∈ later, ¬ happening.Reopens place := fun happening inside =>
      still happening (List.mem_append_right _ (List.mem_cons_of_mem _ inside))
    match happening, ends with
    | moved _ store none, rfl => exact ⟨before ++ opened place number :: earlier, store, later, by simp, after⟩

end Happening

namespace Session

open Happening

/-! ### What a command makes happen -/

/-- The ways in which a command is carried out, with what happens. -/
inductive Took (session : Session K V) : List (Happening K V) → Session K V → Prop where
  | still : Took session [] session
  | changed {number : Nat} {store after : Store K V} (held : session.stores.get? number = some store)
      (evolves : store.Evolves after) : Took session [] (session.setStore number after)
  | made (number : Nat) (blueprint : Blueprint K V) : Took session [.made number]
      { session.setStore number (Store.build session.nextId blueprint) with nextId := session.nextId.next }
  | dropped (number : Nat) :
      Took session [.dropped number] { session with stores := session.stores.erase number }
  | opened {number : Nat} {store : Store K V} (place : Nat) (held : session.stores.get? number = some store) :
      Took session [.opened place number] (session.setCursor place store.start)
  | closed (place : Nat) : Took session [.closed place] { session with cursors := session.cursors.erase place }
  | followed {place number : Nat} {store after : Store K V} {cursor moved : Cursor K} {found : List (K × V)}
      {ended : Bool} (held : session.stores.get? number = some store)
      (stood : session.cursors.get? place = some cursor) (evolves : store.Evolves after)
      (owner : moved.owner = cursor.owner) (finished : moved.isFinished = (cursor.isFinished || ended))
      (own : found ≠ [] → store.Stands cursor) :
      Took session (steps place number found ended) ((session.setStore number after).setCursor place moved)

variable {session after : Session K V} {command : Command K V} {reply : Reply K V}

/-- Every command is carried out in one of these ways. -/
theorem step_takes (sound : session.Sound) (stepped : session.step command = .ok (reply, after)) :
    session.Took (told command reply) after := by
  cases command with
  | create number blueprint =>
    cases stepped
    exact .made number blueprint
  | insert number key value granted =>
    rcases change_inverts stepped with rfl | ⟨store, later, held, done, rfl⟩
    · exact .still
    · obtain ⟨outcome, grown, inserted, evolves⟩ :=
        Store.insert_answers (sound.wellFormed number store held) key value granted
      simp only [inserted] at done
      cases done
      exact .changed held evolves
  | remove number key granted =>
    rcases change_inverts stepped with rfl | ⟨store, later, held, done, rfl⟩
    · exact .still
    · obtain ⟨value, left, removed, evolves⟩ :=
        Store.remove_answers (sound.wellFormed number store held) key granted
      simp only [removed] at done
      cases done
      exact .changed held evolves
  | clear number granted =>
    rcases change_inverts stepped with rfl | ⟨store, later, held, done, rfl⟩
    · exact .still
    · obtain ⟨left, cleared, evolves⟩ := Store.clear_answers (sound.wellFormed number store held) granted
      simp only [cleared] at done
      cases done
      exact .changed held evolves
  | dispose number =>
    simp only [Engine.step] at stepped
    split at stepped
    · cases stepped
      exact .still
    · rename_i store held
      simp only [Store.dispose_answers (sound.wellFormed number store held)] at stepped
      cases stepped
      exact .dropped number
  | openCursor place number =>
    simp only [Engine.step] at stepped
    split at stepped
    · cases stepped
      exact .still
    · rename_i store held
      cases stepped
      exact .opened place held
  | advance place number =>
    rcases follow_inverts stepped with ⟨rfl, rfl | rfl⟩ | ⟨store, cursor, moved, later, held, stood, done, rfl⟩
    · exact .still
    · exact .still
    · have wellFormed := sound.wellFormed number store held
      obtain ⟨found, next, advanced, step⟩ :=
        Store.advance_steps wellFormed (sound.borne number store place cursor held stood)
      simp only [advanced] at done
      cases done
      refine .followed held stood (.refl wellFormed) step.owner ?_ fun some => step.stood ?_
      · cases found with
        | none => rw [step.finished]; simp
        | some entry => rw [step.finished, (step.stood rfl).active]; rfl
      · cases found with
        | none => exact absurd rfl some
        | some entry => rfl
  | drain place number =>
    rcases follow_inverts stepped with ⟨rfl, rfl | rfl⟩ | ⟨store, cursor, moved, later, held, stood, done, rfl⟩
    · exact .still
    · exact .still
    · have wellFormed := sound.wellFormed number store held
      have bears := sound.borne number store place cursor held stood
      obtain ⟨found, next, walked, owner, _, own, _⟩ := Store.walk_steps wellFormed (store.size + 1) bears
      obtain ⟨drained, ended, drains, finished⟩ := Store.drain_ends wellFormed bears
      obtain ⟨rfl, rfl⟩ := Prod.mk.inj (Except.ok.inj (drains.symm.trans walked))
      simp only [drains] at done
      cases done
      exact .followed held stood (.refl wellFormed) owner (by rw [finished, Bool.or_true]) own
  | consume place number limit granted =>
    rcases follow_inverts stepped with ⟨rfl, rfl | rfl⟩ | ⟨store, cursor, moved, later, held, stood, done, rfl⟩
    · exact .still
    · exact .still
    · obtain ⟨found, next, left, consumed, evolves, owner, finished, own, _⟩ := Store.consume_steps
        (sound.wellFormed number store held) limit granted (sound.borne number store place cursor held stood)
      simp only [consumed] at done
      cases done
      refine .followed held stood evolves owner finished fun some => own fun nothing => ?_
      rw [nothing] at some
      exact some rfl
  | closeCursor place =>
    simp only [Engine.step] at stepped
    split at stepped
    · cases stepped
      exact .still
    · cases stepped
      exact .closed place
  | _ =>
    obtain rfl := eq_of_asks rfl stepped
    exact .still

/-! ### Every cursor and its opening -/

/-- What has happened since a cursor was opened: it has ended exactly if a step of it returned nothing, and if
the store on which it was opened is still there, it is under the number that it had then, where no other one
has been since. -/
def Tracked (session : Session K V) (past : List (Happening K V)) (place : Nat) (cursor : Cursor K) : Prop :=
  ∃ before number since, past = before ++ .opened place number :: since ∧
    (∀ happening ∈ since, ¬ happening.Reopens place) ∧
    (cursor.isFinished = true ↔ ∃ happening ∈ since, happening.Ends place) ∧
    ∀ other store, session.stores.get? other = some store → store.id = cursor.owner →
      other = number ∧ ∀ happening ∈ since, ¬ happening.Replaces number

namespace Tracked

variable {past happened : List (Happening K V)} {place number : Nat} {store : Store K V}
  {cursor moved : Cursor K}

/-- A cursor that stands in a store of the session is open on it. -/
theorem isOpen (tracked : Tracked session past place cursor) (held : session.stores.get? number = some store)
    (stands : store.Stands cursor) : Open place number past := by
  obtain ⟨before, origin, since, rfl, still, finished, same⟩ := tracked
  obtain ⟨rfl, kept⟩ := same number store held stands.owner.symm
  refine ⟨before, since, rfl, fun happening member => ⟨still happening member, kept happening member, ?_⟩⟩
  intro ends
  have ended := finished.mpr ⟨happening, member, ends⟩
  rw [stands.active] at ended
  cases ended

theorem ended_iff (tracked : Tracked session past place cursor) :
    cursor.isFinished = true ↔ Ended place past := by
  obtain ⟨before, origin, since, rfl, still, finished, _⟩ := tracked
  exact finished.trans (Happening.ended_iff still).symm

/-- The cursor stays what it is, or takes steps. -/
theorem onward (tracked : Tracked session past place cursor) (owner : moved.owner = cursor.owner)
    (untouched : ∀ happening ∈ happened, ¬ happening.Reopens place)
    (finished : moved.isFinished = true ↔
      cursor.isFinished = true ∨ ∃ happening ∈ happened, happening.Ends place)
    (kept : ∀ number store, after.stores.get? number = some store → store.id = cursor.owner →
      (∃ former, session.stores.get? number = some former ∧ former.id = store.id) ∧
        ∀ happening ∈ happened, ¬ happening.Replaces number) :
    Tracked after (past ++ happened) place moved := by
  obtain ⟨before, origin, since, rfl, still, ended, same⟩ := tracked
  refine ⟨before, origin, since ++ happened, by simp, List.forall_mem_append.mpr ⟨still, untouched⟩, ?_, ?_⟩
  · rw [finished, ended]
    simp only [List.mem_append, or_and_right, exists_or]
  · intro other store held id
    obtain ⟨⟨former, stood, alike⟩, standing⟩ := kept other store held (id.trans owner)
    obtain ⟨rfl, since_kept⟩ := same other former stood (alike.trans (id.trans owner))
    exact ⟨rfl, List.forall_mem_append.mpr ⟨since_kept, standing⟩⟩

end Tracked

/-- Where a store gives way to what it has become, identities stay under their numbers. -/
theorem former_of_setStore {number other : Nat} {store grown current : Store K V}
    (held : session.stores.get? number = some store) (evolves : store.Evolves grown)
    (found : (session.setStore number grown).stores.get? other = some current) :
    ∃ former, session.stores.get? other = some former ∧ former.id = current.id := by
  rcases Roster.placed_or_get?_of_set found with ⟨rfl, rfl⟩ | old
  · exact ⟨store, held, evolves.id.symm⟩
  · exact ⟨current, old, rfl⟩

/-- A cursor that is opened has everything before it. -/
theorem tracked_opened (sound : session.Sound) {place number : Nat} {store : Store K V}
    (held : session.stores.get? number = some store) (past : List (Happening K V)) :
    Tracked session (past ++ [.opened place number]) place store.start := by
  refine ⟨past, number, [], rfl, nofun, ?_, fun other twin found same => ⟨?_, nofun⟩⟩
  · rw [store.stands_start.active]
    simp
  · exact sound.apart other number twin store found held (same.trans store.stands_start.owner)

namespace Took

variable {past happened : List (Happening K V)}

/-- The history goes on to tell of every cursor. -/
theorem tracked (took : session.Took happened after) (sound : session.Sound)
    (tracked : ∀ place cursor, session.cursors.get? place = some cursor → session.Tracked past place cursor) :
    ∀ place cursor, after.cursors.get? place = some cursor → after.Tracked (past ++ happened) place cursor := by
  intro place cursor stood
  cases took with
  | still =>
    rw [List.append_nil]
    exact tracked place cursor stood
  | changed held evolves =>
    exact (tracked place cursor stood).onward rfl nofun (by simp) fun other current found _ =>
      ⟨former_of_setStore held evolves found, nofun⟩
  | made number blueprint =>
    refine (tracked place cursor stood).onward rfl (by simp [Reopens]) (by simp [Ends])
      fun other current found same => ?_
    by_cases here : other = number
    · -- The fresh store has an identity that no cursor knows.
      have fresh : Store.build session.nextId blueprint = current := by
        simpa [Session.setStore, Roster.get?_set, here] using found
      have owned := sound.owned place cursor stood
      rw [← same, ← fresh, Store.id_build] at owned
      exact absurd owned (Nat.lt_irrefl _)
    · have old : session.stores.get? other = some current := by
        simpa [Session.setStore, Roster.get?_set, here] using found
      exact ⟨⟨current, old, rfl⟩, by simpa [Replaces] using Ne.symm here⟩
  | dropped number =>
    refine (tracked place cursor stood).onward rfl (by simp [Reopens]) (by simp [Ends])
      fun other current found _ => ?_
    have old := Roster.get?_of_erase found
    rw [Roster.get?_erase] at found
    refine ⟨⟨current, old, rfl⟩, ?_⟩
    split at found
    · cases found
    · rename_i other_place
      simpa [Replaces] using Ne.symm other_place
  | @opened number store here held =>
    by_cases same : place = here
    · have fresh : store.start = cursor := by
        simpa [Session.setCursor, Roster.get?_set, same] using stood
      rw [same, ← fresh]
      exact tracked_opened (sound.opened held here) held past
    · have old : session.cursors.get? place = some cursor := by
        simpa [Session.setCursor, Roster.get?_set, same] using stood
      refine (tracked place cursor old).onward rfl ?_ (by simp [Ends]) fun other current found _ =>
        ⟨⟨current, found, rfl⟩, by simp [Replaces]⟩
      simpa [Reopens] using Ne.symm same
  | closed here =>
    have old := Roster.get?_of_erase stood
    rw [Roster.get?_erase] at stood
    refine (tracked place cursor old).onward rfl ?_ (by simp [Ends]) fun other current found _ =>
      ⟨⟨current, found, rfl⟩, by simp [Replaces]⟩
    split at stood
    · cases stood
    · rename_i elsewhere
      simpa [Reopens] using Ne.symm elsewhere
  | @followed here number store grown former moved found ended held stands evolves owner finished own =>
    by_cases same : place = here
    · subst same
      have fresh : moved = cursor := by
        simpa [Session.setCursor, Roster.get?_set] using stood
      subst fresh
      refine (tracked place former stands).onward owner not_reopens_of_steps ?_
        fun other current found _ => ⟨former_of_setStore held evolves found, not_replaces_of_steps⟩
      rw [finished, ends_of_steps, Bool.or_eq_true, eq_self_iff_true, and_true]
    · have old : session.cursors.get? place = some cursor := by
        simpa [Session.setCursor, Session.setStore, Roster.get?_set, same] using stood
      refine (tracked place cursor old).onward rfl not_reopens_of_steps ?_
        fun other current found _ => ⟨former_of_setStore held evolves found, not_replaces_of_steps⟩
      rw [ends_of_steps]
      simp [Ne.symm same]

/-- A step that returns an entry is one of a cursor that stands in a store of the session. -/
theorem confined (took : session.Took happened after)
    (tracked : ∀ place cursor, session.cursors.get? place = some cursor → session.Tracked past place cursor)
    (confined : Confined past) : Confined (past ++ happened) := by
  refine confined.onward fun index place number entry stepped => ?_
  cases took with
  | @followed here origin store grown former moved found ended held stood evolves owner finished own =>
    obtain ⟨rfl, rfl, some, active⟩ := before_of_steps stepped
    refine ((tracked _ _ stood).isOpen held (own some)).onward fun happening earlier => ?_
    have member := List.mem_of_mem_take earlier
    exact ⟨not_reopens_of_steps happening member, not_replaces_of_steps happening member,
      active happening earlier⟩
  | still => cases stepped
  | changed => cases stepped
  | made => cases List.mem_singleton.mp (List.mem_of_getElem? stepped)
  | dropped => cases List.mem_singleton.mp (List.mem_of_getElem? stepped)
  | opened => cases List.mem_singleton.mp (List.mem_of_getElem? stepped)
  | closed => cases List.mem_singleton.mp (List.mem_of_getElem? stepped)

end Took

/-- What every run keeps: the session is sound, the history tells of every cursor, and none has left its
store. -/
structure Traced (session : Session K V) (past : List (Happening K V)) : Prop where
  sound : session.Sound
  tracked : ∀ place cursor, session.cursors.get? place = some cursor → session.Tracked past place cursor
  confined : Confined past

theorem traced_empty : ({} : Session K V).Traced [] := ⟨sound_empty, nofun, nofun⟩

/-- One command more. -/
theorem Traced.step {past : List (Happening K V)} (traced : session.Traced past) (command : Command K V) :
    ∃ reply after, session.step command = .ok (reply, after) ∧ after.Traced (past ++ told command reply) := by
  obtain ⟨reply, after, stepped, sound⟩ := traced.sound.step_answers command
  have took := step_takes traced.sound stepped
  exact ⟨reply, after, stepped, sound, took.tracked traced.sound traced.tracked,
    took.confined traced.tracked traced.confined⟩

/-- Any number of commands more. -/
theorem Traced.run {past : List (Happening K V)} (traced : session.Traced past)
    (commands : List (Command K V)) :
    ∃ replies after, session.run commands = .ok (replies, after) ∧
      after.Traced (past ++ history commands replies) := by
  induction commands generalizing session past with
  | nil => exact ⟨[], session, rfl, by simpa [history] using traced⟩
  | cons command commands ih =>
    obtain ⟨reply, middle, stepped, kept⟩ := traced.step command
    obtain ⟨replies, after, ran, kept⟩ := ih kept
    refine ⟨reply :: replies, after, ?_, ?_⟩
    · simp only [Engine.run, stepped, ran, bind, Except.bind, pure, Except.pure]
    · rw [List.append_assoc] at kept
      exact kept

/-! ### What replies list -/

/-- The store of this number has the entry. -/
def Has (session : Session K V) (number : Nat) (entry : K × V) : Prop :=
  ∃ store, session.stores.get? number = some store ∧ store.Has entry

/-- Every entry that a step of a cursor returned was in the store at that moment. A consumption comes to the
step that returned an entry after as many steps, and as many removals, as it lists entries before that one. -/
def Vouches (session : Session K V) : Command K V → Reply K V → Prop
  | .advance _ number, .entry (some entry) => session.Has number entry
  | .drain _ number, .entries found => ∀ entry ∈ found, session.Has number entry
  | .consume place number _ granted, .consumed found => ∀ count entry value, found[count]? = some (entry, value) →
    ∃ middle, session.step (.consume place number count granted) = .ok (.consumed (found.take count), middle) ∧
      middle.Has number entry
  | _, _ => True

theorem Sound.vouches (sound : session.Sound) (stepped : session.step command = .ok (reply, after)) :
    session.Vouches command reply := by
  cases command with
  | advance place number =>
    rcases follow_inverts stepped with ⟨_, rfl | rfl⟩ | ⟨store, cursor, moved, later, held, stood, done, rfl⟩
    · trivial
    · trivial
    · obtain ⟨found, next, advanced, step⟩ := Store.advance_steps (sound.wellFormed number store held)
        (sound.borne number store place cursor held stood)
      simp only [advanced] at done
      cases done
      cases found with
      | none => trivial
      | some entry => exact ⟨store, held, step.has entry rfl⟩
  | drain place number =>
    rcases follow_inverts stepped with ⟨_, rfl | rfl⟩ | ⟨store, cursor, moved, later, held, stood, done, rfl⟩
    · trivial
    · trivial
    · obtain ⟨found, next, walked, _, _, _, has⟩ := Store.walk_steps (sound.wellFormed number store held)
        (store.size + 1) (sound.borne number store place cursor held stood)
      simp only [Engine.drain, walked] at done
      cases done
      exact fun entry listed => ⟨store, held, has entry listed⟩
  | consume place number limit granted =>
    rcases follow_inverts stepped with ⟨_, rfl | rfl⟩ | ⟨store, cursor, moved, later, held, stood, done, rfl⟩
    · trivial
    · trivial
    · obtain ⟨found, next, left, consumed, _, _, _, _, has⟩ := Store.consume_steps
        (sound.wellFormed number store held) limit granted (sound.borne number store place cursor held stood)
      simp only [consumed] at done
      cases done
      intro count entry value listed
      obtain ⟨passing, middle, begun, present⟩ := has count entry value listed
      refine ⟨(session.setStore number middle).setCursor place passing, ?_, middle, ?_, present⟩
      · simp only [Engine.step, follow, held, stood, begun]
        rfl
      · simp [Session.setCursor, Session.setStore, Roster.get?_set]
  | _ => trivial

/-- In whatever order stores of both kinds are made, changed, cleared, given up and replaced, and cursors moved
on any of them: a step of a cursor returns an entry only on the very store that the cursor was opened on, only
an entry that this store has at that moment, and only if no step of the cursor, on any store, has returned
nothing before. A cursor has ended exactly if one has; from then on it gets nothing, from any store. -/
theorem run_confines_cursors (commands : List (Command K V)) :
    ∃ replies session, Session.run {} commands = .ok (replies, session) ∧
      Confined (history commands replies) ∧
      (∀ command reply after, session.step command = .ok (reply, after) → session.Vouches command reply) ∧
      ∀ place cursor, session.cursors.get? place = some cursor →
        (cursor.isFinished = true ↔ Ended place (history commands replies)) ∧
        (cursor.isFinished = true → ∀ store : Store K V, store.advance cursor = .ok (none, cursor.stop)) := by
  obtain ⟨replies, session, ran, traced⟩ := traced_empty.run commands
  refine ⟨replies, session, ran, traced.confined, fun _ _ _ stepped => traced.sound.vouches stepped,
    fun place cursor stood => ⟨(traced.tracked place cursor stood).ended_iff, fun finished store => ?_⟩⟩
  exact Store.advance_unborne (.inl finished)

end Session

end KeyedStore
