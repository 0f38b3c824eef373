import KeyedStore.Proofs.Guise
import KeyedStore.Proofs.Session
/-!
Stores and cursors of an engine that are paired with those that are here. Where every single operation goes along
with the one it is paired with, so does every traversal; and a session of the engine goes through all commands with
the replies of the session it is paired with, as they are shown.
-/
namespace KeyedStore

variable {K V W S C : Type}

/-! ### What is asked for, and what is answered -/

def Blueprint.guise (look : Guise V W) : Blueprint K V → Blueprint K W
  | ordered policy noOverwrite => ordered (policy.guise look) noOverwrite
  | hashed policy noOverwrite => hashed (policy.guise look) noOverwrite

/-- The same command for values under the guise. -/
def Command.guise (look : Guise V W) : Command K V → Command K W
  | create number blueprint => create number (blueprint.guise look)
  | insert number key value granted => insert number key (look.held value) granted
  | lookup number key => lookup number key
  | lookupEntry number key => lookupEntry number key
  | contains number key => contains number key
  | remove number key granted => remove number key granted
  | clear number granted => clear number granted
  | dispose number => dispose number
  | profile number => profile number
  | chainSizes number => chainSizes number
  | entries number limit => entries number limit
  | openCursor place number => openCursor place number
  | advance place number => advance place number
  | drain place number => drain place number
  | consume place number limit granted => consume place number limit granted
  | isFinished place => isFinished place
  | closeCursor place => closeCursor place

theorem Blueprint.guise_plain (blueprint : Blueprint K V) : blueprint.guise .plain = blueprint := by
  cases blueprint <;> rfl

theorem Command.guise_plain (command : Command K V) : command.guise .plain = command := by
  cases command with
  | create number blueprint => rw [guise, blueprint.guise_plain]
  | _ => rfl

/-- The same reply with values under the guise, and with profiles as they are shown. -/
def Reply.shown (look : Guise V W) (profiled : Profile K V → Profile K W) : Reply K V → Reply K W
  | done => done
  | created kind => created kind
  | added outcome => added outcome
  | value found => value (found.map look.val)
  | entry found => entry (found.map look.pair)
  | truth answer => truth answer
  | removed found => removed (found.map look.held)
  | released count => released count
  | profile shown => profile (profiled shown)
  | chainSizes sizes => chainSizes sizes
  | entries found => entries (found.map look.pair)
  | consumed found => consumed (found.map fun (shown, handed) => (look.pair shown, handed.map look.held))
  | noStore => noStore
  | noCursor => noCursor

theorem Reply.shown_plain (reply : Reply K V) : reply.shown .plain id = reply := by
  cases reply <;> simp [shown]

/-- The stores and cursors of an engine beside those that are here, with values under a guise: every operation goes
along with the one that it is paired with. -/
structure Pairing (engine : Engine S C K W) (V : Type) where
  look : Guise V W
  profile : Profile K V → Profile K W
  store : S → Store K V → Prop
  cursor : C → Cursor K → Prop
  size : ∀ {image original}, store image original → engine.size image = original.size
  lookupEntry : ∀ {image original}, store image original → original.WellFormed → ∀ key,
    Along (fun also found => also = found.map look.pair) (engine.lookupEntry image key) (original.lookupEntry key)
  lookup : ∀ {image original}, store image original → original.WellFormed → ∀ key,
    Along (fun also found => also = found.map look.val) (engine.lookup image key) (original.lookup key)
  contains : ∀ {image original}, store image original → original.WellFormed → ∀ key,
    Along Eq (engine.contains image key) (original.contains key)
  insert : ∀ {image original}, store image original → original.WellFormed → ∀ key value granted,
    Along (fun also done => also.1 = done.1 ∧ store also.2 done.2)
      (engine.insert image key (look.held value) granted) (original.insert key value granted)
  remove : ∀ {image original}, store image original → original.WellFormed → ∀ key granted,
    Along (fun also done => also.1 = done.1.map look.held ∧ store also.2 done.2)
      (engine.remove image key granted) (original.remove key granted)
  clear : ∀ {image original}, store image original → original.WellFormed → ∀ granted,
    Along (fun also done => also.1 = done.1 ∧ store also.2 done.2) (engine.clear image granted)
      (original.clear granted)
  dispose : ∀ {image original}, store image original → original.WellFormed →
    Along Eq (engine.dispose image) original.dispose
  profiled : ∀ {image original}, store image original → original.WellFormed →
    Along (fun also shown => also = profile shown) (engine.profile image) original.profile
  chainSizes : ∀ {image original}, store image original → original.WellFormed →
    engine.chainSizes image = .ok original.chainSizes
  start : ∀ {image original}, store image original → original.WellFormed →
    Along cursor (engine.start image) (.ok original.start)
  advance : ∀ {image original moving position}, store image original → original.WellFormed →
    cursor moving position → original.Bears position →
    Along (fun also done => also.1 = done.1.map look.pair ∧ cursor also.2 done.2) (engine.advance image moving)
      (original.advance position)
  isFinished : ∀ {moving position}, cursor moving position → engine.isFinished moving = position.isFinished

namespace Pairing

variable {engine : Engine S C K W} (pairing : Pairing engine V)

/-- The reply as it is shown. -/
def reply : Reply K V → Reply K W := Reply.shown pairing.look pairing.profile

variable {pairing} {image : S} {original : Store K V} {moving : C} {position : Cursor K}

/-! ### Whole traversals -/

theorem walk (paired : pairing.store image original) (wellFormed : original.WellFormed) (limit : Nat)
    (standing : pairing.cursor moving position) (bears : original.Bears position) :
    Along (fun also done => also.1 = done.1.map pairing.look.pair ∧ pairing.cursor also.2 done.2)
      (engine.walk image limit moving) (original.walk limit position) := by
  induction limit generalizing moving position with
  | zero => exact .ok ⟨rfl, standing⟩
  | succ limit ih =>
    simp only [Engine.walk]
    apply (pairing.advance paired wellFormed standing bears).bind
    rintro ⟨also, moving⟩ ⟨found, moved⟩ stepped ⟨rfl, standing⟩
    cases found with
    | none => exact .ok ⟨rfl, standing⟩
    | some entry =>
      obtain ⟨_, _, same, _, _, stands⟩ := Store.advance_answers wellFormed bears
      cases same.symm.trans stepped
      apply (ih standing (.inr (stands rfl))).bind
      rintro ⟨_, last⟩ ⟨rest, ended⟩ _ ⟨rfl, standing⟩
      exact .ok ⟨rfl, standing⟩

theorem drain (paired : pairing.store image original) (wellFormed : original.WellFormed)
    (standing : pairing.cursor moving position) (bears : original.Bears position) :
    Along (fun also done => also.1 = done.1.map pairing.look.pair ∧ pairing.cursor also.2 done.2)
      (engine.drain image moving) (original.drain position) := by
  simp only [Engine.drain, pairing.size paired]
  exact walk paired wellFormed _ standing bears

theorem entries (paired : pairing.store image original) (wellFormed : original.WellFormed) (limit : Option Nat) :
    Along (fun also found => also = found.map pairing.look.pair) (engine.entries image limit)
      (original.entries limit) := by
  simp only [Engine.entries, pairing.size paired]
  apply (pairing.start paired wellFormed).bind
  rintro moving _ ⟨⟩ standing
  apply (walk paired wellFormed _ standing (.inr original.stands_start)).bind
  rintro also found _ ⟨same, _⟩
  exact .ok same

theorem consume (paired : pairing.store image original) (wellFormed : original.WellFormed) (limit : Nat)
    (granted : Bool) (standing : pairing.cursor moving position) (bears : original.Bears position) :
    Along (fun also done =>
        also.1 = done.1.map (fun (entry, handed) => (pairing.look.pair entry, handed.map pairing.look.held)) ∧
          pairing.cursor also.2.1 done.2.1 ∧ pairing.store also.2.2 done.2.2)
      (engine.consume image limit moving granted) (original.consume limit position granted) := by
  induction limit generalizing image original moving position with
  | zero => exact .ok ⟨rfl, standing, paired⟩
  | succ limit ih =>
    simp only [Engine.consume]
    apply (pairing.advance paired wellFormed standing bears).bind
    rintro ⟨also, moving⟩ ⟨found, moved⟩ stepped ⟨rfl, standing⟩
    cases found with
    | none => exact .ok ⟨rfl, standing, paired⟩
    | some entry =>
      obtain ⟨_, _, same, _, _, stands⟩ := Store.advance_answers wellFormed bears
      cases same.symm.trans stepped
      apply (pairing.remove paired wellFormed entry.1 granted).bind
      rintro ⟨_, left⟩ ⟨value, after⟩ removed ⟨rfl, paired⟩
      obtain ⟨_, _, also, evolves⟩ := Store.remove_answers wellFormed entry.1 granted
      cases also.symm.trans removed
      apply (ih paired evolves.wellFormed standing (.inr (evolves.stands _ (stands rfl)))).bind
      rintro ⟨_, last⟩ ⟨rest, ended⟩ _ ⟨rfl, standing, paired⟩
      exact .ok ⟨rfl, standing, paired⟩

/-! ### Sessions -/

variable {session : Session K W S C} {beside : Session K V}

/-- Two sessions with paired stores and cursors under the same numbers. -/
structure Shows (pairing : Pairing engine V) (session : Session K W S C) (beside : Session K V) : Prop where
  stores : ∀ number, Option.Rel pairing.store (session.stores.get? number) (beside.stores.get? number)
  cursors : ∀ place, Option.Rel pairing.cursor (session.cursors.get? place) (beside.cursors.get? place)

/-- What becomes of a session goes along with what becomes of the other, with the reply as it is shown. -/
abbrev Follows (pairing : Pairing engine V) (result : Except Fault (Reply K W × Session K W S C))
    (other : Except Fault (Reply K V × Session K V)) : Prop :=
  Along (fun also done => also.1 = pairing.reply done.1 ∧ pairing.Shows also.2 done.2) result other

namespace Shows

theorem setStore (shows : pairing.Shows session beside) (number : Nat) (paired : pairing.store image original) :
    pairing.Shows (session.setStore number image) (beside.setStore number original) := by
  refine ⟨fun other => ?_, shows.cursors⟩
  simp only [Session.setStore, Roster.get?_set]
  split
  · exact .some paired
  · exact shows.stores other

theorem setCursor (shows : pairing.Shows session beside) (place : Nat) (standing : pairing.cursor moving position) :
    pairing.Shows (session.setCursor place moving) (beside.setCursor place position) := by
  refine ⟨shows.stores, fun other => ?_⟩
  simp only [Session.setCursor, Roster.get?_set]
  split
  · exact .some standing
  · exact shows.cursors other

theorem eraseStore (shows : pairing.Shows session beside) (number : Nat) :
    pairing.Shows { session with stores := session.stores.erase number }
      { beside with stores := beside.stores.erase number } := by
  refine ⟨fun other => ?_, shows.cursors⟩
  simp only [Roster.get?_erase]
  split
  · exact .none
  · exact shows.stores other

theorem eraseCursor (shows : pairing.Shows session beside) (place : Nat) :
    pairing.Shows { session with cursors := session.cursors.erase place }
      { beside with cursors := beside.cursors.erase place } := by
  refine ⟨shows.stores, fun other => ?_⟩
  simp only [Roster.get?_erase]
  split
  · exact .none
  · exact shows.cursors other

/-- Under one number there is a store on both sides or on neither. -/
theorem store_cases (shows : pairing.Shows session beside) (number : Nat) :
    session.stores.get? number = none ∧ beside.stores.get? number = none ∨
      ∃ image original, session.stores.get? number = some image ∧ beside.stores.get? number = some original ∧
        pairing.store image original := by
  have here := shows.stores number
  generalize session.stores.get? number = one at here ⊢
  generalize beside.stores.get? number = two at here ⊢
  cases here with
  | none => exact .inl ⟨rfl, rfl⟩
  | some paired => exact .inr ⟨_, _, rfl, rfl, paired⟩

theorem cursor_cases (shows : pairing.Shows session beside) (place : Nat) :
    session.cursors.get? place = none ∧ beside.cursors.get? place = none ∨
      ∃ moving position, session.cursors.get? place = some moving ∧ beside.cursors.get? place = some position ∧
        pairing.cursor moving position := by
  have here := shows.cursors place
  generalize session.cursors.get? place = one at here ⊢
  generalize beside.cursors.get? place = two at here ⊢
  cases here with
  | none => exact .inl ⟨rfl, rfl⟩
  | some standing => exact .inr ⟨_, _, rfl, rfl, standing⟩

theorem ask (shows : pairing.Shows session beside) (sound : beside.Sound) (number : Nat)
    {question : Store K V → Except Fault (Reply K V)} {other : S → Except Fault (Reply K W)}
    (along : ∀ {image original}, pairing.store image original → original.WellFormed →
      Along (fun also said => also = pairing.reply said) (other image) (question original)) :
    Follows pairing (session.ask number other) (beside.ask number question) := by
  unfold Session.ask
  rcases shows.store_cases number with ⟨here, there⟩ | ⟨image, original, here, there, paired⟩
  · rw [here, there]
    exact .ok ⟨rfl, shows⟩
  · rw [here, there]
    apply (along paired (sound.wellFormed number original there)).bind
    rintro _ said _ rfl
    exact .ok ⟨rfl, shows⟩

theorem change (shows : pairing.Shows session beside) (sound : beside.Sound) (number : Nat)
    {action : Store K V → Except Fault (Reply K V × Store K V)} {other : S → Except Fault (Reply K W × S)}
    (along : ∀ {image original}, pairing.store image original → original.WellFormed →
      Along (fun also done => also.1 = pairing.reply done.1 ∧ pairing.store also.2 done.2) (other image)
        (action original)) :
    Follows pairing (session.change number other) (beside.change number action) := by
  unfold Session.change
  rcases shows.store_cases number with ⟨here, there⟩ | ⟨image, original, here, there, paired⟩
  · rw [here, there]
    exact .ok ⟨rfl, shows⟩
  · rw [here, there]
    apply (along paired (sound.wellFormed number original there)).bind
    rintro ⟨_, later⟩ ⟨said, after⟩ _ ⟨rfl, paired⟩
    exact .ok ⟨rfl, shows.setStore number paired⟩

theorem follow (shows : pairing.Shows session beside) (sound : beside.Sound) (place number : Nat)
    {action : Store K V → Cursor K → Except Fault (Reply K V × Cursor K × Store K V)}
    {other : S → C → Except Fault (Reply K W × C × S)}
    (along : ∀ {image original moving position}, pairing.store image original → original.WellFormed →
      pairing.cursor moving position → original.Bears position →
      Along (fun also done => also.1 = pairing.reply done.1 ∧ pairing.cursor also.2.1 done.2.1 ∧
        pairing.store also.2.2 done.2.2) (other image moving) (action original position)) :
    Follows pairing (session.follow place number other) (beside.follow place number action) := by
  unfold Session.follow
  rcases shows.store_cases number with ⟨here, there⟩ | ⟨image, original, here, there, paired⟩
  · rw [here, there]
    exact .ok ⟨rfl, shows⟩
  rcases shows.cursor_cases place with ⟨nowhere, neither⟩ | ⟨moving, position, stands, stood, standing⟩
  · rw [here, there, nowhere, neither]
    exact .ok ⟨rfl, shows⟩
  · rw [here, there, stands, stood]
    apply (along paired (sound.wellFormed number original there) standing
      (sound.borne number original place position there stood)).bind
    rintro ⟨_, moved, later⟩ ⟨said, ended, after⟩ _ ⟨rfl, standing, paired⟩
    exact .ok ⟨rfl, (shows.setStore number paired).setCursor place standing⟩

/-- One command on the stores and cursors that there are: the session of the engine gives the same reply, as
shown. -/
theorem step (shows : pairing.Shows session beside) (sound : beside.Sound) {command : Command K V}
    (makes : command.makes = false) :
    Follows pairing (engine.step session (command.guise pairing.look)) (beside.step command) := by
  cases command with
  | create number blueprint => cases makes
  | insert number key value granted =>
    apply shows.change sound number
    intro image original paired wellFormed
    apply (pairing.insert paired wellFormed key value granted).bind
    rintro ⟨_, later⟩ ⟨outcome, after⟩ _ ⟨rfl, paired⟩
    exact .ok ⟨rfl, paired⟩
  | lookup number key =>
    apply shows.ask sound number
    intro image original paired wellFormed
    apply (pairing.lookup paired wellFormed key).bind
    rintro _ found _ rfl
    exact .ok rfl
  | lookupEntry number key =>
    apply shows.ask sound number
    intro image original paired wellFormed
    apply (pairing.lookupEntry paired wellFormed key).bind
    rintro _ found _ rfl
    exact .ok rfl
  | contains number key =>
    apply shows.ask sound number
    intro image original paired wellFormed
    apply (pairing.contains paired wellFormed key).bind
    rintro _ answer _ rfl
    exact .ok rfl
  | remove number key granted =>
    apply shows.change sound number
    intro image original paired wellFormed
    apply (pairing.remove paired wellFormed key granted).bind
    rintro ⟨_, later⟩ ⟨value, after⟩ _ ⟨rfl, paired⟩
    exact .ok ⟨rfl, paired⟩
  | clear number granted =>
    apply shows.change sound number
    intro image original paired wellFormed
    apply (pairing.clear paired wellFormed granted).bind
    rintro ⟨_, later⟩ ⟨released, after⟩ _ ⟨rfl, paired⟩
    exact .ok ⟨rfl, paired⟩
  | dispose number =>
    simp only [Command.guise, Engine.step]
    rcases shows.store_cases number with ⟨here, there⟩ | ⟨image, original, here, there, paired⟩
    · rw [here, there]
      exact .ok ⟨rfl, shows⟩
    · rw [here, there]
      apply (pairing.dispose paired (sound.wellFormed number original there)).bind
      rintro _ released _ rfl
      exact .ok ⟨rfl, shows.eraseStore number⟩
  | profile number =>
    apply shows.ask sound number
    intro image original paired wellFormed
    apply (pairing.profiled paired wellFormed).bind
    rintro _ shown _ rfl
    exact .ok rfl
  | chainSizes number =>
    apply shows.ask sound number
    intro image original paired wellFormed
    rw [pairing.chainSizes paired wellFormed]
    exact .ok rfl
  | entries number limit =>
    apply shows.ask sound number
    intro image original paired wellFormed
    apply (entries paired wellFormed limit).bind
    rintro _ found _ rfl
    exact .ok rfl
  | openCursor place number =>
    simp only [Command.guise, Engine.step]
    rcases shows.store_cases number with ⟨here, there⟩ | ⟨image, original, here, there, paired⟩
    · rw [here, there]
      exact .ok ⟨rfl, shows⟩
    · rw [here, there]
      apply (pairing.start paired (sound.wellFormed number original there)).bind
      rintro moving position _ standing
      exact .ok ⟨rfl, shows.setCursor place standing⟩
  | advance place number =>
    apply shows.follow sound place number
    intro image original moving position paired wellFormed standing bears
    apply (pairing.advance paired wellFormed standing bears).bind
    rintro ⟨_, moved⟩ ⟨found, ended⟩ _ ⟨rfl, standing⟩
    exact .ok ⟨rfl, standing, paired⟩
  | drain place number =>
    apply shows.follow sound place number
    intro image original moving position paired wellFormed standing bears
    apply (drain paired wellFormed standing bears).bind
    rintro ⟨_, moved⟩ ⟨found, ended⟩ _ ⟨rfl, standing⟩
    exact .ok ⟨rfl, standing, paired⟩
  | consume place number limit granted =>
    apply shows.follow sound place number
    intro image original moving position paired wellFormed standing bears
    apply (consume paired wellFormed limit granted standing bears).bind
    rintro ⟨_, moved, later⟩ ⟨found, ended, after⟩ _ ⟨rfl, standing, paired⟩
    exact .ok ⟨rfl, standing, paired⟩
  | isFinished place =>
    simp only [Command.guise, Engine.step]
    rcases shows.cursor_cases place with ⟨nowhere, neither⟩ | ⟨moving, position, stands, stood, standing⟩
    · rw [nowhere, neither]
      exact .ok ⟨rfl, shows⟩
    · simp only [stands, stood, pairing.isFinished standing]
      exact .ok ⟨rfl, shows⟩
  | closeCursor place =>
    simp only [Command.guise, Engine.step]
    rcases shows.cursor_cases place with ⟨nowhere, neither⟩ | ⟨moving, position, stands, stood, standing⟩
    · rw [nowhere, neither]
      exact .ok ⟨rfl, shows⟩
    · rw [stands, stood]
      exact .ok ⟨rfl, shows.eraseCursor place⟩

end Shows

/-- What is built from the same blueprint is paired, and of the same kind. -/
structure Builds (pairing : Pairing engine V) : Prop where
  build : ∀ id blueprint, pairing.store (engine.build id (blueprint.guise pairing.look)) (Store.build id blueprint)
  kind : ∀ {image original}, pairing.store image original → engine.kind image = original.kind

/-- Two such sessions that issue the same identity next. -/
structure Resembles (pairing : Pairing engine V) (session : Session K W S C) (beside : Session K V) : Prop where
  shows : pairing.Shows session beside
  nextId : session.nextId = beside.nextId

theorem resembles_empty : pairing.Resembles ({} : Session K W S C) ({} : Session K V) :=
  ⟨⟨fun _ => .none, fun _ => .none⟩, rfl⟩

/-- Two such sessions go through the same commands, with the same replies as they are shown. -/
theorem step_lockstep (builds : pairing.Builds) : Lockstep
    (fun session command => engine.step session (command.guise pairing.look)) Session.step pairing.reply
    fun session beside => pairing.Resembles session beside ∧ beside.Sound := by
  rintro session beside command ⟨⟨shows, nextId⟩, sound⟩
  obtain ⟨reply, after, stepped, kept⟩ := sound.step_answers command
  cases makes : command.makes with
  | false =>
    obtain ⟨⟨_, later⟩, also, rfl, follows⟩ := shows.step sound makes _ stepped
    have silent : (command.guise pairing.look).makes = false := by
      cases command <;> exact makes
    have issued : later.nextId = after.nextId := by
      rw [Session.nextId_of_step silent also, Session.nextId_of_step makes stepped, nextId]
    exact ⟨reply, later, after, also, stepped, ⟨follows, issued⟩, kept⟩
  | true =>
    cases command with
    | create number blueprint =>
      cases stepped
      have paired := builds.build beside.nextId blueprint
      have made : engine.step session ((Command.create number blueprint).guise pairing.look) =
          .ok (.created (Store.build beside.nextId blueprint).kind,
            { session.setStore number (engine.build beside.nextId (blueprint.guise pairing.look)) with
              nextId := beside.nextId.next }) := by
        rw [← builds.kind paired, ← nextId]
        rfl
      have shown := shows.setStore number paired
      exact ⟨.created (Store.build beside.nextId blueprint).kind, _, _, made, rfl,
        ⟨⟨shown.stores, shown.cursors⟩, rfl⟩, kept⟩
    | _ => cases makes

end Pairing

end KeyedStore
