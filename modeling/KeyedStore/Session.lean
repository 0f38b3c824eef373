import KeyedStore.Store
import KeyedStore.Session.Roster
/-!
A session of numbered stores and numbered cursors. A cursor may be moved on any store of the session,
whatever happened to either since it was made. `step` answers one command; the only answer it can
fail to give is a fault, an internal assumption that did not hold.
-/
namespace KeyedStore

/-- What can be asked of a session. Stores and cursors are meant by their numbers. With a command that may change a
hashed store comes whether memory is granted for another array of buckets while it is served. -/
inductive Command (K V : Type) where
  | create (store : Nat) (blueprint : Blueprint K V)
  | insert (store : Nat) (key : Held K) (value : Held V) (granted : Bool := true)
  | lookup (store : Nat) (key : K)
  | lookupEntry (store : Nat) (key : K)
  | contains (store : Nat) (key : K)
  | remove (store : Nat) (key : K) (granted : Bool := true)
  | clear (store : Nat) (granted : Bool := true)
  | dispose (store : Nat)
  | profile (store : Nat)
  | chainSizes (store : Nat)
  | entries (store : Nat) (limit : Option Nat)
  | openCursor (cursor store : Nat)
  | advance (cursor store : Nat)
  | drain (cursor store : Nat)
  | consume (cursor store limit : Nat) (granted : Bool := true)
  | isFinished (cursor : Nat)
  | closeCursor (cursor : Nat)

inductive Reply (K V : Type) where
  | done
  | created (kind : Kind)
  | added (outcome : Except AddError Addition)
  | value (found : Option V)
  | entry (found : Option (K × V))
  | truth (answer : Bool)
  | removed (value : Option (Held V))
  | released (count : Nat)
  | profile (profile : Profile K V)
  /-- An ordered map has no chains. -/
  | chainSizes (sizes : Option (List Nat))
  | entries (found : List (K × V))
  | consumed (found : List ((K × V) × Option (Held V)))
  /-- There is no store of this number. -/
  | noStore
  /-- There is no cursor of this number. -/
  | noCursor

/-- Numbered stores and numbered cursors. These are the stores and cursors as they are here, if nothing else is said. -/
structure Session (K V : Type) (S : Type := Store K V) (C : Type := Cursor K) where
  stores : Roster S := {}
  cursors : Roster C := {}
  /-- The identity of the next store. -/
  nextId : Identity := ⟨0⟩

namespace Session

variable {K V S C : Type}

def setStore (session : Session K V S C) (number : Nat) (store : S) : Session K V S C :=
  { session with stores := session.stores.set number store }

def setCursor (session : Session K V S C) (number : Nat) (cursor : C) : Session K V S C :=
  { session with cursors := session.cursors.set number cursor }

/-- Answers from a store of the session, which stays as it is. -/
def ask (session : Session K V S C) (number : Nat) (question : S → Except Fault (Reply K V)) :
    Except Fault (Reply K V × Session K V S C) :=
  match session.stores.get? number with
  | none => .ok (.noStore, session)
  | some store => do return (← question store, session)

/-- Answers from a store of the session and puts the changed store in its place. -/
def change (session : Session K V S C) (number : Nat) (action : S → Except Fault (Reply K V × S)) :
    Except Fault (Reply K V × Session K V S C) :=
  match session.stores.get? number with
  | none => .ok (.noStore, session)
  | some store => do
    let (reply, store) ← action store
    return (reply, session.setStore number store)

/-- Answers from a store and a cursor and puts both back as they have become. -/
def follow (session : Session K V S C) (cursorNumber storeNumber : Nat)
    (action : S → C → Except Fault (Reply K V × C × S)) : Except Fault (Reply K V × Session K V S C) :=
  match session.stores.get? storeNumber, session.cursors.get? cursorNumber with
  | none, _ => .ok (.noStore, session)
  | some _, none => .ok (.noCursor, session)
  | some store, some cursor => do
    let (reply, cursor, store) ← action store cursor
    return (reply, (session.setStore storeNumber store).setCursor cursorNumber cursor)

end Session

namespace Engine

variable {K V S C : Type}

/-- One command. Every store that is made gets an identity of its own, also in a place that
was in use before. -/
def step (engine : Engine S C K V) (session : Session K V S C) :
    Command K V → Except Fault (Reply K V × Session K V S C)
  | .create number blueprint =>
    let store := engine.build session.nextId blueprint
    .ok (.created (engine.kind store),
      { session.setStore number store with nextId := session.nextId.next })
  | .insert number key value granted => session.change number fun store => do
    let (outcome, store) ← engine.insert store key value granted
    return (.added outcome, store)
  | .lookup number key => session.ask number fun store => return .value (← engine.lookup store key)
  | .lookupEntry number key =>
    session.ask number fun store => return .entry (← engine.lookupEntry store key)
  | .contains number key => session.ask number fun store => return .truth (← engine.contains store key)
  | .remove number key granted => session.change number fun store => do
    let (value, store) ← engine.remove store key granted
    return (.removed value, store)
  | .clear number granted => session.change number fun store => do
    let (released, store) ← engine.clear store granted
    return (.released released, store)
  | .dispose number =>
    match session.stores.get? number with
    | none => .ok (.noStore, session)
    | some store => do
      let released ← engine.dispose store
      return (.released released, { session with stores := session.stores.erase number })
  | .profile number => session.ask number fun store => return .profile (← engine.profile store)
  | .chainSizes number => session.ask number fun store => return .chainSizes (← engine.chainSizes store)
  | .entries number limit =>
    session.ask number fun store => return .entries (← engine.entries store limit)
  | .openCursor cursorNumber storeNumber =>
    match session.stores.get? storeNumber with
    | none => .ok (.noStore, session)
    | some store => do
      let cursor ← engine.start store
      return (.done, session.setCursor cursorNumber cursor)
  | .advance cursorNumber storeNumber =>
    session.follow cursorNumber storeNumber fun store cursor => do
      let (found, cursor) ← engine.advance store cursor
      return (.entry found, cursor, store)
  | .drain cursorNumber storeNumber =>
    session.follow cursorNumber storeNumber fun store cursor => do
      let (found, cursor) ← engine.drain store cursor
      return (.entries found, cursor, store)
  | .consume cursorNumber storeNumber limit granted =>
    session.follow cursorNumber storeNumber fun store cursor => do
      let (found, cursor, store) ← engine.consume store limit cursor granted
      return (.consumed found, cursor, store)
  | .isFinished number =>
    match session.cursors.get? number with
    | none => .ok (.noCursor, session)
    | some cursor => .ok (.truth (engine.isFinished cursor), session)
  | .closeCursor number =>
    match session.cursors.get? number with
    | none => .ok (.noCursor, session)
    | some _ => .ok (.done, { session with cursors := session.cursors.erase number })

/-- Some commands, one after the other, with their replies. -/
def run (engine : Engine S C K V) (session : Session K V S C) : List (Command K V) →
    Except Fault (List (Reply K V) × Session K V S C)
  | [] => .ok ([], session)
  | command :: commands => do
    let (reply, session) ← engine.step session command
    let (replies, session) ← engine.run session commands
    return (reply :: replies, session)

end Engine

namespace Session

variable {K V : Type}

/-- One command. -/
abbrev step (session : Session K V) (command : Command K V) : Except Fault (Reply K V × Session K V) :=
  Store.engine.step session command

/-- Some commands, one after the other, with their replies. -/
abbrev run (session : Session K V) (commands : List (Command K V)) : Except Fault (List (Reply K V) × Session K V) :=
  Store.engine.run session commands

end Session

end KeyedStore
