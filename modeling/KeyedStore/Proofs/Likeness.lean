import KeyedStore.Proofs.Pairing
/-!
Stores that are shown as other stores, where every single operation of what is shown does what it does to the
original, as shown. What is shown is paired with what it shows; so a session of stores that are shown goes through
all commands with the replies of the original session, as shown.
-/
namespace KeyedStore

variable {K V W : Type}

/-- A way to show stores and cursors as others, under a guise of their values, such that every operation of what
is shown does what it does to the original. -/
structure Likeness (K V W : Type) where
  look : Guise V W
  store : Store K V → Store K W
  cursor : Cursor K → Cursor K
  profile : Profile K V → Profile K W
  size : ∀ original, (store original).size = original.size
  lookupEntry : ∀ original key,
    (store original).lookupEntry key = Option.map look.pair <$> original.lookupEntry key
  lookup : ∀ original key, (store original).lookup key = Option.map look.val <$> original.lookup key
  insert : ∀ original key value granted, (store original).insert key (look.held value) granted =
    (fun (outcome, after) => (outcome, store after)) <$> original.insert key value granted
  remove : ∀ original key granted, (store original).remove key granted =
    (fun (value, after) => (value.map look.held, store after)) <$> original.remove key granted
  clear : ∀ original granted, (store original).clear granted =
    (fun (released, after) => (released, store after)) <$> original.clear granted
  dispose : ∀ original, (store original).dispose = original.dispose
  profiled : ∀ original, (store original).profile = profile <$> original.profile
  chainSizes : ∀ original, (store original).chainSizes = original.chainSizes
  start : ∀ original, (store original).start = cursor original.start
  advance : ∀ original position, (store original).advance (cursor position) =
    (fun (found, moved) => (found.map look.pair, cursor moved)) <$> original.advance position
  isFinished : ∀ position, (cursor position).isFinished = position.isFinished

namespace Likeness

variable (like : Likeness K V W)

theorem contains (original : Store K V) (key : K) :
    (like.store original).contains key = original.contains key := by
  simp only [Store.contains, like.lookup]
  cases original.lookup key with
  | error fault => rfl
  | ok found => cases found <;> rfl

/-- What is shown goes along with what it shows. -/
def pairing : Pairing (Store.engine : Engine (Store K W) (Cursor K) K W) V where
  look := like.look
  profile := like.profile
  store image original := image = like.store original
  cursor moving position := moving = like.cursor position
  size := by
    rintro _ original rfl
    exact like.size original
  lookupEntry := by
    rintro _ original rfl _ key
    exact .of_carried (like.lookupEntry original key) fun _ => rfl
  lookup := by
    rintro _ original rfl _ key
    exact .of_carried (like.lookup original key) fun _ => rfl
  contains := by
    rintro _ original rfl _ key
    exact .of_eq (like.contains original key) fun _ => rfl
  insert := by
    rintro _ original rfl _ key value granted
    exact .of_carried (like.insert original key value granted) fun _ => ⟨rfl, rfl⟩
  remove := by
    rintro _ original rfl _ key granted
    exact .of_carried (like.remove original key granted) fun _ => ⟨rfl, rfl⟩
  clear := by
    rintro _ original rfl _ granted
    exact .of_carried (like.clear original granted) fun _ => ⟨rfl, rfl⟩
  dispose := by
    rintro _ original rfl _
    exact .of_eq (like.dispose original) fun _ => rfl
  profiled := by
    rintro _ original rfl _
    exact .of_carried (like.profiled original) fun _ => rfl
  chainSizes := by
    rintro _ original rfl _
    exact congrArg Except.ok (like.chainSizes original)
  start := by
    rintro _ original rfl _
    exact .ok (like.start original)
  advance := by
    rintro _ original _ position rfl _ rfl _
    exact .of_carried (like.advance original position) fun _ => ⟨rfl, rfl⟩
  isFinished := by
    rintro _ position rfl
    exact like.isFinished position

/-- To be shown under the same numbers is to be the other, shown. -/
theorem rel_shown_iff {α β : Type} {shown : β → α} {image : Option α} {original : Option β} :
    Option.Rel (fun image original => image = shown original) image original ↔ image = original.map shown := by
  constructor
  · rintro (same | _)
    · exact congrArg some same
    · rfl
  · rintro rfl
    cases original with
    | none => exact .none
    | some _ => exact .some rfl

theorem shows_iff {session : Session K W} {original : Session K V} : like.pairing.Shows session original ↔
    (∀ number, session.stores.get? number = (original.stores.get? number).map like.store) ∧
      ∀ place, session.cursors.get? place = (original.cursors.get? place).map like.cursor :=
  ⟨fun shows => ⟨fun number => rel_shown_iff.mp (shows.stores number),
      fun place => rel_shown_iff.mp (shows.cursors place)⟩,
    fun ⟨stores, cursors⟩ => ⟨fun number => rel_shown_iff.mpr (stores number),
      fun place => rel_shown_iff.mpr (cursors place)⟩⟩

end Likeness

end KeyedStore
