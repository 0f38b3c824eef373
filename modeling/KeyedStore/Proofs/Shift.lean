import Mathlib.Logic.Equiv.Basic
import KeyedStore.Identity
import KeyedStore.Proofs.Shape.Relabel
import KeyedStore.Proofs.Slots
/-!
A container that is moved along everything that only counts up: the handles it issues, its serial numbers, its
counts of transactions and rebuildings, and its identity. Slots that have been emptied are slots that never
held anything, moved along as many handles as they have issued.
-/
namespace KeyedStore

/-- How far each count is moved, and what becomes of identities. -/
structure Shift where
  rename : Equiv.Perm Identity
  handles : Nat
  serials : Nat
  transactions : Nat
  epoch : Nat

/-- The handle issued so many handles later. -/
def Handle.shift (offset : Nat) (handle : Handle) : Handle := ⟨offset + handle.index⟩

theorem Handle.shift_inj {offset : Nat} {first second : Handle} :
    first.shift offset = second.shift offset ↔ first = second := by
  cases first
  cases second
  simp [Handle.shift]

namespace Slots

variable {α : Type}

/-- The same contents behind so many places more, all of them released. -/
def shift (offset : Nat) (slots : Slots α) : Slots α where
  places := Array.replicate offset none ++ slots.places
  size := slots.size
  size_eq := by simp [slots.size_eq]

variable (offset : Nat) (slots : Slots α)

@[simp] theorem size_shift : (slots.shift offset).size = slots.size := rfl

@[simp] theorem isFull_shift : (slots.shift offset).isFull = slots.isFull := rfl

@[simp] theorem next_shift : (slots.shift offset).next = slots.next.shift offset := by
  simp [next, shift, Handle.shift]

@[simp] theorem get?_shift (handle : Handle) :
    (slots.shift offset).get? (handle.shift offset) = slots.get? handle := by
  simp [get?, shift, Handle.shift, Array.getElem?_append_right]

@[simp] theorem contains_shift (handle : Handle) :
    (slots.shift offset).contains (handle.shift offset) = slots.contains handle := by
  rw [contains, contains, get?_shift]

@[simp] theorem fetch_shift (handle : Handle) :
    (slots.shift offset).fetch (handle.shift offset) = slots.fetch handle := by
  rw [fetch, fetch, get?_shift]

@[simp] theorem insert_shift (content : α) :
    (slots.shift offset).insert content = (slots.insert content).shift offset := by
  apply eq_of_places
  simp [insert, shift]

/-- A change of one place, before and after the move. -/
theorem setIfInBounds_shift (handle : Handle) (content : Option α) :
    (slots.shift offset).places.setIfInBounds (handle.shift offset).index content =
      Array.replicate offset none ++ slots.places.setIfInBounds handle.index content := by
  simp [shift, Handle.shift, Array.setIfInBounds_append_right]

@[simp] theorem replace_shift (handle : Handle) (content : α) :
    (slots.shift offset).replace (handle.shift offset) content =
      shift offset <$> slots.replace handle content := by
  cases held : slots.get? handle with
  | none =>
    rw [replace_eq_error.mpr ⟨rfl, (get?_shift offset slots handle).trans held⟩,
      replace_eq_error.mpr ⟨rfl, held⟩]
    rfl
  | some old =>
    obtain ⟨after, done⟩ := replace_of_get? held content
    obtain ⟨moved, also⟩ := replace_of_get? ((get?_shift offset slots handle).trans held) content
    have same : moved = after.shift offset := by
      apply eq_of_places
      rw [places_replace also, setIfInBounds_shift, ← places_replace done]
      rfl
    rw [done, also, same]
    rfl

@[simp] theorem take_shift (handle : Handle) :
    (slots.shift offset).take (handle.shift offset) =
      (fun (content, after) => (content, after.shift offset)) <$> slots.take handle := by
  cases held : slots.get? handle with
  | none =>
    rw [take_eq_error.mpr ⟨rfl, (get?_shift offset slots handle).trans held⟩, take_eq_error.mpr ⟨rfl, held⟩]
    rfl
  | some old =>
    obtain ⟨after, done⟩ := take_of_get? held
    obtain ⟨moved, also⟩ := take_of_get? ((get?_shift offset slots handle).trans held)
    have same : moved = after.shift offset := by
      apply eq_of_places
      rw [places_take also, setIfInBounds_shift, ← places_take done]
      rfl
    rw [done, also, same]
    rfl

/-- Slots of which nothing is in use are fresh slots, moved along the handles that were issued. -/
theorem eq_shift_empty {slots : Slots α} (unused : slots.InUse []) :
    slots = empty.shift slots.next.index := by
  apply eq_of_places
  refine Array.ext (by simp [shift, empty, next]) fun index within _ => ?_
  have place : slots.places[index]?.join = none := unused.get?_eq_none List.not_mem_nil
  rw [Array.getElem?_eq_getElem within] at place
  simpa [shift, empty] using place

end Slots

end KeyedStore
