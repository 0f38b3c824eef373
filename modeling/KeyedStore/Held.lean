/-!
A key or value as a container holds it. What comes in is either lent or given. A lent content that
meets a copying function is stored as a copy of its own; everything else is stored as it came.
-/
namespace KeyedStore

/-- Whose a content is (`Ownership`). The lender of a borrowed content has to keep it for as long as it is held. -/
inductive Ownership where
  | owned
  | borrowed
  deriving DecidableEq

/-- A content together with the way it is held. -/
structure Held (α : Type) where
  ownership : Ownership
  val : α
  deriving DecidableEq

namespace Held

variable {α : Type}

/-- A content on its way into storage (`adopt_key`, `adopt_data`). Only a borrowed one is copied, and only when there
is a function to do it; the copy is owned. -/
def secure (copy : Option (α → α)) (content : Held α) : Held α :=
  match content.ownership, copy with
  | .borrowed, some copy => ⟨.owned, copy content.val⟩
  | _, _ => content

/-- A stored content as it is remembered elsewhere (`checkpoint`). A borrowed one is borrowed again; an owned one is
copied once more, by the same function if there is one and faithfully otherwise. -/
def remember (copy : Option (α → α)) (stored : Held α) : Held α :=
  match stored.ownership with
  | .borrowed => stored
  | .owned => ⟨.owned, copy.getD id stored.val⟩

theorem secure_none (content : Held α) : secure none content = content := by
  cases content with
  | mk ownership val => cases ownership <;> rfl

/-- With a copying function nothing borrowed is ever stored. -/
theorem ownership_secure_some (copy : α → α) (content : Held α) :
    (secure (some copy) content).ownership = .owned := by
  cases content with
  | mk ownership val => cases ownership <;> rfl

/-- Remembering never changes the way a content is held. -/
theorem ownership_remember (copy : Option (α → α)) (stored : Held α) :
    (remember copy stored).ownership = stored.ownership := by
  cases stored with
  | mk ownership val => cases ownership <;> rfl

end Held

end KeyedStore
