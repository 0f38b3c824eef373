/-!
Things under numbers: at most one thing under each number, and a later one replaces an earlier one.
-/
namespace KeyedStore

structure Roster (α : Type) where
  items : List (Nat × α) := []

namespace Roster

variable {α : Type}

def get? (roster : Roster α) (number : Nat) : Option α :=
  (roster.items.find? (·.1 = number)).map (·.2)

def erase (roster : Roster α) (number : Nat) : Roster α :=
  ⟨roster.items.filter (·.1 ≠ number)⟩

def set (roster : Roster α) (number : Nat) (item : α) : Roster α :=
  ⟨(number, item) :: (roster.erase number).items⟩

theorem get?_empty (number : Nat) : ({} : Roster α).get? number = none := rfl

theorem get?_erase (roster : Roster α) (gone number : Nat) :
    (roster.erase gone).get? number = if number = gone then none else roster.get? number := by
  unfold get? erase
  rw [List.find?_filter]
  split
  · rename_i same
    simp [same]
  · rename_i different
    congr 2
    funext item
    by_cases sought : item.1 = number <;> simp [sought, different]

theorem get?_set (roster : Roster α) (place number : Nat) (item : α) :
    (roster.set place item).get? number =
      if number = place then some item else roster.get? number := by
  by_cases same : number = place
  · simp [get?, set, same]
  · have erased := get?_erase roster place number
    rw [if_neg same] at erased ⊢
    rw [← erased]
    simp [get?, set, Ne.symm same]

/-- What is found after a placing was placed or is an old find. -/
theorem placed_or_get?_of_set {roster : Roster α} {place number : Nat} {item found : α}
    (sought : (roster.set place item).get? number = some found) :
    number = place ∧ item = found ∨ roster.get? number = some found := by
  rw [get?_set] at sought
  split at sought
  · rename_i same
    exact .inl ⟨same, Option.some.inj sought⟩
  · exact .inr sought

/-- What is found after an erasure is an old find. -/
theorem get?_of_erase {roster : Roster α} {gone number : Nat} {found : α}
    (sought : (roster.erase gone).get? number = some found) : roster.get? number = some found := by
  rw [get?_erase] at sought
  split at sought
  · cases sought
  · exact sought

end Roster

end KeyedStore
