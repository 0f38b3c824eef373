import KeyedStore.Policy
import KeyedStore.Proofs.Simulation
import KeyedStore.Proofs.Slots
/-!
Values under a guise. A container never looks at a value: it copies a lent one when its policy says so, and keeps
the result behind a handle. So whatever renders values as other values, and copying functions as copying functions
of those, renders what a container does as what it does to them. Under the plain guise every value stands for
itself; under the blank one all values look alike.
-/
namespace KeyedStore

variable {K V W : Type}

/-- How values, on their own and as they are held, look to someone else, and how the copying looks to them. -/
structure Guise (V W : Type) where
  val : V → W
  held : Held V → Held W
  copies : Option (V → V) → Option (W → W)
  val_held : ∀ content, (held content).val = val content.val
  held_secure : ∀ copy content, held (content.secure copy) = (held content).secure (copies copy)

namespace Guise

/-- Every value stands for itself. -/
def plain : Guise V V where
  val := id
  held := id
  copies := id
  val_held _ := rfl
  held_secure _ _ := rfl

/-- All values look alike, and so do the ways in which they are held. -/
def blank : Guise V Unit where
  val _ := ()
  held _ := ⟨.owned, ()⟩
  copies _ := none
  val_held _ := rfl
  held_secure _ _ := rfl

/-- A key with its value as it looks. -/
def pair (guise : Guise V W) (entry : K × V) : K × W := (entry.1, guise.val entry.2)

@[simp] theorem val_plain : (plain : Guise V V).val = id := rfl

@[simp] theorem held_plain : (plain : Guise V V).held = id := rfl

@[simp] theorem pair_plain : (plain.pair : K × V → K × V) = id := rfl

end Guise

/-- Releasing contents that look otherwise, one after the other. -/
theorem Slots.release_map {α β γ : Type} (turned : α → β) (items : List γ) (handleOf : γ → Handle)
    (slots : Slots α) :
    items.foldlM (fun slots item => do return (← slots.take (handleOf item)).2) (slots.map turned) =
      (fun after => after.map turned) <$>
        (items.foldlM (fun slots item => do return (← slots.take (handleOf item)).2) slots :
          Except Fault (Slots α)) := by
  induction items generalizing slots with
  | nil => rfl
  | cons item items ih =>
    rw [List.foldlM_cons, List.foldlM_cons, take_map]
    cases slots.take (handleOf item) with
    | error fault => rfl
    | ok taken => exact ih taken.2

/-- The policy as it looks to the values under the guise. -/
def Policy.guise (guise : Guise V W) (policy : Policy K V) : Policy K W where
  compare := policy.compare
  copyKey := policy.copyKey
  copyValue := guise.copies policy.copyValue

theorem Policy.secureValue_guise (guise : Guise V W) (policy : Policy K V) (value : Held V) :
    (policy.guise guise).secureValue (guise.held value) = guise.held (policy.secureValue value) :=
  (guise.held_secure policy.copyValue value).symm

def HashPolicy.guise (guise : Guise V W) (policy : HashPolicy K V) : HashPolicy K W :=
  ⟨policy.base.guise guise, policy.hash⟩

end KeyedStore
