import Mathlib.Data.List.Perm.Basic
import KeyedStore.Proofs.Ledger
/-!
What a policy has to promise for order to mean anything: comparison is a total preorder, so that equal
keys need not be the same, and a copied key stays equal to the original. Under it a list of entries with
no two equal keys has exactly one listing in ascending order.
-/
namespace KeyedStore

variable {M K V : Type}

/-- Comparison is oriented and transitive, and copying a key does not leave its class. -/
structure Policy.Lawful (policy : Policy K V) : Prop where
  order : Std.TransCmp policy.compare
  copies : ∀ copy, policy.copyKey = some copy → ∀ key, policy.compare (copy key) key = .eq

namespace Policy.Lawful

variable {policy : Policy K V}

theorem secureKey (lawful : policy.Lawful) (key : Held K) :
    policy.compare (policy.secureKey key).val key.val = .eq := by
  have := lawful.order
  unfold Policy.secureKey Held.secure
  split
  · rename_i copy _ found
    exact lawful.copies copy found key.val
  · exact Std.ReflCmp.compare_self

theorem rememberKey (lawful : policy.Lawful) (stored : Held K) :
    policy.compare (policy.rememberKey stored).val stored.val = .eq := by
  have := lawful.order
  unfold Policy.rememberKey Held.remember
  cases stored.ownership with
  | borrowed => exact Std.ReflCmp.compare_self
  | owned =>
    cases found : policy.copyKey with
    | none => exact Std.ReflCmp.compare_self
    | some copy => exact lawful.copies copy found stored.val

end Policy.Lawful

/-- Numbers by their tens, rounded down when copied. -/
def Policy.tens : Policy Nat V where
  compare := compareOn (· / 10)
  copyKey := some fun key => key / 10 * 10

theorem Policy.lawful_tens : (tens : Policy Nat V).Lawful := by
  refine ⟨inferInstanceAs (Std.TransCmp (compareOn (· / 10))), ?_⟩
  rintro copy same key
  cases same
  simp [tens, compareOn]

namespace Record

/-- This entry stands before the other one. -/
def Before (policy : Policy K V) (first second : Record M K V) : Prop :=
  policy.compare first.key.val second.key.val = .lt

end Record

namespace Ledger

variable {policy : Policy K V}

/-- No two entries have equal keys. -/
def OnePerClass (policy : Policy K V) (ledger : Ledger M K V) : Prop :=
  ledger.Pairwise fun first second => policy.compare first.key.val second.key.val ≠ .eq

/-- The entries by ascending key. -/
def inOrder (policy : Policy K V) (ledger : Ledger M K V) : Ledger M K V :=
  ledger.mergeSort fun first second => (policy.compare first.key.val second.key.val).isLE

theorem inOrder_perm (policy : Policy K V) (ledger : Ledger M K V) : (inOrder policy ledger).Perm ledger :=
  List.mergeSort_perm _ _

/-- In an ascending list equal keys are the keys of one entry. -/
theorem eq_of_ascending (lawful : policy.Lawful) {sorted : Ledger M K V}
    (ascending : sorted.Pairwise (Record.Before policy)) {first second : Record M K V}
    (one : first ∈ sorted) (other : second ∈ sorted)
    (equal : policy.compare first.key.val second.key.val = .eq) : first = second := by
  have := lawful.order
  obtain ⟨front, back, rfl⟩ := List.append_of_mem one
  obtain ⟨_, below, across⟩ := List.pairwise_append.mp ascending
  rcases List.mem_append.mp other with earlier | later
  · have before := across second earlier first List.mem_cons_self
    rw [Record.Before, Std.OrientedCmp.eq_symm equal] at before
    cases before
  · rcases List.mem_cons.mp later with same | later
    · exact same.symm
    · have before := (List.pairwise_cons.mp below).1 second later
      rw [Record.Before, equal] at before
      cases before

theorem onePerClass_of_ascending (lawful : policy.Lawful) {sorted ledger : Ledger M K V}
    (same : sorted.Perm ledger) (ascending : sorted.Pairwise (Record.Before policy)) :
    OnePerClass policy ledger := by
  have := lawful.order
  have apart : OnePerClass policy sorted :=
    ascending.imp fun before equal => by rw [Record.Before, equal] at before; cases before
  exact apart.perm same fun different equal => different (Std.OrientedCmp.eq_symm equal)

/-- An ascending list is the listing in order of whatever it holds. -/
theorem inOrder_eq (lawful : policy.Lawful) {sorted ledger : Ledger M K V} (same : sorted.Perm ledger)
    (ascending : sorted.Pairwise (Record.Before policy)) : inOrder policy ledger = sorted := by
  have := lawful.order
  have swapped : ∀ first second : Record M K V, policy.compare second.key.val first.key.val =
      (policy.compare first.key.val second.key.val).swap := fun _ _ => Std.OrientedCmp.eq_swap
  have listed : (inOrder policy ledger).Pairwise fun first second =>
      (policy.compare first.key.val second.key.val).isLE = true := by
    refine List.pairwise_mergeSort (fun _ _ _ => Std.TransCmp.isLE_trans) (fun first second => ?_) ledger
    rw [swapped first second]
    cases policy.compare first.key.val second.key.val <;> rfl
  have weakly : sorted.Pairwise fun first second =>
      (policy.compare first.key.val second.key.val).isLE = true :=
    ascending.imp fun before => by rw [show policy.compare _ _ = .lt from before]; rfl
  have alike := (inOrder_perm policy ledger).trans same.symm
  refine List.Perm.eq_of_pairwise ?_ listed weakly alike
  intro first second one other le ge
  refine eq_of_ascending lawful ascending (alike.mem_iff.mp one) other ?_
  rw [swapped first second] at ge
  cases order : policy.compare first.key.val second.key.val with
  | lt => simp [order] at ge
  | eq => rfl
  | gt => simp [order] at le

end Ledger

end KeyedStore
