import KeyedStore.Proofs.Shape.Depth
import KeyedStore.Proofs.OrderedMap.Changes
/-!
How many keys a descent in an ordered map compares, whatever the comparison answers. The repairs keep the tree
shallow without a look at the keys, and a descent goes down one way of it, so a comparison without any law makes no
descent longer.
-/
namespace KeyedStore.OrderedMap

variable {K V : Type}

/-- Whatever the comparison and the copying functions answer, every run of changes of a fresh map leaves a tree whose
black height, as the check counts it, is at most one more than the binary logarithm of the number of entries and
one; no way down passes more than twice as many nodes as that height without the absent one at its end. So the
descent of lookups, additions and removals asks the comparison about at most twice that logarithm of keys, for any
key at all, and so does the descent of a cursor that looks for its place anew. -/
theorem run_keeps_shallow (id : Identity) (policy : Policy K V) (noOverwrite : Bool) (changes : List (Change K V)) :
    ∃ (map : OrderedMap K V) (height : Nat),
      changes.foldlM apply { id, policy, noOverwrite } = .ok map ∧
      map.shape.blackHeight = .ok height ∧
      2 ^ (height - 1) ≤ map.size + 1 ∧
      (∀ way ∈ map.shape.descents, way.length ≤ 2 * (height - 1)) ∧
      ∀ key,
        (∃ asked, (Path.searchM (Path.noting (probe map.policy key)) [] map.shape).run [] = (map.descend key, asked) ∧
          asked.length ≤ 2 * (map.size + 1).log2) ∧
        ∃ asked, (Path.gapBeyondM (Path.noting (probe map.policy key)) [] map.shape).run [] =
            (Path.gapBeyond (probe map.policy key) [] map.shape, asked) ∧
          asked.length ≤ 2 * (map.size + 1).log2 := by
  obtain ⟨map, done, wellFormed⟩ := applyAll_wellFormed (wellFormed_fresh id policy noOverwrite) changes
  obtain ⟨height, balanced⟩ := wellFormed.balanced
  refine ⟨map, height + 1, done, Shape.blackHeight_of_sound balanced.2, ?_, ?_, ?_⟩
  · rw [← wellFormed.size_eq]
    exact Shape.two_pow_le_size balanced.2.2
  · intro way member
    exact balanced.length_le member
  · intro key
    obtain ⟨asked, ran, reaches⟩ := Path.run_searchM_noting (probe map.policy key) [] map.shape []
    obtain ⟨beyond, also, further⟩ := Path.run_gapBeyondM_noting (probe map.policy key) [] map.shape []
    rw [List.append_nil] at ran also
    rw [← wellFormed.size_eq]
    exact ⟨⟨asked, ran, balanced.reaches_le reaches⟩, beyond, also, balanced.reaches_le further⟩

end KeyedStore.OrderedMap
