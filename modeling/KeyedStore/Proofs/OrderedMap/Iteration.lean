import KeyedStore.Text.Description
import KeyedStore.Proofs.OrderedMap.Records
import KeyedStore.Proofs.OrderedMap.Walk
/-!
Iterating over an ordered map that nobody changes meanwhile, whatever the comparison. The cursor keeps the ancestors
of its spot and no list; from one call to the next it goes down to the left or up to the nearest ancestor that it
left on that side. All calls together return the entries of the nodes from left to right, and then no more.
-/
namespace KeyedStore.OrderedMap

variable {K V : Type}

/-- The entries as they are reported, from the leftmost node to the rightmost. -/
def listing (map : OrderedMap K V) : List (K × V) :=
  map.sequence.map fun (tag, value) => (tag.key.val, value.val)

/-- What an iteration returns. Every stored value belongs to one node, and each node has its turn, in order; a walk
that stops early has seen the first of them, and it has come to the end when it was asked for more than there are. -/
structure Iterates (map : OrderedMap K V) : Prop where
  nodes : map.sequence.map Prod.fst = map.shape.toList
  distinct : (map.sequence.map (·.1.handle)).Nodup
  stored : ∀ handle, handle ∈ map.sequence.map (·.1.handle) ↔ map.slots.contains handle = true
  length : map.listing.length = map.size
  walks : ∀ limit, ∃ ended,
    (Store.ordered map).walk limit (Store.ordered map).start = .ok (map.listing.take limit, ended) ∧
      (ended.isFinished = true ↔ map.size < limit)
  entries : (Store.ordered map).entries none = .ok map.listing
  describe : ∀ [Text.Shown K] [Text.Shown V], (Store.ordered map).describe = .ok (Text.entriesLine map.listing)
  describeBlock : ∀ [Text.Shown K] [Text.Shown V],
    (Store.ordered map).describeBlock = .ok ("\n".intercalate (Text.entriesBlock map.listing))
  first : map.first = .ok map.listing.head?
  last : map.last = .ok map.listing.getLast?
  noFirst : map.first = .ok none ↔ map.size = 0
  noLast : map.last = .ok none ↔ map.size = 0

variable {map : OrderedMap K V}

theorem listing_eq (map : OrderedMap K V) : map.listing = map.records.map Record.pair := by
  rw [records_eq_sequence, List.map_map]
  rfl

namespace WellFormed

theorem length_listing (wellFormed : map.WellFormed) : map.listing.length = map.size := by
  rw [listing_eq, List.length_map, length_records wellFormed]

theorem listing_eq_nil (wellFormed : map.WellFormed) : map.listing = [] ↔ map.size = 0 := by
  rw [← List.length_eq_zero_iff, wellFormed.length_listing]

theorem first_listing (wellFormed : map.WellFormed) : map.first = .ok map.listing.head? := by
  rw [first_eq wellFormed, listing_eq, List.head?_map]

theorem last_listing (wellFormed : map.WellFormed) : map.last = .ok map.listing.getLast? := by
  rw [last_eq wellFormed, listing_eq, List.getLast?_map]

theorem entries_listing (wellFormed : map.WellFormed) : (Store.ordered map).entries none = .ok map.listing := by
  rw [entries_eq wellFormed, listing_eq]

theorem iterates (wellFormed : map.WellFormed) : map.Iterates := by
  constructor
  case nodes => exact wellFormed.map_fst_sequence
  case distinct =>
    rw [wellFormed.map_handle_sequence]
    exact wellFormed.inUse.nodup
  case stored =>
    rw [wellFormed.map_handle_sequence]
    exact wellFormed.inUse.live
  case length => exact wellFormed.length_listing
  case walks =>
    intro limit
    obtain ⟨ended, walked, finished⟩ := walk_start wellFormed limit
    rw [List.map_take, ← listing_eq] at walked
    exact ⟨ended, walked, finished⟩
  case entries => exact wellFormed.entries_listing
  case describe =>
    intro _ _
    rw [Store.describe, wellFormed.entries_listing]
    rfl
  case describeBlock =>
    intro _ _
    rw [Store.describeBlock, wellFormed.entries_listing]
    rfl
  case first => exact wellFormed.first_listing
  case last => exact wellFormed.last_listing
  case noFirst =>
    rw [wellFormed.first_listing, ← wellFormed.listing_eq_nil, Except.ok.injEq, List.head?_eq_none_iff]
  case noLast =>
    rw [wellFormed.last_listing, ← wellFormed.listing_eq_nil, Except.ok.injEq, List.getLast?_eq_none_iff]

end WellFormed

/-- Whatever the comparison and the copying functions answer, every run of changes of a fresh map leaves one that is
iterated from left to right: each node once, as many as the map says it holds, and then the end. Equal keys and keys
out of order make no difference. The first and the last entry are the two ends of that list. -/
theorem run_iterates_in_order (id : Identity) (policy : Policy K V) (noOverwrite : Bool)
    (changes : List (Change K V)) :
    ∃ map : OrderedMap K V, changes.foldlM apply { id, policy, noOverwrite } = .ok map ∧ map.Iterates := by
  obtain ⟨map, done, wellFormed⟩ := applyAll_wellFormed (wellFormed_fresh id policy noOverwrite) changes
  exact ⟨map, done, wellFormed.iterates⟩

end KeyedStore.OrderedMap
