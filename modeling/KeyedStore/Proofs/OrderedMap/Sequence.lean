import KeyedStore.Proofs.OrderedMap.Walk
/-!
What one key can do to an ordered map, for any comparison. The descent for the key ends at one tag or in one
gap of the sequence. The lookups tell of that tag alone; an addition or a removal changes the sequence there
and nowhere else, whatever the repairs after it do to the shape.
-/
namespace KeyedStore.OrderedMap

variable {K V : Type}

/-- The map with another shape over other slots, one transaction later. -/
def reshaped (map : OrderedMap K V) (shape : Shape (Tag K)) (slots : Slots (Held V)) : OrderedMap K V :=
  { map with shape := shape, slots := slots, transactions := map.transactions + 1 }

/-- The descent for a key meets the tag at `spot`, which splits the sequence into what stands before it, the
tag with its value, and what stands after it. -/
structure Meets (map : OrderedMap K V) (key : Held K) (value : Held V) (spot : Spot (Tag K))
    (front : List (Tag K × Held V)) (old : Held V) (back : List (Tag K × Held V)) : Prop where
  met : map.descend key.val = (spot.path, spot.inside)
  equal : map.policy.compare key.val spot.label.key.val = .eq
  split : map.sequence = front ++ (spot.label, old) :: back
  before : front.map Prod.fst = spot.before
  after : back.map Prod.fst = spot.after
  lookup : map.lookup key.val = .ok (some old.val)
  lookupEntry : map.lookupEntry key.val = .ok (some (spot.label.key.val, old.val))
  contains : map.contains key.val = true
  refused : map.noOverwrite = true → map.insert key value = .ok (.error .keyExists, map)
  updated : map.noOverwrite = false →
    ∃ slots, map.insert key value = .ok (.ok .updated, { map with slots := slots }) ∧
      sequence { map with slots := slots } = front ++ (spot.label, map.policy.secureValue value) :: back
  removed : ∃ shape slots, map.remove key.val = .ok (some old, map.reshaped shape slots) ∧
    (map.reshaped shape slots).sequence = front ++ back

/-- The descent for a key falls off the shape at the end of `path`, in the gap between the two halves of the
sequence. -/
structure Misses (map : OrderedMap K V) (key : Held K) (value : Held V) (path : Path (Tag K))
    (front back : List (Tag K × Held V)) : Prop where
  missed : map.descend key.val = (path, .nil)
  split : map.sequence = front ++ back
  before : front.map Prod.fst = path.before
  after : back.map Prod.fst = path.after
  lookup : map.lookup key.val = .ok none
  lookupEntry : map.lookupEntry key.val = .ok none
  contains : map.contains key.val = false
  removed : map.remove key.val = .ok (none, map)
  full : map.slots.isFull = true → map.insert key value = .ok (.error .noRoom, map)
  inserted : map.slots.isFull = false →
    ∃ shape slots, map.insert key value = .ok (.ok .inserted, map.reshaped shape slots) ∧
      (map.reshaped shape slots).sequence =
        front ++ (⟨map.slots.next, map.policy.secureKey key⟩, map.policy.secureValue value) :: back
  fresh : ∀ item ∈ map.sequence, item.1.handle ≠ map.slots.next

variable {map : OrderedMap K V} {key : Held K} {path : Path (Tag K)}

namespace WellFormed

/-- The values behind a part of the shape are those of all its tags. -/
theorem map_fst_stored (wellFormed : map.WellFormed) {tags : List (Tag K)}
    (within : tags ⊆ map.shape.toList) : (map.slots.stored tags).map Prod.fst = tags :=
  Slots.map_fst_stored fun _ member => wellFormed.live (within member)

theorem meets {color : Color} {left right : Shape (Tag K)} {tag : Tag K} (wellFormed : map.WellFormed)
    (value : Held V) (met : map.descend key.val = (path, .node color left tag right)) :
    ∃ front old back, map.Meets key value ⟨path, color, left, tag, right⟩ front old back := by
  obtain ⟨old, held⟩ := wellFormed.get?_of_met met
  have listed := toList_met met
  have entry := lookupEntry_of_met met held
  refine ⟨map.slots.stored (path.before ++ left.toList), old, map.slots.stored (right.toList ++ path.after), ?_⟩
  constructor
  case met => exact met
  case equal =>
    have equal : probe map.policy key.val tag = .eq := Path.probe_of_met met
    exact equal
  case split => exact sequence_met met held
  case before =>
    refine wellFormed.map_fst_stored ?_
    rw [listed]
    exact List.subset_append_left _ _
  case after =>
    refine wellFormed.map_fst_stored ?_
    rw [listed]
    exact List.subset_append_of_subset_right _ (List.subset_cons_self _ _)
  case lookup => simp only [lookup, entry, bind, Except.bind, pure, Except.pure, Option.map_some]
  case lookupEntry => exact entry
  case contains => rw [contains, find?_of_met met, Option.isSome_some]
  case refused => intro kept; simp only [insert, met, kept, if_true]
  case updated =>
    intro free
    obtain ⟨slots, done⟩ := Slots.replace_of_get? held (map.policy.secureValue value)
    refine ⟨slots, ?_, sequence_updated wellFormed met done⟩
    simp [insert, met, free, done, bind, Except.bind, pure, Except.pure]
  case removed =>
    obtain ⟨value, left, done, removal⟩ := remove_ends wellFormed key.val
    cases removal with
    | missed missed => cases missed.symm.trans met
    | removed reached closed taken =>
      cases reached.symm.trans met
      obtain rfl := Option.some.inj ((Slots.get?_of_take taken).symm.trans held)
      exact ⟨_, _, done, sequence_removed _ wellFormed met closed taken⟩

theorem misses (wellFormed : map.WellFormed) (value : Held V)
    (missed : map.descend key.val = (path, .nil)) :
    ∃ front back, map.Misses key value path front back := by
  have listed := toList_missed missed
  have entry := lookupEntry_of_missed missed
  refine ⟨map.slots.stored path.before, map.slots.stored path.after, ?_⟩
  constructor
  case missed => exact missed
  case split => exact sequence_missed missed
  case before =>
    refine wellFormed.map_fst_stored ?_
    rw [listed]
    exact List.subset_append_left _ _
  case after =>
    refine wellFormed.map_fst_stored ?_
    rw [listed]
    exact List.subset_append_right _ _
  case lookup => simp only [lookup, entry, bind, Except.bind, pure, Except.pure, Option.map_none]
  case lookupEntry => exact entry
  case contains => rw [contains, find?_of_missed missed, Option.isSome_none]
  case removed => simp only [remove, missed]
  case full => intro full; simp only [insert, missed, full, if_true]
  case inserted =>
    intro room
    refine ⟨_, _, ?_, sequence_inserted _ _ (map.transactions + 1) wellFormed missed⟩
    simp only [insert, missed, room, Bool.false_eq_true, if_false, reshaped]
  case fresh =>
    intro item member same
    refine wellFormed.inUse.next_notMem ?_
    rw [← wellFormed.map_handle_sequence, ← same]
    exact List.mem_map_of_mem member

end WellFormed

/-- Every run of changes of a fresh map leaves a sequence that names each live handle once, and whatever the
comparison and the copying functions answer, a key touches one tag or one gap of it. Where the descent meets a
tag, the lookups tell its entry, an addition replaces its value or is refused, and a removal takes out this
entry. Where it meets none, nothing is found and nothing removed, and an addition puts one entry under a fresh
handle into the gap, unless no handle is left. All other entries keep handle, key, value and place. -/
theorem run_meets_or_misses (id : Identity) (policy : Policy K V) (noOverwrite : Bool)
    (changes : List (Change K V)) (key : Held K) (value : Held V) :
    ∃ map : OrderedMap K V, changes.foldlM apply { id, policy, noOverwrite } = .ok map ∧
      map.policy = policy ∧ map.noOverwrite = noOverwrite ∧
      map.sequence.map Prod.fst = map.shape.toList ∧
      (map.sequence.map (·.1.handle)).Nodup ∧
      (∀ handle, handle ∈ map.sequence.map (·.1.handle) ↔ map.slots.contains handle = true) ∧
      ((∃ spot front old back, map.Meets key value spot front old back) ∨
        ∃ path front back, map.Misses key value path front back) := by
  have keeps : ∀ (map : OrderedMap K V) (change : Change K V),
      map.WellFormed ∧ map.policy = policy ∧ map.noOverwrite = noOverwrite →
      ∃ after, map.apply change = .ok after ∧
        after.WellFormed ∧ after.policy = policy ∧ after.noOverwrite = noOverwrite := by
    rintro map change ⟨wellFormed, same, overwrites⟩
    obtain ⟨after, applied, changed⟩ := apply_ends wellFormed change
    obtain ⟨_, kept, still, _⟩ := changed.frame wellFormed
    exact ⟨after, applied, changed.wellFormed wellFormed, kept.trans same, still.trans overwrites⟩
  obtain ⟨map, done, wellFormed, same, overwrites⟩ :=
    foldlM_keeps keeps changes ⟨wellFormed_fresh id policy noOverwrite, rfl, rfl⟩
  refine ⟨map, done, same, overwrites, wellFormed.map_fst_sequence, ?_, ?_, ?_⟩
  · rw [wellFormed.map_handle_sequence]
    exact wellFormed.inUse.nodup
  · rw [wellFormed.map_handle_sequence]
    exact wellFormed.inUse.live
  · cases ended : map.descend key.val with
    | mk path inside =>
      cases inside with
      | nil =>
        obtain ⟨front, back, misses⟩ := wellFormed.misses value ended
        exact .inr ⟨path, front, back, misses⟩
      | node color left tag right =>
        obtain ⟨front, old, back, meets⟩ := wellFormed.meets value ended
        exact .inl ⟨_, front, old, back, meets⟩

end KeyedStore.OrderedMap
