import Mathlib.Data.List.Nodup
import KeyedStore.Proofs.Ledger
import KeyedStore.Proofs.OrderedMap.Changes
/-!
The entries of an ordered map from left to right, and what becomes of them, whatever the comparison. An
update replaces one value where it stands, an addition puts one entry into the gap that its descent
ended in, and a removal leaves all entries but one, in their order.
-/
namespace KeyedStore.OrderedMap

variable {K V : Type}

/-- The entries in the order of the shape, each value with the tag that leads to it. -/
def sequence (map : OrderedMap K V) : List (Tag K × Held V) := map.slots.stored map.shape.toList

/-- The entries in the order of the shape. -/
def records (map : OrderedMap K V) : Ledger Unit K V := map.slots.records () map.shape.toList

variable {map : OrderedMap K V}

theorem records_eq_sequence (map : OrderedMap K V) :
    map.records = map.sequence.map (Record.ofStored ()) :=
  map.slots.records_eq () map.shape.toList

theorem WellFormed.live (wellFormed : map.WellFormed) {tag : Tag K} (member : tag ∈ map.shape.toList) :
    ∃ value, map.slots.get? tag.handle = some value :=
  wellFormed.inUse.get? (List.mem_map_of_mem member)

theorem WellFormed.map_fst_sequence (wellFormed : map.WellFormed) :
    map.sequence.map Prod.fst = map.shape.toList :=
  Slots.map_fst_stored fun _ member => wellFormed.live member

theorem WellFormed.map_handle_sequence (wellFormed : map.WellFormed) :
    map.sequence.map (·.1.handle) = map.shape.toList.map (·.handle) := by
  rw [← wellFormed.map_fst_sequence, List.map_map]
  rfl

theorem mem_records {record : Record Unit K V} : record ∈ map.records ↔
    ∃ tag ∈ map.shape.toList, ∃ value, map.slots.get? tag.handle = some value ∧
      ⟨(), tag.key, value⟩ = record := Slots.mem_records

theorem length_records (wellFormed : map.WellFormed) : map.records.length = map.size := by
  rw [records, Slots.length_records fun tag member => wellFormed.live member, Shape.length_toList,
    wellFormed.size_eq]

section Met

variable {key : K} {path : Path (Tag K)} {color : Color} {left right : Shape (Tag K)} {tag : Tag K}

/-- No other tag has the handle of the one that a descent meets. -/
theorem apart_of_met (wellFormed : map.WellFormed)
    (met : map.descend key = (path, .node color left tag right)) :
    tag.handle ∉ (path.before ++ left.toList).map (·.handle) ∧
      tag.handle ∉ (right.toList ++ path.after).map (·.handle) := by
  have nodup := wellFormed.inUse.nodup
  rw [toList_met met, List.map_append, List.map_cons, List.nodup_middle, List.nodup_cons] at nodup
  exact ⟨fun member => nodup.1 (List.mem_append_left _ member),
    fun member => nodup.1 (List.mem_append_right _ member)⟩

theorem sequence_met {value : Held V} (met : map.descend key = (path, .node color left tag right))
    (held : map.slots.get? tag.handle = some value) :
    map.sequence = map.slots.stored (path.before ++ left.toList) ++
      (tag, value) :: map.slots.stored (right.toList ++ path.after) := by
  rw [sequence, toList_met met, Slots.stored_append, Slots.stored_cons held]

theorem sequence_updated {slots : Slots (Held V)} {value : Held V} (wellFormed : map.WellFormed)
    (met : map.descend key = (path, .node color left tag right))
    (done : map.slots.replace tag.handle value = .ok slots) :
    sequence { map with slots := slots } = map.slots.stored (path.before ++ left.toList) ++
      (tag, value) :: map.slots.stored (right.toList ++ path.after) := by
  obtain ⟨front, back⟩ := apart_of_met wellFormed met
  have replaced : slots.get? tag.handle = some value := by rw [Slots.get?_replace done, if_pos rfl]
  rw [sequence, toList_met met, Slots.stored_append, Slots.stored_cons replaced,
    Slots.stored_congr (Slots.get?_replace_apart done front),
    Slots.stored_congr (Slots.get?_replace_apart done back)]

theorem sequence_removed {slots : Slots (Held V)} {shape : Shape (Tag K)} {value : Held V}
    (transactions : Nat) (wellFormed : map.WellFormed)
    (met : map.descend key = (path, .node color left tag right))
    (closed : Shape.removeAt path color left right = .ok shape)
    (taken : map.slots.take tag.handle = .ok (value, slots)) :
    sequence { map with shape := shape, slots := slots, transactions := transactions } =
      map.slots.stored (path.before ++ left.toList) ++ map.slots.stored (right.toList ++ path.after) := by
  obtain ⟨front, back⟩ := apart_of_met wellFormed met
  rw [sequence, toList_closed closed, Slots.stored_append,
    Slots.stored_congr (Slots.get?_take_apart taken front),
    Slots.stored_congr (Slots.get?_take_apart taken back)]

theorem records_updated {slots : Slots (Held V)} {value : Held V} (wellFormed : map.WellFormed)
    (met : map.descend key = (path, .node color left tag right))
    (done : map.slots.replace tag.handle value = .ok slots) :
    ∃ old front back, map.slots.get? tag.handle = some old ∧
      map.records = front ++ ⟨(), tag.key, old⟩ :: back ∧
      records { map with slots := slots } = front ++ ⟨(), tag.key, value⟩ :: back := by
  obtain ⟨old, held⟩ := wellFormed.get?_of_met met
  have listed := congrArg (List.map (Record.ofStored ())) (sequence_met met held)
  have changed := congrArg (List.map (Record.ofStored ())) (sequence_updated wellFormed met done)
  rw [← records_eq_sequence, List.map_append, List.map_cons] at listed changed
  exact ⟨old, _, _, held, listed, changed⟩

theorem records_removed {slots : Slots (Held V)} {shape : Shape (Tag K)} {value : Held V}
    (transactions : Nat) (wellFormed : map.WellFormed)
    (met : map.descend key = (path, .node color left tag right))
    (closed : Shape.removeAt path color left right = .ok shape)
    (taken : map.slots.take tag.handle = .ok (value, slots)) :
    ∃ front back, map.slots.get? tag.handle = some value ∧
      map.records = front ++ ⟨(), tag.key, value⟩ :: back ∧
      records { map with shape := shape, slots := slots, transactions := transactions } = front ++ back := by
  have held := Slots.get?_of_take taken
  have listed := congrArg (List.map (Record.ofStored ())) (sequence_met met held)
  have left := congrArg (List.map (Record.ofStored ()))
    (sequence_removed transactions wellFormed met closed taken)
  rw [← records_eq_sequence, List.map_append] at listed left
  exact ⟨_, _, held, listed, left⟩

end Met

section Missed

variable {key : K} {path : Path (Tag K)}

theorem sequence_missed (missed : map.descend key = (path, .nil)) :
    map.sequence = map.slots.stored path.before ++ map.slots.stored path.after := by
  rw [sequence, toList_missed missed, Slots.stored_append]

theorem sequence_inserted (stored : Held K) (value : Held V) (transactions : Nat)
    (wellFormed : map.WellFormed) (missed : map.descend key = (path, .nil)) :
    sequence { map with
        shape := Shape.repairRed path .nil ⟨map.slots.next, stored⟩ .nil
        slots := map.slots.insert value
        transactions := transactions } =
      map.slots.stored path.before ++ (⟨map.slots.next, stored⟩, value) :: map.slots.stored path.after := by
  have fresh := wellFormed.inUse.next_notMem
  rw [toList_missed missed, List.map_append, List.mem_append, not_or] at fresh
  have placed : (map.slots.insert value).get? map.slots.next = some value := by
    rw [Slots.get?_insert, if_pos rfl]
  rw [sequence, toList_hung, Slots.stored_append, Slots.stored_cons placed,
    Slots.stored_congr (Slots.get?_insert_apart fresh.1), Slots.stored_congr (Slots.get?_insert_apart fresh.2)]

theorem records_inserted (stored : Held K) (value : Held V) (transactions : Nat)
    (wellFormed : map.WellFormed) (missed : map.descend key = (path, .nil)) :
    ∃ front back, map.records = front ++ back ∧
      records { map with
        shape := Shape.repairRed path .nil ⟨map.slots.next, stored⟩ .nil
        slots := map.slots.insert value
        transactions := transactions } = front ++ ⟨(), stored, value⟩ :: back := by
  have listed := congrArg (List.map (Record.ofStored ())) (sequence_missed missed)
  have added := congrArg (List.map (Record.ofStored ()))
    (sequence_inserted stored value transactions wellFormed missed)
  rw [← records_eq_sequence, List.map_append] at listed added
  exact ⟨_, _, listed, added⟩

end Missed

end KeyedStore.OrderedMap
