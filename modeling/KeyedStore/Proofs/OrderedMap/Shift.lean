import KeyedStore.OrderedMap.Cursor
import KeyedStore.Proofs.Shift
import KeyedStore.Proofs.OrderedMap.Changes
/-!
An ordered map that is moved along does what it does where it was: every operation and every step of a cursor
gives the same answer, and leaves what it leaves there, moved along. A map that has been cleared is a fresh
one, moved along.
-/
namespace KeyedStore

variable {K V : Type}

def Tag.shift (offset : Nat) (tag : Tag K) : Tag K := ⟨tag.handle.shift offset, tag.key⟩

namespace OrderedMap

/-- The same map with other handles, another identity and a higher count of transactions. -/
def shift (move : Shift) (map : OrderedMap K V) : OrderedMap K V :=
  { map with
    id := move.rename map.id
    shape := map.shape.relabel (Tag.shift move.handles)
    slots := map.slots.shift move.handles
    transactions := map.transactions + move.transactions }

end OrderedMap

/-- The same cursor on the map that is moved along. -/
def OrderedCursor.shift (move : Shift) (cursor : OrderedCursor K) : OrderedCursor K :=
  { cursor with
    owner := move.rename cursor.owner
    next := cursor.next.map (Spot.relabel (Tag.shift move.handles))
    transactions := cursor.transactions + move.transactions }

namespace OrderedMap

variable (move : Shift) (map : OrderedMap K V)

theorem descend_shift (key : K) : (map.shift move).descend key =
    ((map.descend key).1.relabel (Tag.shift move.handles),
      (map.descend key).2.relabel (Tag.shift move.handles)) :=
  Path.search_relabel (Tag.shift move.handles) (probe map.policy key) [] map.shape

theorem find?_shift (key : K) : (map.shift move).find? key = (map.find? key).map (Tag.shift move.handles) := by
  rw [find?, find?, descend_shift, Shape.root?_relabel, Option.map_map, Option.map_map]
  rfl

theorem entry_shift (tag : Tag K) : (map.shift move).entry (tag.shift move.handles) = map.entry tag := by
  simp [entry, shift, Tag.shift]

theorem entry?_shift (tag : Option (Tag K)) :
    entry? (map.shift move) (tag.map (Tag.shift move.handles)) = map.entry? tag := by
  cases tag with
  | none => rfl
  | some tag => simp only [Option.map_some, entry?, entry_shift]

theorem lookupEntry_shift (key : K) : (map.shift move).lookupEntry key = map.lookupEntry key := by
  rw [lookupEntry, lookupEntry, find?_shift, entry?_shift]

theorem first_shift : (map.shift move).first = map.first := by
  have found : (map.shift move).shape.first? = map.shape.first?.map (Tag.shift move.handles) :=
    Shape.first?_relabel _ _
  rw [first, first, found, entry?_shift]

theorem last_shift : (map.shift move).last = map.last := by
  have found : (map.shift move).shape.last? = map.shape.last?.map (Tag.shift move.handles) :=
    Shape.last?_relabel _ _
  rw [last, last, found, entry?_shift]

theorem root_shift : (map.shift move).root = map.root := by
  simp only [root, shift, Shape.root?_relabel, Option.map_map]
  rfl

theorem check_shift : (map.shift move).check = map.check := by
  simp only [check, shift, Shape.isRed_relabel, Shape.blackHeight_relabel, Shape.size_relabel,
    Shape.toList_relabel, List.map_map, size, Slots.size_shift]
  rfl

theorem insert_shift (key : Held K) (value : Held V) : (map.shift move).insert key value =
    (fun (outcome, after) => (outcome, after.shift move)) <$> map.insert key value := by
  have descent := descend_shift move map key.val
  cases ended : map.descend key.val with
  | mk path inside =>
    rw [ended] at descent
    cases inside with
    | node color left tag right =>
      simp only [insert, descent, ended, Shape.relabel]
      cases kept : map.noOverwrite with
      | true => simp [shift, kept]
      | false =>
        have replaced := Slots.replace_shift move.handles map.slots tag.handle (map.policy.secureValue value)
        simp only [shift, kept, Tag.shift, Bool.false_eq_true, if_false, replaced]
        exact bind_carried fun slots => rfl
    | nil =>
      simp only [insert, descent, ended, Shape.relabel]
      cases full : map.slots.isFull with
      | true => simp [shift, full]
      | false =>
        have grown := Shape.repairRed_relabel (Tag.shift move.handles) path .nil
          ⟨map.slots.next, map.policy.secureKey key⟩ .nil
        simp only [Shape.relabel_nil, Tag.shift] at grown
        simp [shift, full, grown, Nat.add_right_comm]

theorem remove_shift (key : K) : (map.shift move).remove key =
    (fun (value, after) => (value, after.shift move)) <$> map.remove key := by
  have descent := descend_shift move map key
  cases ended : map.descend key with
  | mk path inside =>
    rw [ended] at descent
    cases inside with
    | nil => simp only [remove, descent, ended, Shape.relabel, ok_carried]
    | node color left tag right =>
      have closed := Shape.removeAt_relabel (Tag.shift move.handles) path color left right
      have taken := Slots.take_shift move.handles map.slots tag.handle
      simp only [remove, descent, ended, Shape.relabel, closed]
      refine bind_carried fun shape => ?_
      simp only [shift, Tag.shift, taken]
      refine bind_carried ?_
      rintro ⟨value, slots⟩
      simp [Nat.add_right_comm, pure, Except.pure]

theorem clear_shift : (map.shift move).clear =
    (fun (released, after) => (released, after.shift move)) <$> map.clear := by
  have released : release (map.shift move).slots (map.shift move).shape.postorder =
      Slots.shift move.handles <$> release map.slots map.shape.postorder := by
    simp only [release, shift, Shape.postorder_relabel]
    refine foldlM_carried (fun slots tag => ?_) _ _
    simp only [Tag.shift, Slots.take_shift]
    exact bind_carried fun _ => rfl
  simp only [clear, released]
  refine bind_carried fun slots => ?_
  have size : (map.shift move).shape.size = map.shape.size := Shape.size_relabel _ _
  simp only [size, pure, Except.pure, ok_carried, Except.ok.injEq, Prod.mk.injEq, true_and]
  by_cases nothing : map.shape.size = 0 <;> simp [shift, nothing, Nat.add_right_comm]

/-! ### Cursors -/

theorem start_shift : (map.shift move).start = map.start.shift move := by
  have first := Path.firstSpot_relabel (Tag.shift move.handles) [] map.shape
  rw [Path.relabel_nil] at first
  simp only [start, shift, OrderedCursor.shift, first]

theorem resume_shift (lastKey : Option (Held K)) : OrderedCursor.resume (map.shift move) lastKey =
    (OrderedCursor.resume map lastKey).map (Spot.relabel (Tag.shift move.handles)) := by
  cases lastKey with
  | none => exact Path.firstSpot_relabel (Tag.shift move.handles) [] map.shape
  | some key =>
    exact Path.firstBeyond_relabel (Tag.shift move.handles) (probe map.policy key.val) map.shape

theorem synchronize_shift (cursor : OrderedCursor K) :
    (cursor.shift move).synchronize (map.shift move) = (cursor.synchronize map).shift move := by
  unfold OrderedCursor.synchronize
  by_cases present : cursor.transactions = map.transactions
  · simp [OrderedCursor.shift, shift, present]
  · have resumed := resume_shift move map cursor.lastKey
    rw [shift] at resumed
    simp [OrderedCursor.shift, shift, present, resumed]

theorem advance_shift (cursor : OrderedCursor K) : (map.shift move).advance (cursor.shift move) =
    (fun (found, moved) => (found, moved.shift move)) <$> map.advance cursor := by
  have present := synchronize_shift move map cursor
  by_cases finished : cursor.finished = true
  · simp [advance, OrderedCursor.shift, finished]
  by_cases owned : cursor.owner = map.id
  · have active : (cursor.shift move).finished = false := by simpa [OrderedCursor.shift] using finished
    have own : (cursor.shift move).owner = (map.shift move).id := congrArg move.rename owned
    simp only [advance, finished, active, owned, own, present, Bool.false_eq_true, ne_eq, not_true_eq_false,
      if_false]
    cases reached : (cursor.synchronize map).next with
    | none => simp [OrderedCursor.shift, reached, OrderedCursor.stop]
    | some spot =>
      have entry := entry_shift move map spot.label
      have next := Spot.next?_relabel (Tag.shift move.handles) spot
      simp only [OrderedCursor.shift, reached, Option.map_some, Spot.relabel] at next ⊢
      rw [entry, next]
      cases map.entry spot.label <;> rfl
  · simp [advance, OrderedCursor.shift, shift, finished, owned, OrderedCursor.stop]

/-! ### Clearing -/

/-- A map that has been cleared is a fresh one, moved along the handles and transactions that it has
counted. -/
theorem cleared_eq_shift {map : OrderedMap K V} {slots : Slots (Held V)} (unused : slots.InUse [])
    {move : Shift} {id : Identity} (renamed : move.rename id = map.id) (handles : move.handles = slots.next.index)
    (transactions : move.transactions = (map.cleared slots).transactions) :
    map.cleared slots = shift move { id, policy := map.policy, noOverwrite := map.noOverwrite } := by
  have empty := Slots.eq_shift_empty unused
  rw [← handles] at empty
  simp only [shift, renamed, transactions, Shape.relabel, ← empty, cleared, Nat.zero_add]

end OrderedMap

end KeyedStore
