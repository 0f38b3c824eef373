import KeyedStore.OrderedMap.Cursor
import KeyedStore.Proofs.Guise
/-!
An ordered map under a guise of its values: every operation answers what it answers, under the guise, and leaves
what it leaves. Cursors hold no values, and are the same.
-/
namespace KeyedStore.OrderedMap

variable {K V W : Type}

/-- The same shape over values under the guise. -/
def guise (guise : Guise V W) (map : OrderedMap K V) : OrderedMap K W where
  id := map.id
  policy := map.policy.guise guise
  noOverwrite := map.noOverwrite
  shape := map.shape
  slots := map.slots.map guise.held
  transactions := map.transactions

theorem guise_plain (map : OrderedMap K V) : map.guise .plain = map := by
  have same : map.slots.map (Guise.plain (V := V)).held = map.slots := Slots.map_id map.slots
  simp only [guise, same]
  rfl

variable (look : Guise V W) (map : OrderedMap K V)

theorem descend_guise (key : K) : (map.guise look).descend key = map.descend key := rfl

theorem entry_guise (tag : Tag K) : (map.guise look).entry tag = look.pair <$> map.entry tag := by
  simp only [entry, guise, Slots.fetch_map]
  refine bind_carried fun value => ?_
  simp only [Guise.pair, look.val_held, pure, Except.pure, ok_carried]

theorem entry?_guise (tag : Option (Tag K)) :
    entry? (map.guise look) tag = Option.map look.pair <$> map.entry? tag := by
  cases tag with
  | none => rfl
  | some tag =>
    simp only [entry_guise, entry?]
    exact bind_carried fun _ => rfl

theorem lookupEntry_guise (key : K) :
    (map.guise look).lookupEntry key = Option.map look.pair <$> map.lookupEntry key :=
  entry?_guise look map (map.find? key)

theorem lookup_guise (key : K) : (map.guise look).lookup key = Option.map look.val <$> map.lookup key := by
  simp only [lookup, lookupEntry_guise]
  refine bind_carried fun found => ?_
  cases found <;> rfl

theorem first_guise : (map.guise look).first = Option.map look.pair <$> map.first :=
  entry?_guise look map map.shape.first?

theorem last_guise : (map.guise look).last = Option.map look.pair <$> map.last :=
  entry?_guise look map map.shape.last?

theorem insert_guise (key : Held K) (value : Held V) : (map.guise look).insert key (look.held value) =
    (fun (outcome, after) => (outcome, after.guise look)) <$> map.insert key value := by
  have descent := descend_guise look map key.val
  have secured := map.policy.secureValue_guise look value
  cases ended : map.descend key.val with
  | mk path inside =>
    rw [ended] at descent
    cases inside with
    | node color left tag right =>
      simp only [insert, descent, ended]
      cases kept : map.noOverwrite with
      | true => simp [guise, kept]
      | false =>
        simp only [guise, kept, secured, Slots.replace_map, Bool.false_eq_true, if_false]
        exact bind_carried fun slots => rfl
    | nil =>
      simp only [insert, descent, ended]
      cases full : map.slots.isFull with
      | true => simp [guise, Slots.isFull_map, full]
      | false =>
        simp only [guise, secured, Slots.isFull_map, Slots.next_map, Slots.insert_map, full, Bool.false_eq_true,
          if_false, ok_carried]
        rfl

theorem remove_guise (key : K) : (map.guise look).remove key =
    (fun (value, after) => (value.map look.held, after.guise look)) <$> map.remove key := by
  have descent := descend_guise look map key
  cases ended : map.descend key with
  | mk path inside =>
    rw [ended] at descent
    cases inside with
    | nil => simp only [remove, descent, ended, ok_carried, Option.map_none]
    | node color left tag right =>
      simp only [remove, descent, ended]
      refine bind_shown fun shape => ?_
      simp only [guise, Slots.take_map]
      exact bind_carried fun _ => rfl

theorem clear_guise : (map.guise look).clear =
    (fun (released, after) => (released, after.guise look)) <$> map.clear := by
  have released : release (map.guise look).slots map.shape.postorder =
      (fun slots => slots.map look.held) <$> release map.slots map.shape.postorder :=
    Slots.release_map look.held map.shape.postorder (·.handle) map.slots
  simp only [clear, show (map.guise look).shape = map.shape from rfl, released]
  exact bind_carried fun _ => rfl

/-! ### Cursors -/

theorem start_guise : (map.guise look).start = map.start := rfl

theorem synchronize_guise (cursor : OrderedCursor K) :
    cursor.synchronize (map.guise look) = cursor.synchronize map := rfl

theorem advance_guise (cursor : OrderedCursor K) : (map.guise look).advance cursor =
    (fun (found, moved) => (found.map look.pair, moved)) <$> map.advance cursor := by
  by_cases finished : cursor.finished = true
  · simp [advance, finished]
  have same : (map.guise look).id = map.id := rfl
  by_cases owned : cursor.owner = map.id
  · simp only [advance, finished, same, owned, synchronize_guise, Bool.false_eq_true, ne_eq,
      not_true_eq_false, if_false]
    cases (cursor.synchronize map).next with
    | none => rfl
    | some spot =>
      simp only [entry_guise]
      exact bind_carried fun _ => rfl
  · simp [advance, finished, same, owned]

end KeyedStore.OrderedMap
