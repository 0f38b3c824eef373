import Mathlib.Data.List.Basic
import KeyedStore.OrderedMap.Basic
/-!
The reference that both kinds of map are measured against: one list of entries in the order in which they
were made. An entry is filed under a mark of its key as it was passed, and a key means the first entry
with its mark that the policy calls equal to it. Nothing here knows of trees, buckets or handles.
-/
namespace KeyedStore

/-- An entry of the reference: its mark, and the key and value as they are stored. -/
structure Record (M K V : Type) where
  mark : M
  key : Held K
  value : Held V

/-- What both kinds of map can be asked to do. -/
inductive Request (K V : Type) where
  | insert (key : Held K) (value : Held V)
  | lookup (key : K)
  | lookupEntry (key : K)
  | contains (key : K)
  | remove (key : K)
  | size
  | clear

/-- The requests that can change a map. -/
inductive Change (K V : Type) where
  | insert (key : Held K) (value : Held V)
  | remove (key : K)
  | clear

def Change.request {K V : Type} : Change K V → Request K V
  | .insert key value => .insert key value
  | .remove key => .remove key
  | .clear => .clear

/-- A request, and whether memory is granted for another array of buckets while it is served. -/
structure Demand (ρ : Type) where
  request : ρ
  granted : Bool

inductive Answer (K V : Type) where
  | added (outcome : Except AddError Addition)
  | value (found : Option V)
  | entry (found : Option (K × V))
  | truth (answer : Bool)
  | removed (value : Option (Held V))
  | count (entries : Nat)
  | entries (found : List (K × V))

/-- The answer tells that the request has made an entry or taken out some. -/
def Request.alters {K V : Type} : Request K V → Answer K V → Bool
  | .insert _ _, .added (.ok .inserted) => true
  | .remove _, .removed (some _) => true
  | .clear, .count released => released != 0
  | _, _ => false

/-- What a reference goes by. -/
structure Rules (M K V : Type) where
  policy : Policy K V
  mark : K → M
  noOverwrite : Bool

namespace Record

variable {M K V : Type}

/-- Key and value as they are reported. -/
def pair (record : Record M K V) : K × V := (record.key.val, record.value.val)

/-- The entry as it is reported, with the value that its removal hands back. -/
def handed (record : Record M K V) : (K × V) × Option (Held V) := (record.pair, some record.value)

end Record

/-- Entries in the order in which they were made. -/
abbrev Ledger (M K V : Type) := List (Record M K V)

namespace Ledger

variable {M K V : Type}

/-- Replaces the value of the first chosen record. Its stored key stays. -/
def revalue (chosen : Record M K V → Bool) (value : Held V) : Ledger M K V → Ledger M K V
  | [] => []
  | record :: rest =>
    if chosen record then { record with value := value } :: rest
    else record :: revalue chosen value rest

theorem length_revalue (chosen : Record M K V → Bool) (value : Held V) (ledger : Ledger M K V) :
    (revalue chosen value ledger).length = ledger.length := by
  induction ledger with
  | nil => rfl
  | cons head rest ih =>
    unfold revalue
    split
    · rfl
    · simp only [List.length_cons, ih]

variable [BEq M]

/-- A key means this record: it has the mark of the key, and the policy calls the two equal. -/
def selects (rules : Rules M K V) (key : K) (record : Record M K V) : Bool :=
  record.mark == rules.mark key && rules.policy.compare key record.key.val == .eq

/-- The record that a key means. -/
def find (rules : Rules M K V) (key : K) (ledger : Ledger M K V) : Option (Record M K V) :=
  ledger.find? (selects rules key)

/-- One request, answered from the list alone. -/
def serve (rules : Rules M K V) (ledger : Ledger M K V) :
    Request K V → Answer K V × Ledger M K V
  | .insert key value =>
    if (find rules key.val ledger).isSome then
      if rules.noOverwrite then (.added (.error .keyExists), ledger)
      else (.added (.ok .updated),
        revalue (selects rules key.val) (rules.policy.secureValue value) ledger)
    else if Slots.capacity ≤ ledger.length then (.added (.error .noRoom), ledger)
    else (.added (.ok .inserted),
      ledger ++ [⟨rules.mark key.val, rules.policy.secureKey key, rules.policy.secureValue value⟩])
  | .lookup key => (.value ((find rules key ledger).map (·.value.val)), ledger)
  | .lookupEntry key => (.entry ((find rules key ledger).map Record.pair), ledger)
  | .contains key => (.truth (find rules key ledger).isSome, ledger)
  | .remove key =>
    (.removed ((find rules key ledger).map (·.value)), ledger.eraseP (selects rules key))
  | .size => (.count ledger.length, ledger)
  | .clear => (.count ledger.length, [])

section Serve

variable {rules : Rules M K V} {ledger : Ledger M K V} {record : Record M K V} {key : Held K} {value : Held V}

theorem serve_refused (found : find rules key.val ledger = some record) (kept : rules.noOverwrite = true) :
    serve rules ledger (.insert key value) = (.added (.error .keyExists), ledger) := by
  simp only [serve, found, kept, Option.isSome_some, if_true]

theorem serve_updated (found : find rules key.val ledger = some record) (free : rules.noOverwrite = false) :
    serve rules ledger (.insert key value) = (.added (.ok .updated),
      revalue (selects rules key.val) (rules.policy.secureValue value) ledger) := by
  simp only [serve, found, free, Option.isSome_some, if_true, Bool.false_eq_true, if_false]

theorem serve_full (missed : find rules key.val ledger = none) (full : Slots.capacity ≤ ledger.length) :
    serve rules ledger (.insert key value) = (.added (.error .noRoom), ledger) := by
  simp only [serve, missed, full, Option.isSome_none, Bool.false_eq_true, if_false, if_true]

theorem serve_inserted (missed : find rules key.val ledger = none)
    (room : ¬ Slots.capacity ≤ ledger.length) :
    serve rules ledger (.insert key value) = (.added (.ok .inserted), ledger ++
      [⟨rules.mark key.val, rules.policy.secureKey key, rules.policy.secureValue value⟩]) := by
  simp only [serve, missed, room, Option.isSome_none, Bool.false_eq_true, if_false]

theorem serve_removed {sought : K} (found : find rules sought ledger = some record) :
    serve rules ledger (.remove sought) =
      (.removed (some record.value), ledger.eraseP (selects rules sought)) := by
  simp only [serve, found, Option.map_some]

theorem serve_missed {sought : K} (missed : find rules sought ledger = none) :
    serve rules ledger (.remove sought) = (.removed none, ledger) := by
  have kept := List.eraseP_of_forall_not (List.find?_eq_none.mp missed)
  simp only [serve, missed, kept, Option.map_none]

end Serve

/-! ### Where a key leads -/

/-- What finding a record says of the list, and what becomes of the list when it is changed there. -/
theorem split_of_find {rules : Rules M K V} {key : K} {ledger : Ledger M K V} {record : Record M K V}
    (found : find rules key ledger = some record) :
    ∃ earlier later, ledger = earlier ++ record :: later ∧
      (∀ other ∈ earlier, selects rules key other = false) ∧
      ledger.eraseP (selects rules key) = earlier ++ later ∧
      ∀ value, revalue (selects rules key) value ledger =
        earlier ++ { record with value := value } :: later := by
  unfold find at found
  induction ledger with
  | nil => cases found
  | cons head rest ih =>
    cases chosen : selects rules key head with
    | true =>
      rw [List.find?_cons_of_pos chosen] at found
      cases found
      exact ⟨[], rest, rfl, nofun, by simp [chosen], fun value => by simp [revalue, chosen]⟩
    | false =>
      rw [List.find?_cons_of_neg (by simp [chosen])] at found
      obtain ⟨earlier, later, split, passed, erased, revalued⟩ := ih found
      refine ⟨head :: earlier, later, by rw [split]; rfl, ?_, ?_, ?_⟩
      · exact List.forall_mem_cons.mpr ⟨chosen, passed⟩
      · rw [List.eraseP_cons_of_neg (by simp [chosen]), erased]
        rfl
      · intro value
        simp [revalue, chosen, revalued value]

end Ledger

/-! ### What slots hold behind tags -/

/-- A tag and the value behind it as a record. -/
def Record.ofStored {M K V : Type} (mark : M) (item : Tag K × Held V) : Record M K V :=
  ⟨mark, item.1.key, item.2⟩

namespace Slots

variable {M K V : Type}

/-- Some tags with the values that their handles lead to. -/
def stored (slots : Slots (Held V)) (tags : List (Tag K)) : List (Tag K × Held V) :=
  tags.filterMap fun tag => (slots.get? tag.handle).map (tag, ·)

/-- The record of a tag, with the value that its handle leads to. -/
def record? (slots : Slots (Held V)) (mark : M) (tag : Tag K) : Option (Record M K V) :=
  (slots.get? tag.handle).map fun value => ⟨mark, tag.key, value⟩

/-- The records of some tags, all filed under one mark. -/
def records (slots : Slots (Held V)) (mark : M) (tags : List (Tag K)) : Ledger M K V :=
  tags.filterMap (slots.record? mark)

variable {slots after : Slots (Held V)} {mark : M} {tag : Tag K} {value : Held V} {tags : List (Tag K)}

theorem stored_append (front back : List (Tag K)) :
    slots.stored (front ++ back) = slots.stored front ++ slots.stored back :=
  List.filterMap_append

theorem stored_cons (held : slots.get? tag.handle = some value) (tags : List (Tag K)) :
    slots.stored (tag :: tags) = (tag, value) :: slots.stored tags := by
  rw [stored, List.filterMap_cons, held]
  rfl

/-- Slots that agree behind the tags hold the same behind them. -/
theorem stored_congr (agree : ∀ tag ∈ tags, after.get? tag.handle = slots.get? tag.handle) :
    after.stored tags = slots.stored tags :=
  List.filterMap_congr fun tag member => by rw [agree tag member]

/-- Behind tags that are all in use nothing is missing. -/
theorem map_fst_stored (live : ∀ tag ∈ tags, ∃ value, slots.get? tag.handle = some value) :
    (slots.stored tags).map Prod.fst = tags := by
  induction tags with
  | nil => rfl
  | cons tag tags ih =>
    obtain ⟨value, held⟩ := live tag List.mem_cons_self
    rw [stored_cons held, List.map_cons, ih fun other member => live other (List.mem_cons_of_mem tag member)]

theorem records_eq (slots : Slots (Held V)) (mark : M) (tags : List (Tag K)) :
    slots.records mark tags = (slots.stored tags).map (Record.ofStored mark) := by
  rw [records, stored, List.map_filterMap]
  refine List.filterMap_congr fun tag _ => ?_
  rw [record?, Option.map_map]
  rfl

theorem records_append (front back : List (Tag K)) :
    slots.records mark (front ++ back) = slots.records mark front ++ slots.records mark back :=
  List.filterMap_append

theorem records_cons (held : slots.get? tag.handle = some value) (tags : List (Tag K)) :
    slots.records mark (tag :: tags) = ⟨mark, tag.key, value⟩ :: slots.records mark tags := by
  rw [records_eq, stored_cons held, List.map_cons, ← records_eq]
  rfl

theorem mem_records {record : Record M K V} : record ∈ slots.records mark tags ↔
    ∃ tag ∈ tags, ∃ value, slots.get? tag.handle = some value ∧ ⟨mark, tag.key, value⟩ = record := by
  simp only [records, List.mem_filterMap, record?, Option.map_eq_some_iff]

theorem length_records (live : ∀ tag ∈ tags, ∃ value, slots.get? tag.handle = some value) :
    (slots.records mark tags).length = tags.length := by
  rw [records_eq, List.length_map, ← List.length_map Prod.fst, map_fst_stored live]

/-- Choosing among records by their keys is choosing among the tags. -/
theorem filter_records (slots : Slots (Held V)) (mark : M) (chosen : Held K → Bool) (tags : List (Tag K)) :
    (slots.records mark tags).filter (chosen ·.key) = slots.records mark (tags.filter (chosen ·.key)) := by
  simp only [records, List.filter_filterMap, List.filterMap_filter]
  refine List.filterMap_congr ?_
  intro tag _
  unfold record?
  cases slots.get? tag.handle <;> cases picked : chosen tag.key <;> simp [picked]

/-- Slots that agree behind the tags hold the same records. -/
theorem records_congr (agree : ∀ tag ∈ tags, after.get? tag.handle = slots.get? tag.handle) :
    after.records mark tags = slots.records mark tags := by
  rw [records_eq, records_eq, stored_congr agree]

/-! ### What an operation does not reach -/

section Apart

variable {target : Handle}

theorem get?_insert_apart (fresh : slots.next ∉ tags.map (·.handle)) :
    ∀ tag ∈ tags, (slots.insert value).get? tag.handle = slots.get? tag.handle := by
  intro tag member
  rw [get?_insert, if_neg]
  rintro same
  exact fresh (same ▸ List.mem_map_of_mem member)

theorem get?_replace_apart (done : slots.replace target value = .ok after)
    (apart : target ∉ tags.map (·.handle)) :
    ∀ tag ∈ tags, after.get? tag.handle = slots.get? tag.handle := by
  intro tag member
  rw [get?_replace done, if_neg]
  rintro same
  exact apart (same ▸ List.mem_map_of_mem member)

theorem get?_take_apart (done : slots.take target = .ok (value, after))
    (apart : target ∉ tags.map (·.handle)) :
    ∀ tag ∈ tags, after.get? tag.handle = slots.get? tag.handle := by
  intro tag member
  rw [get?_take done, if_neg]
  rintro same
  exact apart (same ▸ List.mem_map_of_mem member)

theorem records_insert (fresh : slots.next ∉ tags.map (·.handle)) :
    (slots.insert value).records mark tags = slots.records mark tags :=
  records_congr (get?_insert_apart fresh)

theorem records_replace (done : slots.replace target value = .ok after)
    (apart : target ∉ tags.map (·.handle)) : after.records mark tags = slots.records mark tags :=
  records_congr (get?_replace_apart done apart)

theorem records_take (done : slots.take target = .ok (value, after))
    (apart : target ∉ tags.map (·.handle)) : after.records mark tags = slots.records mark tags :=
  records_congr (get?_take_apart done apart)

end Apart

end Slots

end KeyedStore
