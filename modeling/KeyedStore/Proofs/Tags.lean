import KeyedStore.Proofs.Returns
/-!
What the operations of a store of either kind do to its tags and to its values, stated once. A tag is a stored key
with the handle of its value. An addition that makes an entry adds one tag, under a handle that was never issued;
one that replaces a value touches no tag; a removal takes one tag out and hands back the value behind it; and
however a shape is repaired or chains are rebuilt, the other tags stay what they are.
-/
namespace KeyedStore

variable {K V : Type}

/-! ### Links -/

theorem exists_mem_kinOf {links : List (Link K)} {tag : Tag K} :
    (∃ hash, tag ∈ kinOf hash links) ↔ tag ∈ links.map Link.tag := by
  simp only [mem_kinOf, List.mem_map]
  constructor
  · rintro ⟨hash, link, member, _, same⟩
    exact ⟨link, member, same⟩
  · rintro ⟨link, member, same⟩
    exact ⟨link.hash, link, member, rfl, same⟩

namespace HashedMap

variable {map after : HashedMap K V} {tag : Tag K}

/-- Maps with the same links of each hash have the same tags. -/
theorem mem_tags_of_kin (kin : ∀ hash, after.kin hash = map.kin hash) :
    tag ∈ after.links.map Link.tag ↔ tag ∈ map.links.map Link.tag := by
  rw [← exists_mem_kinOf, ← exists_mem_kinOf]
  exact exists_congr fun hash => by rw [← HashedMap.kin, kin, HashedMap.kin]

theorem Extended.mem_tags {added : List (Link K)} (extended : map.Extended added after) :
    tag ∈ after.links.map Link.tag ↔ tag ∈ map.links.map Link.tag ∨ tag ∈ added.map Link.tag := by
  rw [← exists_mem_kinOf, ← exists_mem_kinOf, ← exists_mem_kinOf, ← exists_or]
  refine exists_congr fun hash => ?_
  rw [← HashedMap.kin, extended.kin, List.mem_append, HashedMap.kin]

theorem Detached.mem_tags {link : Link K} (detached : map.Detached link after) (member : link ∈ map.links) :
    tag ∈ map.links.map Link.tag ↔ tag = link.tag ∨ tag ∈ after.links.map Link.tag := by
  obtain ⟨front, back, listed⟩ := List.append_of_mem member
  rw [detached.links front back listed, listed]
  simp only [List.map_append, List.map_cons, List.mem_append, List.mem_cons]
  exact or_left_comm

theorem find_tag (chained : map.Chained) {key : K} {met : Option (Link K)} (meant : map.meant key = met) :
    (do return (← map.find key).map Link.tag) = (.ok (met.map Link.tag) : Except Fault (Option (Tag K))) := by
  rw [chained.find_eq, meant]
  rfl

end HashedMap

namespace Store

/-- The stored key that a key finds, with the handle of its value. -/
def find (store : Store K V) (key : K) : Except Fault (Option (Tag K)) :=
  match store with
  | ordered map => .ok (map.find? key)
  | hashed map => do return (← map.find key).map Link.tag

/-- Refuses to replace the value of a key that is present. -/
def noOverwrite : Store K V → Bool
  | ordered map => map.noOverwrite
  | hashed map => map.noOverwrite

/-- The same store over other values. -/
def restock (store : Store K V) (slots : Slots (Held V)) : Store K V :=
  match store with
  | ordered map => ordered { map with slots := slots }
  | hashed map => hashed { map with slots := slots }

/-- The ways in which an addition ends, by what the key finds, each with what it leaves behind. -/
inductive Insertion (store : Store K V) (key : Held K) (value : Held V) :
    Except AddError Addition → Store K V → Prop where
  | refused {tag : Tag K} (met : store.find key.val = .ok (some tag)) (kept : store.noOverwrite = true) :
      Insertion store key value (.error .keyExists) store
  | updated {tag : Tag K} {slots : Slots (Held V)} (met : store.find key.val = .ok (some tag))
      (free : store.noOverwrite = false)
      (done : store.slots.replace tag.handle (store.policy.secureValue value) = .ok slots) :
      Insertion store key value (.ok .updated) (store.restock slots)
  | full (missed : store.find key.val = .ok none) (full : store.slots.isFull = true) :
      Insertion store key value (.error .noRoom) store
  | inserted {after : Store K V} (missed : store.find key.val = .ok none) (room : store.slots.isFull = false)
      (policy : after.policy = store.policy)
      (slots : after.slots = store.slots.insert (store.policy.secureValue value))
      (tags : ∀ tag, tag ∈ after.tags ↔
        tag = ⟨store.slots.next, store.policy.secureKey key⟩ ∨ tag ∈ store.tags) :
      Insertion store key value (.ok .inserted) after

/-- The two ways in which a removal ends. -/
inductive Removal (store : Store K V) (key : K) : Option (Held V) → Store K V → Prop where
  | missed (missed : store.find key = .ok none) : Removal store key none store
  | removed {tag : Tag K} {value : Held V} {after : Store K V} (met : store.find key = .ok (some tag))
      (policy : after.policy = store.policy) (taken : store.slots.take tag.handle = .ok (value, after.slots))
      (tags : ∀ other, other ∈ store.tags ↔ other = tag ∨ other ∈ after.tags) :
      Removal store key (some value) after

variable {store after : Store K V} {cursor moved : Cursor K}

theorem slots_restock (store : Store K V) (slots : Slots (Held V)) : (store.restock slots).slots = slots := by
  cases store <;> rfl

theorem tags_restock (store : Store K V) (slots : Slots (Held V)) : (store.restock slots).tags = store.tags := by
  cases store <;> rfl

theorem policy_restock (store : Store K V) (slots : Slots (Held V)) :
    (store.restock slots).policy = store.policy := by
  cases store <;> rfl

theorem handles_eq (store : Store K V) : store.handles = store.tags.map (·.handle) := by
  cases store with
  | ordered map => rfl
  | hashed map =>
    rw [handles, tags, List.map_map]
    rfl

namespace WellFormed

/-- Behind every tag there is a value. -/
theorem get?_of_tag (wellFormed : store.WellFormed) {tag : Tag K} (member : tag ∈ store.tags) :
    ∃ value, store.slots.get? tag.handle = some value := by
  apply wellFormed.inUse.get?
  rw [handles_eq]
  exact List.mem_map_of_mem member

/-- What a key finds is a tag of the store. -/
theorem find_ends (wellFormed : store.WellFormed) (key : K) :
    ∃ found, store.find key = .ok found ∧ ∀ tag, found = some tag → tag ∈ store.tags := by
  cases store with
  | ordered map =>
    refine ⟨map.find? key, rfl, fun tag found => ?_⟩
    cases ended : map.descend key with
    | mk path inside =>
      cases inside with
      | nil =>
        rw [OrderedMap.find?_of_missed ended] at found
        cases found
      | node color left label right =>
        rw [OrderedMap.find?_of_met ended] at found
        cases found
        rw [tags, OrderedMap.toList_met ended]
        exact List.mem_append_right _ List.mem_cons_self
  | hashed map =>
    have found := (HashedMap.WellFormed.chained wellFormed).find_eq key
    refine ⟨(map.meant key).map Link.tag, by simp only [find, found]; rfl, fun tag met => ?_⟩
    obtain ⟨link, meant, rfl⟩ := Option.map_eq_some_iff.mp met
    exact List.mem_map_of_mem (List.mem_of_find?_eq_some meant)

end WellFormed

/-- A lookup shows what the key finds: nothing, or the key of the tag with the value behind it. -/
theorem lookupEntry_eq (store : Store K V) (key : K) : store.lookupEntry key = (do
    match ← store.find key with
    | none => return none
    | some tag => return some (tag.key.val, (← store.slots.fetch tag.handle).val)) := by
  cases store with
  | ordered map =>
    simp only [lookupEntry, OrderedMap.lookupEntry, find]
    cases map.find? key with
    | none => rfl
    | some tag =>
      simp only [OrderedMap.entry, OrderedMap.entry?, bind, Except.bind, slots, pure, Except.pure]
      cases map.slots.fetch tag.handle <;> rfl
  | hashed map =>
    simp only [lookupEntry, HashedMap.lookupEntry, find]
    cases map.find key with
    | error fault => rfl
    | ok found =>
      cases found with
      | none => rfl
      | some link =>
        simp only [bind, Except.bind, HashedMap.entry, slots, pure, Except.pure, Option.map_some, Link.tag]
        cases map.slots.fetch link.handle <;> rfl

theorem lookupEntry_of_find (wellFormed : store.WellFormed) {key : K} {found : Option (Tag K)}
    (met : store.find key = .ok found) :
    ∃ entry, store.lookupEntry key = .ok entry ∧ entry.isSome = found.isSome := by
  obtain ⟨sought, same, named⟩ := wellFormed.find_ends key
  obtain rfl : sought = found := Except.ok.inj (same.symm.trans met)
  cases sought with
  | none => exact ⟨none, by rw [lookupEntry_eq, met]; rfl, rfl⟩
  | some tag =>
    obtain ⟨value, held⟩ := wellFormed.get?_of_tag (named tag rfl)
    refine ⟨some (tag.key.val, value.val), ?_, rfl⟩
    simp only [lookupEntry_eq, met, Slots.fetch, held, bind, Except.bind, pure, Except.pure]

theorem insert_ends (wellFormed : store.WellFormed) (key : Held K) (value : Held V) (granted : Bool) :
    ∃ outcome after, store.insert key value granted = .ok (outcome, after) ∧
      store.Insertion key value outcome after := by
  cases store with
  | ordered map =>
    obtain ⟨outcome, after, done, insertion⟩ := OrderedMap.insert_ends wellFormed key value
    refine ⟨outcome, ordered after, by simp only [insert, done]; rfl, ?_⟩
    cases insertion with
    | refused met kept => exact .refused (congrArg Except.ok (OrderedMap.find?_of_met met)) kept
    | updated met free replaced => exact .updated (congrArg Except.ok (OrderedMap.find?_of_met met)) free replaced
    | full missed full => exact .full (congrArg Except.ok (OrderedMap.find?_of_missed missed)) full
    | @inserted path missed room =>
      refine .inserted (congrArg Except.ok (OrderedMap.find?_of_missed missed)) room rfl rfl fun tag => ?_
      simp only [tags, OrderedMap.toList_hung, OrderedMap.toList_missed missed, List.mem_append, List.mem_cons]
      exact or_left_comm
  | hashed map =>
    have chained := HashedMap.WellFormed.chained wellFormed
    obtain ⟨outcome, after, done, insertion⟩ := HashedMap.insert_ends wellFormed granted key value
    refine ⟨outcome, hashed after, by simp only [insert, done]; rfl, ?_⟩
    cases insertion with
    | refused met kept => exact .refused (HashedMap.find_tag chained met) kept
    | updated met free replaced => exact .updated (HashedMap.find_tag chained met) free replaced
    | full missed full => exact .full (HashedMap.find_tag chained missed) full
    | @inserted settled longer missed room settling extended =>
      obtain ⟨_, policy, _, slots, kin⟩ := settling.frame
      have same : longer.policy = settled.policy := by rw [extended.frame]
      refine .inserted (HashedMap.find_tag chained missed) room ?_ ?_ fun tag => ?_
      · exact congrArg HashPolicy.base (same.trans policy)
      · simp only [Store.slots, Store.policy, slots, policy]
      · have listed : tag ∈ longer.links.map Link.tag ↔ _ := extended.mem_tags
        rw [HashedMap.mem_tags_of_kin kin, List.map_singleton, List.mem_singleton, HashedMap.fresh, slots,
          policy] at listed
        exact listed.trans or_comm

/-- A refused addition leaves the store as it was. -/
theorem Insertion.eq_of_refused {key : Held K} {value : Held V} {error : AddError}
    (insertion : store.Insertion key value (.error error) after) : after = store := by
  cases insertion <;> rfl

theorem remove_ends (wellFormed : store.WellFormed) (key : K) (granted : Bool) :
    ∃ value after, store.remove key granted = .ok (value, after) ∧ store.Removal key value after := by
  cases store with
  | ordered map =>
    obtain ⟨value, after, done, removal⟩ := OrderedMap.remove_ends wellFormed key
    refine ⟨value, ordered after, by simp only [remove, done]; rfl, ?_⟩
    cases removal with
    | missed missed => exact .missed (congrArg Except.ok (OrderedMap.find?_of_missed missed))
    | removed met closed taken =>
      refine .removed (congrArg Except.ok (OrderedMap.find?_of_met met)) rfl taken fun other => ?_
      simp only [tags, OrderedMap.toList_met met, OrderedMap.toList_closed closed, List.mem_append, List.mem_cons]
      exact or_left_comm
  | hashed map =>
    have chained := HashedMap.WellFormed.chained wellFormed
    obtain ⟨value, after, done, removal⟩ := HashedMap.remove_ends wellFormed granted key
    refine ⟨value, hashed after, by simp only [remove, done]; rfl, ?_⟩
    cases removal with
    | missed missed => exact .missed (HashedMap.find_tag chained missed)
    | removed met taken detached enough =>
      refine .removed (HashedMap.find_tag chained met) ?_ taken fun other => ?_
      · simp only [Store.policy]
        rw [detached.frame]
      · exact detached.mem_tags (List.mem_of_find?_eq_some met)
    | @shrunk link value slots shorter after met taken detached sparse settling =>
      obtain ⟨_, policy, _, same, kin⟩ := settling.frame
      refine .removed (HashedMap.find_tag chained met) ?_ ?_ fun other => ?_
      · simp only [Store.policy]
        rw [policy]
        simp only
        rw [detached.frame]
      · simp only [Store.slots, same]
        exact taken
      · exact (detached.mem_tags (List.mem_of_find?_eq_some met)).trans
          (or_congr_right (HashedMap.mem_tags_of_kin kin).symm)

/-- A clearing leaves no tag, and gives no handle back. -/
theorem clear_leaves (wellFormed : store.WellFormed) (granted : Bool) :
    ∃ after, store.clear granted = .ok (store.size, after) ∧ after.policy = store.policy ∧ after.tags = [] ∧
      after.slots.next = store.slots.next := by
  cases store with
  | ordered map =>
    obtain ⟨slots, _, next, done⟩ := OrderedMap.clear_ends wellFormed
    exact ⟨ordered (map.cleared slots), by simp only [clear, done]; rfl, rfl, rfl, next⟩
  | hashed map =>
    obtain ⟨after, done, cleared⟩ := HashedMap.clear_ends wellFormed granted
    obtain ⟨_, policy, _, _, kin⟩ := cleared.frame wellFormed
    refine ⟨hashed after, by simp only [clear, done]; rfl, congrArg HashPolicy.base policy, ?_, ?_⟩
    · refine List.eq_nil_iff_forall_not_mem.mpr fun tag member => ?_
      obtain ⟨hash, member⟩ := exists_mem_kinOf.mpr member
      rw [← HashedMap.kin, kin] at member
      cases member
    · cases cleared with
      | already _ kept => exact kept
      | moved _ _ kept _ rebuilt =>
        simp only [Store.slots]
        rw [rebuilt.frame]
        exact kept

/-! ### Taking out -/

/-- Tags have been taken out, and those that are left keep their values. -/
structure Shrinks (store after : Store K V) : Prop where
  id : after.id = store.id
  policy : after.policy = store.policy
  next : after.slots.next = store.slots.next
  kept : ∀ tag ∈ after.tags, tag ∈ store.tags ∧ after.slots.get? tag.handle = store.slots.get? tag.handle

namespace Shrinks

theorem refl (store : Store K V) : store.Shrinks store :=
  ⟨rfl, rfl, rfl, fun _ member => ⟨member, rfl⟩⟩

theorem trans {middle : Store K V} (one : store.Shrinks middle) (two : middle.Shrinks after) :
    store.Shrinks after := by
  refine ⟨two.id.trans one.id, two.policy.trans one.policy, two.next.trans one.next, fun tag member => ?_⟩
  obtain ⟨within, same⟩ := two.kept tag member
  obtain ⟨before, earlier⟩ := one.kept tag within
  exact ⟨before, same.trans earlier⟩

end Shrinks

theorem remove_shrinks (wellFormed : store.WellFormed) (key : K) (granted : Bool) :
    ∃ value after, store.remove key granted = .ok (value, after) ∧
      store.Evolves after ∧ store.Shrinks after := by
  obtain ⟨value, after, done, evolves⟩ := remove_answers wellFormed key granted
  obtain ⟨_, _, also, removal⟩ := remove_ends wellFormed key granted
  obtain ⟨rfl, rfl⟩ := Prod.mk.inj (Except.ok.inj (also.symm.trans done))
  refine ⟨_, _, done, evolves, ?_⟩
  cases removal with
  | missed => exact .refl store
  | @removed tag value after met policy taken tags =>
    refine ⟨evolves.id, policy, Slots.next_take taken, fun other member => ⟨(tags other).mpr (.inr member), ?_⟩⟩
    obtain ⟨left, held⟩ := evolves.wellFormed.get?_of_tag member
    rw [Slots.get?_take taken] at held ⊢
    split
    · rename_i same
      rw [if_pos same] at held
      cases held
    · rfl

theorem clear_shrinks (wellFormed : store.WellFormed) (granted : Bool) :
    ∃ after, store.clear granted = .ok (store.size, after) ∧ store.Evolves after ∧ store.Shrinks after := by
  obtain ⟨after, done, evolves⟩ := clear_answers wellFormed granted
  obtain ⟨_, also, policy, empty, next⟩ := clear_leaves wellFormed granted
  obtain ⟨_, rfl⟩ := Prod.mk.inj (Except.ok.inj (also.symm.trans done))
  refine ⟨_, done, evolves, evolves.id, policy, next, fun tag member => ?_⟩
  rw [empty] at member
  cases member

/-- A traversal that removes what it returns takes out what it removes. -/
theorem consume_shrinks (wellFormed : store.WellFormed) {limit : Nat} {granted : Bool}
    {found : List ((K × V) × Option (Held V))}
    (consumed : store.consume limit cursor granted = .ok (found, moved, after)) :
    store.Shrinks after := by
  induction limit generalizing store cursor found with
  | zero =>
    cases consumed
    exact .refl _
  | succ limit ih =>
    simp only [Engine.consume] at consumed
    obtain ⟨⟨next, passing⟩, _, consumed⟩ := bind_eq_ok.mp consumed
    cases next with
    | none =>
      cases consumed
      exact .refl _
    | some entry =>
      obtain ⟨value, middle, removed, evolves, one⟩ := remove_shrinks wellFormed entry.1 granted
      simp only [removed] at consumed
      obtain ⟨_, same, consumed⟩ := bind_eq_ok.mp consumed
      cases same
      obtain ⟨⟨rest, ended, left⟩, further, consumed⟩ := bind_eq_ok.mp consumed
      cases consumed
      exact one.trans (ih evolves.wellFormed further)

end Store

end KeyedStore
