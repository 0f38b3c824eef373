import KeyedStore.Proofs.Slots
import KeyedStore.Proofs.HashedMap.Chains
/-!
What the operations of a hashed map can do, stated once, whatever the policy. A rebuilding attaches every
link again in the order of the old chains, so the links of each hash keep their order; an addition may
rebuild before it attaches its link, and a removal after it has detached one.
-/
namespace KeyedStore.HashedMap

variable {K V : Type}

/-- The chains are in order, and their links name exactly the values that are stored, each once. -/
structure WellFormed (map : HashedMap K V) : Prop where
  chained : map.Chained
  inUse : map.slots.InUse (map.links.map (·.handle))

/-- Every link has been attached again to the buckets of a rung. -/
structure Rebuilt (map : HashedMap K V) (rung : Rung) (after : HashedMap K V) : Prop where
  done : map.rebuild rung = .ok after
  wellFormed : after.WellFormed
  frame : after = { map with
    rung := rung
    buckets := after.buckets
    nextSerial := after.nextSerial
    transactions := map.transactions + 1
    epoch := map.epoch + 1 }
  kin : ∀ hash, after.kin hash = map.kin hash

/-- The two ways in which settling ends. With memory granted the table stays only where it fits. -/
inductive Settled (map : HashedMap K V) (granted : Bool) : HashedMap K V → Prop where
  | still (fits : granted = true → map.rung.towards? map.size = none) : Settled map granted map
  | moved {rung : Rung} {after : HashedMap K V} (had : granted = true)
      (towards : map.rung.towards? map.size = some rung) (rebuilt : map.Rebuilt rung after) :
      Settled map granted after

/-- The link that an addition attaches. -/
def fresh (map : HashedMap K V) (key : Held K) : Link K where
  handle := map.slots.next
  key := map.policy.base.secureKey key
  hash := map.policy.hash key.val
  serial := map.nextSerial

/-- The four ways in which an addition ends, each with what it leaves behind. -/
inductive Insertion (map : HashedMap K V) (granted : Bool) (key : Held K) (value : Held V) :
    Except AddError Addition → HashedMap K V → Prop where
  | refused {link : Link K} (met : map.meant key.val = some link) (kept : map.noOverwrite = true) :
      Insertion map granted key value (.error .keyExists) map
  | updated {link : Link K} {slots : Slots (Held V)} (met : map.meant key.val = some link)
      (free : map.noOverwrite = false)
      (done : map.slots.replace link.handle (map.policy.base.secureValue value) = .ok slots) :
      Insertion map granted key value (.ok .updated) { map with slots := slots }
  | full (missed : map.meant key.val = none) (full : map.slots.isFull = true) :
      Insertion map granted key value (.error .noRoom) map
  | inserted {settled longer : HashedMap K V} (missed : map.meant key.val = none)
      (room : map.slots.isFull = false) (settling : map.Settled granted settled)
      (extended : settled.Extended [settled.fresh key] longer) :
      Insertion map granted key value (.ok .inserted) { longer with
        slots := settled.slots.insert (settled.policy.base.secureValue value)
        transactions := settled.transactions + 1 }

/-- The three ways in which a removal ends. -/
inductive Removal (map : HashedMap K V) (granted : Bool) (key : K) : Option (Held V) → HashedMap K V → Prop where
  | missed (missed : map.meant key = none) : Removal map granted key none map
  | removed {link : Link K} {value : Held V} {slots : Slots (Held V)} {shorter : HashedMap K V}
      (met : map.meant key = some link) (taken : map.slots.take link.handle = .ok (value, slots))
      (detached : map.Detached link shorter)
      (enough : ¬ slots.size < map.rung.shrinkBelow) :
      Removal map granted key (some value)
        { shorter with slots := slots, transactions := map.transactions + 1 }
  | shrunk {link : Link K} {value : Held V} {slots : Slots (Held V)} {shorter after : HashedMap K V}
      (met : map.meant key = some link) (taken : map.slots.take link.handle = .ok (value, slots))
      (detached : map.Detached link shorter)
      (sparse : slots.size < map.rung.shrinkBelow)
      (settling : Settled { shorter with slots := slots, transactions := map.transactions + 1 } granted after) :
      Removal map granted key (some value) after

variable {map after : HashedMap K V} {granted : Bool}

theorem links_of_bare (bare : map.buckets = Array.replicate map.rung.size []) : map.links = [] := by
  simp [links, bare]

theorem chained_of_bare (bare : map.buckets = Array.replicate map.rung.size []) : map.Chained := by
  have nothing : ∀ (bucket : Nat) (chain : Chain K), map.buckets[bucket]? = some chain → chain = [] := by
    intro bucket chain held
    rw [bare, Array.getElem?_replicate] at held
    split at held
    · exact (Option.some.inj held).symm
    · cases held
  refine ⟨by rw [bare, Array.size_replicate], ?_, ?_, ?_⟩
  · intro bucket chain held link member
    rw [nothing bucket chain held] at member
    cases member
  · intro bucket chain held
    rw [nothing bucket chain held]
    exact .nil
  · intro link member
    rw [links_of_bare bare] at member
    cases member

namespace WellFormed

theorem size_eq (wellFormed : map.WellFormed) : map.size = map.links.length := by
  rw [size, wellFormed.inUse.size, List.length_map]

/-- On one rung there are always equally many buckets. -/
theorem bucketCount_of_rung (wellFormed : map.WellFormed) (kept : after.WellFormed) (same : after.rung = map.rung) :
    after.bucketCount = map.bucketCount := by
  rw [bucketCount, bucketCount, kept.chained.sized, wellFormed.chained.sized, same]

/-- The link a search finds names a stored value. -/
theorem get?_of_met (wellFormed : map.WellFormed) {key : K} {link : Link K}
    (met : map.meant key = some link) : ∃ value, map.slots.get? link.handle = some value :=
  wellFormed.inUse.get? (List.mem_map_of_mem (List.mem_of_find?_eq_some met))

/-- Another value behind a handle changes nothing else. -/
theorem replace {handle : Handle} {value : Held V} {slots : Slots (Held V)} (wellFormed : map.WellFormed)
    (done : map.slots.replace handle value = .ok slots) : WellFormed { map with slots := slots } :=
  ⟨wellFormed.chained.congr rfl rfl rfl, wellFormed.inUse.replace done⟩

end WellFormed

/-! ### Every operation ends in one of its ways -/

theorem rebuild_ends (wellFormed : map.WellFormed) (rung : Rung) :
    ∃ after, map.rebuild rung = .ok after ∧ map.Rebuilt rung after := by
  have bare : links { map with rung := rung, buckets := Array.replicate rung.size [] } = [] :=
    links_of_bare rfl
  have chained : Chained { map with rung := rung, buckets := Array.replicate rung.size [] } :=
    chained_of_bare rfl
  obtain ⟨filled, done, extended⟩ := attachAll_ends chained map.links
  have handles := extended.handles
  rw [bare, List.map_nil, List.nil_append] at handles
  have kin : ∀ hash, filled.kin hash = map.kin hash := by
    intro hash
    rw [extended.kin, HashedMap.kin, bare, kinOf_nil, List.nil_append, HashedMap.kin]
  have slots : filled.slots = map.slots := by rw [extended.frame]
  have rebuilt : map.rebuild rung =
      .ok { filled with epoch := map.epoch + 1, transactions := map.transactions + 1 } := by
    simp only [rebuild, done]
    rfl
  refine ⟨_, rebuilt, rebuilt, ⟨?_, ?_⟩, ?_, kin⟩
  · exact extended.chained.congr rfl rfl rfl
  · exact slots.symm ▸ wellFormed.inUse.perm handles.symm
  · rw [extended.frame]

/-- The chains that a rebuilding leaves: the links in the order of the old chains, numbered anew, each in the
bucket of its hash. -/
theorem chains_of_rebuild {rung : Rung} (done : map.rebuild rung = .ok after) :
    after.nextSerial = map.nextSerial + map.links.length ∧
      ∀ bucket < rung.size, after.buckets[bucket]? =
        some ((numbered map.nextSerial map.links).filter (bucketIndex ·.hash rung.size = bucket)) := by
  have chained : Chained { map with rung := rung, buckets := Array.replicate rung.size [] } :=
    chained_of_bare rfl
  obtain ⟨filled, attached, extended⟩ := attachAll_ends chained map.links
  simp only [rebuild, attached, bind, Except.bind, pure, Except.pure] at done
  obtain rfl := Except.ok.inj done
  refine ⟨extended.nextSerial, ?_⟩
  intro bucket within
  have bare : (Array.replicate rung.size ([] : Chain K))[bucket]? = some [] := by
    rw [Array.getElem?_replicate, if_pos within]
  have chain := extended.chains bucket [] bare
  rwa [List.nil_append, show bucketCount { map with rung := rung, buckets := Array.replicate rung.size [] } =
    rung.size from Array.size_replicate] at chain

theorem settle_ends (wellFormed : map.WellFormed) (granted : Bool) :
    ∃ after, map.settle granted = .ok after ∧ map.Settled granted after := by
  cases towards : map.rung.towards? map.size with
  | none => exact ⟨map, by simp only [settle, towards], .still fun _ => towards⟩
  | some rung =>
    cases granted with
    | false => exact ⟨map, by simp only [settle, towards, Bool.false_eq_true, if_false], .still nofun⟩
    | true =>
      obtain ⟨after, done, rebuilt⟩ := rebuild_ends wellFormed rung
      exact ⟨after, by simp only [settle, towards, done, if_true], .moved rfl towards rebuilt⟩

theorem Settled.wellFormed (settled : map.Settled granted after) (wellFormed : map.WellFormed) :
    after.WellFormed := by
  cases settled with
  | still => exact wellFormed
  | moved _ _ rebuilt => exact rebuilt.wellFormed

/-- Settling is seen in nothing but the buckets and the numbers that count for them. -/
theorem Settled.frame (settled : map.Settled granted after) : after.id = map.id ∧ after.policy = map.policy ∧
    after.noOverwrite = map.noOverwrite ∧ after.slots = map.slots ∧
    ∀ hash, after.kin hash = map.kin hash := by
  cases settled with
  | still => exact ⟨rfl, rfl, rfl, rfl, fun hash => rfl⟩
  | moved _ _ rebuilt =>
    refine ⟨?_, ?_, ?_, ?_, rebuilt.kin⟩ <;> rw [rebuilt.frame]

theorem insert_ends (wellFormed : map.WellFormed) (granted : Bool) (key : Held K) (value : Held V) :
    ∃ outcome after, map.insert key value granted = .ok (outcome, after) ∧
      Insertion map granted key value outcome after := by
  have found := wellFormed.chained.find_eq key.val
  cases met : map.meant key.val with
  | some link =>
    rw [met] at found
    cases kept : map.noOverwrite with
    | true =>
      refine ⟨_, _, ?_, .refused met kept⟩
      simp [insert, found, kept, bind, Except.bind, pure, Except.pure]
    | false =>
      obtain ⟨old, held⟩ := wellFormed.get?_of_met met
      obtain ⟨slots, done⟩ := Slots.replace_of_get? held (map.policy.base.secureValue value)
      refine ⟨_, _, ?_, .updated met kept done⟩
      simp [insert, found, kept, done, bind, Except.bind, pure, Except.pure]
  | none =>
    rw [met] at found
    cases room : map.slots.isFull with
    | true =>
      refine ⟨_, _, ?_, .full met room⟩
      simp [insert, found, room, bind, Except.bind, pure, Except.pure]
    | false =>
      obtain ⟨settled, settledDone, settling⟩ := settle_ends wellFormed granted
      obtain ⟨longer, attached, extended⟩ :=
        attach_ends (settling.wellFormed wellFormed).chained (settled.fresh key)
      refine ⟨_, _, ?_, .inserted met room settling extended⟩
      unfold fresh at attached
      simp [insert, found, room, settledDone, attached, bind, Except.bind, pure, Except.pure]

theorem wellFormed_longer (wellFormed : map.WellFormed) {key : Held K} (value : Held V) (transactions : Nat)
    {longer : HashedMap K V} (extended : map.Extended [map.fresh key] longer) :
    WellFormed { longer with slots := map.slots.insert value, transactions := transactions } := by
  refine ⟨extended.chained.congr rfl rfl rfl, wellFormed.inUse.insert.perm ?_⟩
  exact (List.perm_append_singleton _ _).symm.trans extended.handles.symm

theorem wellFormed_shorter (wellFormed : map.WellFormed) {link : Link K} {value : Held V}
    {slots : Slots (Held V)} {shorter : HashedMap K V} (transactions : Nat) (member : link ∈ map.links)
    (taken : map.slots.take link.handle = .ok (value, slots)) (detached : map.Detached link shorter) :
    WellFormed { shorter with slots := slots, transactions := transactions } := by
  obtain ⟨front, back, listed⟩ := List.append_of_mem member
  have left := detached.links front back listed
  refine ⟨detached.chained.congr rfl rfl rfl, (wellFormed.inUse.perm ?_).take taken⟩
  rw [show links { shorter with slots := slots, transactions := transactions } = front ++ back from left,
    listed]
  exact List.perm_middle.map Link.handle

theorem remove_ends (wellFormed : map.WellFormed) (granted : Bool) (key : K) :
    ∃ value after, map.remove key granted = .ok (value, after) ∧ Removal map granted key value after := by
  have found := wellFormed.chained.find_eq key
  cases met : map.meant key with
  | none =>
    rw [met] at found
    refine ⟨_, _, ?_, .missed met⟩
    simp [remove, found, bind, Except.bind, pure, Except.pure]
  | some link =>
    rw [met] at found
    have member := List.mem_of_find?_eq_some met
    obtain ⟨value, held⟩ := wellFormed.get?_of_met met
    obtain ⟨slots, taken⟩ := Slots.take_of_get? held
    obtain ⟨shorter, detachedDone, detached⟩ :=
      detach_ends wellFormed.chained wellFormed.inUse.nodup member
    have rung : shorter.rung = map.rung := by rw [detached.frame]
    by_cases sparse : slots.size < map.rung.shrinkBelow
    · obtain ⟨after, settledDone, settling⟩ :=
        settle_ends (wellFormed_shorter wellFormed (map.transactions + 1) member taken detached) granted
      refine ⟨_, _, ?_, .shrunk met taken detached sparse settling⟩
      rw [← rung] at sparse
      simp [remove, found, detachedDone, taken, size, sparse, settledDone, bind, Except.bind, pure,
        Except.pure]
    · refine ⟨_, _, ?_, .removed met taken detached sparse⟩
      rw [← rung] at sparse
      simp [remove, found, detachedDone, taken, size, sparse, bind, Except.bind, pure, Except.pure]

/-! ### Every operation keeps the map well-formed -/

theorem Insertion.wellFormed {key : Held K} {value : Held V} {outcome : Except AddError Addition}
    (insertion : Insertion map granted key value outcome after) (wellFormed : map.WellFormed) :
    after.WellFormed := by
  cases insertion with
  | refused => exact wellFormed
  | full => exact wellFormed
  | updated met free done => exact wellFormed.replace done
  | inserted missed room settling extended =>
    exact wellFormed_longer (settling.wellFormed wellFormed) _ _ extended

theorem Removal.wellFormed {key : K} {value : Option (Held V)} (removal : Removal map granted key value after)
    (wellFormed : map.WellFormed) : after.WellFormed := by
  cases removal with
  | missed => exact wellFormed
  | removed met taken detached enough =>
    exact wellFormed_shorter wellFormed _ (List.mem_of_find?_eq_some met) taken detached
  | shrunk met taken detached sparse settling =>
    exact settling.wellFormed
      (wellFormed_shorter wellFormed _ (List.mem_of_find?_eq_some met) taken detached)

/-! ### Clearing -/

/-- What a release of every entry leaves. Releasing nothing is no transaction. -/
def released (map : HashedMap K V) (slots : Slots (Held V)) : HashedMap K V :=
  { map with
    buckets := Array.replicate map.bucketCount []
    slots := slots
    transactions := if map.size = 0 then map.transactions else map.transactions + 1 }

theorem releaseAll_ends (wellFormed : map.WellFormed) :
    ∃ slots, slots.InUse [] ∧ slots.next = map.slots.next ∧
      map.releaseAll = .ok (map.size, map.released slots) := by
  obtain ⟨slots, done, empty⟩ := Slots.release_inUse _ _ wellFormed.inUse
  refine ⟨slots, empty, Slots.next_release _ _ done, ?_⟩
  simp only [releaseAll, done, released, wellFormed.size_eq]
  rfl

theorem bare_released (wellFormed : map.WellFormed) (slots : Slots (Held V)) :
    (map.released slots).buckets = Array.replicate map.rung.size [] :=
  congrArg (Array.replicate · []) wellFormed.chained.sized

theorem wellFormed_released (wellFormed : map.WellFormed) {slots : Slots (Held V)} (empty : slots.InUse []) :
    (map.released slots).WellFormed := by
  have bare := bare_released wellFormed slots
  refine ⟨chained_of_bare bare, ?_⟩
  rw [links_of_bare bare]
  exact empty

/-- What a clearing leaves: no entry, and with memory granted the lowest rung. No handle is given back. -/
inductive Cleared (map : HashedMap K V) (granted : Bool) : HashedMap K V → Prop where
  | already {slots : Slots (Held V)} (empty : slots.InUse []) (kept : slots.next = map.slots.next)
      (lowest : granted = true → map.rung = Rung.lowest) : Cleared map granted (map.released slots)
  | moved {slots : Slots (Held V)} {after : HashedMap K V} (had : granted = true) (empty : slots.InUse [])
      (kept : slots.next = map.slots.next) (higher : map.rung ≠ Rung.lowest)
      (rebuilt : (map.released slots).Rebuilt Rung.lowest after) : Cleared map granted after

theorem clear_ends (wellFormed : map.WellFormed) (granted : Bool) :
    ∃ after, map.clear granted = .ok (map.size, after) ∧ map.Cleared granted after := by
  obtain ⟨slots, empty, kept, done⟩ := releaseAll_ends wellFormed
  by_cases lowest : map.rung = Rung.lowest
  · refine ⟨map.released slots, ?_, .already empty kept fun _ => lowest⟩
    have stays : (map.released slots).rung = Rung.lowest := lowest
    simp [clear, done, stays, bind, Except.bind, pure, Except.pure]
  · have stays : (map.released slots).rung ≠ Rung.lowest := lowest
    cases granted with
    | false =>
      refine ⟨map.released slots, ?_, .already empty kept nofun⟩
      simp [clear, done, stays, bind, Except.bind, pure, Except.pure]
    | true =>
      obtain ⟨after, moved, rebuilt⟩ := rebuild_ends (wellFormed_released wellFormed empty) Rung.lowest
      refine ⟨after, ?_, .moved rfl empty kept lowest rebuilt⟩
      simp [clear, done, stays, moved, bind, Except.bind, pure, Except.pure]

theorem Cleared.wellFormed (cleared : map.Cleared granted after) (wellFormed : map.WellFormed) :
    after.WellFormed := by
  cases cleared with
  | already empty => exact wellFormed_released wellFormed empty
  | moved _ _ _ _ rebuilt => exact rebuilt.wellFormed

/-- A clearing leaves no entry and keeps what makes the map this map. -/
theorem Cleared.frame (cleared : map.Cleared granted after) (wellFormed : map.WellFormed) :
    after.id = map.id ∧ after.policy = map.policy ∧ after.noOverwrite = map.noOverwrite ∧
      after.size = 0 ∧ ∀ hash, after.kin hash = [] := by
  have bare : ∀ slots, links (map.released slots) = [] :=
    fun slots => links_of_bare (bare_released wellFormed slots)
  cases cleared with
  | already empty =>
    refine ⟨rfl, rfl, rfl, empty.size, ?_⟩
    intro hash
    rw [kin, bare, kinOf_nil]
  | @moved slots after _ empty _ _ rebuilt =>
    have slots_eq : after.slots = slots := by rw [rebuilt.frame]; rfl
    refine ⟨?_, ?_, ?_, ?_, ?_⟩
    · rw [rebuilt.frame]; rfl
    · rw [rebuilt.frame]; rfl
    · rw [rebuilt.frame]; rfl
    · rw [size, slots_eq]; exact empty.size
    · intro hash
      rw [rebuilt.kin, kin, bare, kinOf_nil]

theorem wellFormed_fresh (id : Identity) (policy : HashPolicy K V) (noOverwrite : Bool) :
    ({ id, policy, noOverwrite } : HashedMap K V).WellFormed := by
  refine ⟨chained_of_bare rfl, ?_⟩
  rw [links_of_bare rfl]
  exact .empty

/-! ### Runs of changes -/

/-- The map after a change, whatever the change answers. -/
def apply (map : HashedMap K V) (change : Change K V) (granted : Bool := true) : Except Fault (HashedMap K V) :=
  match change with
  | .insert key value => do return (← map.insert key value granted).2
  | .remove key => do return (← map.remove key granted).2
  | .clear => do return (← map.clear granted).2

/-- The map that a change leaves, by the way in which the change ended. -/
inductive Changed (map : HashedMap K V) (granted : Bool) : Change K V → HashedMap K V → Prop where
  | insert {key : Held K} {value : Held V} {outcome : Except AddError Addition} {after : HashedMap K V}
      (insertion : Insertion map granted key value outcome after) : Changed map granted (.insert key value) after
  | remove {key : K} {value : Option (Held V)} {after : HashedMap K V}
      (removal : Removal map granted key value after) : Changed map granted (.remove key) after
  | clear {after : HashedMap K V} (cleared : map.Cleared granted after) : Changed map granted .clear after

theorem apply_ends (wellFormed : map.WellFormed) (granted : Bool) (change : Change K V) :
    ∃ after, map.apply change granted = .ok after ∧ Changed map granted change after := by
  cases change with
  | insert key value =>
    obtain ⟨outcome, after, done, insertion⟩ := insert_ends wellFormed granted key value
    exact ⟨after, by simp [apply, done, bind, Except.bind, pure, Except.pure], .insert insertion⟩
  | remove key =>
    obtain ⟨value, after, done, removal⟩ := remove_ends wellFormed granted key
    exact ⟨after, by simp [apply, done, bind, Except.bind, pure, Except.pure], .remove removal⟩
  | clear =>
    obtain ⟨after, done, cleared⟩ := clear_ends wellFormed granted
    exact ⟨after, by simp [apply, done, bind, Except.bind, pure, Except.pure], .clear cleared⟩

theorem Changed.wellFormed {change : Change K V} (changed : Changed map granted change after)
    (wellFormed : map.WellFormed) : after.WellFormed := by
  cases changed with
  | insert insertion => exact insertion.wellFormed wellFormed
  | remove removal => exact removal.wellFormed wellFormed
  | clear cleared => exact cleared.wellFormed wellFormed

end KeyedStore.HashedMap
