import Mathlib.Data.List.Induction
import Mathlib.Algebra.GroupWithZero.Nat
import KeyedStore.Proofs.HashedMap.Threading
/-!
What a threaded map owes its handles, said of the entries and of the ends of the buckets alone, and kept by
every run. Each chain is a finite list of handles, met forwards from the head and backwards from the tail; every
entry is in one chain, that of its hash; what comes after and what comes before are inverse to each other, serial
numbers ascend along every chain, and nothing names an entry that is gone. So the length of a chain is the number
of entries whose hash belongs to its bucket. Beside it goes the map of chains, which answers the same as long as
memory is granted, and whose chains are those of the handles.
-/
namespace KeyedStore

variable {K V : Type}

/-- The handles that are met from one on, going from every entry to the one that it names. -/
inductive Leads (knots : Slots (Knot K V)) (way : Knot K V → Option Handle) :
    Option Handle → List Handle → Prop where
  | stop : Leads knots way none []
  | go {handle : Handle} {knot : Knot K V} {rest : List Handle} (held : knots.get? handle = some knot)
      (further : Leads knots way (way knot) rest) : Leads knots way (some handle) (handle :: rest)

/-- There is one way to go. -/
theorem Leads.unique {knots : Slots (Knot K V)} {way : Knot K V → Option Handle} {start : Option Handle}
    {one two : List Handle} (first : Leads knots way start one) (second : Leads knots way start two) :
    one = two := by
  induction first generalizing two with
  | stop =>
    cases second
    rfl
  | go held further ih =>
    cases second with
    | go also onward =>
      obtain rfl := Option.some.inj (held.symm.trans also)
      rw [ih onward]

namespace ThreadedMap

variable {threaded : ThreadedMap K V} {map : HashedMap K V} {bucket : Nat} {chain : Chain K} {link : Link K}

/-- The chain of a bucket, forwards from its head and backwards from its tail. -/
structure HasChain (map : ThreadedMap K V) (bucket : Nat) (handles : List Handle) : Prop where
  ends : map.ends[bucket]? = some ⟨handles.head?, handles.getLast?⟩
  nodup : handles.Nodup
  forwards : Leads map.knots Knot.next handles.head? handles
  backwards : Leads map.knots Knot.prev handles.getLast? handles.reverse

/-- A bucket or an entry names this handle. -/
inductive Named (map : ThreadedMap K V) (handle : Handle) : Prop where
  | head {ends : ChainEnds} (member : ends ∈ map.ends) (names : ends.head = some handle) : Named map handle
  | tail {ends : ChainEnds} (member : ends ∈ map.ends) (names : ends.tail = some handle) : Named map handle
  | next {other : Handle} {knot : Knot K V} (held : map.knots.get? other = some knot)
      (names : knot.next = some handle) : Named map handle
  | prev {other : Handle} {knot : Knot K V} (held : map.knots.get? other = some knot)
      (names : knot.prev = some handle) : Named map handle

/-- The entries whose hash belongs to a bucket. -/
def countIn (map : ThreadedMap K V) (bucket : Nat) : Nat :=
  map.knots.count fun knot => map.bucketOf knot.hash == bucket

/-- The chains are threaded as they should be. -/
structure Orderly (map : ThreadedMap K V) : Prop where
  /-- There are as many buckets as the rung says. -/
  sized : map.bucketCount = map.rung.size
  /-- Each bucket has a chain, which is a finite list both ways. -/
  chained : ∀ bucket, bucket < map.bucketCount → ∃ handles, map.HasChain bucket handles
  /-- Every entry is in one chain, the one of its hash. -/
  housed : ∀ {handle : Handle} {knot : Knot K V}, map.knots.get? handle = some knot →
    ∀ {bucket : Nat} {handles : List Handle}, map.HasChain bucket handles →
      (handle ∈ handles ↔ bucket = map.bucketOf knot.hash)
  /-- What comes after and what comes before are inverse to each other. -/
  inverse : ∀ one two : Handle,
    (∃ knot, map.knots.get? one = some knot ∧ knot.next = some two) ↔
      ∃ knot, map.knots.get? two = some knot ∧ knot.prev = some one
  /-- Nothing comes before the head of a chain. -/
  headed : ∀ ends ∈ map.ends, ∀ handle, ends.head = some handle →
    ∃ knot, map.knots.get? handle = some knot ∧ knot.prev = none
  /-- Nothing comes after the tail of a chain. -/
  tailed : ∀ ends ∈ map.ends, ∀ handle, ends.tail = some handle →
    ∃ knot, map.knots.get? handle = some knot ∧ knot.next = none
  /-- A chain has both ends or neither. -/
  ended : ∀ ends ∈ map.ends, ends.head = none ↔ ends.tail = none
  /-- Serial numbers ascend along every chain. -/
  ascending : ∀ {one two : Handle} {knot after : Knot K V}, map.knots.get? one = some knot →
    knot.next = some two → map.knots.get? two = some after → knot.serial < after.serial
  /-- The next serial number is higher than all that were given out. -/
  below : ∀ {handle : Handle} {knot : Knot K V}, map.knots.get? handle = some knot →
    knot.serial < map.nextSerial
  /-- No released entry is named anywhere. -/
  live : ∀ handle, map.Named handle → map.knots.contains handle = true
  /-- The length of each chain is the number of entries whose hash belongs there. -/
  sizes : map.chainSizes = .ok ((List.range map.bucketCount).map map.countIn)
  /-- The lengths of all chains add up to the number of entries. -/
  total : ((List.range map.bucketCount).map map.countIn).sum = map.size

/-! ### The chains of a map that is laid out -/

theorem head?_handles (chain : Chain K) : (Chain.handles chain).head? = Chain.head chain := List.head?_map

theorem getLast?_handles (chain : Chain K) : (Chain.handles chain).getLast? = Chain.last chain :=
  List.getLast?_map

theorem leads_forwards {knots : Slots (Knot K V)} {prev : Option Handle} (strung : Strung knots prev chain none) :
    Leads knots Knot.next (Chain.head chain) (Chain.handles chain) := by
  induction chain generalizing prev with
  | nil => exact .stop
  | cons link rest ih =>
    obtain ⟨⟨value, held⟩, further⟩ := strung.first
    exact .go held (ih further)

theorem leads_backwards {knots : Slots (Knot K V)} {next : Option Handle} (strung : Strung knots none chain next) :
    Leads knots Knot.prev (Chain.last chain) (Chain.handles chain).reverse := by
  induction chain using List.reverseRecOn generalizing next with
  | nil => exact .stop
  | append_singleton init link ih =>
    obtain ⟨before, single⟩ := strung_append.mp strung
    obtain ⟨⟨value, held⟩, _⟩ := strung_cons.mp single
    rw [Option.or_none] at held
    rw [Chain.last_concat, Chain.handles_append, Chain.handles_cons, Chain.handles_nil, List.reverse_append]
    exact .go held (ih before)

namespace Lays

theorem hasChain (lays : threaded.Lays map) (wellFormed : map.WellFormed)
    (held : map.buckets[bucket]? = some chain) : threaded.HasChain bucket (Chain.handles chain) := by
  obtain ⟨strung, _, _⟩ := lays.laid bucket chain held
  refine ⟨?_, HashedMap.chain_nodup wellFormed.inUse.nodup held, ?_, ?_⟩
  · rw [head?_handles, getLast?_handles]
    exact lays.endsOf_eq held
  · rw [head?_handles]
    exact leads_forwards strung
  · rw [getLast?_handles]
    exact leads_backwards strung

/-- The chain of a bucket is that of its links. -/
theorem eq_of_hasChain {handles : List Handle} (lays : threaded.Lays map)
    (hasChain : threaded.HasChain bucket handles) :
    ∃ chain, map.buckets[bucket]? = some chain ∧ handles = Chain.handles chain := by
  have within : bucket < map.buckets.size :=
    Nat.lt_of_lt_of_eq (Array.getElem?_eq_some_iff.mp hasChain.ends).1 lays.bucketCount
  have held := Array.getElem?_eq_getElem within
  have ends := hasChain.ends.symm.trans (lays.endsOf_eq held)
  have forwards := hasChain.forwards
  rw [show handles.head? = _ from congrArg ChainEnds.head (Option.some.inj ends)] at forwards
  exact ⟨_, held, forwards.unique (leads_forwards (lays.laid bucket _ held).strung)⟩

/-- Every entry is that of a link, tied to the neighbours of the link. -/
theorem link_of_held {handle : Handle} {knot : Knot K V} (lays : threaded.Lays map) (wellFormed : map.WellFormed)
    (held : threaded.knots.get? handle = some knot) :
    ∃ (bucket : Nat) (front : Chain K) (link : Link K) (back : Chain K),
      map.buckets[bucket]? = some (front ++ link :: back) ∧ link.handle = handle ∧
      knot = ⟨Chain.last front, Chain.head back, link.hash, link.serial, link.key, knot.value⟩ := by
  have stored : map.slots.contains handle = true := by
    rw [Slots.contains, lays.carries.get? held]
    rfl
  obtain ⟨link, member, rfl⟩ := List.mem_map.mp ((wellFormed.inUse.live handle).mpr stored)
  obtain ⟨bucket, chain, there, inside⟩ := HashedMap.mem_links.mp member
  obtain ⟨front, back, rfl⟩ := List.append_of_mem inside
  obtain ⟨value, tied⟩ := (lays.laid bucket _ there).strung.tied
  obtain rfl := Option.some.inj (held.symm.trans tied)
  exact ⟨bucket, front, link, back, there, rfl, rfl⟩

/-- The ends of a bucket are those of its chain. -/
theorem chain_of_mem {ends : ChainEnds} (lays : threaded.Lays map) (member : ends ∈ threaded.ends) :
    ∃ (bucket : Nat) (chain : Chain K), map.buckets[bucket]? = some chain ∧ ends = endsFor chain := by
  have listed := Array.mem_def.mp member
  rw [lays.ends_eq] at listed
  obtain ⟨chain, within, rfl⟩ := List.mem_map.mp listed
  obtain ⟨bucket, held⟩ := Array.mem_iff_getElem?.mp (Array.mem_def.mpr within)
  exact ⟨bucket, chain, held, rfl⟩

/-! ### One entry and the next -/

/-- Two links that follow each other. -/
theorem next_of_held {one two : Handle} {knot : Knot K V} (lays : threaded.Lays map)
    (wellFormed : map.WellFormed) (held : threaded.knots.get? one = some knot) (names : knot.next = some two) :
    ∃ after, threaded.knots.get? two = some after ∧ after.prev = some one ∧ knot.serial < after.serial := by
  obtain ⟨bucket, front, link, back, there, rfl, same⟩ := lays.link_of_held wellFormed held
  rw [same] at names
  cases back with
  | nil => cases names
  | cons other back =>
    obtain rfl := Option.some.inj names
    have ordered := wellFormed.chained.numbered bucket _ there
    have split : front ++ link :: other :: back = (front ++ [link]) ++ other :: back := by simp
    obtain ⟨value, tied⟩ := (split ▸ (lays.laid bucket _ there).strung).tied
    refine ⟨_, tied, Chain.last_concat front link, ?_⟩
    rw [same]
    exact (List.pairwise_cons.mp (List.pairwise_append.mp ordered).2.1).1 other List.mem_cons_self

theorem prev_of_held {one two : Handle} {knot : Knot K V} (lays : threaded.Lays map)
    (wellFormed : map.WellFormed) (held : threaded.knots.get? two = some knot) (names : knot.prev = some one) :
    ∃ before, threaded.knots.get? one = some before ∧ before.next = some two := by
  obtain ⟨bucket, front, link, back, there, rfl, same⟩ := lays.link_of_held wellFormed held
  rw [same] at names
  rcases List.eq_nil_or_concat front with rfl | ⟨front, other, rfl⟩
  · cases names
  · rw [List.concat_eq_append] at there names
    rw [Chain.last_concat] at names
    obtain rfl := Option.some.inj names
    rw [List.append_assoc] at there
    obtain ⟨value, tied⟩ := (lays.laid bucket _ there).strung.tied
    exact ⟨_, tied, rfl⟩

/-! ### The ends of a chain -/

theorem head_of_mem {ends : ChainEnds} {handle : Handle} (lays : threaded.Lays map) (member : ends ∈ threaded.ends)
    (names : ends.head = some handle) : ∃ knot, threaded.knots.get? handle = some knot ∧ knot.prev = none := by
  obtain ⟨bucket, chain, there, rfl⟩ := lays.chain_of_mem member
  cases chain with
  | nil => cases names
  | cons link rest =>
    obtain rfl := Option.some.inj names
    obtain ⟨value, tied⟩ := (lays.laid bucket _ there).strung.first.1
    exact ⟨_, tied, rfl⟩

theorem tail_of_mem {ends : ChainEnds} {handle : Handle} (lays : threaded.Lays map) (member : ends ∈ threaded.ends)
    (names : ends.tail = some handle) : ∃ knot, threaded.knots.get? handle = some knot ∧ knot.next = none := by
  obtain ⟨bucket, chain, there, rfl⟩ := lays.chain_of_mem member
  rcases List.eq_nil_or_concat chain with rfl | ⟨init, link, rfl⟩
  · cases names
  · rw [List.concat_eq_append] at there names
    obtain rfl := Option.some.inj ((Chain.last_concat init link).symm.trans names)
    obtain ⟨value, tied⟩ := (lays.laid bucket _ there).strung.tied
    exact ⟨_, tied, rfl⟩

/-- What a bucket or an entry names is there. -/
theorem held_of_named {handle : Handle} (lays : threaded.Lays map) (wellFormed : map.WellFormed)
    (named : threaded.Named handle) : ∃ knot, threaded.knots.get? handle = some knot := by
  cases named with
  | head member names => exact (lays.head_of_mem member names).imp fun _ => And.left
  | tail member names => exact (lays.tail_of_mem member names).imp fun _ => And.left
  | next held names => exact (lays.next_of_held wellFormed held names).imp fun _ => And.left
  | prev held names => exact (lays.prev_of_held wellFormed held names).imp fun _ => And.left

/-! ### Lengths of chains -/

theorem count_eq (lays : threaded.Lays map) (wellFormed : map.WellFormed)
    (held : map.buckets[bucket]? = some chain) : threaded.countIn bucket = chain.length := by
  have inUse := lays.carries.inUse wellFormed.inUse
  obtain ⟨front, back, split, _, apart⟩ := wellFormed.chained.split_links held
  have here : ∀ link ∈ chain, (HashedMap.bucketIndex link.hash map.bucketCount == bucket) = true :=
    fun link member => beq_iff_eq.mpr (wellFormed.chained.housed bucket chain held link member)
  have early : front.countP (HashedMap.bucketIndex ·.hash map.bucketCount == bucket) = 0 :=
    List.countP_eq_zero.mpr fun link member there =>
      (apart link.hash (beq_iff_eq.mp there)).1 link member rfl
  have late : back.countP (HashedMap.bucketIndex ·.hash map.bucketCount == bucket) = 0 :=
    List.countP_eq_zero.mpr fun link member there =>
      (apart link.hash (beq_iff_eq.mp there)).2 link member rfl
  calc threaded.countIn bucket
      = map.links.countP (HashedMap.bucketIndex ·.hash map.bucketCount == bucket) := by
        rw [countIn, inUse.count_eq, List.countP_map]
        refine List.countP_congr fun link member => ?_
        obtain ⟨prev, next, value, tied⟩ := lays.held member
        rw [Function.comp_apply, tied, Option.any_some, lays.bucketOf_eq]
    _ = chain.countP (HashedMap.bucketIndex ·.hash map.bucketCount == bucket) := by
        rw [split, List.countP_append, List.countP_append, early, late, Nat.zero_add, Nat.add_zero]
    _ = chain.length := List.countP_eq_length.mpr here

/-- Walking a chain counts its links. -/
theorem tally_ends (lays : threaded.Lays map) (wellFormed : map.WellFormed) (member : chain ∈ map.buckets.toList) :
    wander threaded.tally threaded.size (Chain.head chain) 0 = .ok chain.length := by
  obtain ⟨bucket, held⟩ := Array.mem_iff_getElem?.mp (Array.mem_def.mpr member)
  obtain ⟨counted, walked, total, _⟩ := wander_ends threaded.tally
    (fun count rest => count + rest.length = chain.length ∧ ∃ prev, Strung threaded.knots prev rest none)
    (fun count link rest ⟨total, prev, strung⟩ => by
      obtain ⟨⟨value, tied⟩, further⟩ := strung.first
      rw [tally, Slots.fetch, tied]
      exact ⟨count + 1, rfl, (Nat.succ_add_eq_add_succ _ _).trans total, _, further⟩)
    (lays.length_le_of_mem wellFormed chain member)
    ⟨Nat.zero_add _, none, (lays.laid bucket chain held).strung⟩
  obtain rfl : counted = chain.length := total
  exact walked

theorem chainSizes_eq (lays : threaded.Lays map) (wellFormed : map.WellFormed) :
    threaded.chainSizes = .ok map.chainSizes := by
  rw [chainSizes, lays.ends_eq, HashedMap.chainSizes, List.mapM_map]
  have counted := fun chain (member : chain ∈ map.buckets.toList) => lays.tally_ends wellFormed member
  generalize map.buckets.toList = chains at counted
  induction chains with
  | nil => rfl
  | cons chain chains ih =>
    rw [List.forall_mem_cons] at counted
    rw [List.mapM_cons, ih counted.2]
    exact congrArg (· >>= _) counted.1

theorem chainSizes_count (lays : threaded.Lays map) (wellFormed : map.WellFormed) :
    map.chainSizes = (List.range threaded.bucketCount).map threaded.countIn := by
  apply List.ext_getElem?
  intro bucket
  rw [HashedMap.chainSizes, List.getElem?_map, List.getElem?_map, Array.getElem?_toList]
  cases held : map.buckets[bucket]? with
  | some chain =>
    have within := (Array.getElem?_eq_some_iff.mp held).1
    rw [List.getElem?_range (Nat.lt_of_lt_of_eq within lays.bucketCount.symm), Option.map_some, Option.map_some,
      lays.count_eq wellFormed held]
  | none =>
    rw [Array.getElem?_eq_none_iff] at held
    rw [List.getElem?_eq_none (by rw [List.length_range, lays.bucketCount]; exact held)]
    rfl

/-- What lays out a well-formed map is in order. -/
theorem orderly (lays : threaded.Lays map) (wellFormed : map.WellFormed) : threaded.Orderly where
  sized := by
    rw [lays.bucketCount, lays.rung_eq]
    exact wellFormed.chained.sized
  chained := by
    intro bucket within
    have held := Array.getElem?_eq_getElem (Nat.lt_of_lt_of_eq within lays.bucketCount)
    exact ⟨_, lays.hasChain wellFormed held⟩
  housed := by
    intro handle knot held bucket handles hasChain
    obtain ⟨chain, here, rfl⟩ := lays.eq_of_hasChain hasChain
    obtain ⟨place, front, link, back, there, rfl, same⟩ := lays.link_of_held wellFormed held
    have home := wellFormed.chained.housed place _ there link (List.mem_append_right _ List.mem_cons_self)
    have hash : knot.hash = link.hash := by rw [same]
    rw [hash, lays.bucketOf_eq, home]
    constructor
    · intro member
      by_contra different
      exact wellFormed.chained.chains_apart wellFormed.inUse.nodup there here different _ member (by simp)
    · rintro rfl
      obtain rfl := Option.some.inj (here.symm.trans there)
      simp
  inverse := by
    intro one two
    constructor
    · rintro ⟨knot, held, names⟩
      obtain ⟨after, also, back, _⟩ := lays.next_of_held wellFormed held names
      exact ⟨after, also, back⟩
    · rintro ⟨knot, held, names⟩
      exact lays.prev_of_held wellFormed held names
  headed ends member handle names := lays.head_of_mem member names
  tailed ends member handle names := lays.tail_of_mem member names
  ended := by
    intro ends member
    obtain ⟨bucket, chain, there, rfl⟩ := lays.chain_of_mem member
    simp only [endsFor, Chain.head, Chain.last, Option.map_eq_none_iff, List.head?_eq_none_iff,
      List.getLast?_eq_none_iff]
  ascending := by
    intro one two knot after held names also
    obtain ⟨other, there, _, less⟩ := lays.next_of_held wellFormed held names
    obtain rfl := Option.some.inj (also.symm.trans there)
    exact less
  below := by
    intro handle knot held
    obtain ⟨bucket, front, link, back, there, rfl, same⟩ := lays.link_of_held wellFormed held
    rw [same, lays.nextSerial_eq]
    exact wellFormed.chained.below link
      (HashedMap.mem_links.mpr ⟨bucket, _, there, List.mem_append_right _ List.mem_cons_self⟩)
  live handle named := Option.isSome_iff_exists.mpr (lays.held_of_named wellFormed named)
  sizes := by
    rw [lays.chainSizes_eq wellFormed, lays.chainSizes_count wellFormed]
  total := by
    rw [← lays.chainSizes_count wellFormed, lays.size_eq, wellFormed.size_eq, HashedMap.links,
      List.length_flatten]
    rfl

end Lays

/-- Whatever the comparison and the hash answer, whatever is asked and whatever memory is granted, a run from a
fresh map goes through and leaves the chains in order. The map of chains gives the same answers in the same run,
and what is left is that map: its numbers, its values behind the same handles, the lengths of its chains, and each
of its chains as one of entries. -/
theorem run_keeps_chains_threaded (id : Identity) (policy : HashPolicy K V) (noOverwrite : Bool)
    (demands : List (Demand K V)) : ∃ answers after,
      runAll serve { id, policy, noOverwrite } demands = .ok (answers, after) ∧ after.Orderly ∧
        ∃ map : HashedMap K V, runAll HashedMap.meet { id, policy, noOverwrite } demands = .ok (answers, map) ∧
          after = map.laidOver after.ends after.knots ∧
          (∀ handle, (after.knots.get? handle).map (·.value) = map.slots.get? handle) ∧
          after.chainSizes = .ok map.chainSizes ∧
          ∀ (bucket : Nat) (chain : Chain K), map.buckets[bucket]? = some chain →
            after.HasChain bucket (chain.map (·.handle)) := by
  obtain ⟨answers, after, map, ran, also, lays, wellFormed⟩ := (lays_fresh id policy noOverwrite).run_ends
    (HashedMap.wellFormed_fresh id policy noOverwrite) demands
  refine ⟨answers, after, ran, lays.orderly wellFormed, map, also, lays.frame, ?_⟩
  exact ⟨lays.carries.values, lays.chainSizes_eq wellFormed,
    fun bucket chain held => lays.hasChain wellFormed held⟩

/-- The middle one of three entries in one chain is removed: its neighbours name each other. -/
example : (runAll serve
      ({ id := ⟨0⟩, policy := Policy.natural.hashingBy fun _ => 7, noOverwrite := false } : ThreadedMap Nat Nat)
      [⟨.insert ⟨.owned, 1⟩ ⟨.owned, 10⟩, true⟩, ⟨.insert ⟨.owned, 2⟩ ⟨.owned, 20⟩, true⟩,
        ⟨.insert ⟨.owned, 3⟩ ⟨.owned, 30⟩, true⟩, ⟨.remove 2, true⟩]).toOption.map
      (fun ran => (ran.2.ends[7]?, (ran.2.knots.get? ⟨0⟩).map (·.next), (ran.2.knots.get? ⟨2⟩).map (·.prev))) =
    some (some ⟨some ⟨0⟩, some ⟨2⟩⟩, some (some ⟨2⟩), some (some ⟨0⟩)) := by
  decide +kernel

end ThreadedMap

end KeyedStore
