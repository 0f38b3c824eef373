import KeyedStore.Proofs.HashedMap.Refinement
import KeyedStore.Proofs.HashedMap.Strands
/-!
Where the chains of a hashed map lie in a threaded map. The entries carry the values that the other map
stores, and each chain lies in them from the head of its bucket to the tail. What a walk along a chain does
is said by what holds while the rest of the chain is ahead; and a search along the handles finds the link
that a search of the chain finds.
-/
namespace KeyedStore

variable {K V σ : Type}

/-- The entries carry these values. -/
structure Carries (knots : Slots (Knot K V)) (slots : Slots (Held V)) : Prop where
  values : ∀ handle, (knots.get? handle).map (·.value) = slots.get? handle
  next : knots.next = slots.next
  size : knots.size = slots.size

namespace Carries

variable {knots after : Slots (Knot K V)} {slots shorter : Slots (Held V)} {handle : Handle} {knot : Knot K V}

theorem empty : Carries (.empty : Slots (Knot K V)) (.empty : Slots (Held V)) :=
  ⟨fun handle => by rw [Slots.get?_empty, Slots.get?_empty]; rfl, rfl, rfl⟩

theorem respun {handles : List Handle} (carries : Carries knots slots) (respun : Respun knots after handles) :
    Carries after slots :=
  ⟨fun handle => (respun.values handle).trans (carries.values handle), respun.next.trans carries.next,
    respun.size.trans carries.size⟩

theorem get? (carries : Carries knots slots) (held : knots.get? handle = some knot) :
    slots.get? handle = some knot.value := by
  rw [← carries.values, held]
  rfl

theorem inUse {handles : List Handle} (carries : Carries knots slots) (inUse : slots.InUse handles) :
    knots.InUse handles := by
  refine ⟨inUse.nodup, fun handle => ?_, carries.size.trans inUse.size⟩
  rw [inUse.live, Slots.contains, Slots.contains, ← carries.values, Option.isSome_map]

theorem held {value : Held V} (carries : Carries knots slots) (found : slots.get? handle = some value) :
    ∃ knot, knots.get? handle = some knot ∧ knot.value = value :=
  Option.map_eq_some_iff.mp ((carries.values handle).trans found)

theorem insert (carries : Carries knots slots) (knot : Knot K V) :
    Carries (knots.insert knot) (slots.insert knot.value) := by
  refine ⟨?_, ?_, congrArg Nat.succ carries.size⟩
  · intro handle
    rw [Slots.get?_insert, Slots.get?_insert, carries.next]
    split
    · rfl
    · exact carries.values handle
  · rw [Slots.next_insert, Slots.next_insert, carries.next]

/-- The same handle can be released here and there. -/
theorem take (carries : Carries knots slots) (held : knots.get? handle = some knot) :
    ∃ fewer shorter, knots.take handle = .ok (knot, fewer) ∧ slots.take handle = .ok (knot.value, shorter) ∧
      Carries fewer shorter := by
  obtain ⟨fewer, one⟩ := Slots.take_of_get? held
  obtain ⟨shorter, two⟩ := Slots.take_of_get? (carries.get? held)
  refine ⟨fewer, shorter, one, two, ?_, ?_, ?_⟩
  · intro other
    rw [Slots.get?_take one, Slots.get?_take two]
    split
    · rfl
    · exact carries.values other
  · rw [Slots.next_take one, Slots.next_take two, carries.next]
  · have here := Slots.size_take one
    have there := Slots.size_take two
    have size := carries.size
    omega

/-- Another value can be put behind the same handle here and there. -/
theorem replace (carries : Carries knots slots) (held : knots.get? handle = some knot) (other : Knot K V) :
    ∃ after updated, knots.replace handle other = .ok after ∧ slots.replace handle other.value = .ok updated ∧
      Carries after updated := by
  obtain ⟨after, one⟩ := Slots.replace_of_get? held other
  obtain ⟨updated, two⟩ := Slots.replace_of_get? (carries.get? held) other.value
  refine ⟨after, updated, one, two, ?_, ?_, ?_⟩
  · intro place
    rw [Slots.get?_replace one, Slots.get?_replace two]
    split
    · rfl
    · exact carries.values place
  · rw [Slots.next_replace one, Slots.next_replace two, carries.next]
  · rw [Slots.size_replace one, Slots.size_replace two, carries.size]

end Carries

namespace HashedMap

variable {map : HashedMap K V} {bucket place : Nat} {chain other : Chain K}

/-- No entry is in the chains of two buckets. -/
theorem Chained.chains_apart (chained : map.Chained) (nodup : (Chain.handles map.links).Nodup)
    (here : map.buckets[bucket]? = some chain) (there : map.buckets[place]? = some other)
    (different : place ≠ bucket) : ∀ handle ∈ Chain.handles other, handle ∉ Chain.handles chain := by
  intro handle member within
  obtain ⟨link, inside, rfl⟩ := List.mem_map.mp member
  obtain ⟨copy, also, same⟩ := List.mem_map.mp within
  obtain rfl := List.inj_on_of_nodup_map nodup (mem_links.mpr ⟨bucket, chain, here, also⟩)
    (mem_links.mpr ⟨place, other, there, inside⟩) same
  exact different ((chained.housed place other there _ inside).symm.trans
    (chained.housed bucket chain here _ also))

end HashedMap

/-- The map of these chains, over such ends and entries. -/
def HashedMap.laidOver (map : HashedMap K V) (ends : Array ChainEnds) (knots : Slots (Knot K V)) :
    ThreadedMap K V where
  id := map.id
  policy := map.policy
  noOverwrite := map.noOverwrite
  rung := map.rung
  ends := ends
  knots := knots
  nextSerial := map.nextSerial
  transactions := map.transactions
  epoch := map.epoch

namespace ThreadedMap

/-! ### Walks -/

/-- A walk along a chain, by what holds while the rest of the chain is still ahead. -/
theorem wander_ends (act : σ → Handle → Except Fault (Option Handle × σ)) (along : σ → Chain K → Prop)
    (step : ∀ state link rest, along state (link :: rest) → ∃ after,
      act state link.handle = .ok (Chain.head rest, after) ∧ along after rest)
    {limit : Nat} {state : σ} {chain : Chain K} (enough : chain.length ≤ limit) (start : along state chain) :
    ∃ after, wander act limit (Chain.head chain) state = .ok after ∧ along after [] := by
  induction chain generalizing limit state with
  | nil => exact ⟨state, wander_none _ _ _, start⟩
  | cons link rest ih =>
    obtain ⟨limit, rfl⟩ := Nat.exists_eq_add_one.mpr (Nat.zero_lt_of_lt enough)
    obtain ⟨middle, acted, onward⟩ := step state link rest start
    obtain ⟨after, done, ended⟩ := ih (Nat.le_of_succ_le_succ enough) onward
    exact ⟨after, (wander_step acted limit).trans done, ended⟩

/-- The ends of a chain. -/
def endsFor (chain : Chain K) : ChainEnds := ⟨Chain.head chain, Chain.last chain⟩

/-- A walk along many chains, by what holds while the rest of one chain and all of the later ones are
still ahead. -/
theorem sweep_ends (act : σ → Handle → Except Fault (Option Handle × σ))
    (along : σ → Chain K → List (Chain K) → Prop)
    (step : ∀ state link rest later, along state (link :: rest) later → ∃ after,
      act state link.handle = .ok (Chain.head rest, after) ∧ along after rest later)
    (turn : ∀ state chain later, along state [] (chain :: later) → along state chain later)
    {limit : Nat} {chains : List (Chain K)} (enough : ∀ chain ∈ chains, chain.length ≤ limit)
    {state : σ} (start : along state [] chains) :
    ∃ after, sweep act limit (chains.map endsFor) state = .ok after ∧ along after [] [] := by
  induction chains generalizing state with
  | nil => exact ⟨state, rfl, start⟩
  | cons chain later ih =>
    rw [List.forall_mem_cons] at enough
    obtain ⟨middle, walked, ended⟩ :=
      wander_ends act (fun state rest => along state rest later)
        (fun state link rest ahead => step state link rest later ahead) enough.1 (turn state chain later start)
    obtain ⟨after, done, finished⟩ := ih enough.2 ended
    refine ⟨after, ?_, finished⟩
    rw [sweep, List.map_cons, List.foldlM_cons]
    exact (congrArg (· >>= _) walked).trans done

/-! ### Maps laid out -/

/-- The threaded map is the map of these chains, laid over its ends and entries. -/
structure Lays (threaded : ThreadedMap K V) (map : HashedMap K V) : Prop where
  frame : threaded = map.laidOver threaded.ends threaded.knots
  bucketCount : threaded.bucketCount = map.bucketCount
  laid : ∀ (bucket : Nat) (chain : Chain K), map.buckets[bucket]? = some chain → threaded.Laid bucket chain
  carries : Carries threaded.knots map.slots

variable {threaded : ThreadedMap K V} {map : HashedMap K V} {link : Link K}

namespace Lays

theorem policy_eq (lays : threaded.Lays map) : threaded.policy = map.policy := by rw [lays.frame]; rfl

theorem noOverwrite_eq (lays : threaded.Lays map) : threaded.noOverwrite = map.noOverwrite := by
  rw [lays.frame]; rfl

theorem rung_eq (lays : threaded.Lays map) : threaded.rung = map.rung := by rw [lays.frame]; rfl

theorem nextSerial_eq (lays : threaded.Lays map) : threaded.nextSerial = map.nextSerial := by
  rw [lays.frame]; rfl

theorem transactions_eq (lays : threaded.Lays map) : threaded.transactions = map.transactions := by
  rw [lays.frame]; rfl

theorem epoch_eq (lays : threaded.Lays map) : threaded.epoch = map.epoch := by rw [lays.frame]; rfl

theorem size_eq (lays : threaded.Lays map) : threaded.size = map.size := lays.carries.size

theorem bucketOf_eq (lays : threaded.Lays map) (hash : UInt64) :
    threaded.bucketOf hash = HashedMap.bucketIndex hash map.bucketCount := by
  rw [bucketOf, lays.bucketCount]

theorem endsOf_eq (lays : threaded.Lays map) {bucket : Nat} {chain : Chain K}
    (held : map.buckets[bucket]? = some chain) : threaded.ends[bucket]? = some (endsFor chain) := by
  obtain ⟨_, head, tail⟩ := lays.laid bucket chain held
  obtain ⟨ends, there, first⟩ := Option.map_eq_some_iff.mp head
  obtain ⟨same, also, last⟩ := Option.map_eq_some_iff.mp tail
  obtain rfl := Option.some.inj (there.symm.trans also)
  rw [there, endsFor, ← first, ← last]

theorem ends_eq (lays : threaded.Lays map) : threaded.ends.toList = map.buckets.toList.map endsFor := by
  apply List.ext_getElem?
  intro bucket
  rw [List.getElem?_map, Array.getElem?_toList, Array.getElem?_toList]
  cases held : map.buckets[bucket]? with
  | some chain => exact lays.endsOf_eq held
  | none =>
    rw [Array.getElem?_eq_none_iff] at held
    rw [Option.map_none, Array.getElem?_eq_none_iff]
    exact Nat.le_trans (Nat.le_of_eq lays.bucketCount) held

/-- The entry of a link. -/
theorem held (lays : threaded.Lays map) (member : link ∈ map.links) :
    ∃ prev next value, threaded.knots.get? link.handle =
      some ⟨prev, next, link.hash, link.serial, link.key, value⟩ := by
  obtain ⟨bucket, chain, there, inside⟩ := HashedMap.mem_links.mp member
  obtain ⟨front, back, rfl⟩ := List.append_of_mem inside
  obtain ⟨value, held⟩ := (lays.laid bucket _ there).strung.tied
  exact ⟨_, _, value, held⟩

/-- No chain is longer than there are entries. -/
theorem length_le_of_mem (lays : threaded.Lays map) (wellFormed : map.WellFormed) :
    ∀ chain ∈ map.buckets.toList, chain.length ≤ threaded.size := by
  intro chain member
  rw [lays.size_eq, wellFormed.size_eq]
  exact (List.sublist_flatten_of_mem member).length_le

end Lays

/-! ### Searches -/

theorem Lays.find_eq (lays : threaded.Lays map) (wellFormed : map.WellFormed) (key : K) :
    threaded.find key = .ok ((map.meant key).map (·.handle)) := by
  obtain ⟨chain, held, found⟩ := wellFormed.chained.chainOf_eq (map.policy.hash key)
  have meant : chain.find? (HashedMap.answers map.policy key (map.policy.hash key)) = map.meant key := by
    have search := wellFormed.chained.find_eq key
    simp only [HashedMap.find, found] at search
    exact Except.ok.inj search
  have walked : wander (threaded.inspect key (map.policy.hash key)) threaded.size (Chain.head chain) none =
      .ok ((chain.find? (HashedMap.answers map.policy key (map.policy.hash key))).map (·.handle)) := by
    apply (lays.laid _ _ held).strung.search_eq
      (lays.length_le_of_mem wellFormed chain (Array.mem_def.mp (Array.mem_of_getElem? held)))
    rintro link prev next ⟨value, tied⟩
    rw [inspect, Slots.fetch_of_get? tied, lays.policy_eq]
    by_cases answer : HashedMap.answers map.policy key (map.policy.hash key) link = true
    · rw [if_pos answer]
      exact if_pos answer
    · rw [if_neg answer]
      exact if_neg answer
  have place := (lays.laid _ _ held).placeOf_eq (lays.bucketOf_eq (map.policy.hash key))
  simp only [find, lays.policy_eq, place, endsOf, lays.endsOf_eq held, bind, Except.bind]
  rw [← meant]
  exact walked

theorem Lays.lookupEntry_ends (lays : threaded.Lays map) (wellFormed : map.WellFormed) (key : K) :
    ∃ found, threaded.lookupEntry key = .ok found ∧ map.lookupEntry key = .ok found := by
  have here := lays.find_eq wellFormed key
  have there := wellFormed.chained.find_eq key
  cases met : map.meant key with
  | none =>
    rw [met] at here there
    refine ⟨none, ?_, ?_⟩
    · simp only [lookupEntry, here, Option.map_none, bind, Except.bind, pure, Except.pure]
    · simp only [HashedMap.lookupEntry, there, bind, Except.bind, pure, Except.pure]
  | some link =>
    rw [met] at here there
    obtain ⟨prev, next, value, held⟩ := lays.held (List.mem_of_find?_eq_some met)
    refine ⟨some (link.key.val, value.val), ?_, ?_⟩
    · simp only [lookupEntry, here, Option.map_some, Slots.fetch, held, bind, Except.bind, pure, Except.pure]
    · simp only [HashedMap.lookupEntry, HashedMap.entry, there, Slots.fetch, lays.carries.get? held, bind,
        Except.bind, pure, Except.pure]

end ThreadedMap

end KeyedStore
