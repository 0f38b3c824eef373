import KeyedStore.Proofs.HashedMap.Refinement
/-!
The order of the entries in a chain. Handles are issued in ascending order and never twice, so the handles of a
chain in insertion order ascend. A chain is in insertion order as long as the buckets stay as they are; but a
rebuilding attaches the links bucket by bucket, and links of two old buckets that meet in a new one stand there
in the order of the old buckets, whatever their age. Which of two links stands first is decided by the latest
rebuilding that found them in different buckets, and by their age if there was none.
-/
namespace KeyedStore.HashedMap

variable {K V : Type}

/-- A rebuilding: how many buckets there were before it, and the handle that was to be issued next. -/
structure Rebuilding where
  count : Nat
  next : Handle

/-- The link was attached anew by the rebuilding. -/
def Rebuilding.Moves (rebuilding : Rebuilding) (link : Link K) : Prop :=
  link.handle.index < rebuilding.next.index

/-- The first link has been made before the second. -/
def Elder (one two : Link K) : Prop := one.handle.index < two.handle.index

/-- The first of two links of one chain stands before the second, by the rebuildings there have been, the
latest first. -/
def Precedes : List Rebuilding → Link K → Link K → Prop
  | [], one, two => Elder one two
  | rebuilding :: earlier, one, two =>
    (¬ (rebuilding.Moves one ∧ rebuilding.Moves two) ∧ Elder one two) ∨
      (rebuilding.Moves one ∧ rebuilding.Moves two) ∧
        (bucketIndex one.hash rebuilding.count < bucketIndex two.hash rebuilding.count ∨
          bucketIndex one.hash rebuilding.count = bucketIndex two.hash rebuilding.count ∧ Precedes earlier one two)

/-- The rebuilding between two moments, if the epoch tells of one. -/
def turn (map after : HashedMap K V) : List Rebuilding :=
  if after.epoch = map.epoch then [] else [⟨map.bucketCount, map.slots.next⟩]

/-- The rebuildings in the course of some requests, the latest first. -/
def rebuildings (map : HashedMap K V) : List (Request K V) → List Rebuilding
  | [] => []
  | request :: requests =>
    match map.serve request with
    | .error _ => []
    | .ok (_, after) => after.rebuildings requests ++ map.turn after

/-- Every chain lists its links in the order in which they were made. -/
def InsertionOrdered (map : HashedMap K V) : Prop :=
  ∀ (bucket : Nat) (chain : Chain K), map.buckets[bucket]? = some chain → chain.Pairwise Elder

/-- The chains are in the order that the rebuildings up to now have given them. -/
structure Arranged (past : List Rebuilding) (map : HashedMap K V) : Prop where
  bounded : ∀ rebuilding ∈ past, rebuilding.next.index ≤ map.slots.next.index
  chains : ∀ (bucket : Nat) (chain : Chain K), map.buckets[bucket]? = some chain → chain.Pairwise (Precedes past)

variable {map after : HashedMap K V} {past : List Rebuilding} {one two : Link K} {granted : Bool}

/-! ### What decides the order -/

/-- Serial numbers decide nothing. -/
theorem precedes_renumbered (past : List Rebuilding) (one two : Link K) (first second : Nat) :
    Precedes past { one with serial := first } { two with serial := second } ↔ Precedes past one two := by
  induction past with
  | nil => exact Iff.rfl
  | cons rebuilding earlier ih =>
    simp only [Precedes, ih]
    exact Iff.rfl

theorem Precedes.asymm (precedes : Precedes past one two) : ¬ Precedes past two one := by
  induction past with
  | nil => exact Nat.lt_asymm precedes
  | cons rebuilding earlier ih =>
    rintro (⟨apart, younger⟩ | ⟨⟨right, left⟩, beyond⟩)
    · rcases precedes with ⟨_, elder⟩ | ⟨⟨left, right⟩, _⟩
      · exact Nat.lt_asymm elder younger
      · exact apart ⟨right, left⟩
    · rcases precedes with ⟨apart, _⟩ | ⟨_, before⟩
      · exact apart ⟨left, right⟩
      · rcases before with lower | ⟨same, before⟩ <;> rcases beyond with higher | ⟨_, beyond⟩
        · exact Nat.lt_asymm lower higher
        · omega
        · omega
        · exact ih before beyond

/-- Links with the same hash never meet in different buckets, so only their age counts. -/
theorem Precedes.elder_of_hash (precedes : Precedes past one two) (same : one.hash = two.hash) : Elder one two := by
  induction past with
  | nil => exact precedes
  | cons rebuilding earlier ih =>
    rcases precedes with ⟨_, elder⟩ | ⟨_, lower | ⟨_, before⟩⟩
    · exact elder
    · rw [same] at lower
      exact absurd lower (Nat.lt_irrefl _)
    · exact ih before

/-- What is made after every rebuilding stands behind what was there. -/
theorem precedes_of_elder {limit : Nat} (bounded : ∀ rebuilding ∈ past, rebuilding.next.index ≤ limit)
    (elder : Elder one two) (late : limit ≤ two.handle.index) : Precedes past one two := by
  cases past with
  | nil => exact elder
  | cons rebuilding earlier =>
    have early := bounded rebuilding List.mem_cons_self
    refine .inl ⟨fun ⟨_, moves⟩ => ?_, elder⟩
    have before : two.handle.index < rebuilding.next.index := moves
    omega

/-! ### The links of a chain among all links -/

/-- The links of a bucket are those of all links that belong there, in their order. -/
theorem Chained.chain_eq_filter (chained : map.Chained) {bucket : Nat} {chain : Chain K}
    (held : map.buckets[bucket]? = some chain) :
    chain = map.links.filter (bucketIndex ·.hash map.bucketCount = bucket) := by
  obtain ⟨front, back, split, _, apart⟩ := chained.split_links held
  have outside : ∀ links : List (Link K),
      (∀ hash, bucketIndex hash map.bucketCount = bucket → ∀ link ∈ links, link.hash ≠ hash) →
      links.filter (bucketIndex ·.hash map.bucketCount = bucket) = [] := by
    intro links elsewhere
    rw [List.filter_eq_nil_iff]
    intro link member here
    exact elsewhere link.hash (of_decide_eq_true here) link member rfl
  have inside : chain.filter (bucketIndex ·.hash map.bucketCount = bucket) = chain :=
    List.filter_eq_self.mpr fun link member => decide_eq_true (chained.housed bucket chain held link member)
  rw [split, List.filter_append, List.filter_append, inside, outside front fun hash place => (apart hash place).1,
    outside back fun hash place => (apart hash place).2, List.nil_append, List.append_nil]

theorem WellFormed.issued (wellFormed : map.WellFormed) {link : Link K} (member : link ∈ map.links) :
    link.handle.index < map.slots.next.index := by
  obtain ⟨value, held⟩ := wellFormed.inUse.get? (List.mem_map_of_mem member)
  exact (Slots.get?_eq_some held).1

/-- All links, bucket by bucket, are in the order that a rebuilding gives those that meet. -/
theorem Arranged.links_pairwise (arranged : Arranged past map) (wellFormed : map.WellFormed) :
    map.links.Pairwise (Precedes (⟨map.bucketCount, map.slots.next⟩ :: past)) := by
  have moves : ∀ (bucket : Nat) (chain : Chain K), map.buckets[bucket]? = some chain → ∀ link ∈ chain,
      link.handle.index < map.slots.next.index :=
    fun bucket chain held link member => wellFormed.issued (mem_links.mpr ⟨bucket, chain, held, member⟩)
  have housed := wellFormed.chained.housed
  rw [links, List.pairwise_flatten, List.pairwise_iff_getElem]
  constructor
  · intro chain within
    obtain ⟨bucket, held⟩ := List.mem_iff_getElem?.mp within
    rw [Array.getElem?_toList] at held
    refine (arranged.chains bucket chain held).imp_of_mem fun first second before => ?_
    exact .inr ⟨⟨moves bucket chain held _ first, moves bucket chain held _ second⟩,
      .inr ⟨(housed bucket chain held _ first).trans (housed bucket chain held _ second).symm, before⟩⟩
  · intro lower higher within bound apart one first two second
    have here : map.buckets[lower]? = some map.buckets.toList[lower] := by
      rw [← Array.getElem?_toList, List.getElem?_eq_getElem within]
    have there : map.buckets[higher]? = some map.buckets.toList[higher] := by
      rw [← Array.getElem?_toList, List.getElem?_eq_getElem bound]
    refine .inr ⟨⟨moves lower _ here one first, moves higher _ there two second⟩, .inl ?_⟩
    rw [housed lower _ here one first, housed higher _ there two second]
    exact apart

/-! ### What each operation does to the order -/

theorem pairwise_numbered (serial : Nat) {links : List (Link K)} (ordered : links.Pairwise (Precedes past)) :
    (numbered serial links).Pairwise (Precedes past) := by
  induction links generalizing serial with
  | nil => exact .nil
  | cons link links ih =>
    obtain ⟨first, rest⟩ := List.pairwise_cons.mp ordered
    refine List.pairwise_cons.mpr ⟨fun other member => ?_, ih (serial + 1) rest⟩
    obtain ⟨old, within, renumbered⟩ := mem_numbered member
    rw [renumbered, precedes_renumbered]
    exact first old within

theorem turn_of_epoch (same : after.epoch = map.epoch) : map.turn after = [] := if_pos same

/-- A moment in the same epoch, with as many buckets and as many handles issued. -/
theorem turn_congr {middle : HashedMap K V} (count : middle.bucketCount = map.bucketCount)
    (next : middle.slots.next = map.slots.next) (epoch : middle.epoch = map.epoch) :
    middle.turn after = map.turn after := by
  rw [turn, turn, count, next, epoch]

theorem Rebuilt.turn_eq {rung : Rung} (rebuilt : map.Rebuilt rung after) :
    map.turn after = [⟨map.bucketCount, map.slots.next⟩] := by
  have epoch : after.epoch = map.epoch + 1 := by rw [rebuilt.frame]
  exact if_neg (by omega)

theorem Arranged.rebuilt {rung : Rung} (arranged : Arranged past map) (wellFormed : map.WellFormed)
    (rebuilt : map.Rebuilt rung after) : Arranged (map.turn after ++ past) after := by
  have next : after.slots.next = map.slots.next := by rw [rebuilt.frame]
  rw [rebuilt.turn_eq]
  constructor
  · intro rebuilding member
    rw [next]
    rcases List.mem_cons.mp member with rfl | former
    · exact Nat.le_refl _
    · exact arranged.bounded rebuilding former
  · intro bucket chain held
    have sized : after.buckets.size = rung.size := by
      rw [rebuilt.wellFormed.chained.sized, rebuilt.frame]
    have within : bucket < rung.size := sized ▸ (Array.getElem?_eq_some_iff.mp held).1
    obtain rfl := Option.some.inj (held.symm.trans ((chains_of_rebuild rebuilt.done).2 bucket within))
    exact (pairwise_numbered _ (arranged.links_pairwise wellFormed)).filter _

theorem Arranged.settled (arranged : Arranged past map) (wellFormed : map.WellFormed)
    (settled : map.Settled granted after) : Arranged (map.turn after ++ past) after := by
  cases settled with
  | still =>
    rw [turn_of_epoch rfl]
    exact arranged
  | moved _ _ rebuilt => exact arranged.rebuilt wellFormed rebuilt

/-- A fresh link stands behind all others of its chain. -/
theorem Arranged.extended (arranged : Arranged past map) (wellFormed : map.WellFormed) {longer : HashedMap K V}
    {key : Held K} (value : Held V) (transactions : Nat) (extended : map.Extended [map.fresh key] longer) :
    Arranged past { longer with slots := map.slots.insert value, transactions := transactions } := by
  constructor
  · intro rebuilding member
    change rebuilding.next.index ≤ (map.slots.insert value).next.index
    rw [Slots.next_insert]
    exact Nat.le_succ_of_le (arranged.bounded rebuilding member)
  · intro bucket chain held
    have within : bucket < map.buckets.size := by
      have count : longer.buckets.size = map.buckets.size := extended.bucketCount_eq wellFormed.chained
      rw [← count]
      exact (Array.getElem?_eq_some_iff.mp held).1
    have former := Array.getElem?_eq_getElem within
    obtain rfl := Option.some.inj (held.symm.trans (extended.chains bucket _ former))
    refine List.pairwise_append.mpr ⟨arranged.chains bucket _ former, ?_, ?_⟩
    · exact (pairwise_numbered _ (List.pairwise_singleton _ _)).filter _
    · intro old member new added
      obtain rfl := List.mem_singleton.mp (List.mem_of_mem_filter added)
      exact precedes_of_elder arranged.bounded
        (wellFormed.issued (mem_links.mpr ⟨bucket, _, former, member⟩)) (Nat.le_refl _)

theorem Arranged.detached (arranged : Arranged past map) (wellFormed : map.WellFormed) {link : Link K}
    {value : Held V} {slots : Slots (Held V)} {shorter : HashedMap K V} (transactions : Nat)
    (member : link ∈ map.links) (taken : map.slots.take link.handle = .ok (value, slots))
    (detached : map.Detached link shorter) :
    Arranged past { shorter with slots := slots, transactions := transactions } := by
  have count := detached.bucketCount_eq wellFormed.chained
  obtain ⟨front, back, listed⟩ := List.append_of_mem member
  have fewer : shorter.links.Sublist map.links := by
    rw [detached.links front back listed, listed]
    exact (List.sublist_cons_self _ _).append_left _
  constructor
  · intro rebuilding former
    change rebuilding.next.index ≤ slots.next.index
    rw [Slots.next_take taken]
    exact arranged.bounded rebuilding former
  · intro bucket chain held
    have within : bucket < map.buckets.size := by
      rw [show map.buckets.size = shorter.buckets.size from count.symm]
      exact (Array.getElem?_eq_some_iff.mp held).1
    have former := Array.getElem?_eq_getElem within
    have ordered := arranged.chains bucket _ former
    rw [wellFormed.chained.chain_eq_filter former] at ordered
    rw [detached.chained.chain_eq_filter held, count]
    exact ordered.sublist (fewer.filter _)

theorem arranged_of_bare (bounded : ∀ rebuilding ∈ past, rebuilding.next.index ≤ after.slots.next.index)
    (bare : after.links = []) : Arranged past after := by
  refine ⟨bounded, fun bucket chain held => ?_⟩
  have empty : chain = [] := List.eq_nil_iff_forall_not_mem.mpr fun link member => by
    have inside := mem_links.mpr ⟨bucket, chain, held, member⟩
    rw [bare] at inside
    cases inside
  rw [empty]
  exact .nil

theorem Insertion.arranged {key : Held K} {value : Held V} {outcome : Except AddError Addition}
    (insertion : Insertion map granted key value outcome after) (wellFormed : map.WellFormed)
    (arranged : Arranged past map) : Arranged (map.turn after ++ past) after := by
  cases insertion with
  | refused | full =>
    rw [turn_of_epoch rfl]
    exact arranged
  | @updated _ slots met free done =>
    have still : map.turn { map with slots := slots } = [] := turn_of_epoch rfl
    rw [still]
    exact ⟨fun rebuilding member => (Slots.next_replace done).symm ▸ arranged.bounded rebuilding member,
      arranged.chains⟩
  | @inserted settled longer missed room settling extended =>
    have epoch : longer.epoch = settled.epoch := by rw [extended.frame]
    have same : map.turn { longer with
        slots := settled.slots.insert (settled.policy.base.secureValue value)
        transactions := settled.transactions + 1 } = map.turn settled := by
      simp only [turn, epoch]
    rw [same]
    exact (arranged.settled wellFormed settling).extended (settling.wellFormed wellFormed) _ _ extended

theorem Removal.arranged {key : K} {value : Option (Held V)} (removal : Removal map granted key value after)
    (wellFormed : map.WellFormed) (arranged : Arranged past map) : Arranged (map.turn after ++ past) after := by
  cases removal with
  | missed =>
    rw [turn_of_epoch rfl]
    exact arranged
  | @removed _ _ slots shorter met taken detached enough =>
    have still : map.turn { shorter with slots := slots, transactions := map.transactions + 1 } = [] :=
      turn_of_epoch (show shorter.epoch = map.epoch by rw [detached.frame])
    rw [still]
    exact arranged.detached wellFormed _ (List.mem_of_find?_eq_some met) taken detached
  | @shrunk link _ slots shorter _ met taken detached sparse settling =>
    have member := List.mem_of_find?_eq_some met
    have kept := wellFormed_shorter wellFormed (map.transactions + 1) member taken detached
    have count := detached.bucketCount_eq wellFormed.chained
    have epoch : shorter.epoch = map.epoch := by rw [detached.frame]
    have same : turn { shorter with slots := slots, transactions := map.transactions + 1 } after =
        map.turn after := turn_congr count (Slots.next_take taken) epoch
    rw [← same]
    exact (arranged.detached wellFormed _ member taken detached).settled kept settling

theorem Cleared.arranged (cleared : map.Cleared granted after) (wellFormed : map.WellFormed)
    (arranged : Arranged past map) : Arranged (map.turn after ++ past) after := by
  have kept := cleared.wellFormed wellFormed
  obtain ⟨_, _, _, size, _⟩ := cleared.frame wellFormed
  have next : after.slots.next = map.slots.next := by
    cases cleared with
    | already _ issued => exact issued
    | moved _ _ issued _ rebuilt =>
      rw [rebuilt.frame]
      exact issued
  refine arranged_of_bare (fun rebuilding member => ?_) (List.length_eq_zero_iff.mp (kept.size_eq.symm.trans size))
  rw [next]
  rcases List.mem_append.mp member with latest | former
  · unfold turn at latest
    split at latest
    · cases latest
    · obtain rfl := List.mem_singleton.mp latest
      exact Nat.le_refl _
  · exact arranged.bounded rebuilding former

theorem Changed.arranged {change : Change K V} (changed : Changed map granted change after)
    (wellFormed : map.WellFormed) (arranged : Arranged past map) : Arranged (map.turn after ++ past) after := by
  cases changed with
  | insert insertion => exact insertion.arranged wellFormed arranged
  | remove removal => exact removal.arranged wellFormed arranged
  | clear cleared => exact cleared.arranged wellFormed arranged

/-! ### Runs -/

theorem Arranged.served (arranged : Arranged past map) (wellFormed : map.WellFormed) {request : Request K V}
    {answer : Answer K V} (served : map.serve request = .ok (answer, after)) :
    after.WellFormed ∧ Arranged (map.turn after ++ past) after := by
  rcases changed_of_serve wellFormed served with rfl | ⟨change, changed⟩
  · rw [turn_of_epoch rfl]
    exact ⟨wellFormed, arranged⟩
  · exact ⟨changed.wellFormed wellFormed, changed.arranged wellFormed arranged⟩

theorem Arranged.run (arranged : Arranged past map) (wellFormed : map.WellFormed) (requests : List (Request K V))
    {answers : List (Answer K V)} (ran : runAll serve map requests = .ok (answers, after)) :
    Arranged (map.rebuildings requests ++ past) after ∧ after.WellFormed := by
  induction requests generalizing map past answers with
  | nil =>
    cases ran
    exact ⟨arranged, wellFormed⟩
  | cons request requests ih =>
    obtain ⟨⟨answer, middle⟩, served, further⟩ := bind_eq_ok.mp ran
    obtain ⟨⟨later, final⟩, rest, paired⟩ := bind_eq_ok.mp further
    cases paired
    obtain ⟨kept, between⟩ := arranged.served wellFormed served
    simp only [rebuildings, served, List.append_assoc]
    exact ih between kept rest

/-- No link of a chain was overtaken exactly if the chain is in insertion order. -/
theorem pairwise_elder_iff {chain : Chain K} (ordered : chain.Pairwise (Precedes past))
    (nodup : (chain.map (·.handle)).Nodup) :
    chain.Pairwise Elder ↔ ∀ one ∈ chain, ∀ two ∈ chain, Elder one two → Precedes past one two := by
  constructor
  · intro ages one first two second elder
    obtain ⟨lower, within, rfl⟩ := List.mem_iff_getElem.mp first
    obtain ⟨higher, bound, rfl⟩ := List.mem_iff_getElem.mp second
    rcases Nat.lt_trichotomy lower higher with before | rfl | behind
    · exact List.pairwise_iff_getElem.mp ordered lower higher within bound before
    · exact absurd elder (Nat.lt_irrefl _)
    · exact absurd (List.pairwise_iff_getElem.mp ages higher lower bound within behind) (Nat.lt_asymm elder)
  · intro kept
    rw [List.nodup_iff_pairwise_ne, List.pairwise_map] at nodup
    refine (ordered.and nodup).imp_of_mem fun {one two} first second both => ?_
    obtain ⟨precedes, apart⟩ := both
    rcases Nat.lt_trichotomy one.handle.index two.handle.index with elder | same | younger
    · exact elder
    · exact absurd (congrArg Handle.mk same) apart
    · exact absurd (kept two second one first younger) precedes.asymm

/-- Whatever the comparison, the hash and the copying functions answer, the chains that a run of requests to a
fresh map leaves are in the order that its rebuildings have given them: of two links of a chain the one stands
first that the latest rebuilding which found them in different buckets found in the lower one, and if none did,
the one that was made first. So links of one hash are always in insertion order, and all links of a chain are
exactly if no rebuilding has brought a younger one before an elder one. -/
theorem run_arranges_chains (id : Identity) (policy : HashPolicy K V) (noOverwrite : Bool)
    (requests : List (Request K V)) :
    ∃ answers, ∃ map : HashedMap K V, runAll serve { id, policy, noOverwrite } requests = .ok (answers, map) ∧
      ∀ (bucket : Nat) (chain : Chain K), map.buckets[bucket]? = some chain →
        chain.Pairwise (Precedes (rebuildings { id, policy, noOverwrite } requests)) ∧
        chain.Pairwise (fun one two => one.hash = two.hash → Elder one two) ∧
        (chain.Pairwise Elder ↔ ∀ one ∈ chain, ∀ two ∈ chain, Elder one two →
          Precedes (rebuildings { id, policy, noOverwrite } requests) one two) := by
  obtain ⟨map, ran, _⟩ := runAll_eq_replay (serve_matches ⟨policy.base, policy.hash, noOverwrite⟩) requests
    ⟨rfl, mirrors_fresh id policy noOverwrite⟩
  have start : Arranged [] ({ id, policy, noOverwrite } : HashedMap K V) :=
    arranged_of_bare nofun (links_of_bare rfl)
  obtain ⟨arranged, wellFormed⟩ := start.run (wellFormed_fresh id policy noOverwrite) requests ran
  rw [List.append_nil] at arranged
  refine ⟨_, map, ran, fun bucket chain held => ?_⟩
  have ordered := arranged.chains bucket chain held
  exact ⟨ordered, ordered.imp fun precedes => precedes.elder_of_hash,
    pairwise_elder_iff ordered (chain_nodup wellFormed.inUse.nodup held)⟩

/-- Ten additions of numbers that are hashed by themselves. -/
def tenAdditions : List (Request Nat String) :=
  [12, 41, 0, 1, 3, 4, 5, 6, 7, 8].map fun key => .insert ⟨.owned, key⟩ ⟨.owned, ""⟩

/-- The last of ten additions makes twenty-nine buckets out of thirteen. Twelve was added before forty-one, but it
came from a bucket behind that of forty-one, and now stands behind it. -/
theorem chain_not_insertionOrdered : ∃ answers, ∃ map : HashedMap Nat String, ∃ chain,
    runAll serve { id := ⟨0⟩, policy := Policy.natural.hashingBy UInt64.ofNat, noOverwrite := false }
      tenAdditions = .ok (answers, map) ∧
      map.buckets[12]? = some chain ∧ chain.map (·.key.val) = [41, 12] ∧ ¬ map.InsertionOrdered := by
  have ended : (runAll serve { id := ⟨0⟩, policy := Policy.natural.hashingBy UInt64.ofNat, noOverwrite := false }
      tenAdditions).toOption.bind (fun result => result.2.buckets[12]?.map
        (·.map fun link => (link.handle.index, link.key.val))) = some [(1, 41), (0, 12)] := by
    decide +kernel
  cases ran : runAll serve { id := ⟨0⟩, policy := Policy.natural.hashingBy UInt64.ofNat, noOverwrite := false }
      tenAdditions with
  | error fault =>
    rw [ran] at ended
    cases ended
  | ok result =>
    rw [ran] at ended
    obtain ⟨chain, held, listed⟩ := Option.map_eq_some_iff.mp ended
    have ages := congrArg (List.map Prod.fst) listed
    have keys := congrArg (List.map Prod.snd) listed
    rw [List.map_map] at ages keys
    refine ⟨result.1, result.2, chain, rfl, held, keys, fun ordered => ?_⟩
    have ascending : (chain.map (·.handle.index)).Pairwise (· < ·) := List.pairwise_map.mpr (ordered 12 chain held)
    rw [show chain.map (·.handle.index) = [1, 0] from ages] at ascending
    exact absurd ascending (by decide)

end KeyedStore.HashedMap
