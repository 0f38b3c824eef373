import Mathlib.Data.List.Nodup
import KeyedStore.HashedMap.Basic
import KeyedStore.Proofs.Ledger
/-!
The chains of a hashed map. Every link stands in the bucket of its hash, so the links of one hash stand in
one chain and all buckets together list them in the order of that chain. Attaching and detaching, one
link or many, keep this; what they do is said of the list of all links and of the links of each hash.
-/
namespace KeyedStore

variable {K V : Type}

theorem Rung.size_pos (rung : Rung) : 0 < rung.size := by
  revert rung
  decide

/-- A link without what only its chain needs. -/
def Link.tag (link : Link K) : Tag K := ⟨link.handle, link.key⟩

/-- The links of one hash, in their order. -/
def kinOf (hash : UInt64) (links : List (Link K)) : List (Tag K) :=
  (links.filter (·.hash == hash)).map Link.tag

theorem kinOf_nil (hash : UInt64) : kinOf hash ([] : List (Link K)) = [] := rfl

theorem kinOf_append (hash : UInt64) (front back : List (Link K)) :
    kinOf hash (front ++ back) = kinOf hash front ++ kinOf hash back := by
  simp only [kinOf, List.filter_append, List.map_append]

theorem kinOf_cons (link : Link K) (links : List (Link K)) :
    kinOf link.hash (link :: links) = link.tag :: kinOf link.hash links := by
  simp [kinOf]

theorem kinOf_cons_ne {hash : UInt64} {link : Link K} (other : link.hash ≠ hash) (links : List (Link K)) :
    kinOf hash (link :: links) = kinOf hash links := by
  simp [kinOf, other]

theorem kinOf_eq_nil {hash : UInt64} {links : List (Link K)} (none : ∀ link ∈ links, link.hash ≠ hash) :
    kinOf hash links = [] := by
  simp only [kinOf, List.map_eq_nil_iff, List.filter_eq_nil_iff, beq_iff_eq]
  exact none

/-- Serial numbers are no part of the kin. -/
theorem kinOf_renumbered (hash : UInt64) (link : Link K) (serial : Nat) :
    kinOf hash [{ link with serial := serial }] = kinOf hash [link] := by
  by_cases same : link.hash = hash <;> simp [kinOf, Link.tag, same]

theorem notMem_kinOf {handle : Handle} {links : List (Link K)} (absent : handle ∉ links.map (·.handle))
    (hash : UInt64) : handle ∉ (kinOf hash links).map (·.handle) := by
  intro member
  obtain ⟨tag, within, rfl⟩ := List.mem_map.mp member
  obtain ⟨link, inside, rfl⟩ := List.mem_map.mp within
  exact absent (List.mem_map_of_mem (List.mem_of_mem_filter inside))

theorem mem_kinOf {hash : UInt64} {links : List (Link K)} {tag : Tag K} :
    tag ∈ kinOf hash links ↔ ∃ link ∈ links, link.hash = hash ∧ link.tag = tag := by
  simp [kinOf, and_assoc]

namespace HashedMap

/-- The links of one hash in a map. -/
def kin (map : HashedMap K V) (hash : UInt64) : List (Tag K) := kinOf hash map.links

/-- There are as many buckets as the rung says; every link stands in the bucket of its hash, behind links
with lower serial numbers; and the next number is higher than all. -/
structure Chained (map : HashedMap K V) : Prop where
  sized : map.buckets.size = map.rung.size
  housed : ∀ (bucket : Nat) (chain : Chain K), map.buckets[bucket]? = some chain →
    ∀ link ∈ chain, bucketIndex link.hash map.bucketCount = bucket
  numbered : ∀ (bucket : Nat) (chain : Chain K), map.buckets[bucket]? = some chain →
    chain.Pairwise (·.serial < ·.serial)
  below : ∀ link ∈ map.links, link.serial < map.nextSerial

/-- The first of all links that answers the search for a key. -/
def meant (map : HashedMap K V) (key : K) : Option (Link K) :=
  map.links.find? (answers map.policy key (map.policy.hash key))

variable {map : HashedMap K V}

/-- One bucket among the others, before and after its chain is replaced. -/
theorem split_bucket {bucket : Nat} {chain : Chain K} (held : map.buckets[bucket]? = some chain) :
    ∃ front back : List (Chain K), front.length = bucket ∧
      map.buckets.toList = front ++ chain :: back ∧
      ∀ other, (map.buckets.setIfInBounds bucket other).toList = front ++ other :: back := by
  have held : map.buckets.toList[bucket]? = some chain := by rw [Array.getElem?_toList, held]
  obtain ⟨within, found⟩ := List.getElem?_eq_some_iff.mp held
  refine ⟨map.buckets.toList.take bucket, map.buckets.toList.drop (bucket + 1), ?_, ?_, ?_⟩
  · exact List.length_take_of_le (Nat.le_of_lt within)
  · rw [← found, ← List.drop_eq_getElem_cons within, List.take_append_drop]
  · intro other
    rw [Array.toList_setIfInBounds, List.set_eq_take_append_cons_drop, if_pos within]

theorem mem_links {link : Link K} : link ∈ map.links ↔
    ∃ (bucket : Nat) (chain : Chain K), map.buckets[bucket]? = some chain ∧ link ∈ chain := by
  simp only [links, List.mem_flatten, ← Array.mem_def, Array.mem_iff_getElem?]
  constructor
  · rintro ⟨chain, ⟨bucket, held⟩, member⟩
    exact ⟨bucket, chain, held, member⟩
  · rintro ⟨bucket, chain, held, member⟩
    exact ⟨chain, ⟨bucket, held⟩, member⟩

theorem chain_sublist {bucket : Nat} {chain : Chain K} (held : map.buckets[bucket]? = some chain) :
    chain.Sublist map.links :=
  List.sublist_flatten_of_mem (Array.mem_def.mp (Array.mem_of_getElem? held))

theorem chain_nodup {bucket : Nat} {chain : Chain K} (nodup : (map.links.map (·.handle)).Nodup)
    (held : map.buckets[bucket]? = some chain) : (chain.map (·.handle)).Nodup :=
  nodup.sublist ((chain_sublist held).map _)

namespace Chained

/-- Nothing but the chains, their number and the next serial number is spoken of. -/
theorem congr {after : HashedMap K V} (chained : map.Chained) (rung : after.rung = map.rung)
    (buckets : after.buckets = map.buckets) (nextSerial : after.nextSerial = map.nextSerial) : after.Chained := by
  refine ⟨?_, ?_, ?_, ?_⟩
  · rw [buckets, rung]
    exact chained.sized
  · rw [bucketCount, buckets]
    exact chained.housed
  · rw [buckets]
    exact chained.numbered
  · rw [links, buckets, nextSerial]
    exact chained.below

theorem chainOf_eq (chained : map.Chained) (hash : UInt64) :
    ∃ chain, map.buckets[bucketIndex hash map.bucketCount]? = some chain ∧
      map.chainOf hash = .ok (bucketIndex hash map.bucketCount, chain) := by
  have positive : 0 < map.buckets.size := chained.sized ▸ Rung.size_pos map.rung
  have within : bucketIndex hash map.bucketCount < map.buckets.size := Nat.mod_lt _ positive
  have held := Array.getElem?_eq_getElem within
  exact ⟨_, held, by simp only [chainOf, held]⟩

/-- All links around one chain. Those of other buckets have other places, so a hash of this bucket is
found in the chain alone. -/
theorem split_links (chained : map.Chained) {bucket : Nat} {chain : Chain K}
    (held : map.buckets[bucket]? = some chain) :
    ∃ front back : List (Link K), map.links = front ++ (chain ++ back) ∧
      (∀ other, (map.buckets.setIfInBounds bucket other).toList.flatten = front ++ (other ++ back)) ∧
      ∀ hash, bucketIndex hash map.bucketCount = bucket →
        (∀ link ∈ front, link.hash ≠ hash) ∧ ∀ link ∈ back, link.hash ≠ hash := by
  obtain ⟨front, back, length, split, replaced⟩ := split_bucket held
  refine ⟨front.flatten, back.flatten, by simp [links, split], fun other => by rw [replaced]; simp, ?_⟩
  intro hash place
  constructor
  · intro link member same
    obtain ⟨chain, within, inside⟩ := List.mem_flatten.mp member
    obtain ⟨index, found⟩ := List.mem_iff_getElem?.mp within
    have bound := (List.getElem?_eq_some_iff.mp found).1
    have elsewhere : map.buckets[index]? = some chain := by
      rw [← Array.getElem?_toList, split, List.getElem?_append_left bound, found]
    have housed := chained.housed index chain elsewhere link inside
    rw [same, place] at housed
    omega
  · intro link member same
    obtain ⟨chain, within, inside⟩ := List.mem_flatten.mp member
    obtain ⟨index, found⟩ := List.mem_iff_getElem?.mp within
    have elsewhere : map.buckets[bucket + 1 + index]? = some chain := by
      rw [← Array.getElem?_toList, split, List.getElem?_append_right (by omega)]
      rw [show bucket + 1 + index - front.length = index + 1 by omega, List.getElem?_cons_succ, found]
    have housed := chained.housed _ chain elsewhere link inside
    rw [same, place] at housed
    omega

/-- A search finds the first link of all that answers it. -/
theorem find_eq (chained : map.Chained) (key : K) : map.find key = .ok (map.meant key) := by
  obtain ⟨chain, held, found⟩ := chained.chainOf_eq (map.policy.hash key)
  obtain ⟨front, back, split, _, apart⟩ := chained.split_links held
  obtain ⟨inFront, inBack⟩ := apart _ rfl
  have before : front.find? (answers map.policy key (map.policy.hash key)) = none :=
    List.find?_eq_none.mpr fun link member => by simp [answers, inFront link member]
  have behind : back.find? (answers map.policy key (map.policy.hash key)) = none :=
    List.find?_eq_none.mpr fun link member => by simp [answers, inBack link member]
  simp only [find, found, meant, split, List.find?_append, before, behind, Option.none_or, Option.or_none]
  rfl

/-- A chain may be replaced by one whose links belong there and are numbered in order. -/
theorem replace_chain (chained : map.Chained) {bucket next : Nat} {chain other : Chain K}
    (held : map.buckets[bucket]? = some chain)
    (housed : ∀ link ∈ other, bucketIndex link.hash map.bucketCount = bucket)
    (numbered : other.Pairwise (·.serial < ·.serial)) (below : ∀ link ∈ other, link.serial < next)
    (more : map.nextSerial ≤ next) :
    Chained { map with buckets := map.buckets.setIfInBounds bucket other, nextSerial := next } := by
  obtain ⟨front, back, split, replaced, _⟩ := chained.split_links held
  have count : (map.buckets.setIfInBounds bucket other).size = map.buckets.size :=
    Array.size_setIfInBounds
  have either : ∀ (place : Nat) (found : Chain K),
      (map.buckets.setIfInBounds bucket other)[place]? = some found →
      place = bucket ∧ found = other ∨ map.buckets[place]? = some found := by
    intro place found at_place
    rw [Array.getElem?_setIfInBounds] at at_place
    split at at_place
    · rename_i same
      split at at_place
      · cases at_place
        exact .inl ⟨same.symm, rfl⟩
      · cases at_place
    · exact .inr at_place
  refine ⟨count.trans chained.sized, ?_, ?_, ?_⟩
  · intro place found at_place link member
    rw [bucketCount, count]
    rcases either place found at_place with ⟨rfl, rfl⟩ | old
    · exact housed link member
    · exact chained.housed place found old link member
  · intro place found at_place
    rcases either place found at_place with ⟨rfl, rfl⟩ | old
    · exact numbered
    · exact chained.numbered place found old
  · intro link member
    simp only [links, replaced, List.mem_append] at member
    have old : link ∈ map.links → link.serial < next :=
      fun inside => Nat.lt_of_lt_of_le (chained.below link inside) more
    rcases member with before | inside | behind
    · exact old (by simp [split, before])
    · exact below link inside
    · exact old (by simp [split, behind])

end Chained

/-! ### Attaching links -/

/-- The links under ascending serial numbers. -/
def numbered (serial : Nat) : List (Link K) → List (Link K)
  | [] => []
  | link :: links => { link with serial := serial } :: numbered (serial + 1) links

theorem numbered_append (serial : Nat) (front back : List (Link K)) :
    numbered serial (front ++ back) = numbered serial front ++ numbered (serial + front.length) back := by
  induction front generalizing serial with
  | nil => rfl
  | cons link front ih =>
    simp only [List.cons_append, numbered, ih, List.length_cons, Nat.add_assoc, Nat.add_comm 1]

/-- Numbering changes nothing but the serial numbers. -/
theorem mem_numbered {serial : Nat} {links : List (Link K)} {link : Link K}
    (member : link ∈ numbered serial links) : ∃ old ∈ links, link = { old with serial := link.serial } := by
  induction links generalizing serial with
  | nil => cases member
  | cons first links ih =>
    rcases List.mem_cons.mp member with rfl | further
    · exact ⟨first, List.mem_cons_self, rfl⟩
    · obtain ⟨old, within, same⟩ := ih further
      exact ⟨old, List.mem_cons_of_mem _ within, same⟩

/-- These links have been attached to a map, one after the other: each chain goes on with those of its
bucket, under the next serial numbers. Nothing but the chains has changed. -/
structure Extended (map : HashedMap K V) (added : List (Link K)) (after : HashedMap K V) : Prop where
  chained : after.Chained
  frame : after = { map with buckets := after.buckets, nextSerial := after.nextSerial }
  handles : (after.links.map (·.handle)).Perm (map.links.map (·.handle) ++ added.map (·.handle))
  kin : ∀ hash, after.kin hash = map.kin hash ++ kinOf hash added
  nextSerial : after.nextSerial = map.nextSerial + added.length
  chains : ∀ (bucket : Nat) (chain : Chain K), map.buckets[bucket]? = some chain →
    after.buckets[bucket]? = some (chain ++ (numbered map.nextSerial added).filter
      (bucketIndex ·.hash map.bucketCount = bucket))

theorem Extended.bucketCount_eq {added : List (Link K)} {after : HashedMap K V}
    (extended : map.Extended added after) (chained : map.Chained) : after.bucketCount = map.bucketCount := by
  have sized : after.bucketCount = after.rung.size := extended.chained.sized
  rw [sized, extended.frame]
  exact chained.sized.symm

theorem attach_ends (chained : map.Chained) (link : Link K) :
    ∃ after, map.attach link = .ok after ∧ map.Extended [link] after := by
  obtain ⟨chain, held, found⟩ := chained.chainOf_eq link.hash
  obtain ⟨front, back, split, replaced, apart⟩ := chained.split_links held
  have listed := replaced (chain ++ [{ link with serial := map.nextSerial }])
  refine ⟨_, by simp only [attach, found]; rfl,
    ⟨chained.replace_chain held ?_ ?_ ?_ (Nat.le_succ _), rfl, ?_, ?_, rfl, ?_⟩⟩
  · intro other member
    rcases List.mem_append.mp member with old | new
    · exact chained.housed _ chain held other old
    · rw [List.mem_singleton.mp new]
  · refine List.pairwise_append.mpr ⟨chained.numbered _ chain held, List.pairwise_singleton _ _, ?_⟩
    intro other member new added
    rw [List.mem_singleton.mp added]
    exact chained.below other (mem_links.mpr ⟨_, chain, held, member⟩)
  · intro other member
    rcases List.mem_append.mp member with old | new
    · exact Nat.lt_succ_of_lt (chained.below other (mem_links.mpr ⟨_, chain, held, old⟩))
    · rw [List.mem_singleton.mp new]
      exact Nat.lt_succ_self _
  · simp only [links, listed, List.map_append, List.map_cons, List.map_nil]
    rw [show map.buckets.toList.flatten = front ++ (chain ++ back) from split]
    simp only [List.map_append, List.append_assoc]
    exact ((List.perm_append_comm.append_left _).append_left _)
  · intro hash
    simp only [kin, links, listed, kinOf_append, kinOf_renumbered]
    rw [show map.buckets.toList.flatten = front ++ (chain ++ back) from split]
    by_cases same : link.hash = hash
    · -- No link of this hash stands behind its bucket, so the new one is the last of them.
      subst same
      obtain ⟨_, inBack⟩ := apart _ rfl
      simp only [kinOf_append, kinOf_eq_nil inBack, List.append_nil, List.append_assoc]
    · simp only [kinOf_append, kinOf_cons_ne same, kinOf_nil, List.append_nil]
  · intro bucket other there
    have within : bucketIndex link.hash map.bucketCount < map.buckets.size :=
      (Array.getElem?_eq_some_iff.mp held).1
    by_cases same : bucketIndex link.hash map.bucketCount = bucket
    · subst same
      obtain rfl : chain = other := Option.some.inj (held.symm.trans there)
      simp [numbered, within]
    · simp [numbered, same, there]

theorem Extended.trans {middle after : HashedMap K V} {first second : List (Link K)} (chained : map.Chained)
    (one : map.Extended first middle) (two : middle.Extended second after) :
    map.Extended (first ++ second) after := by
  refine ⟨two.chained, ?_, ?_, ?_, ?_, ?_⟩
  · rw [two.frame, one.frame]
  · rw [List.map_append, ← List.append_assoc]
    exact two.handles.trans (one.handles.append_right _)
  · intro hash
    rw [two.kin, one.kin, kinOf_append, List.append_assoc]
  · rw [two.nextSerial, one.nextSerial, List.length_append, Nat.add_assoc]
  · intro bucket chain held
    rw [two.chains bucket _ (one.chains bucket chain held), one.nextSerial, one.bucketCount_eq chained,
      numbered_append, List.filter_append, List.append_assoc]

/-- Links attached one after the other. -/
theorem attachAll_ends (chained : map.Chained) (links : List (Link K)) :
    ∃ after, links.foldlM attach map = .ok after ∧ map.Extended links after := by
  induction links generalizing map with
  | nil =>
    refine ⟨map, rfl, chained, rfl, ?_, ?_, rfl, ?_⟩
    · rw [List.map_nil, List.append_nil]
    · intro hash
      rw [kinOf_nil, List.append_nil]
    · intro bucket chain held
      rw [held, numbered, List.filter_nil, List.append_nil]
  | cons link links ih =>
    obtain ⟨middle, attached, one⟩ := attach_ends chained link
    obtain ⟨after, done, two⟩ := ih one.chained
    refine ⟨after, ?_, one.trans chained two⟩
    rw [List.foldlM_cons, attached]
    exact done

/-! ### Detaching a link -/

/-- A link has been detached: it is gone from the list of all links. Nothing but its chain has changed. -/
structure Detached (map : HashedMap K V) (link : Link K) (after : HashedMap K V) : Prop where
  chained : after.Chained
  frame : after = { map with buckets := after.buckets }
  links : ∀ front back, map.links = front ++ link :: back → after.links = front ++ back

theorem Detached.bucketCount_eq {link : Link K} {after : HashedMap K V} (detached : map.Detached link after)
    (chained : map.Chained) : after.bucketCount = map.bucketCount := by
  have sized : after.bucketCount = after.rung.size := detached.chained.sized
  rw [sized, detached.frame]
  exact chained.sized.symm

theorem detach_ends (chained : map.Chained) (nodup : (map.links.map (·.handle)).Nodup) {link : Link K}
    (member : link ∈ map.links) : ∃ after, map.detach link = .ok after ∧ map.Detached link after := by
  obtain ⟨chain, held, found⟩ := chained.chainOf_eq link.hash
  obtain ⟨before, behind, split, replaced, apart⟩ := chained.split_links held
  obtain ⟨inFront, inBack⟩ := apart _ rfl
  have inside : link ∈ chain := by
    rw [split] at member
    rcases List.mem_append.mp member with early | later
    · exact absurd rfl (inFront link early)
    · exact (List.mem_append.mp later).resolve_right fun late => inBack link late rfl
  have shorter : (before ++ (chain ++ behind)).eraseP (·.handle = link.handle) =
      before ++ (chain.eraseP (·.handle = link.handle) ++ behind) := by
    rw [split, List.map_append, List.map_append] at nodup
    rw [List.eraseP_append_right, List.eraseP_append_left (a := link) (by simp) _ inside]
    intro other member
    simpa using fun same : other.handle = link.handle =>
      (List.nodup_append.mp nodup).2.2 _ (List.mem_map_of_mem member) _
        (List.mem_append_left _ (List.mem_map_of_mem inside)) same
  have kept : ∀ other ∈ chain.eraseP (·.handle = link.handle), other ∈ chain :=
    fun other member => List.mem_of_mem_eraseP member
  refine ⟨_, by simp only [detach, found]; rfl,
    chained.replace_chain held ?_ ?_ ?_ (Nat.le_refl map.nextSerial), rfl, ?_⟩
  · exact fun other member => chained.housed _ chain held other (kept other member)
  · exact (chained.numbered _ chain held).sublist List.eraseP_sublist
  · exact fun other member =>
      chained.below other (mem_links.mpr ⟨_, chain, held, kept other member⟩)
  · intro front back listed
    have erased : map.links.eraseP (·.handle = link.handle) = front ++ back := by
      rw [listed, List.map_append, List.map_cons] at nodup
      rw [listed, List.eraseP_append_right, List.eraseP_cons_of_pos (by simp)]
      intro other member
      simpa using fun same : other.handle = link.handle =>
        (List.nodup_append.mp nodup).2.2 _ (List.mem_map_of_mem member) _ List.mem_cons_self same
    rw [← erased, split, shorter]
    exact replaced _

end HashedMap

end KeyedStore
