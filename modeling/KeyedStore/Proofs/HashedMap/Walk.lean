import KeyedStore.Store
import KeyedStore.Proofs.HashedMap.Changes
/-!
Reading a hashed map with a cursor, whatever the policy. The links stand in one line, by bucket and along
each chain, and serial numbers ascend along the chains; so the place of a link, its bucket with its number,
tells how far a cursor has come even when the link is gone. A cursor goes on with the first link behind that
place, and on a map that stays as it is it returns what is left of the line and then ends.
-/
namespace KeyedStore

/-- Where a link stands: in which bucket, and under which serial number. -/
structure Place where
  bucket : Nat
  serial : Nat
  deriving DecidableEq

namespace Place

/-- In an earlier bucket, or earlier in the same chain. -/
def Before (first second : Place) : Prop :=
  first.bucket < second.bucket ∨ first.bucket = second.bucket ∧ first.serial < second.serial

instance : DecidableRel Before := fun _ _ => inferInstanceAs (Decidable (_ ∨ _))

/-- The place lies behind the last one, if there was one. -/
def beyond (last : Option Place) (place : Place) : Bool := last.all (decide <| ·.Before place)

variable {first second third : Place}

theorem Before.trans (one : first.Before second) (two : second.Before third) : first.Before third := by
  unfold Before at *
  omega

theorem not_before_self (place : Place) : ¬ place.Before place := by
  unfold Before
  omega

theorem beyond_some : beyond (some first) second = true ↔ first.Before second := by
  simp [beyond]

/-- What is behind a place behind the last one is behind the last one. -/
theorem beyond_of_before {last : Option Place} (one : beyond last first = true) (two : first.Before second) :
    beyond last second = true := by
  cases last with
  | none => rfl
  | some place => exact beyond_some.mpr ((beyond_some.mp one).trans two)

end Place

variable {K V : Type}

/-! ### All links in line -/

/-- The links of some chains, each with its bucket; the first chain is that of the given bucket. -/
def linedUp (bucket : Nat) : List (Chain K) → List (Nat × Link K)
  | [] => []
  | chain :: chains => chain.map (bucket, ·) ++ linedUp (bucket + 1) chains

/-- The place of a link in line. -/
def placed (item : Nat × Link K) : Place := ⟨item.1, item.2.serial⟩

theorem linedUp_append (bucket : Nat) (front back : List (Chain K)) :
    linedUp bucket (front ++ back) = linedUp bucket front ++ linedUp (bucket + front.length) back := by
  induction front generalizing bucket with
  | nil => rfl
  | cons chain front ih =>
    simp only [List.cons_append, linedUp, ih, List.length_cons, List.append_assoc, Nat.add_assoc,
      Nat.add_comm 1]

theorem map_snd_linedUp (bucket : Nat) (chains : List (Chain K)) :
    (linedUp bucket chains).map Prod.snd = chains.flatten := by
  induction chains generalizing bucket with
  | nil => rfl
  | cons chain chains ih => simp [linedUp, ih, Function.comp_def]

theorem mem_linedUp {bucket : Nat} {chains : List (Chain K)} {item : Nat × Link K} :
    item ∈ linedUp bucket chains ↔
      ∃ index chain, item.1 = bucket + index ∧ chains[index]? = some chain ∧ item.2 ∈ chain := by
  induction chains generalizing bucket with
  | nil => simp [linedUp]
  | cons head chains ih =>
    rw [linedUp, List.mem_append, ih]
    constructor
    · rintro (here | ⟨index, chain, place, found, member⟩)
      · obtain ⟨link, member, rfl⟩ := List.mem_map.mp here
        exact ⟨0, head, rfl, rfl, member⟩
      · exact ⟨index + 1, chain, by omega, found, member⟩
    · rintro ⟨index, chain, place, found, member⟩
      cases index with
      | zero =>
        obtain rfl : head = chain := Option.some.inj found
        exact .inl (List.mem_map.mpr ⟨item.2, member, Prod.ext place.symm rfl⟩)
      | succ index => exact .inr ⟨index, chain, by omega, found, member⟩

theorem le_of_mem_linedUp {bucket : Nat} {chains : List (Chain K)} {item : Nat × Link K}
    (member : item ∈ linedUp bucket chains) : bucket ≤ item.1 ∧ item.1 < bucket + chains.length := by
  obtain ⟨index, chain, place, found, _⟩ := mem_linedUp.mp member
  have bound := (List.getElem?_eq_some_iff.mp found).1
  omega

/-- Numbers ascend along chains, and buckets along the line. -/
theorem linedUp_ascending {bucket : Nat} {chains : List (Chain K)}
    (ordered : ∀ chain ∈ chains, chain.Pairwise (·.serial < ·.serial)) :
    (linedUp bucket chains).Pairwise fun first second => (placed first).Before (placed second) := by
  induction chains generalizing bucket with
  | nil => exact .nil
  | cons chain chains ih =>
    obtain ⟨here, there⟩ := List.forall_mem_cons.mp ordered
    refine List.pairwise_append.mpr ⟨List.pairwise_map.mpr ?_, ih there, ?_⟩
    · exact here.imp fun lower => .inr ⟨rfl, lower⟩
    · intro first before second after
      obtain ⟨link, _, rfl⟩ := List.mem_map.mp before
      exact .inl (le_of_mem_linedUp after).1

namespace HashedMap

/-- All links in line, each with its bucket. -/
def lineup (map : HashedMap K V) : List (Nat × Link K) := linedUp 0 map.buckets.toList

/-- The links behind a place. -/
def ahead (map : HashedMap K V) (last : Option Place) : List (Nat × Link K) :=
  map.lineup.filter (Place.beyond last <| placed ·)

variable {map : HashedMap K V}

theorem mem_lineup {item : Nat × Link K} :
    item ∈ map.lineup ↔ ∃ chain, map.buckets[item.1]? = some chain ∧ item.2 ∈ chain := by
  simp only [lineup, mem_linedUp, Nat.zero_add, Array.getElem?_toList]
  constructor
  · rintro ⟨index, chain, rfl, found, member⟩
    exact ⟨chain, found, member⟩
  · rintro ⟨chain, found, member⟩
    exact ⟨item.1, chain, rfl, found, member⟩

theorem map_snd_lineup (map : HashedMap K V) : map.lineup.map Prod.snd = map.links :=
  map_snd_linedUp 0 map.buckets.toList

theorem ahead_none (map : HashedMap K V) : map.ahead none = map.lineup :=
  List.filter_eq_self.mpr fun _ _ => rfl

theorem firstFrom_eq (buckets : Array (Chain K)) (bucket : Nat) :
    firstFrom buckets bucket = (linedUp bucket (buckets.toList.drop bucket)).head? := by
  fun_induction firstFrom buckets bucket with
  | case1 bucket bound link links here =>
    rw [List.drop_eq_getElem_cons (by simpa using bound), linedUp, Array.getElem_toList, here]
    rfl
  | case2 bucket bound here ih =>
    rw [List.drop_eq_getElem_cons (by simpa using bound), linedUp, Array.getElem_toList, here, ih]
    rfl
  | case3 bucket bound =>
    rw [List.drop_eq_nil_of_le (by simpa using bound)]
    rfl

namespace Chained

variable (chained : map.Chained)

include chained

/-- The bucket of a link in line is that of its hash. -/
theorem bucket_of_mem {item : Nat × Link K} (member : item ∈ map.lineup) :
    bucketIndex item.2.hash map.bucketCount = item.1 := by
  obtain ⟨chain, held, within⟩ := mem_lineup.mp member
  exact chained.housed item.1 chain held item.2 within

/-- The line is that of the links, each in the bucket of its hash. -/
theorem lineup_eq : map.lineup = map.links.map fun link => (bucketIndex link.hash map.bucketCount, link) := by
  rw [← map_snd_lineup, List.map_map]
  refine (List.map_id _).symm.trans (List.map_congr_left fun item member => ?_)
  exact Prod.ext (chained.bucket_of_mem member).symm rfl

theorem lineup_ascending :
    map.lineup.Pairwise fun first second => (placed first).Before (placed second) := by
  apply linedUp_ascending
  intro chain member
  obtain ⟨bucket, held⟩ := List.mem_iff_getElem?.mp member
  exact chained.numbered bucket chain (Array.getElem?_toList ▸ held)

/-- Behind the first link behind the last place stand all further ones. -/
theorem ahead_next {last : Option Place} {item : Nat × Link K} {rest : List (Nat × Link K)}
    (split : map.ahead last = item :: rest) : map.ahead (some (placed item)) = rest := by
  unfold ahead at split ⊢
  have ordered := chained.lineup_ascending.filter (Place.beyond last <| placed ·)
  rw [split] at ordered
  have behind := (List.pairwise_cons.mp ordered).1
  have first : Place.beyond last (placed item) = true := by
    have member : item ∈ map.lineup.filter (Place.beyond last <| placed ·) := by simp [split]
    exact (List.mem_filter.mp member).2
  have further : ∀ other ∈ map.lineup, Place.beyond (some (placed item)) (placed other) =
      (Place.beyond (some (placed item)) (placed other) && Place.beyond last (placed other)) := by
    intro other _
    by_cases beyond : Place.beyond (some (placed item)) (placed other) = true
    · rw [beyond, Place.beyond_of_before first (Place.beyond_some.mp beyond), Bool.and_self]
    · simp [beyond]
  have itself : ¬ Place.beyond (some (placed item)) (placed item) = true :=
    fun beyond => Place.not_before_self _ (Place.beyond_some.mp beyond)
  rw [List.filter_congr further, ← List.filter_filter, split, List.filter_cons_of_neg (by exact itself)]
  exact List.filter_eq_self.mpr fun other member => Place.beyond_some.mpr (behind other member)

end Chained

/-- Around one bucket: behind a place in it stand the links of its chain with higher numbers, and then all
links of later buckets. -/
theorem ahead_some {place : Place} {chain : Chain K} (held : map.buckets[place.bucket]? = some chain) :
    map.ahead (some place) = (chain.filter (place.serial < ·.serial)).map (place.bucket, ·) ++
      linedUp (place.bucket + 1) (map.buckets.toList.drop (place.bucket + 1)) := by
  obtain ⟨within, found⟩ := Array.getElem?_eq_some_iff.mp held
  have split : map.lineup = linedUp 0 (map.buckets.toList.take place.bucket) ++
      (chain.map (place.bucket, ·) ++
        linedUp (place.bucket + 1) (map.buckets.toList.drop (place.bucket + 1))) := by
    have parts := List.take_append_drop place.bucket map.buckets.toList
    rw [List.drop_eq_getElem_cons (by simpa using within), Array.getElem_toList, found] at parts
    rw [lineup, ← parts, linedUp_append, List.length_take_of_le (by simpa using Nat.le_of_lt within), parts,
      Nat.zero_add]
    rfl
  have before : (linedUp 0 (map.buckets.toList.take place.bucket)).filter
      (Place.beyond (some place) <| placed ·) = [] := by
    refine List.filter_eq_nil_iff.mpr fun item member => ?_
    have bound := (le_of_mem_linedUp member).2
    have length := List.length_take_le place.bucket map.buckets.toList
    simp only [Place.beyond_some, Place.Before, placed]
    omega
  have behind : ∀ item ∈ linedUp (place.bucket + 1) (map.buckets.toList.drop (place.bucket + 1)),
      Place.beyond (some place) (placed item) = true := by
    intro item member
    have bound := (le_of_mem_linedUp member).1
    exact Place.beyond_some.mpr (.inl bound)
  rw [ahead, split, List.filter_append, List.filter_append, before, List.filter_eq_self.mpr behind,
    List.nil_append, List.filter_map]
  congr 3
  funext link
  simp [Place.beyond, Place.Before, placed]

/-- Nothing stands behind a place outside the buckets. -/
theorem ahead_outside {place : Place} (outside : map.buckets[place.bucket]? = none) :
    map.ahead (some place) = [] := by
  refine List.filter_eq_nil_iff.mpr fun item member => ?_
  obtain ⟨chain, held, _⟩ := mem_lineup.mp member
  have bound := (Array.getElem?_eq_some_iff.mp held).1
  have limit := Array.getElem?_eq_none_iff.mp outside
  simp only [Place.beyond_some, Place.Before, placed]
  omega

/-- After a link of a chain comes what follows it there. -/
theorem following_append {front back : Chain K} {link : Link K}
    (nodup : ((front ++ link :: back).map (·.handle)).Nodup) :
    (front ++ link :: back).following link.handle = back.head? := by
  rw [List.map_append, List.map_cons, List.nodup_middle] at nodup
  have apart : ∀ other ∈ front, other.handle ≠ link.handle := by
    intro other within same
    apply (List.nodup_cons.mp nodup).1
    exact List.mem_append_left _ (List.mem_map.mpr ⟨other, within, same⟩)
  have dropped : (front ++ link :: back).dropWhile (·.handle ≠ link.handle) = link :: back := by
    rw [List.dropWhile_append_of_pos (by simpa using apart)]
    simp
  rw [Chain.following, dropped]
  rfl

/-- After a link of a chain come those with higher numbers. -/
theorem following_eq {chain : Chain K} {link : Link K} (ordered : chain.Pairwise (·.serial < ·.serial))
    (nodup : (chain.map (·.handle)).Nodup) (member : link ∈ chain) :
    chain.following link.handle = (chain.filter (link.serial < ·.serial)).head? := by
  obtain ⟨front, back, rfl⟩ := List.append_of_mem member
  obtain ⟨_, below, across⟩ := List.pairwise_append.mp ordered
  have lower : ∀ other ∈ front, ¬ link.serial < other.serial :=
    fun other within => Nat.lt_asymm (across other within link List.mem_cons_self)
  have higher : ∀ other ∈ back, link.serial < other.serial := (List.pairwise_cons.mp below).1
  rw [following_append nodup, List.filter_append, List.filter_eq_nil_iff.mpr (by simpa using lower),
    List.filter_cons_of_neg (by simp), List.filter_eq_self.mpr (by simpa using higher)]
  rfl

/-! ### A cursor, step by step -/

/-- Where a link of the map stands. -/
def placeOf (map : HashedMap K V) (link : Link K) : Place :=
  ⟨bucketIndex link.hash map.bucketCount, link.serial⟩

/-- The cursor has come as far as this place. As long as the buckets are those it knows, a link with the
handle it remembers can only be the one it returned there. -/
inductive At (map : HashedMap K V) (cursor : HashedCursor) : Option Place → Prop where
  | start (bucket : cursor.bucket = 0) (last : cursor.last = none) : At map cursor none
  | behind {place : Place} {handle : Handle} (bucket : cursor.bucket = place.bucket)
      (last : cursor.last = some (handle, place.serial))
      (issued : cursor.epoch = map.epoch → handle.index < map.slots.next.index)
      (known : cursor.epoch = map.epoch → ∀ link ∈ map.links, link.handle = handle → map.placeOf link = place) :
      At map cursor (some place)

/-- A cursor of this map that has not ended, after having returned the link of this place. -/
structure Stands (map : HashedMap K V) (cursor : HashedCursor) (last : Option Place) : Prop where
  active : cursor.finished = false
  owned : cursor.owner = map.id
  past : cursor.epoch ≤ map.epoch
  place : map.At cursor last

theorem stands_start (map : HashedMap K V) : map.Stands map.start none :=
  ⟨rfl, rfl, Nat.le_refl _, .start rfl rfl⟩

variable {cursor : HashedCursor} {last : Option Place} {chain : Chain K}

/-- A link that is still there with the remembered handle stands where the cursor left it. -/
theorem live_of_known (wellFormed : map.WellFormed) {place : Place} {handle : Handle}
    (held : map.buckets[place.bucket]? = some chain) (live : map.slots.contains handle = true)
    (known : ∀ link ∈ map.links, link.handle = handle → map.placeOf link = place) :
    ∃ link ∈ chain, link.handle = handle ∧ link.serial = place.serial := by
  obtain ⟨link, member, same⟩ := List.mem_map.mp ((wellFormed.inUse.live handle).mpr live)
  have stands := known link member same
  obtain ⟨other, chain', held', inside⟩ := mem_links.mp member
  have housed := wellFormed.chained.housed other chain' held' link inside
  obtain rfl : other = place.bucket := housed.symm.trans (congrArg Place.bucket stands)
  obtain rfl : chain' = chain := Option.some.inj (held'.symm.trans held)
  exact ⟨link, inside, same, congrArg Place.serial stands⟩

/-- While the buckets are those it knows, a cursor goes on with the first link behind its place. -/
theorem nextLink_eq (wellFormed : map.WellFormed) (place : map.At cursor last)
    (present : cursor.epoch = map.epoch) (held : map.buckets[cursor.bucket]? = some chain) :
    map.nextLink chain cursor = (map.ahead last).head? := by
  cases place with
  | start bucket unmoved =>
    rw [bucket] at held
    obtain ⟨within, found⟩ := Array.getElem?_eq_some_iff.mp held
    have split : map.buckets.toList = chain :: map.buckets.toList.drop 1 := by
      rw [← found, ← Array.getElem_toList, ← List.drop_eq_getElem_cons (by simpa using within), List.drop_zero]
    have first : map.upcoming chain cursor.last = chain.head? := by rw [unmoved, upcoming]
    rw [ahead_none, lineup, split, linedUp, nextLink, first, bucket, firstFrom_eq]
    cases chain <;> simp
  | @behind place handle bucket remembered issued known =>
    rw [bucket] at held
    have resumed : map.upcoming chain cursor.last = (chain.filter (place.serial < ·.serial)).head? := by
      simp only [upcoming, remembered]
      split
      · -- The link is still there, so it stands where the cursor left it.
        rename_i live
        obtain ⟨link, inside, same, serial⟩ := live_of_known wellFormed held live (known present)
        rw [← same, ← serial]
        exact following_eq (wellFormed.chained.numbered _ chain held) (chain_nodup wellFormed.inUse.nodup held) inside
      · rw [Chain.beyond, List.head?_filter]
    rw [nextLink, resumed, ahead_some held, bucket, firstFrom_eq]
    cases chain.filter (place.serial < ·.serial) <;> simp

/-- Wherever a cursor goes on, it is at a link of the map. -/
theorem mem_links_of_nextLink {bucket : Nat} {link : Link K} (held : map.buckets[cursor.bucket]? = some chain)
    (next : map.nextLink chain cursor = some (bucket, link)) : link ∈ map.links := by
  unfold nextLink at next
  split at next
  · rename_i found upcoming_eq
    cases next
    refine mem_links.mpr ⟨_, chain, held, ?_⟩
    unfold upcoming at upcoming_eq
    split at upcoming_eq
    · exact List.mem_of_head? upcoming_eq
    · split at upcoming_eq
      · exact (List.dropWhile_sublist _).subset (List.mem_of_mem_tail (List.mem_of_head? upcoming_eq))
      · exact List.mem_of_find?_eq_some upcoming_eq
  · rw [firstFrom_eq] at next
    have member := List.mem_map_of_mem (f := Prod.snd) (List.mem_of_head? next)
    rw [map_snd_linedUp] at member
    obtain ⟨other, within, inside⟩ := List.mem_flatten.mp member
    exact List.mem_flatten.mpr ⟨other, List.mem_of_mem_drop within, inside⟩

/-- A cursor that knows other buckets ends. -/
theorem advance_outdated (stands : map.Stands cursor last) (outdated : cursor.epoch ≠ map.epoch) :
    map.advance cursor = .ok (none, cursor.stop) := by
  simp [advance, stands.active, stands.owned, outdated]

theorem advance_ended (wellFormed : map.WellFormed) (stands : map.Stands cursor last)
    (present : cursor.epoch = map.epoch) (nothing : map.ahead last = []) :
    ∃ ended, map.advance cursor = .ok (none, ended) ∧ ended.finished = true ∧ ended.owner = cursor.owner := by
  cases held : map.buckets[cursor.bucket]? with
  | none => exact ⟨cursor.stop, by simp [advance, stands.active, stands.owned, present, held], rfl, rfl⟩
  | some chain =>
    have next := nextLink_eq wellFormed stands.place present held
    rw [nothing] at next
    refine ⟨{ cursor with bucket := map.bucketCount }.stop, ?_, rfl, rfl⟩
    simp [advance, stands.active, stands.owned, present, held, next]

theorem entry_of_get? {link : Link K} {value : Held V} (held : map.slots.get? link.handle = some value) :
    map.entry link = .ok (link.key.val, value.val) := by
  simp only [entry, Slots.fetch, held]
  rfl

/-- A cursor that has a link ahead stands in one of the buckets. -/
theorem bucket_of_ahead (wellFormed : map.WellFormed) (place : map.At cursor last)
    (something : map.ahead last ≠ []) : ∃ chain, map.buckets[cursor.bucket]? = some chain := by
  cases held : map.buckets[cursor.bucket]? with
  | some chain => exact ⟨chain, rfl⟩
  | none =>
    exfalso
    cases place with
    | start bucket =>
      have limit := Array.getElem?_eq_none_iff.mp held
      have positive := map.rung.size_pos
      rw [bucket, wellFormed.chained.sized] at limit
      omega
    | behind bucket =>
      rw [bucket] at held
      exact something (ahead_outside held)

theorem mem_lineup_of_ahead {item : Nat × Link K} {rest : List (Nat × Link K)}
    (reached : map.ahead last = item :: rest) : item ∈ map.lineup := by
  have member : item ∈ map.ahead last := by simp [reached]
  exact (List.mem_filter.mp member).1

theorem mem_links_of_ahead {item : Nat × Link K} {rest : List (Nat × Link K)}
    (reached : map.ahead last = item :: rest) : item.2 ∈ map.links :=
  map.map_snd_lineup ▸ List.mem_map_of_mem (mem_lineup_of_ahead reached)

/-- A cursor with a link ahead returns its entry and has come as far as it. -/
theorem advance_reached (wellFormed : map.WellFormed) (stands : map.Stands cursor last)
    (present : cursor.epoch = map.epoch) {item : Nat × Link K} {rest : List (Nat × Link K)} {value : Held V}
    (reached : map.ahead last = item :: rest) (live : map.slots.get? item.2.handle = some value) :
    ∃ moved, map.advance cursor = .ok (some (item.2.key.val, value.val), moved) ∧
      moved.epoch = cursor.epoch ∧ map.Stands moved (some (placed item)) := by
  obtain ⟨chain, held⟩ := bucket_of_ahead wellFormed stands.place (by simp [reached])
  have next := nextLink_eq wellFormed stands.place present held
  rw [reached, List.head?_cons] at next
  refine ⟨{ cursor with bucket := item.1, last := some (item.2.handle, item.2.serial) }, ?_, rfl,
    stands.active, stands.owned, stands.past, .behind rfl rfl (fun _ => ?_) fun _ link member same => ?_⟩
  · simp [advance, stands.active, stands.owned, present, held, next, entry_of_get? live, bind, Except.bind,
      pure, Except.pure]
  · obtain ⟨bound, _⟩ := Slots.get?_eq_some live
    exact bound
  · obtain rfl := List.inj_on_of_nodup_map wellFormed.inUse.nodup member (mem_links_of_ahead reached) same
    exact congrArg (Place.mk · item.2.serial) (wellFormed.chained.bucket_of_mem (mem_lineup_of_ahead reached))

/-- What lies ahead is live. -/
theorem WellFormed.live_of_ahead (wellFormed : map.WellFormed) {item : Nat × Link K}
    {rest : List (Nat × Link K)} (reached : map.ahead last = item :: rest) :
    ∃ value, map.slots.get? item.2.handle = some value :=
  wellFormed.inUse.get? (List.mem_map_of_mem (mem_links_of_ahead reached))

/-! ### A walk through a map that stays as it is -/

/-- A walk that is long enough returns what lies ahead of the cursor and finishes it. -/
theorem walk_ahead (wellFormed : map.WellFormed) (limit : Nat) (stands : map.Stands cursor last)
    (present : cursor.epoch = map.epoch) (enough : (map.ahead last).length < limit) :
    ∃ ended, (Store.hashed map).walk limit (.hashed cursor) =
        .ok ((map.slots.records () ((map.ahead last).map (·.2.tag))).map Record.pair, ended) ∧
      ended.isFinished = true := by
  induction limit generalizing cursor last with
  | zero => omega
  | succ limit ih =>
    cases reached : map.ahead last with
    | nil =>
      obtain ⟨ended, stepped, _⟩ := advance_ended wellFormed stands present reached
      refine ⟨.hashed ended.stop, ?_, rfl⟩
      simp only [Engine.walk, Store.advance, stepped, bind, Except.bind, pure, Except.pure]
      rfl
    | cons item rest =>
      obtain ⟨value, live⟩ := wellFormed.live_of_ahead reached
      obtain ⟨moved, stepped, epoch, standing⟩ := advance_reached wellFormed stands present reached live
      have further := wellFormed.chained.ahead_next reached
      have shorter : (map.ahead (some (placed item))).length < limit := by
        rw [reached, List.length_cons] at enough
        rw [further]
        omega
      obtain ⟨ended, walked, finished⟩ := ih standing (epoch.trans present) shorter
      refine ⟨ended, ?_, finished⟩
      rw [further] at walked
      have head : map.slots.get? item.2.tag.handle = some value := live
      simp only [Engine.walk, Store.advance, stepped, bind, Except.bind, pure, Except.pure,
        Option.isSome_some, if_true, walked, List.map_cons, Slots.records_cons head]
      rfl

/-- A fresh cursor on a map that stays as it is returns every entry, by bucket and along each chain. -/
theorem entries_eq (wellFormed : map.WellFormed) :
    (Store.hashed map).entries none =
      .ok ((map.slots.records () (map.links.map Link.tag)).map Record.pair) := by
  have whole : (map.ahead none).map (·.2.tag) = map.links.map Link.tag := by
    rw [ahead_none, ← map_snd_lineup, List.map_map]
    rfl
  have enough : (map.ahead none).length < map.size + 1 := by
    rw [wellFormed.size_eq, ← map_snd_lineup, List.length_map, ahead_none]
    omega
  obtain ⟨ended, walked, _⟩ := walk_ahead wellFormed (map.size + 1) (stands_start map) rfl enough
  rw [whole] at walked
  simp only [Engine.entries, Option.getD_none, Store.size, Store.start, walked, bind, Except.bind]
  rfl

/-! ### A cursor that may be late -/

/-- A step of a cursor is answered, and leaves it in the map unless it ends. -/
theorem Stands.advance_answers (stands : map.Stands cursor last) (wellFormed : map.WellFormed) :
    ∃ found moved, map.advance cursor = .ok (found, moved) ∧ moved.owner = cursor.owner ∧
      (found.isSome = true → ∃ place, map.Stands moved place) := by
  by_cases present : cursor.epoch = map.epoch
  · cases reached : map.ahead last with
    | nil =>
      obtain ⟨ended, stepped, _, owner⟩ := advance_ended wellFormed stands present reached
      exact ⟨none, ended, stepped, owner, nofun⟩
    | cons item rest =>
      obtain ⟨value, live⟩ := wellFormed.live_of_ahead reached
      obtain ⟨moved, stepped, _, standing⟩ := advance_reached wellFormed stands present reached live
      exact ⟨_, moved, stepped, standing.owned.trans stands.owned.symm, fun _ => ⟨_, standing⟩⟩
  · exact ⟨none, cursor.stop, advance_outdated stands present, rfl, nofun⟩

/-- One step more than there are entries takes any cursor to its end. -/
theorem Stands.drain_ends (stands : map.Stands cursor last) (wellFormed : map.WellFormed) :
    ∃ found ended, (Store.hashed map).drain (.hashed cursor) = .ok (found, ended) ∧
      ended.isFinished = true := by
  by_cases present : cursor.epoch = map.epoch
  · have enough : (map.ahead last).length < map.size + 1 := by
      have bound : (map.ahead last).length ≤ map.lineup.length := List.length_filter_le _ _
      rw [wellFormed.size_eq, ← map_snd_lineup, List.length_map]
      omega
    obtain ⟨ended, walked, finished⟩ := walk_ahead wellFormed (map.size + 1) stands present enough
    exact ⟨_, ended, walked, finished⟩
  · refine ⟨[], .hashed cursor.stop, ?_, rfl⟩
    simp only [Engine.drain, Engine.walk, Store.advance, advance_outdated stands present, bind, Except.bind,
      pure, Except.pure]
    rfl

end HashedMap

end KeyedStore
