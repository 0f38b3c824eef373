import KeyedStore.HashedMap.Threaded
import KeyedStore.Proofs.HashedMap.Changes
/-!
How a chain of links lies in the entries of a threaded map. Each entry of the chain names its neighbours,
the first none before it and the last none after it, and the bucket names the first and the last. A chain
comes apart at any place into a front that leads on to a handle and a back that follows one; a change of
what comes next, or of what comes before, mends one of the two and leaves the other alone. Appending and
unlinking are such changes, wherever in the chain they happen.
-/
namespace KeyedStore

variable {K V : Type}

namespace Chain

/-- The handle of the first link. -/
def head (chain : Chain K) : Option Handle := chain.head?.map (·.handle)

/-- The handle of the last link. -/
def last (chain : Chain K) : Option Handle := chain.getLast?.map (·.handle)

def handles (chain : Chain K) : List Handle := chain.map (·.handle)

@[simp] theorem handles_nil : handles ([] : Chain K) = [] := rfl

@[simp] theorem head_cons (link : Link K) (rest : Chain K) : head (link :: rest) = some link.handle := rfl

@[simp] theorem handles_cons (link : Link K) (rest : Chain K) :
    handles (link :: rest) = link.handle :: handles rest := rfl

@[simp] theorem handles_append (front back : Chain K) :
    handles (front ++ back) = handles front ++ handles back :=
  List.map_append

theorem head_append (front back : Chain K) : head (front ++ back) = (head front).or (head back) := by
  cases front <;> rfl

theorem last_append (front back : Chain K) : last (front ++ back) = (last back).or (last front) := by
  simp only [last, List.getLast?_append, Option.map_or]

theorem last_cons (link : Link K) (rest : Chain K) : last (link :: rest) = (last rest).or (some link.handle) :=
  last_append [link] rest

@[simp] theorem last_concat (front : Chain K) (link : Link K) : last (front ++ [link]) = some link.handle := by
  rw [last_append]
  rfl

end Chain

/-- Behind the handle of a link lies its entry, between these neighbours. -/
def Tied (knots : Slots (Knot K V)) (link : Link K) (prev next : Option Handle) : Prop :=
  ∃ value, knots.get? link.handle = some ⟨prev, next, link.hash, link.serial, link.key, value⟩

/-- The links lie in the entries one after the other, following one handle and leading on to another. -/
inductive Strung (knots : Slots (Knot K V)) : Option Handle → Chain K → Option Handle → Prop where
  | nil {prev next : Option Handle} : Strung knots prev [] next
  | cons {prev next : Option Handle} {link : Link K} {rest : Chain K}
      (tied : Tied knots link prev ((Chain.head rest).or next))
      (further : Strung knots (some link.handle) rest next) : Strung knots prev (link :: rest) next

/-- Only the entries of some handles have changed, and none in its value; no handle has come or gone. -/
structure Respun (knots after : Slots (Knot K V)) (handles : List Handle) : Prop where
  elsewhere : ∀ handle, handle ∉ handles → after.get? handle = knots.get? handle
  values : ∀ handle, (after.get? handle).map (·.value) = (knots.get? handle).map (·.value)
  next : after.next = knots.next
  size : after.size = knots.size

namespace Respun

variable {knots middle after : Slots (Knot K V)} {handles more : List Handle}

theorem refl (knots : Slots (Knot K V)) (handles : List Handle) : Respun knots knots handles :=
  ⟨fun _ _ => rfl, fun _ => rfl, rfl, rfl⟩

theorem trans (one : Respun knots middle handles) (two : Respun middle after handles) :
    Respun knots after handles :=
  ⟨fun handle apart => (two.elsewhere handle apart).trans (one.elsewhere handle apart),
    fun handle => (two.values handle).trans (one.values handle), two.next.trans one.next,
    two.size.trans one.size⟩

theorem mono (respun : Respun knots after handles) (subset : handles ⊆ more) : Respun knots after more :=
  ⟨fun handle apart => respun.elsewhere handle fun member => apart (subset member), respun.values,
    respun.next, respun.size⟩

end Respun

/-! ### Pieces of chains -/

section Pieces

variable {knots after : Slots (Knot K V)} {prev next : Option Handle} {link : Link K} {chain front back : Chain K}

/-- A piece of a chain depends on nothing but the ties of its links. -/
theorem Strung.imp (strung : Strung knots prev chain next)
    (kept : ∀ link ∈ chain, ∀ prev next, Tied knots link prev next → Tied after link prev next) :
    Strung after prev chain next := by
  induction strung with
  | nil => exact .nil
  | cons tied further ih =>
    rw [List.forall_mem_cons] at kept
    exact .cons (kept.1 _ _ tied) (ih kept.2)

theorem Strung.congr (strung : Strung knots prev chain next)
    (kept : ∀ handle ∈ Chain.handles chain, after.get? handle = knots.get? handle) :
    Strung after prev chain next :=
  strung.imp fun _ member _ _ ⟨value, held⟩ => ⟨value, (kept _ (List.mem_map_of_mem member)).trans held⟩

theorem Strung.respun (strung : Strung knots prev chain next) {handles : List Handle}
    (respun : Respun knots after handles) (apart : ∀ handle ∈ Chain.handles chain, handle ∉ handles) :
    Strung after prev chain next :=
  strung.congr fun handle member => respun.elsewhere handle (apart handle member)

theorem strung_cons : Strung knots prev (link :: chain) next ↔
    Tied knots link prev ((Chain.head chain).or next) ∧ Strung knots (some link.handle) chain next := by
  constructor
  · intro strung
    cases strung with
    | cons tied further => exact ⟨tied, further⟩
  · exact fun ⟨tied, further⟩ => .cons tied further

/-- The first link of a chain that ends here is tied to the one behind it. -/
theorem Strung.first (strung : Strung knots prev (link :: chain) none) :
    Tied knots link prev (Chain.head chain) ∧ Strung knots (some link.handle) chain none := by
  have first := strung_cons.mp strung
  rwa [Option.or_none] at first

/-- A search along a chain ends at the first link that answers it. -/
theorem Strung.search_eq {act : Option Handle → Handle → Except Fault (Option Handle × Option Handle)}
    {answers : Link K → Bool} {limit : Nat} (strung : Strung knots prev chain none) (enough : chain.length ≤ limit)
    (acts : ∀ link prev next, Tied knots link prev next →
      act none link.handle = .ok (if answers link then (none, some link.handle) else (next, none))) :
    wander act limit (Chain.head chain) none = .ok ((chain.find? answers).map (·.handle)) := by
  induction chain generalizing limit prev with
  | nil => exact wander_none _ _ _
  | cons link rest ih =>
    obtain ⟨limit, rfl⟩ := Nat.exists_eq_add_one.mpr (Nat.zero_lt_of_lt enough)
    obtain ⟨tied, further⟩ := strung.first
    have acted := acts link prev _ tied
    rw [Chain.head_cons]
    by_cases answer : answers link = true
    · rw [if_pos answer] at acted
      rw [List.find?_cons_of_pos answer, wander_step acted]
      exact wander_none _ _ _
    · rw [if_neg answer] at acted
      rw [List.find?_cons_of_neg answer, wander_step acted]
      exact ih further (Nat.le_of_succ_le_succ enough)

theorem strung_append : Strung knots prev (front ++ back) next ↔
    Strung knots prev front ((Chain.head back).or next) ∧
      Strung knots ((Chain.last front).or prev) back next := by
  induction front generalizing prev with
  | nil => exact ⟨fun strung => ⟨.nil, strung⟩, And.right⟩
  | cons link front ih =>
    have between : (Chain.last (link :: front)).or prev = (Chain.last front).or (some link.handle) := by
      rw [Chain.last_cons, Option.or_assoc, Option.some_or]
    rw [List.cons_append, strung_cons, strung_cons, ih, Chain.head_append, Option.or_assoc, between, and_assoc]

/-- Every link of a chain is tied to its neighbours in the chain. -/
theorem Strung.tied (strung : Strung knots none (front ++ link :: back) none) :
    Tied knots link (Chain.last front) (Chain.head back) := by
  have tied := (strung_append.mp strung).2.first.1
  rwa [Option.or_none] at tied

end Pieces

namespace ThreadedMap

variable {map linked after : ThreadedMap K V} {bucket : Nat} {prev next : Option Handle}
  {chain front back : Chain K} {link : Link K} {handle : Handle} {handles more : List Handle} {knot : Knot K V}

/-- What the bucket says its chain begins with. -/
def headAt (map : ThreadedMap K V) (bucket : Nat) : Option (Option Handle) := map.ends[bucket]?.map (·.head)

/-- What the bucket says its chain ends with. -/
def tailAt (map : ThreadedMap K V) (bucket : Nat) : Option (Option Handle) := map.ends[bucket]?.map (·.tail)

/-- The first part of the chain of a bucket, leading on to a handle. -/
structure Fronted (map : ThreadedMap K V) (bucket : Nat) (front : Chain K) (next : Option Handle) : Prop where
  strung : Strung map.knots none front next
  head : map.headAt bucket = some ((Chain.head front).or next)

/-- The last part of the chain of a bucket, following a handle. -/
structure Backed (map : ThreadedMap K V) (bucket : Nat) (prev : Option Handle) (back : Chain K) : Prop where
  strung : Strung map.knots prev back none
  tail : map.tailAt bucket = some ((Chain.last back).or prev)

/-- The whole chain of a bucket. -/
structure Laid (map : ThreadedMap K V) (bucket : Nat) (chain : Chain K) : Prop where
  strung : Strung map.knots none chain none
  head : map.headAt bucket = some (Chain.head chain)
  tail : map.tailAt bucket = some (Chain.last chain)

/-- Where a chain lies there are buckets. -/
theorem Laid.placeOf_eq (laid : map.Laid bucket chain) {hash : UInt64} (place : map.bucketOf hash = bucket) :
    map.placeOf hash = .ok bucket := by
  obtain ⟨ends, held, _⟩ := Option.map_eq_some_iff.mp laid.head
  have within : bucket < map.bucketCount := (Array.getElem?_eq_some_iff.mp held).1
  rw [placeOf, if_neg (Nat.ne_of_gt (Nat.zero_lt_of_lt within)), place]

/-- A chain is a front that leads on to the back, and a back that follows the front. -/
theorem laid_append : map.Laid bucket (front ++ back) ↔
    map.Fronted bucket front (Chain.head back) ∧ map.Backed bucket (Chain.last front) back := by
  constructor
  · rintro ⟨strung, head, tail⟩
    rw [strung_append, Option.or_none, Option.or_none] at strung
    rw [Chain.head_append] at head
    rw [Chain.last_append] at tail
    exact ⟨⟨strung.1, head⟩, ⟨strung.2, tail⟩⟩
  · rintro ⟨⟨first, head⟩, ⟨second, tail⟩⟩
    refine ⟨?_, ?_, ?_⟩
    · rw [strung_append, Option.or_none, Option.or_none]
      exact ⟨first, second⟩
    · rw [head, Chain.head_append]
    · rw [tail, Chain.last_append]

/-- Nothing has changed but the chain of one bucket, in the entries of some handles and in its ends. -/
structure Retied (map : ThreadedMap K V) (bucket : Nat) (handles : List Handle) (after : ThreadedMap K V) :
    Prop where
  frame : after = { map with ends := after.ends, knots := after.knots }
  respun : Respun map.knots after.knots handles
  bucketCount : after.bucketCount = map.bucketCount
  ends : ∀ place, place ≠ bucket → after.ends[place]? = map.ends[place]?

namespace Retied

theorem trans (one : map.Retied bucket handles linked) (two : linked.Retied bucket handles after) :
    map.Retied bucket handles after := by
  refine ⟨?_, one.respun.trans two.respun, two.bucketCount.trans one.bucketCount, ?_⟩
  · rw [two.frame, one.frame]
  · exact fun place other => (two.ends place other).trans (one.ends place other)

theorem mono (retied : map.Retied bucket handles after) (subset : handles ⊆ more) :
    map.Retied bucket more after :=
  ⟨retied.frame, retied.respun.mono subset, retied.bucketCount, retied.ends⟩

/-- The chains of other buckets lie where they lay. -/
theorem laid (retied : map.Retied bucket handles after) {place : Nat} (laid : map.Laid place chain)
    (other : place ≠ bucket) (apart : ∀ handle ∈ Chain.handles chain, handle ∉ handles) :
    after.Laid place chain := by
  have same := retied.ends place other
  refine ⟨laid.strung.respun retied.respun apart, ?_, ?_⟩
  · rw [headAt, same]
    exact laid.head
  · rw [tailAt, same]
    exact laid.tail

end Retied

/-! ### Changes of one entry and of the ends of one bucket -/

theorem retie_ends (held : map.knots.get? handle = some knot) (change : Knot K V → Knot K V)
    (value : (change knot).value = knot.value) (bucket : Nat) :
    ∃ after, map.retie handle change = .ok after ∧ after.knots.get? handle = some (change knot) ∧
      after.ends = map.ends ∧ map.Retied bucket [handle] after := by
  obtain ⟨knots, done⟩ := Slots.replace_of_get? held (change knot)
  have view := Slots.get?_replace done
  refine ⟨{ map with knots := knots }, ?_, ?_, rfl, rfl, ⟨?_, ?_, ?_, ?_⟩, rfl, fun _ _ => rfl⟩
  · simp only [retie, Slots.fetch, held, done, bind, Except.bind, pure, Except.pure]
  · rw [view, if_pos rfl]
  · intro other apart
    rw [view, if_neg (by simpa using apart)]
  · intro other
    rw [view]
    split
    · rename_i same
      rw [same, held, Option.map_some, Option.map_some, value]
    · rfl
  · exact Slots.next_replace done
  · exact Slots.size_replace done

theorem setEnds_ends {ends : ChainEnds} (held : map.ends[bucket]? = some ends) (change : ChainEnds → ChainEnds) :
    ∃ after, map.setEnds bucket change = .ok after ∧ after.ends[bucket]? = some (change ends) ∧
      after.knots = map.knots ∧ map.Retied bucket [] after := by
  have within := (Array.getElem?_eq_some_iff.mp held).1
  refine ⟨{ map with ends := map.ends.setIfInBounds bucket (change ends) }, ?_, ?_, rfl, rfl,
    .refl map.knots [], Array.size_setIfInBounds, ?_⟩
  · simp only [setEnds, endsOf, held, bind, Except.bind, pure, Except.pure]
  · rw [Array.getElem?_setIfInBounds_self_of_lt within]
  · intro place other
    rw [Array.getElem?_setIfInBounds_ne (Ne.symm other)]

/-- What comes next is written at the end of a front, which then leads on to it. -/
theorem linkNext_ends (fronted : map.Fronted bucket front next) (nodup : (Chain.handles front).Nodup)
    (other : Option Handle) :
    ∃ after, map.linkNext bucket (Chain.last front) other = .ok after ∧ after.Fronted bucket front other ∧
      after.tailAt bucket = map.tailAt bucket ∧ map.Retied bucket (Chain.handles front) after := by
  -- An empty front ends at the bucket itself, any other at its last entry.
  rcases List.eq_nil_or_concat front with rfl | ⟨init, link, rfl⟩
  · obtain ⟨ends, held, head⟩ := Option.map_eq_some_iff.mp fronted.head
    obtain ⟨after, done, changed, _, retied⟩ := setEnds_ends held ({ · with head := other })
    refine ⟨after, done, ⟨.nil, ?_⟩, ?_, retied⟩
    · rw [headAt, changed]
      rfl
    · rw [tailAt, tailAt, changed, held]
      rfl
  · rw [List.concat_eq_append] at fronted nodup ⊢
    obtain ⟨strung, head⟩ := fronted
    obtain ⟨before, single⟩ := strung_append.mp strung
    obtain ⟨⟨value, held⟩, _⟩ := strung_cons.mp single
    obtain ⟨after, done, changed, ends, retied⟩ := retie_ends held ({ · with next := other }) rfl bucket
    rw [Chain.handles_append] at nodup
    have apart : ∀ handle ∈ Chain.handles init, handle ∉ [link.handle] :=
      fun handle member single => (List.nodup_append.mp nodup).2.2 handle member handle single rfl
    refine ⟨after, ?_, ⟨strung_append.mpr ⟨?_, strung_cons.mpr ⟨⟨value, changed⟩, .nil⟩⟩, ?_⟩, ?_,
      retied.mono (by simp)⟩
    · rw [Chain.last_concat]
      exact done
    · exact before.respun retied.respun apart
    · rw [headAt, ends]
      simpa [Chain.head_append, headAt] using head
    · rw [tailAt, tailAt, ends]

/-- What comes before is written at the beginning of a back, which then follows it. -/
theorem linkPrev_ends (backed : map.Backed bucket prev back) (nodup : (Chain.handles back).Nodup)
    (other : Option Handle) :
    ∃ after, map.linkPrev bucket (Chain.head back) other = .ok after ∧ after.Backed bucket other back ∧
      after.headAt bucket = map.headAt bucket ∧ map.Retied bucket (Chain.handles back) after := by
  cases back with
  | nil =>
    obtain ⟨ends, held, tail⟩ := Option.map_eq_some_iff.mp backed.tail
    obtain ⟨after, done, changed, _, retied⟩ := setEnds_ends held ({ · with tail := other })
    refine ⟨after, done, ⟨.nil, ?_⟩, ?_, retied⟩
    · rw [tailAt, changed]
      rfl
    · rw [headAt, headAt, changed, held]
      rfl
  | cons link rest =>
    obtain ⟨strung, tail⟩ := backed
    obtain ⟨⟨value, held⟩, further⟩ := strung_cons.mp strung
    obtain ⟨after, done, changed, ends, retied⟩ := retie_ends held ({ · with prev := other }) rfl bucket
    have apart : ∀ handle ∈ Chain.handles rest, handle ∉ [link.handle] := by
      intro handle member single
      rw [List.mem_singleton.mp single] at member
      exact (List.nodup_cons.mp nodup).1 member
    refine ⟨after, done, ⟨.cons ⟨value, changed⟩ (further.respun retied.respun apart), ?_⟩, ?_,
      retied.mono (by simp)⟩
    · rw [tailAt, ends]
      simpa [Chain.last_cons, Option.or_assoc, tailAt] using tail
    · rw [headAt, headAt, ends]

/-! ### Appending and unlinking -/

theorem Laid.unlink_ends (laid : map.Laid bucket (front ++ link :: back))
    (nodup : (Chain.handles (front ++ link :: back)).Nodup) (place : map.bucketOf link.hash = bucket) :
    ∃ after, map.unlink link.handle = .ok after ∧ after.Laid bucket (front ++ back) ∧
      map.Retied bucket (Chain.handles (front ++ back)) after := by
  obtain ⟨value, held⟩ := laid.strung.tied
  obtain ⟨fronted, backed⟩ := laid_append.mp laid
  simp only [Chain.handles_append, Chain.handles_cons] at nodup
  obtain ⟨first, second, across⟩ := List.nodup_append.mp nodup
  obtain ⟨linked, one, joined, tail, retied⟩ := linkNext_ends fronted first (Chain.head back)
  -- The back is untouched by the first write, but still follows the entry that goes.
  have opened : linked.Backed bucket (some link.handle) back := by
    refine ⟨backed.strung.first.2.respun retied.respun ?_, ?_⟩
    · exact fun handle member within => across handle within handle (List.mem_cons_of_mem _ member) rfl
    · rw [tail, backed.tail, Chain.last_cons, Option.or_assoc, Option.some_or]
  obtain ⟨after, two, closed, head, mended⟩ :=
    linkPrev_ends opened (List.nodup_cons.mp second).2 (Chain.last front)
  have kept : after.Fronted bucket front (Chain.head back) := by
    refine ⟨joined.strung.respun mended.respun ?_, head.trans joined.head⟩
    exact fun handle member within => across handle member handle (List.mem_cons_of_mem _ within) rfl
  refine ⟨after, ?_, laid_append.mpr ⟨kept, closed⟩, ?_⟩
  · simp only [unlink, Slots.fetch, held, laid.placeOf_eq place, one, two, bind, Except.bind]
  · rw [Chain.handles_append]
    exact (retied.mono (List.subset_append_left _ _)).trans (mended.mono (List.subset_append_right _ _))

theorem Laid.append_ends (laid : map.Laid bucket chain) (nodup : (handle :: Chain.handles chain).Nodup)
    (held : map.knots.get? handle = some knot) (place : map.bucketOf knot.hash = bucket) :
    ∃ after, map.append handle = .ok after ∧
      after.Laid bucket (chain ++ [⟨handle, knot.key, knot.hash, map.nextSerial⟩]) ∧
      Retied { map with nextSerial := map.nextSerial + 1 } bucket (handle :: Chain.handles chain) after := by
  obtain ⟨fresh, inner⟩ := List.nodup_cons.mp nodup
  obtain ⟨ends, there, tail⟩ := Option.map_eq_some_iff.mp laid.tail
  obtain ⟨placed, one, changed, same, written⟩ :=
    retie_ends (show ({ map with nextSerial := map.nextSerial + 1 } : ThreadedMap K V).knots.get? handle =
      some knot from held) ({ · with prev := ends.tail, next := none, serial := map.nextSerial }) rfl bucket
  have fronted : placed.Fronted bucket chain none := by
    refine ⟨laid.strung.respun written.respun ?_, ?_⟩
    · intro other member single
      exact fresh (List.mem_singleton.mp single ▸ member)
    · rw [headAt, same, Option.or_none]
      exact laid.head
  obtain ⟨linked, two, joined, kept, retied⟩ := linkNext_ends fronted inner (some handle)
  have backed : linked.Backed bucket (Chain.last chain) [] := by
    refine ⟨.nil, ?_⟩
    rw [kept, tailAt, same]
    exact laid.tail
  obtain ⟨after, three, closed, head, mended⟩ := linkPrev_ends backed .nil (some handle)
  -- The new entry lies outside the front, so what was written to it first is still there.
  have tied : Tied after.knots ⟨handle, knot.key, knot.hash, map.nextSerial⟩ (Chain.last chain) none := by
    refine ⟨knot.value, ?_⟩
    rw [mended.respun.elsewhere handle (by simp), retied.respun.elsewhere handle fresh, changed, tail]
  refine ⟨after, ?_, laid_append.mpr ⟨⟨?_, head.trans joined.head⟩, ⟨?_, closed.tail⟩⟩, ?_⟩
  · simp only [append, Slots.fetch, held, laid.placeOf_eq place, endsOf, there, one, bind, Except.bind]
    rw [tail, two]
    exact three
  · exact joined.strung.respun mended.respun (by simp)
  · exact .cons tied .nil
  · exact ((written.mono (by simp)).trans (retied.mono (List.subset_cons_self _ _))).trans
      (mended.mono (List.nil_subset _))

end ThreadedMap

end KeyedStore
