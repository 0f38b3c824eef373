import KeyedStore.Proofs.HashedMap.Refinement
import KeyedStore.Proofs.HashedMap.Layout
/-!
A threaded map goes in step with the map of chains that it lays out. Every operation of the one, done on
handles, does what the operation of the other does to the chains, and answers the same. A rebuilding walks
the old chains through the entries that it writes to: what is left of them still lies as it did, beside the
chains that are filled so far. Where the memory for a rebuilding is refused both stay as they are.
-/
namespace KeyedStore

variable {K V : Type}

namespace ThreadedMap

variable {threaded after : ThreadedMap K V} {map : HashedMap K V} {link : Link K} {bucket : Nat}
  {chain other : Chain K}

/-- Empty buckets lay out empty chains. -/
theorem laid_of_bare {count : Nat} (bare : threaded.ends = Array.replicate count {})
    (held : (Array.replicate count ([] : Chain K))[bucket]? = some chain) : threaded.Laid bucket chain := by
  rw [Array.getElem?_replicate] at held
  split at held
  · rename_i within
    obtain rfl := Option.some.inj held
    refine ⟨.nil, ?_, ?_⟩
    · rw [headAt, bare, Array.getElem?_replicate, if_pos within]
      rfl
    · rw [tailAt, bare, Array.getElem?_replicate, if_pos within]
      rfl
  · cases held

namespace Lays

/-! ### The chain of one bucket -/

/-- One chain is laid anew, over entries that were its own or nobody's. -/
theorem replace_chain {next : Nat} {handles : List Handle} (lays : threaded.Lays map) (chained : map.Chained)
    (nodup : (Chain.handles map.links).Nodup) (held : map.buckets[bucket]? = some chain)
    (retied : Retied { threaded with nextSerial := next } bucket handles after)
    (own : ∀ handle ∈ Chain.handles map.links, handle ∈ handles → handle ∈ Chain.handles chain)
    (laid : after.Laid bucket other) :
    after.Lays { map with buckets := map.buckets.setIfInBounds bucket other, nextSerial := next } := by
  refine ⟨?_, ?_, ?_, lays.carries.respun retied.respun⟩
  · refine retied.frame.trans ?_
    rw [lays.frame]
    rfl
  · exact retied.bucketCount.trans (lays.bucketCount.trans Array.size_setIfInBounds.symm)
  · intro place found there
    by_cases same : place = bucket
    · subst same
      have within := (Array.getElem?_eq_some_iff.mp held).1
      rw [Array.getElem?_setIfInBounds_self_of_lt within] at there
      exact Option.some.inj there ▸ laid
    · rw [Array.getElem?_setIfInBounds_ne (Ne.symm same)] at there
      have before : Laid { threaded with nextSerial := next } place found :=
        ⟨(lays.laid place found there).strung, (lays.laid place found there).head,
          (lays.laid place found there).tail⟩
      refine retied.laid before same fun handle member touched => ?_
      exact chained.chains_apart nodup held there same handle member
        (own handle ((HashedMap.chain_sublist there).map _ |>.subset member) touched)

/-- Appending an entry attaches its link. -/
theorem append_ends {knot : Knot K V} (lays : threaded.Lays map) (chained : map.Chained)
    (nodup : (link.handle :: Chain.handles map.links).Nodup)
    (held : threaded.knots.get? link.handle = some knot) (hash : knot.hash = link.hash)
    (key : knot.key = link.key) :
    ∃ after longer, threaded.append link.handle = .ok after ∧ map.attach link = .ok longer ∧
      after.Lays longer ∧ map.Extended [link] longer ∧
      Respun threaded.knots after.knots (link.handle :: Chain.handles map.links) := by
  obtain ⟨fresh, inner⟩ := List.nodup_cons.mp nodup
  obtain ⟨chain, there, found⟩ := chained.chainOf_eq link.hash
  obtain ⟨longer, attached, extended⟩ := HashedMap.attach_ends chained link
  have inside : Chain.handles chain ⊆ Chain.handles map.links :=
    ((HashedMap.chain_sublist there).map _).subset
  have alone : (link.handle :: Chain.handles chain).Nodup :=
    List.nodup_cons.mpr ⟨fun member => fresh (inside member), HashedMap.chain_nodup inner there⟩
  have place : threaded.bucketOf knot.hash = HashedMap.bucketIndex link.hash map.bucketCount := by
    rw [lays.bucketOf_eq, hash]
  obtain ⟨after, done, laid, retied⟩ := (lays.laid _ chain there).append_ends alone held place
  refine ⟨after, longer, done, attached, ?_, extended, retied.respun.mono (List.cons_subset_cons _ inside)⟩
  simp only [HashedMap.attach, found, bind, Except.bind, pure, Except.pure] at attached
  obtain rfl := Except.ok.inj attached
  rw [lays.nextSerial_eq, hash, key] at laid
  rw [lays.nextSerial_eq] at retied
  refine lays.replace_chain chained inner there retied ?_ laid
  intro handle member touched
  rcases List.mem_cons.mp touched with rfl | within
  · exact absurd member fresh
  · exact within

/-- Unlinking an entry detaches its link. -/
theorem unlink_ends (lays : threaded.Lays map) (wellFormed : map.WellFormed) (member : link ∈ map.links) :
    ∃ after shorter, threaded.unlink link.handle = .ok after ∧ map.detach link = .ok shorter ∧
      after.Lays shorter ∧ map.Detached link shorter := by
  have chained := wellFormed.chained
  obtain ⟨bucket, chain, there, inside⟩ := HashedMap.mem_links.mp member
  have place := chained.housed bucket chain there link inside
  obtain ⟨shorter, detached, ends⟩ := HashedMap.detach_ends chained wellFormed.inUse.nodup member
  obtain ⟨front, back, rfl⟩ := List.append_of_mem inside
  have nodup : (Chain.handles (front ++ link :: back)).Nodup := HashedMap.chain_nodup wellFormed.inUse.nodup there
  obtain ⟨after, done, laid, retied⟩ :=
    (lays.laid bucket _ there).unlink_ends nodup ((lays.bucketOf_eq _).trans place)
  refine ⟨after, shorter, done, detached, ?_, ends⟩
  have erased : (front ++ link :: back).eraseP (·.handle = link.handle) = front ++ back := by
    rw [Chain.handles_append] at nodup
    rw [List.eraseP_append_right, List.eraseP_cons_of_pos (by simp)]
    intro other early
    simpa using (List.nodup_append.mp nodup).2.2 _ (List.mem_map_of_mem early) _ List.mem_cons_self
  simp only [HashedMap.detach, HashedMap.chainOf, place, there, erased, bind, Except.bind, pure,
    Except.pure] at detached
  obtain rfl := Except.ok.inj detached
  have numbered : Retied { threaded with nextSerial := map.nextSerial } bucket
      (Chain.handles (front ++ back)) after := by
    rw [← lays.nextSerial_eq]
    exact retied
  refine lays.replace_chain chained wellFormed.inUse.nodup there numbered ?_ laid
  intro handle _ touched
  exact (((List.sublist_cons_self link back).append_left front).map _).subset touched

/-- The entries are changed, but the links keep their ties. -/
theorem restock {knots : Slots (Knot K V)} {slots : Slots (Held V)} (lays : threaded.Lays map)
    (carries : Carries knots slots)
    (kept : ∀ link ∈ map.links, ∀ prev next, Tied threaded.knots link prev next → Tied knots link prev next) :
    Lays { threaded with knots := knots } { map with slots := slots } := by
  refine ⟨?_, lays.bucketCount, ?_, carries⟩
  · rw [lays.frame]
    rfl
  · intro bucket chain held
    obtain ⟨strung, head, tail⟩ := lays.laid bucket chain held
    exact ⟨strung.imp fun link member => kept link (HashedMap.mem_links.mpr ⟨bucket, chain, held, member⟩),
      head, tail⟩

/-- Numbers that only count have nothing to do with the chains. -/
theorem recount {transactions epoch counted reached : Nat} (lays : threaded.Lays map)
    (one : transactions = counted) (two : epoch = reached) :
    Lays { threaded with transactions := transactions, epoch := epoch }
      { map with transactions := counted, epoch := reached } := by
  subst one two
  refine ⟨?_, lays.bucketCount, ?_, lays.carries⟩
  · rw [lays.frame]
    rfl
  · intro bucket chain held
    obtain ⟨strung, head, tail⟩ := lays.laid bucket chain held
    exact ⟨strung, head, tail⟩

theorem bare {knots : Slots (Knot K V)} {slots : Slots (Held V)} (lays : threaded.Lays map)
    (carries : Carries knots slots) (rung : Rung) (count : Nat) :
    Lays { threaded with rung := rung, ends := Array.replicate count {}, knots := knots }
      { map with rung := rung, buckets := Array.replicate count [], slots := slots } := by
  refine ⟨?_, Array.size_replicate.trans Array.size_replicate.symm, fun _ _ => laid_of_bare rfl, carries⟩
  rw [lays.frame]
  rfl

end Lays

/-! ### Rebuilding -/

/-- What is ahead of a sweep over the chains: the rest of one of them and the later ones, which lie in the
entries as they did before it began. -/
structure Ahead (knots : Slots (Knot K V)) (prev : Option Handle) (rest : Chain K) (later : List (Chain K)) :
    Prop where
  nodup : (Chain.handles (rest ++ later.flatten)).Nodup
  strung : Strung knots prev rest none
  waiting : ∀ chain ∈ later, Strung knots none chain none

namespace Ahead

variable {knots changed : Slots (Knot K V)} {prev : Option Handle} {rest : Chain K} {later : List (Chain K)}

/-- The entry of the link that is next. -/
theorem held (ahead : Ahead knots prev (link :: rest) later) :
    ∃ value, knots.get? link.handle =
      some ⟨prev, Chain.head rest, link.hash, link.serial, link.key, value⟩ :=
  ahead.strung.first.1

/-- One entry on, if what is behind it has not been touched. -/
theorem tail (ahead : Ahead knots prev (link :: rest) later)
    (kept : ∀ handle ∈ Chain.handles (rest ++ later.flatten), changed.get? handle = knots.get? handle) :
    Ahead changed (some link.handle) rest later := by
  refine ⟨(List.nodup_cons.mp ahead.nodup).2, ?_, ?_⟩
  · refine ahead.strung.first.2.congr fun handle member => kept handle ?_
    rw [Chain.handles_append]
    exact List.mem_append_left _ member
  · intro chain member
    refine (ahead.waiting chain member).congr fun handle inside => kept handle ?_
    obtain ⟨link, within, rfl⟩ := List.mem_map.mp inside
    exact List.mem_map_of_mem (List.mem_append_right _ (List.mem_flatten.mpr ⟨chain, member, within⟩))

/-- The end of one chain is the beginning of the next. -/
theorem turn (ahead : Ahead knots prev [] (chain :: later)) : Ahead knots none chain later where
  nodup := ahead.nodup
  strung := ahead.waiting chain List.mem_cons_self
  waiting other member := ahead.waiting other (List.mem_cons_of_mem chain member)

end Ahead

/-- Before a sweep all chains are ahead. -/
theorem Lays.ahead (lays : threaded.Lays map) (wellFormed : map.WellFormed) :
    Ahead threaded.knots none [] map.buckets.toList := by
  refine ⟨wellFormed.inUse.nodup, .nil, ?_⟩
  intro chain member
  obtain ⟨bucket, held⟩ := Array.mem_iff_getElem?.mp (Array.mem_def.mpr member)
  exact (lays.laid bucket chain held).strung

/-- In the middle of a rebuilding: the entries that were appended lay out this map, and attaching the links
that are ahead fills the map. -/
structure Moving (filled : HashedMap K V) (threaded : ThreadedMap K V) (rest : Chain K)
    (later : List (Chain K)) (map : HashedMap K V) (prev : Option Handle) : Prop where
  lays : threaded.Lays map
  chained : map.Chained
  apart : (Chain.handles (map.links ++ (rest ++ later.flatten))).Nodup
  ahead : Ahead threaded.knots prev rest later
  leads : (rest ++ later.flatten).foldlM HashedMap.attach map = .ok filled

/-- The next entry of an old chain is appended. The entries behind it are not touched. -/
theorem Moving.step {filled : HashedMap K V} {rest : Chain K} {later : List (Chain K)} {prev : Option Handle}
    (moving : Moving filled threaded (link :: rest) later map prev) :
    ∃ after longer, threaded.transfer link.handle = .ok (Chain.head rest, after) ∧
      Moving filled after rest later longer (some link.handle) := by
  obtain ⟨lays, chained, apart, ahead, leads⟩ := moving
  obtain ⟨value, held⟩ := ahead.held
  -- The next entry moves from what is ahead to what is filled; the two go on sharing no handle.
  have split : (Chain.handles (link :: map.links ++ (rest ++ later.flatten))).Nodup :=
    (List.perm_middle.map _).nodup_iff.mp apart
  rw [Chain.handles_append] at split
  obtain ⟨alone, _, across⟩ := List.nodup_append.mp split
  obtain ⟨after, longer, done, attached, longerLays, extended, respun⟩ :=
    lays.append_ends chained alone held rfl rfl
  refine ⟨after, longer, ?_, longerLays, extended.chained, ?_, ahead.tail ?_, ?_⟩
  · simp only [transfer, Slots.fetch, held, done, bind, Except.bind, pure, Except.pure]
  · have same : (Chain.handles longer.links).Perm (link.handle :: Chain.handles map.links) :=
      extended.handles.trans (List.perm_append_singleton _ _)
    rw [Chain.handles_append]
    exact (same.append_right _).nodup_iff.mpr split
  · exact fun handle member => respun.elsewhere handle fun touched => across handle touched handle member rfl
  · rw [List.cons_append, List.foldlM_cons, attached] at leads
    exact leads

theorem Lays.rebuild_ends (lays : threaded.Lays map) (wellFormed : map.WellFormed) (rung : Rung) :
    ∃ after rebuilt, threaded.rebuild rung = .ok after ∧ map.rebuild rung = .ok rebuilt ∧
      after.Lays rebuilt ∧ rebuilt.WellFormed := by
  obtain ⟨rebuilt, ended, outcome⟩ := HashedMap.rebuild_ends wellFormed rung
  have bare : HashedMap.links { map with rung := rung, buckets := Array.replicate rung.size [] } = [] :=
    HashedMap.links_of_bare rfl
  have chained : HashedMap.Chained { map with rung := rung, buckets := Array.replicate rung.size [] } :=
    HashedMap.chained_of_bare rfl
  obtain ⟨filled, leads, _⟩ := HashedMap.attachAll_ends chained map.links
  have start : Moving filled { threaded with rung := rung, ends := Array.replicate rung.size {} } []
      map.buckets.toList { map with rung := rung, buckets := Array.replicate rung.size [] } none := by
    refine ⟨lays.bare lays.carries rung _, chained, ?_, lays.ahead wellFormed, leads⟩
    rw [bare]
    exact wellFormed.inUse.nodup
  obtain ⟨moved, swept, final, prev, moving⟩ := sweep_ends transfer
    (fun threaded rest later => ∃ map prev, Moving filled threaded rest later map prev)
    (fun threaded link rest later ⟨map, prev, moving⟩ => by
      obtain ⟨after, longer, done, moving⟩ := moving.step
      exact ⟨after, done, longer, _, moving⟩)
    (fun threaded chain later ⟨map, prev, moving⟩ =>
      ⟨map, none, moving.lays, moving.chained, moving.apart, moving.ahead.turn, moving.leads⟩)
    (lays.length_le_of_mem wellFormed) ⟨_, _, start⟩
  obtain rfl : final = filled := Except.ok.inj moving.leads
  simp only [HashedMap.rebuild, leads, bind, Except.bind, pure, Except.pure] at ended
  obtain rfl := Except.ok.inj ended
  refine ⟨_, _, ?_, by simp only [HashedMap.rebuild, leads]; rfl,
    moving.lays.recount (congrArg Nat.succ lays.transactions_eq) (congrArg Nat.succ lays.epoch_eq),
    outcome.wellFormed⟩
  simp only [rebuild, lays.ends_eq, swept, bind, Except.bind, pure, Except.pure]

/-! ### Settling -/

/-- An operation of the threaded map goes through, answers what that of the map of chains answers, and lays out
what that one leaves. -/
def InStep {α : Type} (here : Except Fault (α × ThreadedMap K V))
    (there : Except Fault (α × HashedMap K V)) : Prop :=
  ∃ answer after following, here = .ok (answer, after) ∧ there = .ok (answer, following) ∧
    after.Lays following ∧ following.WellFormed

theorem InStep.along {α : Type} {here : Except Fault (α × ThreadedMap K V)} {there : Except Fault (α × HashedMap K V)}
    (inStep : InStep here there) : Along (fun also done => also.1 = done.1 ∧ also.2.Lays done.2) here there := by
  obtain ⟨answer, after, following, rfl, rfl, laid, _⟩ := inStep
  exact .ok ⟨rfl, laid⟩

theorem Lays.settle_ends (lays : threaded.Lays map) (wellFormed : map.WellFormed) (granted : Bool) :
    ∃ after settled, threaded.settle granted = .ok after ∧ map.settle granted = .ok settled ∧
      after.Lays settled ∧ settled.WellFormed := by
  rw [settle, HashedMap.settle, lays.rung_eq, lays.size_eq]
  cases map.rung.towards? map.size with
  | none => exact ⟨threaded, map, rfl, rfl, lays, wellFormed⟩
  | some rung =>
    cases granted with
    | false => exact ⟨threaded, map, rfl, rfl, lays, wellFormed⟩
    | true => exact lays.rebuild_ends wellFormed rung

/-! ### Operations -/

/-- Attaching a link has nothing to do with the values that are stored. -/
theorem attach_restocked (map : HashedMap K V) (slots : Slots (Held V)) (link : Link K) :
    HashedMap.attach { map with slots := slots } link =
      (fun longer => { longer with slots := slots }) <$> map.attach link := by
  have same : HashedMap.chainOf { map with slots := slots } link.hash = map.chainOf link.hash := rfl
  rw [HashedMap.attach, HashedMap.attach, same]
  cases map.chainOf link.hash <;> rfl

/-- What an addition puts into the entries before it appends the new one. -/
def unplaced (map : ThreadedMap K V) (key : Held K) (value : Held V) : Knot K V where
  prev := none
  next := none
  hash := map.policy.hash key.val
  serial := 0
  key := map.policy.base.secureKey key
  value := map.policy.base.secureValue value

/-- A new entry is appended here and attached there. -/
theorem Lays.grow_ends (lays : threaded.Lays map) (wellFormed : map.WellFormed) (key : Held K) (value : Held V) :
    ∃ after longer, append { threaded with knots := threaded.knots.insert (threaded.unplaced key value) }
        threaded.knots.next = .ok after ∧ map.attach (map.fresh key) = .ok longer ∧
      map.Extended [map.fresh key] longer ∧
      after.Lays { longer with slots := map.slots.insert (map.policy.base.secureValue value) } := by
  obtain ⟨longer, attached, extended⟩ := HashedMap.attach_ends wellFormed.chained (map.fresh key)
  have carries := lays.carries.insert (threaded.unplaced key value)
  have unused := wellFormed.inUse.next_notMem
  have held : (threaded.knots.insert (threaded.unplaced key value)).get? threaded.knots.next =
      some (threaded.unplaced key value) := by
    rw [Slots.get?_insert, if_pos rfl]
  have kept : ∀ link ∈ map.links, ∀ prev next, Tied threaded.knots link prev next →
      Tied (threaded.knots.insert (threaded.unplaced key value)) link prev next := by
    rintro link member prev next ⟨value, tied⟩
    refine ⟨value, ?_⟩
    rw [Slots.get?_insert, if_neg, tied]
    intro same
    rw [lays.carries.next] at same
    exact unused (same ▸ List.mem_map_of_mem member)
  have stocked := lays.restock carries kept
  have handle : (map.fresh key).handle = threaded.knots.next := lays.carries.next.symm
  rw [← handle] at held
  have distinct : ((map.fresh key).handle :: Chain.handles map.links).Nodup :=
    List.nodup_cons.mpr ⟨unused, wellFormed.inUse.nodup⟩
  obtain ⟨after, _, done, also, laid, _⟩ := stocked.append_ends
    (wellFormed.chained.congr rfl rfl rfl) distinct held
    (congrArg (fun policy => policy.hash key.val) lays.policy_eq)
    (congrArg (fun policy => policy.base.secureKey key) lays.policy_eq)
  rw [attach_restocked, attached] at also
  obtain rfl := Except.ok.inj also
  refine ⟨after, longer, handle ▸ done, attached, extended, ?_⟩
  rw [← lays.policy_eq]
  exact laid

/-- Another value is put into the entry of a link. -/
theorem Lays.update_ends (lays : threaded.Lays map) (member : link ∈ map.links) (value : Held V) :
    ∃ after slots, threaded.retie link.handle ({ · with value := value }) = .ok after ∧
      map.slots.replace link.handle value = .ok slots ∧ after.Lays { map with slots := slots } := by
  obtain ⟨prev, next, old, held⟩ := lays.held member
  obtain ⟨knots, slots, one, two, carries⟩ := lays.carries.replace held
    ⟨prev, next, link.hash, link.serial, link.key, value⟩
  refine ⟨{ threaded with knots := knots }, slots, ?_, two, lays.restock carries ?_⟩
  · simp only [retie, Slots.fetch, held, one, bind, Except.bind, pure, Except.pure]
  · rintro other - prev next ⟨kept, tied⟩
    by_cases same : other.handle = link.handle
    · rw [same, held, Option.some.injEq, Knot.mk.injEq] at tied
      obtain ⟨rfl, rfl, hash, serial, key, -⟩ := tied
      exact ⟨value, by rw [Slots.get?_replace one, if_pos same, hash, serial, key]⟩
    · exact ⟨kept, by rw [Slots.get?_replace one, if_neg same, tied]⟩

theorem Lays.insert_inStep (lays : threaded.Lays map) (wellFormed : map.WellFormed) (granted : Bool)
    (key : Held K) (value : Held V) :
    InStep (threaded.insert granted key value) (map.insert key value granted) := by
  have here := lays.find_eq wellFormed key.val
  have there := wellFormed.chained.find_eq key.val
  cases met : map.meant key.val with
  | some link =>
    rw [met] at here there
    cases bars : map.noOverwrite with
    | true =>
      refine ⟨.error .keyExists, threaded, map, ?_, ?_, lays, wellFormed⟩
      · simp [insert, here, lays.noOverwrite_eq, bars, bind, Except.bind, pure, Except.pure]
      · simp [HashedMap.insert, there, bars, bind, Except.bind, pure, Except.pure]
    | false =>
      obtain ⟨after, slots, one, two, laid⟩ :=
        lays.update_ends (List.mem_of_find?_eq_some met) (map.policy.base.secureValue value)
      refine ⟨.ok .updated, after, { map with slots := slots }, ?_, ?_, laid, wellFormed.replace two⟩
      · simp [insert, here, lays.noOverwrite_eq, bars, lays.policy_eq, one, bind, Except.bind, pure, Except.pure]
      · simp [HashedMap.insert, there, bars, two, bind, Except.bind, pure, Except.pure]
  | none =>
    rw [met] at here there
    have full : threaded.knots.isFull = map.slots.isFull := by
      rw [Slots.isFull, Slots.isFull, lays.carries.size]
    cases room : map.slots.isFull with
    | true =>
      refine ⟨.error .noRoom, threaded, map, ?_, ?_, lays, wellFormed⟩
      · simp [insert, here, full, room, bind, Except.bind, pure, Except.pure]
      · simp [HashedMap.insert, there, room, bind, Except.bind, pure, Except.pure]
    | false =>
      obtain ⟨middle, settled, settledDone, same, middleLays, settledKept⟩ := lays.settle_ends wellFormed granted
      obtain ⟨after, longer, done, attached, extended, laid⟩ := middleLays.grow_ends settledKept key value
      have counted : after.transactions = settled.transactions := by
        rw [laid.transactions_eq, extended.frame]
      refine ⟨.ok .inserted, { after with transactions := after.transactions + 1 }, { longer with
        slots := settled.slots.insert (settled.policy.base.secureValue value)
        transactions := settled.transactions + 1 }, ?_, ?_, laid.recount (congrArg Nat.succ counted) laid.epoch_eq,
        HashedMap.wellFormed_longer settledKept _ _ extended⟩
      · unfold unplaced at done
        simp [insert, here, full, room, settledDone, done, bind, Except.bind, pure, Except.pure]
      · unfold HashedMap.fresh at attached
        simp [HashedMap.insert, there, room, same, attached, bind, Except.bind, pure, Except.pure]

/-- The entry of a link is unlinked and taken out. -/
theorem Lays.shrink_ends (lays : threaded.Lays map) (wellFormed : map.WellFormed) (member : link ∈ map.links) :
    ∃ unlinked knot knots shorter slots, threaded.unlink link.handle = .ok unlinked ∧
      unlinked.knots.take link.handle = .ok (knot, knots) ∧ map.detach link = .ok shorter ∧
      map.slots.take link.handle = .ok (knot.value, slots) ∧ map.Detached link shorter ∧
      Lays { unlinked with knots := knots } { shorter with slots := slots } := by
  obtain ⟨unlinked, shorter, done, detached, laid, ends⟩ := lays.unlink_ends wellFormed member
  obtain ⟨value, stored⟩ := wellFormed.inUse.get? (List.mem_map_of_mem member)
  have same : shorter.slots = map.slots := by rw [ends.frame]
  obtain ⟨knot, held, _⟩ := laid.carries.held (same ▸ stored)
  obtain ⟨knots, slots, one, two, carries⟩ := laid.carries.take held
  rw [same] at two
  refine ⟨unlinked, knot, knots, shorter, slots, done, one, detached, two, ends, laid.restock carries ?_⟩
  rintro other within prev next ⟨value, tied⟩
  refine ⟨value, ?_⟩
  rw [Slots.get?_take one, if_neg, tied]
  intro equal
  -- Nothing is left in the chains under the handle that was unlinked.
  obtain ⟨front, back, listed⟩ := List.append_of_mem member
  have nodup := wellFormed.inUse.nodup
  rw [ends.links front back listed] at within
  rw [listed, List.map_append, List.map_cons, List.nodup_middle, ← List.map_append] at nodup
  exact (List.nodup_cons.mp nodup).1 (equal ▸ List.mem_map_of_mem within)

theorem Lays.remove_inStep (lays : threaded.Lays map) (wellFormed : map.WellFormed) (granted : Bool) (key : K) :
    InStep (threaded.remove granted key) (map.remove key granted) := by
  have here := lays.find_eq wellFormed key
  have there := wellFormed.chained.find_eq key
  cases met : map.meant key with
  | none =>
    rw [met] at here there
    refine ⟨none, threaded, map, ?_, ?_, lays, wellFormed⟩
    · simp [remove, here, bind, Except.bind, pure, Except.pure]
    · simp [HashedMap.remove, there, bind, Except.bind, pure, Except.pure]
  | some link =>
    rw [met] at here there
    have member := List.mem_of_find?_eq_some met
    obtain ⟨unlinked, knot, knots, shorter, slots, unlinkDone, one, detachDone, two, detached, laid⟩ :=
      lays.shrink_ends wellFormed member
    have counted : unlinked.transactions + 1 = map.transactions + 1 := by
      rw [show unlinked.transactions = shorter.transactions from laid.transactions_eq, detached.frame]
    have kept := HashedMap.wellFormed_shorter wellFormed (map.transactions + 1) member two detached
    have fewer : Lays { unlinked with knots := knots, transactions := unlinked.transactions + 1 }
        { shorter with slots := slots, transactions := map.transactions + 1 } :=
      laid.recount counted laid.epoch_eq
    have size : knots.size = slots.size := laid.carries.size
    have rung : unlinked.rung = shorter.rung := laid.rung_eq
    by_cases sparse : slots.size < shorter.rung.shrinkBelow
    · obtain ⟨after, settled, settledDone, same, settledLays, settledKept⟩ := fewer.settle_ends kept granted
      refine ⟨some knot.value, after, settled, ?_, ?_, settledLays, settledKept⟩
      · rw [← size, ← rung] at sparse
        simp [remove, here, unlinkDone, one, ThreadedMap.size, sparse, settledDone, bind, Except.bind, pure,
          Except.pure]
      · simp [HashedMap.remove, there, detachDone, two, HashedMap.size, sparse, same, bind, Except.bind,
          pure, Except.pure]
    · refine ⟨some knot.value, _, _, ?_, ?_, fewer, kept⟩
      · rw [← size, ← rung] at sparse
        simp [remove, here, unlinkDone, one, ThreadedMap.size, sparse, bind, Except.bind, pure, Except.pure]
      · simp [HashedMap.remove, there, detachDone, two, HashedMap.size, sparse, bind, Except.bind, pure,
          Except.pure]

/-! ### Clearing -/

/-- In the middle of a release: the entries carry the values that are left, and releasing the links that are
ahead leaves the final ones. -/
structure Releasing (total : Nat) (final : Slots (Held V)) (state : Nat × Slots (Knot K V)) (rest : Chain K)
    (later : List (Chain K)) (slots : Slots (Held V)) (prev : Option Handle) : Prop where
  count : state.1 + (rest ++ later.flatten).length = total
  carries : Carries state.2 slots
  ahead : Ahead state.2 prev rest later
  leads : (rest ++ later.flatten).foldlM (fun slots link => do return (← slots.take link.handle).2) slots =
    (.ok final : Except Fault (Slots (Held V)))

theorem Releasing.step {total : Nat} {final slots : Slots (Held V)} {state : Nat × Slots (Knot K V)}
    {rest : Chain K} {later : List (Chain K)} {prev : Option Handle}
    (releasing : Releasing total final state (link :: rest) later slots prev) :
    ∃ after shorter, release state link.handle = .ok (Chain.head rest, after) ∧
      Releasing total final after rest later shorter (some link.handle) := by
  obtain ⟨count, carries, ahead, leads⟩ := releasing
  obtain ⟨value, held⟩ := ahead.held
  obtain ⟨fewer, shorter, one, two, kept⟩ := carries.take held
  refine ⟨(state.1 + 1, fewer), shorter, ?_, ?_, kept, ahead.tail ?_, ?_⟩
  · simp only [release, one, bind, Except.bind, pure, Except.pure]
  · rw [List.cons_append, List.length_cons] at count
    exact (Nat.succ_add_eq_add_succ _ _).trans count
  · intro handle member
    rw [Slots.get?_take one, if_neg]
    rintro rfl
    exact (List.nodup_cons.mp ahead.nodup).1 member
  · rw [List.cons_append, List.foldlM_cons, two] at leads
    exact leads

theorem Lays.releaseAll_ends (lays : threaded.Lays map) (wellFormed : map.WellFormed) :
    ∃ after slots, threaded.releaseAll = .ok (map.size, after) ∧
      map.releaseAll = .ok (map.size, map.released slots) ∧ after.Lays (map.released slots) ∧
      (map.released slots).WellFormed := by
  obtain ⟨slots, leads, empty⟩ := Slots.release_inUse _ _ wellFormed.inUse
  have start : Releasing map.size slots (0, threaded.knots) [] map.buckets.toList map.slots none :=
    ⟨(Nat.zero_add _).trans wellFormed.size_eq.symm, lays.carries, lays.ahead wellFormed, leads⟩
  obtain ⟨⟨released, knots⟩, swept, final, prev, releasing⟩ := sweep_ends release
    (fun state rest later => ∃ left prev, Releasing map.size slots state rest later left prev)
    (fun state link rest later ⟨left, prev, releasing⟩ => by
      obtain ⟨after, shorter, done, releasing⟩ := releasing.step
      exact ⟨after, done, shorter, _, releasing⟩)
    (fun state chain later ⟨left, prev, releasing⟩ =>
      ⟨left, none, releasing.count, releasing.carries, releasing.ahead.turn, releasing.leads⟩)
    (lays.length_le_of_mem wellFormed) ⟨_, _, start⟩
  obtain rfl : final = slots := Except.ok.inj releasing.leads
  obtain rfl : released = map.size := releasing.count
  have counted : (if map.size = 0 then threaded.transactions else threaded.transactions + 1) =
      if map.size = 0 then map.transactions else map.transactions + 1 := by
    rw [lays.transactions_eq]
  refine ⟨_, final, ?_, ?_, (lays.bare releasing.carries map.rung map.bucketCount).recount counted lays.epoch_eq,
    HashedMap.wellFormed_released wellFormed empty⟩
  · simp only [releaseAll, lays.ends_eq, swept, bind, Except.bind, pure, Except.pure]
    rw [lays.bucketCount, ← lays.rung_eq]
  · simp only [HashedMap.releaseAll, leads, HashedMap.released, wellFormed.size_eq]
    rfl

theorem Lays.clear_inStep (lays : threaded.Lays map) (wellFormed : map.WellFormed) (granted : Bool) :
    InStep (threaded.clear granted) (map.clear granted) := by
  obtain ⟨bare, slots, done, ended, laid, kept⟩ := lays.releaseAll_ends wellFormed
  by_cases lowest : (map.released slots).rung = Rung.lowest
  · refine ⟨map.size, bare, map.released slots, ?_, ?_, laid, kept⟩
    · have stays : bare.rung = Rung.lowest := laid.rung_eq.trans lowest
      simp [clear, done, stays, bind, Except.bind, pure, Except.pure]
    · simp [HashedMap.clear, ended, lowest, bind, Except.bind, pure, Except.pure]
  · have moves : bare.rung ≠ Rung.lowest := laid.rung_eq ▸ lowest
    cases granted with
    | false =>
      refine ⟨map.size, bare, map.released slots, ?_, ?_, laid, kept⟩
      · simp [clear, done, moves, bind, Except.bind, pure, Except.pure]
      · simp [HashedMap.clear, ended, lowest, bind, Except.bind, pure, Except.pure]
    | true =>
      obtain ⟨after, rebuilt, one, two, laidAgain, keptAgain⟩ := laid.rebuild_ends kept Rung.lowest
      refine ⟨map.size, after, rebuilt, ?_, ?_, laidAgain, keptAgain⟩
      · simp [clear, done, moves, one, bind, Except.bind, pure, Except.pure]
      · simp [HashedMap.clear, ended, lowest, two, bind, Except.bind, pure, Except.pure]

/-! ### Requests -/

/-- What is asked of a threaded map. -/
abbrev Demand (K V : Type) := KeyedStore.Demand (Request K V)

def serve (map : ThreadedMap K V) (demand : Demand K V) : Except Fault (Answer K V × ThreadedMap K V) :=
  match demand.request with
  | .insert key value => do
    let (outcome, after) ← map.insert demand.granted key value
    return (.added outcome, after)
  | .lookup key => do return (.value (← map.lookup key), map)
  | .lookupEntry key => do return (.entry (← map.lookupEntry key), map)
  | .contains key => do return (.truth (← map.contains key), map)
  | .remove key => do
    let (value, after) ← map.remove demand.granted key
    return (.removed value, after)
  | .size => .ok (.count map.size, map)
  | .clear => do
    let (released, after) ← map.clear demand.granted
    return (.count released, after)

theorem Lays.serve_inStep (lays : threaded.Lays map) (wellFormed : map.WellFormed) (demand : Demand K V) :
    InStep (threaded.serve demand) (map.meet demand) := by
  obtain ⟨request, granted⟩ := demand
  cases request with
  | insert key value =>
    obtain ⟨outcome, after, following, done, same, laid, kept⟩ := lays.insert_inStep wellFormed granted key value
    refine ⟨.added outcome, after, following, ?_, ?_, laid, kept⟩
    · simp only [serve, done, bind, Except.bind, pure, Except.pure]
    · simp only [HashedMap.meet, HashedMap.serve, same, bind, Except.bind, pure, Except.pure]
  | lookup key =>
    obtain ⟨found, one, two⟩ := lays.lookupEntry_ends wellFormed key
    refine ⟨.value (found.map (·.2)), threaded, map, ?_, ?_, lays, wellFormed⟩
    · simp only [serve, lookup, one, bind, Except.bind, pure, Except.pure]
    · simp only [HashedMap.meet, HashedMap.serve, HashedMap.lookup, two, bind, Except.bind, pure, Except.pure]
  | lookupEntry key =>
    obtain ⟨found, one, two⟩ := lays.lookupEntry_ends wellFormed key
    refine ⟨.entry found, threaded, map, ?_, ?_, lays, wellFormed⟩
    · simp only [serve, one, bind, Except.bind, pure, Except.pure]
    · simp only [HashedMap.meet, HashedMap.serve, two, bind, Except.bind, pure, Except.pure]
  | contains key =>
    obtain ⟨found, one, two⟩ := lays.lookupEntry_ends wellFormed key
    refine ⟨.truth (found.map (·.2)).isSome, threaded, map, ?_, ?_, lays, wellFormed⟩
    · simp only [serve, contains, lookup, one, bind, Except.bind, pure, Except.pure]
    · simp only [HashedMap.meet, HashedMap.serve, HashedMap.contains, HashedMap.lookup, two, bind, Except.bind,
        pure, Except.pure]
  | remove key =>
    obtain ⟨value, after, following, done, same, laid, kept⟩ := lays.remove_inStep wellFormed granted key
    refine ⟨.removed value, after, following, ?_, ?_, laid, kept⟩
    · simp only [serve, done, bind, Except.bind, pure, Except.pure]
    · simp only [HashedMap.meet, HashedMap.serve, same, bind, Except.bind, pure, Except.pure]
  | size =>
    refine ⟨.count map.size, threaded, map, ?_, rfl, lays, wellFormed⟩
    rw [← lays.size_eq]
    rfl
  | clear =>
    obtain ⟨released, after, following, done, same, laid, kept⟩ := lays.clear_inStep wellFormed granted
    refine ⟨.count released, after, following, ?_, ?_, laid, kept⟩
    · simp only [serve, done, bind, Except.bind, pure, Except.pure]
    · simp only [HashedMap.meet, HashedMap.serve, same, bind, Except.bind, pure, Except.pure]

theorem serve_lockstep : Lockstep (serve (K := K) (V := V)) HashedMap.meet (fun answer => answer)
    fun threaded map => threaded.Lays map ∧ map.WellFormed := by
  rintro threaded map demand ⟨lays, wellFormed⟩
  exact lays.serve_inStep wellFormed demand

/-- Whatever is asked of it and whatever memory is granted, a threaded map answers what the map of chains answers
and lays out what that one becomes. -/
theorem Lays.run_ends (lays : threaded.Lays map) (wellFormed : map.WellFormed)
    (demands : List (Demand K V)) : ∃ answers after following,
      runAll serve threaded demands = .ok (answers, after) ∧
        runAll HashedMap.meet map demands = .ok (answers, following) ∧ after.Lays following ∧
        following.WellFormed := by
  obtain ⟨answers, after, following, ran, also, laid⟩ := runAll_lockstep serve_lockstep demands ⟨lays, wellFormed⟩
  rw [List.map_id'] at ran
  exact ⟨answers, after, following, ran, also, laid⟩

theorem lays_fresh (id : Identity) (policy : HashPolicy K V) (noOverwrite : Bool) :
    Lays { id, policy, noOverwrite } { id, policy, noOverwrite } :=
  ⟨rfl, Array.size_replicate.trans Array.size_replicate.symm, fun _ _ => laid_of_bare rfl, .empty⟩

end ThreadedMap

end KeyedStore
