import KeyedStore.Proofs.Interchange
import KeyedStore.Proofs.HashedMap.Band
/-!
A traversal of a hashed map that removes each entry as soon as it has returned it. Every link in line lies ahead
of its cursor, and a removal takes out the first one; so the entries come in the order of the line, for as long as
the buckets stay what they were. On the lowest rung that is to the end. On a higher rung the removal that leaves
too few entries rebuilds the table, and the cursor ends; what it had not come to is found as before.
-/
namespace KeyedStore

variable {K V : Type}

namespace HashedMap

variable {map after : HashedMap K V} {cursor : HashedCursor} {last : Option Place} {link : Link K}
  {back : List (Link K)} {value : Held V}

/-- How many entries such a traversal returns: all, or as many as it takes to leave one entry less than the table
needs. -/
def yield (map : HashedMap K V) : Nat :=
  if map.rung = Rung.lowest then map.size else map.size - map.rung.shrinkBelow + 1

/-- A cursor of this epoch with the whole line ahead. -/
structure Faces (map : HashedMap K V) (cursor : HashedCursor) (last : Option Place) : Prop where
  stands : map.Stands cursor last
  present : cursor.epoch = map.epoch
  ahead : map.ahead last = map.lineup

theorem faces_start (map : HashedMap K V) : map.Faces map.start none :=
  ⟨stands_start map, rfl, map.ahead_none⟩

/-! ### The first link in line -/

theorem filing_of_links (listed : map.links = link :: back) (live : map.slots.get? link.handle = some value) :
    map.filing = ⟨link.hash, link.key, value⟩ ::
      back.filterMap fun link => map.slots.record? link.hash link.tag := by
  rw [filing, listed]
  refine List.filterMap_cons_some ?_
  rw [Slots.record?, show map.slots.get? link.tag.handle = some value from live]
  rfl

theorem Faces.advance_first (faces : map.Faces cursor last) (wellFormed : map.WellFormed)
    (listed : map.links = link :: back) (live : map.slots.get? link.handle = some value) :
    ∃ moved, map.advance cursor = .ok (some (link.key.val, value.val), moved) ∧ moved.epoch = map.epoch ∧
      map.Stands moved (some (map.placeOf link)) := by
  have reached := faces.ahead
  rw [wellFormed.chained.lineup_eq, listed, List.map_cons] at reached
  obtain ⟨moved, stepped, same, stands⟩ := advance_reached wellFormed faces.stands faces.present reached live
  exact ⟨moved, stepped, same.trans faces.present, stands⟩

/-- A search for the key of the first link ends there, if the link is filed under the hash of that key. -/
theorem meant_first (reflexive : map.policy.base.compare link.key.val link.key.val = .eq)
    (listed : map.links = link :: back) (filed : link.hash = map.policy.hash link.key.val) :
    map.meant link.key.val = some link := by
  rw [meant, listed]
  exact List.find?_cons_of_pos (by simp [answers, filed, reflexive])

/-- Without the first link, the other ones lie behind its place. -/
theorem ahead_first (wellFormed : map.WellFormed) (kept : after.WellFormed) (rung : after.rung = map.rung)
    (listed : map.links = link :: back) (left : after.links = back) :
    after.ahead (some (map.placeOf link)) = after.lineup := by
  have sized := wellFormed.bucketCount_of_rung kept rung
  have ordered := wellFormed.chained.lineup_ascending
  rw [wellFormed.chained.lineup_eq, listed, List.map_cons] at ordered
  refine List.filter_eq_self.mpr fun item member => Place.beyond_some.mpr ?_
  rw [kept.chained.lineup_eq, left, sized] at member
  exact (List.pairwise_cons.mp ordered).1 item member

section Detached

variable {shorter : HashedMap K V} {slots : Slots (Held V)}

/-- Without the first link, the other ones keep their entries. -/
theorem Detached.filing_first (detached : map.Detached link shorter) (transactions : Nat)
    (wellFormed : map.WellFormed) (listed : map.links = link :: back)
    (taken : map.slots.take link.handle = .ok (value, slots)) :
    map.filing = ⟨link.hash, link.key, value⟩ ::
      HashedMap.filing { shorter with slots := slots, transactions := transactions } := by
  have apart := wellFormed.inUse.nodup
  rw [listed, List.map_cons, List.nodup_cons] at apart
  have left : HashedMap.links { shorter with slots := slots, transactions := transactions } = back :=
    detached.links [] back listed
  rw [filing_of_links listed (Slots.get?_of_take taken), filing, left]
  congr 1
  refine List.filterMap_congr fun other member => ?_
  have different : other.tag.handle ≠ link.handle := fun same => apart.1 (List.mem_map.mpr ⟨other, member, same⟩)
  rw [Slots.record?, Slots.record?, Slots.get?_take taken, if_neg different]

end Detached

/-! ### One step -/

/-- What a removal leaves that keeps the table on its rung, with these entries behind the one removed. -/
structure Still (map : HashedMap K V) (rest : Ledger UInt64 K V) (moved : HashedCursor) (after : HashedMap K V) :
    Prop where
  enough : map.rung.shrinkBelow < map.size
  fewer : after.size + 1 = map.size
  rung : after.rung = map.rung
  epoch : after.epoch = map.epoch
  left : after.filing = rest
  faces : ∃ last, after.Faces moved last

/-- What a removal leaves that makes the table shrink, with these entries behind the one removed. -/
structure Shrunk (map : HashedMap K V) (rest : Ledger UInt64 K V) (moved : HashedCursor) (after : HashedMap K V) :
    Prop where
  few : map.size = map.rung.shrinkBelow
  rung : map.rung.below? = some after.rung
  epoch : after.epoch = map.epoch + 1
  left : after.Mirrors rest
  outdated : moved.epoch = map.epoch
  stands : ∃ last, after.Stands moved last

theorem Removal.still_or_shrunk {moved : HashedCursor} {handed : Option (Held V)}
    (removal : Removal map true link.key.val handed after) (inBand : map.InBand)
    (listed : map.links = link :: back) (met : map.meant link.key.val = some link)
    (live : map.slots.get? link.handle = some value) (same : moved.epoch = map.epoch)
    (stands : map.Stands moved (some (map.placeOf link))) :
    handed = some value ∧ ∃ rest, map.filing = ⟨link.hash, link.key, value⟩ :: rest ∧
      (map.Still rest moved after ∨ map.Shrunk rest moved after) := by
  have wellFormed := inBand.wellFormed
  have kept := removal.wellFormed wellFormed
  have standing := stands.steady (removal.steady wellFormed)
  have holds := inBand.holds
  cases removal with
  | missed missed =>
    rw [met] at missed
    cases missed
  | @removed _ _ slots shorter found taken detached enough =>
    obtain rfl := Option.some.inj (met.symm.trans found)
    obtain rfl := Option.some.inj (live.symm.trans (Slots.get?_of_take taken))
    have fewer : slots.size + 1 = map.size := Slots.size_take taken
    have rung : shorter.rung = map.rung := by rw [detached.frame]
    have epoch : shorter.epoch = map.epoch := by rw [detached.frame]
    refine ⟨rfl, _, detached.filing_first (map.transactions + 1) wellFormed listed taken, .inl ?_⟩
    refine ⟨by omega, fewer, rung, epoch, rfl, _, standing, same.trans epoch.symm, ?_⟩
    exact ahead_first wellFormed kept rung listed (detached.links [] back listed)
  | @shrunk _ _ slots shorter after found taken detached sparse settling =>
    obtain rfl := Option.some.inj (met.symm.trans found)
    obtain rfl := Option.some.inj (live.symm.trans (Slots.get?_of_take taken))
    have member : link ∈ map.links := by simp [listed]
    have fewer : slots.size + 1 = map.size := Slots.size_take taken
    have left := wellFormed_shorter wellFormed (map.transactions + 1) member taken detached
    have mirrors := left.mirrors.settled settling
    refine ⟨rfl, _, detached.filing_first (map.transactions + 1) wellFormed listed taken, .inr ?_⟩
    cases settling with
    | still fits =>
      -- Below its limit a table never stays.
      have enough := (Rung.towards?_eq_none.mp (fits rfl)).2
      rw [detached.frame] at enough
      exact absurd sparse (Nat.not_lt.mpr enough)
    | @moved rung _ _ towards rebuilt =>
      have lowered : after.rung = rung := by rw [rebuilt.frame]
      have epoch : after.epoch = map.epoch + 1 := by rw [rebuilt.frame, detached.frame]
      rw [detached.frame] at towards
      rw [← fewer] at holds
      obtain ⟨next, exactly, _⟩ := holds.of_sparse sparse towards
      exact ⟨fewer.symm.trans exactly, lowered ▸ next, epoch, mirrors, same, _, standing⟩

/-- A table between its limits, with every link filed under the hash of its stored key. -/
structure Ready (rules : Rules UInt64 K V) (map : HashedMap K V) : Prop where
  ruled : map.rules = rules
  inBand : map.InBand
  filed : map.filing.Filed rules.mark

/-- One step of such a traversal: the first entry in line is returned and removed. -/
structure Taken (map : HashedMap K V) (cursor : HashedCursor) (record : Record UInt64 K V)
    (rest : Ledger UInt64 K V) (moved : HashedCursor) (after : HashedMap K V) : Prop where
  split : map.filing = record :: rest
  hands : (Store.hashed map).Hands (.hashed cursor) record (.hashed moved) (.hashed after)
  rules : after.rules = map.rules
  inBand : after.InBand

variable {rules : Rules UInt64 K V} {moved : HashedCursor} {record : Record UInt64 K V}
  {rest : Ledger UInt64 K V} {limit : Nat}

theorem Faces.taken (faces : map.Faces cursor last) (ready : Ready rules map)
    (reflexive : ∀ key, rules.policy.compare key key = .eq) (listed : map.links = link :: back) :
    ∃ record rest moved after, map.Taken cursor record rest moved after ∧
      (map.Still rest moved after ∨ map.Shrunk rest moved after) := by
  obtain ⟨rfl, inBand, filed⟩ := ready
  have wellFormed := inBand.wellFormed
  have member : link ∈ map.links := by simp [listed]
  obtain ⟨value, live⟩ := wellFormed.inUse.get? (List.mem_map_of_mem (f := (·.handle)) member)
  rw [filing_of_links listed live] at filed
  have met := meant_first (reflexive _) listed (List.forall_mem_cons.mp filed).1
  obtain ⟨moved, stepped, same, stands⟩ := faces.advance_first wellFormed listed live
  obtain ⟨handed, after, removed, removal⟩ := remove_ends wellFormed true link.key.val
  obtain ⟨rfl, rest, split, left⟩ := removal.still_or_shrunk inBand listed met live same stands
  refine ⟨_, rest, moved, after, ⟨split, ⟨?_, ?_⟩, removal.rules_eq, removal.wellFormed wellFormed,
    (removal.rung_eq inBand.holds).1⟩, left⟩
  · simp only [Store.advance, stepped]
    rfl
  · simp only [Store.remove, removed]
    rfl

/-! ### All steps -/

theorem InBand.yield_of_bare (inBand : map.InBand) (bare : map.links = []) :
    map.rung = Rung.lowest ∧ map.yield = 0 := by
  have nothing : map.size = 0 := by rw [inBand.wellFormed.size_eq, bare]; rfl
  have holds := inBand.holds
  rw [nothing] at holds
  exact ⟨holds.lowest_of_empty, by rw [yield, if_pos holds.lowest_of_empty, nothing]⟩

theorem Still.yield_eq (still : map.Still rest moved after) : map.yield = after.yield + 1 := by
  have enough := still.enough
  have fewer := still.fewer
  unfold yield
  rw [still.rung]
  split <;> omega

theorem Shrunk.yield_eq (shrunk : map.Shrunk rest moved after) : map.rung ≠ Rung.lowest ∧ map.yield = 1 := by
  have higher : map.rung ≠ Rung.lowest := by
    intro lowest
    have next := shrunk.rung
    rw [lowest] at next
    cases next
  have few := shrunk.few
  exact ⟨higher, by rw [yield, if_neg higher]; omega⟩

/-- What such a traversal comes to in at most so many steps from a cursor with all entries ahead. The buckets stay
the same until, on a higher rung, the last entry has been returned. -/
structure Consumed (map : HashedMap K V) (cursor : HashedCursor) (limit : Nat) (ended : Cursor K)
    (after : HashedMap K V) : Prop where
  handed : (Store.hashed map).consume limit (.hashed cursor) =
    .ok ((map.filing.take (min limit map.yield)).map Record.handed, ended, .hashed after)
  finished : ended.isFinished = true ↔ map.yield < limit
  rules : after.rules = map.rules
  mirrors : after.Mirrors (map.filing.drop (min limit map.yield))
  same : limit < map.yield ∨ map.rung = Rung.lowest → after.epoch = map.epoch ∧ after.rung = map.rung
  other : map.yield ≤ limit → map.rung ≠ Rung.lowest →
    after.epoch = map.epoch + 1 ∧ map.rung.below? = some after.rung

theorem Faces.consumed_zero (faces : map.Faces cursor last) (wellFormed : map.WellFormed) :
    map.Consumed cursor 0 (.hashed cursor) map := by
  have active := faces.stands.active
  refine ⟨by rw [Nat.zero_min]; rfl, by simp [Cursor.isFinished, active], rfl, ?_, fun _ => ⟨rfl, rfl⟩,
    fun none higher => ?_⟩
  · rw [Nat.zero_min]
    exact wellFormed.mirrors
  · rw [yield, if_neg higher] at none
    omega

/-- With no entry left the cursor ends, and the table is on the lowest rung. -/
theorem Faces.consumed_bare (faces : map.Faces cursor last) (inBand : map.InBand) (bare : map.links = []) :
    ∃ ended, map.Consumed cursor (limit + 1) ended map := by
  obtain ⟨lowest, none⟩ := inBand.yield_of_bare bare
  have wellFormed := inBand.wellFormed
  have empty : map.filing = [] := by rw [filing, bare]; rfl
  have nothing : map.ahead last = [] := by rw [faces.ahead, wellFormed.chained.lineup_eq, bare]; rfl
  obtain ⟨ended, stepped, _⟩ := advance_ended wellFormed faces.stands faces.present nothing
  refine ⟨.hashed ended.stop, ?_, by simp [Cursor.isFinished, HashedCursor.stop, none], rfl, ?_,
    fun _ => ⟨rfl, rfl⟩, fun _ higher => absurd lowest higher⟩
  · rw [empty, List.take_nil]
    refine Store.consume_ended limit true ?_
    simp only [Store.advance, stepped]
    rfl
  · rw [empty, List.drop_nil, ← empty]
    exact wellFormed.mirrors

/-- One entry, and then what comes behind it. -/
theorem Still.consumed (still : map.Still rest moved after) (taken : map.Taken cursor record rest moved after)
    {ended : Cursor K} {final : HashedMap K V} (further : after.Consumed moved limit ended final) :
    map.Consumed cursor (limit + 1) ended final := by
  have yields := still.yield_eq
  have handed := further.handed
  have mirrors := further.mirrors
  rw [still.left] at handed mirrors
  refine ⟨?_, further.finished.trans (by omega), further.rules.trans taken.rules, ?_, fun within => ?_,
    fun beyond higher => ?_⟩
  · rw [taken.split, yields, Nat.add_min_add_right, List.take_succ_cons]
    exact taken.hands.consume handed
  · rw [taken.split, yields, Nat.add_min_add_right, List.drop_succ_cons]
    exact mirrors
  · rw [← still.epoch, ← still.rung]
    exact further.same (within.imp (by omega) still.rung.trans)
  · rw [← still.epoch, ← still.rung]
    exact further.other (by omega) (still.rung ▸ higher)

/-- One entry, and nothing behind it, since the cursor knows other buckets. -/
theorem Shrunk.consumed (shrunk : map.Shrunk rest moved after) (taken : map.Taken cursor record rest moved after) :
    ∃ ended, map.Consumed cursor (limit + 1) ended after := by
  obtain ⟨higher, one⟩ := shrunk.yield_eq
  obtain ⟨last, stands⟩ := shrunk.stands
  have first : min (limit + 1) map.yield = 1 := by omega
  have outdated : moved.epoch ≠ after.epoch := by
    rw [shrunk.outdated, shrunk.epoch]
    exact Nat.ne_of_lt (Nat.lt_succ_self _)
  obtain ⟨ended, consumed, finished⟩ : ∃ ended,
      (Store.hashed after).consume limit (.hashed moved) = .ok ([], ended, .hashed after) ∧
        (ended.isFinished = true ↔ 0 < limit) := by
    cases limit with
    | zero => exact ⟨.hashed moved, rfl, by simp [Cursor.isFinished, stands.active]⟩
    | succ limit =>
      refine ⟨.hashed moved.stop, Store.consume_ended limit true ?_, by simp [Cursor.isFinished, HashedCursor.stop]⟩
      simp only [Store.advance, advance_outdated stands outdated]
      rfl
  refine ⟨ended, ?_, finished.trans (by omega), taken.rules, ?_, fun within => ?_,
    fun _ _ => ⟨shrunk.epoch, shrunk.rung⟩⟩
  · rw [first, taken.split]
    exact taken.hands.consume consumed
  · rw [first, taken.split]
    exact shrunk.left
  · rcases within with within | lowest
    · omega
    · exact absurd lowest higher

/-- From a cursor with all entries ahead such a traversal returns the first entries in line, as many as `yield`
says. -/
theorem Faces.consumed (reflexive : ∀ key, rules.policy.compare key key = .eq) (limit : Nat)
    (ready : Ready rules map) (faces : map.Faces cursor last) :
    ∃ ended after, map.Consumed cursor limit ended after := by
  induction limit generalizing map cursor last with
  | zero => exact ⟨_, _, faces.consumed_zero ready.inBand.wellFormed⟩
  | succ limit ih =>
    cases listed : map.links with
    | nil =>
      obtain ⟨ended, consumed⟩ := faces.consumed_bare ready.inBand listed
      exact ⟨ended, map, consumed⟩
    | cons link back =>
      obtain ⟨record, rest, moved, after, taken, still | shrunk⟩ := faces.taken ready reflexive listed
      · obtain ⟨last, facing⟩ := still.faces
        have filed := ready.filed
        rw [taken.split] at filed
        have left : after.filing.Filed rules.mark := still.left ▸ (List.forall_mem_cons.mp filed).2
        obtain ⟨ended, final, further⟩ := ih ⟨taken.rules.trans ready.ruled, taken.inBand, left⟩ facing
        exact ⟨ended, final, still.consumed taken further⟩
      · obtain ⟨ended, consumed⟩ := shrunk.consumed taken
        exact ⟨ended, after, consumed⟩

end HashedMap

end KeyedStore
