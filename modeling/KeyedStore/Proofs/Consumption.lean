import KeyedStore.Proofs.OrderedMap.Traversal
import KeyedStore.Proofs.HashedMap.Consumption
/-!
A traversal that removes each entry as soon as it has returned it, on a fresh cursor of any store that can be
reached under a lawful policy. Each removal gives back the value just returned, and what has not been returned is
found at every moment. An ordered store is emptied in key order. A hashed store is emptied in the order of its
buckets if it has the fewest; otherwise one of the removals makes it shrink, and there the traversal ends.
-/
namespace KeyedStore

variable {M K V : Type}

namespace Ledger

/-- Where no two entries have equal keys, the key of an entry means that entry. -/
theorem find_of_mem [BEq M] [ReflBEq M] {rules : Rules M K V} {ledger : Ledger M K V} {record : Record M K V}
    (lawful : rules.policy.Lawful) (filed : ledger.Filed rules.mark) (apart : ledger.OnePerClass rules.policy)
    (member : record ∈ ledger) : find rules record.key.val ledger = some record := by
  have := lawful.order
  have mark := filed record member
  obtain ⟨front, back, rfl⟩ := List.append_of_mem member
  have passed : ∀ other ∈ front, ¬ selects rules record.key.val other = true := by
    intro other before chosen
    simp only [selects, Bool.and_eq_true, beq_iff_eq] at chosen
    have different := (List.pairwise_append.mp apart).2.2 other before record List.mem_cons_self
    exact different (Std.OrientedCmp.eq_symm chosen.2)
  have chosen : selects rules record.key.val record = true := by
    have itself : rules.policy.compare record.key.val record.key.val = .eq := Std.ReflCmp.compare_self
    simp [selects, mark, itself]
  rw [find, List.find?_append, List.find?_eq_none.mpr passed, Option.none_or, List.find?_cons_of_pos chosen]

end Ledger

/-! ### Trees -/

namespace OrderedMap

variable {map after : OrderedMap K V} {cursor : OrderedCursor K} {last : Option K} {tag : Tag K}
  {rest : List (Tag K)} {value : Held V}

/-- A cursor with every key ahead. -/
structure Faces (map : OrderedMap K V) (cursor : OrderedCursor K) (last : Option K) : Prop where
  reads : map.Reads cursor last
  ahead : map.shape.toList.filter (map.policy.beyond last ·.key.val) = map.shape.toList

theorem faces_start (map : OrderedMap K V) : map.Faces map.start none :=
  ⟨reads_start map, List.filter_eq_self.mpr fun _ _ => rfl⟩

theorem records_of_tags (listed : map.shape.toList = tag :: rest) (held : map.slots.get? tag.handle = some value) :
    map.records = ⟨(), tag.key, value⟩ :: map.slots.records () rest := by
  rw [records, listed, Slots.records_cons held]

/-- Removing the least key takes the first entry out and leaves the others as they are. -/
theorem Removal.of_first {handed : Option (Held V)} (removal : Removal map tag.key.val handed after)
    (lawful : map.policy.Lawful) (wellFormed : map.WellFormed) (sorted : map.Sorted)
    (listed : map.shape.toList = tag :: rest) (held : map.slots.get? tag.handle = some value) :
    handed = some value ∧ after.shape.toList = rest ∧ after.records = map.slots.records () rest := by
  have := lawful.order
  have member : tag ∈ map.shape.toList := by simp [listed]
  have itself : probe map.policy tag.key.val tag = .eq := Std.ReflCmp.compare_self
  obtain ⟨path, color, left, right, met⟩ := sorted.met_of_mem lawful member
  have parts := sorted.parts_of_met lawful met
  have around := (toList_met met).symm.trans listed
  -- Nothing stands before the first tag.
  have first : path.before ++ left.toList = [] := by
    cases front : path.before ++ left.toList with
    | nil => rfl
    | cons head tail =>
      rw [front] at around
      obtain ⟨rfl, _⟩ := List.cons.inj around
      exact absurd itself (parts.ne_eq (.inl (front ▸ List.mem_cons_self)))
  rw [first] at around
  obtain ⟨_, behind⟩ := List.cons.inj around
  cases removal with
  | missed missed =>
    rw [met] at missed
    cases missed
  | removed found closed taken =>
    obtain ⟨rfl, same⟩ := Prod.mk.inj (met.symm.trans found)
    obtain ⟨rfl, rfl, rfl, rfl⟩ := Shape.node.inj same
    obtain rfl := Option.some.inj (held.symm.trans (Slots.get?_of_take taken))
    refine ⟨rfl, ?_, ?_⟩
    · rw [toList_closed closed, first, behind]
      rfl
    · rw [records_eq_sequence, sequence_removed (map.transactions + 1) wellFormed met closed taken, first, behind,
        Slots.records_eq]
      rfl

/-- One step of such a traversal: the first entry is returned and removed, and the others stay ahead. -/
structure Taken (map : OrderedMap K V) (cursor : OrderedCursor K) (record : Record Unit K V)
    (moved : OrderedCursor K) (after : OrderedMap K V) : Prop where
  split : map.records = record :: after.records
  hands : (Store.ordered map).Hands (.ordered cursor) record (.ordered moved) (.ordered after)
  policy : after.policy = map.policy
  wellFormed : after.WellFormed
  sorted : after.Sorted
  faces : ∃ last, after.Faces moved last

theorem Faces.taken (faces : map.Faces cursor last) (lawful : map.policy.Lawful) (wellFormed : map.WellFormed)
    (sorted : map.Sorted) (listed : map.shape.toList = tag :: rest) :
    ∃ record moved after, map.Taken cursor record moved after := by
  have member : tag ∈ map.shape.toList := by simp [listed]
  obtain ⟨value, held⟩ := wellFormed.live member
  obtain ⟨moved, stepped, reads⟩ := faces.reads.advance_reached lawful sorted (faces.ahead.trans listed) held
  obtain ⟨handed, after, removed, removal⟩ := remove_ends wellFormed tag.key.val
  obtain ⟨rfl, left, records⟩ := removal.of_first lawful wellFormed sorted listed held
  have policy : after.policy = map.policy := congrArg Rules.policy removal.rules_eq
  have following : after.Follows moved (.after (some tag.key.val)) :=
    Follows.changed (.remove removal) wellFormed reads
  have ahead : after.shape.toList.filter (after.policy.beyond (some tag.key.val) ·.key.val) = after.shape.toList := by
    refine List.filter_eq_self.mpr fun other inside => ?_
    rw [Sorted, listed] at sorted
    have before : map.policy.compare tag.key.val other.key.val = .lt :=
      (List.pairwise_cons.mp sorted).1 other (left ▸ inside)
    simp [Policy.beyond, policy, before]
  refine ⟨⟨(), tag.key, value⟩, moved, after, by rw [records, records_of_tags listed held], ⟨?_, ?_⟩, policy,
    removal.wellFormed wellFormed, removal.sorted sorted, some tag.key.val, following, ahead⟩
  · simp only [Store.advance, stepped]
    rfl
  · simp only [Store.remove, removed]
    rfl

/-- What such a traversal comes to in at most so many steps from a cursor with all entries ahead. -/
structure Consumed (map : OrderedMap K V) (cursor : OrderedCursor K) (limit : Nat) (ended : Cursor K)
    (after : OrderedMap K V) : Prop where
  handed : (Store.ordered map).consume limit (.ordered cursor) =
    .ok ((map.records.take (min limit map.size)).map Record.handed, ended, .ordered after)
  finished : ended.isFinished = true ↔ map.size < limit
  policy : after.policy = map.policy
  mirrors : after.Mirrors (map.records.drop (min limit map.size))

/-- From a cursor with all entries ahead such a traversal returns the first entries, until there are no more. -/
theorem Faces.consumed {policy : Policy K V} (lawful : policy.Lawful) (limit : Nat) (ruled : map.policy = policy)
    (wellFormed : map.WellFormed) (sorted : map.Sorted) (faces : map.Faces cursor last) :
    ∃ ended after, map.Consumed cursor limit ended after := by
  induction limit generalizing map cursor last with
  | zero =>
    have active := faces.reads.active
    refine ⟨.ordered cursor, map, by rw [Nat.zero_min]; rfl, by simp [Cursor.isFinished, active], rfl, ?_⟩
    rw [Nat.zero_min]
    exact ⟨wellFormed, sorted, .refl _⟩
  | succ limit ih =>
    have lawfully : map.policy.Lawful := ruled ▸ lawful
    have length := length_records wellFormed
    cases listed : map.shape.toList with
    | nil =>
      have empty : map.records = [] := by rw [records, listed]; rfl
      rw [empty] at length
      obtain ⟨ended, stepped, _⟩ := faces.reads.advance_ended lawfully sorted (faces.ahead.trans listed)
      refine ⟨.ordered ended.stop, map, ?_, by simp [Cursor.isFinished, OrderedCursor.stop, ← length], rfl, ?_⟩
      · rw [empty, List.take_nil]
        refine Store.consume_ended limit true ?_
        simp only [Store.advance, stepped]
        rfl
      · rw [empty, List.drop_nil, ← empty]
        exact ⟨wellFormed, sorted, .refl _⟩
    | cons tag rest =>
      obtain ⟨record, moved, after, taken⟩ := faces.taken lawfully wellFormed sorted listed
      obtain ⟨last, facing⟩ := taken.faces
      obtain ⟨ended, final, further⟩ := ih (taken.policy.trans ruled) taken.wellFormed taken.sorted facing
      have fewer : map.size = after.size + 1 := by
        rw [← length, ← length_records taken.wellFormed, taken.split, List.length_cons]
      refine ⟨ended, final, ?_, further.finished.trans (by omega), further.policy.trans taken.policy, ?_⟩
      · rw [taken.split, fewer, Nat.add_min_add_right, List.take_succ_cons]
        exact taken.hands.consume further.handed
      · rw [taken.split, fewer, Nat.add_min_add_right, List.drop_succ_cons]
        exact further.mirrors

end OrderedMap

/-! ### Stores -/

namespace Store

/-- What such a traversal of a store with these entries comes to in at most so many steps, if it is to return so
many of them: the first ones, each with its value given back, and the others are left and are found. -/
structure Consumes (store : Store K V) (entries : Ledger M K V) (count limit : Nat) (after : Store K V) : Prop where
  handed : ∃ ended, store.consume limit store.start =
    .ok ((entries.take (min limit count)).map Record.handed, ended, after) ∧ (ended.isFinished = true ↔ count < limit)
  size : after.size = (entries.drop (min limit count)).length
  found : ∀ record ∈ entries.drop (min limit count), after.lookupEntry record.key.val = .ok (some record.pair)

end Store

theorem OrderedMap.Mirrors.consumes {map : OrderedMap K V} {ledger : Ledger Unit K V} (mirrors : map.Mirrors ledger)
    (lawful : map.policy.Lawful) (limit : Nat) :
    ∃ after, (Store.ordered map).Consumes map.records map.size limit (.ordered after) ∧
      (map.size ≤ limit → after.size = 0) := by
  obtain ⟨ended, after, consumed⟩ := map.faces_start.consumed lawful limit rfl mirrors.wellFormed mirrors.sorted
  have apart := Ledger.onePerClass_of_ascending lawful (.refl _) (records_ascending mirrors.sorted)
  have left := consumed.mirrors.length_eq
  refine ⟨after, ⟨⟨ended, consumed.handed, consumed.finished⟩, left, fun record member => ?_⟩, fun enough => ?_⟩
  · rw [← consumed.policy] at lawful apart
    have found : Ledger.find after.rules record.key.val (map.records.drop (min limit map.size)) = some record :=
      Ledger.find_of_mem lawful (fun _ _ => rfl) (apart.sublist (List.drop_sublist _ _)) member
    have looked := consumed.mirrors.lookupEntry_eq lawful record.key.val
    rw [found] at looked
    exact looked
  · rw [Nat.min_eq_right enough, ← length_records mirrors.wellFormed, List.drop_length] at left
    exact left

namespace HashedMap

variable {map after : HashedMap K V}

theorem WellFormed.bucketCount_fewest (wellFormed : map.WellFormed) :
    map.bucketCount = 13 ↔ map.rung = Rung.lowest := by
  have fewest : ∀ rung : Rung, rung.size = 13 ↔ rung = Rung.lowest := by decide
  rw [bucketCount, wellFormed.chained.sized]
  exact fewest map.rung

theorem Ready.consumes {rules : Rules UInt64 K V} (ready : Ready rules map) (lawful : rules.policy.Lawful)
    (apart : map.filing.OnePerClass rules.policy) (limit : Nat) :
    ∃ after, (Store.hashed map).Consumes map.filing map.yield limit (.hashed after) ∧
      (limit < map.yield ∨ map.bucketCount = 13 →
        after.epoch = map.epoch ∧ after.bucketCount = map.bucketCount) ∧
      (map.yield ≤ limit → map.bucketCount = 13 → after.size = 0) ∧
      (map.yield ≤ limit → map.bucketCount ≠ 13 → after.size + 1 = map.limits.2 ∧ after.epoch = map.epoch + 1 ∧
        map.rung.below? = some after.rung) := by
  have := lawful.order
  have wellFormed := ready.inBand.wellFormed
  have fewest := wellFormed.bucketCount_fewest
  obtain ⟨ended, after, consumed⟩ :=
    map.faces_start.consumed (fun key => (Std.ReflCmp.compare_self : rules.policy.compare key key = .eq)) limit ready
  have left := consumed.mirrors.length
  refine ⟨after, ⟨⟨ended, consumed.handed, consumed.finished⟩, left, fun record member => ?_⟩, fun within => ?_,
    fun enough few => ?_, fun enough more => ?_⟩
  · have filed : Ledger.Filed rules.mark (map.filing.drop (min limit map.yield)) :=
      fun record within => ready.filed record (List.mem_of_mem_drop within)
    have looked := consumed.mirrors.lookupEntry_eq record.key.val
    rw [consumed.rules, ready.ruled, Ledger.find_of_mem lawful filed (apart.sublist (List.drop_sublist _ _)) member]
      at looked
    exact looked
  · obtain ⟨epoch, rung⟩ := consumed.same (within.imp_right fewest.mp)
    exact ⟨epoch, wellFormed.bucketCount_of_rung consumed.mirrors.wellFormed rung⟩
  · rw [List.length_drop, ← wellFormed.mirrors.length, Nat.min_eq_right enough, yield, if_pos (fewest.mp few),
      Nat.sub_self] at left
    exact left
  · have higher := mt fewest.mpr more
    have least := ready.inBand.holds.least
    have some : map.rung.shrinkBelow ≠ 0 := mt Rung.lowest_of_shrinkBelow higher
    rw [List.length_drop, ← wellFormed.mirrors.length, Nat.min_eq_right enough, yield, if_neg higher] at left
    refine ⟨?_, consumed.other enough higher⟩
    change after.size + 1 = map.rung.shrinkBelow
    omega

end HashedMap

namespace Store

/-- A hashed store that mirrors the list and is between its limits. -/
def FilesInBand (rules : Rules UInt64 K V) (store : Store K V) (ledger : Ledger UInt64 K V) : Prop :=
  store.Files rules ledger ∧ ∃ map, store = hashed map ∧ map.InBand

theorem filesInBand_matches (rules : Rules UInt64 K V) :
    Matches serve (Ledger.serveStore rules) (FilesInBand rules) := by
  rintro _ ledger request ⟨files, map, rfl, inBand⟩
  obtain ⟨after, served, kept⟩ := files_matches rules _ ledger ⟨request, true⟩ files
  rw [meet] at served
  refine ⟨after, served, kept, ?_⟩
  cases request with
  | isEmpty =>
    obtain ⟨_, rfl⟩ := Prod.mk.inj (Except.ok.inj served)
    exact ⟨map, rfl, inBand⟩
  | common request =>
    rw [serve_hashed] at served
    cases done : map.serve request with
    | error fault =>
      rw [done] at served
      cases served
    | ok result =>
      obtain ⟨answer, left⟩ := result
      rw [done] at served
      obtain ⟨_, rfl⟩ := Prod.mk.inj (Except.ok.inj served)
      exact ⟨left, rfl, inBand.of_serve done⟩

/-- Under a lawful policy and a hash that respects it, take a fresh cursor of any store that a run of requests leads
to, and remove by its key each entry that the cursor returns. Every removal gives back the value just returned, no
two of the keys are equal, and whatever has not been returned is found at every moment.

From an ordered store all entries are returned, in ascending order, and it ends empty; so they are from a hashed
store with the fewest buckets, in the order of a traversal. From a hashed store with more buckets the first ones in
that order are returned, up to the one whose removal makes the store shrink, and the cursor then ends. -/
theorem run_consumes (id : Identity) (policy : Policy K V) (hash : K → UInt64) (noOverwrite : Bool)
    (lawful : policy.Lawful) (congruent : ∀ one two, policy.compare one two = .eq → hash one = hash two)
    (requests : List (StoreRequest K V)) :
    (∃ answers map,
      runAll serve (build id (.ordered policy noOverwrite)) requests = .ok (answers, ordered map) ∧
      (ordered map).entries none = .ok (map.records.map Record.pair) ∧
      map.records.Pairwise (Record.Before policy) ∧
      ∀ limit, ∃ after, (ordered map).Consumes map.records map.size limit (ordered after) ∧
        (map.size ≤ limit → after.size = 0)) ∧
    ∃ answers map count,
      runAll serve (build id (.hashed (policy.hashingBy hash) noOverwrite)) requests = .ok (answers, hashed map) ∧
      (hashed map).entries none = .ok (map.filing.map Record.pair) ∧
      map.filing.OnePerClass policy ∧
      (map.bucketCount = 13 → count = map.size) ∧
      (map.bucketCount ≠ 13 → map.limits.2 ≤ map.size ∧ count = map.size - map.limits.2 + 1) ∧
      ∀ limit, ∃ after, (hashed map).Consumes map.filing count limit (hashed after) ∧
        (limit < count ∨ map.bucketCount = 13 →
          after.epoch = map.epoch ∧ after.bucketCount = map.bucketCount) ∧
        (count ≤ limit → map.bucketCount = 13 → after.size = 0) ∧
        (count ≤ limit → map.bucketCount ≠ 13 → after.size + 1 = map.limits.2 ∧ after.epoch = map.epoch + 1 ∧
          map.rung.below? = some after.rung) := by
  have := lawful.order
  have ranking : Ranks ⟨policy, hash, noOverwrite⟩ (build id (.ordered policy noOverwrite)) [] :=
    ⟨nofun, _, rfl, rfl, OrderedMap.mirrors_fresh id policy noOverwrite⟩
  have fresh := HashedMap.mirrors_fresh id (policy.hashingBy hash) noOverwrite
  have filing : FilesInBand ⟨policy, hash, noOverwrite⟩
      (build id (.hashed (policy.hashingBy hash) noOverwrite)) [] :=
    ⟨⟨_, rfl, rfl, fresh⟩, _, rfl, fresh.wellFormed, Rung.holds_lowest⟩
  have matching : Matches serve (Ledger.serveStore ⟨policy, hash, noOverwrite⟩) (Ranks ⟨policy, hash, noOverwrite⟩) :=
    (ranks_matches ⟨policy, hash, noOverwrite⟩ lawful congruent).along (⟨·, true⟩)
  obtain ⟨_, ranked, filed, map, rfl, ruled, ranks⟩ := runAll_eq_replay matching requests ranking
  obtain ⟨_, ran, ⟨table, rfl, tableRuled, files⟩, _, ⟨⟩, inBand⟩ :=
    runAll_eq_replay (filesInBand_matches ⟨policy, hash, noOverwrite⟩) requests filing
  obtain rfl : map.policy = policy := congrArg Rules.policy ruled
  have ascending := OrderedMap.records_ascending ranks.sorted
  have sameList := files.filing_perm
  have fewest := files.wellFormed.bucketCount_fewest
  have ready : HashedMap.Ready ⟨map.policy, hash, noOverwrite⟩ table :=
    ⟨tableRuled, inBand, fun record member => filed record (sameList.mem_iff.mp member)⟩
  have apart : table.filing.OnePerClass map.policy :=
    (List.pairwise_map.mp (Ledger.onePerClass_of_ascending lawful ranks.holds ascending)).perm sameList.symm
      fun different equal => different (Std.OrientedCmp.eq_symm equal)
  refine ⟨⟨_, map, ranked, OrderedMap.entries_eq ranks.wellFormed, ascending, ranks.consumes lawful⟩,
    _, table, table.yield, ran, HashedMap.entries_filing files.wellFormed, apart, ?_, ?_,
    ready.consumes lawful apart⟩
  · exact fun few => by rw [HashedMap.yield, if_pos (fewest.mp few)]
  · exact fun more => ⟨inBand.holds.least, by rw [HashedMap.yield, if_neg (mt fewest.mpr more)]; rfl⟩

/-- Ten numbers make a table grow to 29 buckets, where it needs seven entries: four are returned, and six are left. -/
theorem run_consumes_tens : ∃ answers map ended after,
    runAll serve (build ⟨0⟩ (.hashed (Policy.tens.hashingBy fun key => UInt64.ofNat (key / 10)) false))
      ((List.range 10).map fun number => .common (.insert ⟨.owned, 10 * number⟩ ⟨.owned, number⟩)) =
        .ok (answers, hashed map) ∧
      map.bucketCount = 29 ∧ map.limits.2 = 7 ∧
      (hashed map).consume 5 (hashed map).start =
        .ok ((List.range 4).map fun number => ((10 * number, number), some ⟨.owned, number⟩), ended, hashed after) ∧
      ended.isFinished = true ∧ after.size = 6 ∧ after.epoch = map.epoch + 1 := by
  have congruent : ∀ one two : Nat, (Policy.tens : Policy Nat Nat).compare one two = .eq →
      UInt64.ofNat (one / 10) = UInt64.ofNat (two / 10) := by
    intro one two equal
    exact congrArg UInt64.ofNat (Nat.compare_eq_eq.mp equal)
  obtain ⟨_, answers, map, count, ran, _, _, _, higher, steps⟩ :=
    run_consumes ⟨0⟩ (Policy.tens : Policy Nat Nat) (fun key => UInt64.ofNat (key / 10)) false Policy.lawful_tens
      congruent ((List.range 10).map fun number => .common (.insert ⟨.owned, 10 * number⟩ ⟨.owned, number⟩))
  obtain ⟨rfl, same⟩ := Prod.mk.inj (Except.ok.inj ran)
  obtain rfl := Store.hashed.inj same
  obtain ⟨_, yields⟩ := higher (by decide +kernel)
  obtain ⟨after, ⟨⟨ended, consumed, finished⟩, _, _⟩, _, _, shrunk⟩ := steps 5
  rw [yields.trans (by decide +kernel : _ = 4)] at consumed finished shrunk
  obtain ⟨left, epoch, _⟩ := shrunk (by decide) (by decide +kernel)
  refine ⟨_, _, ended, after, ran, by decide +kernel, by decide +kernel, consumed.trans ?_, finished.mpr (by decide),
    Nat.succ.inj (left.trans (by decide +kernel)), epoch⟩
  exact congrArg (fun listed => Except.ok (listed, ended, hashed after)) (by decide +kernel)

end Store

end KeyedStore
