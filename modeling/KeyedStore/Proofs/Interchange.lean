import KeyedStore.Proofs.OrderedMap.Refinement
import KeyedStore.Proofs.HashedMap.Refinement
import KeyedStore.Proofs.Store
/-!
The two kinds of store are interchangeable. Under a lawful policy a hash that respects it says nothing that
the comparison does not, so a list of entries answers alike with the hashes and without them. An ordered
store mirrors the list without them and a hashed store the list with them; so both answer every run of
requests alike, and hold the same entries at the end of it.
-/
namespace KeyedStore

variable {M K V : Type}

/-! ### A list of entries with and without its marks -/

/-- Equal keys have one mark. -/
def Rules.Congruent (rules : Rules M K V) : Prop :=
  ∀ one two, rules.policy.compare one two = .eq → rules.mark one = rules.mark two

/-- The same rules where all marks are alike. -/
def Rules.unmarked (rules : Rules M K V) : Rules Unit K V := ⟨rules.policy, fun _ => (), rules.noOverwrite⟩

/-- The same entry where all marks are alike. -/
def Record.unmarked (record : Record M K V) : Record Unit K V := ⟨(), record.key, record.value⟩

namespace Ledger

/-- The same entries where all marks are alike. -/
def unmarked (ledger : Ledger M K V) : Ledger Unit K V := ledger.map Record.unmarked

/-- Every entry is filed under the mark of its stored key. -/
def Filed (mark : K → M) (ledger : Ledger M K V) : Prop := ∀ record ∈ ledger, record.mark = mark record.key.val

theorem map_pair_unmarked (ledger : Ledger M K V) : ledger.unmarked.map Record.pair = ledger.map Record.pair :=
  List.map_map

theorem filed_revalue {mark : K → M} {ledger : Ledger M K V} (filed : Filed mark ledger)
    (chosen : Record M K V → Bool) (value : Held V) : Filed mark (revalue chosen value ledger) := by
  induction ledger with
  | nil => exact List.forall_mem_nil _
  | cons record rest ih =>
    obtain ⟨here, there⟩ := List.forall_mem_cons.mp filed
    unfold revalue
    split
    · exact List.forall_mem_cons.mpr ⟨here, there⟩
    · exact List.forall_mem_cons.mpr ⟨here, ih there⟩

section Unmarked

variable [BEq M] {rules : Rules M K V} {ledger : Ledger M K V} {key : K}

/-- If a stored key has the mark of the original, entries stay filed. -/
theorem filed_serve (copied : ∀ key, rules.mark (rules.policy.secureKey key).val = rules.mark key.val)
    (filed : Filed rules.mark ledger) (request : Request K V) :
    Filed rules.mark (serve rules ledger request).2 := by
  cases request with
  | insert key value =>
    simp only [serve]
    split
    · split
      · exact filed
      · exact filed_revalue filed _ _
    · split
      · exact filed
      · refine List.forall_mem_append.mpr ⟨filed, ?_⟩
        intro record member
        obtain rfl := List.mem_singleton.mp member
        exact (copied key).symm
  | remove key => exact fun record member => filed record (List.mem_of_mem_eraseP member)
  | clear => exact List.forall_mem_nil _
  | lookup key => exact filed
  | lookupEntry key => exact filed
  | contains key => exact filed
  | size => exact filed

variable [LawfulBEq M]

/-- The mark of a filed entry adds nothing to the comparison. -/
theorem selects_unmarked (congruent : rules.Congruent) {record : Record M K V}
    (filed : record.mark = rules.mark record.key.val) :
    selects rules.unmarked key record.unmarked = selects rules key record := by
  simp only [selects, Rules.unmarked, Record.unmarked, beq_self_eq_true, Bool.true_and]
  cases equal : rules.policy.compare key record.key.val == .eq with
  | false => rw [Bool.and_false]
  | true =>
    have same := congruent _ _ (beq_iff_eq.mp equal)
    rw [filed, same, beq_self_eq_true, Bool.true_and]

theorem find_unmarked (congruent : rules.Congruent) (filed : Filed rules.mark ledger) :
    find rules.unmarked key ledger.unmarked = (find rules key ledger).map Record.unmarked := by
  unfold find unmarked
  induction ledger with
  | nil => rfl
  | cons record rest ih =>
    obtain ⟨here, there⟩ := List.forall_mem_cons.mp filed
    simp only [List.map_cons, List.find?_cons, selects_unmarked congruent here, ih there]
    cases selects rules key record <;> rfl

theorem revalue_unmarked (congruent : rules.Congruent) (filed : Filed rules.mark ledger) (value : Held V) :
    revalue (selects rules.unmarked key) value ledger.unmarked =
      unmarked (revalue (selects rules key) value ledger) := by
  unfold unmarked
  induction ledger with
  | nil => rfl
  | cons record rest ih =>
    obtain ⟨here, there⟩ := List.forall_mem_cons.mp filed
    simp only [List.map_cons, revalue, selects_unmarked congruent here, ih there]
    cases selects rules key record <;> rfl

theorem eraseP_unmarked (congruent : rules.Congruent) (filed : Filed rules.mark ledger) :
    ledger.unmarked.eraseP (selects rules.unmarked key) =
      unmarked (ledger.eraseP (selects rules key)) := by
  unfold unmarked
  induction ledger with
  | nil => rfl
  | cons record rest ih =>
    obtain ⟨here, there⟩ := List.forall_mem_cons.mp filed
    simp only [List.map_cons, List.eraseP_cons, selects_unmarked congruent here, ih there]
    cases selects rules key record <;> rfl

/-- A list of filed entries answers without the marks what it answers with them. -/
theorem serve_unmarked (congruent : rules.Congruent) (filed : Filed rules.mark ledger) (request : Request K V) :
    serve rules.unmarked ledger.unmarked request =
      ((serve rules ledger request).1, unmarked (serve rules ledger request).2) := by
  have length : ledger.unmarked.length = ledger.length := List.length_map _
  cases request with
  | insert key value =>
    have found : find rules.unmarked key.val ledger.unmarked = _ := find_unmarked congruent filed
    cases met : find rules key.val ledger with
    | some record =>
      rw [met] at found
      cases kept : rules.noOverwrite with
      | true => rw [serve_refused found kept, serve_refused met kept]
      | false =>
        rw [serve_updated found kept, serve_updated met kept, revalue_unmarked congruent filed]
        rfl
    | none =>
      rw [met] at found
      by_cases full : Slots.capacity ≤ ledger.length
      · rw [serve_full found (length.symm ▸ full), serve_full met full]
      · rw [serve_inserted found (length.symm ▸ full), serve_inserted met full]
        simp only [unmarked, List.map_append]
        rfl
  | lookup key =>
    simp only [serve, find_unmarked congruent filed, Option.map_map]
    rfl
  | lookupEntry key =>
    simp only [serve, find_unmarked congruent filed, Option.map_map]
    rfl
  | contains key => simp only [serve, find_unmarked congruent filed, Option.isSome_map]
  | remove key =>
    simp only [serve, find_unmarked congruent filed, eraseP_unmarked congruent filed, Option.map_map]
    rfl
  | size => simp only [serve, length]
  | clear =>
    simp only [serve, length]
    rfl

/-- Lists with the same entries under each mark have the same entries. -/
theorem perm_of_marks {first second : Ledger M K V}
    (alike : ∀ mark, first.filter (·.mark == mark) = second.filter (·.mark == mark)) : first.Perm second := by
  classical
  refine List.perm_iff_count.mpr fun record => ?_
  have own : ∀ ledger : Ledger M K V,
      (ledger.filter (·.mark == record.mark)).count record = ledger.count record :=
    fun ledger => List.count_filter (beq_self_eq_true record.mark)
  rw [← own first, ← own second, alike]

end Unmarked

end Ledger

/-! ### A hashed map and the list it mirrors -/

namespace HashedMap

variable {map : HashedMap K V} {ledger : Ledger UInt64 K V}

/-- The entries of the map by bucket and along each chain, each filed under the hash of its link. -/
def filing (map : HashedMap K V) : Ledger UInt64 K V :=
  map.links.filterMap fun link => map.slots.record? link.hash link.tag

theorem filter_filing (map : HashedMap K V) (hash : UInt64) :
    map.filing.filter (·.mark == hash) = map.slots.records hash (map.kin hash) := by
  unfold filing Slots.records kin kinOf
  rw [List.filter_filterMap, List.filterMap_map, List.filterMap_filter]
  refine List.filterMap_congr fun link _ => ?_
  unfold Slots.record?
  by_cases same : link.hash = hash <;> cases held : map.slots.get? link.tag.handle <;> simp [same, held]

theorem unmarked_filing (map : HashedMap K V) :
    map.filing.unmarked = map.slots.records () (map.links.map Link.tag) := by
  unfold filing Ledger.unmarked Slots.records
  rw [List.map_filterMap, List.filterMap_map]
  refine List.filterMap_congr fun link _ => ?_
  exact Option.map_map _ _ _

/-- A map mirrors its own entries. -/
theorem WellFormed.mirrors (wellFormed : map.WellFormed) : map.Mirrors map.filing := by
  refine ⟨wellFormed, ?_, fun hash => map.filter_filing hash⟩
  have length := congrArg List.length map.unmarked_filing
  have live : ∀ tag ∈ map.links.map Link.tag, ∃ value, map.slots.get? tag.handle = some value := by
    intro tag member
    obtain ⟨link, within, rfl⟩ := List.mem_map.mp member
    exact wellFormed.inUse.get? (List.mem_map_of_mem within)
  rw [Ledger.unmarked, List.length_map, Slots.length_records live, List.length_map] at length
  exact wellFormed.size_eq.trans length.symm

theorem Mirrors.filing_perm (mirrors : map.Mirrors ledger) : map.filing.Perm ledger :=
  Ledger.perm_of_marks fun hash => (map.filter_filing hash).trans (mirrors.alike hash).symm

/-- A traversal by buckets returns the entries of the map in their order. -/
theorem entries_filing (wellFormed : map.WellFormed) :
    (Store.hashed map).entries none = .ok (map.filing.map Record.pair) := by
  rw [entries_eq wellFormed, ← unmarked_filing, Ledger.map_pair_unmarked]

/-- The entries that a traversal by buckets returns are those of the list. -/
theorem Mirrors.entries_perm (mirrors : map.Mirrors ledger) :
    ∃ found, (Store.hashed map).entries none = .ok found ∧ found.Perm (ledger.map Record.pair) :=
  ⟨_, entries_filing mirrors.wellFormed, mirrors.filing_perm.map Record.pair⟩

end HashedMap

/-! ### Both kinds of store and one list -/

/-- What a store of either kind can be asked to do. -/
inductive StoreRequest (K V : Type) where
  | common (request : Request K V)
  | isEmpty

/-- A request to a store. -/
def Store.serve (store : Store K V) (request : StoreRequest K V) (granted : Bool := true) :
    Except Fault (Answer K V × Store K V) :=
  match request with
  | .common (.insert key value) => do
    let (outcome, after) ← store.insert key value granted
    return (.added outcome, after)
  | .common (.lookup key) => do return (.value (← store.lookup key), store)
  | .common (.lookupEntry key) => do return (.entry (← store.lookupEntry key), store)
  | .common (.contains key) => do return (.truth (← store.contains key), store)
  | .common (.remove key) => do
    let (value, after) ← store.remove key granted
    return (.removed value, after)
  | .common .size => .ok (.count store.size, store)
  | .common .clear => do
    let (released, after) ← store.clear granted
    return (.count released, after)
  | .isEmpty => .ok (.truth store.isEmpty, store)

/-- A request to a store with the memory that is granted for it. -/
def Store.meet (store : Store K V) (demand : Demand (StoreRequest K V)) : Except Fault (Answer K V × Store K V) :=
  store.serve demand.request demand.granted

/-- A request to the reference. -/
def Ledger.serveStore [BEq M] (rules : Rules M K V) (ledger : Ledger M K V) :
    StoreRequest K V → Answer K V × Ledger M K V
  | .common request => serve rules ledger request
  | .isEmpty => (.truth (ledger.length == 0), ledger)

namespace Store

/-- A hashed store that mirrors the list. -/
def Files (rules : Rules UInt64 K V) (store : Store K V) (ledger : Ledger UInt64 K V) : Prop :=
  ∃ map, store = hashed map ∧ map.rules = rules ∧ map.Mirrors ledger

/-- An ordered store that mirrors the list without its marks, which are those of the stored keys. -/
def Ranks (rules : Rules M K V) (store : Store K V) (ledger : Ledger M K V) : Prop :=
  ledger.Filed rules.mark ∧
    ∃ map, store = ordered map ∧ map.rules = rules.unmarked ∧ map.Mirrors ledger.unmarked

theorem serve_hashed (map : HashedMap K V) (request : Request K V) (granted : Bool) :
    (hashed map).serve (.common request) granted =
      (fun (answer, after) => (answer, hashed after)) <$> map.serve request granted := by
  cases request with
  | insert key value =>
    simp only [serve, insert, HashedMap.serve]
    cases map.insert key value granted <;> rfl
  | lookup key =>
    simp only [serve, lookup, HashedMap.serve]
    cases map.lookup key <;> rfl
  | lookupEntry key =>
    simp only [serve, lookupEntry, HashedMap.serve]
    cases map.lookupEntry key <;> rfl
  | contains key =>
    simp only [serve, contains, lookup, HashedMap.serve, HashedMap.contains]
    cases map.lookup key <;> rfl
  | remove key =>
    simp only [serve, remove, HashedMap.serve]
    cases map.remove key granted <;> rfl
  | size => rfl
  | clear =>
    simp only [serve, clear, HashedMap.serve]
    cases map.clear granted <;> rfl

theorem serve_ordered {map : OrderedMap K V} {ledger : Ledger Unit K V} (mirrors : map.Mirrors ledger)
    (lawful : map.policy.Lawful) (request : Request K V) (granted : Bool) :
    (ordered map).serve (.common request) granted =
      (fun (answer, after) => (answer, ordered after)) <$> map.serve (.common request) := by
  cases request with
  | insert key value =>
    simp only [serve, insert, OrderedMap.serve]
    cases map.insert key value <;> rfl
  | lookup key =>
    simp only [serve, lookup, OrderedMap.serve]
    cases map.lookup key <;> rfl
  | lookupEntry key =>
    simp only [serve, lookupEntry, OrderedMap.serve]
    cases map.lookupEntry key <;> rfl
  | contains key =>
    -- An ordered map is asked for the tag, a store for the value behind it.
    simp only [serve, contains, lookup, OrderedMap.serve, OrderedMap.lookup, mirrors.lookupEntry_eq lawful,
      mirrors.contains_eq lawful]
    cases Ledger.find map.rules key ledger <;> rfl
  | remove key =>
    simp only [serve, remove, OrderedMap.serve]
    cases map.remove key <;> rfl
  | size => rfl
  | clear =>
    simp only [serve, clear, OrderedMap.serve]
    cases map.clear <;> rfl

/-- One request: a hashed store answers what the list answers, whether memory is granted or not. -/
theorem files_matches (rules : Rules UInt64 K V) :
    Matches meet (fun ledger demand => Ledger.serveStore rules ledger demand.request) (Files rules) := by
  rintro _ ledger ⟨request, granted⟩ ⟨map, rfl, ruled, mirrors⟩
  cases request with
  | isEmpty =>
    refine ⟨hashed map, ?_, map, rfl, ruled, mirrors⟩
    simp only [meet, serve, isEmpty, size, mirrors.length, Ledger.serveStore]
  | common request =>
    obtain ⟨after, served, kept⟩ :=
      HashedMap.meet_matches rules map ledger ⟨request, granted⟩ ⟨ruled, mirrors⟩
    refine ⟨hashed after, ?_, after, rfl, kept⟩
    rw [HashedMap.meet] at served
    rw [meet, serve_hashed, served]
    rfl

/-- One request: an ordered store answers what the list answers, if the marks respect the comparison. -/
theorem ranks_matches [BEq M] [LawfulBEq M] (rules : Rules M K V) (lawful : rules.policy.Lawful)
    (congruent : rules.Congruent) :
    Matches meet (fun ledger demand => Ledger.serveStore rules ledger demand.request) (Ranks rules) := by
  rintro _ ledger ⟨request, granted⟩ ⟨filed, map, rfl, ruled, mirrors⟩
  have same : map.policy = rules.policy := congrArg Rules.policy ruled
  have copied := fun key => congruent _ _ (lawful.secureKey key)
  cases request with
  | isEmpty =>
    refine ⟨ordered map, ?_, filed, map, rfl, ruled, mirrors⟩
    have length : map.size = ledger.length := mirrors.length_eq.trans (List.length_map _)
    simp only [meet, serve, isEmpty, size, length, Ledger.serveStore]
  | common request =>
    obtain ⟨after, served, kept⟩ :=
      OrderedMap.serve_matches rules.unmarked lawful map ledger.unmarked (.common request) ⟨ruled, mirrors⟩
    rw [Ledger.serveOrdered, Ledger.serve_unmarked congruent filed] at served kept
    refine ⟨ordered after, ?_, Ledger.filed_serve copied filed request, after, rfl, kept⟩
    rw [meet, serve_ordered mirrors (same ▸ lawful), served]
    rfl

/-- Under a lawful policy and a hash that respects it, an ordered store and a hashed one answer every run of
requests alike, whatever is said of refusing to overwrite, and whether the hashed one is granted or refused the
memory that it asks for. At the end of it they release equally many entries, and traversals of the two return the
same entries, in whatever order. -/
theorem run_interchangeable (first second : Identity) (policy : Policy K V) (hash : K → UInt64)
    (noOverwrite : Bool) (lawful : policy.Lawful)
    (congruent : ∀ one two, policy.compare one two = .eq → hash one = hash two)
    (demands : List (Demand (StoreRequest K V))) :
    ∃ answers ordered hashed released ranked filed,
      runAll meet (build first (.ordered policy noOverwrite)) demands = .ok (answers, ordered) ∧
      runAll meet (build second (.hashed (policy.hashingBy hash) noOverwrite)) demands =
        .ok (answers, hashed) ∧
      ordered.dispose = .ok released ∧ hashed.dispose = .ok released ∧
      ordered.entries none = .ok ranked ∧ hashed.entries none = .ok filed ∧ ranked.Perm filed := by
  have ranking : Ranks ⟨policy, hash, noOverwrite⟩ (build first (.ordered policy noOverwrite)) [] :=
    ⟨nofun, _, rfl, rfl, OrderedMap.mirrors_fresh first policy noOverwrite⟩
  have filing : Files ⟨policy, hash, noOverwrite⟩
      (build second (.hashed (policy.hashingBy hash) noOverwrite)) [] :=
    ⟨_, rfl, rfl, HashedMap.mirrors_fresh second (policy.hashingBy hash) noOverwrite⟩
  obtain ⟨_, ranked, _, map, rfl, _, ranks⟩ :=
    runAll_eq_replay (ranks_matches ⟨policy, hash, noOverwrite⟩ lawful congruent) demands ranking
  obtain ⟨_, ran, table, rfl, _, files⟩ :=
    runAll_eq_replay (files_matches ⟨policy, hash, noOverwrite⟩) demands filing
  have released : table.size = map.size :=
    files.length.trans (ranks.length_eq.trans (List.length_map _)).symm
  have disposed : (hashed table).dispose = .ok map.size := by
    rw [← released]
    exact Store.dispose_answers files.wellFormed
  obtain ⟨found, traversed, same⟩ := files.entries_perm
  have listed := ranks.holds.map Record.pair
  rw [Ledger.map_pair_unmarked] at listed
  exact ⟨_, _, _, _, _, _, ranked, ran, Store.dispose_answers ranks.wellFormed, disposed,
    OrderedMap.entries_eq ranks.wellFormed, traversed, listed.trans same.symm⟩

/-- Two additions to one class and one to another, a refusal, a look-up by another member of the class and
its removal: numbers by their tens, hashed by their tens. -/
theorem run_interchangeable_tens :
    ∃ ordered hashed, runAll meet (build ⟨0⟩ (.ordered Policy.tens true))
        [⟨.common (.insert ⟨.borrowed, 57⟩ ⟨.owned, "a"⟩), true⟩,
          ⟨.common (.insert ⟨.owned, 51⟩ ⟨.owned, "b"⟩), false⟩,
          ⟨.common (.insert ⟨.owned, 12⟩ ⟨.borrowed, "c"⟩), false⟩, ⟨.common (.lookupEntry 59), true⟩,
          ⟨.common (.remove 15), false⟩, ⟨.isEmpty, true⟩] =
        .ok ([.added (.ok .inserted), .added (.error .keyExists), .added (.ok .inserted),
          .entry (some (50, "a")), .removed (some ⟨.borrowed, "c"⟩), .truth false], ordered) ∧
      runAll meet (build ⟨1⟩ (.hashed (Policy.tens.hashingBy fun key => UInt64.ofNat (key / 10)) true))
        [⟨.common (.insert ⟨.borrowed, 57⟩ ⟨.owned, "a"⟩), true⟩,
          ⟨.common (.insert ⟨.owned, 51⟩ ⟨.owned, "b"⟩), false⟩,
          ⟨.common (.insert ⟨.owned, 12⟩ ⟨.borrowed, "c"⟩), false⟩, ⟨.common (.lookupEntry 59), true⟩,
          ⟨.common (.remove 15), false⟩, ⟨.isEmpty, true⟩] =
        .ok ([.added (.ok .inserted), .added (.error .keyExists), .added (.ok .inserted),
          .entry (some (50, "a")), .removed (some ⟨.borrowed, "c"⟩), .truth false], hashed) ∧
      ordered.dispose = hashed.dispose := by
  have congruent : ∀ one two : Nat, (Policy.tens : Policy Nat String).compare one two = .eq →
      UInt64.ofNat (one / 10) = UInt64.ofNat (two / 10) := by
    intro one two equal
    exact congrArg UInt64.ofNat (Nat.compare_eq_eq.mp equal)
  obtain ⟨answers, ordered, hashed, released, _, _, ranked, ran, gone, also, _⟩ :=
    run_interchangeable ⟨0⟩ ⟨1⟩ (Policy.tens : Policy Nat String) (fun key => UInt64.ofNat (key / 10)) true
      Policy.lawful_tens congruent
      [⟨.common (.insert ⟨.borrowed, 57⟩ ⟨.owned, "a"⟩), true⟩,
        ⟨.common (.insert ⟨.owned, 51⟩ ⟨.owned, "b"⟩), false⟩,
        ⟨.common (.insert ⟨.owned, 12⟩ ⟨.borrowed, "c"⟩), false⟩, ⟨.common (.lookupEntry 59), true⟩,
        ⟨.common (.remove 15), false⟩, ⟨.isEmpty, true⟩]
  obtain ⟨rfl, rfl⟩ := Prod.mk.inj (Except.ok.inj ranked)
  exact ⟨_, hashed, ranked, ran, gone.trans also.symm⟩

end Store

end KeyedStore
