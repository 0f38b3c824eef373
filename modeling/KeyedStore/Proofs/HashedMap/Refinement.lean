import KeyedStore.Proofs.Simulation
import KeyedStore.Proofs.HashedMap.Changes
/-!
Whatever the policy, a hashed map is a list of entries in the order in which they were made. It mirrors the
list hash by hash: the entries of one hash stand in one chain in the order of the list, though the entries
of one bucket need not. A search asks only about one hash, so every operation answers what the list
answers; how many buckets there are, and when they are rebuilt, is never seen.
-/
namespace KeyedStore.HashedMap

variable {K V : Type}

/-- A request to the map. -/
def serve (map : HashedMap K V) (request : Request K V) (granted : Bool := true) :
    Except Fault (Answer K V × HashedMap K V) :=
  match request with
  | .insert key value => do
    let (outcome, after) ← map.insert key value granted
    return (.added outcome, after)
  | .lookup key => do return (.value (← map.lookup key), map)
  | .lookupEntry key => do return (.entry (← map.lookupEntry key), map)
  | .contains key => do return (.truth (← map.contains key), map)
  | .remove key => do
    let (value, after) ← map.remove key granted
    return (.removed value, after)
  | .size => .ok (.count map.size, map)
  | .clear => do
    let (released, after) ← map.clear granted
    return (.count released, after)

/-- A request to the map with the memory that is granted for it. -/
def meet (map : HashedMap K V) (demand : Demand (Request K V)) : Except Fault (Answer K V × HashedMap K V) :=
  map.serve demand.request demand.granted

/-- What a reference for this map goes by: an entry is filed under the hash of its key as it was passed. -/
def rules (map : HashedMap K V) : Rules UInt64 K V :=
  ⟨map.policy.base, map.policy.hash, map.noOverwrite⟩

/-- The entries of each hash are those of the list, in its order. -/
structure Mirrors (map : HashedMap K V) (ledger : Ledger UInt64 K V) : Prop where
  wellFormed : map.WellFormed
  length : map.size = ledger.length
  alike : ∀ hash, ledger.filter (·.mark == hash) = map.slots.records hash (map.kin hash)

variable {map after : HashedMap K V} {ledger : Ledger UInt64 K V} {key : K} {link : Link K} {granted : Bool}

/-- A request changes the map in one of the ways in which changes end, or leaves it. -/
theorem changed_of_serve (wellFormed : map.WellFormed) {request : Request K V} {answer : Answer K V}
    (served : map.serve request granted = .ok (answer, after)) :
    after = map ∨ ∃ change, Changed map granted change after := by
  cases request with
  | insert key value =>
    obtain ⟨outcome, left, done, insertion⟩ := insert_ends wellFormed granted key value
    simp only [serve, done] at served
    cases served
    exact .inr ⟨_, .insert insertion⟩
  | remove key =>
    obtain ⟨value, left, done, removal⟩ := remove_ends wellFormed granted key
    simp only [serve, done] at served
    cases served
    exact .inr ⟨_, .remove removal⟩
  | clear =>
    obtain ⟨left, done, cleared⟩ := clear_ends wellFormed granted
    simp only [serve, done] at served
    cases served
    exact .inr ⟨_, .clear cleared⟩
  | size =>
    cases served
    exact .inl rfl
  | lookup key | lookupEntry key | contains key =>
    simp only [serve, bind_eq_ok, pure_eq_ok] at served
    obtain ⟨found, _, paired⟩ := served
    obtain ⟨_, rfl⟩ := Prod.mk.inj paired
    exact .inl rfl

/-! ### Where a key leads, here and there -/

/-- There is one way to split a list at the first entry with a property. -/
private theorem split_unique {α : Type} (chosen : α → Bool) {front back earlier later : List α} {entry : α}
    (same : earlier ++ entry :: later = front ++ entry :: back)
    (one : ∀ other ∈ earlier, chosen other = false) (two : ∀ other ∈ front, chosen other = false)
    (picked : chosen entry = true) : earlier = front ∧ later = back := by
  induction earlier generalizing front with
  | nil =>
    cases front with
    | nil => exact ⟨rfl, (List.cons.inj same).2⟩
    | cons head front =>
      have first := two head List.mem_cons_self
      rw [← (List.cons.inj same).1, picked] at first
      cases first
  | cons head earlier ih =>
    cases front with
    | nil =>
      have first := one head List.mem_cons_self
      rw [(List.cons.inj same).1, picked] at first
      cases first
    | cons other front =>
      obtain ⟨rfl, further⟩ := List.cons.inj same
      obtain ⟨rfl, rfl⟩ := ih further (fun entry member => one entry (List.mem_cons_of_mem _ member))
        (fun entry member => two entry (List.mem_cons_of_mem _ member))
      exact ⟨rfl, rfl⟩

theorem find_eq_filter (rules : Rules UInt64 K V) (key : K) (ledger : Ledger UInt64 K V) :
    Ledger.find rules key ledger = (ledger.filter (·.mark == rules.mark key)).find?
      (fun record => rules.policy.compare key record.key.val == .eq) := by
  rw [Ledger.find, List.find?_filter]
  refine congrArg (List.find? · ledger) (funext fun record => ?_)
  rw [Bool.decide_and, Bool.decide_eq_true, Bool.decide_eq_true]
  rfl

/-- Links that do not answer a search hold no record that the key means. -/
theorem passed_of_unanswering {links : List (Link K)}
    (unanswering : ∀ link ∈ links, answers map.policy key (map.policy.hash key) link = false) :
    ∀ record ∈ map.slots.records (map.policy.hash key) (kinOf (map.policy.hash key) links),
      (map.policy.base.compare key record.key.val == .eq) = false := by
  intro record member
  obtain ⟨tag, within, value, _, rfl⟩ := Slots.mem_records.mp member
  obtain ⟨link, inside, same, rfl⟩ := mem_kinOf.mp within
  have answer := unanswering link inside
  simpa [answers, same, Link.tag] using answer

/-- A link and its record, with what surrounds them: the links of its hash before and after it are the
entries of the list before and after, and the links of any other hash are those of the list without it. -/
structure Aligned (map : HashedMap K V) (ledger : Ledger UInt64 K V) (key : K) (link : Link K)
    (value : Held V) (front back : List (Link K)) (earlier later : Ledger UInt64 K V) : Prop where
  held : map.slots.get? link.handle = some value
  listed : map.links = front ++ link :: back
  found : Ledger.find map.rules key ledger = some ⟨link.hash, link.key, value⟩
  split : ledger = earlier ++ ⟨link.hash, link.key, value⟩ :: later
  erased : ledger.eraseP (Ledger.selects map.rules key) = earlier ++ later
  revalued : ∀ other, Ledger.revalue (Ledger.selects map.rules key) other ledger =
    earlier ++ ⟨link.hash, link.key, other⟩ :: later
  rest : ∀ hash, (earlier ++ later).filter (·.mark == hash) =
    map.slots.records hash (kinOf hash (front ++ back))
  sides : earlier.filter (·.mark == link.hash) = map.slots.records link.hash (kinOf link.hash front) ∧
    later.filter (·.mark == link.hash) = map.slots.records link.hash (kinOf link.hash back)

namespace Mirrors

variable (mirrors : map.Mirrors ledger)

include mirrors

theorem find_missed (missed : map.meant key = none) : Ledger.find map.rules key ledger = none := by
  have unanswering : ∀ link ∈ map.links, answers map.policy key (map.policy.hash key) link = false := by
    intro link member
    simpa using List.find?_eq_none.mp missed link member
  rw [find_eq_filter, mirrors.alike]
  exact List.find?_eq_none.mpr fun record member =>
    ne_true_of_eq_false (passed_of_unanswering unanswering record member)

/-- Around a link, the entries of its hash are those of the links of its hash. -/
theorem alike_around {value : Held V} {front back : List (Link K)}
    (held : map.slots.get? link.handle = some value) (listed : map.links = front ++ link :: back) :
    ledger.filter (·.mark == link.hash) = map.slots.records link.hash (kinOf link.hash front) ++
      ⟨link.hash, link.key, value⟩ :: map.slots.records link.hash (kinOf link.hash back) := by
  rw [mirrors.alike, kin, listed, kinOf_append, kinOf_cons, Slots.records_append, Slots.records_cons held]
  rfl

/-- Where a search meets a link, the list has its record, and what surrounds the two agrees. -/
theorem find_met (met : map.meant key = some link) :
    ∃ value front back earlier later, map.Aligned ledger key link value front back earlier later := by
  obtain ⟨value, held⟩ := mirrors.wellFormed.get?_of_met met
  obtain ⟨answer, front, back, listed, passed⟩ := List.find?_eq_some_iff_append.mp met
  have unanswering : ∀ link ∈ front, answers map.policy key (map.policy.hash key) link = false :=
    fun other member => by simpa using passed other member
  simp only [answers, Bool.and_eq_true, beq_iff_eq] at answer
  obtain ⟨same, equal⟩ := answer
  have here := mirrors.alike_around held listed
  have skipped := passed_of_unanswering unanswering
  rw [← same] at skipped
  have found : Ledger.find map.rules key ledger = some ⟨link.hash, link.key, value⟩ := by
    have unmet : (map.slots.records link.hash (kinOf link.hash front)).find?
        (fun record => map.rules.policy.compare key record.key.val == .eq) = none :=
      List.find?_eq_none.mpr fun record member => ne_true_of_eq_false (skipped record member)
    rw [find_eq_filter, show map.rules.mark key = link.hash from same.symm, here, List.find?_append,
      unmet, Option.none_or]
    exact List.find?_cons_of_pos (beq_iff_eq.mpr equal)
  obtain ⟨earlier, later, split, unselected, erased, revalued⟩ := Ledger.split_of_find found
  have sides : earlier.filter (·.mark == link.hash) = map.slots.records link.hash (kinOf link.hash front) ∧
      later.filter (·.mark == link.hash) = map.slots.records link.hash (kinOf link.hash back) := by
    -- Both sides are split at the first entry that the key means.
    rw [split, List.filter_append, List.filter_cons_of_pos (by simp)] at here
    refine split_unique (fun record => map.policy.base.compare key record.key.val == .eq)
      here ?_ skipped (by simpa using equal)
    intro record member
    obtain ⟨within, mark⟩ := List.mem_filter.mp member
    have left := unselected record within
    simp only [Ledger.selects, rules, ← same, mark, Bool.true_and] at left
    exact left
  refine ⟨value, front, back, earlier, later, held, listed, found, split, erased, revalued, ?_, sides⟩
  intro hash
  by_cases alone : link.hash = hash
  · subst alone
    rw [List.filter_append, sides.1, sides.2, kinOf_append, Slots.records_append]
  · have there := mirrors.alike hash
    rw [split, List.filter_append, List.filter_cons_of_neg (by simpa using alone), kin, listed, kinOf_append,
      kinOf_cons_ne alone] at there
    rw [List.filter_append, kinOf_append]
    exact there

end Mirrors

/-! ### Every operation is mirrored -/

section Aligned

variable {value : Held V} {front back : List (Link K)} {earlier later : Ledger UInt64 K V}

/-- No other link has the handle of the one that a search meets. -/
theorem Aligned.apart (aligned : map.Aligned ledger key link value front back earlier later)
    (wellFormed : map.WellFormed) : link.handle ∉ (front ++ back).map (·.handle) := by
  have nodup := wellFormed.inUse.nodup
  rw [aligned.listed, List.map_append, List.map_cons, List.nodup_middle, ← List.map_append] at nodup
  exact (List.nodup_cons.mp nodup).1

/-- With another value behind the link that a search meets, the list with that value is mirrored. -/
theorem Aligned.mirrors_updated (aligned : map.Aligned ledger key link value front back earlier later)
    (mirrors : map.Mirrors ledger) {other : Held V} {slots : Slots (Held V)}
    (done : map.slots.replace link.handle other = .ok slots)
    (wellFormed : WellFormed { map with slots := slots }) :
    Mirrors { map with slots := slots } (earlier ++ ⟨link.hash, link.key, other⟩ :: later) := by
  have apart := aligned.apart mirrors.wellFormed
  have replaced : slots.get? link.handle = some other := by rw [Slots.get?_replace done, if_pos rfl]
  refine ⟨wellFormed, ?_, ?_⟩
  · rw [← aligned.revalued, Ledger.length_revalue, ← mirrors.length]
    exact Slots.size_replace done
  · intro hash
    have listed : kin { map with slots := slots } hash = kinOf hash (front ++ link :: back) :=
      congrArg (kinOf hash) aligned.listed
    rw [listed]
    by_cases alone : link.hash = hash
    · subst alone
      rw [List.map_append, List.mem_append, not_or] at apart
      rw [List.filter_append, List.filter_cons_of_pos (by simp), aligned.sides.1, aligned.sides.2,
        kinOf_append, kinOf_cons, Slots.records_append, Slots.records_cons replaced,
        Slots.records_replace done (notMem_kinOf apart.1 _),
        Slots.records_replace done (notMem_kinOf apart.2 _)]
      rfl
    · have others : kinOf hash (front ++ link :: back) = kinOf hash (front ++ back) := by
        rw [kinOf_append, kinOf_cons_ne alone, ← kinOf_append]
      rw [List.filter_append, List.filter_cons_of_neg (by simpa using alone), ← List.filter_append,
        aligned.rest, others]
      exact (Slots.records_replace done (notMem_kinOf apart _)).symm

/-- Without the link that a search meets, the list without its record is mirrored. -/
theorem Aligned.mirrors_removed (aligned : map.Aligned ledger key link value front back earlier later)
    (mirrors : map.Mirrors ledger) {shorter : HashedMap K V} {slots : Slots (Held V)} (transactions : Nat)
    (taken : map.slots.take link.handle = .ok (value, slots)) (detached : map.Detached link shorter) :
    Mirrors { shorter with slots := slots, transactions := transactions } (earlier ++ later) := by
  have member : link ∈ map.links := by simp [aligned.listed]
  have left := detached.links front back aligned.listed
  refine ⟨wellFormed_shorter mirrors.wellFormed transactions member taken detached, ?_, ?_⟩
  · have fewer : slots.size + 1 = map.size := Slots.size_take taken
    rw [mirrors.length, aligned.split, List.length_append, List.length_cons] at fewer
    rw [List.length_append]
    exact Nat.succ.inj fewer
  · intro hash
    have listed : kin { shorter with slots := slots, transactions := transactions } hash =
        kinOf hash (front ++ back) := congrArg (kinOf hash) left
    have apart := notMem_kinOf (aligned.apart mirrors.wellFormed) hash
    rw [aligned.rest, listed]
    exact (Slots.records_take taken apart).symm

end Aligned

theorem Mirrors.settled {settled : HashedMap K V} (mirrors : map.Mirrors ledger)
    (settling : map.Settled granted settled) : settled.Mirrors ledger := by
  obtain ⟨_, _, _, slots, kin⟩ := settling.frame
  refine ⟨settling.wellFormed mirrors.wellFormed, ?_, ?_⟩
  · rw [size, slots]
    exact mirrors.length
  · intro hash
    rw [slots, kin]
    exact mirrors.alike hash

theorem Mirrors.extended {longer : HashedMap K V} {key : Held K} {value : Held V} (transactions : Nat)
    (mirrors : map.Mirrors ledger) (extended : map.Extended [map.fresh key] longer)
    (wellFormed : WellFormed { longer with
      slots := map.slots.insert value, transactions := transactions }) :
    Mirrors { longer with slots := map.slots.insert value, transactions := transactions }
      (ledger ++ [⟨map.policy.hash key.val, map.policy.base.secureKey key, value⟩]) := by
  have placed : (map.slots.insert value).get? map.slots.next = some value := by
    rw [Slots.get?_insert, if_pos rfl]
  have unused := mirrors.wellFormed.inUse.next_notMem
  refine ⟨wellFormed, ?_, ?_⟩
  · rw [List.length_append, ← mirrors.length]
    rfl
  · intro hash
    have listed : kin { longer with slots := map.slots.insert value, transactions := transactions } hash =
        map.kin hash ++ kinOf hash [map.fresh key] := extended.kin hash
    have old : (map.slots.insert value).records hash (kinOf hash map.links) =
        map.slots.records hash (kinOf hash map.links) := Slots.records_insert (notMem_kinOf unused hash)
    rw [listed, Slots.records_append, kin, old, List.filter_append, mirrors.alike]
    by_cases alone : map.policy.hash key.val = hash
    · subst alone
      rw [List.filter_cons_of_pos (by simp), List.filter_nil,
        show kinOf (map.policy.hash key.val) [map.fresh key] = [(map.fresh key).tag] from kinOf_cons _ [],
        Slots.records_cons (show (map.slots.insert value).get? (map.fresh key).tag.handle = some value from placed)]
      rfl
    · rw [List.filter_cons_of_neg (by simpa using alone), List.filter_nil,
        show kinOf hash [map.fresh key] = [] from kinOf_cons_ne alone []]
      rfl

theorem Insertion.rules_eq {key : Held K} {value : Held V} {outcome : Except AddError Addition}
    (insertion : Insertion map granted key value outcome after) : after.rules = map.rules := by
  cases insertion with
  | refused => rfl
  | updated => rfl
  | full => rfl
  | inserted missed room settling extended =>
    obtain ⟨_, policy, noOverwrite, _, _⟩ := settling.frame
    rw [extended.frame]
    simp only [rules, policy, noOverwrite]

theorem Insertion.mirrors {key : Held K} {value : Held V} {outcome : Except AddError Addition}
    (insertion : Insertion map granted key value outcome after) (mirrors : map.Mirrors ledger) :
    Answer.added outcome = (Ledger.serve map.rules ledger (.insert key value)).1 ∧
      after.Mirrors (Ledger.serve map.rules ledger (.insert key value)).2 := by
  have wellFormed := insertion.wellFormed mirrors.wellFormed
  cases insertion with
  | refused met kept =>
    obtain ⟨old, _, _, _, _, aligned⟩ := mirrors.find_met met
    rw [Ledger.serve_refused aligned.found kept]
    exact ⟨rfl, mirrors⟩
  | updated met free done =>
    obtain ⟨old, _, _, _, _, aligned⟩ := mirrors.find_met met
    rw [Ledger.serve_updated aligned.found free, aligned.revalued]
    exact ⟨rfl, aligned.mirrors_updated mirrors done wellFormed⟩
  | full missed full =>
    have full : Slots.capacity ≤ ledger.length := by
      rw [← mirrors.length]
      exact of_decide_eq_true full
    rw [Ledger.serve_full (mirrors.find_missed missed) full]
    exact ⟨rfl, mirrors⟩
  | inserted missed room settling extended =>
    have room : ¬ Slots.capacity ≤ ledger.length := by
      rw [← mirrors.length]
      exact of_decide_eq_false room
    have added := (mirrors.settled settling).extended _ extended wellFormed
    obtain ⟨_, policy, _, _, _⟩ := settling.frame
    rw [policy] at added
    rw [Ledger.serve_inserted (mirrors.find_missed missed) room]
    exact ⟨rfl, policy ▸ added⟩

theorem Removal.rules_eq {key : K} {value : Option (Held V)} (removal : Removal map granted key value after) :
    after.rules = map.rules := by
  cases removal with
  | missed => rfl
  | removed met taken detached enough => rw [detached.frame]; rfl
  | shrunk met taken detached sparse settling =>
    obtain ⟨_, policy, noOverwrite, _, _⟩ := settling.frame
    simp only [rules, policy, noOverwrite]
    rw [detached.frame]

theorem Removal.mirrors {value : Option (Held V)} (removal : Removal map granted key value after)
    (mirrors : map.Mirrors ledger) :
    Answer.removed value = (Ledger.serve map.rules ledger (.remove key)).1 ∧
      after.Mirrors (Ledger.serve map.rules ledger (.remove key)).2 := by
  cases removal with
  | missed missed =>
    rw [Ledger.serve_missed (mirrors.find_missed missed)]
    exact ⟨rfl, mirrors⟩
  | removed met taken detached enough =>
    obtain ⟨held, _, _, _, _, aligned⟩ := mirrors.find_met met
    obtain rfl := Option.some.inj (aligned.held.symm.trans (Slots.get?_of_take taken))
    rw [Ledger.serve_removed aligned.found, aligned.erased]
    exact ⟨rfl, aligned.mirrors_removed mirrors _ taken detached⟩
  | shrunk met taken detached sparse settling =>
    obtain ⟨held, _, _, _, _, aligned⟩ := mirrors.find_met met
    obtain rfl := Option.some.inj (aligned.held.symm.trans (Slots.get?_of_take taken))
    rw [Ledger.serve_removed aligned.found, aligned.erased]
    exact ⟨rfl, (aligned.mirrors_removed mirrors _ taken detached).settled settling⟩

theorem Cleared.mirrors (cleared : map.Cleared granted after) (wellFormed : map.WellFormed) : after.Mirrors [] := by
  obtain ⟨_, _, _, size, kin⟩ := cleared.frame wellFormed
  refine ⟨cleared.wellFormed wellFormed, size, ?_⟩
  intro hash
  rw [kin]
  rfl

theorem mirrors_fresh (id : Identity) (policy : HashPolicy K V) (noOverwrite : Bool) :
    Mirrors { id, policy, noOverwrite } [] := by
  refine ⟨wellFormed_fresh id policy noOverwrite, rfl, ?_⟩
  intro hash
  rw [kin, links_of_bare rfl]
  rfl

theorem Mirrors.lookupEntry_eq (mirrors : map.Mirrors ledger) (key : K) :
    map.lookupEntry key = .ok ((Ledger.find map.rules key ledger).map Record.pair) := by
  have found := mirrors.wellFormed.chained.find_eq key
  cases met : map.meant key with
  | none =>
    rw [met] at found
    simp only [lookupEntry, found, mirrors.find_missed met]
    rfl
  | some link =>
    rw [met] at found
    obtain ⟨value, _, _, _, _, aligned⟩ := mirrors.find_met met
    have read : map.entry link = .ok (link.key.val, value.val) := by
      simp only [entry, Slots.fetch, aligned.held]
      rfl
    simp only [lookupEntry, found, aligned.found, bind, Except.bind, read]
    rfl

theorem Mirrors.lookup_eq (mirrors : map.Mirrors ledger) (key : K) :
    map.lookup key = .ok ((Ledger.find map.rules key ledger).map (·.value.val)) := by
  simp only [lookup, mirrors.lookupEntry_eq]
  cases Ledger.find map.rules key ledger <;> rfl

/-- One request: the map answers what the list answers, and goes on mirroring it, whether memory is granted or not. -/
theorem meet_matches (rules : Rules UInt64 K V) :
    Matches meet (fun ledger demand => Ledger.serve rules ledger demand.request)
      fun map ledger => map.rules = rules ∧ map.Mirrors ledger := by
  rintro map ledger ⟨request, granted⟩ ⟨rfl, mirrors⟩
  cases request with
  | insert key value =>
    obtain ⟨outcome, after, done, insertion⟩ := insert_ends mirrors.wellFormed granted key value
    obtain ⟨answer, kept⟩ := insertion.mirrors mirrors
    refine ⟨after, ?_, insertion.rules_eq, kept⟩
    simp only [meet, serve, done, ← answer]
    rfl
  | remove key =>
    obtain ⟨value, after, done, removal⟩ := remove_ends mirrors.wellFormed granted key
    obtain ⟨answer, kept⟩ := removal.mirrors mirrors
    refine ⟨after, ?_, removal.rules_eq, kept⟩
    simp only [meet, serve, done, ← answer]
    rfl
  | clear =>
    obtain ⟨after, done, cleared⟩ := clear_ends mirrors.wellFormed granted
    obtain ⟨_, policy, noOverwrite, _, _⟩ := cleared.frame mirrors.wellFormed
    refine ⟨after, ?_, ?_, cleared.mirrors mirrors.wellFormed⟩
    · simp only [meet, serve, done, mirrors.length, Ledger.serve]
      rfl
    · simp only [HashedMap.rules, policy, noOverwrite]
  | size => exact ⟨map, by simp only [meet, serve, mirrors.length]; rfl, rfl, mirrors⟩
  | contains key =>
    refine ⟨map, ?_, rfl, mirrors⟩
    simp only [meet, serve, contains, mirrors.lookup_eq, Ledger.serve]
    cases Ledger.find map.rules key ledger <;> rfl
  | lookupEntry key => exact ⟨map, by simp only [meet, serve, mirrors.lookupEntry_eq]; rfl, rfl, mirrors⟩
  | lookup key => exact ⟨map, by simp only [meet, serve, mirrors.lookup_eq]; rfl, rfl, mirrors⟩

theorem serve_matches (rules : Rules UInt64 K V) :
    Matches serve (Ledger.serve rules) fun map ledger => map.rules = rules ∧ map.Mirrors ledger :=
  (meet_matches rules).along (⟨·, true⟩)

/-- Whatever the comparison, the hash and the copying functions answer, every run of requests to a fresh map
goes through and is answered as by the list of entries in the order in which they were made, each filed
under the hash of its key as it was passed, where a key means the first entry with its hash that the
policy calls equal to it. -/
theorem run_refines_insertion_order (id : Identity) (policy : HashPolicy K V) (noOverwrite : Bool)
    (requests : List (Request K V)) :
    ∃ map : HashedMap K V, runAll serve { id, policy, noOverwrite } requests =
      .ok ((replay (Ledger.serve ⟨policy.base, policy.hash, noOverwrite⟩) [] requests).1, map) := by
  obtain ⟨map, ran, _⟩ := runAll_eq_replay (serve_matches ⟨policy.base, policy.hash, noOverwrite⟩) requests
    ⟨rfl, mirrors_fresh id policy noOverwrite⟩
  exact ⟨map, ran⟩

end KeyedStore.HashedMap
