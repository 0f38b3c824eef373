import KeyedStore.Proofs.Simulation
import KeyedStore.Proofs.OrderedMap.Order
import KeyedStore.Proofs.OrderedMap.Walk
/-!
Under a lawful policy an ordered map is a finite map on the classes of equal keys. It mirrors a list with
one entry in each class: its own entries are those of the list, in ascending order. Every operation answers
what the list answers and keeps the mirror, so every run does.
-/
namespace KeyedStore

variable {K V : Type}

/-- What an ordered map can be asked to do. -/
inductive OrderedRequest (K V : Type) where
  | common (request : Request K V)
  | first
  | last
  | entries

/-- A request to the reference. All marks are alike, so a key means the entry of its class. The ends and
the listing come from the entries by ascending key. -/
def Ledger.serveOrdered (rules : Rules Unit K V) (ledger : Ledger Unit K V) :
    OrderedRequest K V → Answer K V × Ledger Unit K V
  | .common request => serve rules ledger request
  | .first => (.entry ((inOrder rules.policy ledger).head?.map Record.pair), ledger)
  | .last => (.entry ((inOrder rules.policy ledger).getLast?.map Record.pair), ledger)
  | .entries => (.entries ((inOrder rules.policy ledger).map Record.pair), ledger)

namespace OrderedMap

/-- A request to the map. -/
def serve (map : OrderedMap K V) : OrderedRequest K V → Except Fault (Answer K V × OrderedMap K V)
  | .common (.insert key value) => do
    let (outcome, after) ← map.insert key value
    return (.added outcome, after)
  | .common (.lookup key) => do return (.value (← map.lookup key), map)
  | .common (.lookupEntry key) => do return (.entry (← map.lookupEntry key), map)
  | .common (.contains key) => .ok (.truth (map.contains key), map)
  | .common (.remove key) => do
    let (value, after) ← map.remove key
    return (.removed value, after)
  | .common .size => .ok (.count map.size, map)
  | .common .clear => do
    let (released, after) ← map.clear
    return (.count released, after)
  | .first => do return (.entry (← map.first), map)
  | .last => do return (.entry (← map.last), map)
  | .entries => do return (.entries (← (Store.ordered map).entries none), map)

/-- What a reference for this map goes by. -/
def rules (map : OrderedMap K V) : Rules Unit K V := ⟨map.policy, fun _ => (), map.noOverwrite⟩

/-- The map holds the entries of the list, in a well-formed tree with ascending keys. -/
structure Mirrors (map : OrderedMap K V) (ledger : Ledger Unit K V) : Prop where
  wellFormed : map.WellFormed
  sorted : map.Sorted
  holds : map.records.Perm ledger

variable {map after : OrderedMap K V} {ledger : Ledger Unit K V}

theorem records_ascending (sorted : map.Sorted) : map.records.Pairwise (Record.Before map.policy) := by
  refine List.Pairwise.filterMap _ (?_) sorted
  intro first second before one made other found
  obtain ⟨value, _, rfl⟩ := Option.map_eq_some_iff.mp made
  obtain ⟨value, _, rfl⟩ := Option.map_eq_some_iff.mp found
  exact before

namespace Mirrors

variable (mirrors : map.Mirrors ledger)

include mirrors

theorem length_eq : map.size = ledger.length :=
  (length_records mirrors.wellFormed).symm.trans mirrors.holds.length_eq

theorem inOrder_eq (lawful : map.policy.Lawful) : Ledger.inOrder map.policy ledger = map.records :=
  Ledger.inOrder_eq lawful mirrors.holds (records_ascending mirrors.sorted)

/-! ### Where a key leads, here and there -/

section Find

variable {key : K} {path : Path (Tag K)} {color : Color} {left right : Shape (Tag K)} {tag : Tag K}

/-- A key means in the list what it is equal to among the tags. -/
private theorem filter_selects (key : K) :
    (ledger.filter (Ledger.selects map.rules key)).Perm
      (map.slots.records () (map.shape.toList.filter (probe map.policy key · == .eq))) := by
  have same := Slots.filter_records map.slots () (fun stored => map.policy.compare key stored.val == .eq)
    map.shape.toList
  have held := (mirrors.holds.filter (Ledger.selects map.rules key)).symm
  unfold records Ledger.selects rules at held
  simp only [beq_self_eq_true, Bool.true_and, same] at held
  exact held

theorem find_met (lawful : map.policy.Lawful) {value : Held V}
    (met : map.descend key = (path, .node color left tag right))
    (held : map.slots.get? tag.handle = some value) :
    Ledger.find map.rules key ledger = some ⟨(), tag.key, value⟩ := by
  have chosen := mirrors.filter_selects key
  have parts := mirrors.sorted.parts_of_met lawful met
  have equal : probe map.policy key tag = .eq := Path.probe_of_met met
  have front : (path.before ++ left.toList).filter (probe map.policy key · == .eq) = [] :=
    List.filter_eq_nil_iff.mpr fun other member => by simpa using parts.ne_eq (.inl member)
  have back : (right.toList ++ path.after).filter (probe map.policy key · == .eq) = [] :=
    List.filter_eq_nil_iff.mpr fun other member => by simpa using parts.ne_eq (.inr member)
  rw [toList_met met, List.filter_append, front, List.filter_cons_of_pos (by simp [equal]), back,
    List.nil_append, Slots.records_cons held] at chosen
  rw [Ledger.find, ← List.head?_filter, List.perm_singleton.mp chosen]
  rfl

theorem find_missed (lawful : map.policy.Lawful) (missed : map.descend key = (path, .nil)) :
    Ledger.find map.rules key ledger = none := by
  have chosen := mirrors.filter_selects key
  have parts := mirrors.sorted.parts_of_missed lawful missed
  have nothing : map.shape.toList.filter (probe map.policy key · == .eq) = [] := by
    rw [toList_missed missed]
    refine List.filter_eq_nil_iff.mpr ?_
    intro other member
    simpa using parts.ne_eq (List.mem_append.mp member)
  rw [nothing] at chosen
  rw [Ledger.find, ← List.head?_filter, List.Perm.eq_nil chosen]
  rfl

end Find

end Mirrors

/-! ### Every operation is mirrored -/

private theorem perm_changed {α : Type} {front back earlier later : List α} {entry other : α}
    (alike : (front ++ entry :: back).Perm (earlier ++ entry :: later)) :
    (front ++ other :: back).Perm (earlier ++ other :: later) :=
  List.perm_middle.trans (((List.perm_inv_core alike).cons other).trans List.perm_middle.symm)

theorem Insertion.rules_eq {key : Held K} {value : Held V} {outcome : Except AddError Addition}
    (insertion : Insertion map key value outcome after) : after.rules = map.rules := by
  cases insertion <;> rfl

theorem Removal.rules_eq {key : K} {value : Option (Held V)} (removal : Removal map key value after) :
    after.rules = map.rules := by
  cases removal <;> rfl

theorem Insertion.mirrors {key : Held K} {value : Held V} {outcome : Except AddError Addition}
    (insertion : Insertion map key value outcome after) (lawful : map.policy.Lawful)
    (mirrors : map.Mirrors ledger) :
    Answer.added outcome = (Ledger.serve map.rules ledger (.insert key value)).1 ∧
      after.Mirrors (Ledger.serve map.rules ledger (.insert key value)).2 := by
  have wellFormed := insertion.wellFormed mirrors.wellFormed
  have sorted := insertion.sorted lawful mirrors.sorted
  cases insertion with
  | refused met kept =>
    obtain ⟨old, held⟩ := mirrors.wellFormed.get?_of_met met
    have found := mirrors.find_met lawful met held
    rw [Ledger.serve_refused found kept]
    exact ⟨rfl, mirrors⟩
  | updated met free done =>
    obtain ⟨old, front, back, held, listed, changed⟩ := records_updated mirrors.wellFormed met done
    have found := mirrors.find_met lawful met held
    obtain ⟨earlier, later, split, _, _, revalued⟩ := Ledger.split_of_find found
    rw [Ledger.serve_updated found free, revalued]
    refine ⟨rfl, wellFormed, sorted, ?_⟩
    have alike := mirrors.holds
    rw [listed, split] at alike
    rw [changed]
    exact perm_changed alike
  | full missed full =>
    have found := mirrors.find_missed lawful missed
    have full : Slots.capacity ≤ ledger.length := by
      rw [← mirrors.length_eq]
      exact of_decide_eq_true full
    rw [Ledger.serve_full found full]
    exact ⟨rfl, mirrors⟩
  | inserted missed room =>
    have found := mirrors.find_missed lawful missed
    have room : ¬ Slots.capacity ≤ ledger.length := by
      rw [← mirrors.length_eq]
      exact of_decide_eq_false room
    obtain ⟨front, back, listed, added⟩ := records_inserted (map.policy.secureKey key)
      (map.policy.secureValue value) (map.transactions + 1) mirrors.wellFormed missed
    rw [Ledger.serve_inserted found room]
    refine ⟨rfl, wellFormed, sorted, ?_⟩
    have alike := mirrors.holds
    rw [listed] at alike
    rw [added]
    exact List.perm_middle.trans ((alike.cons _).trans (List.perm_append_singleton _ _).symm)

theorem Removal.mirrors {key : K} {value : Option (Held V)} (removal : Removal map key value after)
    (lawful : map.policy.Lawful) (mirrors : map.Mirrors ledger) :
    Answer.removed value = (Ledger.serve map.rules ledger (.remove key)).1 ∧
      after.Mirrors (Ledger.serve map.rules ledger (.remove key)).2 := by
  have wellFormed := removal.wellFormed mirrors.wellFormed
  have sorted := removal.sorted mirrors.sorted
  cases removal with
  | missed missed =>
    rw [Ledger.serve_missed (mirrors.find_missed lawful missed)]
    exact ⟨rfl, mirrors⟩
  | removed met closed taken =>
    obtain ⟨front, back, held, listed, removed⟩ :=
      records_removed (map.transactions + 1) mirrors.wellFormed met closed taken
    have found := mirrors.find_met lawful met held
    obtain ⟨earlier, later, split, _, erased, _⟩ := Ledger.split_of_find found
    rw [Ledger.serve_removed found, erased]
    refine ⟨rfl, wellFormed, sorted, ?_⟩
    have alike := mirrors.holds
    rw [listed, split] at alike
    rw [removed]
    exact List.perm_inv_core alike

theorem mirrors_cleared (map : OrderedMap K V) {slots : Slots (Held V)} (empty : slots.InUse []) :
    (map.cleared slots).Mirrors [] :=
  ⟨wellFormed_cleared map empty, .nil, .refl _⟩

theorem Changed.mirrors {change : Change K V} (changed : Changed map change after)
    (lawful : map.policy.Lawful) (mirrors : map.Mirrors ledger) :
    after.Mirrors (Ledger.serve map.rules ledger change.request).2 := by
  cases changed with
  | insert insertion => exact (insertion.mirrors lawful mirrors).2
  | remove removal => exact (removal.mirrors lawful mirrors).2
  | clear empty => exact mirrors_cleared map empty

theorem mirrors_fresh (id : Identity) (policy : Policy K V) (noOverwrite : Bool) :
    Mirrors { id, policy, noOverwrite } [] :=
  ⟨wellFormed_fresh id policy noOverwrite, .nil, .refl _⟩

theorem Mirrors.lookupEntry_eq (mirrors : map.Mirrors ledger) (lawful : map.policy.Lawful) (key : K) :
    map.lookupEntry key = .ok ((Ledger.find map.rules key ledger).map Record.pair) := by
  cases ended : map.descend key with
  | mk path inside =>
    cases inside with
    | nil =>
      rw [mirrors.find_missed lawful ended, lookupEntry_of_missed ended]
      rfl
    | node color left tag right =>
      obtain ⟨value, held⟩ := mirrors.wellFormed.get?_of_met ended
      rw [mirrors.find_met lawful ended held, lookupEntry_of_met ended held]
      rfl

theorem Mirrors.contains_eq (mirrors : map.Mirrors ledger) (lawful : map.policy.Lawful) (key : K) :
    map.contains key = (Ledger.find map.rules key ledger).isSome := by
  cases ended : map.descend key with
  | mk path inside =>
    cases inside with
    | nil =>
      rw [mirrors.find_missed lawful ended, contains, find?_of_missed ended]
      rfl
    | node color left tag right =>
      obtain ⟨value, held⟩ := mirrors.wellFormed.get?_of_met ended
      rw [mirrors.find_met lawful ended held, contains, find?_of_met ended]
      rfl

/-- One request: the map answers what the list answers, and goes on mirroring it. -/
theorem serve_matches (rules : Rules Unit K V) (lawful : rules.policy.Lawful) :
    Matches serve (Ledger.serveOrdered rules) fun map ledger => map.rules = rules ∧ map.Mirrors ledger := by
  rintro map ledger request ⟨rfl, mirrors⟩
  have lawful : map.policy.Lawful := lawful
  have listing := mirrors.inOrder_eq lawful
  cases request with
  | first =>
    have ends := first_eq mirrors.wellFormed
    rw [← listing] at ends
    exact ⟨map, by simp only [serve, ends]; rfl, rfl, mirrors⟩
  | last =>
    have ends := last_eq mirrors.wellFormed
    rw [← listing] at ends
    exact ⟨map, by simp only [serve, ends]; rfl, rfl, mirrors⟩
  | entries =>
    have all := entries_eq mirrors.wellFormed
    rw [← listing] at all
    exact ⟨map, by simp only [serve, all]; rfl, rfl, mirrors⟩
  | common request =>
    cases request with
    | insert key value =>
      obtain ⟨outcome, after, done, insertion⟩ := insert_ends mirrors.wellFormed key value
      obtain ⟨answer, kept⟩ := insertion.mirrors lawful mirrors
      refine ⟨after, ?_, insertion.rules_eq, kept⟩
      simp only [serve, done, Ledger.serveOrdered, ← answer]
      rfl
    | remove key =>
      obtain ⟨value, after, done, removal⟩ := remove_ends mirrors.wellFormed key
      obtain ⟨answer, kept⟩ := removal.mirrors lawful mirrors
      refine ⟨after, ?_, removal.rules_eq, kept⟩
      simp only [serve, done, Ledger.serveOrdered, ← answer]
      rfl
    | clear =>
      obtain ⟨slots, empty, _, done⟩ := clear_ends mirrors.wellFormed
      refine ⟨map.cleared slots, ?_, rfl, mirrors_cleared map empty⟩
      simp only [serve, done, Ledger.serveOrdered, Ledger.serve, mirrors.length_eq]
      rfl
    | size => exact ⟨map, by simp only [serve, mirrors.length_eq]; rfl, rfl, mirrors⟩
    | contains key => exact ⟨map, by simp only [serve, mirrors.contains_eq lawful]; rfl, rfl, mirrors⟩
    | lookupEntry key =>
      exact ⟨map, by simp only [serve, mirrors.lookupEntry_eq lawful]; rfl, rfl, mirrors⟩
    | lookup key =>
      refine ⟨map, ?_, rfl, mirrors⟩
      simp only [serve, lookup, mirrors.lookupEntry_eq lawful, Ledger.serveOrdered, Ledger.serve]
      cases Ledger.find map.rules key ledger <;> rfl

/-- Under a lawful policy every run of requests to a fresh map is answered as by the list that keeps one
entry for each class of equal keys, whose listing by key ascends strictly; and the check passes. -/
theorem run_refines_ledger (id : Identity) (policy : Policy K V) (noOverwrite : Bool)
    (lawful : policy.Lawful) (requests : List (OrderedRequest K V)) :
    ∃ (answers : List (Answer K V)) (ledger : Ledger Unit K V) (map : OrderedMap K V),
      replay (Ledger.serveOrdered ⟨policy, fun _ => (), noOverwrite⟩) [] requests = (answers, ledger) ∧
      runAll serve { id, policy, noOverwrite } requests = .ok (answers, map) ∧
      ledger.OnePerClass policy ∧
      (ledger.inOrder policy).Pairwise (Record.Before policy) ∧
      ∃ height, map.check = .ok height := by
  have fresh := mirrors_fresh id policy noOverwrite
  obtain ⟨map, ran, ruled, mirrors⟩ := runAll_eq_replay
    (serve_matches ⟨policy, fun _ => (), noOverwrite⟩ lawful) requests ⟨rfl, fresh⟩
  have same : map.policy = policy := congrArg Rules.policy ruled
  have ascending := records_ascending mirrors.sorted
  have listing := mirrors.inOrder_eq (same ▸ lawful)
  rw [same] at ascending listing
  refine ⟨_, _, map, rfl, ran, Ledger.onePerClass_of_ascending lawful mirrors.holds ascending, ?_,
    check_of_sorted mirrors.wellFormed mirrors.sorted⟩
  rw [listing]
  exact ascending

/-- Three additions to two classes, a look-up by a third member of one, and its removal by a fourth. -/
theorem run_refines_ledger_tens :
    ∃ map : OrderedMap Nat String,
      runAll serve { id := ⟨0⟩, policy := Policy.tens, noOverwrite := false }
        [.common (.insert ⟨.borrowed, 57⟩ ⟨.owned, "a"⟩), .common (.insert ⟨.owned, 12⟩ ⟨.owned, "b"⟩),
          .common (.insert ⟨.owned, 51⟩ ⟨.borrowed, "c"⟩), .common (.lookupEntry 59),
          .common (.remove 55), .common .size] =
        .ok ([.added (.ok .inserted), .added (.ok .inserted), .added (.ok .updated),
          .entry (some (50, "c")), .removed (some ⟨.borrowed, "c"⟩), .count 1], map) ∧
      ∃ height, map.check = .ok height := by
  obtain ⟨answers, ledger, map, replayed, ran, _, _, checked⟩ :=
    run_refines_ledger ⟨0⟩ Policy.tens false Policy.lawful_tens
      [.common (.insert ⟨.borrowed, 57⟩ ⟨.owned, "a"⟩), .common (.insert ⟨.owned, 12⟩ ⟨.owned, "b"⟩),
        .common (.insert ⟨.owned, 51⟩ ⟨.borrowed, "c"⟩), .common (.lookupEntry 59),
        .common (.remove 55), .common .size]
  obtain rfl := (congrArg Prod.fst replayed).symm
  exact ⟨map, ran, checked⟩

end OrderedMap

end KeyedStore
