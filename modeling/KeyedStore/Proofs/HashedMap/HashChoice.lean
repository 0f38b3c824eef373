import KeyedStore.Proofs.Interchange
/-!
The choice of a hash is seen in nothing but the order of entries. Where equal keys have equal hashes, two
tables with one policy and different hashes mirror one list of entries, though their chains have nothing in
common; so they answer alike. What a table shows of its size follows from the number of entries and from
the answers alone, since no decision to rebuild looks at the chains: so the two stay of one size as well.
-/
namespace KeyedStore

variable {K V : Type}

/-- Hashes that respect the comparison do not tell a stored key from the key that was passed. -/
theorem Policy.hash_secureKey (policy : Policy K V) {hash : K → UInt64}
    (copies : ∀ copy, policy.copyKey = some copy → ∀ key, policy.compare (copy key) key = .eq)
    (congruent : ∀ one two, policy.compare one two = .eq → hash one = hash two) (key : Held K) :
    hash (policy.secureKey key).val = hash key.val := by
  unfold Policy.secureKey Held.secure
  split
  · rename_i copy _ found
    exact congruent _ _ (copies copy found key.val)
  · rfl

/-! ### What a table shows of its size -/

/-- Where a table stands on the ladder, how many entries it has, and what it has counted. -/
structure Gauge where
  rung : Rung
  size : Nat
  transactions : Nat
  epoch : Nat
  deriving DecidableEq

namespace Gauge

/-- After a rebuilding. -/
def moved (gauge : Gauge) (rung : Rung) : Gauge :=
  { gauge with rung := rung, transactions := gauge.transactions + 1, epoch := gauge.epoch + 1 }

/-- After a step along the ladder, if the number of entries calls for it and memory is granted. -/
def settled (gauge : Gauge) (granted : Bool := true) : Gauge :=
  match gauge.rung.towards? gauge.size with
  | some rung => if granted then gauge.moved rung else gauge
  | none => gauge

/-- After one entry more. The table settles before it counts the entry. -/
def more (gauge : Gauge) (granted : Bool := true) : Gauge :=
  { gauge.settled granted with
    size := (gauge.settled granted).size + 1
    transactions := (gauge.settled granted).transactions + 1 }

/-- One entry less, before the table settles. -/
def less (gauge : Gauge) : Gauge :=
  { gauge with size := gauge.size - 1, transactions := gauge.transactions + 1 }

/-- After one entry less. -/
def fewer (gauge : Gauge) (granted : Bool := true) : Gauge :=
  if gauge.less.size < gauge.rung.shrinkBelow then gauge.less.settled granted else gauge.less

/-- After a release of every entry. Releasing nothing is no transaction. -/
def bare (gauge : Gauge) : Gauge :=
  { gauge with
    size := 0
    transactions := if gauge.size = 0 then gauge.transactions else gauge.transactions + 1 }

/-- After a clearing. -/
def cleared (gauge : Gauge) (granted : Bool := true) : Gauge :=
  if gauge.rung = Rung.lowest then gauge.bare
  else if granted then gauge.bare.moved Rung.lowest
  else gauge.bare

/-- After a request, by how it was answered. -/
def following (gauge : Gauge) (request : Request K V) (answer : Answer K V) (granted : Bool := true) : Gauge :=
  match request, answer with
  | .insert _ _, .added (.ok .inserted) => gauge.more granted
  | .remove _, .removed (some _) => gauge.fewer granted
  | .clear, _ => gauge.cleared granted
  | _, _ => gauge

end Gauge

namespace HashedMap

def gauge (map : HashedMap K V) : Gauge := ⟨map.rung, map.size, map.transactions, map.epoch⟩

variable {map after : HashedMap K V} {granted : Bool}

theorem Rebuilt.gauge_eq {rung : Rung} (rebuilt : map.Rebuilt rung after) :
    after.gauge = map.gauge.moved rung := by
  rw [rebuilt.frame]
  rfl

theorem Settled.gauge_eq (settled : map.Settled granted after) : after.gauge = map.gauge.settled granted := by
  cases settled with
  | still fits =>
    cases granted with
    | false =>
      rw [Gauge.settled]
      cases map.gauge.rung.towards? map.gauge.size <;> rfl
    | true => simp only [Gauge.settled, gauge, fits rfl]
  | moved had towards rebuilt =>
    rw [rebuilt.gauge_eq]
    simp only [Gauge.settled, gauge, towards, had, if_true]

theorem Insertion.gauge_eq {key : Held K} {value : Held V} {outcome : Except AddError Addition}
    (insertion : Insertion map granted key value outcome after) :
    after.gauge = map.gauge.following (.insert key value) (.added outcome) granted := by
  cases insertion with
  | refused => rfl
  | full => rfl
  | updated met free done =>
    have same : size { map with slots := _ } = map.size := Slots.size_replace done
    simp only [gauge, same, Gauge.following]
  | inserted missed room settling extended =>
    simp only [Gauge.following, Gauge.more, ← settling.gauge_eq]
    rw [extended.frame]
    rfl

theorem Removal.gauge_eq {key : K} {value : Option (Held V)} (removal : Removal map granted key value after) :
    after.gauge = map.gauge.following (.remove key) (.removed value : Answer K V) granted := by
  have less : ∀ {link : Link K} {value : Held V} {slots : Slots (Held V)} {shorter : HashedMap K V},
      map.slots.take link.handle = .ok (value, slots) → map.Detached link shorter →
      gauge { shorter with slots := slots, transactions := map.transactions + 1 } = map.gauge.less := by
    intro link value slots shorter taken detached
    have size : slots.size = map.size - 1 := Nat.eq_sub_of_add_eq (Slots.size_take taken)
    rw [detached.frame, Gauge.less]
    exact congrArg (Gauge.mk map.rung · (map.transactions + 1) map.epoch) size
  cases removal with
  | missed => rfl
  | removed met taken detached enough =>
    have left := less taken detached
    have enough : ¬ map.gauge.less.size < map.gauge.rung.shrinkBelow := by rw [← left]; exact enough
    rw [left, Gauge.following, Gauge.fewer, if_neg enough]
  | shrunk met taken detached sparse settling =>
    have left := less taken detached
    have sparse : map.gauge.less.size < map.gauge.rung.shrinkBelow := by rw [← left]; exact sparse
    rw [settling.gauge_eq, left, Gauge.following, Gauge.fewer, if_pos sparse]

theorem Cleared.gauge_eq (cleared : map.Cleared granted after) (answer : Answer K V) :
    after.gauge = map.gauge.following .clear answer granted := by
  have bare : ∀ {slots : Slots (Held V)}, slots.InUse [] → (map.released slots).gauge = map.gauge.bare :=
    fun empty => congrArg (Gauge.mk map.rung · _ map.epoch) empty.size
  rw [Gauge.following, Gauge.cleared]
  cases cleared with
  | already empty _ lowest =>
    rw [bare empty]
    cases granted with
    | false => rw [if_neg Bool.false_ne_true, ite_self]
    | true => rw [if_pos (show map.gauge.rung = Rung.lowest from lowest rfl)]
  | moved had empty _ higher rebuilt =>
    rw [if_neg (show map.gauge.rung ≠ Rung.lowest from higher), if_pos had, rebuilt.gauge_eq, bare empty]

/-- What a table shows after a request follows from what it showed and from the answer. -/
theorem gauge_of_serve (wellFormed : map.WellFormed) {request : Request K V} {answer : Answer K V}
    (served : map.serve request granted = .ok (answer, after)) :
    after.gauge = map.gauge.following request answer granted := by
  cases request with
  | insert key value =>
    obtain ⟨outcome, left, done, insertion⟩ := insert_ends wellFormed granted key value
    simp only [serve, done] at served
    cases served
    exact insertion.gauge_eq
  | remove key =>
    obtain ⟨value, left, done, removal⟩ := remove_ends wellFormed granted key
    simp only [serve, done] at served
    cases served
    exact removal.gauge_eq
  | clear =>
    obtain ⟨left, done, cleared⟩ := clear_ends wellFormed granted
    simp only [serve, done] at served
    cases served
    exact cleared.gauge_eq _
  | size => cases served; rfl
  | lookup key =>
    cases found : map.lookup key <;> simp only [serve, found] at served <;> cases served
    rfl
  | lookupEntry key =>
    cases found : map.lookupEntry key <;> simp only [serve, found] at served <;> cases served
    rfl
  | contains key =>
    cases found : map.contains key <;> simp only [serve, found] at served <;> cases served
    rfl

/-! ### Two tables and one list -/

/-- The map mirrors some list of entries, each filed under the hash of its stored key, that reads so where
all marks are alike. -/
def Tells (rules : Rules UInt64 K V) (map : HashedMap K V) (entries : Ledger Unit K V) : Prop :=
  ∃ ledger : Ledger UInt64 K V, map.rules = rules ∧ map.Mirrors ledger ∧ ledger.Filed rules.mark ∧
    ledger.unmarked = entries

theorem tells_fresh (id : Identity) (policy : HashPolicy K V) (noOverwrite : Bool) :
    Tells ⟨policy.base, policy.hash, noOverwrite⟩ { id, policy, noOverwrite } [] :=
  ⟨[], rfl, mirrors_fresh id policy noOverwrite, nofun, rfl⟩

theorem Tells.wellFormed {rules : Rules UInt64 K V} {entries : Ledger Unit K V}
    (tells : Tells rules map entries) :
    map.WellFormed := by
  obtain ⟨_, _, mirrors, _⟩ := tells
  exact mirrors.wellFormed

/-- One request: where marks respect the comparison, the map answers what the list answers without them. -/
theorem tells_matches (rules : Rules UInt64 K V) (congruent : rules.Congruent)
    (copied : ∀ key, rules.mark (rules.policy.secureKey key).val = rules.mark key.val) :
    Matches meet (fun entries demand => Ledger.serve rules.unmarked entries demand.request) (Tells rules) := by
  rintro map _ demand ⟨ledger, ruled, mirrors, filed, rfl⟩
  obtain ⟨after, served, kept, following⟩ := meet_matches rules map ledger demand ⟨ruled, mirrors⟩
  beta_reduce
  rw [Ledger.serve_unmarked congruent filed]
  exact ⟨after, served, _, kept, following, Ledger.filed_serve copied filed demand.request, rfl⟩

/-- What a map that tells a list returns on a traversal, in the order of its buckets. -/
theorem Tells.entries_perm {rules : Rules UInt64 K V} {entries : Ledger Unit K V}
    (tells : Tells rules map entries) :
    ∃ found, (Store.hashed map).entries none = .ok found ∧ found.Perm (entries.map Record.pair) := by
  obtain ⟨ledger, _, mirrors, _, rfl⟩ := tells
  rw [Ledger.map_pair_unmarked]
  exact mirrors.entries_perm

/-- Two tables tell one list, and show the same of their size. -/
structure Twins (rules beside : Rules UInt64 K V) (map other : HashedMap K V) : Prop where
  oneList : ∃ entries, Tells rules map entries ∧ Tells beside other entries
  gauge : map.gauge = other.gauge

theorem twins_lockstep {rules beside : Rules UInt64 K V}
    (matching : Matches meet (fun entries demand => Ledger.serve rules.unmarked entries demand.request) (Tells rules))
    (alsoMatching :
      Matches meet (fun entries demand => Ledger.serve beside.unmarked entries demand.request) (Tells beside))
    (alike : beside.unmarked = rules.unmarked) :
    Lockstep meet meet (fun answer => answer) (Twins rules beside) := by
  rintro map other demand ⟨⟨entries, tells, alsoTells⟩, gauge⟩
  obtain ⟨after, served, kept⟩ := matching map entries demand tells
  obtain ⟨following, alsoServed, alsoKept⟩ := alsoMatching other entries demand alsoTells
  rw [alike] at alsoServed alsoKept
  refine ⟨_, after, following, served, alsoServed, ⟨_, kept, alsoKept⟩, ?_⟩
  rw [gauge_of_serve tells.wellFormed served, gauge_of_serve alsoTells.wellFormed alsoServed, gauge]

/-- A table has as many buckets as its rung says. -/
theorem WellFormed.bucketCount_eq (wellFormed : map.WellFormed) : map.bucketCount = map.gauge.rung.size :=
  wellFormed.chained.sized

/-- Let copies of keys stay equal to the originals, and let each of two hashes respect the comparison. Then
tables with the one and with the other, granted or refused the same memory, answer every run of requests alike,
and after it, so after each of its requests, they have the same number of entries and of buckets, the same limits
and the same counts of transactions and rebuildings, and traversals of the two return the same entries, in whatever
order. -/
theorem run_hides_hash (first second : Identity) (policy : Policy K V) (hash otherHash : K → UInt64)
    (noOverwrite : Bool)
    (copies : ∀ copy, policy.copyKey = some copy → ∀ key, policy.compare (copy key) key = .eq)
    (congruent : ∀ one two, policy.compare one two = .eq → hash one = hash two)
    (alsoCongruent : ∀ one two, policy.compare one two = .eq → otherHash one = otherHash two)
    (demands : List (Demand (Request K V))) :
    ∃ answers map other,
      runAll meet { id := first, policy := policy.hashingBy hash, noOverwrite } demands =
        .ok (answers, map) ∧
      runAll meet { id := second, policy := policy.hashingBy otherHash, noOverwrite } demands =
        .ok (answers, other) ∧
      map.size = other.size ∧ map.bucketCount = other.bucketCount ∧ map.limits = other.limits ∧
      map.transactions = other.transactions ∧ map.epoch = other.epoch ∧
      ∃ found listed, (Store.hashed map).entries none = .ok found ∧
        (Store.hashed other).entries none = .ok listed ∧ found.Perm listed := by
  have matching := tells_matches ⟨policy, hash, noOverwrite⟩ congruent (policy.hash_secureKey copies congruent)
  have alsoMatching :=
    tells_matches ⟨policy, otherHash, noOverwrite⟩ alsoCongruent (policy.hash_secureKey copies alsoCongruent)
  obtain ⟨answers, map, other, ran, alsoRan, ⟨entries, tells, alsoTells⟩, gauge⟩ :=
    runAll_lockstep (twins_lockstep matching alsoMatching rfl) demands
      ⟨⟨[], tells_fresh first (policy.hashingBy hash) noOverwrite,
        tells_fresh second (policy.hashingBy otherHash) noOverwrite⟩, rfl⟩
  rw [List.map_id'] at ran
  obtain ⟨found, traversed, same⟩ := tells.entries_perm
  obtain ⟨listed, alsoTraversed, alsoSame⟩ := alsoTells.entries_perm
  have rung : map.rung = other.rung := congrArg Gauge.rung gauge
  refine ⟨answers, map, other, ran, alsoRan, congrArg Gauge.size gauge, ?_, ?_,
    congrArg Gauge.transactions gauge, congrArg Gauge.epoch gauge, found, listed, traversed, alsoTraversed,
    same.trans alsoSame.symm⟩
  · rw [tells.wellFormed.bucketCount_eq, alsoTells.wellFormed.bucketCount_eq, gauge]
  · simp only [limits, rung]

/-- Numbers by their tens, hashed by their tens and all into one chain: an addition, a refusal for another
number of its class, a look-up, a removal that finds nothing, and a clearing. -/
theorem run_hides_hash_tens :
    ∃ map other,
      runAll meet
        { id := ⟨0⟩, policy := Policy.tens.hashingBy (fun key => UInt64.ofNat (key / 10)), noOverwrite := true }
        [⟨.insert ⟨.borrowed, 57⟩ ⟨.owned, "a"⟩, true⟩, ⟨.insert ⟨.owned, 51⟩ ⟨.owned, "b"⟩, false⟩,
          ⟨.lookupEntry 59, true⟩, ⟨.remove 15, false⟩, ⟨.clear, false⟩] =
        .ok ([.added (.ok .inserted), .added (.error .keyExists), .entry (some (50, "a")), .removed none,
          .count 1], map) ∧
      runAll meet
        { id := ⟨1⟩, policy := Policy.tens.hashingBy (fun _ => 7), noOverwrite := true }
        [⟨.insert ⟨.borrowed, 57⟩ ⟨.owned, "a"⟩, true⟩, ⟨.insert ⟨.owned, 51⟩ ⟨.owned, "b"⟩, false⟩,
          ⟨.lookupEntry 59, true⟩, ⟨.remove 15, false⟩, ⟨.clear, false⟩] =
        .ok ([.added (.ok .inserted), .added (.error .keyExists), .entry (some (50, "a")), .removed none,
          .count 1], other) ∧
      map.bucketCount = other.bucketCount ∧ map.transactions = other.transactions := by
  have congruent : ∀ one two : Nat, (Policy.tens : Policy Nat String).compare one two = .eq →
      UInt64.ofNat (one / 10) = UInt64.ofNat (two / 10) := by
    intro one two equal
    exact congrArg UInt64.ofNat (Nat.compare_eq_eq.mp equal)
  obtain ⟨answers, map, other, ran, alsoRan, _, buckets, _, transactions, _⟩ :=
    run_hides_hash ⟨0⟩ ⟨1⟩ (Policy.tens : Policy Nat String) (fun key => UInt64.ofNat (key / 10)) (fun _ => 7)
      true Policy.lawful_tens.copies congruent (fun _ _ _ => rfl)
      [⟨.insert ⟨.borrowed, 57⟩ ⟨.owned, "a"⟩, true⟩, ⟨.insert ⟨.owned, 51⟩ ⟨.owned, "b"⟩, false⟩,
        ⟨.lookupEntry 59, true⟩, ⟨.remove 15, false⟩, ⟨.clear, false⟩]
  obtain ⟨rfl, rfl⟩ := Prod.mk.inj (Except.ok.inj ran)
  exact ⟨_, other, ran, alsoRan, buckets, transactions⟩

end HashedMap

end KeyedStore
