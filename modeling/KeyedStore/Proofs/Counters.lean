import KeyedStore.Proofs.OrderedMap.Refinement
import KeyedStore.Proofs.HashedMap.Counters
/-!
What it means that a counter has not moved. The transactions of a tree count the requests that made entries or took
some out, so at two moments with one count the tree is the same, down to its links and colours. Those of a table
count its rebuildings besides, which its epoch counts alone, so at two moments of one epoch whatever is there
both times is in the same bucket under the same number. Nothing is asked of the policy, and a table may be refused
the memory that it asks for.
-/
namespace KeyedStore

variable {K V : Type}

/-- The answer tells that the request has made an entry or taken out some. -/
def OrderedRequest.alters : OrderedRequest K V → Answer K V → Bool
  | .common request, answer => request.alters answer
  | _, _ => false

/-! ### Trees -/

namespace OrderedMap

variable {map middle after : OrderedMap K V}

/-- A step on which the transactions tell whether there are other entries, and so, where they stand still, that
the tree is the same. -/
structure Marked (map : OrderedMap K V) (altered : Bool) (after : OrderedMap K V) : Prop where
  transactions : after.transactions = map.transactions + altered.toNat
  shape : altered = false → after.shape = map.shape

theorem Insertion.marked {key : Held K} {value : Held V} {outcome : Except AddError Addition}
    (insertion : Insertion map key value outcome after) :
    map.Marked (Request.alters (.insert key value) (.added outcome)) after := by
  cases insertion with
  | refused | updated | full => exact ⟨rfl, fun _ => rfl⟩
  | inserted => exact ⟨rfl, by simp [Request.alters]⟩

theorem Removal.marked {key : K} {value : Option (Held V)} (removal : Removal map key value after) :
    map.Marked (Request.alters (V := V) (.remove key) (.removed value)) after := by
  cases removal with
  | missed => exact ⟨rfl, fun _ => rfl⟩
  | removed => exact ⟨rfl, by simp [Request.alters]⟩

theorem marked_cleared (wellFormed : map.WellFormed) (slots : Slots (Held V)) :
    map.Marked (Request.alters (K := K) (V := V) .clear (.count map.size)) (map.cleared slots) := by
  by_cases nothing : map.size = 0
  · refine ⟨by simp [cleared, Request.alters, nothing], fun _ => ?_⟩
    have none := wellFormed.size_eq.trans nothing
    cases shape : map.shape with
    | nil => rfl
    | node color left tag right => simp [shape, Shape.size] at none
  · have some : (map.size != 0) = true := bne_iff_ne.mpr nothing
    refine ⟨by simp [cleared, Request.alters, nothing, some], fun still => ?_⟩
    cases some.symm.trans still

theorem serve_marks (wellFormed : map.WellFormed) (request : OrderedRequest K V) :
    ∃ answer after, map.serve request = .ok (answer, after) ∧ after.WellFormed ∧
      map.Marked (request.alters answer) after := by
  have still : ∀ {altered : Bool}, altered = false → map.Marked altered map := by
    rintro altered rfl
    exact ⟨rfl, fun _ => rfl⟩
  cases request with
  | first => exact ⟨_, map, by simp only [serve, first_eq wellFormed]; rfl, wellFormed, still rfl⟩
  | last => exact ⟨_, map, by simp only [serve, last_eq wellFormed]; rfl, wellFormed, still rfl⟩
  | entries => exact ⟨_, map, by simp only [serve, entries_eq wellFormed]; rfl, wellFormed, still rfl⟩
  | common request =>
    cases request with
    | insert key value =>
      obtain ⟨outcome, after, done, insertion⟩ := insert_ends wellFormed key value
      exact ⟨_, after, by simp only [serve, done]; rfl, insertion.wellFormed wellFormed, insertion.marked⟩
    | remove key =>
      obtain ⟨value, after, done, removal⟩ := remove_ends wellFormed key
      exact ⟨_, after, by simp only [serve, done]; rfl, removal.wellFormed wellFormed, removal.marked⟩
    | clear =>
      obtain ⟨slots, empty, _, done⟩ := clear_ends wellFormed
      exact ⟨.count map.size, map.cleared slots, by simp only [serve, done]; rfl, wellFormed_cleared map empty,
        marked_cleared wellFormed slots⟩
    | size => exact ⟨_, map, rfl, wellFormed, still rfl⟩
    | contains key => exact ⟨_, map, rfl, wellFormed, still rfl⟩
    | lookupEntry key =>
      obtain ⟨found, looked⟩ := lookupEntry_answers wellFormed key
      exact ⟨_, map, by simp only [serve, looked]; rfl, wellFormed, still rfl⟩
    | lookup key =>
      obtain ⟨found, looked⟩ := lookupEntry_answers wellFormed key
      exact ⟨_, map, by simp only [serve, lookup, looked]; rfl, wellFormed, still rfl⟩

/-- What links a tree with what a run makes of it. -/
structure Linked (map : OrderedMap K V) (requests : List (OrderedRequest K V)) (after : OrderedMap K V) : Prop where
  transactions : after.transactions = map.transactions +
    countSteps serve (fun _ request answer _ => request.alters answer) map requests
  shape : after.transactions = map.transactions → after.shape = map.shape

theorem run_links (wellFormed : map.WellFormed) (requests : List (OrderedRequest K V)) :
    ∃ answers after, runAll serve map requests = .ok (answers, after) ∧ after.WellFormed ∧
      map.Linked requests after := by
  refine runAll_links (fun map => ⟨rfl, fun _ => rfl⟩) ?_ requests wellFormed
  intro map request wellFormed
  obtain ⟨answer, middle, served, kept, marked⟩ := serve_marks wellFormed request
  refine ⟨answer, middle, served, kept, ?_⟩
  rintro requests after ⟨counted, same⟩
  have first := marked.transactions
  refine ⟨?_, fun still => ?_⟩
  · rw [countSteps_cons served, counted, first, Nat.add_assoc]
  · -- Counts never go back, so neither the first step nor the others have counted.
    have nothing : (request.alters answer).toNat = 0 := by omega
    exact (same (by omega)).trans (marked.shape (by simpa using nothing))

end OrderedMap

/-! ### Tables -/

namespace ThreadedMap

variable {map middle after : ThreadedMap K V} {plain : HashedMap K V}

/-- An entry is in the chain of a bucket. -/
def LiesIn (map : ThreadedMap K V) (handle : Handle) (bucket : Nat) : Prop :=
  ∃ handles, map.HasChain bucket handles ∧ handle ∈ handles

theorem Orderly.liesIn_iff (orderly : map.Orderly) {handle : Handle} {knot : Knot K V}
    (held : map.knots.get? handle = some knot) (bucket : Nat) :
    map.LiesIn handle bucket ↔ bucket = map.bucketOf knot.hash := by
  constructor
  · rintro ⟨handles, hasChain, member⟩
    exact (orderly.housed held hasChain).mp member
  · rintro rfl
    have within : map.bucketOf knot.hash < map.bucketCount :=
      Nat.mod_lt _ (orderly.sized ▸ Rung.size_pos map.rung)
    obtain ⟨handles, hasChain⟩ := orderly.chained _ within
    exact ⟨handles, hasChain, (orderly.housed held hasChain).mpr rfl⟩

/-- What links a table with what a run makes of it. -/
structure Linked (map : ThreadedMap K V) (demands : List (Demand K V)) (after : ThreadedMap K V) : Prop where
  steady : map.Steady after
  epoch : after.epoch = map.epoch + countSteps serve (fun before _ _ after => before.resized after) map demands
  transactions : after.transactions + map.epoch = map.transactions + after.epoch +
    countSteps serve (fun _ demand answer _ => demand.request.alters answer) map demands

theorem Lays.run_links (lays : map.Lays plain) (wellFormed : plain.WellFormed) (demands : List (Demand K V)) :
    ∃ answers after, runAll serve map demands = .ok (answers, after) ∧
      (∃ plain, after.Lays plain ∧ plain.WellFormed) ∧ map.Linked demands after := by
  refine runAll_links (fun map => ⟨(Stays.refl map).steady, rfl, rfl⟩) ?_ demands
    (⟨plain, lays, wellFormed⟩ : ∃ plain, map.Lays plain ∧ plain.WellFormed)
  rintro map demand ⟨plain, lays, wellFormed⟩
  obtain ⟨answer, middle, following, served, _, laid, kept⟩ := lays.serve_inStep wellFormed demand
  have marked := serve_marks served (lays.orderly wellFormed).sized
  refine ⟨answer, middle, served, ⟨following, laid, kept⟩, ?_⟩
  rintro demands after ⟨steady, counted, altered⟩
  have epoch := marked.epoch
  have transactions := marked.transactions
  refine ⟨marked.steady.trans steady, ?_, ?_⟩
  · rw [countSteps_cons served, counted, epoch, Nat.add_assoc]
  · rw [countSteps_cons served]
    omega

/-- What is there in both of two moments of one epoch is in the same bucket, under the same number. -/
theorem Stays.placed (stays : map.Stays after) (orderly : map.Orderly) (following : after.Orderly)
    {handle : Handle} {early late : Knot K V} (before : map.knots.get? handle = some early)
    (behind : after.knots.get? handle = some late) :
    late.serial = early.serial ∧ ∀ bucket, after.LiesIn handle bucket ↔ map.LiesIn handle bucket := by
  obtain ⟨old, held, pinned⟩ := stays.pins behind (Slots.get?_eq_some before).1
  obtain rfl := Option.some.inj (before.symm.trans held)
  obtain ⟨hash, serial⟩ := Prod.mk.inj pinned
  refine ⟨serial.symm, fun bucket => ?_⟩
  rw [orderly.liesIn_iff before, following.liesIn_iff behind, bucketOf, bucketOf, hash, stays.bucketCount]

end ThreadedMap

/-- Two moments of any run, whatever the policy: the one that `earlier` leads to, and the one that `later` leads
to from there.

The transactions of a tree are the requests that have made entries or taken some out, and as long as they stand
still the tree is the same, so are its links and colours and keys, and so are the handles in use. The transactions
of a table are these requests and the rebuildings, its epoch is the rebuildings, each of which changes the number
of buckets; and as long as the epoch stands still so does the number of buckets, and what is there in both moments
is in the same bucket with the same serial number. These are also the moments of the table of chains. -/
theorem counters_mark_changes (id : Identity) (noOverwrite : Bool) :
    (∀ (policy : Policy K V) (earlier later : List (OrderedRequest K V)), ∃ answers one replies two,
      runAll OrderedMap.serve { id, policy, noOverwrite } earlier = .ok (answers, one) ∧
      runAll OrderedMap.serve one later = .ok (replies, two) ∧
      one.transactions = countSteps OrderedMap.serve (fun _ request answer _ => request.alters answer)
        { id, policy, noOverwrite } earlier ∧
      (two.transactions = one.transactions → two.shape = one.shape ∧
        ∀ handle, two.slots.contains handle = one.slots.contains handle)) ∧
    ∀ (policy : HashPolicy K V) (earlier later : List (ThreadedMap.Demand K V)), ∃ answers one replies two,
      runAll ThreadedMap.serve { id, policy, noOverwrite } earlier = .ok (answers, one) ∧
      runAll ThreadedMap.serve one later = .ok (replies, two) ∧
      one.epoch = countSteps ThreadedMap.serve (fun before _ _ after => before.resized after)
        { id, policy, noOverwrite } earlier ∧
      one.transactions = countSteps ThreadedMap.serve (fun _ demand answer _ => demand.request.alters answer)
        { id, policy, noOverwrite } earlier + one.epoch ∧
      (two.epoch = one.epoch → two.bucketCount = one.bucketCount ∧
        ∀ handle early late, one.knots.get? handle = some early → two.knots.get? handle = some late →
          late.serial = early.serial ∧ ∀ bucket, two.LiesIn handle bucket ↔ one.LiesIn handle bucket) ∧
      ∃ first second : HashedMap K V,
        runAll HashedMap.meet { id, policy, noOverwrite } earlier = .ok (answers, first) ∧
        runAll HashedMap.meet first later = .ok (replies, second) ∧ one.Lays first ∧ two.Lays second := by
  refine ⟨?_, ?_⟩
  · intro policy earlier later
    obtain ⟨answers, one, ran, wellFormed, linked⟩ :=
      OrderedMap.run_links (OrderedMap.wellFormed_fresh id policy noOverwrite) earlier
    obtain ⟨replies, two, also, kept, further⟩ := OrderedMap.run_links wellFormed later
    refine ⟨answers, one, replies, two, ran, also, ?_, fun still => ?_⟩
    · rw [linked.transactions, Nat.zero_add]
    · have same := further.shape still
      refine ⟨same, fun handle => ?_⟩
      rw [Bool.eq_iff_iff, ← wellFormed.inUse.live, ← kept.inUse.live, same]
  · intro policy earlier later
    have fresh := HashedMap.wellFormed_fresh id policy noOverwrite
    obtain ⟨answers, one, first, ran, plainly, lays, wellFormed⟩ :=
      (ThreadedMap.lays_fresh id policy noOverwrite).run_ends fresh earlier
    obtain ⟨_, _, again, _, linked⟩ :=
      (ThreadedMap.lays_fresh id policy noOverwrite).run_links fresh earlier
    obtain ⟨rfl, rfl⟩ := Prod.mk.inj (Except.ok.inj (ran.symm.trans again))
    obtain ⟨replies, two, second, also, further, laid, kept⟩ := lays.run_ends wellFormed later
    obtain ⟨_, _, onward, _, linkedFurther⟩ := lays.run_links wellFormed later
    obtain ⟨rfl, rfl⟩ := Prod.mk.inj (Except.ok.inj (also.symm.trans onward))
    refine ⟨answers, one, replies, two, ran, also, ?_, ?_, fun still => ?_, first, second, plainly, further, lays, laid⟩
    · rw [linked.epoch, Nat.zero_add]
    · have counted := linked.transactions
      rw [Nat.add_zero, Nat.zero_add, Nat.add_comm] at counted
      exact counted
    · have stays := linkedFurther.steady.within still
      exact ⟨stays.bucketCount, fun handle early late =>
        stays.placed (lays.orderly wellFormed) (laid.orderly kept)⟩

end KeyedStore
