import KeyedStore.HashedMap.ThreadedCursor
import KeyedStore.Proofs.HashedMap.Layout
import KeyedStore.Proofs.HashedMap.Walk
/-!
A cursor that goes along threaded chains. An entry that is still there leads on to what follows it in the chain; for one
that is gone the chain is searched for the first higher number, as the chain of links is. So where a cursor finds its
place, it moves along the handles as it does along the links.
-/
namespace KeyedStore

variable {K V : Type}

namespace ThreadedMap.Lays

variable {threaded : ThreadedMap K V} {map : HashedMap K V} {cursor : HashedCursor} {last : Option Place}
  {chain : Chain K}

theorem start_eq (lays : threaded.Lays map) : threaded.start = map.start := by
  rw [ThreadedMap.start, HashedMap.start, lays.epoch_eq, lays.frame]
  rfl

/-- The search for a higher number ends at the link that has it. -/
theorem firstAfter_eq (lays : threaded.Lays map) (wellFormed : map.WellFormed) {bucket : Nat}
    (held : map.buckets[bucket]? = some chain) (serial : Nat) :
    threaded.firstAfter bucket serial = .ok ((chain.beyond serial).map (·.handle)) := by
  have walked : wander (threaded.pass serial) threaded.size (Chain.head chain) none =
      .ok ((chain.find? (serial < ·.serial)).map (·.handle)) := by
    apply (lays.laid _ _ held).strung.search_eq
      (lays.length_le_of_mem wellFormed chain (Array.mem_def.mp (Array.mem_of_getElem? held)))
    rintro link prev next ⟨value, tied⟩
    simp only [pass, Slots.fetch_of_get? tied, decide_eq_true_eq, bind, Except.bind]
    split <;> rfl
  simp only [firstAfter, endsOf, lays.endsOf_eq held, bind, Except.bind]
  exact walked

/-- A cursor that knows these buckets has the link ahead that it has among the chains. -/
theorem candidate_eq (lays : threaded.Lays map) (wellFormed : map.WellFormed) (place : map.At cursor last)
    (present : cursor.epoch = map.epoch) (held : map.buckets[cursor.bucket]? = some chain) :
    threaded.candidate cursor = .ok ((map.upcoming chain cursor.last).map (·.handle)) := by
  cases place with
  | start bucket unmoved =>
    simp only [candidate, HashedMap.upcoming, unmoved, endsOf, lays.endsOf_eq held, bind, Except.bind]
    rfl
  | @behind place handle bucket remembered issued known =>
    simp only [candidate, HashedMap.upcoming, remembered]
    cases tied : threaded.knots.get? handle with
    | some knot =>
      have live : map.slots.contains handle = true := by rw [Slots.contains, lays.carries.get? tied]; rfl
      rw [bucket] at held
      obtain ⟨link, inside, same, _⟩ := HashedMap.live_of_known wellFormed held live (known present)
      have nodup := HashedMap.chain_nodup wellFormed.inUse.nodup held
      obtain ⟨front, back, rfl⟩ := List.append_of_mem inside
      obtain ⟨value, here⟩ := (lays.laid _ _ held).strung.tied
      rw [same, tied] at here
      rw [if_pos live, ← same, HashedMap.following_append nodup]
      obtain rfl := Option.some.inj here
      rfl
    | none =>
      have dead : ¬ map.slots.contains handle = true := by
        rw [Slots.contains, ← lays.carries.values, tied]
        exact Bool.false_ne_true
      rw [if_neg dead]
      exact lays.firstAfter_eq wellFormed held place.serial

/-- From a bucket that has nothing more to offer the next one is looked at, if there is one. -/
theorem settleOn_next (lays : threaded.Lays map) {bucket : Nat} (held : map.buckets[bucket + 1]? = some chain) :
    threaded.settleOn bucket none = threaded.settleOn (bucket + 1) (Chain.head chain) := by
  obtain ⟨within, found⟩ := Array.getElem?_eq_some_iff.mp (lays.endsOf_eq held)
  rw [settleOn, dif_pos within, found]
  rfl

/-- Buckets without links are passed over alike. -/
theorem settleOn_none (lays : threaded.Lays map) (bucket : Nat) : threaded.settleOn bucket none =
    (HashedMap.firstFrom map.buckets (bucket + 1)).map fun found => (found.1, found.2.handle) := by
  generalize following : bucket + 1 = next
  fun_induction HashedMap.firstFrom map.buckets next generalizing bucket with
  | case1 next bound link links here =>
    subst following
    rw [lays.settleOn_next (Array.getElem?_eq_some_iff.mpr ⟨bound, here⟩), Chain.head_cons, settleOn]
    rfl
  | case2 next bound here ih =>
    subst following
    rw [lays.settleOn_next (Array.getElem?_eq_some_iff.mpr ⟨bound, here⟩)]
    exact ih (bucket + 1) rfl
  | case3 next outside =>
    subst following
    have beyond : ¬ bucket + 1 < threaded.ends.size :=
      fun within => outside (Nat.lt_of_lt_of_eq within lays.bucketCount)
    rw [settleOn, dif_neg beyond]
    rfl

theorem settleOn_eq (lays : threaded.Lays map) (chain : Chain K) : threaded.settleOn cursor.bucket
      ((map.upcoming chain cursor.last).map (·.handle)) =
    (map.nextLink chain cursor).map fun found => (found.1, found.2.handle) := by
  rw [HashedMap.nextLink]
  cases map.upcoming chain cursor.last with
  | none => exact lays.settleOn_none cursor.bucket
  | some link =>
    rw [Option.map_some, settleOn]
    rfl

/-- A cursor that has ended, is of another map or finds its place goes on as it does among the chains. -/
theorem advance_eq (lays : threaded.Lays map) (wellFormed : map.WellFormed)
    (place : cursor.finished = true ∨ cursor.owner ≠ map.id ∨ ∃ last, map.At cursor last) :
    threaded.advance cursor = map.advance cursor := by
  have id : threaded.id = map.id := by rw [lays.frame]; rfl
  rw [ThreadedMap.advance, HashedMap.advance, id, lays.epoch_eq, lays.bucketCount]
  by_cases finished : cursor.finished = true
  · rw [if_pos finished, if_pos finished]
  rw [if_neg finished, if_neg finished]
  by_cases outdated : cursor.owner ≠ map.id ∨ cursor.epoch ≠ map.epoch
  · rw [if_pos outdated, if_pos (or_assoc.mp (.inl outdated))]
  rw [if_neg outdated]
  cases held : map.buckets[cursor.bucket]? with
  | none =>
    have outside : map.bucketCount ≤ cursor.bucket := Array.getElem?_eq_none_iff.mp held
    rw [if_pos (.inr (.inr outside))]
  | some chain =>
    have within : ¬ map.bucketCount ≤ cursor.bucket := Nat.not_le.mpr (Array.getElem?_eq_some_iff.mp held).1
    rw [not_or, not_not, not_not] at outdated
    rw [if_neg (by simp [outdated, within])]
    obtain ⟨last, place⟩ := (place.resolve_left finished).resolve_left (not_not.mpr outdated.1)
    simp only [lays.candidate_eq wellFormed place outdated.2 held, lays.settleOn_eq, bind, Except.bind]
    cases next : map.nextLink chain cursor with
    | none => rfl
    | some found =>
      obtain ⟨bucket, link⟩ := found
      obtain ⟨prev, following, value, tied⟩ := lays.held (HashedMap.mem_links_of_nextLink held next)
      simp only [Option.map_some, Slots.fetch_of_get? tied, HashedMap.entry_of_get? (lays.carries.get? tied)]

end ThreadedMap.Lays

end KeyedStore
