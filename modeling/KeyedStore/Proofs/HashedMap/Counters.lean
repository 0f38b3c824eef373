import KeyedStore.Proofs.HashedMap.Band
import KeyedStore.Proofs.HashedMap.Threads
/-!
What the counters of a table mark, read off its operations alone, whatever its chains look like. Mending a chain
changes which entries name each other and never what an entry is or how it is numbered. An entry is numbered when
it is appended; that is when it is new, or in a rebuilding, which is counted. So within one epoch an entry keeps
its hash and its number, and with the number of buckets its place.
-/
namespace KeyedStore

variable {K V σ : Type}

/-- What an entry keeps as long as it stays in its place: its hash and its serial number. -/
def Knot.pin (knot : Knot K V) : UInt64 × Nat := (knot.hash, knot.serial)

namespace ThreadedMap

/-! ### Walks -/

section Walks

variable {act : σ → Handle → Except Fault (Option Handle × σ)} {kept : σ → Prop} {state after : σ}

/-- A walk keeps what every single action keeps. -/
theorem wander_keeps (keeps : ∀ state handle next after, act state handle = .ok (next, after) → kept state → kept after)
    {limit : Nat} {first : Option Handle} (done : wander act limit first state = .ok after) (start : kept state) :
    kept after := by
  induction limit generalizing first state with
  | zero =>
    cases first with
    | none =>
      cases done
      exact start
    | some handle => cases done
  | succ limit ih =>
    cases first with
    | none =>
      cases done
      exact start
    | some handle =>
      simp only [wander, bind_eq_ok] at done
      obtain ⟨⟨next, middle⟩, acted, further⟩ := done
      exact ih further (keeps state handle next middle acted start)

theorem sweep_keeps (keeps : ∀ state handle next after, act state handle = .ok (next, after) → kept state → kept after)
    {limit : Nat} {buckets : List ChainEnds} (done : sweep act limit buckets state = .ok after)
    (start : kept state) : kept after := by
  induction buckets generalizing state with
  | nil =>
    cases done
    exact start
  | cons ends buckets ih =>
    rw [sweep, List.foldlM_cons, bind_eq_ok] at done
    obtain ⟨middle, walked, further⟩ := done
    exact ih further (wander_keeps keeps walked start)

end Walks

variable {map middle after : ThreadedMap K V} {handle : Handle} {bucket : Nat} {prev next : Option Handle}

/-! ### Chains are mended -/

/-- Entries and buckets name other neighbours, and an entry may have another value. Nothing else has changed. -/
structure Mended (map after : ThreadedMap K V) : Prop where
  frame : after = { map with ends := after.ends, knots := after.knots }
  bucketCount : after.bucketCount = map.bucketCount
  next : after.knots.next = map.knots.next
  pins : ∀ handle, (after.knots.get? handle).map Knot.pin = (map.knots.get? handle).map Knot.pin

theorem Mended.trans (one : map.Mended middle) (two : middle.Mended after) : map.Mended after := by
  refine ⟨?_, two.bucketCount.trans one.bucketCount, two.next.trans one.next,
    fun handle => (two.pins handle).trans (one.pins handle)⟩
  rw [two.frame, one.frame]

theorem retie_inverts {change : Knot K V → Knot K V} (done : map.retie handle change = .ok after) :
    ∃ knot knots, map.knots.get? handle = some knot ∧ map.knots.replace handle (change knot) = .ok knots ∧
      after = { map with knots := knots } := by
  simp only [retie, bind_eq_ok, pure_eq_ok] at done
  obtain ⟨knot, fetched, knots, replaced, rfl⟩ := done
  refine ⟨knot, knots, ?_, replaced, rfl⟩
  unfold Slots.fetch at fetched
  split at fetched
  · cases fetched
    assumption
  · cases fetched

theorem retie_mends {change : Knot K V → Knot K V} (done : map.retie handle change = .ok after)
    (same : ∀ knot, (change knot).pin = knot.pin) : map.Mended after := by
  obtain ⟨knot, knots, held, replaced, rfl⟩ := retie_inverts done
  refine ⟨rfl, rfl, Slots.next_replace replaced, ?_⟩
  intro other
  rw [Slots.get?_replace replaced]
  split
  · rename_i hit
    rw [hit, held, Option.map_some, Option.map_some, same]
  · rfl

theorem setEnds_mends {change : ChainEnds → ChainEnds} (done : map.setEnds bucket change = .ok after) :
    map.Mended after := by
  simp only [setEnds, bind_eq_ok, pure_eq_ok] at done
  obtain ⟨ends, _, rfl⟩ := done
  exact ⟨rfl, Array.size_setIfInBounds, rfl, fun _ => rfl⟩

theorem linkNext_mends (done : map.linkNext bucket prev next = .ok after) : map.Mended after := by
  cases prev with
  | none => exact setEnds_mends done
  | some handle => exact retie_mends done fun _ => rfl

theorem linkPrev_mends (done : map.linkPrev bucket next prev = .ok after) : map.Mended after := by
  cases next with
  | none => exact setEnds_mends done
  | some handle => exact retie_mends done fun _ => rfl

theorem unlink_mends (done : map.unlink handle = .ok after) : map.Mended after := by
  simp only [unlink, bind_eq_ok] at done
  obtain ⟨knot, _, bucket, _, linked, one, two⟩ := done
  exact (linkNext_mends one).trans (linkPrev_mends two)

/-- An entry has been appended, under a new number. The others are what they were. -/
structure Appended (map : ThreadedMap K V) (handle : Handle) (after : ThreadedMap K V) : Prop where
  frame : after = { map with ends := after.ends, knots := after.knots, nextSerial := after.nextSerial }
  bucketCount : after.bucketCount = map.bucketCount
  next : after.knots.next = map.knots.next
  pins : ∀ other, other ≠ handle → (after.knots.get? other).map Knot.pin = (map.knots.get? other).map Knot.pin

theorem append_inverts (done : map.append handle = .ok after) : map.Appended handle after := by
  simp only [append, bind_eq_ok] at done
  obtain ⟨knot, _, bucket, _, ends, _, placed, tied, linked, one, two⟩ := done
  have mended := (linkNext_mends one).trans (linkPrev_mends two)
  obtain ⟨old, knots, _, replaced, rfl⟩ := retie_inverts tied
  refine ⟨?_, mended.bucketCount, mended.next.trans (Slots.next_replace replaced), ?_⟩
  · rw [mended.frame]
  · intro other apart
    rw [mended.pins, Slots.get?_replace replaced, if_neg apart]

/-! ### Within an epoch -/

/-- No rebuilding lies between. Entries may have come and gone. -/
structure Stays (map after : ThreadedMap K V) : Prop where
  epoch : after.epoch = map.epoch
  rung : after.rung = map.rung
  bucketCount : after.bucketCount = map.bucketCount
  issued : map.knots.next.index ≤ after.knots.next.index
  pins : ∀ {handle : Handle} {knot : Knot K V}, after.knots.get? handle = some knot →
    handle.index < map.knots.next.index → ∃ old, map.knots.get? handle = some old ∧ old.pin = knot.pin

namespace Stays

theorem refl (map : ThreadedMap K V) : map.Stays map :=
  ⟨rfl, rfl, rfl, Nat.le_refl _, fun held _ => ⟨_, held, rfl⟩⟩

theorem trans (one : map.Stays middle) (two : middle.Stays after) : map.Stays after := by
  refine ⟨two.epoch.trans one.epoch, two.rung.trans one.rung, two.bucketCount.trans one.bucketCount,
    Nat.le_trans one.issued two.issued, ?_⟩
  intro handle knot held before
  obtain ⟨between, there, same⟩ := two.pins held (Nat.lt_of_lt_of_le before one.issued)
  obtain ⟨old, here, also⟩ := one.pins there before
  exact ⟨old, here, also.trans same⟩

end Stays

theorem pinned_of_map_eq {one two : Option (Knot K V)} {knot : Knot K V} (same : one.map Knot.pin = two.map Knot.pin)
    (held : one = some knot) : ∃ old, two = some old ∧ old.pin = knot.pin := by
  rw [held, Option.map_some] at same
  exact Option.map_eq_some_iff.mp same.symm

theorem Mended.stays (mended : map.Mended after) : map.Stays after := by
  refine ⟨?_, ?_, mended.bucketCount, Nat.le_of_eq (congrArg Handle.index mended.next).symm, ?_⟩
  · rw [mended.frame]
  · rw [mended.frame]
  · exact fun held _ => pinned_of_map_eq (mended.pins _) held

/-- An entry that is taken out is not there any more. -/
theorem stays_taken {knot : Knot K V} {knots : Slots (Knot K V)} (transactions : Nat)
    (taken : map.knots.take handle = .ok (knot, knots)) :
    map.Stays { map with knots := knots, transactions := transactions } := by
  refine ⟨rfl, rfl, rfl, Nat.le_of_eq (congrArg Handle.index (Slots.next_take taken)).symm, ?_⟩
  intro other found held _
  change knots.get? other = some found at held
  rw [Slots.get?_take taken] at held
  split at held
  · cases held
  · exact ⟨found, held, rfl⟩

/-- A new entry is one that was not issued before. -/
theorem stays_inserted {knot : Knot K V} (transactions : Nat)
    (appended : Appended { map with knots := map.knots.insert knot } map.knots.next after) :
    map.Stays { after with transactions := transactions } := by
  have issued : after.knots.next = ⟨map.knots.next.index + 1⟩ := by
    rw [appended.next, Slots.next_insert]
  refine ⟨?_, ?_, appended.bucketCount, Nat.le_of_lt (issued ▸ Nat.lt_succ_self _), ?_⟩
  · rw [appended.frame]
  · rw [appended.frame]
  · intro other found held before
    have apart : other ≠ map.knots.next := by
      rintro rfl
      exact Nat.lt_irrefl _ before
    have same := appended.pins other apart
    rw [Slots.get?_insert, if_neg apart] at same
    exact pinned_of_map_eq same held

/-! ### From epoch to epoch -/

/-- What holds between a table and what it becomes. -/
structure Steady (map after : ThreadedMap K V) : Prop where
  epoch : map.epoch ≤ after.epoch
  issued : map.knots.next.index ≤ after.knots.next.index
  within : after.epoch = map.epoch → map.Stays after

theorem Stays.steady (stays : map.Stays after) : map.Steady after :=
  ⟨Nat.le_of_eq stays.epoch.symm, stays.issued, fun _ => stays⟩

theorem Steady.trans (one : map.Steady middle) (two : middle.Steady after) : map.Steady after := by
  have first := one.epoch
  have second := two.epoch
  exact ⟨Nat.le_trans first second, Nat.le_trans one.issued two.issued,
    fun same => (one.within (by omega)).trans (two.within (by omega))⟩

/-- The number of buckets is another. -/
def resized (map after : ThreadedMap K V) : Bool := after.bucketCount != map.bucketCount

/-- A step on which the counters agree: the epoch has gone on by a rebuilding, and so have the transactions,
which also count whether the step altered which entries there are. -/
structure Marked (map : ThreadedMap K V) (altered : Bool) (after : ThreadedMap K V) : Prop where
  steady : map.Steady after
  sized : after.bucketCount = after.rung.size
  epoch : after.epoch = map.epoch + (map.resized after).toNat
  transactions : after.transactions = map.transactions + altered.toNat + (map.resized after).toNat

theorem resized_of_stays (stays : map.Stays after) : map.resized after = false := by
  rw [resized, stays.bucketCount, bne_self_eq_false]

theorem Stays.marked {altered : Bool} (stays : map.Stays after) (sized : map.bucketCount = map.rung.size)
    (counted : after.transactions = map.transactions + altered.toNat) : map.Marked altered after := by
  refine ⟨stays.steady, ?_, ?_, ?_⟩
  · rw [stays.bucketCount, stays.rung, sized]
  · rw [resized_of_stays stays, stays.epoch]
    rfl
  · rw [resized_of_stays stays, counted]
    rfl

/-- What a step does before a rebuilding or none. -/
theorem Stays.marked_before {altered : Bool} (stays : map.Stays middle)
    (counted : middle.transactions = map.transactions + altered.toNat) (marked : middle.Marked false after) :
    map.Marked altered after := by
  have same : map.resized after = middle.resized after := by rw [resized, resized, stays.bucketCount]
  refine ⟨stays.steady.trans marked.steady, marked.sized, ?_, ?_⟩
  · rw [marked.epoch, stays.epoch, same]
  · rw [marked.transactions, counted, same]
    rfl

/-- What a step does after a rebuilding or none. -/
theorem Stays.marked_after {altered : Bool} (stays : middle.Stays after) (marked : map.Marked false middle)
    (counted : after.transactions = middle.transactions + altered.toNat) : map.Marked altered after := by
  have same : map.resized after = map.resized middle := by rw [resized, resized, stays.bucketCount]
  refine ⟨marked.steady.trans stays.steady, ?_, ?_, ?_⟩
  · rw [stays.bucketCount, stays.rung, marked.sized]
  · rw [stays.epoch, marked.epoch, same]
  · rw [counted, marked.transactions, same, Bool.toNat_false]
    omega

/-- A rebuilding that goes through, of whatever it is given. -/
theorem rebuild_inverts {rung : Rung} (done : map.rebuild rung = .ok after) :
    after.epoch = map.epoch + 1 ∧ after.transactions = map.transactions + 1 ∧ after.rung = rung ∧
      after.bucketCount = rung.size ∧ after.knots.next = map.knots.next := by
  simp only [rebuild, bind_eq_ok, pure_eq_ok] at done
  obtain ⟨filled, swept, rfl⟩ := done
  have keeps : ∀ (state : ThreadedMap K V) (handle : Handle) (next : Option Handle) (after : ThreadedMap K V),
      state.transfer handle = .ok (next, after) →
      state.rung = rung ∧ state.bucketCount = rung.size ∧ state.knots.next = map.knots.next →
      after.rung = rung ∧ after.bucketCount = rung.size ∧ after.knots.next = map.knots.next := by
    rintro state handle next after moved ⟨same, count, issued⟩
    simp only [transfer, bind_eq_ok, pure_eq_ok] at moved
    obtain ⟨knot, _, appendix, appended, paired⟩ := moved
    obtain ⟨_, rfl⟩ := Prod.mk.inj paired
    have appended := append_inverts appended
    refine ⟨?_, appended.bucketCount.trans count, appended.next.trans issued⟩
    rw [appended.frame]
    exact same
  have kept := sweep_keeps keeps swept ⟨rfl, Array.size_replicate, rfl⟩
  exact ⟨rfl, rfl, kept⟩

/-- A rebuilding for another rung changes the number of buckets. -/
theorem rebuild_marks {rung : Rung} (done : map.rebuild rung = .ok after)
    (sized : map.bucketCount = map.rung.size) (other : rung ≠ map.rung) : map.Marked false after := by
  obtain ⟨epoch, transactions, same, count, issued⟩ := rebuild_inverts done
  have moved : map.resized after = true := by
    rw [resized, bne_iff_ne, count, sized]
    exact fun equal => other (Rung.size_injective equal)
  refine ⟨⟨by omega, Nat.le_of_eq (congrArg Handle.index issued).symm, fun equal => by omega⟩, ?_, ?_, ?_⟩
  · rw [count, same]
  · rw [moved]
    exact epoch
  · rw [moved]
    exact transactions

theorem ne_of_towards? {rung target : Rung} {count : Nat} (towards : rung.towards? count = some target) :
    target ≠ rung := by
  rintro rfl
  rcases Rung.towards?_eq_some.mp towards with ⟨_, higher⟩ | ⟨_, lower⟩
  · simp [Rung.above?, Fin.ext_iff] at higher
  · simp [Rung.below?, Fin.ext_iff] at lower
    omega

/-! ### Operations -/

theorem settle_marks {granted : Bool} (done : map.settle granted = .ok after)
    (sized : map.bucketCount = map.rung.size) : map.Marked false after := by
  unfold settle at done
  split at done
  · rename_i rung towards
    split at done
    · exact rebuild_marks done sized (ne_of_towards? towards)
    · cases done
      exact (Stays.refl map).marked sized rfl
  · cases done
    exact (Stays.refl map).marked sized rfl

theorem insert_marks {granted : Bool} {key : Held K} {value : Held V} {outcome : Except AddError Addition}
    (done : map.insert granted key value = .ok (outcome, after)) (sized : map.bucketCount = map.rung.size) :
    map.Marked (Request.alters (.insert key value) (.added outcome)) after := by
  simp only [insert, bind_eq_ok] at done
  obtain ⟨found, _, done⟩ := done
  cases found with
  | some handle =>
    dsimp only at done
    split at done
    · cases done
      exact (Stays.refl map).marked sized rfl
    · simp only [bind_eq_ok, pure_eq_ok] at done
      obtain ⟨updated, tied, paired⟩ := done
      obtain ⟨rfl, rfl⟩ := Prod.mk.inj paired
      have mended := retie_mends tied fun _ => rfl
      refine mended.stays.marked sized ?_
      rw [mended.frame]
      rfl
  | none =>
    dsimp only at done
    split at done
    · cases done
      exact (Stays.refl map).marked sized rfl
    · simp only [bind_eq_ok, pure_eq_ok] at done
      obtain ⟨settled, settling, longer, appended, paired⟩ := done
      obtain ⟨rfl, rfl⟩ := Prod.mk.inj paired
      have appended := append_inverts appended
      refine (stays_inserted _ appended).marked_after (settle_marks settling sized) ?_
      rw [appended.frame]
      rfl

theorem remove_marks {granted : Bool} {key : K} {value : Option (Held V)}
    (done : map.remove granted key = .ok (value, after)) (sized : map.bucketCount = map.rung.size) :
    map.Marked (Request.alters (V := V) (.remove key) (.removed value)) after := by
  simp only [remove, bind_eq_ok] at done
  obtain ⟨found, _, done⟩ := done
  cases found with
  | none =>
    cases done
    exact (Stays.refl map).marked sized rfl
  | some handle =>
    simp only [bind_eq_ok] at done
    obtain ⟨unlinked, mending, ⟨knot, knots⟩, taken, done⟩ := done
    have mended := unlink_mends mending
    have stays := mended.stays.trans (stays_taken (unlinked.transactions + 1) taken)
    have counted : unlinked.transactions + 1 = map.transactions + 1 := by rw [mended.frame]
    split at done
    · simp only [bind_eq_ok, pure_eq_ok] at done
      obtain ⟨settled, settling, paired⟩ := done
      obtain ⟨rfl, rfl⟩ := Prod.mk.inj paired
      refine stays.marked_before counted (settle_marks settling ?_)
      exact (stays.bucketCount.trans sized).trans (congrArg Rung.size stays.rung).symm
    · cases done
      exact stays.marked sized counted

/-- A release of all entries leaves none that was not there, and gives no handle back. -/
theorem releaseAll_fewer {released : Nat} (done : map.releaseAll = .ok (released, after)) :
    after.knots.next = map.knots.next ∧
      ∀ handle knot, after.knots.get? handle = some knot → map.knots.get? handle = some knot := by
  simp only [releaseAll, bind_eq_ok, pure_eq_ok] at done
  obtain ⟨⟨count, knots⟩, swept, paired⟩ := done
  obtain ⟨rfl, rfl⟩ := Prod.mk.inj paired
  have keeps : ∀ (state : Nat × Slots (Knot K V)) (handle : Handle) (next : Option Handle)
      (after : Nat × Slots (Knot K V)), release state handle = .ok (next, after) →
      state.2.next = map.knots.next ∧ (∀ handle knot, state.2.get? handle = some knot →
        map.knots.get? handle = some knot) →
      after.2.next = map.knots.next ∧ ∀ handle knot, after.2.get? handle = some knot →
        map.knots.get? handle = some knot := by
    rintro state handle next after done ⟨issued, fewer⟩
    simp only [release, bind_eq_ok, pure_eq_ok] at done
    obtain ⟨⟨knot, left⟩, taken, paired⟩ := done
    obtain ⟨_, rfl⟩ := Prod.mk.inj paired
    refine ⟨(Slots.next_take taken).trans issued, ?_⟩
    intro other found held
    rw [Slots.get?_take taken] at held
    split at held
    · cases held
    · exact fewer other found held
  have kept := sweep_keeps keeps swept ⟨rfl, fun _ _ held => held⟩
  exact kept

theorem releaseAll_stays {released : Nat} (done : map.releaseAll = .ok (released, after)) :
    map.Stays after ∧ after.transactions = map.transactions + (released != 0).toNat := by
  obtain ⟨issued, fewer⟩ := releaseAll_fewer done
  simp only [releaseAll, bind_eq_ok, pure_eq_ok] at done
  obtain ⟨⟨count, knots⟩, swept, paired⟩ := done
  obtain ⟨rfl, rfl⟩ := Prod.mk.inj paired
  refine ⟨⟨rfl, rfl, Array.size_replicate, Nat.le_of_eq (congrArg Handle.index issued).symm, ?_⟩, ?_⟩
  · exact fun held _ => ⟨_, fewer _ _ held, rfl⟩
  · by_cases nothing : count = 0
    · simp [nothing]
    · have some : (count != 0) = true := bne_iff_ne.mpr nothing
      simp [nothing, some]

theorem clear_marks {granted : Bool} {released : Nat} (done : map.clear granted = .ok (released, after))
    (sized : map.bucketCount = map.rung.size) :
    map.Marked (Request.alters (K := K) (V := V) .clear (.count released)) after := by
  simp only [clear, bind_eq_ok] at done
  obtain ⟨⟨count, bare⟩, releasing, done⟩ := done
  obtain ⟨stays, counted⟩ := releaseAll_stays releasing
  have bareSized : bare.bucketCount = bare.rung.size := by rw [stays.bucketCount, stays.rung, sized]
  split at done
  · cases done
    exact stays.marked sized counted
  · rename_i higher
    split at done
    · simp only [bind_eq_ok, pure_eq_ok] at done
      obtain ⟨rebuilt, rebuilding, paired⟩ := done
      obtain ⟨rfl, rfl⟩ := Prod.mk.inj paired
      exact stays.marked_before counted (rebuild_marks rebuilding bareSized (Ne.symm higher))
    · cases done
      exact stays.marked sized counted

theorem serve_marks {demand : Demand K V} {answer : Answer K V} (done : map.serve demand = .ok (answer, after))
    (sized : map.bucketCount = map.rung.size) : map.Marked (demand.request.alters answer) after := by
  obtain ⟨request, granted⟩ := demand
  cases request with
  | insert key value =>
    simp only [serve, bind_eq_ok, pure_eq_ok] at done
    obtain ⟨⟨outcome, left⟩, inserted, paired⟩ := done
    obtain ⟨rfl, rfl⟩ := Prod.mk.inj paired
    exact insert_marks inserted sized
  | remove key =>
    simp only [serve, bind_eq_ok, pure_eq_ok] at done
    obtain ⟨⟨value, left⟩, removed, paired⟩ := done
    obtain ⟨rfl, rfl⟩ := Prod.mk.inj paired
    exact remove_marks removed sized
  | clear =>
    simp only [serve, bind_eq_ok, pure_eq_ok] at done
    obtain ⟨⟨released, left⟩, cleared, paired⟩ := done
    obtain ⟨rfl, rfl⟩ := Prod.mk.inj paired
    exact clear_marks cleared sized
  | size =>
    cases done
    exact (Stays.refl map).marked sized rfl
  | lookup key | lookupEntry key | contains key =>
    simp only [serve, bind_eq_ok, pure_eq_ok] at done
    obtain ⟨found, _, paired⟩ := done
    obtain ⟨rfl, rfl⟩ := Prod.mk.inj paired
    exact (Stays.refl map).marked sized rfl

end ThreadedMap

end KeyedStore
