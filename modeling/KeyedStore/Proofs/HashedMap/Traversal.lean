import KeyedStore.Proofs.Simulation
import KeyedStore.Proofs.HashedMap.Sweep
/-!
Cursors of a hashed map that is changed between their steps, whatever the policy. A change either keeps every
entry that stays at its place or starts another epoch, so a cursor keeps its place as long as its epoch lasts,
and each of its steps is one of a sweep through the live entries. A run of changes and steps of any cursors
therefore takes each cursor through a sweep.
-/
namespace KeyedStore.HashedMap

variable {K V : Type}

/-- A map with the cursors it issued. -/
structure Issuer (K V : Type) where
  map : HashedMap K V
  cursors : List HashedCursor := []

/-- One event, with the memory that is granted for it. Where a cursor was moved, its number is reported, with the map
it was moved on and what it returned. -/
def Issuer.step (issuer : Issuer K V) (demand : Demand (Event K V)) :
    Except Fault (Option (Nat × Sight K V) × Issuer K V) :=
  match demand.request with
  | .change change => do
    let map ← issuer.map.apply change demand.granted
    return (none, { issuer with map := map })
  | .start => .ok (none, { issuer with cursors := issuer.cursors ++ [issuer.map.start] })
  | .advance number =>
    match issuer.cursors[number]? with
    | none => .ok (none, issuer)
    | some cursor => do
      let (found, cursor) ← issuer.map.advance cursor
      return (some (number, ⟨issuer.map, found⟩), { issuer with cursors := issuer.cursors.set number cursor })

/-- The steps of one cursor. -/
def sightsOf (number : Nat) (reports : List (Option (Nat × Sight K V))) : List (Sight K V) :=
  reports.filterMap (·.bind fun (cursor, sight) => if cursor = number then some sight else none)

/-- A cursor of this epoch that has come so far. -/
def Follows (map : HashedMap K V) (epoch : Nat) (cursor : HashedCursor) : Progress Place → Prop
  | .after last => map.Stands cursor last ∧ cursor.epoch = epoch
  | .finished => cursor.finished = true

variable {map after : HashedMap K V} {cursor : HashedCursor} {epoch : Nat} {progress : Progress Place}

/-- While its epoch lasts, what a cursor knows of its place stays true. -/
theorem At.steady {last : Option Place} (place : map.At cursor last) (steady : map.Steady after)
    (past : cursor.epoch ≤ map.epoch) : after.At cursor last := by
  have later := steady.epoch
  cases place with
  | start bucket unmoved => exact .start bucket unmoved
  | behind bucket remembered issued known =>
    refine .behind bucket remembered (fun present => ?_) fun present link member same => ?_
    · exact Nat.lt_of_lt_of_le (issued (by omega)) steady.issued
    · have before := issued (by omega)
      rw [← same] at before
      have kept := steady.kept (by omega) link member before
      have stands := known (by omega) link kept same
      rwa [placeOf, ← steady.bucketCount (by omega)] at stands

/-- A cursor that has not ended stays where it is while the map changes. -/
theorem Stands.steady {last : Option Place} (stands : map.Stands cursor last) (steady : map.Steady after) :
    after.Stands cursor last :=
  ⟨stands.active, stands.owned.trans steady.id.symm, Nat.le_trans stands.past steady.epoch,
    stands.place.steady steady stands.past⟩

theorem Follows.steady (follows : map.Follows epoch cursor progress) (steady : map.Steady after) :
    after.Follows epoch cursor progress := by
  cases progress with
  | finished => exact follows
  | after last =>
    obtain ⟨stands, same⟩ := follows
    exact ⟨stands.steady steady, same⟩

/-- The first link ahead of a cursor is that of the next live entry. -/
theorem nextStanding_of_ahead (wellFormed : map.WellFormed) {last : Option Place} {item : Nat × Link K}
    {rest : List (Nat × Link K)} {value : Held V} (reached : map.ahead last = item :: rest)
    (live : map.slots.get? item.2.handle = some value) :
    map.NextStanding last ⟨item.1, item.2, value⟩ := by
  have member : item ∈ map.ahead last := by simp [reached]
  obtain ⟨listed, beyond⟩ := List.mem_filter.mp member
  refine ⟨mem_standings.mpr ⟨listed, live⟩, beyond, ?_⟩
  intro other inside further
  obtain ⟨within, held⟩ := mem_standings.mp inside
  have candidate : (other.bucket, other.link) ∈ map.ahead last := List.mem_filter.mpr ⟨within, further⟩
  have ordered := wellFormed.chained.lineup_ascending.filter (Place.beyond last <| placed ·)
  rw [ahead] at reached candidate
  rw [reached] at ordered candidate
  rcases List.mem_cons.mp candidate with rfl | later
  · left
    obtain rfl : value = other.value := Option.some.inj (live.symm.trans held)
    rfl
  · right
    exact (List.pairwise_cons.mp ordered).1 _ later

/-- One step of a cursor is a step of a sweep through the live entries. -/
theorem advance_sweeps (wellFormed : map.WellFormed) (follows : map.Follows epoch cursor progress) :
    ∃ found moved next returned, map.advance cursor = .ok (found, moved) ∧ map.Follows epoch moved next ∧
      moved.finished = (cursor.finished || found.isNone) ∧
      ∀ sights met, Sweep epoch next sights met →
        Sweep epoch progress (⟨map, found⟩ :: sights) (returned ++ met) := by
  cases progress with
  | finished =>
    have finished : cursor.finished = true := follows
    refine ⟨none, cursor, .finished, [], by simp [advance, finished], finished, by simp [finished], ?_⟩
    intro sights met rest
    obtain rfl := rest.met_of_finished
    exact .finished rest
  | after last =>
    obtain ⟨stands, rfl⟩ := follows
    by_cases present : cursor.epoch = map.epoch
    · cases reached : map.ahead last with
      | nil =>
        obtain ⟨ended, stepped, finished, _⟩ := advance_ended wellFormed stands present reached
        refine ⟨none, ended, .finished, [], stepped, finished, by simp [finished], ?_⟩
        intro sights met rest
        obtain rfl := rest.met_of_finished
        refine .ended present.symm (fun other member => ?_) rest
        obtain ⟨within, _⟩ := mem_standings.mp member
        exact Bool.eq_false_iff.mpr (List.filter_eq_nil_iff.mp reached _ within)
      | cons item rest =>
        obtain ⟨value, live⟩ := wellFormed.live_of_ahead reached
        obtain ⟨moved, stepped, same, standing⟩ := advance_reached wellFormed stands present reached live
        refine ⟨_, moved, .after (some (placed item)), [⟨item.1, item.2, value⟩], stepped, ⟨standing, same⟩,
          by simp [standing.active, stands.active], ?_⟩
        intro sights met rest
        exact .entry present.symm (nextStanding_of_ahead wellFormed reached live) rest
    · refine ⟨none, cursor.stop, .finished, [], advance_outdated stands present, rfl,
        by simp [HashedCursor.stop], ?_⟩
      intro sights met rest
      obtain rfl := rest.met_of_finished
      exact .outdated (Ne.symm present) rest

/-- Whatever a cursor has been through, a step of it is answered. -/
theorem advance_answers (wellFormed : map.WellFormed) (cursor : HashedCursor) :
    ∃ found moved, map.advance cursor = .ok (found, moved) := by
  unfold advance
  split
  · exact ⟨_, _, rfl⟩
  · split
    · exact ⟨_, _, rfl⟩
    · split
      · exact ⟨_, _, rfl⟩
      · rename_i chain held
        split
        · exact ⟨_, _, rfl⟩
        · rename_i bucket link next
          obtain ⟨value, live⟩ := wellFormed.inUse.get?
            (List.mem_map_of_mem (f := (·.handle)) (mem_links_of_nextLink held next))
          exact ⟨_, _, by rw [entry_of_get? live]; rfl⟩

/-- Any event is answered. -/
theorem step_answers {issuer : Issuer K V} (wellFormed : issuer.map.WellFormed) (demand : Demand (Event K V)) :
    ∃ report moved, issuer.step demand = .ok (report, moved) ∧ moved.map.WellFormed := by
  obtain ⟨event, granted⟩ := demand
  cases event with
  | change made =>
    obtain ⟨after, applied, changed⟩ := apply_ends wellFormed granted made
    refine ⟨none, { issuer with map := after }, ?_, changed.wellFormed wellFormed⟩
    simp only [Issuer.step, applied]
    rfl
  | start => exact ⟨none, _, rfl, wellFormed⟩
  | advance number =>
    cases stood : issuer.cursors[number]? with
    | none => exact ⟨none, issuer, by simp only [Issuer.step, stood], wellFormed⟩
    | some cursor =>
      obtain ⟨found, moved, advanced⟩ := advance_answers wellFormed cursor
      refine ⟨some (number, ⟨issuer.map, found⟩), { issuer with cursors := issuer.cursors.set number moved },
        ?_, wellFormed⟩
      simp only [Issuer.step, stood, advanced]
      rfl

/-! ### One cursor of a map that is changed -/

/-- The cursor of this number, and how far it has come. -/
structure Tracks (epoch number : Nat) (issuer : Issuer K V) (cursor : HashedCursor)
    (progress : Progress Place) : Prop where
  wellFormed : issuer.map.WellFormed
  stood : issuer.cursors[number]? = some cursor
  follows : issuer.map.Follows epoch cursor progress

theorem sightsOf_cons (number : Nat) (report : Option (Nat × Sight K V))
    (reports : List (Option (Nat × Sight K V))) :
    sightsOf number (report :: reports) = sightsOf number [report] ++ sightsOf number reports :=
  List.filterMap_append (l := [report])

/-- What an event means for the cursor of one number: it takes the steps seen, and every sweep from where it
has come to is the rest of one from where it had come to before. -/
structure Stepped (epoch number : Nat) (issuer : Issuer K V) (cursor : HashedCursor)
    (progress : Progress Place) (sights : List (Sight K V)) (moved : Issuer K V) : Prop where
  steady : issuer.map.Steady moved.map
  seen : ∀ sight ∈ sights, sight.map = issuer.map
  onward : ∃ later next returned, Tracks epoch number moved later next ∧
    later.finished = (cursor.finished || sights.any (·.found.isNone)) ∧
    ∀ further met, Sweep epoch next further met → Sweep epoch progress (sights ++ further) (returned ++ met)

namespace Tracks

variable {number : Nat} {issuer : Issuer K V}

/-- An event that does not move the cursor. -/
theorem unmoved (tracks : Tracks epoch number issuer cursor progress) {moved : Issuer K V}
    (wellFormed : moved.map.WellFormed) (steady : issuer.map.Steady moved.map)
    (stood : moved.cursors[number]? = some cursor) :
    Stepped epoch number issuer cursor progress [] moved := by
  refine ⟨steady, nofun, cursor, progress, [], ?_, by simp, fun _ _ rest => rest⟩
  exact ⟨wellFormed, stood, tracks.follows.steady steady⟩

/-- Any event is answered, and means for the cursor what it should. -/
theorem step (tracks : Tracks epoch number issuer cursor progress) (demand : Demand (Event K V)) :
    ∃ report moved, issuer.step demand = .ok (report, moved) ∧
      Stepped epoch number issuer cursor progress (sightsOf number [report]) moved := by
  obtain ⟨event, granted⟩ := demand
  have wellFormed := tracks.wellFormed
  have stood := tracks.stood
  have within : number < issuer.cursors.length := (List.getElem?_eq_some_iff.mp stood).1
  cases event with
  | change made =>
    obtain ⟨after, applied, changed⟩ := apply_ends wellFormed granted made
    refine ⟨none, { issuer with map := after }, ?_, ?_⟩
    · simp only [Issuer.step, applied]
      rfl
    · exact unmoved tracks (changed.wellFormed wellFormed) (changed.steady wellFormed) stood
  | start =>
    refine ⟨none, _, rfl, unmoved tracks wellFormed (.refl _) ?_⟩
    exact (List.getElem?_append_left within).trans stood
  | advance other =>
    by_cases same : other = number
    · subst same
      obtain ⟨found, later, next, returned, advanced, going, finished, sweeps⟩ :=
        advance_sweeps wellFormed tracks.follows
      refine ⟨some (other, ⟨issuer.map, found⟩), { issuer with cursors := issuer.cursors.set other later },
        ?_, ?_⟩
      · simp only [Issuer.step, stood, advanced]
        rfl
      · have own : sightsOf other [some (other, ⟨issuer.map, found⟩)] = [⟨issuer.map, found⟩] := by
          simp [sightsOf]
        rw [own]
        refine ⟨.refl _, by simp, later, next, returned, ⟨wellFormed, ?_, going⟩, ?_, sweeps⟩
        · exact List.getElem?_set_self within
        · simp [finished]
    · cases standing : issuer.cursors[other]? with
      | none =>
        exact ⟨none, issuer, by simp only [Issuer.step, standing], unmoved tracks wellFormed (.refl _) stood⟩
      | some passer =>
        obtain ⟨found, moved, advanced⟩ := advance_answers wellFormed passer
        refine ⟨some (other, ⟨issuer.map, found⟩), { issuer with cursors := issuer.cursors.set other moved },
          ?_, ?_⟩
        · simp only [Issuer.step, standing, advanced]
          rfl
        · have foreign : sightsOf number [some (other, ⟨issuer.map, found⟩)] = [] := by
            simp [sightsOf, same]
          rw [foreign]
          refine unmoved tracks wellFormed (.refl _) ?_
          exact (List.getElem?_set_ne same).trans stood

/-- In any run of events the steps of a cursor are a sweep, and it has ended when one of them returned nothing. -/
theorem run (events : List (Demand (Event K V))) (tracks : Tracks epoch number issuer cursor progress) :
    ∃ reports moved later met, runAll Issuer.step issuer events = .ok (reports, moved) ∧
      moved.cursors[number]? = some later ∧
      later.finished = (cursor.finished || (sightsOf number reports).any (·.found.isNone)) ∧
      Sweep epoch progress (sightsOf number reports) met ∧ Sight.Successive (sightsOf number reports) ∧
      ∀ sight ∈ sightsOf number reports, issuer.map.Steady sight.map := by
  induction events generalizing issuer cursor progress with
  | nil =>
    refine ⟨[], issuer, cursor, [], rfl, tracks.stood, ?_, .idle, ⟨nofun, .nil⟩, nofun⟩
    simp [sightsOf]
  | cons event events ih =>
    obtain ⟨report, middle, stepped, steady, seen, later, next, returned, onward, finished, sweeps⟩ :=
      tracks.step event
    obtain ⟨reports, moved, final, met, ran, stood, ended, sweep, successive, since⟩ := ih onward
    have before : ∀ sight ∈ sightsOf number reports, issuer.map.Steady sight.map :=
      fun sight member => steady.trans (since sight member)
    refine ⟨report :: reports, moved, final, returned ++ met, ?_, stood, ?_, ?_, ?_, ?_⟩
    · simp only [runAll, stepped, ran, bind, Except.bind, pure, Except.pure]
    · rw [sightsOf_cons, ended, finished, List.any_append, Bool.or_assoc]
    · rw [sightsOf_cons]
      exact sweeps _ _ sweep
    · rw [sightsOf_cons]
      exact successive.append tracks.wellFormed seen before
    · rw [sightsOf_cons]
      refine List.forall_mem_append.mpr ⟨fun sight member => ?_, before⟩
      rw [seen sight member]
      exact .refl _

end Tracks

theorem tracks_start {issuer : Issuer K V} (wellFormed : issuer.map.WellFormed) :
    Tracks issuer.map.epoch issuer.cursors.length
      { issuer with cursors := issuer.cursors ++ [issuer.map.start] } issuer.map.start (.after none) := by
  refine ⟨wellFormed, ?_, stands_start issuer.map, rfl⟩
  simp

/-- Whatever the comparison, the hash and the copying functions answer, whatever has been done to a fresh map and its
cursors, and whether memory was granted or refused whenever the table asked for another array of buckets: a cursor
that is then started returns at each step, as long as the epoch lasts, the first live entry behind the one it
returned last, with its value at that moment, and ends when there is none; in another epoch it ends at once, and
having ended it returns nothing more. So it returns no entry twice, and every entry that is live at each of its steps
up to the end exactly once. -/
theorem run_sweeps_live (id : Identity) (policy : HashPolicy K V) (noOverwrite : Bool)
    (before events : List (Demand (Event K V))) :
    ∃ former issuer reports moved, runAll Issuer.step ⟨{ id, policy, noOverwrite }, []⟩ before =
        .ok (former, issuer) ∧
      runAll Issuer.step issuer (⟨.start, true⟩ :: events) = .ok (reports, moved) ∧
      ∀ seen, sightsOf issuer.cursors.length reports = seen →
        (∃ cursor, moved.cursors[issuer.cursors.length]? = some cursor ∧
          (cursor.finished = true ↔ ∃ sight ∈ seen, sight.found = none)) ∧
        (∀ sight ∈ seen, ∀ handle value, sight.map.slots.get? handle = some value ↔
          ∃ standing ∈ sight.map.standings, standing.handle = handle ∧ standing.value = value) ∧
        ∃ met, Sweep issuer.map.epoch (.after none) seen met ∧ seen.filterMap (·.found) = met.map (·.pair) ∧
          (met.map (·.handle)).Nodup ∧
          ∀ earlier ending later handle, seen = earlier ++ ending :: later → ending.found = none →
            (∀ sight ∈ earlier ++ [ending], sight.map.epoch = issuer.map.epoch ∧
              ∃ standing ∈ sight.map.standings, standing.handle = handle) →
            (met.map (·.handle)).count handle = 1 := by
  have fresh : (⟨{ id, policy, noOverwrite }, []⟩ : Issuer K V).map.WellFormed :=
    wellFormed_fresh id policy noOverwrite
  obtain ⟨former, issuer, ran, _, wellFormed⟩ :=
    runAll_keeps (fun _ event wellFormed => step_answers wellFormed event) before fresh
  obtain ⟨reports, moved, cursor, met, continued, stood, finished, sweep, successive, _⟩ :=
    (tracks_start wellFormed).run events
  refine ⟨former, issuer, none :: reports, moved, ran, ?_, ?_⟩
  · simp only [runAll, Issuer.step, continued, bind, Except.bind, pure, Except.pure]
  · rintro seen rfl
    have own : sightsOf issuer.cursors.length (none :: reports) = sightsOf issuer.cursors.length reports := rfl
    rw [own]
    refine ⟨⟨cursor, stood, ?_⟩, ?_, met, sweep, sweep.filterMap_found, sweep.nodup successive, ?_⟩
    · rw [finished]
      simp [start]
    · intro sight member handle value
      exact exists_standing_iff (successive.wellFormed sight member)
    · intro earlier ending later handle split silent throughout
      rw [split] at sweep successive
      have met := sweep.complete silent successive throughout fun _ _ _ _ _ => rfl
      exact List.count_eq_one_of_mem (sweep.nodup successive) met

end KeyedStore.HashedMap
