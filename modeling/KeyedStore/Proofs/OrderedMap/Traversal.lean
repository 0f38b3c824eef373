import Mathlib.Logic.Function.Basic
import KeyedStore.Proofs.Tour
import KeyedStore.Proofs.OrderedMap.Refinement
/-!
Cursors of an ordered map that is changed between their steps. As long as no change was counted, the spot
of a cursor leads to exactly the tags with a greater key than the one it returned last; once one was, the
spot is found again from that key. Either way each step is one of a tour through the live entries.
-/
namespace KeyedStore.OrderedMap

variable {K V : Type}

/-- A map with the cursors it issued. -/
structure Issuer (K V : Type) where
  map : OrderedMap K V
  cursors : List (OrderedCursor K) := []

/-- One event. Where a cursor was moved, its number and what it returned are reported. -/
def Issuer.step (issuer : Issuer K V) :
    Event K V → Except Fault (Option (Nat × Option (K × V)) × Issuer K V)
  | .change change => do
    let map ← issuer.map.apply change
    return (none, { issuer with map := map })
  | .start => .ok (none, { issuer with cursors := issuer.cursors ++ [issuer.map.start] })
  | .advance number =>
    match issuer.cursors[number]? with
    | none => .ok (none, issuer)
    | some cursor => do
      let (found, cursor) ← issuer.map.advance cursor
      return (some (number, found), { issuer with cursors := issuer.cursors.set number cursor })

/-- A cursor that has not ended, after having returned this key last. -/
structure Reads (map : OrderedMap K V) (cursor : OrderedCursor K) (last : Option K) : Prop where
  active : cursor.finished = false
  owned : cursor.owner = map.id
  past : cursor.transactions ≤ map.transactions
  key : Option.Rel (fun stored key => map.policy.compare stored.val key = .eq) cursor.lastKey last
  onward : cursor.transactions = map.transactions →
    Spot.onward cursor.next = map.shape.toList.filter (map.policy.beyond last ·.key.val)

/-- A cursor that has come so far. -/
def Follows (map : OrderedMap K V) (cursor : OrderedCursor K) : Progress K → Prop
  | .after last => map.Reads cursor last
  | .finished => cursor.finished = true

variable {map after : OrderedMap K V} {cursor : OrderedCursor K} {ledger : Ledger Unit K V}
  {last : Option K}

theorem reads_start (map : OrderedMap K V) : map.Reads map.start none := by
  refine ⟨rfl, rfl, le_rfl, .none, ?_⟩
  intro _
  rw [onward_start]
  exact (List.filter_eq_self.mpr fun _ _ => rfl).symm

/-- A change leaves a cursor where it is: either the shape is the same, or the count tells. -/
theorem Follows.changed {change : Change K V} {progress : Progress K} (changed : Changed map change after)
    (wellFormed : map.WellFormed) (follows : map.Follows cursor progress) :
    after.Follows cursor progress := by
  obtain ⟨id, policy, _, counted⟩ := changed.frame wellFormed
  cases progress with
  | finished => exact follows
  | after last =>
    have reads : map.Reads cursor last := follows
    have past := reads.past
    refine ⟨reads.active, reads.owned.trans id.symm, ?_, policy ▸ reads.key, ?_⟩
    · omega
    · intro present
      obtain ⟨before, shape⟩ := changed.still wellFormed past present
      rw [shape, policy]
      exact reads.onward before

/-- Once its spot is one of the present shape, a cursor has exactly the greater keys ahead. -/
theorem Reads.onward_synchronize (reads : map.Reads cursor last) (lawful : map.policy.Lawful)
    (sorted : map.Sorted) :
    Spot.onward (cursor.synchronize map).next =
      map.shape.toList.filter (map.policy.beyond last ·.key.val) := by
  have := lawful.order
  unfold OrderedCursor.synchronize
  split
  · rename_i present
    exact reads.onward present
  · -- The remembered key may be another of its class, which parts the tags in the same way.
    have key := reads.key
    unfold OrderedCursor.resume
    cases stored : cursor.lastKey with
    | none =>
      rw [stored] at key
      cases key
      simp only [Path.onward_firstSpot]
      exact (List.filter_eq_self.mpr fun _ _ => rfl).symm
    | some remembered =>
      rw [stored] at key
      cases key with
      | some equal =>
        simp only [Path.onward_firstBeyond (sorted.splits lawful remembered.val)]
        refine List.filter_congr ?_
        intro tag _
        simp only [Policy.beyond, Option.all_some, probe, Std.TransCmp.congr_left equal]

/-- What stands behind the first greater key are the keys greater than that one. -/
theorem Sorted.filter_beyond (sorted : map.Sorted) (lawful : map.policy.Lawful) {tag : Tag K}
    {rest : List (Tag K)}
    (split : map.shape.toList.filter (map.policy.beyond last ·.key.val) = tag :: rest) :
    rest = map.shape.toList.filter (map.policy.beyond (some tag.key.val) ·.key.val) := by
  have := lawful.order
  have ordered := List.Pairwise.filter (map.policy.beyond last ·.key.val) sorted
  rw [split] at ordered
  have first : map.policy.beyond last tag.key.val = true := by
    have member : tag ∈ map.shape.toList.filter (map.policy.beyond last ·.key.val) := by simp [split]
    exact (List.mem_filter.mp member).2
  have further : ∀ other : Tag K, map.policy.beyond (some tag.key.val) other.key.val =
      (map.policy.beyond (some tag.key.val) other.key.val && map.policy.beyond last other.key.val) := by
    intro other
    cases greater : map.policy.beyond (some tag.key.val) other.key.val with
    | false => rfl
    | true =>
      cases last with
      | none => rfl
      | some bound =>
        simp only [Policy.beyond, Option.all_some, beq_iff_eq] at first greater
        simp [Policy.beyond, Std.TransCmp.lt_trans first greater]
  have itself : map.policy.beyond (some tag.key.val) tag.key.val = false := by
    have same : map.policy.compare tag.key.val tag.key.val = .eq := Std.ReflCmp.compare_self
    simp [Policy.beyond, same]
  have later : ∀ other ∈ rest, map.policy.beyond (some tag.key.val) other.key.val = true := by
    intro other member
    have before : map.policy.compare tag.key.val other.key.val = .lt :=
      (List.pairwise_cons.mp ordered).1 other member
    simp [Policy.beyond, before]
  rw [List.filter_congr fun other _ => further other, ← List.filter_filter, split,
    List.filter_cons_of_neg (by simp [itself]), List.filter_eq_self.mpr later]

/-- A cursor with no greater key ahead ends. -/
theorem Reads.advance_ended (reads : map.Reads cursor last) (lawful : map.policy.Lawful) (sorted : map.Sorted)
    (nothing : map.shape.toList.filter (map.policy.beyond last ·.key.val) = []) :
    ∃ ended, map.advance cursor = .ok (none, ended) ∧ ended.finished = true := by
  have greater := reads.onward_synchronize lawful sorted
  cases reached : (cursor.synchronize map).next with
  | none => exact ⟨_, OrderedMap.advance_ended reads.active reads.owned reached, rfl⟩
  | some spot =>
    rw [reached, nothing] at greater
    cases greater

/-- A cursor returns the entry of the first greater key, and has come as far as it. -/
theorem Reads.advance_reached (reads : map.Reads cursor last) (lawful : map.policy.Lawful) (sorted : map.Sorted)
    {tag : Tag K} {rest : List (Tag K)} {value : Held V}
    (split : map.shape.toList.filter (map.policy.beyond last ·.key.val) = tag :: rest)
    (held : map.slots.get? tag.handle = some value) :
    ∃ moved, map.advance cursor = .ok (some (tag.key.val, value.val), moved) ∧
      map.Reads moved (some tag.key.val) := by
  have greater := reads.onward_synchronize lawful sorted
  cases reached : (cursor.synchronize map).next with
  | none =>
    rw [reached, split] at greater
    cases greater
  | some spot =>
    rw [reached, split] at greater
    obtain ⟨rfl, behind⟩ := List.cons.inj greater
    have current := current_synchronize reads.active reads.owned
    refine ⟨_, OrderedMap.advance_reached reads.active reads.owned reached held,
      current.active, current.owned, le_of_eq current.present, ?_, ?_⟩
    · exact .some (lawful.rememberKey spot.label.key)
    · intro _
      rw [Spot.onward_next?, behind]
      exact sorted.filter_beyond lawful split

theorem next_of_filter {tag : Tag K} {rest : List (Tag K)} {value : Held V} (mirrors : map.Mirrors ledger)
    (split : map.shape.toList.filter (map.policy.beyond last ·.key.val) = tag :: rest)
    (held : map.slots.get? tag.handle = some value) :
    Ledger.Next map.policy last ledger ⟨(), tag.key, value⟩ := by
  have ordered := List.Pairwise.filter (map.policy.beyond last ·.key.val) mirrors.sorted
  rw [split] at ordered
  have member : tag ∈ map.shape.toList.filter (map.policy.beyond last ·.key.val) := by simp [split]
  obtain ⟨within, beyond⟩ := List.mem_filter.mp member
  refine ⟨mirrors.holds.mem_iff.mp (mem_records.mpr ⟨tag, within, value, held, rfl⟩), beyond, ?_⟩
  intro other live greater
  obtain ⟨mark, inside, stored, found, rfl⟩ := mem_records.mp (mirrors.holds.mem_iff.mpr live)
  have candidate : mark ∈ map.shape.toList.filter (map.policy.beyond last ·.key.val) :=
    List.mem_filter.mpr ⟨inside, greater⟩
  rw [split] at candidate
  rcases List.mem_cons.mp candidate with rfl | later
  · obtain rfl : value = stored := Option.some.inj (held.symm.trans found)
    exact .inl rfl
  · exact .inr ((List.pairwise_cons.mp ordered).1 mark later)

/-- One step of a cursor is a step of a tour through the live entries. -/
theorem advance_tours (mirrors : map.Mirrors ledger) (lawful : map.policy.Lawful) {progress : Progress K}
    (follows : map.Follows cursor progress) :
    ∃ found moved next, map.advance cursor = .ok (found, moved) ∧ map.Follows moved next ∧
      ∀ visits, Tour map.policy next visits → Tour map.policy progress (⟨ledger, found⟩ :: visits) := by
  cases progress with
  | finished =>
    have finished : cursor.finished = true := follows
    exact ⟨none, cursor, .finished, by simp [advance, finished], finished, fun visits rest => .finished rest⟩
  | after last =>
    have reads : map.Reads cursor last := follows
    cases split : map.shape.toList.filter (map.policy.beyond last ·.key.val) with
    | nil =>
      obtain ⟨ended, stepped, finished⟩ := reads.advance_ended lawful mirrors.sorted split
      refine ⟨none, ended, .finished, stepped, finished, ?_⟩
      refine fun visits rest => .ended (fun other live => ?_) rest
      obtain ⟨tag, inside, value, _, rfl⟩ := mem_records.mp (mirrors.holds.mem_iff.mpr live)
      simpa using List.filter_eq_nil_iff.mp split tag inside
    | cons tag rest =>
      have member : tag ∈ map.shape.toList.filter (map.policy.beyond last ·.key.val) := by simp [split]
      obtain ⟨value, held⟩ := mirrors.wellFormed.live (List.mem_filter.mp member).1
      obtain ⟨moved, stepped, reading⟩ := reads.advance_reached lawful mirrors.sorted split held
      refine ⟨_, moved, .after (some tag.key.val), stepped, reading, ?_⟩
      exact fun visits rest => .entry (next_of_filter mirrors split held) rest

/-- The map mirrors the live entries, and every cursor has come as far as is said. Cursors that were not
started yet have come nowhere. -/
structure Attends (rules : Rules Unit K V) (issuer : Issuer K V) (ledger : Ledger Unit K V)
    (progress : Nat → Progress K) : Prop where
  ruled : issuer.map.rules = rules
  mirrors : issuer.map.Mirrors ledger
  follows : ∀ number cursor, issuer.cursors[number]? = some cursor →
    issuer.map.Follows cursor (progress number)
  fresh : ∀ number, issuer.cursors.length ≤ number → progress number = .after none

namespace Attends

variable {rules : Rules Unit K V} {issuer : Issuer K V} {progress : Nat → Progress K}

theorem changed (attends : Attends rules issuer ledger progress) (lawful : rules.policy.Lawful)
    {made : Change K V} (change : Changed issuer.map made after) :
    Attends rules { issuer with map := after } (Ledger.serve rules ledger made.request).2 progress := by
  obtain ⟨rfl, mirrors, follows, fresh⟩ := attends
  obtain ⟨_, policy, noOverwrite, _⟩ := change.frame mirrors.wellFormed
  refine ⟨?_, change.mirrors lawful mirrors, ?_, fresh⟩
  · simp only [OrderedMap.rules, policy, noOverwrite]
  · intro number cursor stood
    exact (follows number cursor stood).changed change mirrors.wellFormed

theorem numbered (attends : Attends rules issuer ledger progress) :
    Numbered issuer.map.Follows (.after none) issuer.cursors progress := ⟨attends.follows, attends.fresh⟩

theorem started (attends : Attends rules issuer ledger progress) :
    Attends rules { issuer with cursors := issuer.cursors ++ [issuer.map.start] } ledger progress := by
  obtain ⟨follows, fresh⟩ := attends.numbered.started (reads_start issuer.map)
  exact ⟨attends.ruled, attends.mirrors, follows, fresh⟩

theorem moved (attends : Attends rules issuer ledger progress) {number : Nat} {next : Progress K}
    (within : number < issuer.cursors.length) (going : issuer.map.Follows cursor next) :
    Attends rules { issuer with cursors := issuer.cursors.set number cursor } ledger
      (Function.update progress number next) := by
  rw [← Function.update_self number next progress] at going
  obtain ⟨follows, fresh⟩ :=
    attends.numbered.moved within going fun other apart => Function.update_of_ne apart next progress
  exact ⟨attends.ruled, attends.mirrors, follows, fresh⟩

end Attends

/-- One event: every tour from where the cursors have come to afterwards is the rest of one from where
they had come to before. -/
theorem step_tours {rules : Rules Unit K V} {issuer : Issuer K V} {progress : Nat → Progress K}
    (lawful : rules.policy.Lawful) (attends : Attends rules issuer ledger progress) (event : Event K V) :
    ∃ report moved next, issuer.step event = .ok (report, moved) ∧
      Attends rules moved (event.applied rules ledger) next ∧
      ∀ number events reports,
        Tour rules.policy (next number)
          (visits rules number (event.applied rules ledger) events reports) →
        Tour rules.policy (progress number)
          (visits rules number ledger (event :: events) (report :: reports)) := by
  cases event with
  | change made =>
    obtain ⟨after, applied, changed⟩ := apply_ends attends.mirrors.wellFormed made
    refine ⟨none, { issuer with map := after }, progress, ?_, ?_, fun _ _ _ rest => rest⟩
    · simp only [Issuer.step, applied]
      rfl
    · exact attends.changed lawful changed
  | start => exact ⟨none, _, progress, rfl, attends.started, fun _ _ _ rest => rest⟩
  | advance number =>
    cases stood : issuer.cursors[number]? with
    | none =>
      refine ⟨none, issuer, progress, ?_, attends, fun _ _ _ rest => rest⟩
      simp only [Issuer.step, stood]
    | some cursor =>
      have within : number < issuer.cursors.length := (List.getElem?_eq_some_iff.mp stood).1
      have follows := attends.follows number cursor stood
      obtain rfl := attends.ruled
      obtain ⟨found, cursor, next, advanced, going, tours⟩ :=
        advance_tours attends.mirrors lawful follows
      refine ⟨some (number, found), _, _, ?_, attends.moved within going, ?_⟩
      · simp only [Issuer.step, stood, advanced]
        rfl
      · intro other events reports rest
        by_cases same : other = number
        · subst same
          rw [Function.update_self] at rest
          simp only [visits, if_true]
          exact tours _ rest
        · rw [Function.update_of_ne same] at rest
          simp only [visits, Ne.symm same, if_false]
          exact rest

theorem run_tours {rules : Rules Unit K V} (lawful : rules.policy.Lawful) (events : List (Event K V))
    {issuer : Issuer K V} {progress : Nat → Progress K} (attends : Attends rules issuer ledger progress) :
    ∃ reports moved, runAll Issuer.step issuer events = .ok (reports, moved) ∧
      moved.map.Mirrors (events.foldl (fun live event => event.applied rules live) ledger) ∧
      ∀ number, Tour rules.policy (progress number) (visits rules number ledger events reports) := by
  induction events generalizing issuer ledger progress with
  | nil => exact ⟨[], issuer, rfl, attends.mirrors, fun number => .idle⟩
  | cons event events ih =>
    obtain ⟨report, middle, next, stepped, attending, first⟩ := step_tours lawful attends event
    obtain ⟨reports, moved, ran, mirrors, later⟩ := ih attending
    refine ⟨report :: reports, moved, ?_, mirrors, fun number => first number events reports (later number)⟩
    simp only [runAll, stepped, ran, bind, Except.bind, pure, Except.pure]

/-- Under a lawful policy, whatever happens to a fresh map between the steps of its cursors: the map holds
the entries of the list, and every cursor returns at each step the least live entry beyond the one it
returned last, until it has none to return. So its keys ascend strictly, and it returns every key that is
live at each of its steps up to the end. -/
theorem run_tours_live (id : Identity) (policy : Policy K V) (noOverwrite : Bool) (lawful : policy.Lawful)
    (events : List (Event K V)) :
    ∃ reports issuer, runAll Issuer.step ⟨{ id, policy, noOverwrite }, []⟩ events = .ok (reports, issuer) ∧
      issuer.map.records.Perm
        (events.foldl (fun live event => event.applied ⟨policy, fun _ => (), noOverwrite⟩ live) []) ∧
      ∀ number toured, visits ⟨policy, fun _ => (), noOverwrite⟩ number [] events reports = toured →
        Tour policy (.after none) toured ∧
        (Visit.keys toured).Pairwise (policy.compare · · = .lt) ∧
        ∀ earlier live later key, toured = earlier ++ ⟨live, none⟩ :: later →
          (∀ visit ∈ earlier ++ [⟨live, none⟩], ∃ record ∈ visit.live, record.key.val = key) →
          key ∈ Visit.keys earlier := by
  have attends : Attends ⟨policy, fun _ => (), noOverwrite⟩ ⟨{ id, policy, noOverwrite }, []⟩ []
      fun _ => .after none :=
    ⟨rfl, mirrors_fresh id policy noOverwrite, fun _ _ present => by simp at present, fun _ _ => rfl⟩
  obtain ⟨reports, issuer, ran, mirrors, tours⟩ := run_tours lawful events attends
  refine ⟨reports, issuer, ran, mirrors.holds, ?_⟩
  rintro number toured rfl
  have tour := tours number
  refine ⟨tour, (tour.ascending lawful).1, ?_⟩
  intro earlier live later key split throughout
  rw [split] at tour
  exact tour.complete rfl throughout

/-- A cursor returns one class; then that class is made again and the one ahead is replaced by another. -/
theorem run_tours_live_tens :
    ∃ issuer, runAll Issuer.step ⟨{ id := ⟨0⟩, policy := Policy.tens, noOverwrite := false }, []⟩
        [.change (.insert ⟨.owned, 57⟩ ⟨.owned, "a"⟩), .change (.insert ⟨.borrowed, 12⟩ ⟨.owned, "b"⟩),
          .start, .advance 0, .change (.remove 59), .change (.remove 19),
          .change (.insert ⟨.owned, 35⟩ ⟨.owned, "c"⟩), .change (.insert ⟨.owned, 11⟩ ⟨.owned, "d"⟩),
          .advance 0, .advance 0] =
        .ok ([none, none, none, some (0, some (10, "b")), none, none, none, none,
          some (0, some (35, "c")), some (0, none)], issuer) ∧
      ([10, 35] : List Nat).Pairwise (Policy.compare (Policy.tens : Policy Nat String) · · = .lt) := by
  obtain ⟨reports, issuer, ran, _, tours⟩ :=
    run_tours_live ⟨0⟩ (Policy.tens : Policy Nat String) false Policy.lawful_tens
      [.change (.insert ⟨.owned, 57⟩ ⟨.owned, "a"⟩), .change (.insert ⟨.borrowed, 12⟩ ⟨.owned, "b"⟩),
        .start, .advance 0, .change (.remove 59), .change (.remove 19),
        .change (.insert ⟨.owned, 35⟩ ⟨.owned, "c"⟩), .change (.insert ⟨.owned, 11⟩ ⟨.owned, "d"⟩),
        .advance 0, .advance 0]
  obtain ⟨rfl, rfl⟩ := Prod.mk.inj (Except.ok.inj ran)
  exact ⟨_, ran, (tours 0 _ rfl).2.1⟩

end KeyedStore.OrderedMap
