import KeyedStore.Proofs.OrderedMap.Stack
import KeyedStore.Proofs.OrderedMap.Traversal
/-!
Where the cursors of an ordered map stand between their steps, whatever the comparison answers. A cursor with a
stack of handles goes in step with one that keeps a spot. As long as no change was counted, its stack is the way to
the node that it goes to next, and that node comes right behind the one it returned last.
-/
namespace KeyedStore

variable {K V : Type}

namespace OrderedCursor

/-- The same cursor with a stack of handles in place of its spot. -/
def stacked (cursor : OrderedCursor K) : StackedCursor K where
  owner := cursor.owner
  path := (Spot.place cursor.next).2
  next := (Spot.place cursor.next).1
  lastKey := cursor.lastKey
  transactions := cursor.transactions
  finished := cursor.finished

theorem resume_stacked (map : OrderedMap K V) (cursor : OrderedCursor K) :
    cursor.stacked.resume map = Spot.place (resume map cursor.lastKey) := by
  cases last : cursor.lastKey with
  | none => simp only [StackedCursor.resume, stacked, last, resume, Trail.leftmost_root]
  | some key => simp only [StackedCursor.resume, stacked, last, resume, Trail.seekAfter_eq]

theorem synchronize_stacked (map : OrderedMap K V) (cursor : OrderedCursor K) :
    cursor.stacked.synchronize map = (cursor.synchronize map).stacked := by
  unfold StackedCursor.synchronize synchronize
  rw [resume_stacked]
  by_cases present : cursor.transactions = map.transactions
  · rw [if_pos present]
    exact if_pos present
  · rw [if_neg present]
    exact if_neg present

end OrderedCursor

namespace OrderedMap

variable {map after : OrderedMap K V} {cursor : OrderedCursor K} {last : Option Handle}

theorem start_stacked (map : OrderedMap K V) : map.startStacked = map.start.stacked := by
  simp only [startStacked, start, OrderedCursor.stacked, Trail.leftmost_root]

/-! ### One step with a stack -/

theorem advanceStacked_finished (finished : cursor.finished = true) :
    map.advanceStacked cursor.stacked = .ok (none, cursor.stacked) := by
  rw [advanceStacked]
  exact if_pos finished

theorem advanceStacked_ended (active : cursor.finished = false) (owned : cursor.owner = map.id)
    (ended : (cursor.synchronize map).next = none) :
    map.advanceStacked cursor.stacked = .ok (none, (cursor.synchronize map).stop.stacked) := by
  have unfinished : cursor.stacked.finished = false := active
  have own : cursor.stacked.owner = map.id := owned
  have nowhere : (cursor.synchronize map).stacked.next = none := by rw [OrderedCursor.stacked, ended, Spot.place]
  simp only [advanceStacked, unfinished, own, OrderedCursor.synchronize_stacked, nowhere, Bool.false_eq_true,
    if_false, ne_eq, not_true]
  rfl

theorem advanceStacked_reached {spot : Spot (Tag K)} {value : Held V} (distinct : map.shape.handles.Nodup)
    (active : cursor.finished = false) (owned : cursor.owner = map.id)
    (reached : (cursor.synchronize map).next = some spot) (whole : spot.whole = map.shape)
    (held : map.slots.get? spot.label.handle = some value) :
    map.advanceStacked cursor.stacked =
      .ok (some (spot.label.handle, spot.label.key.val, value.val), OrderedCursor.stacked { cursor.synchronize map with
        next := spot.next?
        lastKey := some (map.policy.rememberKey spot.label.key) }) := by
  have unfinished : cursor.stacked.finished = false := active
  have own : cursor.stacked.owner = map.id := owned
  have next : (cursor.synchronize map).stacked.next = some spot.label.handle := by
    rw [OrderedCursor.stacked, reached, Spot.place]
  have path : (cursor.synchronize map).stacked.path = spot.path.trail := by
    rw [OrderedCursor.stacked, reached, Spot.place]
  rw [← whole] at distinct
  have followed : Trail.successor map.shape spot.path.trail spot.label.handle = .ok (Spot.place spot.next?) := by
    rw [← whole]
    exact Trail.successor_eq distinct
  have named : map.shape.named spot.label.handle = .ok (spot.label, spot.right) := by
    rw [← whole]
    exact Spot.named_whole distinct
  simp only [advanceStacked, unfinished, own, OrderedCursor.synchronize_stacked, next, path, followed, named,
    entry_of_get? held, Bool.false_eq_true, if_false, ne_eq, not_true, bind, Except.bind]
  rfl

/-! ### What a cursor has behind it -/

/-- These tags are what is left of the list, behind the node with this handle or from the beginning. -/
inductive Ahead (tags : List (Tag K)) : Option Handle → List (Tag K) → Prop where
  | all : Ahead tags none tags
  | behind {before rest : List (Tag K)} {tag : Tag K} (split : tags = before ++ tag :: rest) :
      Ahead tags (some tag.handle) rest

/-- A cursor that returned this handle last and has not ended. Unless a change was counted, it goes on right behind
that node. -/
structure Succeeds (map : OrderedMap K V) (cursor : OrderedCursor K) (last : Option Handle) : Prop where
  admits : map.Admits cursor
  ahead : cursor.transactions = map.transactions → Ahead map.shape.toList last (Spot.onward cursor.next)

theorem succeeds_start (map : OrderedMap K V) : map.Succeeds map.start none := by
  refine ⟨admits_start map, fun _ => ?_⟩
  rw [onward_start]
  exact .all

theorem Succeeds.changed {change : Change K V} (succeeds : map.Succeeds cursor last)
    (changed : Changed map change after) (wellFormed : map.WellFormed) : after.Succeeds cursor last := by
  refine ⟨succeeds.admits.changed changed wellFormed, fun present => ?_⟩
  obtain ⟨before, shape⟩ := changed.still wellFormed succeeds.admits.past present
  rw [shape]
  exact succeeds.ahead before

/-- What a cursor has behind it once it has ended, or goes on. -/
def Settles (map : OrderedMap K V) (cursor : OrderedCursor K) (last : Option Handle) : Prop :=
  cursor.finished = true ∨ map.Succeeds cursor last

/-- The node that a cursor returned last, after it returned this. -/
def latest (last : Option Handle) (found : Option (Handle × K × V)) : Option Handle := (found.map Prod.fst).or last

/-- A step of both cursors in the map they stand in. Either they end, or they return the entry of a spot and stop at the
spot behind it. -/
theorem Admits.advance_stacked (admits : map.Admits cursor) (wellFormed : map.WellFormed) :
    ∃ found moved, map.advance cursor = .ok (found.map Prod.snd, moved) ∧
      map.advanceStacked cursor.stacked = .ok (found, moved.stacked) ∧
      (found = none ∧ moved.finished = true ∨ map.Admits moved ∧ ∃ spot : Spot (Tag K), spot.whole = map.shape ∧
        found.map Prod.fst = some spot.label.handle ∧ moved.next = spot.next?) := by
  rcases admits.finds wellFormed with ended | ⟨spot, value, reached, whole, held⟩
  · exact ⟨none, _, advance_ended admits.active admits.owned ended,
      advanceStacked_ended admits.active admits.owned ended, .inl ⟨rfl, rfl⟩⟩
  · have distinct : map.shape.handles.Nodup := wellFormed.inUse.nodup
    exact ⟨some (spot.label.handle, spot.label.key.val, value.val), _,
      advance_reached admits.active admits.owned reached held,
      advanceStacked_reached distinct admits.active admits.owned reached whole held,
      .inr ⟨admits.moved whole _, spot, whole, rfl, rfl⟩⟩

/-- A step of both cursors, whether they have ended, belong to another map, or stand in this one. -/
theorem advance_stacked (wellFormed : map.WellFormed)
    (place : cursor.finished = true ∨ cursor.owner ≠ map.id ∨ map.Admits cursor) :
    ∃ found moved, map.advance cursor = .ok (found.map Prod.snd, moved) ∧
      map.advanceStacked cursor.stacked = .ok (found, moved.stacked) := by
  by_cases finished : cursor.finished = true
  · exact ⟨none, cursor, if_pos finished, advanceStacked_finished finished⟩
  rcases place.resolve_left finished with foreign | admits
  · refine ⟨none, cursor.stop, ?_, ?_⟩
    · rw [advance, if_neg finished, if_pos foreign]
      rfl
    · rw [advanceStacked]
      exact (if_neg finished).trans (if_pos foreign)
  · obtain ⟨found, moved, advanced, also, _⟩ := admits.advance_stacked wellFormed
    exact ⟨found, moved, advanced, also⟩

/-- What they return is the same entry, and the node they stop at is the one behind it. -/
theorem Settles.advance (settles : map.Settles cursor last) (wellFormed : map.WellFormed) :
    ∃ found moved, map.advance cursor = .ok (found.map Prod.snd, moved) ∧
      map.advanceStacked cursor.stacked = .ok (found, moved.stacked) ∧ map.Settles moved (latest last found) := by
  rcases settles with finished | ⟨admits, _⟩
  · exact ⟨none, cursor, if_pos finished, advanceStacked_finished finished, .inl finished⟩
  obtain ⟨found, moved, advanced, also, ⟨rfl, finished⟩ | ⟨further, spot, whole, returned, next⟩⟩ :=
    admits.advance_stacked wellFormed
  · exact ⟨none, moved, advanced, also, .inl finished⟩
  · refine ⟨found, moved, advanced, also, .inr ⟨further, fun _ => ?_⟩⟩
    rw [latest, returned, Option.some_or, next, Spot.onward_next?]
    apply Ahead.behind
    rw [← whole, Spot.toList_whole]

/-! ### Runs -/

/-- A map with cursors that keep stacks. -/
structure StackedIssuer (K V : Type) where
  map : OrderedMap K V
  cursors : List (StackedCursor K) := []

/-- One event. Where a cursor was moved, its number and the entry it returned are reported, the entry under its
handle. -/
def StackedIssuer.step (issuer : StackedIssuer K V) :
    Event K V → Except Fault (Option (Nat × Option (Handle × K × V)) × StackedIssuer K V)
  | .change change => do
    let map ← issuer.map.apply change
    return (none, { issuer with map := map })
  | .start => .ok (none, { issuer with cursors := issuer.cursors ++ [issuer.map.startStacked] })
  | .advance number =>
    match issuer.cursors[number]? with
    | none => .ok (none, issuer)
    | some cursor => do
      let (found, cursor) ← issuer.map.advanceStacked cursor
      return (some (number, found), { issuer with cursors := issuer.cursors.set number cursor })

/-- The same map with stacks for the spots of its cursors. -/
def Issuer.stacked (issuer : Issuer K V) : StackedIssuer K V :=
  ⟨issuer.map, issuer.cursors.map OrderedCursor.stacked⟩

/-- A report without the handle. -/
def withoutHandle (report : Option (Nat × Option (Handle × K × V))) : Option (Nat × Option (K × V)) :=
  report.map fun moved => (moved.1, moved.2.map Prod.snd)

/-- The node that the cursor with a number returned last, after this was reported. -/
def lastAfter (number : Nat) (last : Option Handle) : Option (Nat × Option (Handle × K × V)) → Option Handle
  | none => last
  | some moved => if moved.1 = number then latest last moved.2 else last

/-- The node that the cursor with a number returned last in a run with these reports. -/
def returnedLast (number : Nat) (reports : List (Option (Nat × Option (Handle × K × V)))) : Option Handle :=
  reports.foldl (lastAfter number) none

/-- A place in the shape right behind the node that was returned last, or the first one. -/
structure Placed (map : OrderedMap K V) (last : Option Handle) (cursor : StackedCursor K) : Prop where
  located : map.shape.Located (cursor.next, cursor.path)
  live : ∀ handle, cursor.next = some handle ∨ handle ∈ cursor.path.map Prod.fst → map.slots.contains handle = true
  first : last = none → cursor.next = map.shape.handles.head?
  behind : ∀ handle, last = some handle →
    ∃ before rest, map.shape.handles = before ++ handle :: rest ∧ cursor.next = rest.head?

theorem Succeeds.placed (succeeds : map.Succeeds cursor last) (wellFormed : map.WellFormed)
    (present : cursor.transactions = map.transactions) : map.Placed last cursor.stacked := by
  have located := Spot.located wellFormed.inUse.nodup (succeeds.admits.whole present)
  have ahead := succeeds.ahead present
  have next : cursor.stacked.next = ((Spot.onward cursor.next).map (·.handle)).head? := Spot.place_fst cursor.next
  generalize Spot.onward cursor.next = rest at ahead next
  constructor
  case located => exact located
  case live => exact fun handle named => (wellFormed.inUse.live handle).mp (located.mem_handles named)
  case first =>
    rintro rfl
    cases ahead
    exact next
  case behind =>
    rintro handle rfl
    cases ahead with
    | @behind before _ tag split =>
      refine ⟨before.map (·.handle), rest.map (·.handle), ?_, next⟩
      rw [Shape.handles, split, List.map_append, List.map_cons]

/-- Every cursor settled behind the node that it returned last, and those to come returned none. -/
structure Keeps (issuer : Issuer K V) (last : Nat → Option Handle) : Prop where
  wellFormed : issuer.map.WellFormed
  numbered : Numbered issuer.map.Settles none issuer.cursors last

variable {issuer : Issuer K V} {lasts : Nat → Option Handle}

/-- Any event is answered to both kinds of cursors alike. -/
theorem Keeps.step (keeps : Keeps issuer lasts) (event : Event K V) :
    ∃ report moved, issuer.step event = .ok (withoutHandle report, moved) ∧
      issuer.stacked.step event = .ok (report, moved.stacked) ∧
      Keeps moved fun number => lastAfter number (lasts number) report := by
  obtain ⟨wellFormed, numbered⟩ := keeps
  cases event with
  | change made =>
    obtain ⟨after, applied, changed⟩ := apply_ends wellFormed made
    refine ⟨none, { issuer with map := after }, ?_, ?_, changed.wellFormed wellFormed, ?_, numbered.fresh⟩
    · simp only [Issuer.step, applied]
      rfl
    · simp only [StackedIssuer.step, Issuer.stacked, applied]
      rfl
    · intro number cursor stood
      exact (numbered.holds number cursor stood).imp_right fun succeeds => succeeds.changed changed wellFormed
  | start =>
    refine ⟨none, { issuer with cursors := issuer.cursors ++ [issuer.map.start] }, rfl, ?_, wellFormed, ?_⟩
    · simp only [StackedIssuer.step, Issuer.stacked, start_stacked, List.map_append, List.map_cons, List.map_nil]
    · exact numbered.started (.inr (succeeds_start issuer.map))
  | advance number =>
    have beside : (issuer.cursors.map OrderedCursor.stacked)[number]? =
        issuer.cursors[number]?.map OrderedCursor.stacked := List.getElem?_map
    cases stood : issuer.cursors[number]? with
    | none =>
      rw [stood] at beside
      refine ⟨none, issuer, ?_, ?_, wellFormed, numbered⟩
      · simp only [Issuer.step, stood]
        rfl
      · simp only [StackedIssuer.step, Issuer.stacked, beside, Option.map_none]
    | some cursor =>
      have within : number < issuer.cursors.length := (List.getElem?_eq_some_iff.mp stood).1
      rw [stood] at beside
      obtain ⟨found, moved, advanced, also, settles⟩ := (numbered.holds number cursor stood).advance wellFormed
      refine ⟨some (number, found), { issuer with cursors := issuer.cursors.set number moved }, ?_, ?_, wellFormed, ?_⟩
      · simp only [Issuer.step, stood, advanced]
        rfl
      · simp only [StackedIssuer.step, Issuer.stacked, beside, Option.map_some, also, bind, Except.bind, pure,
          Except.pure, List.map_set]
      · apply numbered.moved within
        · simpa only [lastAfter, if_true] using settles
        · exact fun other apart => if_neg (Ne.symm apart)

theorem Keeps.run (keeps : Keeps issuer lasts) (events : List (Event K V)) :
    ∃ reports moved, runAll Issuer.step issuer events = .ok (reports.map withoutHandle, moved) ∧
      runAll StackedIssuer.step issuer.stacked events = .ok (reports, moved.stacked) ∧
      Keeps moved fun number => reports.foldl (lastAfter number) (lasts number) := by
  induction events generalizing issuer lasts with
  | nil => exact ⟨[], issuer, rfl, rfl, keeps⟩
  | cons event events ih =>
    obtain ⟨report, middle, stepped, followed, kept⟩ := keeps.step event
    obtain ⟨reports, moved, ran, also, kept⟩ := ih kept
    refine ⟨report :: reports, moved, ?_, ?_, kept⟩
    · simp only [runAll, stepped, ran, List.map_cons, bind, Except.bind, pure, Except.pure]
    · simp only [runAll, followed, also, bind, Except.bind, pure, Except.pure]

theorem keeps_fresh (id : Identity) (policy : Policy K V) (noOverwrite : Bool) :
    Keeps ⟨{ id, policy, noOverwrite }, []⟩ fun _ => none :=
  ⟨wellFormed_fresh id policy noOverwrite, fun _ _ stood => (by simp at stood), fun _ _ => rfl⟩

/-- Whatever the comparison and the copying functions answer, and whatever happens to a fresh map between the steps
of its cursors: cursors with stacks return what those with spots return, and no handle they follow is dead. Each of
them that has not ended, with no change counted since, has on its stack the way to its next node and nothing else;
this is the node behind the one it returned last, or the first if it returned none. -/
theorem run_places_cursors (id : Identity) (policy : Policy K V) (noOverwrite : Bool) (events : List (Event K V)) :
    ∃ reports issuer,
      runAll StackedIssuer.step ⟨{ id, policy, noOverwrite }, []⟩ events = .ok (reports, issuer) ∧
      (∃ beside, runAll Issuer.step ⟨{ id, policy, noOverwrite }, []⟩ events =
        .ok (reports.map withoutHandle, beside) ∧ beside.stacked = issuer) ∧
      ∀ number cursor, issuer.cursors[number]? = some cursor → cursor.finished = false →
        cursor.transactions = issuer.map.transactions → issuer.map.Placed (returnedLast number reports) cursor := by
  obtain ⟨reports, beside, ran, also, wellFormed, numbered⟩ := (keeps_fresh id policy noOverwrite).run events
  refine ⟨reports, beside.stacked, also, ⟨beside, ran, rfl⟩, ?_⟩
  intro number cursor stood active present
  rw [Issuer.stacked, List.getElem?_map] at stood
  obtain ⟨spotted, standing, rfl⟩ := Option.map_eq_some_iff.mp stood
  rcases numbered.holds number spotted standing with finished | succeeds
  · cases active.symm.trans finished
  · exact succeeds.placed wellFormed present

/-- A comparison that puts every key behind every other one makes no order, but a chain that the repairs fold up. The
cursor has returned two of its three nodes, and the last one is on the right of the root. -/
example :
    let policy : Policy Nat Nat := { compare := fun _ _ => .gt }
    let entry (key : Nat) : Event Nat Nat := .change (.insert ⟨.owned, key⟩ ⟨.owned, key⟩)
    (runAll StackedIssuer.step ⟨{ id := ⟨0⟩, policy, noOverwrite := false }, []⟩
        [entry 5, entry 5, .start, entry 3, .advance 0, .advance 0]).map
      (fun ran => (returnedLast 0 ran.1, ran.2.cursors.map fun cursor => (cursor.next, cursor.path))) =
      .ok (some ⟨1⟩, [(some ⟨2⟩, [(⟨1⟩, .right)])]) := rfl

end OrderedMap

end KeyedStore
