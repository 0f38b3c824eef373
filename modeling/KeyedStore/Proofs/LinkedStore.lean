import KeyedStore.LinkedStore
import KeyedStore.Proofs.Pairing
import KeyedStore.Proofs.OrderedMap.Clearing
import KeyedStore.Proofs.OrderedMap.Grafting
import KeyedStore.Proofs.OrderedMap.Placement
import KeyedStore.Proofs.HashedMap.Following
import KeyedStore.Proofs.HashedMap.Threads
/-!
Sessions of stores that lie in storage. Each of them is laid out beside one whose entries make a shape or chains, and
every operation on handles goes along with the operation of the other: the answers are the same, and what is left is
laid out again. So no handle is followed that leads nowhere, no child, sibling, ancestor or bucket is missing where one
is relied upon, and no walk goes on for longer than there are entries.
-/
namespace KeyedStore

variable {K V : Type}

/-- The same cursor by handles. -/
def Cursor.linked : Cursor K → LinkedCursor K
  | ordered cursor => .ordered cursor.stacked
  | hashed cursor => .hashed cursor

theorem Cursor.isFinished_linked (cursor : Cursor K) : cursor.linked.isFinished = cursor.isFinished := by
  cases cursor <;> rfl

namespace LinkedStore

/-- Everything in storage belongs to the one tree below the root, or to the chain of its hash. -/
def Tidy : LinkedStore K V → Prop
  | ordered map => ∃ shape : Shape (Tag K), Spans map.forks map.root shape ∧ map.forks.InUse shape.handles
  | hashed map => map.Orderly ∧ 0 < map.bucketCount

/-- There is an entry behind the handle. -/
def Live (handle : Handle) : LinkedStore K V → Prop
  | ordered map => map.forks.contains handle = true
  | hashed map => map.knots.contains handle = true

/-- The handles that a cursor follows when it does not look for its place anew: the next node and its ancestors. A
cursor over buckets asks whether the handle that it remembers is in use, and so relies on none. -/
def trusted : LinkedStore K V → LinkedCursor K → List Handle
  | ordered map, .ordered cursor =>
    if cursor.finished = false ∧ cursor.owner = map.id ∧ cursor.transactions = map.transactions then
      cursor.next.toList ++ cursor.path.map Prod.fst
    else []
  | _, _ => []

/-- The same store in storage. -/
inductive Lays : LinkedStore K V → Store K V → Prop where
  | ordered {rooted : RootedMap K V} {map : OrderedMap K V} (lays : rooted.Lays map) :
      Lays (.ordered rooted) (.ordered map)
  | hashed {threaded : ThreadedMap K V} {map : HashedMap K V} (lays : threaded.Lays map) :
      Lays (.hashed threaded) (.hashed map)

namespace Lays

variable {image : LinkedStore K V} {original : Store K V} {cursor : Cursor K}

theorem build (id : Identity) (blueprint : Blueprint K V) :
    Lays (.build id blueprint) (.build id blueprint) := by
  cases blueprint with
  | ordered policy noOverwrite => exact .ordered (RootedMap.lays_fresh id policy noOverwrite)
  | hashed policy noOverwrite => exact .hashed (ThreadedMap.lays_fresh id policy noOverwrite)

theorem kind_eq (lays : Lays image original) : image.kind = original.kind := by
  cases lays <;> rfl

theorem size_eq (lays : Lays image original) : image.size = original.size := by
  cases lays with
  | ordered lays => exact lays.size_eq
  | hashed lays => exact lays.size_eq

/-! ### Questions -/

theorem lookupEntry_eq (lays : Lays image original) (wellFormed : original.WellFormed) (key : K) :
    image.lookupEntry key = original.lookupEntry key := by
  cases lays with
  | ordered lays => exact lays.lookupEntry_eq wellFormed key
  | hashed lays =>
    obtain ⟨found, here, there⟩ := lays.lookupEntry_ends wellFormed key
    exact here.trans there.symm

theorem lookup_eq (lays : Lays image original) (wellFormed : original.WellFormed) (key : K) :
    image.lookup key = original.lookup key := by
  have found := lays.lookupEntry_eq wellFormed key
  cases lays with
  | ordered lays => exact congrArg (· >>= fun found => pure (found.map (·.2))) found
  | hashed lays => exact congrArg (· >>= fun found => pure (found.map (·.2))) found

theorem contains_eq (lays : Lays image original) (wellFormed : original.WellFormed) (key : K) :
    image.contains key = original.contains key := by
  rw [LinkedStore.contains, Store.contains, lays.lookup_eq wellFormed]

theorem profile_eq (lays : Lays image original) (wellFormed : original.WellFormed) :
    image.profile = original.profile := by
  cases lays with
  | ordered lays =>
    simp only [LinkedStore.profile, Store.profile, lays.rootKey_eq, lays.check_eq wellFormed,
      lays.extreme_eq wellFormed, lays.size_eq, lays.transactions]
    rfl
  | @hashed threaded map lays =>
    have limits : threaded.limits = map.limits := by rw [ThreadedMap.limits, HashedMap.limits, lays.rung_eq]
    rw [LinkedStore.profile, Store.profile, lays.size_eq, lays.transactions_eq, lays.epoch_eq, lays.bucketCount, limits]

theorem chainSizes_eq (lays : Lays image original) (wellFormed : original.WellFormed) :
    image.chainSizes = .ok original.chainSizes := by
  cases lays with
  | ordered lays => rfl
  | hashed lays =>
    rw [LinkedStore.chainSizes, lays.chainSizes_eq wellFormed]
    rfl

/-! ### Changes -/

theorem insert_along (lays : Lays image original) (wellFormed : original.WellFormed) (key : Held K) (value : Held V)
    (granted : Bool) : Along (fun also done => also.1 = done.1 ∧ Lays also.2 done.2) (image.insert key value granted)
      (original.insert key value granted) := by
  cases lays with
  | ordered lays =>
    apply (lays.insert_inStep wellFormed key value).bind
    rintro ⟨_, later⟩ ⟨outcome, after⟩ _ ⟨rfl, laid⟩
    exact .ok ⟨rfl, .ordered laid⟩
  | hashed lays =>
    apply (lays.insert_inStep wellFormed granted key value).along.bind
    rintro ⟨_, later⟩ ⟨outcome, after⟩ _ ⟨rfl, laid⟩
    exact .ok ⟨rfl, .hashed laid⟩

theorem remove_along (lays : Lays image original) (wellFormed : original.WellFormed) (key : K) (granted : Bool) :
    Along (fun also done => also.1 = done.1 ∧ Lays also.2 done.2) (image.remove key granted)
      (original.remove key granted) := by
  cases lays with
  | ordered lays =>
    apply (lays.remove_inStep wellFormed key).bind
    rintro ⟨_, later⟩ ⟨value, after⟩ _ ⟨rfl, laid⟩
    exact .ok ⟨rfl, .ordered laid⟩
  | hashed lays =>
    apply (lays.remove_inStep wellFormed granted key).along.bind
    rintro ⟨_, later⟩ ⟨value, after⟩ _ ⟨rfl, laid⟩
    exact .ok ⟨rfl, .hashed laid⟩

theorem clear_along (lays : Lays image original) (wellFormed : original.WellFormed) (granted : Bool) :
    Along (fun also done => also.1 = done.1 ∧ Lays also.2 done.2) (image.clear granted) (original.clear granted) := by
  cases lays with
  | ordered lays =>
    obtain ⟨after, cleared, here, there, laid, _⟩ := lays.clear_inStep wellFormed
    simp only [LinkedStore.clear, Store.clear, here, there]
    exact .ok ⟨rfl, .ordered laid⟩
  | hashed lays =>
    apply (lays.clear_inStep wellFormed granted).along.bind
    rintro ⟨_, later⟩ ⟨released, after⟩ _ ⟨rfl, laid⟩
    exact .ok ⟨rfl, .hashed laid⟩

theorem dispose_eq (lays : Lays image original) (wellFormed : original.WellFormed) :
    image.dispose = original.dispose := by
  rw [Store.dispose_answers wellFormed]
  cases lays with
  | ordered lays =>
    obtain ⟨after, cleared, here, _⟩ := lays.clear_inStep wellFormed
    simp only [LinkedStore.dispose, here]
    rfl
  | hashed lays =>
    obtain ⟨after, slots, here, _⟩ := lays.releaseAll_ends wellFormed
    simp only [LinkedStore.dispose, here]
    rfl

/-! ### Cursors -/

theorem start_eq (lays : Lays image original) (wellFormed : original.WellFormed) :
    image.start = .ok original.start.linked := by
  cases lays with
  | ordered lays =>
    rw [LinkedStore.start, lays.start_eq wellFormed, OrderedMap.start_stacked]
    rfl
  | hashed lays =>
    rw [LinkedStore.start, lays.start_eq]
    rfl

/-- A cursor that may be moved on the store goes along by handles. -/
theorem advance_along (lays : Lays image original) (wellFormed : original.WellFormed)
    (bears : original.Bears cursor) : Along (fun also done => also.1 = done.1 ∧ also.2 = done.2.linked)
      (image.advance cursor.linked) (original.advance cursor) := by
  cases lays with
  | @ordered rooted map lays =>
    cases cursor with
    | ordered cursor =>
      obtain ⟨found, moved, advanced, also⟩ := OrderedMap.advance_stacked wellFormed (or_assoc.mp bears)
      simp only [LinkedStore.advance, Store.advance, Cursor.linked, lays.advance_eq wellFormed, advanced, also]
      refine .ok ⟨rfl, ?_⟩
      cases found <;> rfl
    | hashed cursor => exact .ok ⟨rfl, rfl⟩
  | @hashed threaded map lays =>
    cases cursor with
    | ordered cursor => exact .ok ⟨rfl, rfl⟩
    | hashed cursor =>
      have place : cursor.finished = true ∨ cursor.owner ≠ map.id ∨ ∃ last, map.At cursor last := by
        refine (or_assoc.mp bears).imp_right (Or.imp_right ?_)
        rintro ⟨last, stands⟩
        exact ⟨last, stands.place⟩
      apply Along.bind (.of_eq (lays.advance_eq wellFormed place) fun _ => rfl)
      rintro _ ⟨found, moved⟩ _ rfl
      exact .ok ⟨rfl, rfl⟩

/-! ### What is relied upon -/

theorem tidy (lays : Lays image original) (wellFormed : original.WellFormed) : image.Tidy := by
  cases lays with
  | ordered lays => exact ⟨_, lays.spans, lays.inUse wellFormed⟩
  | hashed lays =>
    have orderly := lays.orderly wellFormed
    exact ⟨orderly, orderly.sized ▸ Rung.size_pos _⟩

theorem live_of_trusted (lays : Lays image original) (wellFormed : original.WellFormed) (bears : original.Bears cursor)
    {handle : Handle} (member : handle ∈ image.trusted cursor.linked) : image.Live handle := by
  cases lays with
  | hashed lays => cases member
  | @ordered rooted map lays =>
    cases cursor with
    | hashed cursor => cases member
    | ordered cursor =>
      simp only [trusted, Cursor.linked] at member
      split at member
      case isFalse => cases member
      case isTrue current =>
        obtain ⟨active, owned, present⟩ := current
        have admits : map.Admits cursor := by
          rcases bears with (finished | foreign) | stands
          · exact absurd (active.symm.trans finished) Bool.false_ne_true
          · exact absurd (owned.trans lays.id) foreign
          · exact stands
        have located := Spot.located wellFormed.inUse.nodup (admits.whole (present.trans lays.transactions))
        apply ((lays.inUse wellFormed).live handle).mp
        apply located.mem_handles
        rw [List.mem_append, Option.mem_toList] at member
        exact member

end Lays

/-! ### Sessions -/

/-- Stores in storage go along with those that they lay out. -/
def pairing : Pairing (engine : Engine (LinkedStore K V) (LinkedCursor K) K V) V where
  look := .plain
  profile := id
  store := Lays
  cursor moving position := moving = position.linked
  size := Lays.size_eq
  lookupEntry lays wellFormed key := .of_eq (lays.lookupEntry_eq wellFormed key) (by simp)
  lookup lays wellFormed key := .of_eq (lays.lookup_eq wellFormed key) (by simp)
  contains lays wellFormed key := .of_eq (lays.contains_eq wellFormed key) fun _ => rfl
  insert := Lays.insert_along
  remove lays wellFormed key granted := by
    simpa using lays.remove_along wellFormed key granted
  clear := Lays.clear_along
  dispose lays wellFormed := .of_eq (lays.dispose_eq wellFormed) fun _ => rfl
  profiled lays wellFormed := .of_eq (lays.profile_eq wellFormed) fun _ => rfl
  chainSizes := Lays.chainSizes_eq
  start lays wellFormed := by
    rw [show engine.start _ = _ from lays.start_eq wellFormed]
    exact .ok rfl
  advance := by
    rintro image original _ position lays wellFormed rfl bears
    simpa using lays.advance_along wellFormed bears
  isFinished := by
    rintro _ position rfl
    exact position.isFinished_linked

theorem builds : (pairing : Pairing (engine : Engine (LinkedStore K V) (LinkedCursor K) K V) V).Builds where
  build id blueprint := by
    rw [show blueprint.guise pairing.look = blueprint from blueprint.guise_plain]
    exact .build id blueprint
  kind := Lays.kind_eq

/-- Each command is answered in storage as it is beside it. -/
theorem step_lockstep : Lockstep (engine : Engine (LinkedStore K V) (LinkedCursor K) K V).step Session.step id
    fun session beside => pairing.Resembles session beside ∧ beside.Sound := by
  intro session beside command related
  obtain ⟨reply, after, following, stepped, followed, kept⟩ :=
    Pairing.step_lockstep builds session beside command related
  simp only [show command.guise pairing.look = command from command.guise_plain,
    show pairing.reply reply = reply from reply.shown_plain] at stepped
  exact ⟨reply, after, following, stepped, followed, kept⟩

/-- Whatever the comparisons, the hashes and the copying functions of its stores answer, whatever memory is granted, and
in whatever order commands come: every run of a session of stores in storage goes through and answers every command, as
the run beside it does. What its stores end with is tidy. On each of them every cursor of the session, its own or not,
relies on handles with entries behind them only, and its traversal comes to an end within one step more than there are
entries; so does that of a fresh cursor. -/
theorem run_never_faults (commands : List (Command K V)) :
    ∃ replies session, engine.run {} commands = .ok (replies, session) ∧ replies.length = commands.length ∧
      (∃ beside, Session.run {} commands = .ok (replies, beside)) ∧
      ∀ number store, session.stores.get? number = some store →
        store.Tidy ∧ ∃ fresh, store.start = .ok fresh ∧
          ∀ cursor, cursor = fresh ∨ (∃ place, session.cursors.get? place = some cursor) →
            (∀ handle ∈ store.trusted cursor, store.Live handle) ∧
            ∃ found ended, engine.drain store cursor = .ok (found, ended) ∧ ended.isFinished = true := by
  obtain ⟨replies, session, beside, ran, also, ⟨shows, _⟩, sound⟩ :=
    runAll_lockstep step_lockstep commands ⟨Pairing.resembles_empty, Session.sound_empty⟩
  rw [List.map_id, ← Session.run_eq_runAll] at ran
  obtain ⟨answers, other, answered, length, _⟩ :=
    runAll_keeps (fun _ command sound => Session.Sound.step_answers sound command) commands Session.sound_empty
  cases also.symm.trans answered
  rw [← Session.run_eq_runAll] at also
  refine ⟨replies, session, ran, length, ⟨beside, also⟩, fun number store held => ?_⟩
  obtain ⟨original, there, lays⟩ : ∃ original, beside.stores.get? number = some original ∧ Lays store original := by
    rcases shows.store_cases number with ⟨nowhere, _⟩ | ⟨image, original, here, there, lays⟩
    · cases nowhere.symm.trans held
    · cases here.symm.trans held
      exact ⟨original, there, lays⟩
  have wellFormed := sound.wellFormed number original there
  refine ⟨lays.tidy wellFormed, _, lays.start_eq wellFormed, fun cursor known => ?_⟩
  obtain ⟨position, rfl, bears⟩ : ∃ position, cursor = position.linked ∧ original.Bears position := by
    rcases known with rfl | ⟨place, stood⟩
    · exact ⟨original.start, rfl, .inr original.stands_start⟩
    · rcases shows.cursor_cases place with ⟨nowhere, _⟩ | ⟨moving, position, here, stands, standing⟩
      · cases nowhere.symm.trans stood
      · cases here.symm.trans stood
        exact ⟨position, standing, sound.borne number original place position there stands⟩
  refine ⟨fun handle => lays.live_of_trusted wellFormed bears, ?_⟩
  obtain ⟨found, ended, drained, finished⟩ := Store.drain_ends wellFormed bears
  have along := Pairing.drain (show pairing.store store original from lays) wellFormed rfl bears
  obtain ⟨⟨_, _⟩, walked, _, rfl⟩ := along _ drained
  exact ⟨_, ended.linked, walked, ended.isFinished_linked.trans finished⟩

-- A tidy tree that breaks the colour laws does fault: the black node taken out here has no sibling to pay for it.
example :
    let rooted : RootedMap Nat Nat := {
      id := ⟨0⟩, policy := .natural, noOverwrite := false, root := some ⟨0⟩
      forks := (Slots.empty.insert ⟨.black, some ⟨1⟩, none, ⟨.owned, 2⟩, ⟨.owned, 20⟩⟩).insert
        ⟨.black, none, none, ⟨.owned, 1⟩, ⟨.owned, 10⟩⟩ }
    (rooted.remove 1).map (·.1) = .error .missingSibling := rfl

end LinkedStore

end KeyedStore
