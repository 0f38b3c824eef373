import KeyedStore.Proofs.Renewal
import KeyedStore.Proofs.Tags
import KeyedStore.Proofs.OrderedMap.Guise
import KeyedStore.Proofs.HashedMap.Guise
import KeyedStore.Proofs.HashedMap.Threading
/-!
Additions that make no entry. An addition is refused exactly if the store does not overwrite and a lookup of the
key finds an entry, as long as there is room; the store is then what it was, so no run of commands from there on
can tell that it was asked. An addition that replaces a value changes what lies behind one handle and nothing
else. What a store does never depends on its values, so from there on every run gets the replies that it gets
without the addition, but for the values in them.
-/
namespace KeyedStore

variable {K V W : Type}

/-! ### Stores under a guise of their values -/

def Store.guise (look : Guise V W) : Store K V → Store K W
  | ordered map => ordered (map.guise look)
  | hashed map => hashed (map.guise look)

theorem Store.kind_guise (look : Guise V W) (store : Store K V) : (store.guise look).kind = store.kind := by
  cases store <;> rfl

/-- A store that is made from the blueprint under the guise. -/
theorem Store.build_guise (look : Guise V W) (id : Identity) (blueprint : Blueprint K V) :
    build id (blueprint.guise look) = (build id blueprint).guise look := by
  cases blueprint <;>
    simp [build, Blueprint.guise, guise, OrderedMap.guise, HashedMap.guise, Slots.map_empty]

/-- The same profile with values under the guise. -/
def Profile.guise (look : Guise V W) : Profile K V → Profile K W
  | ordered size transactions root check first last =>
    ordered size transactions root check (first.map look.pair) (last.map look.pair)
  | hashed size transactions epoch buckets limits => hashed size transactions epoch buckets limits

/-- The same reply with values under the guise. -/
def Reply.guise (look : Guise V W) : Reply K V → Reply K W := Reply.shown look (Profile.guise look)

theorem Store.guise_plain (store : Store K V) : store.guise .plain = store := by
  cases store with
  | ordered map => exact congrArg ordered map.guise_plain
  | hashed map => exact congrArg hashed map.guise_plain

theorem Profile.guise_plain : (Profile.guise .plain : Profile K V → Profile K V) = id := by
  funext profile
  cases profile <;> simp [guise]

theorem Reply.guise_plain (reply : Reply K V) : reply.guise .plain = reply := by
  rw [guise, Profile.guise_plain, shown_plain]

/-- A store under a guise is one that is shown, with the same cursors. -/
def Guise.likeness (look : Guise V W) : Likeness K V W where
  look := look
  store := Store.guise look
  cursor := id
  profile := Profile.guise look
  size store := by cases store <;> rfl
  lookupEntry store key := by
    cases store with
    | ordered map => exact map.lookupEntry_guise look key
    | hashed map => exact map.lookupEntry_guise look key
  lookup store key := by
    cases store with
    | ordered map => exact map.lookup_guise look key
    | hashed map => exact map.lookup_guise look key
  insert store key value granted := by
    cases store with
    | ordered map =>
      simp only [Store.guise, Store.insert, OrderedMap.insert_guise]
      exact bind_carried fun _ => rfl
    | hashed map =>
      simp only [Store.guise, Store.insert, HashedMap.insert_guise]
      exact bind_carried fun _ => rfl
  remove store key granted := by
    cases store with
    | ordered map =>
      simp only [Store.guise, Store.remove, OrderedMap.remove_guise]
      exact bind_carried fun _ => rfl
    | hashed map =>
      simp only [Store.guise, Store.remove, HashedMap.remove_guise]
      exact bind_carried fun _ => rfl
  clear store granted := by
    cases store with
    | ordered map =>
      simp only [Store.guise, Store.clear, OrderedMap.clear_guise]
      exact bind_carried fun _ => rfl
    | hashed map =>
      simp only [Store.guise, Store.clear, HashedMap.clear_guise]
      exact bind_carried fun _ => rfl
  dispose store := by
    cases store with
    | ordered map =>
      simp only [Store.guise, Store.dispose, OrderedMap.clear_guise]
      cases map.clear <;> rfl
    | hashed map =>
      simp only [Store.guise, Store.dispose, HashedMap.releaseAll_guise]
      cases map.releaseAll <;> rfl
  profiled store := by
    cases store with
    | ordered map =>
      simp only [Store.guise, Store.profile, OrderedMap.first_guise, OrderedMap.last_guise]
      refine bind_carried fun first => ?_
      exact bind_carried fun last => rfl
    | hashed map => rfl
  chainSizes store := by cases store <;> rfl
  start store := by cases store <;> rfl
  advance store cursor := by
    cases store with
    | ordered map =>
      cases cursor with
      | ordered cursor =>
        simp only [Store.guise, Store.advance, id, OrderedMap.advance_guise]
        refine bind_carried ?_
        rintro ⟨found, moved⟩
        cases found <;> rfl
      | hashed cursor => rfl
    | hashed map =>
      cases cursor with
      | ordered cursor => rfl
      | hashed cursor =>
        simp only [Store.guise, Store.advance, id, HashedMap.advance_guise]
        refine bind_carried ?_
        rintro ⟨found, moved⟩
        cases found <;> rfl
  isFinished _ := rfl

/-! ### Sessions under a guise of their values -/

/-- The same things, shown otherwise, under the same numbers. -/
def Roster.map {α β : Type} (shown : α → β) (roster : Roster α) : Roster β :=
  ⟨roster.items.map fun (number, item) => (number, shown item)⟩

theorem Roster.get?_map {α β : Type} (shown : α → β) (roster : Roster α) (number : Nat) :
    (roster.map shown).get? number = (roster.get? number).map shown := by
  simp only [get?, map, List.find?_map, Option.map_map]
  rfl

namespace Session

/-- The same session over values under the guise. -/
def guise (look : Guise V W) (session : Session K V) : Session K W where
  stores := session.stores.map (Store.guise look)
  cursors := session.cursors
  nextId := session.nextId

variable {look : Guise V W} {image : Session K W} {session : Session K V}

/-- A session that shows another one under a guise, and issues the same identity next. -/
abbrev Resembles (look : Guise V W) (image : Session K W) (session : Session K V) : Prop :=
  look.likeness.pairing.Resembles image session

theorem builds_guise (look : Guise V W) : (look.likeness (K := K)).pairing.Builds := by
  refine ⟨Store.build_guise look, ?_⟩
  rintro _ original rfl
  exact Store.kind_guise look original

theorem resembles_guise (look : Guise V W) (session : Session K V) :
    Resembles look (session.guise look) session := by
  refine ⟨look.likeness.shows_iff.mpr ⟨fun number => Roster.get?_map _ _ number, fun place => ?_⟩, rfl⟩
  exact (congrFun Option.map_id (session.cursors.get? place)).symm

/-- A store that looks as before may stand in the place of the old one. -/
theorem resembles_setStore {number : Nat} {store after : Store K V}
    (held : session.stores.get? number = some store) (alike : after.guise look = store.guise look) :
    Resembles look (session.guise look) (session.setStore number after) := by
  obtain ⟨stores, cursors⟩ := look.likeness.shows_iff.mp (resembles_guise look session).shows
  refine ⟨look.likeness.shows_iff.mpr ⟨fun other => ?_, cursors⟩, rfl⟩
  rw [stores other, setStore, Roster.get?_set]
  split
  · rename_i same
    rw [same, held]
    exact congrArg some alike.symm
  · rfl

/-- The same cursors under the same numbers, and the same stores, but for values that look alike. -/
structure Alike (look : Guise V W) (session other : Session K V) : Prop where
  stores : ∀ number, (session.stores.get? number).map (Store.guise look) =
    (other.stores.get? number).map (Store.guise look)
  cursors : ∀ place, session.cursors.get? place = other.cursors.get? place

/-- From sessions with the same image every run gets the same replies and leaves the same stores and cursors,
under the guise. -/
theorem run_alike {other : Session K V} (one : Resembles look image session) (two : Resembles look image other)
    (sound : session.Sound) (also : other.Sound) (commands : List (Command K V)) :
    ∃ replies answers after final, session.run commands = .ok (replies, after) ∧
      other.run commands = .ok (answers, final) ∧
      replies.map (Reply.guise look) = answers.map (Reply.guise look) ∧ Alike look after final := by
  obtain ⟨replies, shown, after, ran, went, first, _⟩ :=
    runAll_lockstep (Pairing.step_lockstep (builds_guise look)) commands ⟨one, sound⟩
  obtain ⟨answers, there, final, again, alongside, second, _⟩ :=
    runAll_lockstep (Pairing.step_lockstep (builds_guise look)) commands ⟨two, also⟩
  rw [ran] at again
  obtain ⟨same, rfl⟩ := Prod.mk.inj (Except.ok.inj again)
  obtain ⟨stores, cursors⟩ := look.likeness.shows_iff.mp first.shows
  obtain ⟨others, places⟩ := look.likeness.shows_iff.mp second.shows
  refine ⟨replies, answers, after, final, (run_eq_runAll _ _).trans went, (run_eq_runAll _ _).trans alongside,
    same, fun number => ?_, fun place => ?_⟩
  · exact (stores number).symm.trans (others number)
  · have there := (cursors place).symm.trans (places place)
    exact (congrFun Option.map_id _).symm.trans (there.trans (congrFun Option.map_id _))

end Session

/-! ### Additions that make no entry -/

/-- How an addition has to end, by whether the container overwrites, whether it is full, and what a lookup of the
key finds. As long as there is room it is refused exactly if the key is present and is not to be overwritten. -/
structure Judged (noOverwrite full : Bool) (found : Option (K × V)) (outcome : Except AddError Addition) :
    Prop where
  refused_iff : full = false →
    ((∃ error, outcome = .error error) ↔ noOverwrite = true ∧ found.isSome = true)
  keyExists_iff : outcome = .error .keyExists ↔ noOverwrite = true ∧ found.isSome = true
  noRoom_iff : outcome = .error .noRoom ↔ full = true ∧ found.isSome = false
  updated_iff : outcome = .ok .updated ↔ noOverwrite = false ∧ found.isSome = true

namespace Store

variable {store after : Store K V} {key : Held K} {value : Held V} {outcome : Except AddError Addition}

theorem Insertion.judged (insertion : store.Insertion key value outcome after) (wellFormed : store.WellFormed) :
    ∃ found, store.lookupEntry key.val = .ok found ∧
      Judged store.noOverwrite store.slots.isFull found outcome := by
  cases insertion with
  | refused met kept =>
    obtain ⟨found, looked, present⟩ := lookupEntry_of_find wellFormed met
    exact ⟨found, looked, by constructor <;> simp [present, kept]⟩
  | updated met free done =>
    obtain ⟨found, looked, present⟩ := lookupEntry_of_find wellFormed met
    exact ⟨found, looked, by constructor <;> simp [present, free]⟩
  | full missed full =>
    obtain ⟨found, looked, absent⟩ := lookupEntry_of_find wellFormed missed
    exact ⟨found, looked, by constructor <;> simp [absent, full]⟩
  | inserted missed room =>
    obtain ⟨found, looked, absent⟩ := lookupEntry_of_find wellFormed missed
    exact ⟨found, looked, by constructor <;> simp [absent, room]⟩

/-- Another value behind one handle cannot be seen where no value can. -/
theorem guise_blank_restock {handle : Handle} {slots : Slots (Held V)}
    (done : store.slots.replace handle value = .ok slots) :
    (store.restock slots).guise .blank = store.guise (.blank : Guise V Unit) := by
  have unseen : slots.map (Guise.blank : Guise V Unit).held =
      store.slots.map (Guise.blank : Guise V Unit).held := by
    refine Slots.eq_of_get? ?_ fun other => ?_
    · rw [Slots.next_map, Slots.next_map, Slots.next_replace done]
    · rw [Slots.get?_map, Slots.get?_map, Slots.get?_replace done]
      split
      · rename_i same
        obtain ⟨old, held⟩ := Option.isSome_iff_exists.mp (Slots.isSome_of_replace done)
        rw [same, held]
        rfl
      · rfl
  cases store with
  | ordered map => exact congrArg (fun slots => ordered { map.guise .blank with slots := slots }) unseen
  | hashed map => exact congrArg (fun slots => hashed { map.guise .blank with slots := slots }) unseen

end Store

namespace Session

variable {session : Session K V} {number : Nat} {store : Store K V}

/-- What an addition to a store of the session comes to, by a lookup of its key before. It ends as it has to; if it
is refused it leaves the store as it was, and if it replaces a value it puts another one behind the handle of the
tag that the key finds; and either way the runs from there on go as they go without it, but for values if there
was an update. -/
structure Unnoticed (session : Session K V) (number : Nat) (store : Store K V) (granted : Bool) (key : Held K)
    (value : Held V) (found : Option (K × V)) (outcome : Except AddError Addition) (after : Store K V) : Prop where
  looked : store.lookupEntry key.val = .ok found
  added : store.insert key value granted = .ok (outcome, after)
  judged : Judged store.noOverwrite store.slots.isFull found outcome
  refused : ∀ error, outcome = .error error → after = store ∧
    ∀ later : List (Command K V), ∃ answers final other,
      session.run (.insert number key value granted :: later) = .ok (.added outcome :: answers, final) ∧
      session.run later = .ok (answers, other) ∧
      (∀ place, final.stores.get? place = other.stores.get? place) ∧
      ∀ place, final.cursors.get? place = other.cursors.get? place
  updated : outcome = .ok .updated →
    (∃ tag slots, store.find key.val = .ok (some tag) ∧
      store.slots.replace tag.handle (store.policy.secureValue value) = .ok slots ∧
      after = store.restock slots) ∧
    ∀ later : List (Command K V), ∃ replies answers final other,
      session.run (.insert number key value granted :: later) = .ok (.added outcome :: replies, final) ∧
      session.run later = .ok (answers, other) ∧
      replies.map (Reply.guise .blank) = answers.map (Reply.guise .blank) ∧ Alike .blank final other

/-- An addition that leaves a store that looks as before, and the runs from there on. -/
theorem run_past_addition {look : Guise V W} (sound : session.Sound)
    (held : session.stores.get? number = some store) {key : Held K} {value : Held V}
    {granted : Bool} {outcome : Except AddError Addition} {after : Store K V}
    (added : store.insert key value granted = .ok (outcome, after)) (evolves : store.Evolves after)
    (alike : after.guise look = store.guise look) (later : List (Command K V)) :
    ∃ replies answers final other,
      session.run (.insert number key value granted :: later) = .ok (.added outcome :: replies, final) ∧
      session.run later = .ok (answers, other) ∧
      replies.map (Reply.guise look) = answers.map (Reply.guise look) ∧ Alike look final other := by
  obtain ⟨replies, answers, final, other, ran, also, same, left⟩ := run_alike (resembles_setStore held alike)
    (resembles_guise look session) (sound.setStore held evolves) sound later
  refine ⟨replies, answers, final, other, ?_, also, same, left⟩
  simp only [Engine.run, Engine.step, change, held, added, ran, bind, Except.bind, pure, Except.pure]

theorem Sound.addition (sound : session.Sound) (held : session.stores.get? number = some store) (granted : Bool)
    (key : Held K) (value : Held V) :
    ∃ found outcome after, session.Unnoticed number store granted key value found outcome after := by
  have wellFormed := sound.wellFormed number store held
  obtain ⟨outcome, after, added, insertion⟩ := Store.insert_ends wellFormed key value granted
  obtain ⟨found, looked, judged⟩ := insertion.judged wellFormed
  obtain ⟨_, grown, also, evolves⟩ := Store.insert_answers wellFormed key value granted
  obtain ⟨rfl, rfl⟩ := Prod.mk.inj (Except.ok.inj (also.symm.trans added))
  refine ⟨found, _, _, looked, added, judged, ?_, ?_⟩
  · rintro error rfl
    have same := insertion.eq_of_refused
    refine ⟨same, fun later => ?_⟩
    obtain ⟨replies, answers, final, other, ran, also, same, left⟩ :=
      run_past_addition sound held added evolves (congrArg (Store.guise .plain) same) later
    have plain : ∀ said : List (Reply K V), said.map (Reply.guise .plain) = said :=
      fun said => (List.map_congr_left fun reply _ => reply.guise_plain).trans (List.map_id said)
    rw [plain, plain] at same
    refine ⟨answers, final, other, same ▸ ran, also, fun place => ?_, left.cursors⟩
    have stores := left.stores place
    rw [show (Store.guise .plain : Store K V → Store K V) = id from funext Store.guise_plain] at stores
    rwa [Option.map_id] at stores
  · rintro rfl
    cases insertion with
    | @updated tag slots met free done =>
      exact ⟨⟨tag, slots, met, done, rfl⟩,
        run_past_addition sound held added evolves (Store.guise_blank_restock done)⟩

end Session

namespace ThreadedMap

variable {threaded : ThreadedMap K V} {map : HashedMap K V}

/-- The same for a table whose chains are threaded through its entries, whether memory is granted or not. -/
structure Unnoticed (table : ThreadedMap K V) (key : Held K) (value : Held V) (found : Option (K × V))
    (outcome : Except AddError Addition) (after : ThreadedMap K V) : Prop where
  looked : table.lookupEntry key.val = .ok found
  judged : Judged table.noOverwrite table.knots.isFull found outcome
  refused : ∀ error, outcome = .error error → after = table
  updated : outcome = .ok .updated → ∃ handle knot knots, table.find key.val = .ok (some handle) ∧
    table.knots.get? handle = some knot ∧
    table.knots.replace handle { knot with value := table.policy.base.secureValue value } = .ok knots ∧
    after = { table with knots := knots }

/-- An addition that is refused. -/
theorem unnoticed_of_refused {table : ThreadedMap K V} {key : Held K} {value : Held V} {found : Option (K × V)}
    {error : AddError} (looked : table.lookupEntry key.val = .ok found)
    (judged : Judged table.noOverwrite table.knots.isFull found (.error error)) :
    table.Unnoticed key value found (.error error) table :=
  ⟨looked, judged, fun _ _ => rfl, fun same => by cases same⟩

theorem Lays.addition (lays : threaded.Lays map) (wellFormed : map.WellFormed) (granted : Bool) (key : Held K)
    (value : Held V) : ∃ found outcome after, threaded.insert granted key value = .ok (outcome, after) ∧
      threaded.Unnoticed key value found outcome after := by
  have here := lays.find_eq wellFormed key.val
  cases met : map.meant key.val with
  | some link =>
    rw [met] at here
    obtain ⟨prev, next, old, held⟩ := lays.held (List.mem_of_find?_eq_some met)
    have looked : threaded.lookupEntry key.val = .ok (some (link.key.val, old.val)) := by
      simp [lookupEntry, here, Slots.fetch, held, bind, Except.bind, pure, Except.pure]
    cases bars : threaded.noOverwrite with
    | true =>
      refine ⟨_, .error .keyExists, threaded, ?_, unnoticed_of_refused looked ?_⟩
      · simp [insert, here, bars, bind, Except.bind, pure, Except.pure]
      · constructor <;> simp [bars]
    | false =>
      obtain ⟨knots, done⟩ := Slots.replace_of_get? held
        ⟨prev, next, link.hash, link.serial, link.key, threaded.policy.base.secureValue value⟩
      refine ⟨_, .ok .updated, { threaded with knots := knots }, ?_, looked, ?_, fun _ same => ?_, fun _ => ?_⟩
      · simp [insert, here, bars, retie, Slots.fetch, held, done, bind, Except.bind, pure, Except.pure]
      · constructor <;> simp [bars]
      · cases same
      · exact ⟨link.handle, _, knots, here, held, done, rfl⟩
  | none =>
    rw [met] at here
    have looked : threaded.lookupEntry key.val = .ok none := by
      simp [lookupEntry, here, bind, Except.bind, pure, Except.pure]
    obtain ⟨outcome, after, _, done, _⟩ := lays.insert_inStep wellFormed granted key value
    have ended := done
    simp only [insert, here, Option.map_none] at ended
    cases full : threaded.knots.isFull with
    | true =>
      simp only [full, bind, Except.bind, pure, Except.pure, if_true, Except.ok.injEq, Prod.mk.injEq] at ended
      obtain ⟨rfl, rfl⟩ := ended
      refine ⟨none, _, _, done, unnoticed_of_refused looked ?_⟩
      constructor <;> simp [full]
    | false =>
      simp only [full, Bool.false_eq_true, if_false] at ended
      obtain ⟨_, found, ended⟩ := bind_eq_ok.mp ended
      cases found
      obtain ⟨settled, _, ended⟩ := bind_eq_ok.mp ended
      obtain ⟨longer, _, ended⟩ := bind_eq_ok.mp ended
      obtain ⟨rfl, _⟩ := Prod.mk.inj (pure_eq_ok.mp ended)
      refine ⟨none, _, after, done, looked, ?_, fun _ same => ?_, fun same => ?_⟩
      · constructor <;> simp [full]
      · cases same
      · cases same

end ThreadedMap

namespace Session

theorem Sound.run_additions {start : Session K V} (sound : start.Sound) (before : List (Command K V)) :
    ∃ replies session, start.run before = .ok (replies, session) ∧
      ∀ number store, session.stores.get? number = some store → ∀ (granted : Bool) (key : Held K) (value : Held V),
        ∃ found outcome after, session.Unnoticed number store granted key value found outcome after := by
  obtain ⟨replies, session, ran, _, kept⟩ :=
    runAll_keeps (fun _ command sound => Sound.step_answers sound command) before sound
  exact ⟨replies, session, (run_eq_runAll _ _).trans ran, fun _ _ held => kept.addition held⟩

/-- Whatever the policies answer, and whatever has been done to stores and cursors before: an addition to a store
that has room is refused exactly if the store does not overwrite and a lookup of the key finds an entry, and it
says so; the store is then what it was, and every run from there on gets the replies that it gets without the
addition, and leaves the same stores and cursors. An addition that replaces a value changes what lies behind one
handle, and nothing else; every run from there on gets the replies that it gets without the addition, but for the
values in them. So it is in a table, too, that was refused the memory for any of its rebuildings, and in every
session that goes on with it. -/
theorem run_additions_unnoticed :
    (∀ before : List (Command K V), ∃ replies session, Session.run {} before = .ok (replies, session) ∧
      ∀ number store, session.stores.get? number = some store → ∀ (granted : Bool) (key : Held K) (value : Held V),
        ∃ found outcome after, session.Unnoticed number store granted key value found outcome after) ∧
    ∀ (id : Identity) (policy : HashPolicy K V) (noOverwrite : Bool) (demands : List (ThreadedMap.Demand K V)),
      ∃ answers table map,
        runAll ThreadedMap.serve { id, policy, noOverwrite } demands = .ok (answers, table) ∧ table.Lays map ∧
        (∀ (granted : Bool) (key : Held K) (value : Held V), ∃ found outcome after,
          table.insert granted key value = .ok (outcome, after) ∧
            table.Unnoticed key value found outcome after) ∧
        ∀ (place : Nat) (before : List (Command K V)), ∃ replies session,
          Session.run (holding place (.hashed map)) before = .ok (replies, session) ∧
          ∀ number store, session.stores.get? number = some store → ∀ (granted : Bool) (key : Held K) (value : Held V),
            ∃ found outcome after, session.Unnoticed number store granted key value found outcome after := by
  refine ⟨sound_empty.run_additions, fun id policy noOverwrite demands => ?_⟩
  obtain ⟨answers, table, map, ran, _, lays, wellFormed⟩ :=
    (ThreadedMap.lays_fresh id policy noOverwrite).run_ends
      (HashedMap.wellFormed_fresh id policy noOverwrite) demands
  refine ⟨answers, table, map, ran, lays, lays.addition wellFormed, fun place before => ?_⟩
  have kept : (Store.hashed map).WellFormed := wellFormed
  exact (sound_holding place kept).run_additions before

/-- Nine entries in thirteen buckets. A tenth one lets the table grow; a key that is present does not, whether the
addition is refused or replaces a value. -/
example :
    let filled : List (Request Nat Nat) := (List.range 9).map fun key => .insert ⟨.owned, key⟩ ⟨.owned, 0⟩
    let count (noOverwrite : Bool) (key : Nat) :=
      (runAll HashedMap.serve
        ({ id := ⟨0⟩, policy := Policy.natural.hashingBy UInt64.ofNat, noOverwrite } : HashedMap Nat Nat)
        (filled ++ [.insert ⟨.owned, key⟩ ⟨.owned, 1⟩])).toOption.map (·.2.bucketCount)
    (count false 4, count true 4, count false 9) = (some 13, some 13, some 29) := by
  decide +kernel

end Session

end KeyedStore
