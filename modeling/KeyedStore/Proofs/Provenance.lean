import KeyedStore.Proofs.Writes
import KeyedStore.Proofs.Recall
import KeyedStore.Proofs.HashedMap.Contents
/-!
Whose the stored keys and values are. What an entry holds goes back to what was passed when it was written, and to
nothing else: the key was secured when the entry was made, the value when it was written last, each once. So where
there is a copying function nothing stored is lent, and where there is none a value is lent exactly if the last
write passed it so; a removal hands it back as it is held. The tables whose chains are threaded through their
entries keep to this too, whether they get the memory for a rebuilding or not. What a cursor remembers is the key
that it returned last.
-/
namespace KeyedStore

variable {K V : Type}

/-- What the writes say of the entries, and of whose their keys and values are. -/
structure Provenance (id : Identity) (policy : Policy K V) (entry : Handle → Held K → Held V → Prop)
    (past : List (Write K V)) : Prop where
  written : ∀ handle key value, entry handle key value →
    ∃ made last rest, Written id policy past handle key value made last rest
  ownedKeys : policy.copyKey.isSome = true → ∀ handle key value, entry handle key value → key.ownership = .owned
  ownedValues : policy.copyValue.isSome = true → ∀ handle key value, entry handle key value →
    value.ownership = .owned
  lentValues : policy.copyValue = none → ∀ handle key value, entry handle key value →
    ∃ last, (writesOnto id handle past).getLast? = some last ∧
      (value.ownership = .borrowed ↔ last.value.ownership = .borrowed)

/-- What a removal hands back, by what the key finds: the value of that entry as it is held. -/
def HandsBack (entry : Handle → Held K → Held V → Prop) : Option Handle → Option (Held V) → Prop
  | none, handed => handed = none
  | some handle, handed => ∃ key value, entry handle key value ∧ handed = some value

theorem Sourced.provenance {id : Identity} {policy : Policy K V} {entry : Handle → Held K → Held V → Prop}
    {next : Handle} {past : List (Write K V)} (sourced : Sourced id policy entry next past) :
    Provenance id policy entry past := by
  refine ⟨sourced.entries, fun copies handle key value there => ?_, fun copies handle key value there => ?_,
    fun keeps handle key value there => ?_⟩
  · obtain ⟨made, last, rest, written⟩ := sourced.entries handle key value there
    obtain ⟨copy, copied⟩ := Option.isSome_iff_exists.mp copies
    rw [written.key, Policy.secureKey, copied]
    exact Held.ownership_secure_some copy made.key
  · obtain ⟨made, last, rest, written⟩ := sourced.entries handle key value there
    obtain ⟨copy, copied⟩ := Option.isSome_iff_exists.mp copies
    rw [written.value, Policy.secureValue, copied]
    exact Held.ownership_secure_some copy last.value
  · obtain ⟨made, last, rest, written⟩ := sourced.entries handle key value there
    refine ⟨last, written.writes ▸ written.latest, ?_⟩
    rw [written.value, Policy.secureValue, keeps, Held.secure_none]

/-! ### Stores -/

namespace Store

/-- Every tag of the store is that of an entry, every entry goes back to its writes, and a removal hands back the
value of the entry that the key finds. -/
structure Accounts (store : Store K V) (past : List (Write K V)) : Prop where
  whole : ∀ tag ∈ store.tags, ∃ value, store.Entry tag.handle tag.key value
  provenance : Provenance store.id store.policy store.Entry past
  handsBack : ∀ key granted, ∃ found handed after, store.find key = .ok found ∧
    store.remove key granted = .ok (handed, after) ∧ HandsBack store.Entry (found.map (·.handle)) handed

theorem Attested.accounts {store : Store K V} {past : List (Write K V)} (attested : store.Attested past)
    (wellFormed : store.WellFormed) : store.Accounts past := by
  have whole : ∀ tag ∈ store.tags, ∃ value, store.Entry tag.handle tag.key value := fun tag named =>
    (wellFormed.get?_of_tag named).imp fun value held => ⟨named, held⟩
  refine ⟨whole, attested.provenance, fun key granted => ?_⟩
  obtain ⟨found, met, named⟩ := wellFormed.find_ends key
  obtain ⟨handed, after, removed, removal⟩ := remove_ends wellFormed key granted
  refine ⟨found, handed, after, met, removed, ?_⟩
  cases removal with
  | missed missed =>
    obtain rfl := Except.ok.inj (met.symm.trans missed)
    rfl
  | @removed tag value _ sought _ taken _ =>
    obtain rfl := Except.ok.inj (met.symm.trans sought)
    exact ⟨tag.key, value, ⟨named tag rfl, Slots.get?_of_take taken⟩, rfl⟩

end Store

/-! ### Tables -/

namespace ThreadedMap

variable {table after : ThreadedMap K V} {past : List (Write K V)}

/-- The table holds this key and this value under a handle. -/
def Entry (table : ThreadedMap K V) (handle : Handle) (key : Held K) (value : Held V) : Prop :=
  ∃ knot, table.knots.get? handle = some knot ∧ knot.key = key ∧ knot.value = value

/-- Every entry of the table has its writes. -/
def Attested (table : ThreadedMap K V) (past : List (Write K V)) : Prop :=
  Sourced table.id table.policy.base table.Entry table.contents.next past

/-- The handle of the entry onto which an addition writes: the one that the key finds, or the next one. -/
def target (table : ThreadedMap K V) (key : K) : Handle :=
  match table.find key with
  | .ok (some handle) => handle
  | _ => table.contents.next

/-- What a demand has written, by its answer. -/
def written (table : ThreadedMap K V) (demand : Demand K V) (answer : Answer K V) : List (Write K V) :=
  match demand.request, answer with
  | .insert key value, .added (.ok outcome) => [⟨table.id, table.target key.val, key, value, outcome⟩]
  | _, _ => []

/-- What some demands write, the earliest first. -/
def writes (table : ThreadedMap K V) (demands : List (Demand K V)) : List (Write K V) :=
  noteSteps serve written table demands

theorem attested_fresh (id : Identity) (policy : HashPolicy K V) (noOverwrite : Bool) :
    Attested ({ id, policy, noOverwrite } : ThreadedMap K V) [] := by
  refine ⟨fun handle key value there => ?_, nofun⟩
  obtain ⟨knot, held, _⟩ := there
  rw [Slots.get?_empty] at held
  cases held

theorem Attested.fewer (attested : table.Attested past) (id : after.id = table.id)
    (policy : after.policy = table.policy) (next : after.contents.next = table.contents.next)
    (kept : ∀ handle content, after.contents.get? handle = some content →
      table.contents.get? handle = some content) : after.Attested past := by
  rw [Attested, id, policy, next]
  exact Sourced.shrinks attested fun handle key value there =>
    get?_contents.mp (kept handle (key, value) (get?_contents.mpr there))

theorem Stored.attested {key : Held K} {value : Held V} {outcome : Addition}
    (stored : table.Stored key value (.ok outcome) after) (id : after.id = table.id)
    (policy : after.policy = table.policy) (attested : table.Attested past) :
    after.Attested (past ++ [⟨table.id, table.target key.val, key, value, outcome⟩]) := by
  cases stored with
  | @updated handle after old met held done =>
    have target : table.target key.val = handle := by rw [ThreadedMap.target, met]
    rw [Attested, id, policy, Slots.next_replace done, target]
    refine Sourced.updated attested rfl (Slots.get?_eq_some held).1 rfl fun other key value there => ?_
    have there := get?_contents.mpr there
    rw [Slots.get?_replace done] at there
    split at there
    · rename_i same
      obtain ⟨rfl, rfl⟩ := Prod.mk.inj (Option.some.inj there)
      exact .inr ⟨same, rfl, old.2, same ▸ get?_contents.mp held⟩
    · rename_i apart
      exact .inl ⟨get?_contents.mp there, apart⟩
  | inserted missed contents =>
    have target : table.target key.val = table.contents.next := by rw [ThreadedMap.target, missed]
    rw [Attested, id, policy, contents, Slots.next_insert]
    refine Sourced.inserted attested rfl target rfl fun other key value there => ?_
    have there := get?_contents.mpr there
    rw [contents, Slots.get?_insert] at there
    split at there
    · rename_i same
      obtain ⟨rfl, rfl⟩ := Prod.mk.inj (Option.some.inj there)
      exact .inr ⟨same, rfl, rfl⟩
    · rename_i apart
      exact .inl ⟨get?_contents.mp there, apart⟩

/-- One demand keeps the writes of all entries. -/
theorem Attested.serve (attested : table.Attested past) {demand : Demand K V} {answer : Answer K V}
    (served : table.serve demand = .ok (answer, after)) : after.Attested (past ++ table.written demand answer) := by
  obtain ⟨request, granted⟩ := demand
  have silent : past ++ [] = past := List.append_nil past
  cases request with
  | insert key value =>
    simp only [ThreadedMap.serve, bind_eq_ok, pure_eq_ok] at served
    obtain ⟨⟨outcome, left⟩, inserted, paired⟩ := served
    obtain ⟨rfl, rfl⟩ := Prod.mk.inj paired
    obtain ⟨id, policy, stored⟩ := insert_stores inserted
    cases outcome with
    | error error =>
      cases stored
      exact silent.symm ▸ attested
    | ok outcome => exact stored.attested id policy attested
  | remove key =>
    simp only [ThreadedMap.serve, bind_eq_ok, pure_eq_ok] at served
    obtain ⟨⟨value, left⟩, removed, paired⟩ := served
    obtain ⟨rfl, rfl⟩ := Prod.mk.inj paired
    obtain ⟨id, policy, emptied⟩ := remove_empties removed
    cases emptied with
    | missed => exact silent.symm ▸ attested
    | removed met taken =>
      refine silent.symm ▸ attested.fewer id policy (Slots.next_take taken) fun other content held => ?_
      rw [Slots.get?_take taken] at held
      split at held
      · cases held
      · exact held
  | clear =>
    simp only [ThreadedMap.serve, bind_eq_ok, pure_eq_ok] at served
    obtain ⟨⟨released, left⟩, cleared, paired⟩ := served
    obtain ⟨rfl, rfl⟩ := Prod.mk.inj paired
    obtain ⟨id, policy, next, fewer⟩ := clear_empties cleared
    exact silent.symm ▸ attested.fewer id policy next fewer
  | size =>
    cases served
    exact silent.symm ▸ attested
  | lookup key | lookupEntry key | contains key =>
    simp only [ThreadedMap.serve, bind_eq_ok, pure_eq_ok] at served
    obtain ⟨found, _, paired⟩ := served
    obtain ⟨rfl, rfl⟩ := Prod.mk.inj paired
    exact silent.symm ▸ attested

theorem remove_handsBack {key : K} {granted : Bool} {handed : Option (Held V)}
    (removed : table.remove granted key = .ok (handed, after)) :
    ∃ found, table.find key = .ok found ∧ HandsBack table.Entry found handed := by
  obtain ⟨_, _, emptied⟩ := remove_empties removed
  cases emptied with
  | missed missed => exact ⟨none, missed, rfl⟩
  | @removed handle content _ met taken =>
    exact ⟨some handle, met, content.1, content.2, get?_contents.mp (Slots.get?_of_take taken), rfl⟩

theorem run_attests (id : Identity) (policy : HashPolicy K V) (noOverwrite : Bool) (demands : List (Demand K V)) :
    ∃ answers table, runAll serve { id, policy, noOverwrite } demands = .ok (answers, table) ∧
      table.Attested (writes { id, policy, noOverwrite } demands) ∧ ∃ map, table.Lays map ∧ map.WellFormed := by
  have keeps : ∀ (table : ThreadedMap K V) (past : List (Write K V)) (demand : Demand K V),
      (table.Attested past ∧ ∃ map, table.Lays map ∧ map.WellFormed) →
      ∃ answer after, table.serve demand = .ok (answer, after) ∧
        after.Attested (past ++ table.written demand answer) ∧ ∃ map, after.Lays map ∧ map.WellFormed := by
    rintro table past demand ⟨attested, map, lays, wellFormed⟩
    obtain ⟨answer, after, following, served, _, laid, kept⟩ := lays.serve_inStep wellFormed demand
    exact ⟨answer, after, served, attested.serve served, following, laid, kept⟩
  exact runAll_attests keeps demands ⟨attested_fresh id policy noOverwrite, _, lays_fresh id policy noOverwrite,
    HashedMap.wellFormed_fresh id policy noOverwrite⟩

end ThreadedMap

namespace Session

/-- Whatever the policies answer, and whatever has been done to stores and cursors: the key of every entry is the
one that was passed by the addition that made it, as the policy secures it, and the value is the one that was passed
by the last addition onto it. So no stored key is lent where keys are copied, and no stored value where values are;
where values are not, one is lent exactly if that addition passed it so; and a removal hands back the very value
that the entry has. What a cursor remembers is held as the key that it returned last is stored, and is that key if
it is lent; and what cursors are given are keys of the store that they are moved on. So it is in a table, too, that
was refused the memory for any of its rebuildings. -/
theorem run_keeps_provenance :
    (∀ commands : List (Command K V), ∃ replies session, Session.run {} commands = .ok (replies, session) ∧
      (∀ number store, session.stores.get? number = some store → store.Accounts (writes {} commands)) ∧
      (∀ place cursor kept, session.cursors.get? place = some cursor → cursor.lastKey = some kept →
        ∃ tag, (returnedTo place (returns {} commands)).getLast? = some tag ∧ kept.Recalls tag.key) ∧
      ∀ command reply after, session.step command = .ok (reply, after) →
        command.given reply = (session.returned command).map (·.tag.key.val) ∧
        ∀ item ∈ session.returned command, ∃ number store, session.stores.get? number = some store ∧
          item.tag ∈ store.tags) ∧
    ∀ (id : Identity) (policy : HashPolicy K V) (noOverwrite : Bool) (demands : List (ThreadedMap.Demand K V)),
      ∃ answers table, runAll ThreadedMap.serve { id, policy, noOverwrite } demands = .ok (answers, table) ∧
        Provenance table.id table.policy.base table.Entry
          (ThreadedMap.writes { id, policy, noOverwrite } demands) ∧
        ∀ granted key, ∃ found handed after, table.find key = .ok found ∧
          table.remove granted key = .ok (handed, after) ∧ HandsBack table.Entry found handed := by
  refine ⟨fun commands => ?_, fun id policy noOverwrite demands => ?_⟩
  · obtain ⟨replies, session, ran, attested⟩ := run_attests commands
    obtain ⟨_, _, again, recalled⟩ := run_recalls commands
    obtain ⟨rfl, rfl⟩ := Prod.mk.inj (Except.ok.inj (again.symm.trans ran))
    refine ⟨_, _, (run_eq_runAll _ _).trans ran, fun number store held => ?_, recalled.recalls,
      fun command reply after stepped => (step_moves attested.sound stepped).names⟩
    exact (attested.stores number store held).accounts (attested.sound.wellFormed number store held)
  · obtain ⟨answers, table, ran, attested, map, lays, wellFormed⟩ :=
      ThreadedMap.run_attests id policy noOverwrite demands
    refine ⟨answers, table, ran, attested.provenance, fun granted key => ?_⟩
    obtain ⟨handed, after, _, removed, _⟩ := lays.remove_inStep wellFormed granted key
    obtain ⟨found, met, hands⟩ := ThreadedMap.remove_handsBack removed
    exact ⟨found, handed, after, met, removed, hands⟩

/-- Keys are copied by their tens, values are not. The second addition replaces the value and leaves the key. -/
example :
    let commands : List (Command Nat Nat) := [.create 0 (.ordered .tens false),
      .insert 0 ⟨.borrowed, 17⟩ ⟨.owned, 1⟩, .insert 0 ⟨.borrowed, 12⟩ ⟨.borrowed, 7⟩]
    ((Session.run {} commands).toOption.bind (·.2.stores.get? 0)).map
        (fun store => (store.tags.map (·.key), (store.remove 19).toOption.map (·.1))) =
      some ([⟨.owned, 10⟩], some (some ⟨.borrowed, 7⟩)) := by
  decide +kernel

end Session

end KeyedStore
