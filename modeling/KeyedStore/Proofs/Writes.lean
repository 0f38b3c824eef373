import KeyedStore.Proofs.Tags
import KeyedStore.Proofs.Session
/-!
Where the entries of a session come from. Every addition that is answered is a write, onto the entry that it made
or to which it gave another value; an entry is known by its store and its handle, since neither an identity nor a
handle is given twice. Behind every entry stands one list of writes: the first made it and passed its key, the
others replaced its value, and the last passed the value that it has. A key is secured once, when its entry is
made, a value once, when it is written; repairs, rebuildings, removals of others and traversals touch neither.
-/
namespace KeyedStore

variable {K V : Type}

/-- An addition that was answered: the store and the handle of its entry, and what was passed. -/
structure Write (K V : Type) where
  store : Identity
  handle : Handle
  key : Held K
  value : Held V
  outcome : Addition

/-- The writes onto one entry. -/
def writesOnto (id : Identity) (handle : Handle) (past : List (Write K V)) : List (Write K V) :=
  past.filter fun write => write.store = id ∧ write.handle = handle

/-- What a store holds as key and value of an entry, with the writes behind it. -/
structure Written (id : Identity) (policy : Policy K V) (past : List (Write K V)) (handle : Handle) (key : Held K)
    (value : Held V) (made last : Write K V) (rest : List (Write K V)) : Prop where
  writes : writesOnto id handle past = made :: rest
  created : made.outcome = .inserted
  later : ∀ write ∈ rest, write.outcome = .updated
  latest : (made :: rest).getLast? = some last
  key : key = policy.secureKey made.key
  value : value = policy.secureValue last.value

/-- Every entry has its writes, and no write is onto a handle that is still to be issued. -/
structure Sourced (id : Identity) (policy : Policy K V) (entry : Handle → Held K → Held V → Prop) (next : Handle)
    (past : List (Write K V)) : Prop where
  entries : ∀ handle key value, entry handle key value →
    ∃ made last rest, Written id policy past handle key value made last rest
  issued : ∀ write ∈ past, write.store = id → write.handle.index < next.index

variable {id : Identity} {policy : Policy K V} {past : List (Write K V)}

/-! ### One more write -/

theorem writesOnto_concat_ne {handle : Handle} {write : Write K V} (apart : write.store ≠ id ∨ write.handle ≠ handle) :
    writesOnto id handle (past ++ [write]) = writesOnto id handle past := by
  have none : (decide (write.store = id ∧ write.handle = handle)) = false := by
    rcases apart with apart | apart <;> simp [apart]
  rw [writesOnto, writesOnto, List.filter_append, List.filter_singleton, none]
  exact List.append_nil _

theorem writesOnto_concat_eq {write : Write K V} (own : write.store = id) :
    writesOnto id write.handle (past ++ [write]) = writesOnto id write.handle past ++ [write] := by
  rw [writesOnto, writesOnto, List.filter_append, List.filter_singleton]
  simp [own]

namespace Written

variable {handle : Handle} {key : Held K} {value : Held V} {made last : Write K V} {rest : List (Write K V)}

/-- A write onto another entry. -/
theorem beside (written : Written id policy past handle key value made last rest) {write : Write K V}
    (apart : write.store ≠ id ∨ write.handle ≠ handle) :
    Written id policy (past ++ [write]) handle key value made last rest :=
  { written with writes := (writesOnto_concat_ne apart).trans written.writes }

/-- A write that gives the entry another value. -/
theorem further (written : Written id policy past handle key value made last rest) {write : Write K V}
    (own : write.store = id) (here : write.handle = handle) (updates : write.outcome = .updated) :
    Written id policy (past ++ [write]) handle key (policy.secureValue write.value) made write (rest ++ [write]) := by
  subst here
  refine ⟨?_, written.created, ?_, ?_, written.key, rfl⟩
  · rw [writesOnto_concat_eq own, written.writes]
    rfl
  · exact List.forall_mem_append.mpr ⟨written.later, List.forall_mem_singleton.mpr updates⟩
  · rw [← List.cons_append, List.getLast?_concat]

end Written

namespace Sourced

variable {entry other : Handle → Held K → Held V → Prop} {next : Handle} {write : Write K V}

/-- Entries are taken out. -/
theorem shrinks (sourced : Sourced id policy entry next past)
    (kept : ∀ handle key value, other handle key value → entry handle key value) :
    Sourced id policy other next past :=
  ⟨fun handle key value there => sourced.entries handle key value (kept handle key value there), sourced.issued⟩

/-- A write onto another store. -/
theorem elsewhere (sourced : Sourced id policy entry next past) (apart : write.store ≠ id) :
    Sourced id policy entry next (past ++ [write]) := by
  constructor
  · intro handle key value there
    obtain ⟨made, last, rest, written⟩ := sourced.entries handle key value there
    exact ⟨made, last, rest, written.beside (.inl apart)⟩
  · intro one member own
    rcases List.mem_append.mp member with old | new
    · exact sourced.issued one old own
    · obtain rfl := List.mem_singleton.mp new
      exact absurd own apart

/-- An entry is made, under the next handle. -/
theorem inserted (sourced : Sourced id policy entry next past) (own : write.store = id)
    (here : write.handle = next) (makes : write.outcome = .inserted)
    (entries : ∀ handle key value, other handle key value → entry handle key value ∧ handle ≠ next ∨
      handle = next ∧ key = policy.secureKey write.key ∧ value = policy.secureValue write.value) :
    Sourced id policy other ⟨next.index + 1⟩ (past ++ [write]) := by
  subst here
  constructor
  · intro handle key value there
    rcases entries handle key value there with ⟨old, apart⟩ | ⟨rfl, rfl, rfl⟩
    · obtain ⟨made, last, rest, written⟩ := sourced.entries handle key value old
      exact ⟨made, last, rest, written.beside (.inr apart.symm)⟩
    · have unused : writesOnto id write.handle past = [] := by
        refine List.filter_eq_nil_iff.mpr fun one member onto => ?_
        obtain ⟨same, at_it⟩ := of_decide_eq_true onto
        have before := sourced.issued one member same
        rw [at_it] at before
        exact Nat.lt_irrefl _ before
      refine ⟨write, write, [], ?_, makes, nofun, rfl, rfl, rfl⟩
      rw [writesOnto_concat_eq own, unused]
      rfl
  · intro one member same
    rcases List.mem_append.mp member with old | new
    · exact Nat.lt_succ_of_lt (sourced.issued one old same)
    · obtain rfl := List.mem_singleton.mp new
      exact Nat.lt_succ_self _

/-- An entry is given another value. -/
theorem updated (sourced : Sourced id policy entry next past) (own : write.store = id)
    (issued : write.handle.index < next.index) (updates : write.outcome = .updated)
    (entries : ∀ handle key value, other handle key value → entry handle key value ∧ handle ≠ write.handle ∨
      handle = write.handle ∧ value = policy.secureValue write.value ∧ ∃ old, entry handle key old) :
    Sourced id policy other next (past ++ [write]) := by
  constructor
  · intro handle key value there
    rcases entries handle key value there with ⟨old, apart⟩ | ⟨rfl, rfl, old, before⟩
    · obtain ⟨made, last, rest, written⟩ := sourced.entries handle key value old
      exact ⟨made, last, rest, written.beside (.inr apart.symm)⟩
    · obtain ⟨made, last, rest, written⟩ := sourced.entries _ key old before
      exact ⟨made, write, rest ++ [write], written.further own rfl updates⟩
  · intro one member same
    rcases List.mem_append.mp member with old | new
    · exact sourced.issued one old same
    · obtain rfl := List.mem_singleton.mp new
      exact issued

end Sourced

/-! ### The entries of a store -/

namespace Store

/-- The store holds this key and this value under a handle. -/
def Entry (store : Store K V) (handle : Handle) (key : Held K) (value : Held V) : Prop :=
  ⟨handle, key⟩ ∈ store.tags ∧ store.slots.get? handle = some value

/-- Every entry of the store has its writes. -/
def Attested (store : Store K V) (past : List (Write K V)) : Prop :=
  Sourced store.id store.policy store.Entry store.slots.next past

/-- The handle of the entry onto which an addition writes: the one that the key finds, or the next one. -/
def target (store : Store K V) (key : K) : Handle :=
  match store.find key with
  | .ok (some tag) => tag.handle
  | _ => store.slots.next

variable {store after : Store K V}

theorem Attested.shrinks (attested : store.Attested past) (shrinks : store.Shrinks after) :
    after.Attested past := by
  rw [Attested, shrinks.id, shrinks.policy, shrinks.next]
  refine Sourced.shrinks attested fun handle key value ⟨named, held⟩ => ?_
  obtain ⟨within, same⟩ := shrinks.kept _ named
  exact ⟨within, same.symm.trans held⟩

theorem attested_build (id : Identity) (blueprint : Blueprint K V) (unused : ∀ write ∈ past, write.store ≠ id) :
    (build id blueprint).Attested past := by
  constructor
  · intro handle key value ⟨named, _⟩
    cases blueprint with
    | ordered policy noOverwrite => cases named
    | hashed policy noOverwrite =>
      have empty : HashedMap.links ({ id, policy, noOverwrite } : HashedMap K V) = [] := HashedMap.links_of_bare rfl
      simp only [build, tags, empty] at named
      cases named
  · intro write member same
    exact absurd (same.trans (id_build id blueprint)) (unused write member)

/-- The handles of a store tell its tags apart. -/
theorem WellFormed.tag_ext (wellFormed : store.WellFormed) {tag other : Tag K} (one : tag ∈ store.tags)
    (two : other ∈ store.tags) (same : tag.handle = other.handle) : tag = other := by
  have nodup := wellFormed.inUse.nodup
  rw [handles_eq] at nodup
  exact List.inj_on_of_nodup_map nodup one two same

/-- A live handle has been issued. -/
theorem WellFormed.issued (wellFormed : store.WellFormed) {tag : Tag K} (member : tag ∈ store.tags) :
    tag.handle.index < store.slots.next.index := by
  obtain ⟨value, held⟩ := wellFormed.get?_of_tag member
  exact (Slots.get?_eq_some held).1

/-- An addition that is answered is one more write. -/
theorem Insertion.attested {key : Held K} {value : Held V} {outcome : Addition}
    (insertion : store.Insertion key value (.ok outcome) after) (wellFormed : store.WellFormed)
    (id : after.id = store.id) (attested : store.Attested past) :
    after.Attested (past ++ [⟨store.id, store.target key.val, key, value, outcome⟩]) := by
  cases insertion with
  | @updated tag slots met free done =>
    have target : store.target key.val = tag.handle := by rw [Store.target, met]
    have named : tag ∈ store.tags := by
      obtain ⟨found, same, within⟩ := wellFormed.find_ends key.val
      exact within tag (Except.ok.inj (same.symm.trans met))
    obtain ⟨old, before⟩ := wellFormed.get?_of_tag named
    rw [Attested, id, policy_restock, slots_restock, Slots.next_replace done, target]
    refine Sourced.updated attested rfl (wellFormed.issued named) rfl fun handle key value ⟨there, held⟩ => ?_
    rw [tags_restock] at there
    rw [slots_restock, Slots.get?_replace done] at held
    split at held
    · rename_i same
      obtain rfl : _ = tag := wellFormed.tag_ext there named same
      exact .inr ⟨rfl, (Option.some.inj held).symm, old, named, before⟩
    · rename_i apart
      exact .inl ⟨⟨there, held⟩, apart⟩
  | inserted missed room policy slots tags =>
    have target : store.target key.val = store.slots.next := by rw [Store.target, missed]
    rw [Attested, id, policy, slots, Slots.next_insert]
    refine Sourced.inserted attested rfl target rfl fun handle key value ⟨named, held⟩ => ?_
    rw [slots, Slots.get?_insert] at held
    rcases (tags _).mp named with new | old
    · obtain ⟨rfl, rfl⟩ := Tag.mk.inj new
      rw [if_pos rfl] at held
      exact .inr ⟨rfl, rfl, (Option.some.inj held).symm⟩
    · have apart : handle ≠ store.slots.next := fun same =>
        Nat.ne_of_lt (wellFormed.issued old) (congrArg Handle.index same)
      rw [if_neg apart] at held
      exact .inl ⟨⟨old, held⟩, apart⟩

end Store

/-! ### Sessions -/

namespace Session

/-- What a command has written, by its reply. -/
def written (session : Session K V) : Command K V → Reply K V → List (Write K V)
  | .insert number key value _, .added (.ok outcome) =>
    (session.stores.get? number).toList.map fun store => ⟨store.id, store.target key.val, key, value, outcome⟩
  | _, _ => []

/-- What some commands write, the earliest first. -/
def writes (session : Session K V) (commands : List (Command K V)) : List (Write K V) :=
  noteSteps step written session commands

/-- A command that neither makes a store nor an entry leaves stores from which entries may have been taken out. -/
theorem former_of_step {session after : Session K V} {command : Command K V} {reply : Reply K V}
    (sound : session.Sound) (makes : command.makes = false)
    (adds : ∀ number key value granted, command ≠ .insert number key value granted)
    (stepped : session.step command = .ok (reply, after)) {number : Nat} {store : Store K V}
    (found : after.stores.get? number = some store) :
    ∃ past, session.stores.get? number = some past ∧ past.Shrinks store := by
  have still : after.stores = session.stores → ∃ past, session.stores.get? number = some past ∧ past.Shrinks store :=
    fun same => ⟨store, same ▸ found, .refl store⟩
  have shrunk : ∀ {place : Nat} {old left : Store K V}, session.stores.get? place = some old → old.Shrinks left →
      after.stores = session.stores.set place left →
      ∃ past, session.stores.get? number = some past ∧ past.Shrinks store := by
    intro place old left held shrinks stores
    rw [stores] at found
    rcases Roster.placed_or_get?_of_set found with ⟨rfl, rfl⟩ | kept
    · exact ⟨old, held, shrinks⟩
    · exact ⟨store, kept, .refl store⟩
  cases command with
  | create place blueprint => cases makes
  | insert place key value granted => exact absurd rfl (adds place key value granted)
  | remove place key granted =>
    rcases change_inverts stepped with rfl | ⟨old, later, held, done, rfl⟩
    · exact still rfl
    · obtain ⟨value, left, removed, _, shrinks⟩ :=
        Store.remove_shrinks (sound.wellFormed place old held) key granted
      simp only [removed] at done
      cases done
      exact shrunk held shrinks rfl
  | clear place granted =>
    rcases change_inverts stepped with rfl | ⟨old, later, held, done, rfl⟩
    · exact still rfl
    · obtain ⟨left, cleared, _, shrinks⟩ := Store.clear_shrinks (sound.wellFormed place old held) granted
      simp only [cleared] at done
      cases done
      exact shrunk held shrinks rfl
  | dispose place =>
    rcases dispose_inverts stepped with rfl | rfl
    · exact still rfl
    · exact ⟨store, Roster.get?_of_erase found, .refl store⟩
  | openCursor cursor place => rcases openCursor_inverts stepped with rfl | ⟨_, _, _, rfl⟩ <;> exact still rfl
  | closeCursor cursor => rcases closeCursor_inverts stepped with rfl | rfl <;> exact still rfl
  | advance cursor place =>
    rcases follow_inverts stepped with ⟨rfl, _⟩ | ⟨old, position, moved, later, held, _, done, rfl⟩
    · exact still rfl
    · obtain ⟨_, _, done⟩ := bind_eq_ok.mp done
      cases done
      exact shrunk held (.refl old) rfl
  | drain cursor place =>
    rcases follow_inverts stepped with ⟨rfl, _⟩ | ⟨old, position, moved, later, held, _, done, rfl⟩
    · exact still rfl
    · obtain ⟨_, _, done⟩ := bind_eq_ok.mp done
      cases done
      exact shrunk held (.refl old) rfl
  | consume cursor place limit granted =>
    rcases follow_inverts stepped with ⟨rfl, _⟩ | ⟨old, position, moved, later, held, _, done, rfl⟩
    · exact still rfl
    · obtain ⟨⟨taken, ended, left⟩, consumed, done⟩ := bind_eq_ok.mp done
      cases done
      exact shrunk held (Store.consume_shrinks (sound.wellFormed place old held) consumed) rfl
  | _ => exact still (eq_of_asks rfl stepped ▸ rfl)

/-- Every entry of every store has its writes, and no write is onto a store that is still to be made. -/
structure Attested (session : Session K V) (past : List (Write K V)) : Prop where
  sound : session.Sound
  stores : ∀ number store, session.stores.get? number = some store → store.Attested past
  issued : ∀ write ∈ past, write.store.serial < session.nextId.serial

theorem attested_empty : ({} : Session K V).Attested [] := ⟨sound_empty, nofun, nofun⟩

namespace Attested

variable {session after : Session K V} {past : List (Write K V)}

/-- Where the stores have become ones from which entries have been taken out. -/
theorem shrinks (attested : session.Attested past) (sound : after.Sound) (nextId : after.nextId = session.nextId)
    (former : ∀ number store, after.stores.get? number = some store →
      ∃ past, session.stores.get? number = some past ∧ past.Shrinks store) : after.Attested past := by
  refine ⟨sound, fun number store held => ?_, fun write member => nextId ▸ attested.issued write member⟩
  obtain ⟨old, stood, shrunk⟩ := former number store held
  exact (attested.stores number old stood).shrinks shrunk

theorem created (attested : session.Attested past) {number : Nat} {blueprint : Blueprint K V}
    (sound : Sound { session.setStore number (Store.build session.nextId blueprint) with
      nextId := session.nextId.next }) :
    Attested { session.setStore number (Store.build session.nextId blueprint) with
      nextId := session.nextId.next } past := by
  refine ⟨sound, fun other current found => ?_, fun write member => Nat.lt_succ_of_lt (attested.issued write member)⟩
  rcases Roster.placed_or_get?_of_set found with ⟨_, rfl⟩ | old
  · refine Store.attested_build _ _ fun write member same => ?_
    have issued := attested.issued write member
    rw [same] at issued
    exact Nat.lt_irrefl _ issued
  · exact attested.stores other current old

/-- Where one store has. -/
theorem setStore (attested : session.Attested past) {number : Nat} {store shrunk : Store K V}
    (held : session.stores.get? number = some store) (shrinks : store.Shrinks shrunk) (sound : after.Sound)
    (nextId : after.nextId = session.nextId) (stores : after.stores = session.stores.set number shrunk) :
    after.Attested past := by
  refine attested.shrinks sound nextId fun other current found => ?_
  rw [stores] at found
  rcases Roster.placed_or_get?_of_set found with ⟨rfl, rfl⟩ | old
  · exact ⟨store, held, shrinks⟩
  · exact ⟨current, old, .refl current⟩

theorem insert (attested : session.Attested past) {number : Nat} {store grown : Store K V}
    (held : session.stores.get? number = some store) {key : Held K} {value : Held V} {outcome : Addition}
    (insertion : store.Insertion key value (.ok outcome) grown) (evolves : store.Evolves grown) :
    (session.setStore number grown).Attested
      (past ++ [⟨store.id, store.target key.val, key, value, outcome⟩]) := by
  refine ⟨attested.sound.setStore held evolves, fun other current found => ?_, fun write member => ?_⟩
  · rw [Session.setStore, Roster.get?_set] at found
    split at found
    · obtain rfl := Option.some.inj found
      have wellFormed := attested.sound.wellFormed number store held
      exact insertion.attested wellFormed evolves.id (attested.stores number store held)
    · rename_i different
      refine (attested.stores other current found).elsewhere fun same => different ?_
      exact (attested.sound.apart number other store current held found same).symm
  · rcases List.mem_append.mp member with old | new
    · exact attested.issued write old
    · obtain rfl := List.mem_singleton.mp new
      exact attested.sound.issued number store held

/-- One command keeps the writes of all entries. -/
theorem step (attested : session.Attested past) (command : Command K V) :
    ∃ reply after, session.step command = .ok (reply, after) ∧
      after.Attested (past ++ session.written command reply) := by
  obtain ⟨reply, after, stepped, sound⟩ := attested.sound.step_answers command
  refine ⟨reply, after, stepped, ?_⟩
  have silent : past ++ [] = past := List.append_nil past
  cases command with
  | create number blueprint =>
    cases stepped
    exact silent.symm ▸ attested.created sound
  | insert number key value granted =>
    cases held : session.stores.get? number with
    | none =>
      simp only [Engine.step, change, held] at stepped
      cases stepped
      exact silent.symm ▸ attested
    | some store =>
      have wellFormed := attested.sound.wellFormed number store held
      obtain ⟨outcome, grown, done, insertion⟩ := Store.insert_ends wellFormed key value granted
      obtain ⟨_, _, also, evolves⟩ := Store.insert_answers wellFormed key value granted
      obtain ⟨rfl, rfl⟩ := Prod.mk.inj (Except.ok.inj (done.symm.trans also))
      simp only [Engine.step, change, held, done, bind, Except.bind, pure, Except.pure] at stepped
      cases stepped
      cases outcome with
      | error error =>
        obtain rfl := insertion.eq_of_refused
        exact silent.symm ▸ attested.setStore held (.refl _) sound rfl rfl
      | ok outcome =>
        rw [written, held]
        exact attested.insert held insertion evolves
  | _ =>
    refine silent.symm ▸ attested.shrinks sound (nextId_of_step rfl stepped) fun number store held => ?_
    exact former_of_step attested.sound rfl (fun _ _ _ _ same => by cases same) stepped held

end Attested

theorem run_attests (commands : List (Command K V)) : ∃ replies session,
    runAll step {} commands = .ok (replies, session) ∧ session.Attested (writes {} commands) := by
  have keeps : ∀ (session : Session K V) (past : List (Write K V)) (command : Command K V), session.Attested past →
      ∃ reply after, step session command = .ok (reply, after) ∧
        after.Attested (past ++ session.written command reply) :=
    fun _ _ command attested => attested.step command
  exact runAll_attests keeps commands attested_empty

end Session

end KeyedStore
