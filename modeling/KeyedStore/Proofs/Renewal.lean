import KeyedStore.Proofs.Likeness
import KeyedStore.Proofs.OrderedMap.Shift
import KeyedStore.Proofs.HashedMap.Shift
/-!
A store that has been cleared is as good as new. It is a fresh store of the same policy, moved along everything
that it has counted; and a store that is moved along does, with all cursors that are opened on it, what it
does where it was. So after a clearing nothing tells the store from a fresh one but its counts of transactions
and rebuildings, which are ahead by what they were at the clearing.
-/
namespace KeyedStore

variable {K V : Type}

/-! ### Stores that are moved along -/

/-- The same store with other handles and serial numbers, another identity and higher counts. -/
def Store.shift (move : Shift) : Store K V → Store K V
  | ordered map => ordered (map.shift move)
  | hashed map => hashed (map.shift move)

/-- The same cursor on the store that is moved along. -/
def Cursor.shift (move : Shift) : Cursor K → Cursor K
  | ordered cursor => ordered (cursor.shift move)
  | hashed cursor => hashed (cursor.shift move)

/-- The same profile with higher counts. -/
def Profile.counting (transactions epoch : Nat) : Profile K V → Profile K V
  | ordered size count root check first last => ordered size (count + transactions) root check first last
  | hashed size count rebuilt buckets limits =>
    hashed size (count + transactions) (rebuilt + epoch) buckets limits

/-- The same reply with higher counts. -/
def Reply.counting (transactions epoch : Nat) : Reply K V → Reply K V
  | profile shown => profile (shown.counting transactions epoch)
  | reply => reply

theorem Cursor.isFinished_shift (move : Shift) (cursor : Cursor K) :
    (cursor.shift move).isFinished = cursor.isFinished := by
  cases cursor <;> rfl

namespace Store

variable (move : Shift) (store : Store K V)

theorem size_shift : (store.shift move).size = store.size := by
  cases store <;> rfl

theorem lookupEntry_shift (key : K) : (store.shift move).lookupEntry key = store.lookupEntry key := by
  cases store with
  | ordered map => exact map.lookupEntry_shift move key
  | hashed map => exact map.lookupEntry_shift move key

theorem lookup_shift (key : K) : (store.shift move).lookup key = store.lookup key := by
  cases store with
  | ordered map => simp only [shift, lookup, OrderedMap.lookup, OrderedMap.lookupEntry_shift]
  | hashed map => simp only [shift, lookup, HashedMap.lookup, HashedMap.lookupEntry_shift]

theorem insert_shift (key : Held K) (value : Held V) (granted : Bool) :
    (store.shift move).insert key value granted =
      (fun (outcome, after) => (outcome, after.shift move)) <$> store.insert key value granted := by
  cases store with
  | ordered map =>
    simp only [shift, insert, OrderedMap.insert_shift]
    exact bind_carried fun _ => rfl
  | hashed map =>
    simp only [shift, insert, HashedMap.insert_shift]
    exact bind_carried fun _ => rfl

theorem remove_shift (key : K) (granted : Bool) : (store.shift move).remove key granted =
    (fun (value, after) => (value, after.shift move)) <$> store.remove key granted := by
  cases store with
  | ordered map =>
    simp only [shift, remove, OrderedMap.remove_shift]
    exact bind_carried fun _ => rfl
  | hashed map =>
    simp only [shift, remove, HashedMap.remove_shift]
    exact bind_carried fun _ => rfl

theorem clear_shift (granted : Bool) : (store.shift move).clear granted =
    (fun (released, after) => (released, after.shift move)) <$> store.clear granted := by
  cases store with
  | ordered map =>
    simp only [shift, clear, OrderedMap.clear_shift]
    exact bind_carried fun _ => rfl
  | hashed map =>
    simp only [shift, clear, HashedMap.clear_shift]
    exact bind_carried fun _ => rfl

theorem dispose_shift : (store.shift move).dispose = store.dispose := by
  cases store with
  | ordered map =>
    simp only [shift, dispose, OrderedMap.clear_shift]
    cases map.clear <;> rfl
  | hashed map =>
    simp only [shift, dispose, HashedMap.releaseAll_shift]
    cases map.releaseAll <;> rfl

theorem profile_shift : (store.shift move).profile =
    Profile.counting move.transactions move.epoch <$> store.profile := by
  cases store with
  | ordered map =>
    simp only [shift, profile, OrderedMap.first_shift, OrderedMap.last_shift, OrderedMap.root_shift,
      OrderedMap.check_shift]
    cases map.first with
    | error fault => rfl
    | ok first => cases map.last <;> rfl
  | hashed map =>
    simp only [shift, profile, HashedMap.bucketCount_shift]
    rfl

theorem chainSizes_shift : (store.shift move).chainSizes = store.chainSizes := by
  cases store with
  | ordered map => rfl
  | hashed map => exact congrArg some (map.chainSizes_shift move)

/-! ### Their cursors -/

theorem start_shift : (store.shift move).start = store.start.shift move := by
  cases store with
  | ordered map => exact congrArg Cursor.ordered (map.start_shift move)
  | hashed map => rfl

theorem advance_shift (cursor : Cursor K) : (store.shift move).advance (cursor.shift move) =
    (fun (found, moved) => (found, moved.shift move)) <$> store.advance cursor := by
  cases store with
  | ordered map =>
    cases cursor with
    | ordered cursor =>
      simp only [shift, Cursor.shift, advance, OrderedMap.advance_shift]
      refine bind_carried ?_
      rintro ⟨found, moved⟩
      cases found <;> rfl
    | hashed cursor => rfl
  | hashed map =>
    cases cursor with
    | ordered cursor => rfl
    | hashed cursor =>
      simp only [shift, Cursor.shift, advance, HashedMap.advance_shift]
      refine bind_carried ?_
      rintro ⟨found, moved⟩
      cases found <;> rfl

/-- A store that is moved along is one that is shown, with its counts. -/
def likeness (move : Shift) : Likeness K V V where
  look := .plain
  store := shift move
  cursor := Cursor.shift move
  profile := Profile.counting move.transactions move.epoch
  size := size_shift move
  lookupEntry store key := by simp [lookupEntry_shift]
  lookup store key := by simp [lookup_shift]
  insert := insert_shift move
  remove store key granted := by simp [remove_shift]
  clear := clear_shift move
  dispose := dispose_shift move
  profiled := profile_shift move
  chainSizes := chainSizes_shift move
  start := start_shift move
  advance store cursor := by simp [advance_shift]
  isFinished := Cursor.isFinished_shift move

theorem reply_likeness (reply : Reply K V) :
    (likeness move).pairing.reply reply = reply.counting move.transactions move.epoch := by
  cases reply <;> simp [Likeness.pairing, Pairing.reply, Reply.shown, Reply.counting, likeness]

end Store

/-! ### Sessions that go on without making stores -/

/-- A command on the stores and cursors that there are. -/
abbrev Use (K V : Type) := {command : Command K V // command.makes = false}

namespace Session

def use (session : Session K V) (use : Use K V) : Except Fault (Reply K V × Session K V) :=
  session.step use.val

/-- A session of one store under this number, and no cursor. -/
def holding (number : Nat) (store : Store K V) : Session K V where
  stores := ({} : Roster (Store K V)).set number store
  nextId := store.id.next

/-- Two sessions with the same stores and cursors under the same numbers, those of the one moved along. -/
abbrev Beside (move : Shift) (session fresher : Session K V) : Prop :=
  (Store.likeness move).pairing.Shows session fresher

/-- A session that is sound and one that is moved along go through the same commands, with the same replies. -/
theorem use_lockstep (move : Shift) : Lockstep (use (K := K) (V := V)) use
    (Reply.counting move.transactions move.epoch)
    fun session fresher => Beside move session fresher ∧ fresher.Sound := by
  rintro session fresher ⟨command, makes⟩ ⟨beside, sound⟩
  obtain ⟨reply, after, used, kept⟩ := sound.step_answers command
  obtain ⟨⟨_, later⟩, also, rfl, follows⟩ := beside.step sound makes _ used
  rw [Store.reply_likeness, show command.guise (Store.likeness move).pairing.look = command from
    command.guise_plain] at also
  exact ⟨reply, later, after, also, used, follows, kept⟩

theorem sound_holding (number : Nat) {store : Store K V} (wellFormed : store.WellFormed) :
    (holding number store).Sound := by
  have only : ∀ other current, (holding number store).stores.get? other = some current →
      other = number ∧ store = current := by
    intro other current found
    rcases Roster.placed_or_get?_of_set found with here | nowhere
    · exact here
    · cases nowhere
  refine ⟨?_, ?_, ?_, nofun, nofun⟩
  · rintro other current found
    obtain ⟨_, rfl⟩ := only other current found
    exact wellFormed
  · rintro other current found
    obtain ⟨_, rfl⟩ := only other current found
    exact Nat.lt_succ_self _
  · rintro one two first second found sought _
    exact (only one first found).1.trans (only two second sought).1.symm

theorem beside_holding (move : Shift) (number : Nat) (store : Store K V) :
    Beside move (holding number (store.shift move)) (holding number store) := by
  refine (Store.likeness move).shows_iff.mpr ⟨fun other => ?_, fun place => rfl⟩
  simp only [holding, Roster.get?_set, Roster.get?_empty]
  split <;> rfl

end Session

/-! ### Clearing -/

namespace Store

/-- What the store was made from. -/
def blueprint : Store K V → Blueprint K V
  | ordered map => .ordered map.policy map.noOverwrite
  | hashed map => .hashed map.policy map.noOverwrite

/-- How often the table of a hashed store was rebuilt. -/
def epoch : Store K V → Nat
  | ordered _ => 0
  | hashed map => map.epoch

/-- The next serial number of a hashed store. -/
def nextSerial : Store K V → Nat
  | ordered _ => 0
  | hashed map => map.nextSerial

/-- How far a store is ahead of a fresh one of this identity. -/
def lead (store : Store K V) (id : Identity) : Shift where
  rename := Equiv.swap id store.id
  handles := store.slots.next.index
  serials := store.nextSerial
  transactions := store.transactions
  epoch := store.epoch

/-- What a clearing leaves is a fresh store, moved along. -/
theorem clear_renews {store : Store K V} (wellFormed : store.WellFormed) :
    ∃ cleared, store.clear = .ok (store.size, cleared) ∧
      ∀ id, cleared = (build id store.blueprint).shift (cleared.lead id) := by
  cases store with
  | ordered map =>
    obtain ⟨slots, unused, _, done⟩ := OrderedMap.clear_ends wellFormed
    refine ⟨ordered (map.cleared slots), by simp only [clear, done]; rfl, fun id => ?_⟩
    exact congrArg ordered (OrderedMap.cleared_eq_shift unused (Equiv.swap_apply_left id map.id) rfl rfl)
  | hashed map =>
    obtain ⟨after, done, cleared⟩ := HashedMap.clear_ends wellFormed true
    refine ⟨hashed after, by simp only [clear, done]; rfl, fun id => ?_⟩
    have renamed : Equiv.swap id after.id id = map.id :=
      (Equiv.swap_apply_left id after.id).trans (cleared.frame wellFormed).1
    exact congrArg hashed (cleared.eq_shift wellFormed renamed rfl rfl rfl rfl)

end Store

/-- What a store looks like inside, whatever its handles and serial numbers: the coloured tree of its keys, or
its rung and the chains of its keys with their hashes. -/
inductive Form (K : Type) where
  | tree (shape : Shape (Held K))
  | table (rung : Rung) (chains : List (List (Held K × UInt64)))

def Store.form : Store K V → Form K
  | ordered map => .tree (map.shape.relabel Tag.key)
  | hashed map => .table map.rung (map.buckets.toList.map (List.map fun link => (link.key, link.hash)))

theorem Store.form_shift (move : Shift) (store : Store K V) : (store.shift move).form = store.form := by
  cases store with
  | ordered map => exact congrArg Form.tree (Shape.relabel_relabel (Tag.shift move.handles) Tag.key map.shape)
  | hashed map =>
    refine congrArg (Form.table map.rung) ?_
    simp only [HashedMap.shift, Array.toList_map, List.map_map]
    congr 1
    funext chain
    exact List.map_map

/-- Whatever a session has done to a store of either kind, and whatever its policy answers: to clear it, or to
give it up, releases exactly as many entries as it has. After a clearing every run of commands, on the store
and on cursors that are opened on it from then on, gets the replies that it gets from a fresh store of the
same policy, of whatever identity, with the counts of transactions and rebuildings ahead by what they were at
the clearing; and after every run the two look alike inside. -/
theorem Session.run_clear_renews (commands : List (Command K V)) :
    ∃ replies session, Session.run {} commands = .ok (replies, session) ∧
      ∀ number store, session.stores.get? number = some store →
        store.dispose = .ok store.size ∧
        ∃ cleared, store.clear = .ok (store.size, cleared) ∧
          ∀ (id : Identity) (uses : List (Use K V)), ∃ replies later fresher,
            runAll use (holding number cleared) uses =
              .ok (replies.map (Reply.counting cleared.transactions cleared.epoch), later) ∧
            runAll use (holding number (Store.build id store.blueprint)) uses = .ok (replies, fresher) ∧
            ∀ place,
              (later.stores.get? place).map Store.form = (fresher.stores.get? place).map Store.form := by
  obtain ⟨replies, session, ran, _, sound⟩ :=
    runAll_keeps (fun _ command sound => Sound.step_answers sound command) commands sound_empty
  refine ⟨replies, session, (run_eq_runAll _ commands).trans ran, fun number store held => ?_⟩
  have wellFormed := sound.wellFormed number store held
  obtain ⟨cleared, done, renewed⟩ := Store.clear_renews wellFormed
  refine ⟨Store.dispose_answers wellFormed, cleared, done, fun id uses => ?_⟩
  have fresh : (holding number (Store.build id store.blueprint)).Sound :=
    sound_holding number (Store.wellFormed_build id store.blueprint)
  have beside := beside_holding (cleared.lead id) number (Store.build id store.blueprint)
  rw [← renewed id] at beside
  obtain ⟨replies, later, fresher, also, went, beside, _⟩ :=
    runAll_lockstep (use_lockstep (cleared.lead id)) uses ⟨beside, fresh⟩
  refine ⟨replies, later, fresher, also, went, fun place => ?_⟩
  rw [((Store.likeness (cleared.lead id)).shows_iff.mp beside).1 place, Option.map_map]
  congr 1
  funext made
  exact Store.form_shift _ made

end KeyedStore
