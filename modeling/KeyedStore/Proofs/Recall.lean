import KeyedStore.Proofs.Tags
import KeyedStore.Proofs.Session
/-!
What cursors remember. A step of a cursor returns the key of a tag of the store; an ordered cursor keeps that key,
as the policy has it remembered, until the next step. So behind a key that a cursor still has stands the tag that
it returned last, wherever it was moved since and whatever became of the entry: the key is held as it was stored,
and one that was stored as lent is the stored one itself.
-/
namespace KeyedStore

variable {K V : Type}

/-- The key that a cursor still has. A hashed cursor remembers no keys. -/
def Cursor.lastKey : Cursor K → Option (Held K)
  | ordered cursor => cursor.lastKey
  | hashed _ => none

/-- A content kept besides the stored one: held in the same way, and the stored one itself if it was lent. -/
structure Held.Recalls {α : Type} (kept stored : Held α) : Prop where
  ownership : kept.ownership = stored.ownership
  lent : stored.ownership = .borrowed → kept = stored

theorem Policy.recalls_rememberKey (policy : Policy K V) (stored : Held K) :
    (policy.rememberKey stored).Recalls stored := by
  refine ⟨Held.ownership_remember policy.copyKey stored, fun lent => ?_⟩
  rw [rememberKey, Held.remember, lent]

/-! ### Tags along a traversal -/

/-- The tag whose entry a step of the cursor returns. -/
def OrderedMap.nextTag (map : OrderedMap K V) (cursor : OrderedCursor K) : Option (Tag K) :=
  if cursor.finished ∨ cursor.owner ≠ map.id then none
  else (cursor.synchronize map).next.map (·.label)

/-- The tag whose entry a step of the cursor returns. -/
def HashedMap.nextTag (map : HashedMap K V) (cursor : HashedCursor) : Option (Tag K) :=
  if cursor.finished ∨ cursor.owner ≠ map.id ∨ cursor.epoch ≠ map.epoch then none
  else map.buckets[cursor.bucket]?.bind fun chain => (map.nextLink chain cursor).map (·.2.tag)

/-- A step that reaches a tag returns its key and leaves the cursor with it, as it is remembered. -/
theorem OrderedMap.advance_tags {map : OrderedMap K V} {cursor moved : OrderedCursor K} {found : Option (K × V)}
    (stepped : map.advance cursor = .ok (found, moved)) :
    found.map (·.1) = (map.nextTag cursor).map (·.key.val) ∧
      ∀ tag, map.nextTag cursor = some tag → moved.lastKey = some (map.policy.rememberKey tag.key) := by
  unfold advance at stepped
  unfold nextTag
  split at stepped
  · rename_i finished
    cases stepped
    simp [finished]
  · rename_i active
    split at stepped
    · rename_i foreign
      cases stepped
      simp [foreign]
    · rename_i owned
      have here : ¬ (cursor.finished = true ∨ cursor.owner ≠ map.id) := not_or.mpr ⟨active, owned⟩
      rw [if_neg here]
      dsimp only at stepped
      split at stepped
      · rename_i ended
        cases stepped
        simp [ended]
      · rename_i spot reached
        obtain ⟨entry, read, stepped⟩ := bind_eq_ok.mp stepped
        obtain ⟨value, _, shown⟩ := bind_eq_ok.mp read
        cases stepped
        cases shown
        rw [reached]
        refine ⟨rfl, ?_⟩
        rintro _ ⟨⟩
        rfl

theorem HashedMap.advance_tags {map : HashedMap K V} {cursor moved : HashedCursor} {found : Option (K × V)}
    (stepped : map.advance cursor = .ok (found, moved)) :
    found.map (·.1) = (map.nextTag cursor).map (·.key.val) := by
  unfold advance at stepped
  unfold nextTag
  split at stepped
  · rename_i finished
    cases stepped
    simp [finished]
  · rename_i active
    split at stepped
    · rename_i foreign
      cases stepped
      simp [foreign]
    · rename_i present
      rw [if_neg (not_or.mpr ⟨active, present⟩)]
      split at stepped
      · rename_i outside
        cases stepped
        simp [outside]
      · rename_i chain inside
        rw [inside, Option.bind_some]
        split at stepped
        · rename_i ended
          cases stepped
          simp [ended]
        · rename_i bucket link reached
          obtain ⟨entry, read, stepped⟩ := bind_eq_ok.mp stepped
          obtain ⟨value, _, shown⟩ := bind_eq_ok.mp read
          cases stepped
          cases shown
          rw [reached]
          rfl

namespace Store

/-- The tag whose entry a step of the cursor returns. A cursor of the other kind gets none. -/
def nextTag (store : Store K V) (cursor : Cursor K) : Option (Tag K) :=
  match store, cursor with
  | ordered map, .ordered cursor => map.nextTag cursor
  | hashed map, .hashed cursor => map.nextTag cursor
  | _, _ => none

/-- The tags whose entries a walk returns. -/
def walkTags (store : Store K V) : Nat → Cursor K → List (Tag K)
  | 0, _ => []
  | limit + 1, cursor =>
    match store.nextTag cursor, store.advance cursor with
    | some tag, .ok (_, cursor) => tag :: store.walkTags limit cursor
    | _, _ => []

/-- The tags whose entries a traversal returns that removes each of them by its key. -/
def consumeTags (granted : Bool) (store : Store K V) : Nat → Cursor K → List (Tag K)
  | 0, _ => []
  | limit + 1, cursor =>
    match store.nextTag cursor, store.advance cursor with
    | some tag, .ok (_, cursor) =>
      match store.remove tag.key.val granted with
      | .ok (_, store) => tag :: consumeTags granted store limit cursor
      | .error _ => []
    | _, _ => []

/-- Some steps of a cursor: the keys that were returned are those of the tags, and the key that the cursor is left
with, if any, is remembered from the last of them, or is the one it had if there was none. -/
structure Passes (cursor moved : Cursor K) (keys : List K) (tags : List (Tag K)) : Prop where
  keys : keys = tags.map (·.key.val)
  recalls : ∀ kept, moved.lastKey = some kept → tags = [] ∧ cursor.lastKey = some kept ∨
    ∃ tag, tags.getLast? = some tag ∧ kept.Recalls tag.key

namespace Passes

variable {cursor moved ended : Cursor K} {keys : List K} {tags : List (Tag K)}

theorem refl (cursor : Cursor K) : Passes cursor cursor [] [] := ⟨rfl, fun _ kept => .inl ⟨rfl, kept⟩⟩

theorem cons {tag : Tag K} {key : K} (one : Passes cursor moved [key] [tag])
    (rest : Passes moved ended keys tags) : Passes cursor ended (key :: keys) (tag :: tags) := by
  constructor
  · rw [List.map_cons, ← rest.keys]
    exact congrArg (· :: keys) (List.head_eq_of_cons_eq one.keys)
  · intro kept still
    refine .inr ?_
    rcases rest.recalls kept still with ⟨rfl, before⟩ | ⟨last, listed, same⟩
    · exact (one.recalls kept before).resolve_left fun nothing => List.cons_ne_nil _ _ nothing.1
    · refine ⟨last, ?_, same⟩
      rw [List.getLast?_cons, listed]
      rfl

end Passes

variable {store after : Store K V} {cursor moved : Cursor K}

/-- A step of a cursor passes the tag that it reaches. -/
theorem advance_passes {found : Option (K × V)} (stepped : store.advance cursor = .ok (found, moved)) :
    Passes cursor moved (found.map (·.1)).toList (store.nextTag cursor).toList := by
  match store, cursor with
  | .ordered map, .ordered cursor =>
    obtain ⟨⟨entry, next⟩, inner, stepped⟩ := bind_eq_ok.mp stepped
    obtain ⟨keys, recalls⟩ := OrderedMap.advance_tags inner
    cases stepped
    constructor
    · rw [keys]
      cases reached : map.nextTag cursor <;> simp [nextTag, reached]
    · intro kept still
      cases reached : map.nextTag cursor with
      | none =>
        rw [reached] at keys
        cases found with
        | none => cases still
        | some entry => cases keys
      | some tag =>
        rw [reached] at keys
        cases found with
        | none => cases keys
        | some entry =>
          obtain rfl := Option.some.inj (still.symm.trans (recalls tag reached))
          exact .inr ⟨tag, by rw [nextTag, reached]; rfl, map.policy.recalls_rememberKey tag.key⟩
  | .hashed map, .hashed cursor =>
    obtain ⟨⟨entry, next⟩, inner, stepped⟩ := bind_eq_ok.mp stepped
    have keys := HashedMap.advance_tags inner
    cases stepped
    refine ⟨?_, nofun⟩
    rw [keys]
    cases reached : map.nextTag cursor <;> simp [nextTag, reached]
  | .ordered map, .hashed cursor =>
    cases stepped
    exact ⟨rfl, nofun⟩
  | .hashed map, .ordered cursor =>
    cases stepped
    exact ⟨rfl, nofun⟩

/-- A step returns an entry exactly if it reaches a tag. -/
theorem advance_found {found : Option (K × V)} (stepped : store.advance cursor = .ok (found, moved)) :
    found = none ∧ store.nextTag cursor = none ∨
      ∃ entry tag, found = some entry ∧ store.nextTag cursor = some tag ∧ entry.1 = tag.key.val := by
  have keys := (advance_passes stepped).keys
  cases reached : store.nextTag cursor with
  | none =>
    rw [reached] at keys
    cases found with
    | none => exact .inl ⟨rfl, rfl⟩
    | some entry => cases keys
  | some tag =>
    rw [reached] at keys
    cases found with
    | none => cases keys
    | some entry => exact .inr ⟨entry, tag, rfl, rfl, List.head_eq_of_cons_eq keys⟩

/-- A walk passes the tags whose entries it returns. -/
theorem walk_passes {limit : Nat} {found : List (K × V)} (walked : store.walk limit cursor = .ok (found, moved)) :
    Passes cursor moved (found.map (·.1)) (store.walkTags limit cursor) := by
  induction limit generalizing cursor found with
  | zero =>
    cases walked
    exact .refl _
  | succ limit ih =>
    obtain ⟨⟨next, passing⟩, stepped, walked⟩ := bind_eq_ok.mp walked
    have one := advance_passes stepped
    rcases advance_found stepped with ⟨rfl, reached⟩ | ⟨entry, tag, rfl, reached, _⟩
    · cases walked
      rw [walkTags, reached]
      rwa [reached] at one
    · obtain ⟨⟨rest, ended⟩, further, walked⟩ := bind_eq_ok.mp walked
      cases walked
      rw [reached] at one
      rw [walkTags, reached, show store.advance cursor = _ from stepped]
      exact one.cons (ih further)

/-- The same where each entry is removed as soon as it has been returned. -/
theorem consume_passes (wellFormed : store.WellFormed) {limit : Nat} {granted : Bool}
    {found : List ((K × V) × Option (Held V))}
    (consumed : store.consume limit cursor granted = .ok (found, moved, after)) :
    Passes cursor moved (found.map (·.1.1)) (consumeTags granted store limit cursor) := by
  induction limit generalizing store cursor found with
  | zero =>
    cases consumed
    exact .refl _
  | succ limit ih =>
    obtain ⟨⟨next, passing⟩, stepped, consumed⟩ := bind_eq_ok.mp consumed
    have one := advance_passes stepped
    rcases advance_found stepped with ⟨rfl, reached⟩ | ⟨entry, tag, rfl, reached, key⟩
    · cases consumed
      rw [consumeTags, reached]
      rwa [reached] at one
    · obtain ⟨value, middle, removed, evolves, shrinks⟩ := remove_shrinks wellFormed entry.1 granted
      obtain ⟨_, same, consumed⟩ := bind_eq_ok.mp consumed
      cases removed.symm.trans same
      obtain ⟨⟨rest, ended, left⟩, further, consumed⟩ := bind_eq_ok.mp consumed
      cases consumed
      rw [reached] at one
      rw [consumeTags, reached, show store.advance cursor = _ from stepped]
      simp only [← key, removed]
      exact one.cons (ih evolves.wellFormed further)

/-- What a step reaches is a tag of the store. -/
theorem nextTag_mem (bears : store.Bears cursor) {tag : Tag K} (reached : store.nextTag cursor = some tag) :
    tag ∈ store.tags := by
  match store, cursor with
  | .ordered map, .ordered cursor =>
    simp only [nextTag, OrderedMap.nextTag] at reached
    split at reached
    · cases reached
    · rename_i here
      obtain ⟨spot, next, rfl⟩ := Option.map_eq_some_iff.mp reached
      have admits : map.Admits cursor := bears.resolve_left here
      apply admits.onward_suffix.subset
      rw [next]
      exact List.mem_cons_self
  | .hashed map, .hashed cursor =>
    simp only [nextTag, HashedMap.nextTag] at reached
    split at reached
    · cases reached
    · obtain ⟨chain, inside, reached⟩ := Option.bind_eq_some_iff.mp reached
      obtain ⟨⟨bucket, link⟩, next, rfl⟩ := Option.map_eq_some_iff.mp reached
      exact List.mem_map_of_mem (HashedMap.mem_links_of_nextLink inside next)
  | .ordered map, .hashed cursor => cases reached
  | .hashed map, .ordered cursor => cases reached

theorem mem_of_mem_walkTags (wellFormed : store.WellFormed) (bears : store.Bears cursor) {limit : Nat} :
    ∀ tag ∈ store.walkTags limit cursor, tag ∈ store.tags := by
  induction limit generalizing cursor with
  | zero => nofun
  | succ limit ih =>
    obtain ⟨found, next, stepped, step⟩ := advance_steps wellFormed bears
    rcases advance_found stepped with ⟨rfl, reached⟩ | ⟨entry, tag, rfl, reached, _⟩
    · rw [walkTags, reached]
      nofun
    · rw [walkTags, reached, stepped]
      exact List.forall_mem_cons.mpr ⟨nextTag_mem bears reached, ih (.inr (step.stands rfl))⟩

theorem mem_of_mem_consumeTags (wellFormed : store.WellFormed) (bears : store.Bears cursor) {limit : Nat}
    {granted : Bool} : ∀ tag ∈ consumeTags granted store limit cursor, tag ∈ store.tags := by
  induction limit generalizing store cursor with
  | zero => nofun
  | succ limit ih =>
    obtain ⟨found, next, stepped, step⟩ := advance_steps wellFormed bears
    rcases advance_found stepped with ⟨rfl, reached⟩ | ⟨entry, tag, rfl, reached, _⟩
    · rw [consumeTags, reached]
      nofun
    · obtain ⟨value, left, removed, evolves, shrinks⟩ := remove_shrinks wellFormed tag.key.val granted
      have stands := evolves.stands next (step.stands rfl)
      rw [consumeTags, reached, show store.advance cursor = _ from stepped]
      simp only [removed]
      refine List.forall_mem_cons.mpr ⟨nextTag_mem bears reached, fun other member => ?_⟩
      exact (shrinks.kept other (ih evolves.wellFormed (.inr stands) other member)).1

end Store

/-! ### Sessions -/

/-- An entry that was returned to a cursor, by its tag. -/
structure Returned (K : Type) where
  place : Nat
  tag : Tag K

/-- The tags returned to the cursor of one number. -/
def returnedTo (place : Nat) (past : List (Returned K)) : List (Tag K) :=
  (past.filter (·.place = place)).map (·.tag)

/-- The keys that cursors were given in a reply. -/
def Command.given : Command K V → Reply K V → List K
  | .advance _ _, .entry found => (found.map (·.1)).toList
  | .drain _ _, .entries found => found.map (·.1)
  | .consume .., .consumed found => found.map (·.1.1)
  | _, _ => []

namespace Session

/-- What a command returns to a cursor. -/
def returned (session : Session K V) : Command K V → List (Returned K)
  | .advance place number => along session place number fun store => (store.nextTag · |>.toList)
  | .drain place number => along session place number fun store => store.walkTags (store.size + 1)
  | .consume place number limit granted =>
    along session place number fun store => Store.consumeTags granted store limit
  | _ => []
where
  along (session : Session K V) (place number : Nat) (tags : Store K V → Cursor K → List (Tag K)) :
      List (Returned K) :=
    match session.stores.get? number, session.cursors.get? place with
    | some store, some cursor => (tags store cursor).map (Returned.mk place)
    | _, _ => []

/-- What some commands return to cursors, the earliest first. -/
def returns (session : Session K V) (commands : List (Command K V)) : List (Returned K) :=
  noteSteps step (fun session command _ => session.returned command) session commands

variable {session after : Session K V} {command : Command K V} {reply : Reply K V}

/-- What a command does to the cursors: none is moved, and there may be a new one; or one is moved, along tags of
one of the stores. -/
inductive Moves (session after : Session K V) : List (Returned K) → List K → Prop where
  | still (cursors : ∀ place cursor, after.cursors.get? place = some cursor →
      session.cursors.get? place = some cursor ∨ cursor.lastKey = none) : Moves session after [] []
  | moved {place number : Nat} {store : Store K V} {cursor moved : Cursor K} {keys : List K} {tags : List (Tag K)}
      (held : session.stores.get? number = some store) (stood : session.cursors.get? place = some cursor)
      (named : ∀ tag ∈ tags, tag ∈ store.tags) (passes : Store.Passes cursor moved keys tags)
      (cursors : after.cursors = session.cursors.set place moved) :
      Moves session after (tags.map (Returned.mk place)) keys

theorem moves_of_same (cursors : after.cursors = session.cursors) : session.Moves after [] [] :=
  .still fun _ _ stood => .inl (cursors ▸ stood)

/-- A cursor that follows a store passes tags of it, if the action does. -/
theorem follow_moves {place number : Nat}
    {action : Store K V → Cursor K → Except Fault (Reply K V × Cursor K × Store K V)}
    {tags : Store K V → Cursor K → List (Tag K)} {keys : List K}
    (followed : session.follow place number action = .ok (reply, after))
    (refused : reply = .noStore ∨ reply = .noCursor → keys = [])
    (done : ∀ store cursor moved later, session.stores.get? number = some store →
      session.cursors.get? place = some cursor → action store cursor = .ok (reply, moved, later) →
      (∀ tag ∈ tags store cursor, tag ∈ store.tags) ∧ Store.Passes cursor moved keys (tags store cursor)) :
    session.Moves after (returned.along session place number tags) keys := by
  unfold follow at followed
  unfold returned.along
  split at followed
  · rename_i missing
    cases followed
    rw [missing, refused (.inl rfl)]
    exact moves_of_same rfl
  · rename_i store held missing
    cases followed
    rw [held, missing, refused (.inr rfl)]
    exact moves_of_same rfl
  · rename_i store cursor held stood
    obtain ⟨⟨said, moved, later⟩, acted, followed⟩ := bind_eq_ok.mp followed
    cases followed
    obtain ⟨named, passes⟩ := done store cursor moved later held stood acted
    rw [held, stood]
    exact .moved held stood named passes rfl

/-- Every command does one of these, and gives cursors the keys of the tags that they pass. -/
theorem step_moves (sound : session.Sound) (stepped : session.step command = .ok (reply, after)) :
    session.Moves after (session.returned command) (command.given reply) := by
  have changing : ∀ {number action}, session.change number action = .ok (reply, after) →
      session.Moves after [] [] := by
    intro number action changed
    rcases change_inverts changed with rfl | ⟨_, _, _, _, rfl⟩ <;> exact moves_of_same rfl
  cases command with
  | create number blueprint =>
    cases stepped
    exact moves_of_same rfl
  | insert number key value granted => exact changing stepped
  | remove number key granted => exact changing stepped
  | clear number granted => exact changing stepped
  | dispose number => rcases dispose_inverts stepped with rfl | rfl <;> exact moves_of_same rfl
  | openCursor place number =>
    rcases openCursor_inverts stepped with rfl | ⟨store, _, started, rfl⟩
    · exact moves_of_same rfl
    · cases started
      refine .still fun other cursor stood => ?_
      rcases Roster.placed_or_get?_of_set stood with ⟨_, rfl⟩ | old
      · exact .inr (by cases store <;> rfl)
      · exact .inl old
  | closeCursor place =>
    rcases closeCursor_inverts stepped with rfl | rfl
    · exact moves_of_same rfl
    · exact .still fun other cursor stood => .inl (Roster.get?_of_erase stood)
  | advance place number =>
    refine follow_moves stepped (by rintro (rfl | rfl) <;> rfl) fun store cursor moved later held stood done => ?_
    obtain ⟨⟨found, next⟩, advanced, done⟩ := bind_eq_ok.mp done
    cases done
    refine ⟨fun tag member => ?_, Store.advance_passes advanced⟩
    exact Store.nextTag_mem (sound.borne number store place cursor held stood) (Option.mem_toList.mp member)
  | drain place number =>
    refine follow_moves stepped (by rintro (rfl | rfl) <;> rfl) fun store cursor moved later held stood done => ?_
    obtain ⟨⟨found, next⟩, walked, done⟩ := bind_eq_ok.mp done
    cases done
    have wellFormed := sound.wellFormed number store held
    exact ⟨Store.mem_of_mem_walkTags wellFormed (sound.borne number store place cursor held stood),
      Store.walk_passes walked⟩
  | consume place number limit granted =>
    refine follow_moves stepped (by rintro (rfl | rfl) <;> rfl) fun store cursor moved later held stood done => ?_
    obtain ⟨⟨found, next, left⟩, consumed, done⟩ := bind_eq_ok.mp done
    cases done
    have wellFormed := sound.wellFormed number store held
    exact ⟨Store.mem_of_mem_consumeTags wellFormed (sound.borne number store place cursor held stood),
      Store.consume_passes wellFormed consumed⟩
  | _ => exact moves_of_same (congrArg cursors (eq_of_asks rfl stepped))

/-- The keys that cursors are given are those of tags of the stores. -/
theorem Moves.names {given : List K} {returned : List (Returned K)} (moves : session.Moves after returned given) :
    given = returned.map (·.tag.key.val) ∧ ∀ item ∈ returned, ∃ number store,
      session.stores.get? number = some store ∧ item.tag ∈ store.tags := by
  cases moves with
  | still => exact ⟨rfl, nofun⟩
  | @moved place number store cursor moved keys tags held stood named passes cursors =>
    constructor
    · rw [passes.keys, List.map_map]
      rfl
    · intro item member
      obtain ⟨tag, inside, rfl⟩ := List.mem_map.mp member
      exact ⟨number, store, held, named tag inside⟩

/-- Behind every key that a cursor still has stands the tag that was returned last under its number. -/
structure Recalled (session : Session K V) (past : List (Returned K)) : Prop where
  sound : session.Sound
  recalls : ∀ place cursor kept, session.cursors.get? place = some cursor → cursor.lastKey = some kept →
    ∃ tag, (returnedTo place past).getLast? = some tag ∧ kept.Recalls tag.key

theorem recalled_empty : ({} : Session K V).Recalled [] := ⟨sound_empty, nofun⟩

theorem returnedTo_concat (place other : Nat) (past : List (Returned K)) (tags : List (Tag K)) :
    returnedTo place (past ++ tags.map (Returned.mk other)) =
      returnedTo place past ++ if other = place then tags else [] := by
  rw [returnedTo, returnedTo, List.filter_append, List.map_append]
  congr 1
  split
  · rename_i same
    simp [List.filter_map, Function.comp_def, same]
  · rename_i different
    simp [List.filter_map, Function.comp_def, different]

/-- One command keeps what cursors recall. -/
theorem Recalled.step {past : List (Returned K)} (recalled : session.Recalled past) (command : Command K V) :
    ∃ reply after, session.step command = .ok (reply, after) ∧ after.Recalled (past ++ session.returned command) := by
  obtain ⟨reply, after, stepped, sound⟩ := recalled.sound.step_answers command
  refine ⟨reply, after, stepped, sound, fun place cursor kept stood still => ?_⟩
  have moves := step_moves recalled.sound stepped
  generalize session.returned command = returned at moves ⊢
  generalize command.given reply = keys at moves
  cases moves with
  | still cursors =>
    rw [List.append_nil]
    rcases cursors place cursor stood with old | fresh
    · exact recalled.recalls place cursor kept old still
    · rw [fresh] at still
      cases still
  | @moved other number store former moved keys tags held standing named passes cursors =>
    rw [cursors, Roster.get?_set] at stood
    rw [returnedTo_concat]
    split at stood
    · rename_i same
      obtain rfl := Option.some.inj stood
      rw [if_pos same.symm]
      rcases passes.recalls kept still with ⟨rfl, before⟩ | ⟨tag, listed, recalls⟩
      · rw [List.append_nil]
        exact recalled.recalls place former kept (same ▸ standing) before
      · exact ⟨tag, by rw [List.getLast?_append, listed]; rfl, recalls⟩
    · rename_i different
      rw [if_neg (Ne.symm different), List.append_nil]
      exact recalled.recalls place cursor kept stood still

theorem run_recalls (commands : List (Command K V)) : ∃ replies session,
    runAll step {} commands = .ok (replies, session) ∧ session.Recalled (returns {} commands) := by
  have keeps : ∀ (session : Session K V) (past : List (Returned K)) (command : Command K V), session.Recalled past →
      ∃ reply after, step session command = .ok (reply, after) ∧
        after.Recalled (past ++ session.returned command) :=
    fun _ _ command recalled => recalled.step command
  exact runAll_attests keeps commands recalled_empty

end Session

end KeyedStore
