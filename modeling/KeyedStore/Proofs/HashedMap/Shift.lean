import KeyedStore.HashedMap.Cursor
import KeyedStore.Proofs.Shift
import KeyedStore.Proofs.HashedMap.Band
/-!
A hashed map that is moved along does what it does where it was: every operation and every step of a cursor
gives the same answer, and leaves what it leaves there, moved along. A map that has been cleared is a fresh
one, moved along.
-/
namespace KeyedStore

variable {K V : Type}

def Link.shift (move : Shift) (link : Link K) : Link K :=
  { link with handle := link.handle.shift move.handles, serial := link.serial + move.serials }

/-- The same chain of links that are moved along. -/
def Chain.shift (move : Shift) (chain : Chain K) : Chain K := chain.map (Link.shift move)

namespace HashedMap

/-- The same map with other handles and serial numbers, another identity and higher counts. -/
def shift (move : Shift) (map : HashedMap K V) : HashedMap K V :=
  { map with
    id := move.rename map.id
    buckets := map.buckets.map (Chain.shift move)
    slots := map.slots.shift move.handles
    nextSerial := map.nextSerial + move.serials
    transactions := map.transactions + move.transactions
    epoch := map.epoch + move.epoch }

end HashedMap

/-- The same cursor on the map that is moved along. -/
def HashedCursor.shift (move : Shift) (cursor : HashedCursor) : HashedCursor :=
  { cursor with
    owner := move.rename cursor.owner
    last := cursor.last.map fun (handle, serial) => (handle.shift move.handles, serial + move.serials)
    epoch := cursor.epoch + move.epoch }

/-! ### Chains -/

namespace Chain

variable (move : Shift) (chain : Chain K)

theorem find?_answers_shift (policy : HashPolicy K V) (key : K) (hash : UInt64) :
    (chain.shift move).find? (HashedMap.answers policy key hash) =
      (chain.find? (HashedMap.answers policy key hash)).map (Link.shift move) :=
  List.find?_map

theorem eraseP_shift (handle : Handle) :
    (chain.shift move).eraseP (·.handle = handle.shift move.handles) =
      shift move (chain.eraseP (·.handle = handle)) := by
  rw [shift, shift, List.eraseP_map]
  congr 2
  funext link
  simp [Link.shift, Handle.shift_inj]

theorem following_shift (handle : Handle) : following (chain.shift move) (handle.shift move.handles) =
    (chain.following handle).map (Link.shift move) := by
  have rest : (chain.shift move).dropWhile (·.handle ≠ handle.shift move.handles) =
      (chain.dropWhile (·.handle ≠ handle)).map (Link.shift move) := by
    rw [shift, List.dropWhile_map]
    congr 2
    funext link
    simp [Link.shift, Handle.shift_inj]
  rw [following, following, rest, ← List.map_tail, List.head?_map]

theorem beyond_shift (serial : Nat) : beyond (chain.shift move) (serial + move.serials) =
    (chain.beyond serial).map (Link.shift move) := by
  rw [beyond, beyond, shift, List.find?_map]
  congr 2
  funext link
  simp [Link.shift]

end Chain

namespace HashedMap

variable (move : Shift) (map : HashedMap K V)

theorem bucketCount_shift : (map.shift move).bucketCount = map.bucketCount := Array.size_map

theorem links_shift : (map.shift move).links = map.links.map (Link.shift move) := by
  simp only [links, shift, Array.toList_map]
  exact List.map_flatten.symm

theorem size_shift : (map.shift move).size = map.size := rfl

theorem chainOf_shift (hash : UInt64) : (map.shift move).chainOf hash =
    (fun (bucket, chain) => (bucket, chain.shift move)) <$> map.chainOf hash := by
  have held : (map.shift move).buckets[bucketIndex hash map.bucketCount]? =
      map.buckets[bucketIndex hash map.bucketCount]?.map (Chain.shift move) := Array.getElem?_map
  simp only [chainOf, bucketCount_shift, held]
  cases map.buckets[bucketIndex hash map.bucketCount]? <;> rfl

theorem find_shift (key : K) : (map.shift move).find key = Option.map (Link.shift move) <$> map.find key := by
  simp only [find, chainOf_shift]
  refine bind_carried ?_
  rintro ⟨bucket, chain⟩
  exact congrArg Except.ok (Chain.find?_answers_shift move chain map.policy key (map.policy.hash key))

theorem entry_shift (link : Link K) : (map.shift move).entry (link.shift move) = map.entry link := by
  simp [entry, shift, Link.shift]

theorem lookupEntry_shift (key : K) : (map.shift move).lookupEntry key = map.lookupEntry key := by
  simp only [lookupEntry, find_shift]
  cases map.find key with
  | error fault => rfl
  | ok found =>
    cases found with
    | none => rfl
    | some link => simp [bind, Except.bind, entry_shift]

theorem attach_shift (link : Link K) : (map.shift move).attach (link.shift move) =
    shift move <$> map.attach link := by
  simp only [attach, Link.shift, chainOf_shift]
  refine bind_carried ?_
  rintro ⟨bucket, chain⟩
  simp [shift, Chain.shift, Link.shift, Nat.add_right_comm, pure, Except.pure]

theorem detach_shift (link : Link K) : (map.shift move).detach (link.shift move) =
    shift move <$> map.detach link := by
  simp only [detach, Link.shift, chainOf_shift]
  refine bind_carried ?_
  rintro ⟨bucket, chain⟩
  have erased := Chain.eraseP_shift move chain link.handle
  simp [shift, pure, Except.pure]
  exact congrArg (Array.setIfInBounds _ bucket) erased

theorem rebuild_shift (rung : Rung) : (map.shift move).rebuild rung = shift move <$> map.rebuild rung := by
  have bare : ({ map.shift move with rung := rung, buckets := Array.replicate rung.size [] } : HashedMap K V) =
      shift move { map with rung := rung, buckets := Array.replicate rung.size [] } := by
    simp [shift, Chain.shift]
  simp only [rebuild, bare, links_shift]
  rw [foldlM_carried (attach_shift move)]
  refine bind_carried fun filled => ?_
  simp [shift, Nat.add_right_comm, pure, Except.pure]

theorem settle_shift (granted : Bool) : (map.shift move).settle granted = shift move <$> map.settle granted := by
  simp only [settle, size_shift, show (map.shift move).rung = map.rung from rfl]
  cases map.rung.towards? map.size with
  | none => rfl
  | some rung =>
    cases granted with
    | false => rfl
    | true => exact rebuild_shift move map rung

theorem insert_shift (key : Held K) (value : Held V) (granted : Bool) : (map.shift move).insert key value granted =
    (fun (outcome, after) => (outcome, after.shift move)) <$> map.insert key value granted := by
  simp only [insert, find_shift]
  refine bind_carried fun found => ?_
  cases found with
  | some link =>
    have replaced := Slots.replace_shift move.handles map.slots link.handle (map.policy.base.secureValue value)
    cases kept : map.noOverwrite with
    | true => simp [shift, kept, pure, Except.pure]
    | false =>
      simp only [Option.map_some, shift, kept, Link.shift, Bool.false_eq_true, if_false, replaced]
      exact bind_carried fun slots => rfl
  | none =>
    simp only [Option.map_none, settle_shift]
    cases full : map.slots.isFull with
    | true => simp [shift, full, pure, Except.pure]
    | false =>
      simp only [show (map.shift move).slots.isFull = false from full, Bool.false_eq_true, if_false]
      refine bind_carried fun settled => ?_
      have attached := attach_shift move settled (settled.fresh key)
      have link : (settled.fresh key).shift move = (settled.shift move).fresh key := by
        simp [shift, fresh, Link.shift]
      rw [link] at attached
      change ((settled.shift move).attach ((settled.shift move).fresh key) >>= _) =
        _ <$> (settled.attach _ >>= _)
      rw [attached]
      refine bind_carried fun longer => ?_
      simp [shift, Nat.add_right_comm, pure, Except.pure]

theorem remove_shift (key : K) (granted : Bool) : (map.shift move).remove key granted =
    (fun (value, after) => (value, after.shift move)) <$> map.remove key granted := by
  simp only [remove, find_shift]
  refine bind_carried fun found => ?_
  cases found with
  | none => rfl
  | some link =>
    have taken := Slots.take_shift move.handles map.slots link.handle
    simp only [Option.map_some, detach_shift]
    refine bind_carried fun detached => ?_
    change ((map.slots.shift move.handles).take (link.handle.shift move.handles) >>= _) = _
    rw [taken]
    refine bind_carried ?_
    rintro ⟨value, slots⟩
    have shorter : ({ detached.shift move with
        slots := slots.shift move.handles
        transactions := (map.shift move).transactions + 1 } : HashedMap K V) =
        shift move { detached with slots := slots, transactions := map.transactions + 1 } := by
      simp [shift, Nat.add_right_comm]
    by_cases sparse : slots.size < detached.rung.shrinkBelow
    · have still : (slots.shift move.handles).size < (detached.shift move).rung.shrinkBelow := sparse
      simp only [size, sparse, still, if_true, shorter, settle_shift]
      exact bind_carried fun _ => rfl
    · have still : ¬ (slots.shift move.handles).size < (detached.shift move).rung.shrinkBelow := sparse
      simp only [size, sparse, still, if_false, shorter]
      rfl

theorem releaseAll_shift : (map.shift move).releaseAll =
    (fun (released, after) => (released, after.shift move)) <$> map.releaseAll := by
  have released : (map.links.map (Link.shift move)).foldlM
      (fun slots link => do return (← slots.take link.handle).2) (map.slots.shift move.handles) =
      Slots.shift move.handles <$>
        map.links.foldlM (fun slots link => do return (← slots.take link.handle).2) map.slots := by
    refine foldlM_carried (fun slots link => ?_) _ _
    simp only [Link.shift, Slots.take_shift]
    exact bind_carried fun _ => rfl
  simp only [releaseAll, links_shift, show (map.shift move).slots = map.slots.shift move.handles from rfl,
    released]
  refine bind_carried fun slots => ?_
  by_cases nothing : map.links.length = 0 <;>
    simp [nothing, shift, bucketCount, Chain.shift, Nat.add_right_comm, pure, Except.pure]

theorem clear_shift (granted : Bool) : (map.shift move).clear granted =
    (fun (released, after) => (released, after.shift move)) <$> map.clear granted := by
  simp only [clear, releaseAll_shift]
  refine bind_carried ?_
  rintro ⟨released, bare⟩
  by_cases lowest : bare.rung = Rung.lowest
  · simp [show (bare.shift move).rung = Rung.lowest from lowest, lowest, pure, Except.pure]
  · simp only [show (bare.shift move).rung = bare.rung from rfl, lowest, if_false, rebuild_shift]
    cases granted with
    | false => rfl
    | true => exact bind_carried fun _ => rfl

theorem chainSizes_shift : (map.shift move).chainSizes = map.chainSizes := by
  simp only [chainSizes, shift, Array.toList_map, List.map_map]
  congr 1
  funext chain
  exact List.length_map _

/-! ### Cursors -/

theorem start_shift : (map.shift move).start = map.start.shift move := rfl

theorem upcoming_shift (chain : Chain K) (last : Option (Handle × Nat)) :
    (map.shift move).upcoming (chain.shift move)
        (last.map fun (handle, serial) => (handle.shift move.handles, serial + move.serials)) =
      (map.upcoming chain last).map (Link.shift move) := by
  cases last with
  | none => exact List.head?_map
  | some place =>
    have live := Slots.contains_shift move.handles map.slots place.1
    simp only [Option.map_some, upcoming, Chain.following_shift, Chain.beyond_shift,
      show (map.shift move).slots = map.slots.shift move.handles from rfl, live]
    cases map.slots.contains place.1 <;> rfl

theorem firstFrom_shift (buckets : Array (Chain K)) (bucket : Nat) :
    firstFrom (buckets.map (Chain.shift move)) bucket =
      (firstFrom buckets bucket).map fun (bucket, link) => (bucket, link.shift move) := by
  fun_induction firstFrom buckets bucket with
  | case1 bucket within link rest held =>
    rw [firstFrom]
    simp [within, held, Chain.shift]
  | case2 bucket within held ih =>
    rw [firstFrom]
    simpa [within, held, Chain.shift] using ih
  | case3 bucket outside =>
    rw [firstFrom]
    simp [outside]

theorem nextLink_shift (chain : Chain K) (cursor : HashedCursor) :
    (map.shift move).nextLink (chain.shift move) (cursor.shift move) =
      (map.nextLink chain cursor).map fun (bucket, link) => (bucket, link.shift move) := by
  have upcoming := upcoming_shift move map chain cursor.last
  have further := firstFrom_shift move map.buckets (cursor.bucket + 1)
  simp only [nextLink, HashedCursor.shift, upcoming]
  cases map.upcoming chain cursor.last with
  | some link => rfl
  | none => exact further

theorem advance_shift (cursor : HashedCursor) : (map.shift move).advance (cursor.shift move) =
    (fun (found, moved) => (found, moved.shift move)) <$> map.advance cursor := by
  have outdated : ((cursor.shift move).owner ≠ (map.shift move).id ∨
      (cursor.shift move).epoch ≠ (map.shift move).epoch) =
      (cursor.owner ≠ map.id ∨ cursor.epoch ≠ map.epoch) := by
    simp [HashedCursor.shift, shift]
  have held : (map.shift move).buckets[cursor.bucket]? = map.buckets[cursor.bucket]?.map (Chain.shift move) :=
    Array.getElem?_map
  simp only [advance, outdated, show (cursor.shift move).finished = cursor.finished from rfl,
    show (cursor.shift move).bucket = cursor.bucket from rfl, held]
  by_cases finished : cursor.finished = true
  · simp [finished]
  by_cases late : cursor.owner ≠ map.id ∨ cursor.epoch ≠ map.epoch
  · simp only [finished, late, Bool.false_eq_true, if_true, if_false]
    rfl
  simp only [finished, late, Bool.false_eq_true, if_false]
  cases map.buckets[cursor.bucket]? with
  | none => rfl
  | some chain =>
    simp only [Option.map_some, nextLink_shift]
    cases map.nextLink chain cursor with
    | none => simp [HashedCursor.stop, HashedCursor.shift, bucketCount_shift]
    | some found =>
      simp only [Option.map_some, entry_shift]
      cases map.entry found.2 <;> rfl

/-! ### Clearing -/

theorem buckets_of_empty {map : HashedMap K V} (sized : map.bucketCount = map.rung.size)
    (empty : map.links = []) :
    map.buckets = Array.replicate map.rung.size [] := by
  refine Array.ext (by rw [Array.size_replicate]; exact sized) fun index within _ => ?_
  have member : map.buckets[index] ∈ map.buckets.toList := by simp
  rw [Array.getElem_replicate]
  exact List.flatten_eq_nil_iff.mp empty _ member

/-- A map that has been cleared is a fresh one, moved along everything that it has counted. -/
theorem Cleared.eq_shift {map after : HashedMap K V} (cleared : map.Cleared true after)
    (wellFormed : map.WellFormed) {move : Shift} {id : Identity} (renamed : move.rename id = map.id)
    (handles : move.handles = after.slots.next.index) (serials : move.serials = after.nextSerial)
    (transactions : move.transactions = after.transactions) (epoch : move.epoch = after.epoch) :
    after = shift move { id, policy := map.policy, noOverwrite := map.noOverwrite } := by
  obtain ⟨same, policy, noOverwrite, nothing, _⟩ := cleared.frame wellFormed
  have kept := cleared.wellFormed wellFormed
  have rung : after.rung = Rung.lowest := (cleared.rung_eq wellFormed).1
  have empty : after.links = [] := List.length_eq_zero_iff.mp (kept.size_eq.symm.trans nothing)
  have buckets := buckets_of_empty kept.chained.sized empty
  have unused : after.slots.InUse [] := by
    have inUse := kept.inUse
    rwa [empty] at inUse
  have slots := Slots.eq_shift_empty unused
  rw [← handles] at slots
  rw [rung] at buckets
  rcases after with ⟨_, _, _, _, _, _, _, _, _⟩
  simp only at same policy noOverwrite rung buckets slots serials transactions epoch
  subst same policy noOverwrite rung buckets
  simp [shift, renamed, ← slots, serials, transactions, epoch, Chain.shift]

end HashedMap

end KeyedStore
