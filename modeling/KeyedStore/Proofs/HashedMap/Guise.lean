import KeyedStore.HashedMap.Cursor
import KeyedStore.Proofs.Guise
/-!
A hashed map under a guise of its values: every operation answers what it answers, under the guise, and leaves
what it leaves, and its chains never feel the values. Cursors hold no values, and are the same.
-/
namespace KeyedStore.HashedMap

variable {K V W : Type}

/-- The same chains over values under the guise. -/
def guise (guise : Guise V W) (map : HashedMap K V) : HashedMap K W where
  id := map.id
  policy := map.policy.guise guise
  noOverwrite := map.noOverwrite
  rung := map.rung
  buckets := map.buckets
  slots := map.slots.map guise.held
  nextSerial := map.nextSerial
  transactions := map.transactions
  epoch := map.epoch

theorem guise_plain (map : HashedMap K V) : map.guise .plain = map := by
  have same : map.slots.map (Guise.plain (V := V)).held = map.slots := Slots.map_id map.slots
  simp only [guise, same]
  rfl

variable (look : Guise V W) (map : HashedMap K V)

theorem find_guise (key : K) : (map.guise look).find key = map.find key := rfl

theorem size_guise : (map.guise look).size = map.size := rfl

theorem entry_guise (link : Link K) : (map.guise look).entry link = look.pair <$> map.entry link := by
  simp only [entry, guise, Slots.fetch_map]
  refine bind_carried fun value => ?_
  simp only [Guise.pair, look.val_held, pure, Except.pure, ok_carried]

theorem lookupEntry_guise (key : K) :
    (map.guise look).lookupEntry key = Option.map look.pair <$> map.lookupEntry key := by
  simp only [lookupEntry, find_guise]
  refine bind_shown fun found => ?_
  cases found with
  | none => rfl
  | some link =>
    simp only [entry_guise]
    exact bind_carried fun _ => rfl

theorem lookup_guise (key : K) : (map.guise look).lookup key = Option.map look.val <$> map.lookup key := by
  simp only [lookup, lookupEntry_guise]
  refine bind_carried fun found => ?_
  cases found <;> rfl

/-! ### Chains -/

theorem attach_guise (link : Link K) : (map.guise look).attach link = guise look <$> map.attach link := by
  simp only [attach, show (map.guise look).chainOf link.hash = map.chainOf link.hash from rfl]
  exact bind_shown fun _ => rfl

theorem detach_guise (link : Link K) : (map.guise look).detach link = guise look <$> map.detach link := by
  simp only [detach, show (map.guise look).chainOf link.hash = map.chainOf link.hash from rfl]
  exact bind_shown fun _ => rfl

theorem attachAll_guise (links : List (Link K)) :
    links.foldlM attach (map.guise look) = guise look <$> links.foldlM attach map := by
  induction links generalizing map with
  | nil => rfl
  | cons link links ih =>
    rw [List.foldlM_cons, List.foldlM_cons, attach_guise]
    exact bind_carried ih

theorem rebuild_guise (rung : Rung) : (map.guise look).rebuild rung = guise look <$> map.rebuild rung := by
  have bare := attachAll_guise look { map with rung := rung, buckets := Array.replicate rung.size [] } map.links
  refine (congrArg (· >>= _) bare).trans ?_
  exact bind_carried fun _ => rfl

theorem settle_guise (granted : Bool) : (map.guise look).settle granted = guise look <$> map.settle granted := by
  simp only [settle, size_guise, show (map.guise look).rung = map.rung from rfl]
  cases map.rung.towards? map.size with
  | none => rfl
  | some rung =>
    cases granted with
    | false => rfl
    | true => exact rebuild_guise look map rung

/-! ### Operations -/

theorem insert_guise (key : Held K) (value : Held V) (granted : Bool) :
    (map.guise look).insert key (look.held value) granted =
      (fun (outcome, after) => (outcome, after.guise look)) <$> map.insert key value granted := by
  simp only [insert, find_guise]
  refine bind_shown fun found => ?_
  cases found with
  | some link =>
    have secured := map.policy.base.secureValue_guise look value
    cases kept : map.noOverwrite with
    | true => simp [guise, kept, pure, Except.pure]
    | false =>
      simp only [guise, HashPolicy.guise, kept, secured, Slots.replace_map, Bool.false_eq_true, if_false]
      exact bind_carried fun slots => rfl
  | none =>
    simp only [settle_guise]
    cases full : map.slots.isFull with
    | true => simp [guise, Slots.isFull_map, full, pure, Except.pure]
    | false =>
      simp only [show (map.guise look).slots.isFull = false from full, Bool.false_eq_true, if_false]
      refine bind_carried fun settled => ?_
      have secured := settled.policy.base.secureValue_guise look value
      have grown : (settled.guise look).slots.insert
          ((settled.guise look).policy.base.secureValue (look.held value)) =
          (settled.slots.insert (settled.policy.base.secureValue value)).map look.held :=
        (congrArg _ secured).trans (Slots.insert_map _ _ _)
      simp only [attach_guise, show (settled.guise look).slots.next = settled.slots.next from Slots.next_map _ _,
        grown]
      exact bind_carried fun _ => rfl

theorem remove_guise (key : K) (granted : Bool) : (map.guise look).remove key granted =
    (fun (value, after) => (value.map look.held, after.guise look)) <$> map.remove key granted := by
  simp only [remove, find_guise]
  refine bind_shown fun found => ?_
  cases found with
  | none => rfl
  | some link =>
    simp only [detach_guise]
    refine bind_carried fun detached => ?_
    simp only [show (map.guise look).slots = map.slots.map look.held from rfl, Slots.take_map]
    refine bind_carried ?_
    rintro ⟨value, slots⟩
    have shorter : ({ detached.guise look with
        slots := slots.map look.held
        transactions := (map.guise look).transactions + 1 } : HashedMap K W) =
        guise look { detached with slots := slots, transactions := map.transactions + 1 } := rfl
    by_cases sparse : slots.size < detached.rung.shrinkBelow
    · have still : (slots.map look.held).size < (detached.guise look).rung.shrinkBelow := sparse
      simp only [size, sparse, still, if_true, shorter, settle_guise]
      exact bind_carried fun _ => rfl
    · have still : ¬ (slots.map look.held).size < (detached.guise look).rung.shrinkBelow := sparse
      simp only [size, sparse, still, if_false, shorter]
      rfl

theorem releaseAll_guise : (map.guise look).releaseAll =
    (fun (released, after) => (released, after.guise look)) <$> map.releaseAll := by
  have released := Slots.release_map look.held map.links (·.handle) map.slots
  simp only [releaseAll, show (map.guise look).links = map.links from rfl,
    show (map.guise look).slots = map.slots.map look.held from rfl, released]
  exact bind_carried fun _ => rfl

theorem clear_guise (granted : Bool) : (map.guise look).clear granted =
    (fun (released, after) => (released, after.guise look)) <$> map.clear granted := by
  simp only [clear, releaseAll_guise]
  refine bind_carried ?_
  rintro ⟨released, bare⟩
  by_cases lowest : bare.rung = Rung.lowest
  · simp [show (bare.guise look).rung = Rung.lowest from lowest, lowest, pure, Except.pure]
  · simp only [show (bare.guise look).rung = bare.rung from rfl, lowest, if_false, rebuild_guise]
    cases granted with
    | false => rfl
    | true => exact bind_carried fun _ => rfl

/-! ### Cursors -/

theorem start_guise : (map.guise look).start = map.start := rfl

theorem nextLink_guise (chain : Chain K) (cursor : HashedCursor) :
    (map.guise look).nextLink chain cursor = map.nextLink chain cursor := by
  have upcoming : (map.guise look).upcoming chain cursor.last = map.upcoming chain cursor.last := by
    cases cursor.last with
    | none => rfl
    | some place =>
      simp only [HashedMap.upcoming, guise, Slots.contains_map]
  simp only [nextLink, upcoming]
  rfl

theorem advance_guise (cursor : HashedCursor) : (map.guise look).advance cursor =
    (fun (found, moved) => (found.map look.pair, moved)) <$> map.advance cursor := by
  by_cases finished : cursor.finished = true
  · simp [advance, finished]
  by_cases late : cursor.owner ≠ map.id ∨ cursor.epoch ≠ map.epoch
  · have also : cursor.owner ≠ (map.guise look).id ∨ cursor.epoch ≠ (map.guise look).epoch := late
    simp [advance, finished, late, also]
  simp only [advance, nextLink_guise, show (map.guise look).buckets = map.buckets from rfl, finished,
    show (map.guise look).id = map.id from rfl, show (map.guise look).epoch = map.epoch from rfl, late,
    Bool.false_eq_true, if_false]
  cases map.buckets[cursor.bucket]? with
  | none => rfl
  | some chain =>
    dsimp only
    cases map.nextLink chain cursor with
    | none => rfl
    | some found =>
      simp only [entry_guise]
      exact bind_carried fun _ => rfl

end KeyedStore.HashedMap
