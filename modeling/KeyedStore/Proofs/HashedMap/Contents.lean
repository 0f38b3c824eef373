import KeyedStore.Proofs.HashedMap.Counters
/-!
What the entries of a table hold, whatever becomes of its chains. An entry holds a key and a value; mending chains,
appending, and moving every entry into other buckets change neither, whether the memory for them was granted or
not. An addition puts one content behind a new handle, or another value behind one that it finds; a removal takes
one content out; a clearing takes out all.
-/
namespace KeyedStore

variable {K V : Type}

/-- What an entry holds, without its place in a chain. -/
def Knot.pair (knot : Knot K V) : Held K × Held V := (knot.key, knot.value)

namespace ThreadedMap

/-- What the entries hold. -/
def contents (map : ThreadedMap K V) : Slots (Held K × Held V) := map.knots.map Knot.pair

variable {map middle after : ThreadedMap K V} {handle : Handle} {bucket : Nat} {prev next : Option Handle}
  {key : Held K} {value : Held V} {granted : Bool}

theorem get?_contents : map.contents.get? handle = some (key, value) ↔
    ∃ knot, map.knots.get? handle = some knot ∧ knot.key = key ∧ knot.value = value := by
  rw [contents, Slots.get?_map, Option.map_eq_some_iff]
  simp only [Knot.pair, Prod.mk.injEq]

/-! ### Chains -/

/-- Chains and buckets are others, and entries may have other numbers. They hold what they held. -/
structure Rearranged (map after : ThreadedMap K V) : Prop where
  id : after.id = map.id
  policy : after.policy = map.policy
  contents : after.contents = map.contents

namespace Rearranged

theorem refl (map : ThreadedMap K V) : map.Rearranged map := ⟨rfl, rfl, rfl⟩

theorem trans (one : map.Rearranged middle) (two : middle.Rearranged after) : map.Rearranged after :=
  ⟨two.id.trans one.id, two.policy.trans one.policy, two.contents.trans one.contents⟩

end Rearranged

/-- Putting an entry in the place of another one that holds the same. -/
theorem contents_replace {knot tied : Knot K V} {knots : Slots (Knot K V)}
    (held : map.knots.get? handle = some knot) (replaced : map.knots.replace handle tied = .ok knots)
    (same : tied.pair = knot.pair) : knots.map Knot.pair = map.contents := by
  refine Slots.eq_of_get? ?_ fun other => ?_
  · rw [contents, Slots.next_map, Slots.next_map, Slots.next_replace replaced]
  · rw [contents, Slots.get?_map, Slots.get?_map, Slots.get?_replace replaced]
    split
    · rename_i hit
      rw [hit, held, Option.map_some, Option.map_some, same]
    · rfl

theorem retie_rearranges {change : Knot K V → Knot K V} (done : map.retie handle change = .ok after)
    (same : ∀ knot, (change knot).pair = knot.pair) : map.Rearranged after := by
  obtain ⟨knot, knots, held, replaced, rfl⟩ := retie_inverts done
  exact ⟨rfl, rfl, contents_replace held replaced (same knot)⟩

theorem setEnds_rearranges {change : ChainEnds → ChainEnds} (done : map.setEnds bucket change = .ok after) :
    map.Rearranged after := by
  obtain ⟨ends, _, done⟩ := bind_eq_ok.mp done
  cases done
  exact ⟨rfl, rfl, rfl⟩

theorem linkNext_rearranges (done : map.linkNext bucket prev next = .ok after) : map.Rearranged after := by
  cases prev with
  | none => exact setEnds_rearranges done
  | some handle => exact retie_rearranges done fun _ => rfl

theorem linkPrev_rearranges (done : map.linkPrev bucket next prev = .ok after) : map.Rearranged after := by
  cases next with
  | none => exact setEnds_rearranges done
  | some handle => exact retie_rearranges done fun _ => rfl

theorem unlink_rearranges (done : map.unlink handle = .ok after) : map.Rearranged after := by
  simp only [unlink, bind_eq_ok] at done
  obtain ⟨knot, _, bucket, _, linked, one, two⟩ := done
  exact (linkNext_rearranges one).trans (linkPrev_rearranges two)

theorem append_rearranges (done : map.append handle = .ok after) : map.Rearranged after := by
  simp only [append, bind_eq_ok] at done
  obtain ⟨knot, _, bucket, _, ends, _, placed, tied, linked, one, two⟩ := done
  have renumbered : map.Rearranged { map with nextSerial := map.nextSerial + 1 } := ⟨rfl, rfl, rfl⟩
  have placing := renumbered.trans (retie_rearranges tied fun _ => rfl)
  exact placing.trans ((linkNext_rearranges one).trans (linkPrev_rearranges two))

/-- Rebuilding moves every entry and changes none. -/
theorem rebuild_rearranges {rung : Rung} (done : map.rebuild rung = .ok after) : map.Rearranged after := by
  simp only [rebuild, bind_eq_ok, pure_eq_ok] at done
  obtain ⟨filled, swept, rfl⟩ := done
  have keeps : ∀ (state : ThreadedMap K V) (handle : Handle) (next : Option Handle) (after : ThreadedMap K V),
      state.transfer handle = .ok (next, after) → map.Rearranged state → map.Rearranged after := by
    intro state handle next after moved kept
    simp only [transfer, bind_eq_ok, pure_eq_ok] at moved
    obtain ⟨knot, _, appendix, appended, paired⟩ := moved
    obtain ⟨_, rfl⟩ := Prod.mk.inj paired
    exact kept.trans (append_rearranges appended)
  obtain ⟨id, policy, contents⟩ := sweep_keeps keeps swept ⟨rfl, rfl, rfl⟩
  exact ⟨id, policy, contents⟩

theorem settle_rearranges (done : map.settle granted = .ok after) : map.Rearranged after := by
  unfold settle at done
  split at done
  · split at done
    · exact rebuild_rearranges done
    · cases done
      exact .refl map
  · cases done
    exact .refl map

/-! ### Operations -/

/-- The ways in which an addition that goes through ends, by what the key finds. -/
inductive Stored (map : ThreadedMap K V) (key : Held K) (value : Held V) :
    Except AddError Addition → ThreadedMap K V → Prop where
  | refused (error : AddError) : Stored map key value (.error error) map
  | updated {handle : Handle} {after : ThreadedMap K V} {old : Held K × Held V}
      (met : map.find key.val = .ok (some handle)) (held : map.contents.get? handle = some old)
      (done : map.contents.replace handle (old.1, map.policy.base.secureValue value) = .ok after.contents) :
      Stored map key value (.ok .updated) after
  | inserted {after : ThreadedMap K V} (missed : map.find key.val = .ok none)
      (contents : after.contents =
        map.contents.insert (map.policy.base.secureKey key, map.policy.base.secureValue value)) :
      Stored map key value (.ok .inserted) after

theorem insert_stores {outcome : Except AddError Addition}
    (done : map.insert granted key value = .ok (outcome, after)) :
    after.id = map.id ∧ after.policy = map.policy ∧ map.Stored key value outcome after := by
  simp only [insert, bind_eq_ok] at done
  obtain ⟨found, met, done⟩ := done
  cases found with
  | some handle =>
    dsimp only at done
    split at done
    · cases done
      exact ⟨rfl, rfl, .refused _⟩
    · simp only [bind_eq_ok, pure_eq_ok] at done
      obtain ⟨updated, tied, paired⟩ := done
      obtain ⟨rfl, rfl⟩ := Prod.mk.inj paired
      obtain ⟨knot, knots, held, replaced, rfl⟩ := retie_inverts tied
      have seen : map.contents.get? handle = some knot.pair := by
        rw [contents, Slots.get?_map, held]
        rfl
      refine ⟨rfl, rfl, .updated met seen ?_⟩
      have carried := Slots.replace_map map.knots Knot.pair handle
        { knot with value := map.policy.base.secureValue value }
      rw [replaced] at carried
      exact carried
  | none =>
    dsimp only at done
    split at done
    · cases done
      exact ⟨rfl, rfl, .refused _⟩
    · simp only [bind_eq_ok, pure_eq_ok] at done
      obtain ⟨settled, settling, longer, appended, paired⟩ := done
      obtain ⟨rfl, rfl⟩ := Prod.mk.inj paired
      have moved := settle_rearranges settling
      have linked := append_rearranges appended
      refine ⟨linked.id.trans moved.id, linked.policy.trans moved.policy, .inserted met ?_⟩
      have held : longer.contents = settled.contents.insert
          (settled.policy.base.secureKey key, settled.policy.base.secureValue value) :=
        linked.contents.trans (Slots.insert_map _ _ _).symm
      rw [moved.contents, moved.policy] at held
      exact held

/-- The two ways in which a removal that goes through ends. -/
inductive Emptied (map : ThreadedMap K V) (key : K) : Option (Held V) → ThreadedMap K V → Prop where
  | missed (missed : map.find key = .ok none) : Emptied map key none map
  | removed {handle : Handle} {content : Held K × Held V} {after : ThreadedMap K V}
      (met : map.find key = .ok (some handle)) (taken : map.contents.take handle = .ok (content, after.contents)) :
      Emptied map key (some content.2) after

theorem remove_empties {key : K} {handed : Option (Held V)} (done : map.remove granted key = .ok (handed, after)) :
    after.id = map.id ∧ after.policy = map.policy ∧ map.Emptied key handed after := by
  simp only [remove, bind_eq_ok] at done
  obtain ⟨found, met, done⟩ := done
  cases found with
  | none =>
    cases done
    exact ⟨rfl, rfl, .missed met⟩
  | some handle =>
    simp only [bind_eq_ok] at done
    obtain ⟨unlinked, mending, ⟨knot, knots⟩, taken, done⟩ := done
    have moved := unlink_rearranges mending
    have carried : map.contents.take handle = .ok (knot.pair, knots.map Knot.pair) := by
      have seen := Slots.take_map unlinked.knots Knot.pair handle
      rw [taken] at seen
      rw [← moved.contents]
      exact seen
    have ended : ∀ left : ThreadedMap K V, left.contents = knots.map Knot.pair →
        map.Emptied key (some knot.value) left :=
      fun left same => @Emptied.removed K V map key handle knot.pair left met (same ▸ carried)
    split at done
    · simp only [bind_eq_ok, pure_eq_ok] at done
      obtain ⟨settled, settling, paired⟩ := done
      obtain ⟨rfl, rfl⟩ := Prod.mk.inj paired
      have settled := settle_rearranges settling
      exact ⟨settled.id.trans moved.id, settled.policy.trans moved.policy, ended _ settled.contents⟩
    · cases done
      exact ⟨moved.id, moved.policy, ended _ rfl⟩

theorem clear_empties {released : Nat} (done : map.clear granted = .ok (released, after)) :
    after.id = map.id ∧ after.policy = map.policy ∧ after.contents.next = map.contents.next ∧
      ∀ handle content, after.contents.get? handle = some content → map.contents.get? handle = some content := by
  simp only [clear, bind_eq_ok] at done
  obtain ⟨⟨count, bare⟩, releasing, done⟩ := done
  obtain ⟨issued, fewer⟩ := releaseAll_fewer releasing
  have same : bare.id = map.id ∧ bare.policy = map.policy := by
    simp only [releaseAll, bind_eq_ok, pure_eq_ok] at releasing
    obtain ⟨_, _, paired⟩ := releasing
    obtain ⟨_, rfl⟩ := Prod.mk.inj paired
    exact ⟨rfl, rfl⟩
  have moved : bare.Rearranged after := by
    split at done
    · cases done
      exact .refl bare
    · split at done
      · simp only [bind_eq_ok, pure_eq_ok] at done
        obtain ⟨rebuilt, rebuilding, paired⟩ := done
        obtain ⟨_, rfl⟩ := Prod.mk.inj paired
        exact rebuild_rearranges rebuilding
      · cases done
        exact .refl bare
  refine ⟨moved.id.trans same.1, moved.policy.trans same.2, ?_, fun handle content held => ?_⟩
  · rw [moved.contents, contents, contents, Slots.next_map, Slots.next_map, issued]
  · rw [moved.contents, contents, Slots.get?_map, Option.map_eq_some_iff] at held
    obtain ⟨knot, there, rfl⟩ := held
    rw [contents, Slots.get?_map, fewer handle knot there]
    rfl

end ThreadedMap

end KeyedStore
