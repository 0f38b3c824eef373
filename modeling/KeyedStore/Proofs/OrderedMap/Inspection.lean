import KeyedStore.Proofs.Shape.Verdict
import KeyedStore.Proofs.OrderedMap.Order
/-!
What the check of an ordered map decides, for any tree of tags over any slots: colours, keys and the number of
entries may be what they like, and values may be stored that no tag leads to. Nothing that the operations keep is
assumed, so that the check can be trusted to find out when they fail.
-/
namespace KeyedStore.OrderedMap

variable {K V : Type}

/-- The tags of the tree lead to stored values, no two of them to the same one. -/
structure Grounded (map : OrderedMap K V) : Prop where
  distinct : (map.shape.toList.map (·.handle)).Nodup
  live : ∀ handle ∈ map.shape.toList.map (·.handle), map.slots.contains handle = true

/-- Every stored value is reached from the root. -/
def Covered (map : OrderedMap K V) : Prop :=
  ∀ handle, map.slots.contains handle = true → handle ∈ map.shape.toList.map (·.handle)

/-- The first of any two neighbours in order compares less than the second. -/
def Ascends (map : OrderedMap K V) : Prop := map.shape.toList.IsChain (Precedes map.policy)

/-- The check as a pass over the nodes that counts them, followed by a walk that remembers one key. -/
def inspect (map : OrderedMap K V) : Except Defect Nat :=
  if map.shape.isRed then .error .redRoot
  else do
    let (height, reached) ← map.shape.survey 0
    if reached ≠ map.size then .error .miscount
    else if Spot.ascends map.policy.compare (·.key.val) none (Path.firstSpot [] map.shape) then .ok height
    else .error .disorder

/-- What an answer of the check says of the map. The laws are asked for in the order root, edges and heights, entries,
keys; an answer that names one of them says that all laws before it hold and that it does not. -/
structure Decides (map : OrderedMap K V) (answer : Except Defect Nat) : Prop where
  /-- The number that comes with a pass is that of the black nodes on every way down, and one. -/
  passed : ∀ height, answer = .ok height ↔
    map.shape.RedBlack ∧ map.Covered ∧ map.Ascends ∧ ∀ way ∈ map.shape.descents, way.count .black + 1 = height
  /-- Neighbours are all that is compared, which is enough where the comparison is transitive. -/
  sorted : (∀ first second third, map.policy.compare first second = .lt →
      map.policy.compare second third = .lt → map.policy.compare first third = .lt) →
    ∀ height, answer = .ok height → map.Sorted
  redRoot : answer = .error .redRoot ↔ map.shape.isRed = true
  /-- Edges and heights are checked on one pass, so either fault may be found where both are there. -/
  unsound : answer = .error .redEdge ∨ answer = .error .unevenHeight ↔
    map.shape.isRed = false ∧ ¬map.shape.RedBlack
  redEdge : answer = .error .redEdge →
    ∃ way ∈ map.shape.descents, ¬way.IsChain fun upper lower => ¬(upper = .red ∧ lower = .red)
  unevenHeight : answer = .error .unevenHeight →
    ∃ way ∈ map.shape.descents, ∃ other ∈ map.shape.descents, way.count .black ≠ other.count .black
  miscount : answer = .error .miscount ↔ map.shape.RedBlack ∧ ¬map.Covered
  disorder : answer = .error .disorder ↔ map.shape.RedBlack ∧ map.Covered ∧ ¬map.Ascends

variable {map : OrderedMap K V}

/-! ### Each part of the check against what it stands for -/

theorem ascends_iff : ascending map.policy.compare (map.shape.toList.map (·.key.val)) = true ↔ map.Ascends := by
  rw [ascending_iff, List.isChain_map]
  rfl

/-- Neighbours in order put all keys in order, once the comparison is transitive. -/
theorem Ascends.sorted (ascends : map.Ascends)
    (trans : ∀ first second third, map.policy.compare first second = .lt →
      map.policy.compare second third = .lt → map.policy.compare first third = .lt) : map.Sorted := by
  have : Trans (Precedes map.policy) (Precedes map.policy) (Precedes map.policy) :=
    ⟨fun {first second third} before after => trans first.key.val second.key.val third.key.val before after⟩
  exact ascends.pairwise

/-- Counting the nodes is as good as looking for each stored value. -/
theorem Grounded.size_eq_iff (grounded : map.Grounded) : map.shape.size = map.size ↔ map.Covered := by
  have counted := Slots.size_eq_length_iff grounded.distinct grounded.live
  rw [List.length_map, Shape.length_toList] at counted
  exact eq_comm.trans counted

/-- The check on one pass and a walk answers what the check on whole lists does. -/
theorem inspect_eq_check (map : OrderedMap K V) : map.inspect = map.check := by
  have walked := Spot.ascends_eq map.policy.compare (fun tag : Tag K => tag.key.val) none
    (Path.firstSpot [] map.shape)
  rw [Path.onward_firstSpot] at walked
  rw [inspect, check, Shape.survey_eq, walked]
  cases map.shape.blackHeight with
  | error defect => rfl
  | ok height =>
    simp only [bind, Except.bind, pure, Except.pure, Nat.zero_add]
    rfl

/-! ### The answers of the check, from the first law on -/

theorem check_of_redRoot (red : map.shape.isRed = true) : map.check = .error .redRoot := by
  rw [check, if_pos red]

theorem check_of_unsound (black : map.shape.isRed = false) (broken : ¬map.shape.RedBlack) :
    map.check = .error .redEdge ∧ ¬map.shape.Separated ∨
      map.check = .error .unevenHeight ∧ ∀ height, ¬map.shape.Levels height := by
  have verdict := map.shape.blackHeight_verdict
  generalize answered : map.shape.blackHeight = answer at verdict
  cases verdict with
  | @sound height sound => exact absurd (Shape.redBlack_iff.mpr ⟨height, black, sound⟩) broken
  | redEdge joined => exact .inl ⟨by simp [check, black, answered, bind, Except.bind], joined⟩
  | unevenHeight uneven => exact .inr ⟨by simp [check, black, answered, bind, Except.bind], uneven⟩

theorem decides_of_redRoot (red : map.shape.isRed = true) : map.Decides map.check := by
  have broken : ¬map.shape.RedBlack := by
    intro redBlack
    simp [redBlack.blackRoot] at red
  rw [check_of_redRoot red]
  constructor <;> simp [red, broken]

theorem decides_of_unsound (black : map.shape.isRed = false) (broken : ¬map.shape.RedBlack) :
    map.Decides map.check := by
  rcases check_of_unsound black broken with ⟨found, joined⟩ | ⟨found, uneven⟩
  · have edge := Shape.exists_red_edge joined
    rw [found]
    constructor
    case redEdge => exact fun _ => edge
    all_goals simp [black, broken]
  · have differ := Shape.exists_uneven uneven
    rw [found]
    constructor
    case unevenHeight => exact fun _ => differ
    all_goals simp [black, broken]

theorem Grounded.decides_of_redBlack (grounded : map.Grounded) (redBlack : map.shape.RedBlack) :
    map.Decides map.check := by
  obtain ⟨height, counts, checked⟩ := check_of_redBlack redBlack
  have black := redBlack.blackRoot
  by_cases covered : map.Covered
  · by_cases ascends : map.Ascends
    · have passed : map.check = .ok height := by
        rw [checked, if_neg (not_not.mpr (grounded.size_eq_iff.mpr covered)), if_pos (ascends_iff.mpr ascends)]
      obtain ⟨way, member⟩ := List.exists_mem_of_ne_nil _ map.shape.descents_ne_nil
      rw [passed]
      constructor
      case passed =>
        intro other
        constructor
        · intro same
          cases same
          exact ⟨redBlack, covered, ascends, counts⟩
        · rintro ⟨_, _, _, also⟩
          rw [← counts way member, also way member]
      case sorted => exact fun trans _ _ => ascends.sorted trans
      all_goals simp [black, redBlack, covered, ascends]
    · have found : map.check = .error .disorder := by
        rw [checked, if_neg (not_not.mpr (grounded.size_eq_iff.mpr covered)), if_neg (mt ascends_iff.mp ascends)]
      rw [found]
      constructor <;> simp [black, redBlack, covered, ascends]
  · have found : map.check = .error .miscount := by
      rw [checked, if_pos (mt grounded.size_eq_iff.mp covered)]
    rw [found]
    constructor <;> simp [black, redBlack, covered]

/-- For any comparison and any tree over any slots, the check decides its laws: it passes exactly the maps that keep
them all, with the height that all ways down share, and otherwise names the first law that is broken. It does so on
one pass over the nodes and one walk in order that compares each key with the one before. -/
theorem check_decides (map : OrderedMap K V) (grounded : map.Grounded) :
    map.inspect = map.check ∧ map.Decides map.check := by
  refine ⟨inspect_eq_check map, ?_⟩
  by_cases redBlack : map.shape.RedBlack
  · exact grounded.decides_of_redBlack redBlack
  · cases root : map.shape.isRed with
    | true => exact decides_of_redRoot root
    | false => exact decides_of_unsound root redBlack

/-- Two nodes over three values, and two keys with the same tens. -/
def astray : OrderedMap Nat String where
  id := ⟨0⟩
  policy := Policy.tens
  noOverwrite := false
  shape := .node .black (.node .red .nil ⟨⟨2⟩, ⟨.owned, 31⟩⟩ .nil) ⟨⟨0⟩, ⟨.owned, 35⟩⟩ .nil
  slots := ((Slots.empty.insert ⟨.owned, "a"⟩).insert ⟨.owned, "b"⟩).insert ⟨.owned, "c"⟩

/-- The value that no node leads to is found missing before the keys are compared. -/
theorem check_decides_astray :
    astray.Grounded ∧ astray.inspect = .error .miscount ∧ astray.shape.RedBlack ∧ ¬astray.Covered := by
  have grounded : astray.Grounded := ⟨by decide, by decide⟩
  obtain ⟨same, decides⟩ := check_decides astray grounded
  have found : astray.check = .error .miscount := rfl
  exact ⟨grounded, same.trans found, decides.miscount.mp found⟩

end KeyedStore.OrderedMap
