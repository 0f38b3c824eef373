import Mathlib.Data.List.Chain
import KeyedStore.Proofs.Policy
import KeyedStore.Proofs.Shape.Search
import KeyedStore.Proofs.OrderedMap.Changes
/-!
The order of the keys of an ordered map under a lawful policy. The keys ascend from left to right, a key
that is met parts all others, and one that is missed parts all of them; what an operation puts in or takes
out stands where the descent ended, so the keys go on ascending.
-/
namespace KeyedStore

variable {K V : Type}

theorem ascending_iff {compare : K → K → Ordering} {keys : List K} :
    ascending compare keys = true ↔ keys.IsChain (compare · · = .lt) := by
  fun_induction ascending compare keys with
  | case1 first second rest ih =>
    rw [Bool.and_eq_true, decide_eq_true_eq, ih, List.isChain_cons_cons]
  | case2 keys short =>
    refine iff_of_true rfl ?_
    match keys, short with
    | [], _ => exact .nil
    | [key], _ => exact .singleton key
    | first :: second :: rest, short => exact absurd rfl (short first second rest)

namespace OrderedMap

/-- The first tag stands before the second. -/
def Precedes (policy : Policy K V) (first second : Tag K) : Prop :=
  policy.compare first.key.val second.key.val = .lt

/-- The keys ascend from left to right. -/
def Sorted (map : OrderedMap K V) : Prop := map.shape.toList.Pairwise (Precedes map.policy)

variable {map after : OrderedMap K V}

/-- A key lies after these tags and before those. -/
def Parts (policy : Policy K V) (key : K) (front back : List (Tag K)) : Prop :=
  (∀ tag ∈ front, probe policy key tag = .gt) ∧ ∀ tag ∈ back, probe policy key tag = .lt

theorem Parts.ne_eq {policy : Policy K V} {key : K} {front back : List (Tag K)} {tag : Tag K}
    (parts : Parts policy key front back) (member : tag ∈ front ∨ tag ∈ back) :
    probe policy key tag ≠ .eq := by
  rcases member with earlier | later
  · simp [parts.1 tag earlier]
  · simp [parts.2 tag later]

namespace Sorted

variable {key : K} {path : Path (Tag K)} {color : Color} {left right : Shape (Tag K)} {tag : Tag K}

/-- Transitivity is enough for a key to part the tags. -/
theorem splits_of_order (order : Std.TransCmp map.policy.compare) (sorted : map.Sorted) (key : K) :
    Splits (probe map.policy key) map.shape.toList := by
  refine sorted.imp fun {first second} before => ⟨fun less => ?_, fun greater => ?_⟩
  · exact Std.TransCmp.lt_trans less before
  · have below := Std.OrientedCmp.gt_iff_lt.mp greater
    exact Std.OrientedCmp.gt_iff_lt.mpr (Std.TransCmp.lt_trans before below)

theorem splits (lawful : map.policy.Lawful) (sorted : map.Sorted) (key : K) :
    Splits (probe map.policy key) map.shape.toList :=
  sorted.splits_of_order lawful.order key

theorem parts_of_missed (lawful : map.policy.Lawful) (sorted : map.Sorted)
    (missed : map.descend key = (path, .nil)) : Parts map.policy key path.before path.after :=
  Path.split_missed [] (sorted.splits lawful key) (by simp [Path.before])
    (by simp [Path.after]) missed

theorem parts_of_met (lawful : map.policy.Lawful) (sorted : map.Sorted)
    (met : map.descend key = (path, .node color left tag right)) :
    Parts map.policy key (path.before ++ left.toList) (right.toList ++ path.after) := by
  have := lawful.order
  have equal : probe map.policy key tag = .eq := Path.probe_of_met met
  rw [Sorted, toList_met met] at sorted
  obtain ⟨_, below, across⟩ := List.pairwise_append.mp sorted
  constructor
  · intro other member
    have before : map.policy.compare other.key.val tag.key.val = .lt :=
      across other member tag List.mem_cons_self
    exact Std.OrientedCmp.gt_iff_lt.mpr
      (Std.TransCmp.lt_of_lt_of_eq before (Std.OrientedCmp.eq_symm equal))
  · intro other member
    exact Std.TransCmp.lt_of_eq_of_lt equal ((List.pairwise_cons.mp below).1 other member)

/-- The descent for a stored key meets its own tag. -/
theorem met_of_mem (lawful : map.policy.Lawful) (sorted : map.Sorted) (member : tag ∈ map.shape.toList) :
    ∃ path color left right, map.descend tag.key.val = (path, .node color left tag right) := by
  have := lawful.order
  have itself : probe map.policy tag.key.val tag = .eq := Std.ReflCmp.compare_self
  cases ended : map.descend tag.key.val with
  | mk path inside =>
    cases inside with
    | nil =>
      rw [toList_missed ended] at member
      exact absurd itself ((sorted.parts_of_missed lawful ended).ne_eq (List.mem_append.mp member))
    | node color left other right =>
      rw [toList_met ended] at member
      have parts := sorted.parts_of_met lawful ended
      rcases List.mem_append.mp member with earlier | later
      · exact absurd itself (parts.ne_eq (.inl earlier))
      · rcases List.mem_cons.mp later with rfl | later
        · exact ⟨path, color, left, right, rfl⟩
        · exact absurd itself (parts.ne_eq (.inr later))

end Sorted

theorem Insertion.sorted {key : Held K} {value : Held V} {outcome : Except AddError Addition}
    (insertion : Insertion map key value outcome after) (lawful : map.policy.Lawful) (sorted : map.Sorted) :
    after.Sorted := by
  cases insertion with
  | refused => exact sorted
  | full => exact sorted
  | updated => exact sorted
  | @inserted path missed room =>
    have := lawful.order
    obtain ⟨earlier, later⟩ := sorted.parts_of_missed lawful missed
    have same := lawful.secureKey key
    rw [Sorted, toList_missed missed] at sorted
    obtain ⟨front, back, across⟩ := List.pairwise_append.mp sorted
    rw [Sorted, toList_hung]
    refine List.pairwise_append.mpr ⟨front, List.pairwise_cons.mpr ⟨?_, back⟩, ?_⟩
    · intro tag member
      exact Std.TransCmp.lt_of_eq_of_lt same (later tag member)
    · intro first before tag member
      rcases List.mem_cons.mp member with rfl | behind
      · exact Std.TransCmp.lt_of_lt_of_eq (Std.OrientedCmp.gt_iff_lt.mp (earlier first before))
          (Std.OrientedCmp.eq_symm same)
      · exact across first before tag behind

theorem Removal.sorted {key : K} {value : Option (Held V)} (removal : Removal map key value after)
    (sorted : map.Sorted) : after.Sorted := by
  cases removal with
  | missed => exact sorted
  | @removed path color left right shape tag value slots met closed taken =>
    rw [Sorted, toList_met met] at sorted
    rw [Sorted, toList_closed closed]
    exact sorted.sublist ((List.sublist_cons_self _ _).append_left _)

/-- The check passes a well-formed map whose keys ascend. -/
theorem check_of_sorted (wellFormed : map.WellFormed) (sorted : map.Sorted) :
    ∃ height, map.check = .ok height := by
  have chain : (map.shape.toList.map (·.key.val)).IsChain (map.policy.compare · · = .lt) :=
    List.Pairwise.isChain (List.pairwise_map.mpr sorted)
  obtain ⟨height, checked⟩ := check_eq wellFormed
  exact ⟨height, by rw [checked, if_pos (ascending_iff.mpr chain)]⟩

end OrderedMap

end KeyedStore
