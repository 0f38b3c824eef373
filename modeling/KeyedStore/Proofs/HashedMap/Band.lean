import KeyedStore.Proofs.HashedMap.Refinement
/-!
How full a hashed map can be. On every rung of the ladder the two limits leave room for those of the rungs
beside it: a table that has just grown is far from growing again and from shrinking back, and so is one
that has just shrunk. As an operation changes the number of entries by one, or to nothing, a single step
along the ladder brings the table back between its limits, whatever the policy.
-/
namespace KeyedStore

namespace Rung

/-- The rung from which no table grows. -/
def highest : Rung := Fin.last 27

/-- So many entries are between the limits of this rung. The highest rung has no upper limit. -/
structure Holds (rung : Rung) (count : Nat) : Prop where
  least : rung.shrinkBelow ≤ count
  most : count ≤ rung.growAt ∨ rung = highest

/-! ### The limits of neighbouring rungs -/

theorem shrinkBelow_lt_growAt (rung : Rung) : rung.shrinkBelow < rung.growAt := by
  revert rung
  decide

/-- What makes a table grow is enough for the next rung, and is not too much for it. -/
theorem growAt_of_above {rung higher : Rung} (next : rung.above? = some higher) :
    higher.shrinkBelow ≤ rung.growAt ∧ rung.growAt < higher.growAt := by
  revert rung higher
  decide

/-- One entry less than what a table needs is enough for the rung below, and is not too much for it. -/
theorem shrinkBelow_of_below {rung lower : Rung} (next : rung.below? = some lower) :
    lower.shrinkBelow < rung.shrinkBelow ∧ rung.shrinkBelow ≤ lower.growAt := by
  revert rung lower
  decide

theorem size_injective {one two : Rung} : one.size = two.size → one = two := by
  revert one two
  decide

theorem lowest_of_shrinkBelow {rung : Rung} (nothing : rung.shrinkBelow = 0) : rung = lowest := by
  revert rung
  decide

theorem above?_eq_none {rung : Rung} : rung.above? = none ↔ rung = highest := by
  revert rung
  decide

theorem below?_of_ne {rung : Rung} (higher : rung ≠ lowest) : ∃ lower, rung.below? = some lower := by
  revert rung
  decide

/-! ### When a table moves -/

variable {rung target : Rung} {count : Nat}

theorem towards?_eq_some : rung.towards? count = some target ↔
    rung.growAt ≤ count ∧ rung.above? = some target ∨
      count < rung.shrinkBelow ∧ rung.below? = some target := by
  have apart := rung.shrinkBelow_lt_growAt
  unfold towards?
  by_cases many : rung.growAt ≤ count
  · have enough : ¬ count < rung.shrinkBelow := by omega
    cases rung.above? <;> simp [many, enough]
  · simp [many]

theorem towards?_eq_none : rung.towards? count = none ↔
    (count < rung.growAt ∨ rung = highest) ∧ rung.shrinkBelow ≤ count := by
  have apart := rung.shrinkBelow_lt_growAt
  constructor
  · intro still
    constructor
    · by_cases many : rung.growAt ≤ count
      · right
        by_contra upwards
        obtain ⟨higher, next⟩ := Option.ne_none_iff_exists'.mp (mt above?_eq_none.mp upwards)
        rw [towards?_eq_some.mpr (.inl ⟨many, next⟩)] at still
        cases still
      · left
        omega
    · by_contra few
      have higher : rung ≠ lowest := by
        rintro rfl
        exact few (Nat.zero_le count)
      obtain ⟨lower, next⟩ := below?_of_ne higher
      rw [towards?_eq_some.mpr (.inr ⟨by omega, next⟩)] at still
      cases still
  · rintro ⟨room, enough⟩
    by_contra moves
    obtain ⟨target, towards⟩ := Option.ne_none_iff_exists'.mp moves
    rcases towards?_eq_some.mp towards with ⟨many, next⟩ | ⟨few, _⟩
    · rcases room with room | rfl
      · omega
      · rw [above?_eq_none.mpr rfl] at next
        cases next
    · omega

namespace Holds

/-- Between its limits a table moves at most upwards, and only when it holds exactly as many entries as make
it grow; from there it does not move again. -/
theorem of_towards? (holds : rung.Holds count) (towards : rung.towards? count = some target) :
    rung.above? = some target ∧ count = rung.growAt ∧ target.towards? count = none := by
  rcases towards?_eq_some.mp towards with ⟨many, next⟩ | ⟨few, _⟩
  · obtain ⟨enough, room⟩ := growAt_of_above next
    have exact_count : count = rung.growAt := by
      rcases holds.most with bound | rfl
      · omega
      · rw [above?_eq_none.mpr rfl] at next
        cases next
    exact ⟨next, exact_count, towards?_eq_none.mpr ⟨.inl (by omega), by omega⟩⟩
  · exact absurd holds.least (by omega)

/-- A table that does not move has room for one entry more. -/
theorem of_still (still : rung.towards? count = none) : rung.Holds (count + 1) := by
  obtain ⟨room, enough⟩ := towards?_eq_none.mp still
  exact ⟨by omega, room⟩

/-- One entry less leaves a table between its limits, or makes it move down once. -/
theorem of_sparse (holds : rung.Holds (count + 1)) (few : count < rung.shrinkBelow)
    (towards : rung.towards? count = some target) :
    rung.below? = some target ∧ count + 1 = rung.shrinkBelow ∧ target.towards? count = none := by
  have apart := rung.shrinkBelow_lt_growAt
  have least := holds.least
  rcases towards?_eq_some.mp towards with ⟨many, _⟩ | ⟨_, next⟩
  · omega
  · obtain ⟨enough, room⟩ := shrinkBelow_of_below next
    exact ⟨next, by omega, towards?_eq_none.mpr ⟨.inl (by omega), by omega⟩⟩

/-- What asks for no move is between the limits. -/
theorem of_settled (still : rung.towards? count = none) : rung.Holds count := by
  obtain ⟨room, enough⟩ := towards?_eq_none.mp still
  exact ⟨enough, room.imp_left Nat.le_of_lt⟩

theorem lowest_of_empty (holds : rung.Holds 0) : rung = lowest :=
  lowest_of_shrinkBelow (Nat.le_zero.mp holds.least)

end Holds

theorem holds_lowest : lowest.Holds 0 := ⟨Nat.le_refl 0, .inl (Nat.zero_le _)⟩

end Rung

namespace HashedMap

variable {K V : Type} {map after : HashedMap K V}

/-! ### Every operation keeps the band -/

/-- Settling moves at most to the rung that the number of entries asks for. -/
theorem Settled.rung_eq (settled : map.Settled true after) : after.size = map.size ∧
    (map.rung.towards? map.size = none ∧ after.rung = map.rung ∨
      map.rung.towards? map.size = some after.rung) := by
  cases settled with
  | still fits => exact ⟨rfl, .inl ⟨fits rfl, rfl⟩⟩
  | @moved rung after _ towards rebuilt =>
    rw [size, rebuilt.frame]
    exact ⟨rfl, .inr towards⟩

/-- A table between its limits that has settled would not move again. -/
theorem Settled.towards?_eq_none (settled : map.Settled true after) (holds : map.rung.Holds map.size) :
    after.rung.towards? after.size = none := by
  obtain ⟨same, ⟨fits, rung⟩ | towards⟩ := settled.rung_eq
  · rw [rung, same, fits]
  · rw [same]
    exact (holds.of_towards? towards).2.2

theorem Settled.rung_of_holds (settled : map.Settled true after) (holds : map.rung.Holds map.size) :
    after.rung = map.rung ∨ map.rung.above? = some after.rung ∧ map.size = map.rung.growAt := by
  obtain ⟨_, ⟨_, stays⟩ | towards⟩ := settled.rung_eq
  · exact .inl stays
  · obtain ⟨next, filled, _⟩ := holds.of_towards? towards
    exact .inr ⟨next, filled⟩

/-- An addition leaves the table on its rung, or lifts it from the size at which tables grow. -/
theorem Insertion.rung_eq {key : Held K} {value : Held V} {outcome : Except AddError Addition}
    (insertion : Insertion map true key value outcome after) (holds : map.rung.Holds map.size) :
    after.rung.Holds after.size ∧ (after.rung = map.rung ∨
      map.rung.above? = some after.rung ∧ map.size = map.rung.growAt) := by
  cases insertion with
  | refused => exact ⟨holds, .inl rfl⟩
  | full => exact ⟨holds, .inl rfl⟩
  | updated met free done =>
    have same : size { map with slots := _ } = map.size := Slots.size_replace done
    exact ⟨same.symm ▸ holds, .inl rfl⟩
  | @inserted settled longer missed room settling extended =>
    have still := settling.towards?_eq_none holds
    have rung : longer.rung = settled.rung := by rw [extended.frame]
    constructor
    · change longer.rung.Holds (settled.size + 1)
      rw [rung]
      exact .of_still still
    · change longer.rung = map.rung ∨ map.rung.above? = some longer.rung ∧ map.size = map.rung.growAt
      rw [rung]
      exact settling.rung_of_holds holds

/-- A removal leaves the table on its rung, or lowers it when fewer entries are left than it needs. What it
leaves would not move again. -/
theorem Removal.rung_eq {key : K} {value : Option (Held V)} (removal : Removal map true key value after)
    (holds : map.rung.Holds map.size) :
    after.rung.Holds after.size ∧ (after.rung = map.rung ∨
      map.rung.below? = some after.rung ∧ map.size = map.rung.shrinkBelow) ∧
      (value.isSome → after.rung.towards? after.size = none) := by
  cases removal with
  | missed => exact ⟨holds, .inl rfl, nofun⟩
  | @removed link value slots shorter met taken detached enough =>
    have fewer : slots.size + 1 = map.size := Slots.size_take taken
    have rung : shorter.rung = map.rung := by rw [detached.frame]
    have still : shorter.rung.towards? slots.size = none := by
      have most := holds.most
      rw [rung]
      refine Rung.towards?_eq_none.mpr ⟨most.imp_left ?_, by omega⟩
      omega
    exact ⟨.of_settled still, .inl rung, fun _ => still⟩
  | @shrunk link value slots shorter after met taken detached sparse settling =>
    have fewer : slots.size + 1 = map.size := Slots.size_take taken
    have rung : shorter.rung = map.rung := by rw [detached.frame]
    rw [← fewer] at holds
    obtain ⟨same, ⟨fits, _⟩ | towards⟩ := settling.rung_eq
    · -- Below its limit a table never stays.
      have enough := (Rung.towards?_eq_none.mp fits).2
      simp only [rung, size] at enough
      omega
    · simp only [rung, size] at towards
      obtain ⟨next, last, still⟩ := holds.of_sparse sparse towards
      have still : after.rung.towards? after.size = none := by rw [same]; exact still
      exact ⟨.of_settled still, .inr ⟨next, by omega⟩, fun _ => still⟩

theorem Cleared.rung_eq (cleared : map.Cleared true after) (wellFormed : map.WellFormed) :
    after.rung = Rung.lowest ∧ after.size = 0 := by
  obtain ⟨_, _, _, nothing, _⟩ := cleared.frame wellFormed
  refine ⟨?_, nothing⟩
  cases cleared with
  | already _ _ lowest => exact lowest rfl
  | moved _ _ _ _ rebuilt => rw [rebuilt.frame]

theorem Changed.holds {change : Change K V} (changed : Changed map true change after)
    (wellFormed : map.WellFormed) (holds : map.rung.Holds map.size) : after.rung.Holds after.size := by
  cases changed with
  | insert insertion => exact (insertion.rung_eq holds).1
  | remove removal => exact (removal.rung_eq holds).1
  | clear cleared =>
    obtain ⟨rung, nothing⟩ := cleared.rung_eq wellFormed
    rw [rung, nothing]
    exact Rung.holds_lowest

/-- A well-formed table whose load is between its limits. -/
structure InBand (map : HashedMap K V) : Prop where
  wellFormed : map.WellFormed
  holds : map.rung.Holds map.size

/-- A request leaves a table between its limits. -/
theorem InBand.of_serve (inBand : map.InBand) {request : Request K V} {answer : Answer K V}
    (served : map.serve request = .ok (answer, after)) : after.InBand := by
  rcases changed_of_serve inBand.wellFormed served with rfl | ⟨change, changed⟩
  · exact inBand
  · exact ⟨changed.wellFormed inBand.wellFormed, changed.holds inBand.wellFormed inBand.holds⟩

end HashedMap

end KeyedStore
