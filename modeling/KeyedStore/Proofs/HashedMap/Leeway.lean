import KeyedStore.Proofs.HashedMap.Band
import KeyedStore.Proofs.HashedMap.HashChoice
/-!
How far apart the rebuildings of a table lie. A table that has just moved between two rungs of the ladder is a
sixth of the smaller bucket count away from both of its limits, and a request that does not clear it takes it at
most one entry nearer to either, namely when it makes an entry or takes one out. Only at a limit does the table
move, so that many such requests lie between one rebuilding and the next. All of this is read off the gauge: no
decision to rebuild looks at keys or chains.
-/
namespace KeyedStore

variable {K V : Type}

namespace Rung

/-! ### Neighbouring rungs -/

variable {lower higher rung : Rung}

theorem above?_eq_some : lower.above? = some higher ↔ higher.val = lower.val + 1 := by
  unfold above?
  split
  · rw [Option.some.injEq, Fin.ext_iff]
    exact eq_comm
  · rename_i bound
    have := higher.isLt
    constructor
    · intro next
      cases next
    · intro next
      omega

theorem below?_eq_some : higher.below? = some lower ↔ higher.val = lower.val + 1 := by
  unfold below?
  split
  · rw [Option.some.injEq, Fin.ext_iff]
    constructor
    · intro next
      dsimp only at next
      omega
    · intro next
      dsimp only
      omega
  · constructor
    · intro next
      cases next
    · intro next
      omega

/-- From where a table moves between two neighbouring rungs, in either direction, the limits of the rung that it
comes to are a sixth of the smaller bucket count away. -/
theorem sixth_le (next : higher.val = lower.val + 1) :
    lower.growAt + lower.size / 6 ≤ higher.growAt ∧
      higher.shrinkBelow + lower.size / 6 ≤ lower.growAt + 2 ∧
      lower.shrinkBelow + lower.size / 6 ≤ higher.shrinkBelow := by
  have next := above?_eq_some.mpr next
  revert lower higher
  decide

theorem sixth_le_lowest : lowest.size / 6 ≤ lowest.growAt + 1 := by decide

end Rung

/-! ### One request -/

namespace Gauge

variable {gauge after : Gauge} {altered : Bool} {margin : Nat}

/-- The ways in which a request that does not clear the table can end, as far as its load goes. Making an entry or
taking one out leaves the table on its rung, or happens at a limit and moves it to the neighbouring one. -/
inductive Turn (gauge : Gauge) : Bool → Gauge → Prop where
  | idle : Turn gauge false gauge
  | drifted {after : Gauge} (rung : after.rung = gauge.rung) (epoch : after.epoch = gauge.epoch)
      (more : after.size ≤ gauge.size + 1) (fewer : gauge.size ≤ after.size + 1) : Turn gauge true after
  | grown {after : Gauge} (next : after.rung.val = gauge.rung.val + 1) (full : gauge.size = gauge.rung.growAt)
      (more : after.size = gauge.size + 1) (epoch : after.epoch = gauge.epoch + 1) : Turn gauge true after
  | shrunk {after : Gauge} (next : gauge.rung.val = after.rung.val + 1) (few : gauge.size = gauge.rung.shrinkBelow)
      (fewer : after.size + 1 = gauge.size) (epoch : after.epoch = gauge.epoch + 1) : Turn gauge true after

theorem turn_more (holds : gauge.rung.Holds gauge.size) : gauge.Turn true gauge.more := by
  unfold more settled
  cases towards : gauge.rung.towards? gauge.size with
  | none => exact .drifted rfl rfl (Nat.le_refl _) (Nat.le_add_right _ 2)
  | some higher =>
    obtain ⟨next, full, _⟩ := holds.of_towards? towards
    exact .grown (Rung.above?_eq_some.mp next) full rfl rfl

theorem turn_fewer (holds : gauge.rung.Holds gauge.size) : gauge.Turn true gauge.fewer := by
  have least := holds.least
  unfold fewer
  split
  · rename_i sparse
    change gauge.size - 1 < gauge.rung.shrinkBelow at sparse
    have left : gauge.size - 1 + 1 = gauge.size := by omega
    rw [← left] at holds
    unfold settled
    cases towards : gauge.less.rung.towards? gauge.less.size with
    | none =>
      -- Below its limit a table never stays.
      have enough : gauge.rung.shrinkBelow ≤ gauge.size - 1 := (Rung.towards?_eq_none.mp towards).2
      omega
    | some lower =>
      obtain ⟨next, few, _⟩ := holds.of_sparse sparse towards
      exact .shrunk (Rung.below?_eq_some.mp next) (left.symm.trans few) left rfl
  · refine .drifted rfl rfl ?_ ?_
    · change gauge.size - 1 ≤ gauge.size + 1
      omega
    · change gauge.size ≤ gauge.size - 1 + 1
      omega

theorem turn_following (holds : gauge.rung.Holds gauge.size) {request : Request K V} (unbroken : request ≠ .clear)
    (answer : Answer K V) : gauge.Turn (request.alters answer) (gauge.following request answer) := by
  cases request with
  | insert key value =>
    match answer with
    | .added (.ok .inserted) => exact turn_more holds
    | .added (.ok .updated) | .added (.error _) => exact .idle
    | .value _ | .entry _ | .truth _ | .removed _ | .count _ | .entries _ => exact .idle
  | remove key =>
    match answer with
    | .removed (some _) => exact turn_fewer holds
    | .removed none => exact .idle
    | .added _ | .value _ | .entry _ | .truth _ | .count _ | .entries _ => exact .idle
  | clear => exact absurd rfl unbroken
  | lookup | lookupEntry | contains | size => exact .idle

/-! ### The way to the limits -/

/-- The table takes at least so many entries, one after the other, before one of them makes it grow, that one
counted; and as many have to go before it shrinks. -/
structure Leeway (gauge : Gauge) (margin : Nat) : Prop where
  toGrow : gauge.size + margin ≤ gauge.rung.growAt + 1 ∨ gauge.rung = Rung.highest
  toShrink : gauge.rung.shrinkBelow + margin ≤ gauge.size + 1 ∨ gauge.rung = Rung.lowest

namespace Turn

theorem epoch_le (turn : gauge.Turn altered after) : gauge.epoch ≤ after.epoch := by
  cases turn with
  | idle => exact Nat.le_refl _
  | drifted rung epoch more fewer => exact Nat.le_of_eq epoch.symm
  | grown next full more epoch => omega
  | shrunk next few fewer epoch => omega

/-- Within an epoch a request brings the limits nearer by one entry at most. -/
theorem leeway (turn : gauge.Turn altered after) (same : after.epoch = gauge.epoch)
    (leeway : gauge.Leeway (margin + altered.toNat)) : after.Leeway margin := by
  cases turn with
  | idle => exact leeway
  | drifted rung epoch more fewer =>
    obtain ⟨toGrow, toShrink⟩ := leeway
    rw [← rung, Bool.toNat_true] at toGrow toShrink
    constructor
    · apply toGrow.imp_left
      intro room
      omega
    · apply toShrink.imp_left
      intro enough
      omega
  | grown next full more epoch => omega
  | shrunk next few fewer epoch => omega

/-- A table that moves has come to its limit. -/
theorem spent (turn : gauge.Turn altered after) (moved : after.epoch ≠ gauge.epoch) (leeway : gauge.Leeway margin) :
    margin ≤ altered.toNat := by
  cases turn with
  | idle => exact absurd rfl moved
  | drifted rung epoch more fewer => exact absurd epoch moved
  | grown next full more epoch =>
    rw [Bool.toNat_true]
    rcases leeway.toGrow with room | highest
    · omega
    · have bound := after.rung.isLt
      have top : gauge.rung.val = 27 := congrArg Fin.val highest
      omega
  | shrunk next few fewer epoch =>
    rw [Bool.toNat_true]
    rcases leeway.toShrink with enough | lowest
    · omega
    · have bottom : gauge.rung.val = 0 := congrArg Fin.val lowest
      omega

end Turn

/-- The table has gone between two neighbouring rungs, up or down. -/
def Passes (gauge : Gauge) (lower higher : Rung) (after : Gauge) : Prop :=
  gauge.rung = lower ∧ after.rung = higher ∨ gauge.rung = higher ∧ after.rung = lower

variable {lower higher : Rung}

theorem Turn.leeway_of_passes (turn : gauge.Turn altered after) (next : higher.val = lower.val + 1)
    (passes : gauge.Passes lower higher after) : after.Leeway (lower.size / 6) := by
  obtain ⟨grows, reaches, shrinks⟩ := Rung.sixth_le next
  cases turn with
  | idle =>
    rcases passes with ⟨rfl, same⟩ | ⟨rfl, same⟩
    · rw [same] at next
      omega
    · rw [← same] at next
      omega
  | drifted rung epoch more fewer =>
    rcases passes with ⟨rfl, rfl⟩ | ⟨rfl, rfl⟩
    · rw [rung] at next
      omega
    · rw [rung] at next
      omega
  | grown up full more epoch =>
    rcases passes with ⟨rfl, rfl⟩ | ⟨rfl, rfl⟩
    · exact ⟨.inl (by omega), .inl (by omega)⟩
    · omega
  | shrunk down few fewer epoch =>
    rcases passes with ⟨rfl, rfl⟩ | ⟨rfl, rfl⟩
    · omega
    · exact ⟨.inl (by omega), .inl (by omega)⟩

/-- An empty table on the lowest rung is far from growing, and never shrinks. -/
theorem leeway_cleared (next : higher.val = lower.val + 1) (passes : gauge.Passes lower higher gauge.cleared) :
    gauge.cleared.Leeway (lower.size / 6) := by
  have bottom : gauge.cleared.rung = Rung.lowest ∧ gauge.cleared.size = 0 := by
    unfold cleared
    split
    · rename_i lowest
      exact ⟨lowest, rfl⟩
    · exact ⟨rfl, rfl⟩
  obtain ⟨rung, nothing⟩ := bottom
  have low : lower = Rung.lowest := by
    rcases passes with ⟨_, reached⟩ | ⟨_, reached⟩
    · rw [← reached, rung] at next
      cases next
    · exact reached.symm.trans rung
  have room := Rung.sixth_le_lowest
  rw [low]
  refine ⟨.inl ?_, .inr rung⟩
  rw [rung, nothing]
  omega

end Gauge

/-! ### Runs -/

namespace HashedMap

variable {map after : HashedMap K V} {request : Request K V} {answer : Answer K V}

/-- The request has made an entry or taken some out. -/
def altered (_ : HashedMap K V) (request : Request K V) (answer : Answer K V) (_ : HashedMap K V) : Bool :=
  request.alters answer

theorem InBand.serve_answers (inBand : map.InBand) (request : Request K V) :
    ∃ answer after, map.serve request = .ok (answer, after) ∧ after.InBand := by
  obtain ⟨after, served, _⟩ :=
    serve_matches map.rules map map.filing request ⟨rfl, inBand.wellFormed.mirrors⟩
  exact ⟨_, after, served, inBand.of_serve served⟩

theorem InBand.turn (inBand : map.InBand) (unbroken : request ≠ .clear)
    (served : map.serve request = .ok (answer, after)) : map.gauge.Turn (request.alters answer) after.gauge := by
  rw [gauge_of_serve inBand.wellFormed served]
  exact Gauge.turn_following inBand.holds unbroken answer

/-- After a request that has moved a table between two rungs, both limits are far. -/
theorem InBand.leeway_of_passes (inBand : map.InBand) {lower higher : Rung} (next : higher.val = lower.val + 1)
    (served : map.serve request = .ok (answer, after)) (passes : map.gauge.Passes lower higher after.gauge) :
    after.gauge.Leeway (lower.size / 6) := by
  by_cases clears : request = .clear
  · have cleared := gauge_of_serve inBand.wellFormed served
    rw [clears] at cleared
    change after.gauge = map.gauge.cleared at cleared
    rw [cleared] at passes ⊢
    exact Gauge.leeway_cleared next passes
  · exact (inBand.turn clears served).leeway_of_passes next passes

/-- What a run without a clearing leaves of the way to the limits, as long as the table is not rebuilt. -/
structure Nears (map : HashedMap K V) (requests : List (Request K V)) (after : HashedMap K V) : Prop where
  epoch : map.epoch ≤ after.epoch
  leeway : after.epoch = map.epoch → ∀ margin, map.gauge.Leeway (margin + countSteps serve altered map requests) →
    after.gauge.Leeway margin

theorem InBand.run_nears (inBand : map.InBand) (requests : List (Request K V)) :
    ∃ answers after, runAll serve map requests = .ok (answers, after) ∧ after.InBand ∧
      ((∀ request ∈ requests, request ≠ .clear) → map.Nears requests after) := by
  apply runAll_links ?_ ?_ requests inBand
  · intro map _
    exact ⟨Nat.le_refl _, fun _ _ leeway => leeway⟩
  · intro map request inBand
    obtain ⟨answer, middle, served, kept⟩ := inBand.serve_answers request
    refine ⟨answer, middle, served, kept, ?_⟩
    intro requests after nears unbroken
    obtain ⟨first, rest⟩ := List.forall_mem_cons.mp unbroken
    have turn := inBand.turn first served
    have further := nears rest
    have before : map.epoch ≤ middle.epoch := turn.epoch_le
    refine ⟨Nat.le_trans before further.epoch, fun same margin leeway => ?_⟩
    have behind := further.epoch
    have still : middle.epoch = map.epoch := by omega
    rw [countSteps_cons served, Nat.add_comm (Bool.toNat _), ← Nat.add_assoc] at leeway
    exact further.leeway (by omega) margin (turn.leeway still leeway)

/-- Whatever the policy, take two consecutive rebuildings in a run of a fresh table, with no clearing between them:
the request `first` makes the one and moves the table between two neighbouring bucket counts, up or down, `last`
makes the other, and none of those between makes any. From after `first` up to and including `last` at least a
sixth of the smaller of the two counts, rounded down, are requests that made an entry or took one out. It makes no
difference which way the second rebuilding goes, nor how many requests besides have changed nothing. -/
theorem run_spaces_rebuildings (id : Identity) (policy : HashPolicy K V) (noOverwrite : Bool)
    (earlier between : List (Request K V)) (first last : Request K V)
    (unbroken : ∀ request ∈ between ++ [last], request ≠ .clear) :
    ∃ answers before answer one replies two reply after,
      runAll serve { id, policy, noOverwrite } earlier = .ok (answers, before) ∧
      before.serve first = .ok (answer, one) ∧
      runAll serve one between = .ok (replies, two) ∧
      two.serve last = .ok (reply, after) ∧
      ∀ lower higher : Rung, higher.val = lower.val + 1 →
        before.bucketCount = lower.size ∧ one.bucketCount = higher.size ∨
          before.bucketCount = higher.size ∧ one.bucketCount = lower.size →
        two.epoch = one.epoch → after.epoch ≠ two.epoch →
        lower.size / 6 ≤ countSteps serve altered one (between ++ [last]) := by
  have fresh : InBand { id, policy, noOverwrite } := ⟨wellFormed_fresh id policy noOverwrite, Rung.holds_lowest⟩
  obtain ⟨answers, before, ran, start, _⟩ := fresh.run_nears earlier
  obtain ⟨answer, one, served, inBand⟩ := start.serve_answers first
  obtain ⟨replies, two, onward, kept, nears⟩ := inBand.run_nears between
  obtain ⟨reply, after, closed, _⟩ := kept.serve_answers last
  refine ⟨answers, before, answer, one, replies, two, reply, after, ran, served, onward, closed, ?_⟩
  intro lower higher next counts still moved
  obtain ⟨calm, final⟩ := List.forall_mem_append.mp unbroken
  have passes : before.gauge.Passes lower higher one.gauge := by
    have rungs : ∀ {map : HashedMap K V} {rung : Rung}, map.InBand → map.bucketCount = rung.size →
        map.rung = rung := fun sound count => Rung.size_injective (sound.wellFormed.chained.sized.symm.trans count)
    exact counts.imp (fun up => ⟨rungs start up.1, rungs inBand up.2⟩)
      fun down => ⟨rungs start down.1, rungs inBand down.2⟩
  have far := start.leeway_of_passes next served passes
  have turn := kept.turn (final last List.mem_cons_self) closed
  rw [countSteps_append onward, countSteps_cons closed]
  rcases Nat.le_total (lower.size / 6) (countSteps serve altered one between) with enough | short
  · exact Nat.le_trans enough (Nat.le_add_right _ _)
  · rw [← Nat.sub_add_cancel short] at far
    have ahead := (nears calm).leeway still _ far
    have spent : lower.size / 6 - countSteps serve altered one between ≤ (altered two last reply after).toNat :=
      turn.spent moved ahead
    omega

/-- Ten entries make a table grow; three removals later, with an update, a miss and a lookup among them, the fourth
makes it shrink again. -/
theorem run_spaces_rebuildings_ten :
    ∃ (answers : List (Answer Nat Nat)) (before : HashedMap Nat Nat) (answer : Answer Nat Nat)
        (one : HashedMap Nat Nat) (replies : List (Answer Nat Nat)) (two : HashedMap Nat Nat)
        (reply : Answer Nat Nat) (after : HashedMap Nat Nat),
      runAll serve
        { id := ⟨0⟩, policy := Policy.natural.hashingBy UInt64.ofNat, noOverwrite := false }
        ((List.range 9).map fun key => .insert ⟨.owned, key⟩ ⟨.owned, key⟩) = .ok (answers, before) ∧
      before.serve (.insert ⟨.owned, 9⟩ ⟨.owned, 9⟩) = .ok (answer, one) ∧
      runAll serve one [.insert ⟨.owned, 3⟩ ⟨.owned, 30⟩, .remove 0, .remove 99, .remove 1, .lookup 3, .remove 2] =
        .ok (replies, two) ∧
      two.serve (.remove 3) = .ok (reply, after) ∧
      before.bucketCount = 13 ∧ one.bucketCount = 29 ∧ two.epoch = one.epoch ∧ after.epoch ≠ two.epoch ∧
      13 / 6 ≤ countSteps serve altered one ([.insert ⟨.owned, 3⟩ ⟨.owned, 30⟩, .remove 0, .remove 99, .remove 1,
        .lookup 3, .remove 2] ++ [.remove 3]) := by
  obtain ⟨answers, before, answer, one, replies, two, reply, after, ran, served, onward, closed, spaced⟩ :=
    run_spaces_rebuildings ⟨0⟩ (Policy.natural.hashingBy UInt64.ofNat) false
      ((List.range 9).map fun key => .insert ⟨.owned, key⟩ ⟨.owned, key⟩)
      [.insert ⟨.owned, 3⟩ ⟨.owned, 30⟩, .remove 0, .remove 99, .remove 1, .lookup 3, .remove 2]
      (.insert ⟨.owned, 9⟩ ⟨.owned, 9⟩) (.remove 3) (by simp)
  obtain ⟨rfl, rfl⟩ := Prod.mk.inj (Except.ok.inj ran)
  obtain ⟨rfl, rfl⟩ := Prod.mk.inj (Except.ok.inj served)
  obtain ⟨rfl, rfl⟩ := Prod.mk.inj (Except.ok.inj onward)
  obtain ⟨rfl, rfl⟩ := Prod.mk.inj (Except.ok.inj closed)
  exact ⟨_, _, _, _, _, _, _, _, ran, served, onward, closed, rfl, rfl, rfl, Nat.succ_ne_self _,
    spaced 0 1 rfl (.inl ⟨rfl, rfl⟩) rfl (Nat.succ_ne_self _)⟩

end HashedMap

end KeyedStore
