import KeyedStore.Proofs.HashedMap.Changes
/-!
What lasts as long as the epoch of a hashed map. Only a rebuilding gives an entry another bucket or another
serial number, and every rebuilding is counted; handles are never issued again. So when a map is looked at
twice in one epoch, whatever is there the second time and was issued before the first stands where it stood.
-/
namespace KeyedStore.HashedMap

variable {K V : Type}

/-- What holds between a map and what it becomes. -/
structure Steady (map after : HashedMap K V) : Prop where
  id : after.id = map.id
  epoch : map.epoch ≤ after.epoch
  issued : map.slots.next.index ≤ after.slots.next.index
  bucketCount : after.epoch = map.epoch → after.bucketCount = map.bucketCount
  kept : after.epoch = map.epoch → ∀ link ∈ after.links, link.handle.index < map.slots.next.index →
    link ∈ map.links

variable {map middle after : HashedMap K V} {granted : Bool}

theorem Steady.refl (map : HashedMap K V) : map.Steady map :=
  ⟨rfl, Nat.le_refl _, Nat.le_refl _, fun _ => rfl, fun _ _ member _ => member⟩

theorem Steady.trans (one : map.Steady middle) (two : middle.Steady after) : map.Steady after := by
  have first := one.epoch
  have second := two.epoch
  refine ⟨two.id.trans one.id, Nat.le_trans first second, Nat.le_trans one.issued two.issued, ?_, ?_⟩
  · intro same
    exact (two.bucketCount (by omega)).trans (one.bucketCount (by omega))
  · intro same link member before
    have between := two.kept (by omega) link member (Nat.lt_of_lt_of_le before one.issued)
    exact one.kept (by omega) link between before

/-- A rebuilding starts another epoch, about which nothing is said. -/
theorem steady_of_epoch (id : after.id = map.id) (epoch : after.epoch = map.epoch + 1)
    (issued : map.slots.next.index ≤ after.slots.next.index) : map.Steady after :=
  ⟨id, by omega, issued, fun same => by omega, fun same => by omega⟩

/-- A map on the same rung that has lost links at most. -/
theorem steady_of_subset (wellFormed : map.WellFormed) (kept : after.WellFormed) (id : after.id = map.id)
    (epoch : after.epoch = map.epoch) (rung : after.rung = map.rung)
    (issued : after.slots.next = map.slots.next) (subset : after.links ⊆ map.links) : map.Steady after :=
  ⟨id, Nat.le_of_eq epoch.symm, Nat.le_of_eq (congrArg Handle.index issued).symm,
    fun _ => wellFormed.bucketCount_of_rung kept rung, fun _ _ member _ => subset member⟩

theorem Settled.steady (settled : map.Settled granted after) : map.Steady after := by
  cases settled with
  | still => exact .refl map
  | moved _ _ rebuilt =>
    have slots : after.slots = map.slots := by rw [rebuilt.frame]
    apply steady_of_epoch
    · rw [rebuilt.frame]
    · rw [rebuilt.frame]
    · exact slots ▸ Nat.le_refl _

/-- A link that is attached has a handle of its own. -/
theorem Extended.steady {longer : HashedMap K V} {key : Held K} {value : Held V} (transactions : Nat)
    (chained : map.Chained) (extended : map.Extended [map.fresh key] longer) :
    map.Steady { longer with slots := map.slots.insert value, transactions := transactions } := by
  have epoch : longer.epoch = map.epoch := by rw [extended.frame]
  refine ⟨?_, Nat.le_of_eq epoch.symm, ?_, fun _ => extended.bucketCount_eq chained, ?_⟩
  · rw [extended.frame]
  · change map.slots.next.index ≤ (map.slots.insert value).next.index
    rw [Slots.next_insert]
    exact Nat.le_succ _
  · intro _ link member before
    change link ∈ longer.links at member
    obtain ⟨bucket, chain, held, inside⟩ := mem_links.mp member
    have within : bucket < map.buckets.size := by
      have bound := (Array.getElem?_eq_some_iff.mp held).1
      have count : longer.buckets.size = map.buckets.size := extended.bucketCount_eq chained
      omega
    have former := Array.getElem?_eq_getElem within
    rw [extended.chains bucket _ former] at held
    obtain rfl := Option.some.inj held
    rcases List.mem_append.mp inside with old | new
    · exact mem_links.mpr ⟨bucket, _, former, old⟩
    · have added := List.mem_of_mem_filter new
      simp only [numbered, List.mem_singleton] at added
      subst added
      exact absurd before (Nat.lt_irrefl _)

theorem Insertion.steady {key : Held K} {value : Held V} {outcome : Except AddError Addition}
    (insertion : Insertion map granted key value outcome after) (wellFormed : map.WellFormed) : map.Steady after := by
  have kept := insertion.wellFormed wellFormed
  cases insertion with
  | refused => exact .refl map
  | full => exact .refl map
  | updated met free done =>
    exact steady_of_subset wellFormed kept rfl rfl rfl (Slots.next_replace done) (List.Subset.refl _)
  | inserted missed room settling extended =>
    exact settling.steady.trans (extended.steady _ (settling.wellFormed wellFormed).chained)

theorem Detached.steady {link : Link K} {value : Held V} {slots : Slots (Held V)} {shorter : HashedMap K V}
    (transactions : Nat) (wellFormed : map.WellFormed) (member : link ∈ map.links)
    (taken : map.slots.take link.handle = .ok (value, slots)) (detached : map.Detached link shorter) :
    map.Steady { shorter with slots := slots, transactions := transactions } := by
  obtain ⟨front, back, listed⟩ := List.append_of_mem member
  have left : shorter.links = front ++ back := detached.links front back listed
  refine steady_of_subset wellFormed (wellFormed_shorter wellFormed transactions member taken detached)
    ?_ ?_ ?_ (Slots.next_take taken) ?_
  · rw [detached.frame]
  · rw [detached.frame]
  · rw [detached.frame]
  · change shorter.links ⊆ map.links
    rw [left, listed]
    exact ((List.sublist_cons_self _ _).append_left _).subset

theorem Removal.steady {key : K} {value : Option (Held V)} (removal : Removal map granted key value after)
    (wellFormed : map.WellFormed) : map.Steady after := by
  cases removal with
  | missed => exact .refl map
  | removed met taken detached enough =>
    exact detached.steady _ wellFormed (List.mem_of_find?_eq_some met) taken
  | shrunk met taken detached sparse settling =>
    exact (detached.steady _ wellFormed (List.mem_of_find?_eq_some met) taken).trans settling.steady

theorem Cleared.steady (cleared : map.Cleared granted after) (wellFormed : map.WellFormed) : map.Steady after := by
  have kept := cleared.wellFormed wellFormed
  cases cleared with
  | @already slots empty issued =>
    refine steady_of_subset wellFormed kept rfl rfl rfl issued ?_
    rw [links_of_bare (bare_released wellFormed slots)]
    exact List.nil_subset _
  | @moved slots after _ empty issued _ rebuilt =>
    have held : after.slots = slots := by rw [rebuilt.frame]; rfl
    have next : after.slots.next = map.slots.next := held ▸ issued
    apply steady_of_epoch
    · rw [rebuilt.frame]
      rfl
    · rw [rebuilt.frame]
      rfl
    · exact Nat.le_of_eq (congrArg Handle.index next.symm)

theorem Changed.steady {change : Change K V} (changed : Changed map granted change after)
    (wellFormed : map.WellFormed) : map.Steady after := by
  cases changed with
  | insert insertion => exact insertion.steady wellFormed
  | remove removal => exact removal.steady wellFormed
  | clear cleared => exact cleared.steady wellFormed

end KeyedStore.HashedMap
