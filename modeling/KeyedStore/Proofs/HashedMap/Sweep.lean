import KeyedStore.Proofs.Tour
import KeyedStore.Proofs.HashedMap.Walk
import KeyedStore.Proofs.HashedMap.Epoch
/-!
What a traversal by buckets has to return while the entries change between its steps. Each step sees the map
as it is at that moment and knows the place of the entry returned last; in the epoch in which the traversal
was started it returns the first live entry behind that place, and ends when there is none. In any other
epoch it ends. That no entry is returned twice, and that none which stays live is left out, follows from this
alone, as entries keep their places within an epoch.
-/
namespace KeyedStore

variable {K V : Type}

/-- A live entry: the bucket it stands in, its link there, and its value. -/
structure Standing (K V : Type) where
  bucket : Nat
  link : Link K
  value : Held V

namespace Standing

def place (standing : Standing K V) : Place := ⟨standing.bucket, standing.link.serial⟩

def handle (standing : Standing K V) : Handle := standing.link.handle

/-- Key and value as they are reported. -/
def pair (standing : Standing K V) : K × V := (standing.link.key.val, standing.value.val)

end Standing

namespace HashedMap

/-- The live entries, by bucket and along each chain. -/
def standings (map : HashedMap K V) : List (Standing K V) :=
  map.lineup.filterMap fun item => (map.slots.get? item.2.handle).map (⟨item.1, item.2, ·⟩)

/-- The first of the live entries behind the last place. -/
structure NextStanding (map : HashedMap K V) (last : Option Place) (standing : Standing K V) : Prop where
  member : standing ∈ map.standings
  beyond : Place.beyond last standing.place = true
  least : ∀ other ∈ map.standings, Place.beyond last other.place = true →
    other = standing ∨ standing.place.Before other.place

variable {map after : HashedMap K V} {standing : Standing K V}

theorem mem_standings : standing ∈ map.standings ↔ (standing.bucket, standing.link) ∈ map.lineup ∧
    map.slots.get? standing.link.handle = some standing.value := by
  simp only [standings, List.mem_filterMap, Option.map_eq_some_iff]
  constructor
  · rintro ⟨item, member, value, held, rfl⟩
    exact ⟨member, held⟩
  · rintro ⟨member, held⟩
    exact ⟨_, member, standing.value, held, rfl⟩

theorem link_mem_links (member : standing ∈ map.standings) : standing.link ∈ map.links :=
  map.map_snd_lineup ▸ List.mem_map_of_mem (f := Prod.snd) (mem_standings.mp member).1

theorem place_eq (wellFormed : map.WellFormed) (member : standing ∈ map.standings) :
    standing.place = map.placeOf standing.link :=
  congrArg (Place.mk · standing.link.serial)
    (wellFormed.chained.bucket_of_mem (mem_standings.mp member).1).symm

/-- The live entries are what the handles in use lead to. -/
theorem exists_standing_iff (wellFormed : map.WellFormed) {handle : Handle} {value : Held V} :
    map.slots.get? handle = some value ↔
      ∃ standing ∈ map.standings, standing.handle = handle ∧ standing.value = value := by
  constructor
  · intro held
    have live : map.slots.contains handle = true := by simp [Slots.contains, held]
    obtain ⟨link, inside, rfl⟩ := List.mem_map.mp ((wellFormed.inUse.live handle).mpr live)
    rw [← map_snd_lineup] at inside
    obtain ⟨item, member, rfl⟩ := List.mem_map.mp inside
    exact ⟨⟨item.1, item.2, value⟩, mem_standings.mpr ⟨member, held⟩, rfl, rfl⟩
  · rintro ⟨standing, member, rfl, rfl⟩
    exact (mem_standings.mp member).2

/-- An entry that is live at two moments of one epoch stands at the same place. -/
theorem Steady.place_eq (steady : map.Steady after) (before : map.WellFormed) (later : after.WellFormed)
    (same : after.epoch = map.epoch) {other : Standing K V} (one : standing ∈ map.standings)
    (two : other ∈ after.standings) (handle : other.handle = standing.handle) :
    other.place = standing.place := by
  obtain ⟨issued, _⟩ := Slots.get?_eq_some (mem_standings.mp one).2
  have kept : other.link ∈ map.links := by
    apply steady.kept same other.link (link_mem_links two)
    rw [show other.link.handle = standing.link.handle from handle]
    exact issued
  have link : other.link = standing.link :=
    List.inj_on_of_nodup_map before.inUse.nodup kept (link_mem_links one) handle
  rw [HashedMap.place_eq before one, HashedMap.place_eq later two, placeOf, placeOf, link,
    steady.bucketCount same]

end HashedMap

/-- One step of a cursor: the map as it was, and what was returned. -/
structure Sight (K V : Type) where
  map : HashedMap K V
  found : Option (K × V)

/-- The steps that a traversal of this epoch may take from here on, with the entries that it returns. -/
inductive Sweep (epoch : Nat) : Progress Place → List (Sight K V) → List (Standing K V) → Prop where
  | idle {progress : Progress Place} : Sweep epoch progress [] []
  | entry {last : Option Place} {map : HashedMap K V} {standing : Standing K V} {sights : List (Sight K V)}
      {met : List (Standing K V)} (present : map.epoch = epoch) (next : map.NextStanding last standing)
      (rest : Sweep epoch (.after (some standing.place)) sights met) :
      Sweep epoch (.after last) (⟨map, some standing.pair⟩ :: sights) (standing :: met)
  | ended {last : Option Place} {map : HashedMap K V} {sights : List (Sight K V)} (present : map.epoch = epoch)
      (nothing : ∀ other ∈ map.standings, Place.beyond last other.place = false)
      (rest : Sweep epoch .finished sights []) : Sweep epoch (.after last) (⟨map, none⟩ :: sights) []
  | outdated {last : Option Place} {map : HashedMap K V} {sights : List (Sight K V)}
      (moved : map.epoch ≠ epoch) (rest : Sweep epoch .finished sights []) :
      Sweep epoch (.after last) (⟨map, none⟩ :: sights) []
  | finished {map : HashedMap K V} {sights : List (Sight K V)} (rest : Sweep epoch .finished sights []) :
      Sweep epoch .finished (⟨map, none⟩ :: sights) []

/-- The maps of these steps are well-formed, and each is what an earlier one has become. -/
structure Sight.Successive (sights : List (Sight K V)) : Prop where
  wellFormed : ∀ sight ∈ sights, sight.map.WellFormed
  steady : sights.Pairwise (·.map.Steady ·.map)

theorem Sight.Successive.tail {sight : Sight K V} {sights : List (Sight K V)}
    (successive : Sight.Successive (sight :: sights)) : Sight.Successive sights :=
  ⟨(List.forall_mem_cons.mp successive.wellFormed).2, (List.pairwise_cons.mp successive.steady).2⟩

/-- Steps on one map may come before steps on what it has become. -/
theorem Sight.Successive.append {map : HashedMap K V} {sights further : List (Sight K V)}
    (successive : Sight.Successive further) (wellFormed : map.WellFormed)
    (seen : ∀ sight ∈ sights, sight.map = map) (since : ∀ sight ∈ further, map.Steady sight.map) :
    Sight.Successive (sights ++ further) := by
  constructor
  · refine List.forall_mem_append.mpr ⟨fun sight member => ?_, successive.wellFormed⟩
    rw [seen sight member]
    exact wellFormed
  · refine List.pairwise_append.mpr ⟨?_, successive.steady, fun one before two after => ?_⟩
    · refine List.pairwise_of_forall_mem_list fun one first two second => ?_
      rw [seen one first, seen two second]
      exact .refl _
    · rw [seen one before]
      exact since two after

namespace Sweep

variable {epoch : Nat} {last : Option Place} {sights : List (Sight K V)} {met : List (Standing K V)}

theorem met_of_finished (sweep : Sweep epoch .finished sights met) : met = [] := by
  cases sweep <;> rfl

/-- The entries of a traversal are what its steps return. -/
theorem filterMap_found {progress : Progress Place} (sweep : Sweep epoch progress sights met) :
    sights.filterMap (·.found) = met.map (·.pair) := by
  induction sweep with
  | idle => rfl
  | @entry _ _ standing _ _ _ _ _ ih => exact congrArg (standing.pair :: ·) ih
  | ended _ _ _ ih => exact ih
  | outdated _ _ ih => exact ih
  | finished _ ih => exact ih

/-- Whatever is returned is live in the map of its step. -/
theorem live_of_mem {progress : Progress Place} (sweep : Sweep epoch progress sights met)
    {standing : Standing K V} (member : standing ∈ met) :
    ∃ sight ∈ sights, sight.map.epoch = epoch ∧ standing ∈ sight.map.standings ∧
      sight.found = some standing.pair := by
  induction sweep with
  | idle => cases member
  | @entry last map returned sights met present next rest ih =>
    rcases List.mem_cons.mp member with rfl | behind
    · exact ⟨_, List.mem_cons_self, present, next.member, rfl⟩
    · obtain ⟨sight, within, same, live, found⟩ := ih behind
      exact ⟨sight, List.mem_cons_of_mem _ within, same, live, found⟩
  | ended => cases member
  | outdated => cases member
  | finished => cases member

/-- Every entry that is returned stands behind all that were returned before it. -/
theorem ascending (sweep : Sweep epoch (.after last) sights met) :
    met.Pairwise (·.place.Before ·.place) ∧ ∀ standing ∈ met, Place.beyond last standing.place = true := by
  induction sights generalizing last met with
  | nil =>
    cases sweep
    exact ⟨.nil, nofun⟩
  | cons sight sights ih =>
    cases sweep with
    | ended => exact ⟨.nil, nofun⟩
    | outdated => exact ⟨.nil, nofun⟩
    | @entry _ map standing _ met present next rest =>
      obtain ⟨later, behind⟩ := ih rest
      have before : ∀ other ∈ met, standing.place.Before other.place :=
        fun other member => Place.beyond_some.mp (behind other member)
      refine ⟨List.pairwise_cons.mpr ⟨before, later⟩, ?_⟩
      intro other member
      rcases List.mem_cons.mp member with rfl | further
      · exact next.beyond
      · exact Place.beyond_of_before next.beyond (before other further)

/-- No entry is returned twice. -/
theorem nodup (sweep : Sweep epoch (.after last) sights met) (successive : Sight.Successive sights) :
    (met.map (·.handle)).Nodup := by
  induction sights generalizing last met with
  | nil =>
    cases sweep
    exact .nil
  | cons sight sights ih =>
    cases sweep with
    | ended => exact .nil
    | outdated => exact .nil
    | @entry _ map standing _ met present next rest =>
      refine List.nodup_cons.mpr ⟨fun again => ?_, ih rest successive.tail⟩
      -- Returned again it would stand where it stood, and not behind.
      obtain ⟨other, member, same⟩ := List.mem_map.mp again
      obtain ⟨sight, within, epoch_eq, live, _⟩ := rest.live_of_mem member
      have steady := (List.pairwise_cons.mp successive.steady).1 sight within
      have place := steady.place_eq (successive.wellFormed _ List.mem_cons_self)
        (successive.wellFormed sight (List.mem_cons_of_mem _ within)) (epoch_eq.trans present.symm)
        next.member live same
      have behind := Place.beyond_some.mp (rest.ascending.2 other member)
      rw [place] at behind
      exact Place.not_before_self _ behind

/-- As long as an entry is live behind the last place, a step in the epoch returns that entry or one before
it. -/
theorem entry_of_ahead {sight : Sight K V} (sweep : Sweep epoch (.after last) (sight :: sights) met)
    (present : sight.map.epoch = epoch) {mine : Standing K V} (member : mine ∈ sight.map.standings)
    (beyond : Place.beyond last mine.place = true) :
    ∃ standing rest, met = standing :: rest ∧ sight.found = some standing.pair ∧
      Sweep epoch (.after (some standing.place)) sights rest ∧
      (mine = standing ∨ standing.place.Before mine.place) := by
  cases sweep with
  | ended _ nothing =>
    rw [nothing mine member] at beyond
    cases beyond
  | outdated moved => exact absurd present moved
  | @entry _ map standing _ met _ next rest =>
    exact ⟨standing, met, rfl, rfl, rest, next.least mine member beyond⟩

/-- An entry that is live at every step up to the end, and was not passed before, has been returned. -/
theorem complete {earlier later : List (Sight K V)} {ending : Sight K V} {handle : Handle}
    (sweep : Sweep epoch (.after last) (earlier ++ ending :: later) met) (silent : ending.found = none)
    (successive : Sight.Successive (earlier ++ ending :: later))
    (throughout : ∀ sight ∈ earlier ++ [ending], sight.map.epoch = epoch ∧
      ∃ standing ∈ sight.map.standings, standing.handle = handle)
    (ahead : ∀ sight ∈ earlier ++ [ending], ∀ standing ∈ sight.map.standings, standing.handle = handle →
      Place.beyond last standing.place = true) :
    handle ∈ met.map (·.handle) := by
  -- At each step the entry is returned, or stays ahead of what is.
  induction earlier generalizing last met with
  | nil =>
    obtain ⟨present, mine, member, known⟩ := throughout ending List.mem_cons_self
    obtain ⟨standing, _, _, found, _⟩ :=
      sweep.entry_of_ahead present member (ahead ending List.mem_cons_self mine member known)
    rw [silent] at found
    cases found
  | cons sight earlier ih =>
    obtain ⟨present, mine, member, known⟩ := throughout sight List.mem_cons_self
    obtain ⟨standing, rest, rfl, _, following, rfl | before⟩ :=
      sweep.entry_of_ahead present member (ahead sight List.mem_cons_self mine member known)
    · exact List.mem_map.mpr ⟨mine, List.mem_cons_self, known⟩
    · refine List.mem_cons_of_mem _ (ih following successive.tail
        (fun other within => throughout other (List.mem_cons_of_mem _ within)) ?_)
      intro other within again live same
      have inside : other ∈ earlier ++ ending :: later := by
        rw [List.append_cons]
        exact List.mem_append_left _ within
      have steady := (List.pairwise_cons.mp successive.steady).1 other inside
      have place := steady.place_eq (successive.wellFormed sight List.mem_cons_self)
        (successive.wellFormed other (List.mem_cons_of_mem _ inside))
        ((throughout other (List.mem_cons_of_mem _ within)).1.trans present.symm) member live
        (same.trans known.symm)
      rw [place]
      exact Place.beyond_some.mpr before

end Sweep

end KeyedStore
