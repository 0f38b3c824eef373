import Mathlib.Data.List.Perm.Basic
import Mathlib.Data.List.Nodup
import KeyedStore.Slots
/-!
Which handles of a store of contents are in use. An index over the contents is right when it lists
exactly these, each once, in whatever order. Each operation on the slots has its counterpart on such a
list, and a release of a whole index succeeds and leaves nothing.
-/
namespace KeyedStore.Slots

variable {α β : Type}

/-- The list names every handle that is in use, and names it once; no handle on it is dead, and its
length is the number of contents. -/
structure InUse (slots : Slots α) (handles : List Handle) : Prop where
  nodup : handles.Nodup
  live : ∀ handle, handle ∈ handles ↔ slots.contains handle = true
  size : slots.size = handles.length

/-- Only a content that is there is replaced. -/
theorem isSome_of_replace {slots after : Slots α} {handle : Handle} {content : α}
    (done : slots.replace handle content = .ok after) : (slots.get? handle).isSome = true := by
  cases held : slots.get? handle with
  | some old => rfl
  | none =>
    rw [replace_eq_error.mpr ⟨rfl, held⟩] at done
    cases done

namespace InUse

variable {slots after : Slots α} {handles rest : List Handle} {handle : Handle} {content : α}

theorem empty : (Slots.empty : Slots α).InUse [] :=
  ⟨.nil, fun handle => by simp [contains, get?_empty], rfl⟩

theorem perm (inUse : slots.InUse handles) (same : handles.Perm rest) : slots.InUse rest :=
  ⟨same.nodup_iff.mp inUse.nodup, fun handle => same.mem_iff.symm.trans (inUse.live handle),
    inUse.size.trans same.length_eq⟩

theorem get? (inUse : slots.InUse handles) (member : handle ∈ handles) :
    ∃ content, slots.get? handle = some content :=
  Option.isSome_iff_exists.mp ((inUse.live handle).mp member)

theorem get?_eq_none (inUse : slots.InUse handles) (absent : handle ∉ handles) : slots.get? handle = none := by
  have dead := (inUse.live handle).not.mp absent
  simpa [contains] using dead

theorem next_notMem (inUse : slots.InUse handles) : slots.next ∉ handles := by
  intro member
  have live := (inUse.live _).mp member
  simp [contains, get?_next] at live

theorem insert (inUse : slots.InUse handles) : (slots.insert content).InUse (slots.next :: handles) := by
  refine ⟨List.nodup_cons.mpr ⟨inUse.next_notMem, inUse.nodup⟩, ?_, ?_⟩
  · intro handle
    simp only [List.mem_cons, inUse.live, contains, get?_insert]
    split <;> simp_all
  · simp only [List.length_cons, ← inUse.size]
    rfl

theorem replace (inUse : slots.InUse handles) (done : slots.replace handle content = .ok after) :
    after.InUse handles := by
  have found := isSome_of_replace done
  refine ⟨inUse.nodup, ?_, (size_replace done).trans inUse.size⟩
  intro other
  rw [inUse.live, contains, contains, get?_replace done]
  split
  · rename_i same
    simp [same, found]
  · rfl

theorem take (inUse : slots.InUse (handle :: rest)) (done : slots.take handle = .ok (content, after)) :
    after.InUse rest := by
  obtain ⟨fresh, nodup⟩ := List.nodup_cons.mp inUse.nodup
  refine ⟨nodup, ?_, ?_⟩
  · intro other
    have live := inUse.live other
    rw [List.mem_cons, contains] at live
    rw [contains, get?_take done]
    split
    · rename_i same
      simp [same, fresh]
    · rename_i different
      rw [← live]
      simp [different]
  · have fewer := size_take done
    rw [inUse.size, List.length_cons] at fewer
    exact Nat.succ.inj fewer

end InUse

/-! ### All handles that were issued -/

/-- The handles that were issued, in the order of issue. -/
def issued (slots : Slots α) : List Handle := (List.range slots.places.size).map Handle.mk

theorem places_eq (slots : Slots α) : slots.places.toList = slots.issued.map slots.get? := by
  apply List.ext_getElem?
  intro index
  by_cases within : index < slots.places.size
  · simp [issued, get?, within]
  · simp [issued, within]

theorem nodup_issued (slots : Slots α) : slots.issued.Nodup :=
  List.nodup_range.map fun _ _ same => congrArg Handle.index same

theorem mem_issued {slots : Slots α} {handle : Handle} (live : slots.contains handle = true) :
    handle ∈ slots.issued := by
  obtain ⟨content, held⟩ := Option.isSome_iff_exists.mp live
  exact List.mem_map.mpr ⟨handle.index, List.mem_range.mpr (get?_eq_some held).1, rfl⟩

/-- A list of the handles in use is made of those among the issued ones. -/
theorem perm_issued {slots : Slots α} {handles : List Handle} (nodup : handles.Nodup)
    (live : ∀ handle, handle ∈ handles ↔ slots.contains handle = true) :
    handles.Perm (slots.issued.filter slots.contains) := by
  refine (List.perm_ext_iff_of_nodup nodup (slots.nodup_issued.filter _)).mpr fun handle => ?_
  rw [live, List.mem_filter, and_iff_right_of_imp mem_issued]

/-- The number of contents need not be asked for: it is that of the handles in use. -/
theorem inUse_of_live {slots : Slots α} {handles : List Handle} (nodup : handles.Nodup)
    (live : ∀ handle, handle ∈ handles ↔ slots.contains handle = true) : slots.InUse handles := by
  refine ⟨nodup, live, ?_⟩
  rw [(perm_issued nodup live).length_eq, slots.size_eq, ← Array.countP_toList, places_eq, List.countP_map,
    List.countP_eq_length_filter]
  rfl

theorem inUse_issued (slots : Slots α) : slots.InUse (slots.issued.filter slots.contains) := by
  apply inUse_of_live (slots.nodup_issued.filter _)
  intro handle
  rw [List.mem_filter, and_iff_right_of_imp mem_issued]

/-- As many live handles as there are contents leave no content out. -/
theorem size_eq_length_iff {slots : Slots α} {handles : List Handle} (nodup : handles.Nodup)
    (live : ∀ handle ∈ handles, slots.contains handle = true) :
    slots.size = handles.length ↔ ∀ handle, slots.contains handle = true → handle ∈ handles := by
  have all := slots.inUse_issued
  constructor
  · intro same handle used
    have within : handles ⊆ slots.issued.filter slots.contains :=
      fun other member => (all.live other).mpr (live other member)
    have enough : (slots.issued.filter slots.contains).length ≤ handles.length :=
      Nat.le_of_eq (all.size.symm.trans same)
    have perm := (List.subperm_of_subset nodup within).perm_of_length_le enough
    exact perm.mem_iff.mpr ((all.live handle).mpr used)
  · intro covered
    exact (inUse_of_live nodup fun handle => ⟨live handle, covered handle⟩).size

/-- Contents are counted by going through the list of their handles. -/
theorem InUse.count_eq {slots : Slots α} {handles : List Handle} (inUse : slots.InUse handles)
    (has : α → Bool) : slots.count has = handles.countP (fun handle => (slots.get? handle).any has) := by
  rw [count, ← Array.countP_toList, places_eq, List.countP_map,
    (perm_issued inUse.nodup inUse.live).countP_eq, List.countP_filter]
  refine List.countP_congr fun handle _ => ?_
  simp only [Function.comp_apply, contains, Bool.and_eq_true]
  cases slots.get? handle <;> simp

/-! ### Places -/

/-- Slots are what their places are. -/
theorem eq_of_places {first second : Slots α} (same : first.places = second.places) : first = second := by
  rcases first with ⟨places, size, size_eq⟩
  rcases second with ⟨others, count, count_eq⟩
  cases same
  cases size_eq
  cases count_eq
  rfl

/-- Slots that have issued as many handles, with the same contents behind each, are the same. -/
theorem eq_of_get? {first second : Slots α} (next : first.next = second.next)
    (same : ∀ handle, first.get? handle = second.get? handle) : first = second := by
  have size : first.places.size = second.places.size := congrArg Handle.index next
  refine eq_of_places (Array.ext size fun index here there => ?_)
  have seen := same ⟨index⟩
  rw [get?, get?, Array.getElem?_eq_getElem here, Array.getElem?_eq_getElem there] at seen
  exact seen

theorem places_replace {slots after : Slots α} {target : Handle} {content : α}
    (done : slots.replace target content = .ok after) :
    after.places = slots.places.setIfInBounds target.index (some content) := by
  unfold replace at done
  split at done
  · cases done
  · rename_i found
    cases done
    obtain ⟨within, _⟩ := get?_eq_some found
    simp [Array.setIfInBounds, within]

theorem places_take {slots after : Slots α} {target : Handle} {content : α}
    (done : slots.take target = .ok (content, after)) :
    after.places = slots.places.setIfInBounds target.index none := by
  unfold take at done
  split at done
  · cases done
  · rename_i found
    cases done
    obtain ⟨within, _⟩ := get?_eq_some found
    simp [Array.setIfInBounds, within]

/-! ### Contents turned into others -/

/-- Every content turned into another, behind the same handle. -/
def map (slots : Slots α) (turned : α → β) : Slots β where
  places := slots.places.map (Option.map turned)
  size := slots.size
  size_eq := by
    rw [slots.size_eq, Array.countP_map]
    exact congrFun (congrArg Array.countP (funext fun place => (Option.isSome_map).symm)) slots.places

theorem get?_map (slots : Slots α) (turned : α → β) (handle : Handle) :
    (slots.map turned).get? handle = (slots.get? handle).map turned := by
  rw [get?, get?, map, Array.getElem?_map]
  cases slots.places[handle.index]? with
  | none => rfl
  | some place => rfl

theorem next_map (slots : Slots α) (turned : α → β) : (slots.map turned).next = slots.next := by
  simp [next, map]

theorem map_empty (turned : α → β) : (empty : Slots α).map turned = empty :=
  eq_of_places (by simp [map, empty])

theorem isFull_map (slots : Slots α) (turned : α → β) : (slots.map turned).isFull = slots.isFull := rfl

theorem map_id (slots : Slots α) : slots.map id = slots :=
  eq_of_places (by simp [map])

theorem contains_map (slots : Slots α) (turned : α → β) (handle : Handle) :
    (slots.map turned).contains handle = slots.contains handle := by
  rw [contains, contains, get?_map, Option.isSome_map]

theorem fetch_map (slots : Slots α) (turned : α → β) (handle : Handle) :
    (slots.map turned).fetch handle = turned <$> slots.fetch handle := by
  rw [fetch, fetch, get?_map]
  cases slots.get? handle <;> rfl

theorem insert_map (slots : Slots α) (turned : α → β) (content : α) :
    (slots.map turned).insert (turned content) = (slots.insert content).map turned := by
  apply eq_of_places
  simp [insert, map]

theorem replace_map (slots : Slots α) (turned : α → β) (handle : Handle) (content : α) :
    (slots.map turned).replace handle (turned content) =
      (fun after => after.map turned) <$> slots.replace handle content := by
  have seen := get?_map slots turned handle
  cases held : slots.get? handle with
  | none =>
    rw [held] at seen
    rw [replace_eq_error.mpr ⟨rfl, seen⟩, replace_eq_error.mpr ⟨rfl, held⟩]
    rfl
  | some old =>
    rw [held] at seen
    obtain ⟨after, done⟩ := replace_of_get? held content
    obtain ⟨other, also⟩ := replace_of_get? seen (turned content)
    have same : other = after.map turned := by
      apply eq_of_places
      simp only [places_replace also, map, places_replace done, Array.map_setIfInBounds, Option.map_some]
    rw [done, also, same]
    rfl

theorem take_map (slots : Slots α) (turned : α → β) (handle : Handle) :
    (slots.map turned).take handle =
      (fun (content, after) => (turned content, after.map turned)) <$> slots.take handle := by
  have seen := get?_map slots turned handle
  cases held : slots.get? handle with
  | none =>
    rw [held] at seen
    rw [take_eq_error.mpr ⟨rfl, seen⟩, take_eq_error.mpr ⟨rfl, held⟩]
    rfl
  | some content =>
    rw [held] at seen
    obtain ⟨after, done⟩ := take_of_get? held
    obtain ⟨other, also⟩ := take_of_get? seen
    have same : other = after.map turned := by
      apply eq_of_places
      simp only [places_take also, map, places_take done, Array.map_setIfInBounds, Option.map_none]
    rw [done, also, same]
    rfl

/-! ### Releases -/

/-- Releasing the contents behind a whole index, one after the other, never meets a dead handle and
leaves nothing in use. -/
theorem release_inUse {slots : Slots α} (items : List β) (handleOf : β → Handle)
    (inUse : slots.InUse (items.map handleOf)) :
    ∃ after, items.foldlM (fun slots item => do return (← slots.take (handleOf item)).2) slots =
        (.ok after : Except Fault (Slots α)) ∧ after.InUse [] := by
  induction items generalizing slots with
  | nil => exact ⟨slots, rfl, inUse⟩
  | cons item items ih =>
    obtain ⟨content, held⟩ := inUse.get? List.mem_cons_self
    obtain ⟨middle, taken⟩ := take_of_get? held
    obtain ⟨after, done, empty⟩ := ih (inUse.take taken)
    refine ⟨after, ?_, empty⟩
    rw [List.foldlM_cons, taken]
    exact done

/-- A release gives no handle back. -/
theorem next_release {slots after : Slots α} (items : List β) (handleOf : β → Handle)
    (done : items.foldlM (fun slots item => do return (← slots.take (handleOf item)).2) slots =
      (.ok after : Except Fault (Slots α))) : after.next = slots.next := by
  induction items generalizing slots with
  | nil =>
    cases done
    rfl
  | cons item items ih =>
    rw [List.foldlM_cons] at done
    cases taken : slots.take (handleOf item) with
    | error fault =>
      rw [taken] at done
      cases done
    | ok result =>
      rw [taken] at done
      exact (ih done).trans (next_take taken)

end KeyedStore.Slots
