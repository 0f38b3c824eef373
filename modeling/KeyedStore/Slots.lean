import KeyedStore.Outcome
/-!
Storage for the contents of a container. Every stored content is reached through a handle, handles
are issued in ascending order and never twice, and a handle whose content was taken out leads to
nothing from then on. `get?` is the view: each operation below comes with its equation for it.
-/
namespace KeyedStore

/-- A name for one stored content. -/
structure Handle where
  index : Nat
  deriving DecidableEq

/-- Contents by the order in which they were stored. A released place stays empty for good, so the
number of occupied places is counted beside them. -/
structure Slots (α : Type) where
  places : Array (Option α)
  size : Nat
  size_eq : size = places.countP Option.isSome

namespace Slots

variable {α : Type}

private theorem countP_occupied (places : Array (Option α)) (i : Nat) (bound : i < places.size)
    (occupied : places[i].isSome) : 0 < places.countP Option.isSome :=
  Array.countP_pos_iff.mpr ⟨places[i], Array.getElem_mem bound, occupied⟩

def empty : Slots α := ⟨#[], 0, rfl⟩

/-- As many contents as can be numbered by thirty-two bits with three numbers left over (`MAX_ENTRIES`). -/
def capacity : Nat := 0xfffffffd

def isFull (slots : Slots α) : Bool := capacity ≤ slots.size

/-- How many contents have a property. -/
def count (slots : Slots α) (has : α → Bool) : Nat := slots.places.countP (Option.any has)

/-- The content behind a handle, if it is still there. -/
def get? (slots : Slots α) (handle : Handle) : Option α :=
  slots.places[handle.index]?.join

/-- The handle is still in use. -/
def contains (slots : Slots α) (handle : Handle) : Bool :=
  (slots.get? handle).isSome

/-- The content behind a handle that is relied upon to be in use. -/
def fetch (slots : Slots α) (handle : Handle) : Except Fault α :=
  match slots.get? handle with
  | some content => .ok content
  | none => .error .deadHandle

theorem fetch_of_get? {slots : Slots α} {handle : Handle} {content : α} (found : slots.get? handle = some content) :
    slots.fetch handle = .ok content := by
  rw [fetch, found]

/-- The handle that the next insertion issues. -/
def next (slots : Slots α) : Handle := ⟨slots.places.size⟩

/-- Stores a content under the next handle. -/
def insert (slots : Slots α) (content : α) : Slots α where
  places := slots.places.push (some content)
  size := slots.size + 1
  size_eq := by rw [Array.countP_push, slots.size_eq]; rfl

theorem get?_eq_some {slots : Slots α} {handle : Handle} {content : α}
    (found : slots.get? handle = some content) :
    ∃ bound : handle.index < slots.places.size, slots.places[handle.index] = some content := by
  exact Array.getElem?_eq_some_iff.mp (Option.join_eq_some_iff.mp found)

private theorem index_lt {slots : Slots α} {handle : Handle} {content : α}
    (found : slots.get? handle = some content) : handle.index < slots.places.size :=
  (get?_eq_some found).elim fun bound _ => bound

private theorem place_eq {slots : Slots α} {handle : Handle} {content : α}
    (found : slots.get? handle = some content) (bound : handle.index < slots.places.size) :
    slots.places[handle.index] = some content :=
  (get?_eq_some found).elim fun _ occupied => occupied

/-- Puts another content behind a handle that is in use. -/
def replace (slots : Slots α) (handle : Handle) (content : α) : Except Fault (Slots α) :=
  match found : slots.get? handle with
  | none => .error .deadHandle
  | some _ =>
    .ok {
      places := slots.places.set handle.index (some content) (index_lt found)
      size := slots.size
      size_eq := by
        have positive := countP_occupied slots.places handle.index (index_lt found)
          (by simp [place_eq found (index_lt found)])
        rw [Array.countP_set, slots.size_eq, place_eq found (index_lt found)]
        simp only [Option.isSome_some, ↓reduceIte]
        omega }

/-- Takes the content of a handle out. -/
def take (slots : Slots α) (handle : Handle) : Except Fault (α × Slots α) :=
  match found : slots.get? handle with
  | none => .error .deadHandle
  | some content =>
    .ok (content, {
      places := slots.places.set handle.index none (index_lt found)
      size := slots.size - 1
      size_eq := by
        rw [Array.countP_set, slots.size_eq, place_eq found (index_lt found)]
        simp })

/-! ### What each operation does to the view -/

theorem get?_empty (handle : Handle) : (empty : Slots α).get? handle = none := by
  simp [get?, empty]

/-- An insertion is seen behind the new handle and nowhere else. -/
theorem get?_insert (slots : Slots α) (content : α) (handle : Handle) :
    (slots.insert content).get? handle =
      if handle = slots.next then some content else slots.get? handle := by
  cases handle with
  | mk index =>
    simp only [get?, insert, next, Handle.mk.injEq, Array.getElem?_push]
    split <;> rfl

/-- A handle that was not issued yet leads nowhere. -/
theorem get?_next (slots : Slots α) : slots.get? slots.next = none := by
  simp [get?, next]

theorem get?_replace {slots after : Slots α} {target : Handle} {content : α}
    (done : slots.replace target content = .ok after) (handle : Handle) :
    after.get? handle = if handle = target then some content else slots.get? handle := by
  unfold replace at done
  split at done
  · cases done
  · rename_i old found
    cases done
    cases handle with
    | mk index =>
      cases target with
      | mk goal =>
        by_cases same : index = goal
        · subst same
          simp [get?]
        · simp [get?, same, Ne.symm same]

theorem get?_take {slots after : Slots α} {target : Handle} {content : α}
    (done : slots.take target = .ok (content, after)) (handle : Handle) :
    after.get? handle = if handle = target then none else slots.get? handle := by
  unfold take at done
  split at done
  · cases done
  · rename_i old found
    cases done
    cases handle with
    | mk index =>
      cases target with
      | mk goal =>
        by_cases same : index = goal
        · subst same
          simp [get?]
        · simp [get?, same, Ne.symm same]

/-- What is taken out is what was seen. -/
theorem get?_of_take {slots after : Slots α} {target : Handle} {content : α}
    (done : slots.take target = .ok (content, after)) : slots.get? target = some content := by
  unfold take at done
  split at done
  · cases done
  · rename_i found
    cases done
    exact found

theorem replace_eq_error {slots : Slots α} {handle : Handle} {content : α} {fault : Fault} :
    slots.replace handle content = .error fault ↔
      fault = .deadHandle ∧ slots.get? handle = none := by
  unfold replace
  split <;> simp_all [eq_comm]

theorem take_eq_error {slots : Slots α} {handle : Handle} {fault : Fault} :
    slots.take handle = .error fault ↔ fault = .deadHandle ∧ slots.get? handle = none := by
  unfold take
  split <;> simp_all [eq_comm]

/-- A handle that is in use can be given another content. -/
theorem replace_of_get? {slots : Slots α} {handle : Handle} {old : α} (found : slots.get? handle = some old)
    (content : α) : ∃ after, slots.replace handle content = .ok after := by
  cases done : slots.replace handle content with
  | ok after => exact ⟨after, rfl⟩
  | error fault => simp [(replace_eq_error.mp done).2] at found

/-- A handle that is in use can be released. -/
theorem take_of_get? {slots : Slots α} {handle : Handle} {content : α}
    (found : slots.get? handle = some content) : ∃ after, slots.take handle = .ok (content, after) := by
  cases done : slots.take handle with
  | ok result =>
    obtain ⟨taken, after⟩ := result
    have same := (get?_of_take done).symm.trans found
    exact ⟨after, by rw [Option.some.inj same]⟩
  | error fault => simp [(take_eq_error.mp done).2] at found

theorem size_replace {slots after : Slots α} {target : Handle} {content : α}
    (done : slots.replace target content = .ok after) : after.size = slots.size := by
  unfold replace at done
  split at done
  · cases done
  · cases done; rfl

theorem size_take {slots after : Slots α} {target : Handle} {content : α}
    (done : slots.take target = .ok (content, after)) : after.size + 1 = slots.size := by
  have found := get?_of_take done
  have positive := countP_occupied slots.places target.index (index_lt found)
    (by simp [place_eq found (index_lt found)])
  rw [← slots.size_eq] at positive
  unfold take at done
  split at done
  · cases done
  · cases done; exact Nat.sub_add_cancel positive

private theorem ite_eq_toNat (answer : Bool) : (if answer = true then 1 else 0) = answer.toNat := by
  cases answer <;> rfl

/-- A content that is there is counted once if it has the property. -/
theorem toNat_le_count {slots : Slots α} {handle : Handle} {content : α} (held : slots.get? handle = some content)
    (has : α → Bool) : (has content).toNat ≤ slots.count has := by
  obtain ⟨bound, there⟩ := get?_eq_some held
  cases yes : has content with
  | false => exact Nat.zero_le _
  | true => exact Array.countP_pos_iff.mpr ⟨some content, there ▸ Array.getElem_mem bound, yes⟩

theorem count_replace {slots after : Slots α} {target : Handle} {old content : α}
    (held : slots.get? target = some old) (done : slots.replace target content = .ok after) (has : α → Bool) :
    after.count has + (has old).toNat = slots.count has + (has content).toNat := by
  have counted := toNat_le_count held has
  obtain ⟨bound, there⟩ := get?_eq_some held
  have same : after.count has = slots.count has - (has old).toNat + (has content).toNat := by
    unfold replace at done
    split at done
    · cases done
    · cases done
      simp only [count, Array.countP_set, there, Option.any_some, ite_eq_toNat]
  omega

theorem count_take {slots after : Slots α} {target : Handle} {content : α}
    (done : slots.take target = .ok (content, after)) (has : α → Bool) :
    after.count has + (has content).toNat = slots.count has := by
  have counted := toNat_le_count (get?_of_take done) has
  obtain ⟨bound, there⟩ := get?_eq_some (get?_of_take done)
  have same : after.count has = slots.count has - (has content).toNat := by
    unfold take at done
    split at done
    · cases done
    · cases done
      simp only [count, Array.countP_set, there, Option.any_some, ite_eq_toNat]
      rfl
  omega

/-- Handles are issued in ascending order: no operation gives one back. -/
theorem next_insert (slots : Slots α) (content : α) :
    (slots.insert content).next = ⟨slots.next.index + 1⟩ := by
  simp [next, insert]

theorem next_replace {slots after : Slots α} {target : Handle} {content : α}
    (done : slots.replace target content = .ok after) : after.next = slots.next := by
  unfold replace at done
  split at done
  · cases done
  · cases done; simp [next]

theorem next_take {slots after : Slots α} {target : Handle} {content : α}
    (done : slots.take target = .ok (content, after)) : after.next = slots.next := by
  unfold take at done
  split at done
  · cases done
  · cases done; simp [next]

end Slots

/-- A walk along handles. As long as there is a handle: acts on it, and goes on with the handle that the action names.
The walk is given up when it goes on beyond a number of steps. -/
def wander {σ : Type} (act : σ → Handle → Except Fault (Option Handle × σ)) :
    Nat → Option Handle → σ → Except Fault σ
  | _, none, state => .ok state
  | 0, some _, _ => .error .endlessWalk
  | limit + 1, some handle, state => do
    let (next, state) ← act state handle
    wander act limit next state

@[simp] theorem wander_none {σ : Type} (act : σ → Handle → Except Fault (Option Handle × σ)) (limit : Nat)
    (state : σ) : wander act limit none state = .ok state := by
  cases limit <;> rfl

/-- A step that goes through leaves the rest of the walk. -/
theorem wander_step {σ : Type} {act : σ → Handle → Except Fault (Option Handle × σ)} {handle : Handle}
    {next : Option Handle} {state after : σ} (acted : act state handle = .ok (next, after)) (limit : Nat) :
    wander act (limit + 1) (some handle) state = wander act limit next after := by
  rw [wander, acted]
  rfl

end KeyedStore
