import KeyedStore.Proofs.Policy
/-!
What a traversal in key order has to return while the entries change between its steps. Each step sees
the entries that are live at that moment and knows the key returned last; it returns the least entry with
a greater key, and ends when there is none. That keys ascend and that no key which stays live is skipped
follows from this alone.
-/
namespace KeyedStore

variable {M K V : Type}

/-- The key is greater than the one returned last, if one was. -/
def Policy.beyond (policy : Policy K V) (last : Option K) (key : K) : Bool :=
  last.all (policy.compare · key == .lt)

/-- One step of a traversal: the entries that were live, and what was returned. -/
structure Visit (M K V : Type) where
  live : Ledger M K V
  found : Option (K × V)

/-- What can happen to a map and the cursors it issued. A cursor is meant by the number of cursors that
were started before it. -/
inductive Event (K V : Type) where
  | change (change : Change K V)
  | start
  | advance (cursor : Nat)

/-- Every cursor is as is said of its number. Of the numbers that no cursor has yet the same is said, as of a new
cursor. -/
structure Numbered {σ τ : Type} (holds : σ → τ → Prop) (fresh : τ) (cursors : List σ) (said : Nat → τ) : Prop where
  holds : ∀ number cursor, cursors[number]? = some cursor → holds cursor (said number)
  fresh : ∀ number, cursors.length ≤ number → said number = fresh

namespace Numbered

variable {σ τ : Type} {holds : σ → τ → Prop} {fresh : τ} {cursors : List σ} {said later : Nat → τ} {cursor : σ}

theorem started (numbered : Numbered holds fresh cursors said) (new : holds cursor fresh) :
    Numbered holds fresh (cursors ++ [cursor]) said := by
  constructor
  · intro number found stood
    rcases Nat.lt_or_ge number cursors.length with old | beyond
    · rw [List.getElem?_append_left old] at stood
      exact numbered.holds number found stood
    · rw [List.getElem?_append_right beyond, List.getElem?_singleton] at stood
      split at stood
      · cases stood
        rw [numbered.fresh number beyond]
        exact new
      · cases stood
  · intro number beyond
    rw [List.length_append] at beyond
    apply numbered.fresh
    omega

/-- A cursor moves, and nothing else is said of the others. -/
theorem moved {number : Nat} (numbered : Numbered holds fresh cursors said) (within : number < cursors.length)
    (going : holds cursor (later number)) (elsewhere : ∀ other, other ≠ number → later other = said other) :
    Numbered holds fresh (cursors.set number cursor) later := by
  constructor
  · intro other found stood
    by_cases same : other = number
    · subst same
      rw [List.getElem?_set_self within] at stood
      cases stood
      exact going
    · rw [List.getElem?_set_ne (Ne.symm same)] at stood
      rw [elsewhere other same]
      exact numbered.holds other found stood
  · intro other beyond
    rw [List.length_set] at beyond
    have apart : other ≠ number := by omega
    rw [elsewhere other apart]
    exact numbered.fresh other beyond

end Numbered

/-- The live entries after an event: a change is made to the list, other events leave it. -/
def Event.applied [BEq M] (rules : Rules M K V) (ledger : Ledger M K V) : Event K V → Ledger M K V
  | .change made => (Ledger.serve rules ledger made.request).2
  | .start => ledger
  | .advance _ => ledger

/-- The steps of one cursor in a run: what it returned, with the entries that were live then. -/
def visits [BEq M] (rules : Rules M K V) (number : Nat) :
    Ledger M K V → List (Event K V) → List (Option (Nat × Option (K × V))) → List (Visit M K V)
  | ledger, event :: events, report :: reports =>
    let rest := visits rules number (event.applied rules ledger) events reports
    match report with
    | some (cursor, found) => if cursor = number then ⟨ledger, found⟩ :: rest else rest
    | none => rest
  | _, _, _ => []

/-- How far a traversal has come: past the key returned last, or to its end. -/
inductive Progress (K : Type) where
  | after (last : Option K)
  | finished

/-- The least of the live entries whose key is greater than the one returned last. -/
structure Ledger.Next (policy : Policy K V) (last : Option K) (live : Ledger M K V)
    (record : Record M K V) : Prop where
  member : record ∈ live
  beyond : policy.beyond last record.key.val = true
  least : ∀ other ∈ live, policy.beyond last other.key.val = true →
    other = record ∨ Record.Before policy record other

/-- The steps that a traversal may take from here on. -/
inductive Tour (policy : Policy K V) : Progress K → List (Visit M K V) → Prop where
  | idle {progress : Progress K} : Tour policy progress []
  | entry {last : Option K} {live : Ledger M K V} {record : Record M K V} {visits : List (Visit M K V)}
      (next : Ledger.Next policy last live record) (rest : Tour policy (.after (some record.key.val)) visits) :
      Tour policy (.after last) (⟨live, some record.pair⟩ :: visits)
  | ended {last : Option K} {live : Ledger M K V} {visits : List (Visit M K V)}
      (nothing : ∀ other ∈ live, policy.beyond last other.key.val = false)
      (rest : Tour policy .finished visits) : Tour policy (.after last) (⟨live, none⟩ :: visits)
  | finished {live : Ledger M K V} {visits : List (Visit M K V)} (rest : Tour policy .finished visits) :
      Tour policy .finished (⟨live, none⟩ :: visits)

/-- The keys that a traversal returned, in the order in which it did. -/
def Visit.keys (visits : List (Visit M K V)) : List K := visits.filterMap (·.found.map Prod.fst)

namespace Tour

variable {policy : Policy K V} {last : Option K} {visits : List (Visit M K V)}

theorem keys_of_finished (tour : Tour policy .finished visits) : Visit.keys visits = [] := by
  induction visits with
  | nil => rfl
  | cons visit visits ih =>
    cases tour with
    | finished rest => exact ih rest

/-- Every key that is returned is greater than all that were returned before it. -/
theorem ascending (lawful : policy.Lawful) (tour : Tour policy (.after last) visits) :
    (Visit.keys visits).Pairwise (policy.compare · · = .lt) ∧
      ∀ key ∈ Visit.keys visits, policy.beyond last key = true := by
  have := lawful.order
  induction visits generalizing last with
  | nil => exact ⟨.nil, fun key member => nomatch member⟩
  | cons visit visits ih =>
    cases tour with
    | @ended _ live _ nothing rest =>
      have silent : Visit.keys (⟨live, none⟩ :: visits) = [] := keys_of_finished (.finished rest)
      rw [silent]
      exact ⟨.nil, fun key member => nomatch member⟩
    | @entry _ live record _ next rest =>
      obtain ⟨later, beyond⟩ := ih rest
      have greater : ∀ key ∈ Visit.keys visits, policy.compare record.key.val key = .lt :=
        fun key member => by simpa [Policy.beyond] using beyond key member
      refine ⟨List.pairwise_cons.mpr ⟨greater, later⟩, ?_⟩
      intro key member
      rcases List.mem_cons.mp member with rfl | behind
      · exact next.beyond
      · cases last with
        | none => rfl
        | some bound =>
          have first : policy.compare bound record.key.val = .lt := by
            simpa [Policy.beyond] using next.beyond
          have second := Std.TransCmp.lt_trans first (greater key behind)
          simp [Policy.beyond, second]

/-- A key that is live at every step up to the end, and was not passed before, has been returned. -/
theorem complete {toured rest : List (Visit M K V)} {live : Ledger M K V} {key : K}
    (tour : Tour policy (.after last) (toured ++ ⟨live, none⟩ :: rest))
    (ahead : policy.beyond last key = true)
    (throughout : ∀ visit ∈ toured ++ [⟨live, none⟩], ∃ record ∈ visit.live, record.key.val = key) :
    key ∈ Visit.keys toured := by
  -- At each step the key is returned, or stays ahead of what is.
  induction toured generalizing last with
  | nil =>
    obtain ⟨mine, member, rfl⟩ := throughout _ List.mem_cons_self
    cases tour with
    | ended nothing _ =>
      have passed := nothing mine member
      rw [ahead] at passed
      cases passed
  | cons visit toured ih =>
    obtain ⟨mine, member, rfl⟩ := throughout visit List.mem_cons_self
    have later : ∀ visit ∈ toured ++ [⟨live, none⟩], ∃ record ∈ visit.live, record.key.val = mine.key.val :=
      fun other within => throughout other (List.mem_cons_of_mem _ within)
    cases tour with
    | ended nothing _ =>
      have passed := nothing mine member
      rw [ahead] at passed
      cases passed
    | @entry _ _ record _ next following =>
      rcases next.least mine member ahead with rfl | before
      · exact List.mem_cons_self
      · have still : policy.beyond (some record.key.val) mine.key.val = true := by
          rw [Record.Before] at before
          simp [Policy.beyond, before]
        exact List.mem_cons_of_mem _ (ih following still later)

end Tour

end KeyedStore
