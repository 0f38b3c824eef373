/-!
Runs, and how a run of the real thing is matched with a run of its reference. Each is a step repeated; an
invariant that one step keeps is kept by every run, and a relation that one step keeps, with equal outputs, is
kept by every run with equal outputs.
-/
namespace KeyedStore

variable {σ τ ι ω υ ε : Type}

/-- Some inputs to a machine that may fail, one after the other, with their outputs. -/
def runAll (step : σ → ι → Except ε (ω × σ)) (state : σ) : List ι → Except ε (List ω × σ)
  | [] => .ok ([], state)
  | input :: inputs => do
    let (output, state) ← step state input
    let (outputs, state) ← runAll step state inputs
    return (output :: outputs, state)

/-- The same for a machine that cannot fail. -/
def replay (step : τ → ι → ω × τ) (state : τ) : List ι → List ω × τ
  | [] => ([], state)
  | input :: inputs =>
    let (output, state) := step state input
    let (outputs, state) := replay step state inputs
    (output :: outputs, state)

/-! ### Invariants -/

/-- From states with an invariant no input fails, and every run keeps it. -/
theorem foldlM_keeps {step : σ → ι → Except ε σ} {invariant : σ → Prop}
    (keeps : ∀ state input, invariant state → ∃ after, step state input = .ok after ∧ invariant after)
    (inputs : List ι) {state : σ} (start : invariant state) :
    ∃ after, inputs.foldlM step state = .ok after ∧ invariant after := by
  induction inputs generalizing state with
  | nil => exact ⟨state, rfl, start⟩
  | cons input inputs ih =>
    obtain ⟨middle, stepped, kept⟩ := keeps state input start
    obtain ⟨after, ran, kept⟩ := ih kept
    refine ⟨after, ?_, kept⟩
    rw [List.foldlM_cons, stepped]
    exact ran

/-- The same for a machine with outputs: there is one for each input. -/
theorem runAll_keeps {step : σ → ι → Except ε (ω × σ)} {invariant : σ → Prop}
    (keeps : ∀ state input, invariant state →
      ∃ output after, step state input = .ok (output, after) ∧ invariant after)
    (inputs : List ι) {state : σ} (start : invariant state) :
    ∃ outputs after, runAll step state inputs = .ok (outputs, after) ∧ outputs.length = inputs.length ∧
      invariant after := by
  induction inputs generalizing state with
  | nil => exact ⟨[], state, rfl, rfl, start⟩
  | cons input inputs ih =>
    obtain ⟨output, middle, stepped, kept⟩ := keeps state input start
    obtain ⟨outputs, after, ran, length, kept⟩ := ih kept
    refine ⟨output :: outputs, after, ?_, congrArg Nat.succ length, kept⟩
    simp only [runAll, stepped, ran, bind, Except.bind, pure, Except.pure]

/-- What links the start of a run with its end: it links a state with itself, and from after the first input on
it can be taken back to before. -/
theorem runAll_links {step : σ → ι → Except ε (ω × σ)} {invariant : σ → Prop} {linked : σ → List ι → σ → Prop}
    (still : ∀ state, linked state [] state)
    (onward : ∀ state input, invariant state →
      ∃ output middle, step state input = .ok (output, middle) ∧ invariant middle ∧
        ∀ inputs after, linked middle inputs after → linked state (input :: inputs) after)
    (inputs : List ι) {state : σ} (start : invariant state) :
    ∃ outputs after, runAll step state inputs = .ok (outputs, after) ∧ invariant after ∧
      linked state inputs after := by
  induction inputs generalizing state with
  | nil => exact ⟨[], state, rfl, start, still state⟩
  | cons input inputs ih =>
    obtain ⟨output, middle, stepped, kept, back⟩ := onward state input start
    obtain ⟨outputs, after, ran, final, linked⟩ := ih kept
    refine ⟨output :: outputs, after, ?_, final, back inputs after linked⟩
    simp only [runAll, stepped, ran, bind, Except.bind, pure, Except.pure]

/-- How many steps of a run are of some kind, going by the state before, the input, the output and the state
after. -/
def countSteps (step : σ → ι → Except ε (ω × σ)) (kind : σ → ι → ω → σ → Bool) (state : σ) : List ι → Nat
  | [] => 0
  | input :: inputs =>
    match step state input with
    | .error _ => 0
    | .ok (output, after) => (kind state input output after).toNat + countSteps step kind after inputs

theorem countSteps_cons {step : σ → ι → Except ε (ω × σ)} {kind : σ → ι → ω → σ → Bool} {state after : σ}
    {input : ι} {output : ω} (stepped : step state input = .ok (output, after)) (inputs : List ι) :
    countSteps step kind state (input :: inputs) =
      (kind state input output after).toNat + countSteps step kind after inputs := by
  rw [countSteps, stepped]

/-- The steps of a run are those of its beginning and those from there on. -/
theorem countSteps_append {step : σ → ι → Except ε (ω × σ)} {kind : σ → ι → ω → σ → Bool} {state after : σ}
    {front : List ι} {outputs : List ω} (ran : runAll step state front = .ok (outputs, after)) (back : List ι) :
    countSteps step kind state (front ++ back) =
      countSteps step kind state front + countSteps step kind after back := by
  induction front generalizing state outputs with
  | nil =>
    cases ran
    exact (Nat.zero_add _).symm
  | cons input front ih =>
    cases stepped : step state input with
    | error fault =>
      simp only [runAll, stepped] at ran
      cases ran
    | ok result =>
      obtain ⟨output, middle⟩ := result
      cases rest : runAll step middle front with
      | error fault =>
        simp only [runAll, stepped, bind, Except.bind, rest] at ran
        cases ran
      | ok further =>
        simp only [runAll, stepped, bind, Except.bind, rest] at ran
        cases ran
        rw [List.cons_append, countSteps_cons stepped, countSteps_cons stepped, ih rest, Nat.add_assoc]

/-- What is noted at the steps of a run, going by the state before, the input and the output. -/
def noteSteps {ν : Type} (step : σ → ι → Except ε (ω × σ)) (note : σ → ι → ω → List ν) (state : σ) :
    List ι → List ν
  | [] => []
  | input :: inputs =>
    match step state input with
    | .error _ => []
    | .ok (output, after) => note state input output ++ noteSteps step note after inputs

/-- An invariant of states and of what has been noted so far is kept by every run. -/
theorem runAll_attests {ν : Type} {step : σ → ι → Except ε (ω × σ)} {note : σ → ι → ω → List ν}
    {invariant : σ → List ν → Prop}
    (keeps : ∀ state past input, invariant state past →
      ∃ output after, step state input = .ok (output, after) ∧ invariant after (past ++ note state input output))
    (inputs : List ι) {state : σ} {past : List ν} (start : invariant state past) :
    ∃ outputs after, runAll step state inputs = .ok (outputs, after) ∧
      invariant after (past ++ noteSteps step note state inputs) := by
  induction inputs generalizing state past with
  | nil => exact ⟨[], state, rfl, by rwa [noteSteps, List.append_nil]⟩
  | cons input inputs ih =>
    obtain ⟨output, middle, stepped, kept⟩ := keeps state past input start
    obtain ⟨outputs, after, ran, final⟩ := ih kept
    refine ⟨output :: outputs, after, ?_, ?_⟩
    · simp only [runAll, stepped, ran, bind, Except.bind, pure, Except.pure]
    · simpa only [noteSteps, stepped, List.append_assoc] using final

/-! ### References -/

/-- A machine matches a reference under a relation: related states take every input to equal outputs and
related states, and the machine does not fail. -/
def Matches (step : σ → ι → Except ε (ω × σ)) (reference : τ → ι → ω × τ) (related : σ → τ → Prop) : Prop :=
  ∀ state mirror input, related state mirror →
    ∃ after, step state input = .ok ((reference mirror input).1, after) ∧
      related after (reference mirror input).2

theorem runAll_eq_replay {step : σ → ι → Except ε (ω × σ)} {reference : τ → ι → ω × τ}
    {related : σ → τ → Prop} (matching : Matches step reference related) (inputs : List ι)
    {state : σ} {mirror : τ} (start : related state mirror) :
    ∃ after, runAll step state inputs = .ok ((replay reference mirror inputs).1, after) ∧
      related after (replay reference mirror inputs).2 := by
  induction inputs generalizing state mirror with
  | nil => exact ⟨state, rfl, start⟩
  | cons input inputs ih =>
    obtain ⟨middle, stepped, kept⟩ := matching state mirror input start
    obtain ⟨after, ran, kept⟩ := ih kept
    refine ⟨after, ?_, kept⟩
    simp only [runAll, stepped, ran, replay, bind, Except.bind, pure, Except.pure]

/-- Inputs that stand for those of the machine. -/
theorem Matches.along {κ : Type} {step : σ → ι → Except ε (ω × σ)} {reference : τ → ι → ω × τ}
    {related : σ → τ → Prop} (matching : Matches step reference related) (meant : κ → ι) :
    Matches (fun state input => step state (meant input)) (fun mirror input => reference mirror (meant input))
      related :=
  fun state mirror input => matching state mirror (meant input)

/-! ### Two machines side by side -/

/-- Two machines go in lockstep under a relation: neither fails on related states, the outputs of the one are
what those of the other are shown as, and the states stay related. -/
def Lockstep (step : σ → ι → Except ε (ω × σ)) (other : τ → ι → Except ε (υ × τ)) (shown : υ → ω)
    (related : σ → τ → Prop) : Prop :=
  ∀ state beside input, related state beside → ∃ output after following,
    step state input = .ok (shown output, after) ∧ other beside input = .ok (output, following) ∧
      related after following

theorem runAll_lockstep {step : σ → ι → Except ε (ω × σ)} {other : τ → ι → Except ε (υ × τ)} {shown : υ → ω}
    {related : σ → τ → Prop} (lockstep : Lockstep step other shown related) (inputs : List ι)
    {state : σ} {beside : τ} (start : related state beside) :
    ∃ outputs after following, runAll step state inputs = .ok (outputs.map shown, after) ∧
      runAll other beside inputs = .ok (outputs, following) ∧ related after following := by
  induction inputs generalizing state beside with
  | nil => exact ⟨[], state, beside, rfl, rfl, start⟩
  | cons input inputs ih =>
    obtain ⟨output, middle, between, stepped, followed, kept⟩ := lockstep state beside input start
    obtain ⟨outputs, after, following, ran, also, kept⟩ := ih kept
    refine ⟨output :: outputs, after, following, ?_, ?_, kept⟩
    · simp only [runAll, stepped, ran, List.map_cons, bind, Except.bind, pure, Except.pure]
    · simp only [runAll, followed, also, bind, Except.bind, pure, Except.pure]

/-! ### What is carried through fallible steps -/

/-- Two steps go through when the first does and the second does from there. -/
theorem bind_eq_ok {first : Except ε ι} {second : ι → Except ε ω} {result : ω} :
    first >>= second = .ok result ↔ ∃ value, first = .ok value ∧ second value = .ok result := by
  cases first with
  | error error =>
    constructor
    · intro done
      cases done
    · rintro ⟨value, done, _⟩
      cases done
  | ok value =>
    constructor
    · exact fun done => ⟨value, rfl, done⟩
    · rintro ⟨same, done, further⟩
      cases done
      exact further

theorem pure_eq_ok {value result : ω} : (pure value : Except ε ω) = .ok result ↔ value = result :=
  iff_of_eq (Except.ok.injEq value result)

@[simp] theorem ok_carried (shown : ω → υ) (value : ω) :
    shown <$> (.ok value : Except ε ω) = .ok (shown value) := rfl

@[simp] theorem error_carried (shown : ω → υ) (error : ε) :
    shown <$> (.error error : Except ε ω) = .error error := rfl

/-- A step after another one is carried through, if it is wherever the first one leads. -/
theorem bind_carried {κ : Type} {first : Except ε ι} {second : ι → Except ε ω} {carried : ι → κ}
    {other : κ → Except ε υ} {shown : ω → υ}
    (further : ∀ value, other (carried value) = shown <$> second value) :
    (carried <$> first >>= other) = shown <$> (first >>= second) := by
  cases first with
  | error fault => rfl
  | ok value => exact further value

/-- The same where the first step is the same. -/
theorem bind_shown {first : Except ε ι} {second : ι → Except ε ω} {other : ι → Except ε υ} {shown : ω → υ}
    (further : ∀ value, other value = shown <$> second value) :
    (first >>= other) = shown <$> (first >>= second) := by
  cases first with
  | error fault => rfl
  | ok value => exact further value

/-- A fold over other items from another start, if each step is carried through. -/
theorem foldlM_carried {κ : Type} {step : σ → ι → Except ε σ} {other : τ → κ → Except ε τ}
    {shown : σ → τ} {named : ι → κ}
    (carried : ∀ state item, other (shown state) (named item) = shown <$> step state item)
    (items : List ι) (state : σ) :
    (items.map named).foldlM other (shown state) = shown <$> items.foldlM step state := by
  induction items generalizing state with
  | nil => rfl
  | cons item items ih =>
    rw [List.map_cons, List.foldlM_cons, List.foldlM_cons, carried]
    exact bind_carried ih

/-! ### Going along -/

/-- Where the one result is there, so is the other, and the two are paired. -/
def Along {α β : Type} (paired : α → β → Prop) (image : Except ε α) (original : Except ε β) : Prop :=
  ∀ done, original = .ok done → ∃ also, image = .ok also ∧ paired also done

namespace Along

variable {α β γ δ : Type} {paired : α → β → Prop} {further : γ → δ → Prop} {image : Except ε α}
  {original : Except ε β}

theorem ok {also : α} {done : β} (here : paired also done) :
    Along paired (.ok also : Except ε α) (.ok done : Except ε β) := by
  rintro _ ⟨⟩
  exact ⟨also, rfl, here⟩

/-- Two steps go along if each does. -/
theorem bind {next : α → Except ε γ} {other : β → Except ε δ} (first : Along paired image original)
    (second : ∀ also done, original = .ok done → paired also done → Along further (next also) (other done)) :
    Along further (image >>= next) (original >>= other) := by
  intro result ended
  obtain ⟨done, reached, ended⟩ := bind_eq_ok.mp ended
  obtain ⟨also, stepped, here⟩ := first done reached
  obtain ⟨last, finished, there⟩ := second also done reached here result ended
  exact ⟨last, bind_eq_ok.mpr ⟨also, stepped, finished⟩, there⟩

/-- A result goes along with itself. -/
theorem of_eq {paired : β → β → Prop} {image : Except ε β} (same : image = original)
    (here : ∀ done, paired done done) : Along paired image original := by
  rintro done rfl
  exact ⟨done, same, here done⟩

/-- What is shown of a result goes along with it. -/
theorem of_carried {shown : β → α} (carried : image = shown <$> original) (here : ∀ done, paired (shown done) done) :
    Along paired image original := by
  rintro done rfl
  exact ⟨shown done, carried, here done⟩

end Along

end KeyedStore
