import Mathlib.Data.List.Induction

/-! Runs of a step function, and runs whose every step meets a condition on the state before it. -/

namespace KairosFlux.Lib

variable {State Input : Type} (step : State → Input → State) (condition : State → Input → Prop)

def run (state : State) (inputs : List Input) : State := inputs.foldl step state

def Guarded : State → List Input → Prop
  | _, [] => True
  | state, input :: rest => condition state input ∧ Guarded (step state input) rest

instance Guarded.decidable [∀ state input, Decidable (condition state input)] :
    ∀ state inputs, Decidable (Guarded step condition state inputs)
  | _, [] => inferInstanceAs (Decidable True)
  | state, input :: rest =>
    have := Guarded.decidable (step state input) rest
    inferInstanceAs (Decidable (_ ∧ _))

@[simp] theorem run_cons (state : State) (input : Input) (rest : List Input) :
    run step state (input :: rest) = run step (step state input) rest := rfl

theorem run_append (state : State) (first second : List Input) :
    run step state (first ++ second) = run step (run step state first) second :=
  List.foldl_append

variable {step condition}

theorem Guarded.mono {weaker : State → Input → Prop}
    (weaken : ∀ state input, condition state input → weaker state input) (state : State)
    (inputs : List Input) (guarded : Guarded step condition state inputs) :
    Guarded step weaker state inputs := by
  induction inputs generalizing state with
  | nil => trivial
  | cons input rest ih =>
    exact ⟨weaken state input guarded.1, ih (step state input) guarded.2⟩

theorem guarded_append (state : State) (first second : List Input) :
    Guarded step condition state (first ++ second) ↔
      Guarded step condition state first ∧ Guarded step condition (run step state first) second := by
  induction first generalizing state with
  | nil => exact ⟨fun rest => ⟨trivial, rest⟩, fun both => both.2⟩
  | cons input rest ih =>
    rw [List.cons_append, Guarded, Guarded, ih (step state input), and_assoc]
    rfl

theorem run_invariant {Inv : State → Prop} (preserved : ∀ state input, Inv state → Inv (step state input))
    (state : State) (inputs : List Input) (initial : Inv state) : Inv (run step state inputs) := by
  induction inputs generalizing state with
  | nil => exact initial
  | cons input rest ih => exact ih (step state input) (preserved state input initial)

/-- What one step preserves under the condition, a guarded run preserves. -/
theorem Guarded.invariant {Inv : State → Prop}
    (preserved : ∀ state input, Inv state → condition state input → Inv (step state input))
    (state : State) (inputs : List Input) (initial : Inv state)
    (guarded : Guarded step condition state inputs) : Inv (run step state inputs) := by
  induction inputs generalizing state with
  | nil => exact initial
  | cons input rest ih =>
    exact ih (step state input) (preserved state input initial guarded.1) guarded.2

/-- What an invariant gives under the condition holds at every step of a guarded run. -/
theorem Guarded.observed {Inv : State → Prop} {property : State → Input → Prop}
    (preserved : ∀ state input, Inv state → condition state input →
      Inv (step state input) ∧ property state input)
    (state : State) (inputs : List Input) (initial : Inv state)
    (guarded : Guarded step condition state inputs) : Guarded step property state inputs := by
  induction inputs generalizing state with
  | nil => trivial
  | cons input rest ih =>
    rcases preserved state input initial guarded.1 with ⟨next, holds⟩
    exact ⟨holds, ih (step state input) next guarded.2⟩

/-- Two properties that are the same at every step, as long as they held before, are the same of
whole guarded runs. -/
theorem Guarded.congr {Inv : State → Prop} {left right : State → Input → Prop}
    (same : ∀ state input, Inv state → condition state input → (left state input ↔ right state input))
    (preserved : ∀ state input, Inv state → condition state input → left state input →
      Inv (step state input))
    (state : State) (inputs : List Input) (initial : Inv state)
    (guarded : Guarded step condition state inputs) :
    Guarded step left state inputs ↔ Guarded step right state inputs := by
  induction inputs generalizing state with
  | nil => exact Iff.rfl
  | cons input rest ih =>
    rw [Guarded, Guarded, ← same state input initial guarded.1]
    refine and_congr_right fun holds => ?_
    exact ih (step state input) (preserved state input initial guarded.1 holds) guarded.2

theorem Guarded.of_forall {P : Input → Prop} (state : State) (inputs : List Input)
    (all : ∀ input ∈ inputs, P input) : Guarded step (fun _ input => P input) state inputs := by
  induction inputs generalizing state with
  | nil => trivial
  | cons input rest ih =>
    exact ⟨all input (.head _),
      ih (step state input) fun other member => all other (.tail _ member)⟩

theorem Guarded.and {other : State → Input → Prop} (state : State) (inputs : List Input)
    (first : Guarded step condition state inputs) (second : Guarded step other state inputs) :
    Guarded step (fun state input => condition state input ∧ other state input) state inputs := by
  induction inputs generalizing state with
  | nil => trivial
  | cons input rest ih => exact ⟨⟨first.1, second.1⟩, ih (step state input) first.2 second.2⟩

/-- Two runs of which one skips some inputs stay related if the skipped inputs do not matter. -/
theorem run_filter {R : State → State → Prop} {P : Input → Prop} (keep : Input → Bool)
    (both : ∀ state other input, R state other → P input → keep input = true →
      R (step state input) (step other input))
    (skipped : ∀ state other input, R state other → P input → keep input = false →
      R (step state input) other)
    (state other : State) (inputs : List Input) (related : R state other)
    (all : ∀ input ∈ inputs, P input) :
    R (run step state inputs) (run step other (inputs.filter keep)) := by
  induction inputs generalizing state other with
  | nil => exact related
  | cons input rest ih =>
    rcases List.forall_mem_cons.mp all with ⟨first, later⟩
    cases kept : keep input with
    | true =>
      rw [List.filter_cons_of_pos kept]
      exact ih _ _ (both state other input related first kept) later
    | false =>
      rw [List.filter_cons_of_neg (by simp [kept])]
      exact ih _ _ (skipped state other input related first kept) later

theorem Guarded.recorded {Record : Type} {grows : Record → Record → Prop}
    {Inv : Record → State → Prop} (refl : ∀ record, grows record record)
    (trans : ∀ first second third, grows first second → grows second third → grows first third)
    (preserved : ∀ record state input, Inv record state → condition state input →
      ∃ later, grows record later ∧ Inv later (step state input))
    (record : Record) (state : State) (inputs : List Input) (initial : Inv record state)
    (guarded : Guarded step condition state inputs) :
    ∃ later, grows record later ∧ Inv later (run step state inputs) := by
  induction inputs generalizing record state with
  | nil => exact ⟨record, refl record, initial⟩
  | cons input rest ih =>
    rcases preserved record state input initial guarded.1 with ⟨middle, grown, holds⟩
    rcases ih middle (step state input) holds guarded.2 with ⟨later, more, reached⟩
    exact ⟨later, trans record middle later grown more, reached⟩

/-- A run in which every step adds at most one entry to a log, as long as the log is short. -/
theorem run_logged {Entry : Type} (Inv : List Entry → State → Prop) {P : Input → Prop} {bound : Nat}
    (preserved : ∀ log state input, Inv log state → log.length < bound → P input →
      ∃ added, added.length ≤ 1 ∧ Inv (log ++ added) (step state input))
    {state : State} (initial : Inv [] state) (inputs : List Input) (all : ∀ input ∈ inputs, P input)
    (few : inputs.length < bound) :
    ∃ log, log.length ≤ inputs.length ∧ Inv log (run step state inputs) := by
  induction inputs using List.reverseRecOn with
  | nil => exact ⟨[], Nat.le_refl 0, initial⟩
  | append_singleton inputs input ih =>
    rw [List.length_append, List.length_singleton] at few ⊢
    rcases List.forall_mem_append.mp all with ⟨before, now⟩
    rcases ih before (by omega) with ⟨log, short, held⟩
    rcases preserved log _ input held (by omega) (now input (.head _)) with ⟨added, one, next⟩
    rw [run_append]
    exact ⟨log ++ added, by rw [List.length_append]; omega, next⟩

/-- An input that lowers the rank of every state with a rank comes to an end when it is repeated. -/
theorem exists_rank_eq_zero {Inv : State → Prop} (input : Input) (rank : State → Nat)
    (preserved : ∀ state, Inv state → Inv (step state input))
    (falls : ∀ state, Inv state → rank state ≠ 0 → rank (step state input) < rank state)
    (state : State) (initial : Inv state) :
    ∃ n, Inv (run step state (List.replicate n input)) ∧
      rank (run step state (List.replicate n input)) = 0 := by
  induction bound : rank state using Nat.strongRecOn generalizing state with
  | _ bounded ih =>
    by_cases zero : rank state = 0
    · exact ⟨0, initial, zero⟩
    · have less : rank (step state input) < bounded := bound ▸ falls state initial zero
      obtain ⟨n, reached⟩ := ih _ less (step state input) (preserved state initial) rfl
      exact ⟨n + 1, reached⟩

end KairosFlux.Lib
