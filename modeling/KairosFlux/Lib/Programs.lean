import Mathlib.Data.List.Basic

/-! Programs that call operations one after the other. A run gives each call its answer by a choice,
and a run whose choices come to an end is cut short before the next call. -/

namespace KairosFlux.Lib

/-- A program ends with a value, dies, or calls an operation and goes on with the answer. -/
inductive Program (Op : Type) (Answer : Op → Type) (α : Type)
  | done (value : α)
  | fault
  | call (op : Op) (next : Answer op → Program Op Answer α)

/-- How calls are answered, and what they leave behind. -/
structure World (Op : Type) (Answer : Op → Type) (State Choice : Type) where
  answer : State → (op : Op) → Choice → Answer op
  effect : State → (op : Op) → Answer op → State

namespace Program

variable {Op : Type} {Answer : Op → Type} {State Choice α β : Type}

def bind : Program Op Answer α → (α → Program Op Answer β) → Program Op Answer β
  | .done value, next => next value
  | .fault, _ => .fault
  | .call op rest, next => .call op fun answer => (rest answer).bind next

variable (world : World Op Answer State Choice)

/-- The state reached, and the value unless the program died or was cut short. -/
def exec : Program Op Answer α → State → List Choice → State × Option α
  | .done value, state, _ => (state, some value)
  | .fault, state, _ => (state, none)
  | .call _ _, state, [] => (state, none)
  | .call op next, state, choice :: rest =>
    let answer := world.answer state op choice
    exec (next answer) (world.effect state op answer) rest

/-- Along every run with permitted choices the states meet `inv`, and a value is returned only with
`post`. -/
def Always (permitted : Choice → Prop) (inv : State → Prop) (post : State → α → Prop) :
    Program Op Answer α → State → Prop
  | .done value, state => inv state ∧ post state value
  | .fault, state => inv state
  | .call op next, state => inv state ∧ ∀ choice, permitted choice →
      Always permitted inv post (next (world.answer state op choice))
        (world.effect state op (world.answer state op choice))

variable {world} {permitted : Choice → Prop} {inv : State → Prop} {post : State → α → Prop}

variable {program : Program Op Answer α} {state : State}

theorem Always.exec (always : program.Always world permitted inv post state) (choices : List Choice)
    (all : ∀ choice ∈ choices, permitted choice) :
    inv (program.exec world state choices).1 ∧
      ∀ value, (program.exec world state choices).2 = some value →
        post (program.exec world state choices).1 value := by
  induction choices generalizing program state with
  | nil =>
    cases program with
    | done value => exact ⟨always.1, fun _ same => Option.some.inj same ▸ always.2⟩
    | fault => exact ⟨always, nofun⟩
    | call op next => exact ⟨always.1, nofun⟩
  | cons choice rest ih =>
    rcases List.forall_mem_cons.mp all with ⟨first, later⟩
    cases program with
    | done value => exact ⟨always.1, fun _ same => Option.some.inj same ▸ always.2⟩
    | fault => exact ⟨always, nofun⟩
    | call op next => exact ih (always.2 choice first) later

theorem Always.imp {weakerInv : State → Prop} {weaker : State → α → Prop}
    (always : program.Always world permitted inv post state)
    (weakenInv : ∀ state, inv state → weakerInv state)
    (weaken : ∀ state value, post state value → weaker state value) :
    program.Always world permitted weakerInv weaker state := by
  induction program generalizing state with
  | done value => exact ⟨weakenInv state always.1, weaken state value always.2⟩
  | fault => exact weakenInv state always
  | call op rest ih =>
    exact ⟨weakenInv state always.1, fun choice allowed => ih _ (always.2 choice allowed)⟩

theorem Always.bind {first : State → α → Prop} {last : State → β → Prop} {next : α → Program Op Answer β}
    (always : program.Always world permitted inv first state)
    (goesOn : ∀ state value, inv state → first state value →
      (next value).Always world permitted inv last state) :
    (program.bind next).Always world permitted inv last state := by
  induction program generalizing state with
  | done value => exact goesOn state value always.1 always.2
  | fault => exact always
  | call op rest ih => exact ⟨always.1, fun choice allowed => ih _ (always.2 choice allowed)⟩

end Program

end KairosFlux.Lib
