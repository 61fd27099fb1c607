import KairosFlux.Lib.Runs
import KairosFlux.Storage.Engine

/-! Credit for writes (`internal/credit/credit.go`, `acquireCredit`, `Put`, `Delete`, `Flush` and
`FlushWorker` in `storage/engine.go`): calls that wait until a flush gives bytes back, and the one
signal that asks for a flush. -/

namespace KairosFlux.Storage

open Lib List

/-- Where a `Put` or `Delete` stands. `stalled` has failed in `TryAcquire`, `signalled` has called
`StartFlush`, `asleep` waits in `Acquire` and `woken` was waked there. `holding` has its credit, and
`inserted` is about to give back what it took too much. -/
inductive Stage
  | called
  | stalled
  | signalled
  | asleep
  | woken
  | holding
  | inserted (overdrawn : Int)
  | returned
  deriving DecidableEq

namespace Stage

def waits : Stage → Bool
  | .signalled | .asleep | .woken => true
  | _ => false

def holds : Stage → Bool
  | .holding => true
  | _ => false

def inFlight : Stage → Bool
  | .holding | .inserted _ => true
  | _ => false

def wake : Stage → Stage
  | .asleep => .woken
  | stage => stage

end Stage

/-- A `Delete` is a call without a value. -/
structure WriteCall where
  key : Bytes
  value : Option Bytes
  stage : Stage

def WriteCall.full (call : WriteCall) : Int := call.key.length + (call.value.getD []).length

/-- Where the flush worker stands: behind the receipt of a signal it looks at the tables. -/
inductive FlushWorker
  | idle
  | looking
  | flushing (table : MemTable)
  | freeing (bytes : Int)

namespace FlushWorker

def running : FlushWorker → Bool
  | .idle => false
  | _ => true

def isLooking : FlushWorker → Bool
  | .looking => true
  | _ => false

def isFlushing : FlushWorker → Bool
  | .flushing _ => true
  | _ => false

end FlushWorker

def byteSize (table : MemTable) : Int :=
  (table.entries.map fun entry => (entry.1.length + (entry.2.getD []).length : Int)).sum

/-- `signal` is the channel of one place that the worker reads. -/
structure Credits where
  active : MemTable
  dirty : Option MemTable
  used : Int
  signal : Bool
  worker : FlushWorker
  calls : List WriteCall

inductive CreditInput
  | call (key : Bytes) (value : Option Bytes)
  | advance (caller : Nat)
  | work

namespace Credits

def new : Credits := ⟨SortedMap.empty, none, 0, false, .idle, []⟩

def memEmpty (s : Credits) : Prop :=
  s.active.entries = [] ∧ (s.dirty.map SortedMap.entries).getD [] = []
deriving Decidable

def goTo (s : Credits) (caller : Nat) (call : WriteCall) (stage : Stage) : Credits :=
  { s with calls := s.calls.set caller { call with stage := stage } }

/-- `Release`: every waiter is waked. -/
def release (s : Credits) (bytes : Int) : Credits :=
  { s with
    used := if s.used - bytes < 0 then 0 else s.used - bytes
    calls := s.calls.map fun call => { call with stage := call.stage.wake } }

section Steps

variable (budget : Int) (maxSize : Nat)

def fits (s : Credits) (bytes : Int) : Bool :=
  decide (budget ≤ 0) || decide (s.used = 0) || decide (s.used + bytes ≤ budget)

def insert (s : Credits) (caller : Nat) (call : WriteCall) : Credits :=
  let active := s.active.insert call.key call.value
  let overdrawn := call.full - (byteSize active - byteSize s.active)
  { s with active := active, signal := s.signal || decide (maxSize < active.entries.length) }.goTo
    caller call (.inserted overdrawn)

def advance (s : Credits) (caller : Nat) (call : WriteCall) : Credits :=
  match call.stage with
  | .called =>
    if s.fits budget call.full then
      { s with used := s.used + call.full }.goTo caller call .holding
    else s.goTo caller call .stalled
  | .stalled => { s with signal := true }.goTo caller call .signalled
  | .signalled | .woken =>
    if s.fits budget call.full then
      { s with used := s.used + call.full }.goTo caller call .holding
    else s.goTo caller call .asleep
  | .asleep => s
  | .holding => s.insert maxSize caller call
  | .inserted overdrawn =>
    if overdrawn = 0 then s.goTo caller call .returned
    else (s.goTo caller call .returned).release overdrawn
  | .returned => s

/-- The worker writes the file between the exchange of the tables and the drop of the old one. -/
def work (s : Credits) : Credits :=
  match s.worker with
  | .idle => if s.signal then { s with signal := false, worker := .looking } else s
  | .looking =>
    match s.dirty with
    | some table => { s with worker := .flushing table }
    | none =>
      if s.active.entries = [] then { s with worker := .idle }
      else
        { s with
          active := SortedMap.empty
          dirty := some s.active
          worker := .flushing s.active }
  | .flushing table => { s with dirty := none, worker := .freeing (byteSize table) }
  | .freeing bytes => { s with worker := .idle }.release bytes

def step (s : Credits) : CreditInput → Credits
  | .call key value => { s with calls := s.calls ++ [⟨key, value, .called⟩] }
  | .advance caller =>
    match s.calls[caller]? with
    | none => s
    | some call => s.advance budget maxSize caller call
  | .work => s.work

/-- The next step of the call takes credit. -/
def acquires (s : Credits) (call : WriteCall) : Bool :=
  match call.stage with
  | .called | .signalled | .woken => s.fits budget call.full
  | _ => false

/-- No call takes credit while another one waits, and the worker looks at the tables only when all
credit is in them or no call waits; unless a flush of what is still to come is asked for. -/
def Careful (s : Credits) : CreditInput → Prop
  | .call _ _ => True
  | .advance caller => ∀ call ∈ s.calls[caller]?, s.acquires budget call = true →
      s.signal = true ∨ s.worker.isLooking = true ∨
        ∀ other ∈ s.calls.eraseIdx caller, other.stage.waits = false
  | .work => s.worker.isLooking = true → s.signal = true ∨
      (∀ call ∈ s.calls, call.stage.waits = false) ∨ ∀ call ∈ s.calls, call.stage.holds = false

instance (s : Credits) (input : CreditInput) : Decidable (s.Careful budget input) := by
  cases input <;> dsimp only [Credits.Careful] <;> infer_instance

end Steps

/-- With a call asleep, no credit on its way into a table and something to flush, a flush is asked
for or under way. -/
def Served (s : Credits) : Prop :=
  (∃ call ∈ s.calls, call.stage = .asleep) → (∀ call ∈ s.calls, call.stage.inFlight = false) →
    ¬ s.memEmpty → s.signal = true ∨ s.worker.running = true
deriving Decidable

/-- As long as a call waits, a flush that takes everything is to come, or everything is taken. -/
structure Awaited (s : Credits) : Prop where
  awaited : ∀ call ∈ s.calls, call.stage.waits = true →
    s.signal = true ∨ s.worker.isLooking = true ∨
      s.active.entries = [] ∧ ∀ other ∈ s.calls, other.stage.holds = false
  flushing : s.dirty.isSome = true → s.worker.isFlushing = true

namespace Awaited

variable {budget : Int} {maxSize : Nat} {s : Credits}

theorem new : Awaited Credits.new where
  awaited _ member := nomatch member
  flushing some := by cases some

section

variable (awaited : Awaited s)
include awaited

theorem served : s.Served := by
  rintro ⟨call, member, asleep⟩ _ memory
  rcases awaited.awaited call member (by rw [asleep]; rfl) with signal | looking | ⟨empty, _⟩
  · exact .inl signal
  · right
    cases worker : s.worker with
    | looking => rfl
    | idle | flushing _ | freeing _ =>
      rw [worker] at looking
      cases looking
  · right
    cases dirty : s.dirty with
    | none =>
      refine absurd ⟨empty, ?_⟩ memory
      rw [dirty]
      rfl
    | some table =>
      have flushing := awaited.flushing (by rw [dirty]; rfl)
      cases worker : s.worker with
      | flushing _ => rfl
      | idle | looking | freeing _ =>
        rw [worker] at flushing
        cases flushing

theorem goTo (caller : Nat) (call : WriteCall) (stage : Stage)
    (found : s.calls[caller]? = some call) (waits : stage.waits = true → call.stage.waits = true)
    (free : stage.holds = false) : Awaited (s.goTo caller call stage) where
  awaited other member waiting := by
    have before : ∃ old ∈ s.calls, old.stage.waits = true := by
      rcases mem_or_eq_of_mem_set member with old | rfl
      · exact ⟨other, old, waiting⟩
      · exact ⟨call, mem_of_getElem? found, waits waiting⟩
    rcases before with ⟨old, inside, oldWaits⟩
    rcases awaited.awaited old inside oldWaits with signal | looking | ⟨empty, none⟩
    · exact .inl signal
    · exact .inr (.inl looking)
    · refine .inr (.inr ⟨empty, fun third third_mem => ?_⟩)
      rcases mem_or_eq_of_mem_set third_mem with old | rfl
      · exact none third old
      · exact free
  flushing := awaited.flushing

theorem release (bytes : Int) : Awaited (s.release bytes) where
  awaited call member waiting := by
    rcases mem_map.mp member with ⟨old, inside, rfl⟩
    have before : old.stage.waits = true := by
      cases stage : old.stage with
      | signalled | asleep | woken => rfl
      | called | stalled | holding | inserted _ | returned =>
        rw [stage] at waiting
        cases waiting
    rcases awaited.awaited old inside before with signal | looking | ⟨empty, none⟩
    · exact .inl signal
    · exact .inr (.inl looking)
    · refine .inr (.inr ⟨empty, fun other other_mem => ?_⟩)
      rcases mem_map.mp other_mem with ⟨old, inside, rfl⟩
      have free := none old inside
      cases stage : old.stage with
      | holding =>
        rw [stage] at free
        cases free
      | called | stalled | signalled | asleep | woken | inserted _ | returned => rfl
  flushing := awaited.flushing

theorem acquire (used : Int) (caller : Nat) (call : WriteCall)
    (careful : s.signal = true ∨ s.worker.isLooking = true ∨
      ∀ other ∈ s.calls.eraseIdx caller, other.stage.waits = false) :
    Awaited ({ s with used := used }.goTo caller call .holding) where
  awaited other member waiting := by
    rcases careful with signal | looking | alone
    · exact .inl signal
    · exact .inr (.inl looking)
    · rcases List.getElem?_of_mem member with ⟨j, there⟩
      by_cases same : caller = j
      · subst same
        have self := (List.getElem?_set_self'.symm.trans there)
        rcases Option.map_eq_some_iff.mp self with ⟨_, _, rfl⟩
        cases waiting
      · have old : s.calls[j]? = some other := (List.getElem?_set_ne same).symm.trans there
        rw [alone other (mem_eraseIdx_iff_getElem?.mpr ⟨j, Ne.symm same, old⟩)] at waiting
        cases waiting
  flushing := awaited.flushing

theorem insert (caller : Nat) (call : WriteCall)
    (found : s.calls[caller]? = some call) (holding : call.stage = .holding) :
    Awaited (s.insert maxSize caller call) where
  awaited other member waiting := by
    rcases mem_or_eq_of_mem_set member with old | rfl
    · rcases awaited.awaited other old waiting with signal | looking | ⟨_, none⟩
      · exact .inl (by rw [Credits.insert, Credits.goTo, signal]; rfl)
      · exact .inr (.inl looking)
      · have free := none call (mem_of_getElem? found)
        rw [holding] at free
        cases free
    · cases waiting
  flushing := awaited.flushing

theorem advance (caller : Nat) (call : WriteCall) (found : s.calls[caller]? = some call)
    (careful : s.acquires budget call = true → s.signal = true ∨ s.worker.isLooking = true ∨
      ∀ other ∈ s.calls.eraseIdx caller, other.stage.waits = false) :
    Awaited (s.advance budget maxSize caller call) := by
  rw [Credits.acquires] at careful
  rw [Credits.advance]
  split
  case h_1 called =>
    rw [called] at careful
    split_ifs with room
    · exact awaited.acquire _ caller call (careful room)
    · exact awaited.goTo caller call .stalled found nofun rfl
  case h_2 => exact ⟨fun _ _ _ => .inl rfl, awaited.flushing⟩
  case h_3 signalled =>
    rw [signalled] at careful
    split_ifs with room
    · exact awaited.acquire _ caller call (careful room)
    · exact awaited.goTo caller call .asleep found (fun _ => by rw [signalled]; rfl) rfl
  case h_4 woken =>
    rw [woken] at careful
    split_ifs with room
    · exact awaited.acquire _ caller call (careful room)
    · exact awaited.goTo caller call .asleep found (fun _ => by rw [woken]; rfl) rfl
  case h_5 => exact awaited
  case h_6 holding => exact awaited.insert caller call found holding
  case h_7 overdrawn _ =>
    have returned := awaited.goTo caller call .returned found nofun rfl
    split_ifs
    · exact returned
    · exact returned.release overdrawn
  case h_8 => exact awaited

theorem clean (still : s.worker.isFlushing = false) : ¬ s.dirty.isSome = true := by
  intro some
  rw [awaited.flushing some] at still
  cases still

theorem work (careful : s.worker.isLooking = true → s.signal = true ∨
      (∀ call ∈ s.calls, call.stage.waits = false) ∨ ∀ call ∈ s.calls, call.stage.holds = false) :
    Awaited s.work := by
  rw [Credits.work]
  split
  case h_1 idle =>
    have clean := awaited.clean (by rw [idle]; rfl)
    split_ifs
    · exact ⟨fun _ _ _ => .inr (.inl rfl), fun some => absurd some clean⟩
    · exact awaited
  case h_2 looking =>
    have careful := careful (by rw [looking]; rfl)
    -- a call that waits behind this look has a new signal, or nothing is left to take
    have waiting : ∀ call ∈ s.calls, call.stage.waits = true →
        s.signal = true ∨ ∀ other ∈ s.calls, other.stage.holds = false := by
      intro call member waits
      rcases careful with signal | none | free
      · exact .inl signal
      · rw [none call member] at waits
        cases waits
      · exact .inr free
    split
    case h_1 table dirty =>
      exact absurd (by rw [dirty]; rfl) (awaited.clean (by rw [looking]; rfl))
    case h_2 dirty =>
      split_ifs with empty
      · constructor
        case awaited =>
          intro call member waits
          exact (waiting call member waits).imp_right fun free => .inr ⟨empty, free⟩
        case flushing =>
          intro some
          rw [dirty] at some
          cases some
      · constructor
        case awaited =>
          intro call member waits
          exact (waiting call member waits).imp_right fun free => .inr ⟨rfl, free⟩
        case flushing => exact fun _ => rfl
  case h_3 table flushing =>
    constructor
    case awaited =>
      intro call member waits
      have before := awaited.awaited call member waits
      rw [flushing] at before
      exact before
    case flushing => exact nofun
  case h_4 bytes freeing =>
    have clean := awaited.clean (by rw [freeing]; rfl)
    have idle : Awaited { s with worker := .idle } := by
      constructor
      case awaited =>
        intro call member waits
        have before := awaited.awaited call member waits
        rw [freeing] at before
        exact before
      case flushing => exact fun some => absurd some clean
    exact idle.release bytes

theorem step (input : CreditInput) (careful : s.Careful budget input) :
    Awaited (s.step budget maxSize input) := by
  cases input with
  | call key value =>
    constructor
    case awaited =>
      intro call member waits
      rcases mem_append.mp member with old | new
      · rcases awaited.awaited call old waits with signal | looking | ⟨empty, none⟩
        · exact .inl signal
        · exact .inr (.inl looking)
        · exact .inr (.inr ⟨empty,
            forall_mem_append.mpr ⟨none, forall_mem_singleton.mpr rfl⟩⟩)
      · rw [mem_singleton.mp new] at waits
        cases waits
    case flushing => exact awaited.flushing
  | advance caller =>
    rw [Credits.step]
    split
    case h_1 => exact awaited
    case h_2 call found => exact awaited.advance caller call found (careful call found)
  | work => exact awaited.work careful

end

end Awaited

/-- In every run whose steps are all careful, no call is left asleep beside full tables. -/
theorem served_run (budget : Int) (maxSize : Nat) (inputs : List CreditInput)
    (careful : Guarded (step budget maxSize) (Careful budget) Credits.new inputs) :
    (run (step budget maxSize) Credits.new inputs).Served := by
  have preserved : ∀ s input, Awaited s → Careful budget s input →
      Awaited (step budget maxSize s input) := fun _ input awaited => awaited.step input
  exact (Guarded.invariant preserved Credits.new inputs Awaited.new careful).served

/-- A call that finds no room beside a full table. -/
def oneWaits : List CreditInput :=
  [.call [1] (some [1, 2, 3, 4]), .advance 0, .advance 0, .advance 0, .call [2] (some [1]),
    .advance 1, .advance 1, .advance 1]

theorem served_run_one_waits : let s := run (step 5 10) Credits.new oneWaits
    (∃ call ∈ s.calls, call.stage = .asleep) ∧ ¬ s.memEmpty ∧
      (s.signal = true ∨ s.worker.running = true) := by
  intro s
  have asleep : ∃ call ∈ s.calls, call.stage = .asleep := by decide +kernel
  have memory : ¬ s.memEmpty := by decide +kernel
  exact ⟨asleep, memory, served_run 5 10 oneWaits (by decide +kernel) asleep (by decide +kernel) memory⟩

/-- The signal is spent on empty tables before the holder of the credit inserts; and of two calls
that wait for one flush the first takes the credit that it gave back. -/
theorem waiter_left :
    let early : List CreditInput := [.call [1] (some [1, 2, 3, 4]), .advance 0, .call [2] (some [1]),
      .advance 1, .advance 1, .work, .work, .advance 0, .advance 0, .advance 1]
    let both : List CreditInput := oneWaits ++ [.call [3] (some [1, 2, 3]), .advance 2, .advance 2,
      .advance 2, .work, .work, .work, .work, .advance 1, .advance 2, .advance 1, .advance 1]
    ∀ inputs ∈ [early, both], ¬ (run (step 5 10) Credits.new inputs).Served := by
  decide +kernel

end Credits

end KairosFlux.Storage
