import KairosFlux.Lib.Runs
import KairosFlux.Lib.Tally

/-! The connection pool of the client (`client/client.go`).

A connection that is given back in order goes to a request that waits for one. A broken connection is
only taken off the count of live ones, and nobody is told. -/

namespace KairosFlux.Client

open Lib

/-- Where a request stands in `acquire` and behind it. `tested` has read the count of live connections,
`full` has found the pool full and comes to the last select, `waiting` is parked there. -/
inductive Stage
  | begun
  | counting
  | tested (n : Int)
  | dialling
  | full
  | waiting
  | holding
  | returned
  deriving DecidableEq

structure Pool where
  idle : Nat
  live : Int
  requests : List Stage

/-- A request can be cancelled where it waits. Where it holds a connection, this breaks the connection.
`next` is the request that a connection is handed to if some wait. -/
inductive PoolStep
  | begin
  | advance (i : Nat)
  | cancel (i : Nat)
  | release (i : Nat) (broken : Bool) (next : Nat)

namespace Pool

def new : Pool := ⟨0, 0, []⟩

def goTo (p : Pool) (i : Nat) (stage : Stage) : Pool := { p with requests := p.requests.set i stage }

/-- Dialling succeeds. -/
def acquire (poolSize : Nat) (p : Pool) (i : Nat) : Stage → Pool
  | .begun =>
    if 0 < p.idle then { p with idle := p.idle - 1 }.goTo i .holding else p.goTo i .counting
  | .counting => if poolSize ≤ p.live then p.goTo i .full else p.goTo i (.tested p.live)
  | .tested n =>
    if p.live = n then { p with live := n + 1 }.goTo i .dialling else p.goTo i .counting
  | .dialling => p.goTo i .holding
  | .full =>
    if 0 < p.idle then { p with idle := p.idle - 1 }.goTo i .holding else p.goTo i .waiting
  | .waiting | .holding | .returned => p

def release (poolSize : Nat) (p : Pool) (i : Nat) (broken : Bool) (next : Nat) : Pool :=
  if broken then { p with live := p.live - 1 }.goTo i .returned
  else if .waiting ∈ p.requests then
    -- A send to a channel with a parked receiver goes straight to that receiver.
    if p.requests[next]? = some .waiting then (p.goTo next .holding).goTo i .returned else p
  else if p.idle < poolSize then { p with idle := p.idle + 1 }.goTo i .returned
  else { p with live := p.live - 1 }.goTo i .returned

def step (poolSize : Nat) (p : Pool) : PoolStep → Pool
  | .begin => { p with requests := p.requests ++ [.begun] }
  | .advance i => p.requests[i]?.elim p (p.acquire poolSize i)
  | .cancel i =>
    if p.requests[i]? = some .full ∨ p.requests[i]? = some .waiting then p.goTo i .returned else p
  | .release i broken next =>
    if p.requests[i]? = some .holding then p.release poolSize i broken next else p

def count (p : Pool) (stage : Stage) : Nat :=
  tally (fun other => if other = stage then 1 else 0) p.requests

/-- A request waits although there is room for a connection, and nobody is about to give one back. -/
def Stranded (poolSize : Nat) (p : Pool) : Prop :=
  .waiting ∈ p.requests ∧ p.live < poolSize ∧ .holding ∉ p.requests ∧ .dialling ∉ p.requests
deriving Decidable

/-- The last live connection breaks only while no request waits or is about to. -/
def Careful (p : Pool) : PoolStep → Prop
  | .release _ true _ => 1 < p.live ∨ .waiting ∉ p.requests ∧ .full ∉ p.requests
  | .begin | .advance _ | .cancel _ | .release _ false _ => True

variable {poolSize : Nat} {p : Pool} {i : Nat}

theorem count_pos_iff {stage : Stage} : 0 < p.count stage ↔ stage ∈ p.requests := by
  rw [count, tally_pos_iff]
  constructor
  · rintro ⟨other, member, counts⟩
    by_cases same : other = stage
    · exact same ▸ member
    · simp [same] at counts
  · exact fun member => ⟨stage, member, by simp⟩

/-- Whoever waits, waits for a connection that is in use or being dialled. -/
structure Sound (p : Pool) : Prop where
  counted : p.live = p.idle + p.count .holding + p.count .dialling
  served : 0 < p.count .waiting → p.idle = 0 ∧ 0 < p.count .holding + p.count .dialling
  pending : 0 < p.count .full → 0 < p.live

theorem Sound.goTo {old new : Stage} (found : p.requests[i]? = some old)
    (idle : Nat) (live : Int)
    (sound : ∀ holding dialling waiting full : Nat,
      holding + (if old = .holding then 1 else 0) = p.count .holding + (if new = .holding then 1 else 0) →
      dialling + (if old = .dialling then 1 else 0) =
        p.count .dialling + (if new = .dialling then 1 else 0) →
      waiting + (if old = .waiting then 1 else 0) = p.count .waiting + (if new = .waiting then 1 else 0) →
      full + (if old = .full then 1 else 0) = p.count .full + (if new = .full then 1 else 0) →
      live = idle + holding + dialling ∧ (0 < waiting → idle = 0 ∧ 0 < holding + dialling) ∧
        (0 < full → 0 < live)) :
    Sound ({ p with idle := idle, live := live }.goTo i new) := by
  have moved := fun stage => tally_set (fun other => if other = stage then 1 else 0) found new
  rcases sound _ _ _ _ (moved .holding) (moved .dialling) (moved .waiting) (moved .full) with
    ⟨counted, served, pending⟩
  exact ⟨counted, served, pending⟩

theorem Sound.acquire (positive : 0 < poolSize) (sound : Sound p)
    {stage : Stage} (found : p.requests[i]? = some stage) : Sound (p.acquire poolSize i stage) := by
  rcases sound with ⟨counted, served, pending⟩
  cases stage <;> simp only [Pool.acquire] <;> try split_ifs
  any_goals
    exact .goTo found _ _ (by simp; omega)
  all_goals exact ⟨counted, served, pending⟩

theorem Sound.release (positive : 0 < poolSize) (sound : Sound p)
    {next : Nat} {broken : Bool} (found : p.requests[i]? = some .holding)
    (careful : p.Careful (.release i broken next)) : Sound (p.release poolSize i broken next) := by
  rcases sound with ⟨counted, served, pending⟩
  rw [Pool.release]
  split_ifs with isBroken waits handed room
  · subst isBroken
    have left : 1 < p.live ∨ ¬ 0 < p.count .waiting ∧ ¬ 0 < p.count .full := by
      rw [count_pos_iff, count_pos_iff]
      exact careful
    exact .goTo found _ _ (by simp; omega)
  · -- The one that waits holds the connection before the other one has left.
    have apart : next ≠ i := by
      rintro rfl
      cases handed.symm.trans found
    have still : (p.goTo next .holding).requests[i]? = some .holding := by
      rw [Pool.goTo, List.getElem?_set_ne apart]
      exact found
    have moved : ∀ stage, (p.goTo next .holding).count stage + (if .waiting = stage then 1 else 0) =
        p.count stage + if .holding = stage then 1 else 0 :=
      fun stage => tally_set _ handed _
    have holding := moved .holding
    have dialling := moved .dialling
    have waiting := moved .waiting
    have full := moved .full
    simp at holding dialling waiting full
    exact .goTo still _ _ (by simp [holding, dialling, full]; omega)
  · exact ⟨counted, served, pending⟩
  all_goals
    rw [← count_pos_iff] at waits
    exact .goTo found _ _ (by simp; omega)

theorem Sound.step (positive : 0 < poolSize) (p : Pool) (input : PoolStep)
    (sound : Sound p) (careful : p.Careful input) : Sound (p.step poolSize input) := by
  cases input with
  | begin =>
    have same : ∀ stage, (p.step poolSize .begin).count stage =
        p.count stage + if .begun = stage then 1 else 0 := by
      simp [Pool.step, Pool.count, tally]
    constructor <;> simp only [same, reduceCtorEq, if_false, add_zero]
    exacts [sound.counted, sound.served, sound.pending]
  | advance i =>
    cases found : p.requests[i]? with
    | none => simpa [Pool.step, found] using sound
    | some stage => simpa [Pool.step, found] using sound.acquire positive found
  | cancel i =>
    rw [Pool.step]
    split_ifs with waits
    · rcases sound with ⟨counted, served, pending⟩
      rcases waits with found | found
      all_goals
        exact .goTo found _ _ (by simp; omega)
    · exact sound
  | release i broken next =>
    rw [Pool.step]
    split_ifs with found
    · exact sound.release positive found careful
    · exact sound

/-- What is compared and swapped has been found below the size of the pool. -/
def Bounded (poolSize : Nat) (p : Pool) : Prop :=
  p.live ≤ poolSize ∧ ∀ n, .tested n ∈ p.requests → n < poolSize

theorem Bounded.step (p : Pool) (input : PoolStep) (bounded : p.Bounded poolSize) :
    (p.step poolSize input).Bounded poolSize := by
  have member := @List.mem_or_eq_of_mem_set Stage
  cases input with
  | begin => simpa [Pool.step, Bounded] using bounded
  | advance i =>
    cases found : p.requests[i]? with
    | none => simpa [Pool.step, found] using bounded
    | some stage =>
      have here := List.mem_of_getElem? found
      cases stage <;> grind [Pool.step, acquire, goTo, Bounded]
  | cancel i => grind [Pool.step, goTo, Bounded]
  | release i broken next => grind [Pool.step, release, goTo, Bounded]

end Pool

/-- As long as the last live connection does not break under a request that waits or is about to, no
request is stranded, and the count is that of the connections there are. -/
theorem no_stranded_waiter (poolSize : Nat) (positive : 0 < poolSize) (inputs : List PoolStep)
    (careful : Guarded (Pool.step poolSize) Pool.Careful .new inputs) :
    let p := run (Pool.step poolSize) .new inputs
    ¬ p.Stranded poolSize ∧ p.live = p.idle + p.count .holding + p.count .dialling := by
  intro p
  have sound : p.Sound := careful.invariant (Pool.Sound.step positive) .new inputs ⟨rfl, nofun, nofun⟩
  refine ⟨?_, sound.counted⟩
  rintro ⟨waits, _, noneHolds, noneDials⟩
  have served := (sound.served (Pool.count_pos_iff.mpr waits)).2
  rw [← Pool.count_pos_iff] at noneHolds noneDials
  omega

/-- The first request has dialled the only connection, the second one waits. -/
def oneWaits : List PoolStep :=
  [.begin, .advance 0, .advance 0, .advance 0, .advance 0, .begin, .advance 1, .advance 1, .advance 1]

theorem no_stranded_waiter_handed_over :
    let p := run (Pool.step 1) .new (oneWaits ++ [.release 0 false 1])
    p.requests = [.returned, .holding] ∧ ¬ p.Stranded 1 :=
  ⟨by decide, (no_stranded_waiter 1 (by decide) _ (by simp [oneWaits, Guarded, Pool.Careful])).1⟩

/-- The connection breaks instead. -/
theorem waiter_stranded : (run (Pool.step 1) .new (oneWaits ++ [.release 0 true 1])).Stranded 1 := by
  decide

/-- However the tests and swaps of the count interleave, no more than `PoolSize` connections are live. -/
theorem live_le_poolSize (poolSize : Nat) (inputs : List PoolStep) :
    (run (Pool.step poolSize) .new inputs).live ≤ poolSize :=
  (run_invariant Pool.Bounded.step .new inputs (by simp [Pool.Bounded, Pool.new])).1

end KairosFlux.Client
