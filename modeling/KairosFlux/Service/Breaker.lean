import KairosFlux.Lib.Runs

/-! The circuit breaker in front of a sink (`service/delivery/governance/breaker.go`).

A report does not say which call it is about, so a late failure of a call from before the breaker
opened ends the probe of another one. -/

namespace KairosFlux.Service

open Lib

inductive BreakerState
  | closed
  | opened
  | halfOpen
  deriving DecidableEq

/-- Every method holds the mutex, so it is one step. Times are nanoseconds. -/
structure Breaker where
  failThreshold : Int
  openTimeout : Int
  st : BreakerState
  failures : Int
  openedAt : Int
  probeInFlight : Bool

namespace Breaker

def new (failThreshold openTimeout : Int) : Breaker where
  failThreshold := if failThreshold ≤ 0 then 1 else failThreshold
  openTimeout := if openTimeout ≤ 0 then 1000000000 else openTimeout
  st := .closed
  failures := 0
  openedAt := 0
  probeInFlight := false

variable (b : Breaker) (now : Int)

def allow : Breaker × Bool :=
  match b.st with
  | .closed => (b, true)
  | .opened =>
    if now - b.openedAt < b.openTimeout then (b, false)
    else ({ b with st := .halfOpen, probeInFlight := true }, true)
  | .halfOpen => if b.probeInFlight then (b, false) else ({ b with probeInFlight := true }, true)

def onSuccess : Breaker := { b with st := .closed, failures := 0, probeInFlight := false }

def trip : Breaker := { b with st := .opened, openedAt := now, probeInFlight := false }

def onFailure : Breaker :=
  match b.st with
  | .halfOpen => b.trip now
  | .closed =>
    let b := { b with failures := b.failures + 1 }
    if b.failThreshold ≤ b.failures then b.trip now else b
  | .opened => b

end Breaker

/-- The breaker and the allowed calls that have not reported yet: those that were allowed in the open
or half-open state since a success has last closed the breaker, and the others. -/
structure BreakerCalls where
  breaker : Breaker
  now : Int
  probes : Nat
  others : Nat

/-- The clock goes on by some time, or a call is made, or a call of one of the two kinds reports. -/
inductive BreakerStep
  | tick (elapsed : Nat)
  | allow
  | success (probe : Bool)
  | failure (probe : Bool)
  deriving DecidableEq

namespace BreakerCalls

def new (failThreshold openTimeout : Int) : BreakerCalls :=
  ⟨.new failThreshold openTimeout, 0, 0, 0⟩

def Pending (s : BreakerCalls) (probe : Bool) : Prop := 0 < if probe then s.probes else s.others

instance (s : BreakerCalls) (probe : Bool) : Decidable (s.Pending probe) := Nat.decLt _ _

def step (s : BreakerCalls) : BreakerStep → BreakerCalls
  | .tick elapsed => { s with now := s.now + elapsed }
  | .allow =>
    match s.breaker.allow s.now with
    | (b, false) => { s with breaker := b }
    | (b, true) =>
      if s.breaker.st = .closed then { s with breaker := b, others := s.others + 1 }
      else { s with breaker := b, probes := s.probes + 1 }
  | .success probe =>
    -- The breaker is closed, so the calls that are left belong to the time before.
    if s.Pending probe then ⟨s.breaker.onSuccess, s.now, 0, s.probes + s.others - 1⟩ else s
  | .failure probe =>
    if s.Pending probe then
      { s with
        breaker := s.breaker.onFailure s.now
        probes := if probe then s.probes - 1 else s.probes
        others := if probe then s.others else s.others - 1 }
    else s

/-- No call but the probe fails while the breaker is half-open. -/
def Own (s : BreakerCalls) (input : BreakerStep) : Prop :=
  input = .failure false → s.breaker.st ≠ .halfOpen
deriving Decidable

/-- There is a probe in the half-open state and in no other. -/
def Probing (s : BreakerCalls) : Prop :=
  if s.breaker.st = .halfOpen then s.breaker.probeInFlight = true ∧ s.probes = 1 else s.probes = 0

theorem Probing.step (s : BreakerCalls) (input : BreakerStep) (probing : s.Probing)
    (own : s.Own input) : (s.step input).Probing := by
  cases input with
  | tick elapsed => exact probing
  | allow =>
    cases st : s.breaker.st with
    | closed => simpa [Probing, BreakerCalls.step, Breaker.allow, st] using probing
    | opened =>
      by_cases early : s.now - s.breaker.openedAt < s.breaker.openTimeout
      · simpa [Probing, BreakerCalls.step, Breaker.allow, st, early] using probing
      · simpa [Probing, BreakerCalls.step, Breaker.allow, st, early] using probing
    | halfOpen =>
      have inFlight : s.breaker.probeInFlight = true ∧ s.probes = 1 := by
        simpa [Probing, st] using probing
      simpa [Probing, BreakerCalls.step, Breaker.allow, st, inFlight.1] using probing
  | success probe =>
    by_cases pending : s.Pending probe
    · simp [Probing, BreakerCalls.step, pending, Breaker.onSuccess]
    · rwa [BreakerCalls.step, if_neg pending]
  | failure probe =>
    by_cases pending : s.Pending probe
    · rw [BreakerCalls.step, if_pos pending]
      cases st : s.breaker.st with
      | closed =>
        have none : s.probes = 0 := by simpa [Probing, st] using probing
        simp only [Probing, Breaker.onFailure, st]
        split_ifs <;> simp_all [Breaker.trip]
      | opened => simp_all [Probing, Breaker.onFailure]
      | halfOpen =>
        cases probe with
        | false => exact absurd st (own rfl)
        | true => simp_all [Probing, Breaker.onFailure, Breaker.trip]
    · rwa [BreakerCalls.step, if_neg pending]

end BreakerCalls

open BreakerCalls

/-- As long as in the half-open state no call fails but the probe, at most one probe is under way. -/
theorem one_probe_at_a_time (failThreshold openTimeout : Int) (inputs : List BreakerStep)
    (own : Guarded step BreakerCalls.Own (.new failThreshold openTimeout) inputs) :
    (run step (.new failThreshold openTimeout) inputs).probes ≤ 1 := by
  have probing : (run step (.new failThreshold openTimeout) inputs).Probing :=
    own.invariant BreakerCalls.Probing.step _ _ rfl
  rw [BreakerCalls.Probing] at probing
  split_ifs at probing <;> omega

/-- Two calls are allowed, one fails and opens the breaker, and a probe is sent after a second. -/
def probed : List BreakerStep := [.allow, .allow, .failure false, .tick 1000000000, .allow]

theorem one_probe_at_a_time_failed :
    (run step (.new 1 0)
      (probed ++ [.failure true, .tick 1000000000, .allow])).probes ≤ 1 :=
  one_probe_at_a_time 1 0 _ (by decide)

/-- The other call fails too and opens the breaker again, which takes the probe for done. -/
theorem two_probes_at_a_time :
    (run step (.new 1 0)
      (probed ++ [.failure false, .tick 1000000000, .allow])).probes = 2 := by
  decide

end KairosFlux.Service
