import KairosFlux.Lib.Runs

/-! The attempts of the client and their watchdogs (`client/client.go`, `client/conn.go`). A watchdog is
told to stop before its connection is put back, but nobody waits until it has stopped. -/

namespace KairosFlux.Client

open Lib Function

/-- Where `attempt` stands. `stopped` has closed `stop`; `sound` is the `release` that has read `broken`
and `closed` and puts the connection back. -/
inductive Phase
  | acquired
  | asked
  | answered
  | stopped
  | sound
  | returned
  | closed
  deriving DecidableEq

/-- Where the goroutine of an attempt stands. `marking` and `dating` have found the context done and
write the flag and then the deadline. -/
inductive Watchdog
  | watching
  | marking
  | dating
  | ended
  deriving DecidableEq

structure Attempt where
  conn : Nat
  phase : Phase
  watchdog : Watchdog
  cancelled : Bool
  deriving DecidableEq

/-- The watchdog cannot find the context done any more. -/
def Attempt.Calm (a : Attempt) : Prop :=
  a.watchdog = .ended ∨ a.watchdog = .watching ∧ a.cancelled = false
deriving Decidable

structure Attempts where
  broken : Nat → Bool
  expired : Nat → Bool
  idle : List Nat
  dialled : Nat
  live : Nat
  closed : Bool
  calls : List Attempt

/-- A context without `Done` has no watchdog. `context` is the choice of a watchdog where both its
channels are ready. -/
inductive AttemptStep
  | reuse (watched : Bool)
  | dial (watched : Bool)
  | advance (i : Nat) (failed : Bool)
  | cancel (i : Nat)
  | watch (i : Nat) (context : Bool)
  | close
  | drain

namespace Attempts

variable (poolSize : Nat) (s : Attempts) (i : Nat) (a : Attempt)

def new : Attempts := ⟨fun _ => false, fun _ => false, [], 0, 0, false, []⟩

def begin (conn : Nat) (watched : Bool) : Attempts :=
  { s with calls := s.calls ++ [⟨conn, .acquired, if watched then .watching else .ended, false⟩] }

def set : Attempts := { s with calls := s.calls.set i a }

def advance (failed : Bool) : Attempts :=
  match a.phase with
  | .acquired => { s with expired := update s.expired a.conn false }.set i { a with phase := .asked }
  | .asked =>
    { s with broken := update s.broken a.conn (s.broken a.conn || failed) }.set i
      { a with phase := .answered }
  | .answered => s.set i { a with phase := .stopped }
  | .stopped =>
    if s.broken a.conn || s.closed then { s with live := s.live - 1 }.set i { a with phase := .closed }
    else s.set i { a with phase := .sound }
  | .sound =>
    if s.idle.length < poolSize then
      { s with idle := s.idle ++ [a.conn] }.set i { a with phase := .returned }
    else { s with live := s.live - 1 }.set i { a with phase := .closed }
  | .returned | .closed => s

def watch (context : Bool) : Attempts :=
  match a.watchdog with
  | .watching =>
    if context && a.cancelled then s.set i { a with watchdog := .marking }
    else if a.phase ∈ [.stopped, .sound, .returned, .closed] then s.set i { a with watchdog := .ended }
    else s
  | .marking => { s with broken := update s.broken a.conn true }.set i { a with watchdog := .dating }
  | .dating => { s with expired := update s.expired a.conn true }.set i { a with watchdog := .ended }
  | .ended => s

/-- `acquire` looks at `closed` and the idle connections before it dials, so both may have changed. -/
def step : AttemptStep → Attempts
  | .reuse watched =>
    match s.idle with
    | conn :: idle => { s with idle := idle }.begin conn watched
    | [] => s
  | .dial watched =>
    if s.live < poolSize then
      { s with dialled := s.dialled + 1, live := s.live + 1 }.begin s.dialled watched
    else s
  | .advance i failed => s.calls[i]?.elim s fun a => s.advance poolSize i a failed
  | .cancel i => s.calls[i]?.elim s fun a => s.set i { a with cancelled := true }
  | .watch i context => s.calls[i]?.elim s fun a => s.watch i a context
  | .close => { s with closed := true }
  | .drain =>
    if s.closed then { s with idle := s.idle.tail, live := s.live - min 1 s.idle.length } else s

/-- A watchdog writes only while the connection is not back in the pool. -/
def Harmless : AttemptStep → Prop
  | .watch i _ =>
    ∀ a ∈ s.calls[i]?, a.watchdog = .marking ∨ a.watchdog = .dating → a.phase ≠ .returned
  | _ => True

/-- A connection is put back when its watchdog has ended or its context is not done, and in the second
case the context is not cancelled before the watchdog has ended. -/
def Careful : AttemptStep → Prop
  | .advance i _ => ∀ a ∈ s.calls[i]?, a.phase = .sound → a.Calm
  | .cancel i => ∀ a ∈ s.calls[i]?, a.phase = .returned → a.watchdog = .ended
  | _ => True

instance : ∀ input, Decidable (s.Harmless input)
  | .watch .. => by dsimp only [Harmless]; infer_instance
  | .reuse _ | .dial _ | .advance .. | .cancel _ | .close | .drain => isTrue trivial

instance : ∀ input, Decidable (s.Careful input)
  | .advance .. | .cancel _ => by dsimp only [Careful]; infer_instance
  | .reuse _ | .dial _ | .watch .. | .close | .drain => isTrue trivial

def Quiet : Prop := ∀ a ∈ s.calls, a.phase = .returned → a.Calm

variable {poolSize s i a}

theorem Quiet.set (quiet : Quiet s) (calm : a.phase = .returned → a.Calm) : Quiet (s.set i a) := by
  intro other member
  rcases List.mem_or_eq_of_mem_set member with old | rfl
  · exact quiet other old
  · exact calm

theorem Quiet.begin (quiet : Quiet s) (conn : Nat) (watched : Bool) : Quiet (s.begin conn watched) := by
  intro a member
  rcases List.mem_append.mp member with old | new
  · exact quiet a old
  · rw [List.mem_singleton.mp new]
    exact nofun

theorem Quiet.elim (quiet : Quiet s) {next : Attempt → Attempts}
    (holds : ∀ a ∈ s.calls[i]?, Quiet (next a)) : Quiet (s.calls[i]?.elim s next) := by
  cases found : s.calls[i]? with
  | none => exact quiet
  | some a => exact holds a found

theorem Quiet.advance (quiet : Quiet s) (failed : Bool) (calm : a.phase = .sound → a.Calm) :
    Quiet (s.advance poolSize i a failed) := by
  rw [Attempts.advance]
  cases phase : a.phase with
  | acquired | asked | answered => exact quiet.set nofun
  | stopped =>
    simp only
    split_ifs <;> exact quiet.set nofun
  | sound =>
    simp only
    split_ifs
    · exact quiet.set fun _ => calm phase
    · exact quiet.set nofun
  | returned | closed => exact quiet

theorem Quiet.watch (quiet : Quiet s) (calm : a.phase = .returned → a.Calm) (context : Bool) :
    Quiet (s.watch i a context) := by
  rw [Attempts.watch]
  cases is : a.watchdog with
  | watching =>
    simp only
    split_ifs with done
    · refine quiet.set fun returned => ?_
      simp_all [Attempt.Calm]
    · exact quiet.set fun _ => .inl rfl
    · exact quiet
  | marking =>
    refine quiet.set fun returned => ?_
    simp_all [Attempt.Calm]
  | dating => exact quiet.set fun _ => .inl rfl
  | ended => exact quiet

theorem Quiet.step (s : Attempts) (input : AttemptStep) (quiet : Quiet s) (careful : s.Careful input) :
    Quiet (s.step poolSize input) ∧ s.Harmless input := by
  have calm (i : Nat) (a : Attempt) (found : a ∈ s.calls[i]?) : a.phase = .returned → a.Calm :=
    quiet a (List.mem_of_getElem? found)
  cases input with
  | reuse watched =>
    refine ⟨?_, trivial⟩
    rw [Attempts.step]
    split
    · exact Quiet.begin quiet _ watched
    · exact quiet
  | dial watched =>
    refine ⟨?_, trivial⟩
    rw [Attempts.step]
    split_ifs
    · exact Quiet.begin quiet _ watched
    · exact quiet
  | advance i failed => exact ⟨quiet.elim fun a found => quiet.advance failed (careful a found), trivial⟩
  | cancel i =>
    exact ⟨quiet.elim fun a found => quiet.set fun returned => .inl (careful a found returned), trivial⟩
  | watch i context =>
    refine ⟨quiet.elim fun a found => quiet.watch (calm i a found) context, ?_⟩
    intro a found writes returned
    rcases calm i a found returned with ended | ⟨watching, _⟩ <;> simp_all
  | close => exact ⟨quiet, trivial⟩
  | drain =>
    refine ⟨?_, trivial⟩
    rw [Attempts.step]
    split_ifs <;> exact quiet

end Attempts

/-- If connections are put back only with a watchdog that cannot be called any more, no watchdog writes
to a connection that is back in the pool. -/
theorem watchdog_harmless (poolSize : Nat) (inputs : List AttemptStep)
    (careful : Guarded (Attempts.step poolSize) Attempts.Careful .new inputs) :
    Guarded (Attempts.step poolSize) Attempts.Harmless .new inputs :=
  careful.observed Attempts.Quiet.step .new inputs nofun

/-- An attempt up to the close of `stop`, with an answer. -/
def answeredSteps : List AttemptStep :=
  [.dial true, .advance 0 false, .advance 0 false, .advance 0 false]

/-- The second attempt gets the connection of the first one, whose context is done only then. -/
theorem watchdog_harmless_reused :
    Guarded (Attempts.step 1) Attempts.Harmless .new (answeredSteps ++ [.watch 0 true, .advance 0 false,
      .advance 0 false, .reuse true, .cancel 0, .cancel 1, .watch 1 true, .watch 1 true]) :=
  watchdog_harmless 1 _ (by decide)

/-- The context is done when the watchdog is told to stop, and the watchdog chooses the context when the
next attempt has the connection. -/
theorem watchdog_breaks_next :
    let inputs := answeredSteps ++ [.cancel 0, .advance 0 false, .advance 0 false, .reuse true,
      .watch 0 true, .watch 0 true]
    ¬ Guarded (Attempts.step 1) Attempts.Harmless .new inputs ∧
      (run (Attempts.step 1) .new inputs).broken 0 = true ∧
      (run (Attempts.step 1) .new inputs).calls[1]? = some ⟨0, .acquired, .watching, false⟩ := by
  intro inputs
  decide

end KairosFlux.Client
