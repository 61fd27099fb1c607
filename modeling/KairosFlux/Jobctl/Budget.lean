import KairosFlux.Jobctl.Occurrences

/-! The retry budget and the backoff of a command that always fails, inside one slot. -/

namespace KairosFlux.Jobctl

open Lib List History Controller

def History.ranOn (history : History) (track : Track) : List Execution :=
  history.executions.filter fun execution => execution.occasion.track = track

/-- Every attempt is recorded, an alert is that of the last attempt of the budget, and a retry waits
for the backoff. The bounds are those of the integers. -/
structure BudgetKept (spec : JobSpec) (track : Track) (history : History) : Prop where
  recorded : (history.ranOn track).map (fun execution => execution.attempt) =
    (history.onTrack track).map fun event => event.attempt
  numbered : Numbered (history.onTrack track)
  within : ((history.onTrack track).length : Int) ≤ spec.maxRetries.toInt + 1
  outcomes : ∀ event ∈ history.onTrack track, event.outcome =
    if event.attempt.toInt = spec.maxRetries.toInt + 1 then .alert else .failed
  spaced : (history.ranOn track).IsChain fun earlier later =>
    earlier.occasion.nowNanos.toInt + spec.retryBackoffSeconds.toInt * 1000000000 ≤
      later.occasion.nowNanos.toInt

/-- Nothing of the occurrence has been written or run. -/
structure Unknown (track : Track) (history : History) : Prop where
  status : ∀ status, history.status = some status → status.track ≠ track
  events : history.onTrack track = []
  executions : history.ranOn track = []

/-- Between the calls: the occurrence was not attempted yet, or the status is that of its last
attempt. -/
structure Attempting (spec : JobSpec) (track : Track) (history : History) : Prop where
  kept : BudgetKept spec track history
  room : ∀ execution ∈ history.ranOn track, 0 ≤ execution.occasion.nowNanos.toInt ∧
    execution.occasion.nowNanos.toInt + spec.retryBackoffSeconds.toInt * 1000000000 < 2 ^ 63
  status : history.onTrack track = [] ∧ history.ranOn track = [] ∧
      (∀ status, history.status = some status → status.track = track →
        status.phase = .pending ∧ status.attempt = 0) ∨
    ∃ event execution, (history.onTrack track).getLast? = some event ∧
      (history.ranOn track).getLast? = some execution ∧
      execution.occasion.nowNanos = event.writeNanos ∧
      history.status = some (jobStatusFromEvent event)

section Call

variable {occasion : Occasion} {permitted : Choice → Prop} {start history : History} {stage : Stage}

def Stage.attempted : Stage → Option Int64
  | .ran number | .recorded number _ | .settled number _ => some number
  | _ => none

theorem Reached.executions (reached : Reached occasion permitted start stage history) :
    history.executions = start.executions ++ stage.attempted.toList.map fun number => ⟨occasion, number⟩ := by
  induction reached with
  | begins => simp [Stage.attempted]
  | runs number _ ih =>
    rw [executions_concat, ih]
    simp [Stage.attempted]
  | saw _ _ _ ih | waits _ _ _ _ ih | keepsWaiting _ _ _ _ _ ih | starts _ _ _ ih
  | keepsRunning _ _ _ _ ih | records _ _ _ _ ih | alerts _ _ _ ih | settles _ _ _ ih =>
    simpa [Stage.attempted] using ih

/-- How a call came to where it stands. -/
def Stage.Justified (occasion : Occasion) (permitted : Choice → Prop) (start : History) : Stage → Prop
  | .begun => True
  | .waiting => ∃ number, occasion.decision start.status = .checkDependencies number
  | .running number | .ran number => ∃ before, Due occasion start before number
  | .recorded number result | .settled number result =>
    (∃ before, Due occasion start before number) ∧ ∃ choice, permitted choice ∧ choice.result = result

theorem Reached.justified (reached : Reached occasion permitted start stage history) :
    stage.Justified occasion permitted start := by
  induction reached with
  | begins | saw => trivial
  | waits number _ _ asked | keepsWaiting number _ _ asked => exact ⟨number, asked⟩
  | starts number _ due | keepsRunning number _ due => exact ⟨_, due⟩
  | runs number _ ih => exact ih
  | records number choice _ allowed ih => exact ⟨ih, choice, allowed, rfl⟩
  | alerts number result _ ih | settles number result _ ih => exact ih

theorem onTrack_append_event {track : Track} {event : Event} (same : history.events = start.events ++ [event])
    (isTrack : event.track = track) : history.onTrack track = start.onTrack track ++ [event] := by
  simp [onTrack, same, isTrack]

end Call

theorem toInt_nextEligible {last backoff : Int64} (nonneg : 0 ≤ last.toInt) (positive : 0 ≤ backoff.toInt)
    (room : last.toInt + backoff.toInt * 1000000000 < 2 ^ 63) :
    (last + backoff * nanosPerSecond).toInt = last.toInt + backoff.toInt * 1000000000 := by
  have nanos : nanosPerSecond.toInt = 1000000000 := by decide
  have product : (backoff * nanosPerSecond).toInt = backoff.toInt * 1000000000 := by
    rw [Int64.toInt_mul, nanos, Int.bmod_eq_of_le (by omega) (by omega)]
  rw [Int64.toInt_add, product, Int.bmod_eq_of_le (by omega) (by omega)]

section Attempt

variable {occasion : Occasion} {permitted : Choice → Prop} {start history : History}

/-- The room that the bounds of a call need in 64 bits. -/
structure Occasion.Roomy (occasion : Occasion) : Prop where
  retries : 0 ≤ occasion.spec.maxRetries.toInt
  retriesRoom : occasion.spec.maxRetries.toInt + 1 < 2 ^ 63
  backoff : 0 ≤ occasion.spec.retryBackoffSeconds.toInt
  now : 0 ≤ occasion.nowNanos.toInt
  nowRoom : occasion.nowNanos.toInt + occasion.spec.retryBackoffSeconds.toInt * 1000000000 < 2 ^ 63

theorem Attempting.retry (attempting : Attempting occasion.spec occasion.track start)
    (roomy : occasion.Roomy) {number : Int64} {event : Event} {execution : Execution}
    (last : (start.onTrack occasion.track).getLast? = some event)
    (lastRun : (start.ranOn occasion.track).getLast? = some execution)
    (sameTime : execution.occasion.nowNanos = event.writeNanos)
    (found : start.status = some (jobStatusFromEvent event))
    (asked : occasion.decision start.status = .attempt number) :
    event.outcome = .failed ∧ number.toInt = (start.onTrack occasion.track).length + 1 ∧
      number.toInt ≤ occasion.spec.maxRetries.toInt + 1 ∧
      execution.occasion.nowNanos.toInt + occasion.spec.retryBackoffSeconds.toInt * 1000000000 ≤
        occasion.nowNanos.toInt := by
  rcases Occasion.fits_decision asked with ⟨status, is, -, ⟨phase, -⟩ | ⟨phase, rfl, late⟩⟩
  · cases found.symm.trans is
    exact absurd phase (jobStatusFromEvent_phase event).2
  · cases found.symm.trans is
    have outcome := attempting.kept.outcomes event (mem_of_getLast? last)
    have attempt := attempting.kept.numbered.attempt_getLast last
    have within := attempting.kept.within
    have bounds := attempting.room execution (mem_of_getLast? lastRun)
    have retried : event.attempt.toInt ≠ occasion.spec.maxRetries.toInt + 1 := by
      intro exhausted
      rw [if_pos exhausted] at outcome
      simp [jobStatusFromEvent, outcome] at phase
    rw [if_neg retried] at outcome
    have room := roomy.retriesRoom
    have next : (event.attempt + 1).toInt = event.attempt.toInt + 1 := toInt_succ (by omega)
    refine ⟨outcome, ?_, ?_, ?_⟩
    · change (event.attempt + 1).toInt = _
      omega
    · change (event.attempt + 1).toInt ≤ _
      omega
    · change ¬occasion.nowNanos < event.writeNanos + _ at late
      rw [Int64.lt_iff_toInt_lt, ← sameTime, toInt_nextEligible bounds.1 roomy.backoff bounds.2] at late
      exact not_lt.mp late

theorem Attempting.of_due (attempting : Attempting occasion.spec occasion.track start)
    (roomy : occasion.Roomy) {number : Int64} (due : Due occasion start history number) :
    (∀ event ∈ start.onTrack occasion.track, event.outcome = .failed) ∧
      number.toInt = (start.onTrack occasion.track).length + 1 ∧
      number.toInt ≤ occasion.spec.maxRetries.toInt + 1 ∧
      ∀ execution ∈ (start.ranOn occasion.track).getLast?,
        execution.occasion.nowNanos.toInt + occasion.spec.retryBackoffSeconds.toInt * 1000000000 ≤
          occasion.nowNanos.toInt := by
  have retries := roomy.retries
  rcases attempting.status with ⟨empty, noRun, pending⟩ | ⟨event, execution, last, lastRun, time, found⟩
  · have first : number = 1 := by
      rcases due with asked | ⟨asked, -⟩
      · rcases Occasion.fits_decision asked with ⟨status, found, track, phase⟩
        rcases pending status found track with ⟨waiting, -⟩
        rcases phase with ⟨phase, -⟩ | ⟨phase, -⟩ <;> simp [waiting] at phase
      · rcases Occasion.fits_decision asked with ⟨-, is⟩ | ⟨status, found, track, -, is⟩
        · exact is
        · rw [is, (pending status found track).2]
          rfl
    have one : (1 : Int64).toInt = 1 := rfl
    simp only [empty, noRun, first, one]
    exact ⟨by simp, by simp, by omega, by simp⟩
  · have track := track_of_getLast? last
    rcases due with asked | ⟨asked, -⟩
    · rcases attempting.retry roomy last lastRun time found asked with ⟨outcome, next, within, spaced⟩
      refine ⟨attempting.kept.numbered.failed last outcome, next, within, fun other is => ?_⟩
      cases lastRun.symm.trans is
      exact spaced
    · rcases Occasion.fits_decision asked with ⟨other, -⟩ | ⟨status, is, -, phase, -⟩
      · exact absurd track (other _ found)
      · cases found.symm.trans is
        exact absurd phase (jobStatusFromEvent_phase event).1

theorem ranOn_congr (same : history.executions = start.executions) (track : Track) :
    history.ranOn track = start.ranOn track := by
  rw [ranOn, same, ranOn]

theorem BudgetKept.congr {spec : JobSpec} {track : Track} (kept : BudgetKept spec track start)
    (events : history.onTrack track = start.onTrack track)
    (executions : history.ranOn track = start.ranOn track) : BudgetKept spec track history := by
  rcases kept with ⟨recorded, numbered, within, outcomes, spaced⟩
  exact ⟨by rw [events, executions, recorded], events ▸ numbered, events ▸ within, events ▸ outcomes,
    executions ▸ spaced⟩

theorem Attempting.settled (attempting : Attempting occasion.spec occasion.track start)
    (roomy : occasion.Roomy) {number : Int64} {result : ExecResult} {before : History}
    (due : Due occasion start before number) (failure : ¬result.Succeeded)
    (text : Utf8.toValid occasion.fingerprint = occasion.fingerprint)
    (status : history.status = some (jobStatusFromEvent (occasion.event number result).stored))
    (events : history.events = start.events ++ [(occasion.event number result).stored])
    (executions : history.executions = start.executions ++ [⟨occasion, number⟩]) :
    Attempting occasion.spec occasion.track history := by
  rcases attempting.of_due roomy due with ⟨failed, next, within, spaced⟩
  have onTrack := onTrack_append_event events (event_track text number result)
  have ranOn : history.ranOn occasion.track =
      start.ranOn occasion.track ++ [⟨occasion, number⟩] := by
    simp [ranOn, executions]
  have attempt : (occasion.event number result).stored.attempt = number :=
    event_attempt occasion number result
  have outcome : (occasion.event number result).stored.outcome =
      if number.toInt = occasion.spec.maxRetries.toInt + 1 then .alert else .failed := by
    have bound := toInt_succ roomy.retriesRoom
    have same : occasion.spec.maxRetries.toInt + 1 ≤ number.toInt ↔
        number.toInt = occasion.spec.maxRetries.toInt + 1 := by omega
    simp only [Occasion.event, if_neg failure, Int64.le_iff_toInt_le, bound, same]
    split_ifs <;> rfl
  have time : occasion.nowNanos = (occasion.event number result).stored.writeNanos := by
    rw [Occasion.event]
    split_ifs <;> rfl
  refine ⟨⟨?_, ?_, ?_, ?_, ?_⟩, ?_, .inr ⟨_, ⟨occasion, number⟩, ?_, ?_, time, status⟩⟩
  · rw [onTrack, ranOn, map_append, map_append, attempting.kept.recorded]
    simp [attempt]
  · rw [onTrack]
    exact attempting.kept.numbered.concat failed (attempt.symm ▸ next)
  · rw [onTrack, length_append, length_singleton]
    omega
  · rw [onTrack]
    refine forall_mem_append.mpr ⟨attempting.kept.outcomes, ?_⟩
    simpa [attempt] using outcome
  · rw [ranOn, isChain_append]
    refine ⟨attempting.kept.spaced, isChain_singleton _, fun earlier is later same => ?_⟩
    cases (List.head?_cons ..).symm.trans same
    exact spaced earlier is
  · rw [ranOn]
    refine forall_mem_append.mpr ⟨attempting.room, ?_⟩
    simpa using ⟨roomy.now, roomy.nowRoom⟩
  · rw [onTrack, List.getLast?_concat]
  · rw [ranOn, List.getLast?_concat]

theorem Attempting.call (attempting : Attempting occasion.spec occasion.track start)
    (roomy : occasion.Roomy) (text : Utf8.toValid occasion.fingerprint = occasion.fingerprint)
    {result : Except JobError JobStatus}
    (returned : Returned occasion (fun choice => choice.fails = none ∧ ¬choice.result.Succeeded) start
      history result) :
    Attempting occasion.spec occasion.track history := by
  cases result with
  | error cause =>
    rcases returned with ⟨choice, ⟨fine, -⟩, fails⟩
    exact absurd fine fails
  | ok status =>
    rcases returned with ⟨stage, reached, rests⟩
    have holds := reached.holds text
    have justified := reached.justified
    have executions := reached.executions
    cases stage with
    | begun =>
      have onTrack := onTrack_congr holds.2 occasion.track
      have ranOn := ranOn_congr (by simpa [Stage.attempted] using executions) occasion.track
      refine ⟨attempting.kept.congr onTrack ranOn, ranOn ▸ attempting.room, ?_⟩
      rw [onTrack, ranOn, holds.1]
      exact attempting.status
    | waiting =>
      rcases holds with ⟨waiting, found, phase, -, attempt, events⟩
      have onTrack := onTrack_congr events occasion.track
      have ranOn := ranOn_congr (by simpa [Stage.attempted] using executions) occasion.track
      refine ⟨attempting.kept.congr onTrack ranOn, ranOn ▸ attempting.room, .inl ?_⟩
      rw [onTrack, ranOn, found]
      rcases attempting.status with ⟨empty, noRun, -⟩ | ⟨event, execution, last, -, -, is⟩
      · refine ⟨empty, noRun, fun status same _ => ?_⟩
        cases same
        exact ⟨phase, attempt⟩
      · rcases justified with ⟨number, asked⟩
        rcases Occasion.fits_decision asked with ⟨other, -⟩ | ⟨_, same, -, pending, -⟩
        · exact absurd (track_of_getLast? last) (other _ is)
        · cases is.symm.trans same
          exact absurd pending (jobStatusFromEvent_phase event).1
    | settled number result =>
      rcases justified with ⟨⟨before, due⟩, choice, ⟨-, failure⟩, rfl⟩
      exact attempting.settled roomy due failure text holds.1 holds.2
        (by simpa [Stage.attempted] using executions)
    | running | ran | recorded => exact absurd rests (by simp [Stage.Rests])

end Attempt

section Runs

variable (zones : Zones) (marshal : JobSpec → Bytes) (spec : JobSpec) (slot : Int64)

def ControllerStep.reading : ControllerStep → Option Int
  | .reconcile _ now _ => some now
  | .recover _ => none

/-- A call in the slot, at a reading that is not negative, of a command that fails; the store answers,
and the call comes to its end. -/
def FailingCall (controller : Controller) : ControllerStep → Prop
  | .reconcile other now choices => other = spec ∧ spec.slot zones now = some slot ∧ 0 ≤ now ∧
      now < 2 ^ 63 ∧ (∀ choice ∈ choices, choice.fails = none ∧ ¬choice.result.Succeeded) ∧
      ((reconcile zones marshal spec now).exec jobWorld controller.history choices).2.isSome
  | .recover _ => False

variable {zones marshal spec slot}

theorem Attempting.step {controller : Controller} {step : ControllerStep}
    (attempting : Attempting spec (slot, spec.fingerprint marshal) controller.history)
    (valid : spec.Valid zones) (retriesRoom : spec.maxRetries.toInt + 1 < 2 ^ 63)
    (failing : FailingCall zones marshal spec slot controller step)
    (backoffRoom : ∀ now, step.reading = some now →
      now + spec.retryBackoffSeconds.toInt * 1000000000 < 2 ^ 63) :
    Attempting spec (slot, spec.fingerprint marshal)
      (controllerStep zones marshal controller step).history := by
  cases step with
  | recover choices => exact failing.elim
  | reconcile other now choices =>
    rcases failing with ⟨rfl, slotIs, nonneg, small, fails, ends⟩
    rw [controllerStep]
    split_ifs with down
    · exact attempting
    have text := Utf8.toValid_of_valid (fingerprint_valid marshal other)
    have nowIs : (unixNano now).toInt = now := toInt_unixNano (by omega) small
    have roomy : (Occasion.at marshal other now slot).Roomy := by
      have retries := Int64.le_iff_toInt_le.mp valid.maxRetries
      have backoff := Int64.le_iff_toInt_le.mp valid.backoff
      refine ⟨retries, retriesRoom, backoff, ?_, ?_⟩
      · change 0 ≤ (unixNano now).toInt
        rwa [nowIs]
      · change (unixNano now).toInt + _ < _
        rw [nowIs]
        exact backoffRoom now rfl
    have returns := ((reconcile_always zones marshal other now
      (fun choice => choice.fails = none ∧ ¬choice.result.Succeeded) controller.history).exec choices
      fails).2
    generalize Program.exec jobWorld _ controller.history choices = reached at returns ends ⊢
    rcases reached with ⟨history, value⟩
    cases value with
    | none => cases ends
    | some result =>
      rcases returns result rfl with ⟨rfl, -⟩ | ⟨other', is, returned⟩
      · exact attempting
      · cases slotIs.symm.trans is
        exact Attempting.call attempting roomy text returned

/-- With room for the bounds in 64 bits, a command that always fails is retried as its spec says, in
the whole of a slot of which nothing was known. -/
theorem retry_budget_kept (controller : Controller) (steps : List ControllerStep)
    (accepted : spec.validate zones = none)
    (unknown : Unknown (slot, spec.fingerprint marshal) controller.history)
    (failing : Guarded (controllerStep zones marshal) (FailingCall zones marshal spec slot) controller
      steps)
    (retriesRoom : spec.maxRetries.toInt + 1 < 2 ^ 63)
    (backoffRoom : ∀ now ∈ steps.filterMap ControllerStep.reading,
      now + spec.retryBackoffSeconds.toInt * 1000000000 < 2 ^ 63) :
    BudgetKept spec (slot, spec.fingerprint marshal)
      (run (controllerStep zones marshal) controller steps).history := by
  have valid := (spec.validate_eq_none_iff zones).mp accepted
  have retries : (0 : Int64).toInt ≤ spec.maxRetries.toInt := Int64.le_iff_toInt_le.mp valid.maxRetries
  have initial : Attempting spec (slot, spec.fingerprint marshal) controller.history := by
    rcases unknown with ⟨status, events, executions⟩
    refine ⟨⟨by rw [events, executions]; rfl, events ▸ .nil, ?_, by simp [events], by simp [executions]⟩,
      by simp [executions], .inl ⟨events, executions, fun other found is => ?_⟩⟩
    · rw [events]
      exact le_trans retries (by simp)
    · exact absurd is (status other found)
  have room : ∀ step ∈ steps, ∀ now, step.reading = some now →
      now + spec.retryBackoffSeconds.toInt * 1000000000 < 2 ^ 63 := fun step member now is =>
    backoffRoom now (mem_filterMap.mpr ⟨step, member, is⟩)
  have preserved : ∀ controller step,
      Attempting spec (slot, spec.fingerprint marshal) controller.history →
      (FailingCall zones marshal spec slot controller step ∧ ∀ now, step.reading = some now →
        now + spec.retryBackoffSeconds.toInt * 1000000000 < 2 ^ 63) →
      Attempting spec (slot, spec.fingerprint marshal)
        (controllerStep zones marshal controller step).history := fun _ _ attempting both =>
    attempting.step valid retriesRoom both.1 both.2
  exact (Guarded.invariant preserved controller steps initial
    (failing.and _ _ (Guarded.of_forall _ _ room))).kept

end Runs

def failure : Choice := ⟨none, none, ⟨1, [], none⟩⟩

def retriedSpec (maxRetries backoff : Int64) : JobSpec :=
  { hourlySpec "a" with maxRetries := maxRetries, retryBackoffSeconds := backoff }

/-- A first attempt, a call before the backoff has passed, and the last attempt. -/
def failingSteps (spec : JobSpec) : List ControllerStep :=
  [.reconcile spec 0 (List.replicate 5 failure), .reconcile spec 1000000000 (List.replicate 1 failure),
    .reconcile spec 60000000000 (List.replicate 6 failure)]

theorem retry_budget_kept_once :
    BudgetKept (retriedSpec 1 60) (0, (retriedSpec 1 60).fingerprint plainJSON)
        (run (controllerStep noZones plainJSON) new (failingSteps (retriedSpec 1 60))).history ∧
      (run (controllerStep noZones plainJSON) new
        (failingSteps (retriedSpec 1 60))).history.events.map (fun event => (event.attempt, event.outcome))
        = [(1, .failed), (2, .alert)] := by
  refine ⟨retry_budget_kept _ _ (by decide +kernel) ?_ ?_ (by decide) (by decide), by decide +kernel⟩
  · exact ⟨by simp [new, status], rfl, rfl⟩
  · exact ⟨⟨rfl, by decide +kernel, by decide, by decide, by decide, by decide +kernel⟩,
      ⟨rfl, by decide +kernel, by decide, by decide, by decide, by decide +kernel⟩,
      ⟨rfl, by decide +kernel, by decide, by decide, by decide, by decide +kernel⟩, trivial⟩

/-- The largest number of retries wraps around to an alert at the first attempt, and a backoff of 2^55
seconds to none. -/
theorem retry_budget_wraps : ¬BudgetKept (retriedSpec 9223372036854775807 60)
        (0, (retriedSpec 9223372036854775807 60).fingerprint plainJSON)
        (run (controllerStep noZones plainJSON) new
          [.reconcile (retriedSpec 9223372036854775807 60) 0 (List.replicate 6 failure)]).history ∧
      ¬BudgetKept (retriedSpec 1 36028797018963968)
        (0, (retriedSpec 1 36028797018963968).fingerprint plainJSON)
        (run (controllerStep noZones plainJSON) new
          [.reconcile (retriedSpec 1 36028797018963968) 0 (List.replicate 5 failure),
            .reconcile (retriedSpec 1 36028797018963968) 0 (List.replicate 6 failure)]).history :=
  ⟨fun kept => absurd kept.outcomes (by decide +kernel),
    fun kept => absurd kept.spaced (by decide +kernel)⟩

end KairosFlux.Jobctl
