import KairosFlux.Jobctl.Occurrences

/-! What the recovery at start writes, and when a second one writes nothing more. -/

namespace KairosFlux.Jobctl

open Lib History Controller

/-- The recovery adds no event, writes only the status of an event of the ledger, and once it has
succeeded a further one leaves the history as it is. -/
structure RecoverySound (history : History) : Prop where
  events : ∀ choices, (recover.exec jobWorld history choices).1.events = history.events
  derived : ∀ choices, (recover.exec jobWorld history choices).1 = history ∨
    ∃ event ∈ history.events,
      (recover.exec jobWorld history choices).1 = history ++ [.status (jobStatusFromEvent event)]
  idempotent : ∀ first second, (recover.exec jobWorld history first).2 = some (.ok ()) →
    (recover.exec jobWorld (recover.exec jobWorld history first).1 second).1 =
      (recover.exec jobWorld history first).1

/-- The status is that of an attempt under way or to be retried, its occurrence has come to an end in
the ledger, and the newest event is of another occurrence. -/
def Superseded (history : History) : Prop :=
  ∃ status event last, history.status = some status ∧
    (status.phase = .running ∨ status.phase = .failed) ∧
    (history.onTrack status.track).getLast? = some event ∧ event.Finished ∧
    history.events.getLast? = some last ∧ last.track ≠ status.track

def StoredEvents (history : History) : Prop := ∀ event ∈ history.events, event.stored = event

variable {history : History}

theorem Recovered.events {start : History} (recovered : Recovered start history) :
    history.events = start.events := by
  rcases recovered with rfl | ⟨next, -, -, rfl⟩
  · rfl
  · simp

theorem StoredEvents.step {zones : Zones} {marshal : JobSpec → Bytes} (controller : Controller)
    (step : ControllerStep) (stored : StoredEvents controller.history) :
    StoredEvents (controllerStep zones marshal controller step).history := by
  cases step with
  | reconcile spec now choices =>
    have text := Utf8.toValid_of_valid (fingerprint_valid marshal spec)
    rw [controllerStep]
    split_ifs with down
    · exact stored
    have way := (reconcile_always zones marshal spec now (fun _ => True) controller.history).exec
      choices fun _ _ => trivial
    generalize Program.exec jobWorld _ controller.history choices = reached at way ⊢
    rcases reached with ⟨history, value⟩
    rcases way.1 with rfl | ⟨slot, -, stage, reached⟩
    · exact stored
    · rcases ((reached.holds text).cases text).2 with same | ⟨number, result, same, -⟩
      · exact fun event member => stored event (same ▸ member)
      · intro event member
        rw [same] at member
        rcases List.mem_append.mp member with old | new
        · exact stored event old
        · rw [List.mem_singleton.mp new, Event.stored_stored]
  | recover choices =>
    have way := (recover_always (fun _ => True) controller.history).exec choices fun _ _ => trivial
    exact fun event member => stored event (way.1.events ▸ member)

theorem StoredEvents.rebuilt (stored : StoredEvents history) {next : JobStatus}
    (asked : rebuilt history.status history.events = some next) :
    ∃ event ∈ history.events, next = jobStatusFromEvent event ∧ next.stored = next := by
  rcases rebuilt_mem asked with ⟨event, member, rfl⟩
  exact ⟨event, member, rfl, by rw [jobStatusFromEvent_stored, stored event member]⟩

theorem recover_recovered (history : History) (choices : List Choice) :
    Recovered history (recover.exec jobWorld history choices).1 :=
  ((recover_always (fun _ => True) history).exec choices fun _ _ => trivial).1

theorem recover_fully {choices : List Choice}
    (returned : (recover.exec jobWorld history choices).2 = some (.ok ())) :
    RecoveredFully history (recover.exec jobWorld history choices).1 := by
  rcases ((recover_always (fun _ => True) history).exec choices fun _ _ => trivial).2 _ returned with
    ⟨cause, is, -⟩ | ⟨-, fully⟩
  · cases is
  · exact fully

theorem recover_completes (history : History) :
    (recover.exec jobWorld history (List.replicate 3 smooth)).2 = some (.ok ()) := by
  simp only [recover, readStatus, Program.bind, List.replicate, Program.exec, jobWorld, Choice.answer,
    smooth]
  cases rebuilt history.status history.events with
  | none => rfl
  | some next =>
    simp only [writeStatusIfChanged]
    split_ifs <;> rfl

theorem recover_quiet_iff (history : History) :
    (∀ choices, (recover.exec jobWorld history choices).1 = history) ↔
      ∀ next, rebuilt history.status history.events = some next → history.status = some next := by
  constructor
  · intro quiet next asked
    rcases recover_fully (recover_completes history) next asked with ⟨same, -⟩ | written
    · exact same
    · rw [quiet] at written
      simpa using congrArg List.length written
  · intro kept choices
    rcases recover_recovered history choices with same | ⟨next, asked, changed, -⟩
    · exact same
    · exact absurd (kept next asked) changed

/-- What the ledger asks for behind a status that was derived from the last event of its
occurrence. -/
theorem rebuilt_of_event {event last : Event} (newest : history.events.getLast? = some last)
    (matching : (history.onTrack event.track).getLast? = some event) :
    rebuilt (some (jobStatusFromEvent event)) history.events =
      some (jobStatusFromEvent (if event.Finished then last else event)) := by
  have found : latestMatchingEvent history.events event.slot event.specFingerprint = some event :=
    (latestMatchingEvent_eq _ _ _).trans matching
  cases outcome : event.outcome <;>
    simp [rebuilt, newest, jobStatusFromEvent, outcome, Event.Finished, found]

theorem rebuilt_of_attempt {status : JobStatus} {event last : Event}
    (found : history.status = some status) (phase : status.phase = .running ∨ status.phase = .failed)
    (newest : history.events.getLast? = some last)
    (matching : (history.onTrack status.track).getLast? = some event) :
    rebuilt history.status history.events = some (jobStatusFromEvent event) := by
  have is : latestMatchingEvent history.events status.slot status.specFingerprint = some event :=
    (latestMatchingEvent_eq _ _ _).trans matching
  rcases phase with phase | phase <;> simp [rebuilt, newest, found, phase, is]

theorem status_of_recovered (stored : StoredEvents history) {next : JobStatus}
    (asked : rebuilt history.status history.events = some next) {choices : List Choice}
    (returned : (recover.exec jobWorld history choices).2 = some (.ok ())) :
    (recover.exec jobWorld history choices).1.status = some next := by
  rcases stored.rebuilt asked with ⟨event, -, -, same⟩
  rcases recover_fully returned next asked with ⟨found, is⟩ | is
  · rw [is, found]
  · rw [is, status_concat, same]
    rfl

theorem superseded_not_idempotent (stored : StoredEvents history)
    (superseded : Superseded history) : ¬RecoverySound history := by
  rintro ⟨-, -, idempotent⟩
  rcases superseded with ⟨status, event, last, found, phase, matching, finished, newest, other⟩
  have returned := recover_completes history
  have after := status_of_recovered stored (rebuilt_of_attempt found phase newest matching) returned
  have events := (recover_recovered history (List.replicate 3 smooth)).events
  have track := track_of_getLast? matching
  have again : rebuilt (recover.exec jobWorld history (List.replicate 3 smooth)).1.status
      (recover.exec jobWorld history (List.replicate 3 smooth)).1.events =
      some (jobStatusFromEvent last) := by
    rw [after, events, rebuilt_of_event newest (track ▸ matching), if_pos finished]
  have same := (recover_quiet_iff _).mp (fun choices => idempotent _ choices returned) _ again
  rw [after] at same
  have tracks : event.track = last.track := congrArg JobStatus.track (Option.some.inj same)
  exact other (tracks ▸ track)

theorem recoverySound_of_not_superseded (stored : StoredEvents history)
    (kept : ¬Superseded history) : RecoverySound history where
  events choices := (recover_recovered history choices).events
  derived choices := by
    rcases recover_recovered history choices with same | ⟨next, asked, -, same⟩
    · exact .inl same
    · rcases stored.rebuilt asked with ⟨event, member, is, unchanged⟩
      exact .inr ⟨event, member, by rw [same, unchanged, is]⟩
  idempotent first second returned := by
    refine (recover_quiet_iff _).mpr (fun again asked => ?_) second
    have recovered := recover_recovered history first
    cases before : rebuilt history.status history.events with
    | none =>
      rcases recovered with same | ⟨next, is, -⟩
      · rw [same, before] at asked
        cases asked
      · rw [before] at is
        cases is
    | some next =>
      have after := status_of_recovered stored before returned
      rcases rebuilt_eq_some before with ⟨event, rfl, matched⟩
      rw [after, recovered.events] at asked
      rw [after, ← asked]
      -- the last event of the occurrence stays it, and it is the newest one if it is an end
      rcases matched with ⟨newest, -⟩ | ⟨status, found, phase, matching⟩
      · rw [rebuilt_of_event newest (onTrack_getLast? newest), ite_self]
      · have track := track_of_getLast? matching
        cases newest : history.events.getLast? with
        | none => simp [onTrack, List.getLast?_eq_none_iff.mp newest] at matching
        | some last =>
          rw [rebuilt_of_event newest (track ▸ matching)]
          split_ifs with finished
          · have same : last.track = status.track := by
              by_contra other
              exact kept ⟨status, event, last, found, phase, matching, finished, newest, other⟩
            have latest := onTrack_getLast? newest
            rw [same, matching] at latest
            rw [Option.some.inj latest]
          · rfl

/-- In every state that runs with crashes and refused calls reach, the recovery is sound exactly when
the occurrence of the status was not superseded after its end. -/
theorem recovery_sound_iff (zones : Zones) (marshal : JobSpec → Bytes) (steps : List ControllerStep) :
    RecoverySound (run (controllerStep zones marshal) new steps).history ↔
      ¬Superseded (run (controllerStep zones marshal) new steps).history := by
  have stored : StoredEvents (run (controllerStep zones marshal) new steps).history :=
    Guarded.invariant (fun controller step kept _ => StoredEvents.step controller step kept)
      new steps (fun _ member => by simp [new, events] at member)
      (Guarded.of_forall (P := fun _ => True) new steps fun _ _ => trivial)
  exact ⟨fun sound superseded => superseded_not_idempotent stored superseded sound,
    recoverySound_of_not_superseded stored⟩

/-- The process crashes when it has marked the first of two finished occurrences as running again. -/
theorem recovery_not_idempotent :
    ¬RecoverySound (run (controllerStep noZones plainJSON) new
      [.reconcile (hourlySpec "a") 0 (List.replicate 5 smooth),
        .reconcile (hourlySpec "b") 0 (List.replicate 5 smooth),
        .reconcile (hourlySpec "a") 0 (List.replicate 2 smooth)]).history := fun sound =>
  absurd (sound.idempotent (List.replicate 3 smooth) (List.replicate 3 smooth) (by decide +kernel))
    (by decide +kernel)

end KairosFlux.Jobctl
