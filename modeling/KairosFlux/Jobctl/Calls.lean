import KairosFlux.Jobctl.Reconciler

/-! What one call of `Reconcile` or `Recover` can do to the history of a job, wherever it stops. -/

namespace KairosFlux.Jobctl

open Lib

namespace History

variable (history : History) (happening : Happening)

@[simp] theorem status_concat :
    status (history ++ [happening]) = happening.status?.or history.status := by
  cases happening <;> simp [status]

@[simp] theorem events_concat :
    events (history ++ [happening]) = history.events ++ happening.event?.toList := by
  cases happening <;> simp [events]

@[simp] theorem executions_concat :
    executions (history ++ [happening]) = history.executions ++ happening.execution?.toList := by
  cases happening <;> simp [executions]

end History

/-- A slot and a fingerprint, which name one occurrence of a job. -/
abbrev Track := Int64 × Bytes

def JobStatus.track (status : JobStatus) : Track := (status.slot, status.specFingerprint)

def Event.track (event : Event) : Track := (event.slot, event.specFingerprint)

namespace Occasion

variable (occasion : Occasion)

def track : Track := (occasion.slot, occasion.fingerprint)

variable {occasion} {prev : Option JobStatus}

theorem decision_of_ne {status : JobStatus} (other : status.track ≠ occasion.track) :
    occasion.decision (some status) = .checkDependencies 1 :=
  if_neg fun same => other (Prod.ext same.1 same.2)

theorem decision_of_eq {status : JobStatus} (same : status.track = occasion.track) :
    occasion.decision (some status) = match status.phase with
      | .succeeded | .alerting => .keep status
      | .failed =>
        if occasion.nowNanos <
            status.lastAttemptTime + occasion.spec.retryBackoffSeconds * nanosPerSecond then
          .keep status
        else .attempt (status.attempt + 1)
      | .pending => .checkDependencies (status.attempt + 1)
      | .running => .attempt status.attempt :=
  if_pos ⟨congrArg Prod.fst same, congrArg Prod.snd same⟩

/-- What the status before a call must have been for the decision. -/
def Fits (occasion : Occasion) (prev : Option JobStatus) : Decision → Prop
  | .keep status => prev = some status ∧ status.phase ≠ .pending ∧ status.phase ≠ .running
  | .checkDependencies number =>
    (∀ status, prev = some status → status.track ≠ occasion.track) ∧ number = 1 ∨
      ∃ status, prev = some status ∧ status.track = occasion.track ∧ status.phase = .pending ∧
        number = status.attempt + 1
  | .attempt number =>
    ∃ status, prev = some status ∧ status.track = occasion.track ∧
      (status.phase = .running ∧ number = status.attempt ∨
        status.phase = .failed ∧ number = status.attempt + 1 ∧ ¬occasion.nowNanos <
            status.lastAttemptTime + occasion.spec.retryBackoffSeconds * nanosPerSecond)

theorem fits_decision {decision : Decision} (is : occasion.decision prev = decision) :
    occasion.Fits prev decision := by
  subst is
  cases prev with
  | none => exact .inl ⟨by simp, rfl⟩
  | some found =>
    by_cases same : found.track = occasion.track
    · rw [decision_of_eq same]
      cases phase : found.phase with
      | succeeded | alerting => exact ⟨rfl, by simp [phase]⟩
      | failed =>
        simp only
        split_ifs with early
        · exact ⟨rfl, by simp [phase]⟩
        · exact ⟨found, rfl, same, .inr ⟨phase, rfl, early⟩⟩
      | pending => exact .inr ⟨found, rfl, same, phase, rfl⟩
      | running => exact ⟨found, rfl, same, .inl ⟨phase, rfl⟩⟩
    · rw [decision_of_ne same]
      exact .inl ⟨fun status found => Option.some.inj found ▸ same, rfl⟩

end Occasion

/-- Where a call of `Reconcile` stands. -/
inductive Stage
  | begun
  | waiting
  | running (number : Int64)
  | ran (number : Int64)
  | recorded (number : Int64) (result : ExecResult)
  | settled (number : Int64) (result : ExecResult)

section Reached

variable (occasion : Occasion) (permitted : Choice → Prop) (start : History)

/-- Every dependency was seen to have succeeded in the slot. -/
def DependenciesSeen (deps : List Bytes) (slot : Int64) (history : History) : Prop :=
  ∀ dep ∈ deps, ∃ seen, .saw dep seen ∈ history ∧ Satisfied slot seen

/-- The attempt that the status at the start of the call asks for. -/
def Due (history : History) (number : Int64) : Prop :=
  occasion.decision start.status = .attempt number ∨
    occasion.decision start.status = .checkDependencies number ∧
      DependenciesSeen occasion.spec.dependsOn occasion.slot history

/-- The histories that a call reaches one after the other. -/
inductive Reached : Stage → History → Prop
  | begins : Reached .begun start
  | saw {history : History} (dep : Bytes) (seen : Option JobStatus) :
      Reached .begun history → Reached .begun (history ++ [.saw dep seen])
  | waits {history : History} (number : Int64) (unmet : List Bytes) :
      Reached .begun history → occasion.decision start.status = .checkDependencies number →
      Reached .waiting (history ++ [.status (occasion.pending unmet).stored])
  | keepsWaiting {history : History} (number : Int64) (unmet : List Bytes) :
      Reached .begun history → occasion.decision start.status = .checkDependencies number →
      start.status = some (occasion.pending unmet) → Reached .waiting history
  | starts {history : History} (number : Int64) :
      Reached .begun history → Due occasion start history number →
      Reached (.running number) (history ++ [.status (occasion.running number).stored])
  | keepsRunning {history : History} (number : Int64) :
      Reached .begun history → Due occasion start history number →
      start.status = some (occasion.running number) → Reached (.running number) history
  | runs {history : History} (number : Int64) :
      Reached (.running number) history →
      Reached (.ran number) (history ++ [.ran ⟨occasion, number⟩])
  | records {history : History} (number : Int64) (choice : Choice) :
      Reached (.ran number) history → permitted choice →
      Reached (.recorded number choice.result)
        (history ++ [.event (occasion.event number choice.result).stored])
  | alerts {history : History} (number : Int64) (result : ExecResult) :
      Reached (.recorded number result) history →
      Reached (.recorded number result) (history ++ [.alerted (occasion.event number result)])
  | settles {history : History} (number : Int64) (result : ExecResult) :
      Reached (.recorded number result) history →
      Reached (.settled number result)
        (history ++ [.status (jobStatusFromEvent (occasion.event number result)).stored])

def Stage.Holds : Stage → History → Prop
  | .begun, history => history.status = start.status ∧ history.events = start.events
  | .waiting, history => ∃ status, history.status = some status ∧ status.phase = .pending ∧
      status.track = occasion.track ∧ status.attempt = 0 ∧ history.events = start.events
  | .running number, history | .ran number, history =>
    ∃ status, history.status = some status ∧ status.phase = .running ∧
      status.track = occasion.track ∧ status.attempt = number ∧ history.events = start.events
  | .recorded number result, history =>
    ∃ status, history.status = some status ∧ status.phase = .running ∧
      status.track = occasion.track ∧ status.attempt = number ∧
      history.events = start.events ++ [(occasion.event number result).stored]
  | .settled number result, history =>
    history.status = some (jobStatusFromEvent (occasion.event number result).stored) ∧
      history.events = start.events ++ [(occasion.event number result).stored]

/-- The call may have gone no further than this and yet return a status. -/
def Stage.Rests : Stage → Prop
  | .begun => ∃ status, occasion.decision start.status = .keep status
  | .waiting => True
  | .settled _ _ => True
  | _ => False

def Fallible : Prop := ∃ choice, permitted choice ∧ choice.fails ≠ none

def Returned (history : History) : Except JobError JobStatus → Prop
  | .error _ => Fallible permitted
  | .ok _ => ∃ stage, Reached occasion permitted start stage history ∧ stage.Rests occasion start

end Reached

theorem jobStatusFromEvent_stored (event : Event) :
    (jobStatusFromEvent event).stored = jobStatusFromEvent event.stored := by
  have ok : Utf8.toValid (ascii "ok".toList) = ascii "ok".toList := by decide +kernel
  simp only [JobStatus.stored, Event.stored, jobStatusFromEvent, Utf8.toValid_eq_nil]
  split_ifs with silent
  · rw [ok]
  · rfl

theorem jobStatusFromEvent_phase (event : Event) :
    (jobStatusFromEvent event).phase ≠ .pending ∧ (jobStatusFromEvent event).phase ≠ .running := by
  cases outcome : event.outcome <;> simp [jobStatusFromEvent, outcome]

theorem Reached.holds {occasion : Occasion} {permitted : Choice → Prop} {start history : History}
    {stage : Stage} (text : Utf8.toValid occasion.fingerprint = occasion.fingerprint)
    (reached : Reached occasion permitted start stage history) :
    stage.Holds occasion start history := by
  induction reached with
  | begins => exact ⟨rfl, rfl⟩
  | saw dep seen _ ih => simpa [Stage.Holds] using ih
  | waits number unmet _ _ ih =>
    exact ⟨(occasion.pending unmet).stored, by simp, rfl, Prod.ext rfl text, rfl, by simpa using ih.2⟩
  | keepsWaiting number unmet _ _ same ih => exact ⟨_, ih.1.trans same, rfl, rfl, rfl, ih.2⟩
  | starts number _ _ ih =>
    exact ⟨(occasion.running number).stored, by simp, rfl, Prod.ext rfl text, rfl,
      by simpa using ih.2⟩
  | keepsRunning number _ _ same ih => exact ⟨_, ih.1.trans same, rfl, rfl, rfl, ih.2⟩
  | runs number _ ih | records number choice _ _ ih
  | alerts number result _ ih => simpa [Stage.Holds] using ih
  | settles number result _ ih =>
    rcases ih with ⟨_, _, _, _, _, events⟩
    exact ⟨by simp [jobStatusFromEvent_stored], by simpa using events⟩

section Parts

variable {permitted : Choice → Prop} {inv : History → Prop} {history : History}

theorem readStatus_always (holds : inv history) : readStatus.Always jobWorld permitted inv
      (fun reached read => reached = history ∧
        ((∃ cause, read = .error cause ∧ Fallible permitted) ∨ read = .ok history.status)) history := by
  refine ⟨holds, fun choice allowed => ?_⟩
  cases failed : choice.fails with
  | some cause =>
    simp only [jobWorld, Choice.answer, failed]
    exact ⟨holds, rfl, .inl ⟨_, rfl, choice, allowed, by simp [failed]⟩⟩
  | none =>
    simp only [jobWorld, Choice.answer, failed]
    exact ⟨holds, rfl, .inr rfl⟩

theorem putStatus_always (next : JobStatus) (holds : inv history)
    (written : inv (history ++ [.status next.stored])) :
    (putStatus next).Always jobWorld permitted inv
      (fun reached result => (∃ cause, result = .error cause ∧ Fallible permitted) ∨
        result = .ok () ∧ reached = history ++ [.status next.stored]) history := by
  refine ⟨holds, fun choice allowed => ?_⟩
  cases failed : choice.fails with
  | some cause =>
    simp only [jobWorld, Choice.answer, failed]
    exact ⟨holds, .inl ⟨_, rfl, choice, allowed, by simp [failed]⟩⟩
  | none =>
    simp only [jobWorld, Choice.answer, failed]
    exact ⟨written, .inr ⟨rfl, rfl⟩⟩

theorem writeStatusIfChanged_always (prev : Option JobStatus) (next : JobStatus) (holds : inv history)
    (written : prev ≠ some next → inv (history ++ [.status next.stored])) :
    (writeStatusIfChanged prev next).Always jobWorld permitted inv
      (fun reached result => (∃ cause, result = .error cause ∧ Fallible permitted) ∨
        result = .ok () ∧ (prev = some next ∧ reached = history ∨
          prev ≠ some next ∧ reached = history ++ [.status next.stored])) history := by
  rw [writeStatusIfChanged]
  split_ifs with same
  · exact ⟨holds, .inr ⟨rfl, .inl ⟨same, rfl⟩⟩⟩
  · refine (putStatus_always next holds (written same)).imp (fun _ => id) fun reached result => ?_
    exact Or.imp_right fun ok => ⟨ok.1, .inr ⟨same, ok.2⟩⟩

theorem depsSatisfied_always {begun : History → Prop} (toInv : ∀ h, begun h → inv h)
    (sees : ∀ h dep seen, begun h → begun (h ++ [.saw dep seen])) (slot : Int64)
    (deps unmet : List Bytes) (holds : begun history) :
    (depsSatisfied slot deps unmet).Always jobWorld permitted inv
      (fun reached checked => (∃ cause, checked = .error cause ∧ Fallible permitted) ∨
        ∃ sorted, checked = .ok sorted ∧ begun reached ∧ history ⊆ reached ∧
          (sorted = [] → unmet = [] ∧ DependenciesSeen deps slot reached)) history := by
  induction deps generalizing unmet history with
  | nil =>
    refine ⟨toInv _ holds, .inr ⟨_, rfl, holds, List.Subset.refl _, fun none => ⟨?_, ?_⟩⟩⟩
    · simpa using congrArg List.length none
    · simp [DependenciesSeen]
  | cons dep rest ih =>
    refine ⟨toInv _ holds, fun choice allowed => ?_⟩
    cases failed : choice.fails with
    | some cause =>
      simp only [jobWorld, Choice.answer, failed]
      exact ⟨toInv _ holds, .inl ⟨_, rfl, choice, allowed, by simp [failed]⟩⟩
    | none =>
      simp only [jobWorld, Choice.answer, failed]
      refine (ih _ (sees history dep choice.dependency holds)).imp (fun _ => id)
        fun reached checked => ?_
      refine Or.imp_right ?_
      rintro ⟨sorted, is, still, more, all⟩
      refine ⟨sorted, is, still, List.Subset.trans (List.subset_append_left _ _) more, fun none => ?_⟩
      rcases all none with ⟨noneUnmet, seenRest⟩
      split_ifs at noneUnmet with satisfied
      · refine ⟨noneUnmet, List.forall_mem_cons.mpr ⟨⟨choice.dependency, ?_, satisfied⟩, seenRest⟩⟩
        exact more (List.mem_append_right _ (List.mem_singleton.mpr rfl))
      · simp at noneUnmet

end Parts

namespace Occasion

variable {occasion : Occasion} {permitted : Choice → Prop} {start : History}

def OnTheWay (occasion : Occasion) (permitted : Choice → Prop) (start history : History) : Prop :=
  ∃ stage, Reached occasion permitted start stage history

theorem finish_always {number : Int64} {choice : Choice} (allowed : permitted choice) {history : History}
    (ran : Reached occasion permitted start (.ran number) history) :
    (finish (occasion.event number choice.result)).Always jobWorld permitted
      (occasion.OnTheWay permitted start) (Returned occasion permitted start) history := by
  have settle : ∀ h rest, (∀ cause, rest (.error cause) = .done (.error cause)) →
      rest (.ok ()) = .done (.ok (jobStatusFromEvent (occasion.event number choice.result))) →
      Reached occasion permitted start (.recorded number choice.result) h →
      ((putStatus (jobStatusFromEvent (occasion.event number choice.result))).bind rest).Always
        jobWorld permitted (occasion.OnTheWay permitted start) (Returned occasion permitted start) h := by
    intro h rest fails ends recorded
    refine (putStatus_always _ ⟨_, recorded⟩ ⟨_, recorded.settles⟩).bind fun reached written onTheWay => ?_
    rintro (⟨cause, rfl, fallible⟩ | ⟨rfl, rfl⟩)
    · rw [fails]
      exact ⟨onTheWay, fallible⟩
    · rw [ends]
      exact ⟨onTheWay, _, recorded.settles, trivial⟩
  refine ⟨⟨_, ran⟩, fun next allowedNext => ?_⟩
  cases failed : next.fails with
  | some cause =>
    simp only [jobWorld, Choice.answer, failed]
    exact ⟨⟨_, ran⟩, next, allowedNext, by simp [failed]⟩
  | none =>
    have recorded := ran.records number choice allowed
    simp only [jobWorld, Choice.answer, failed]
    split_ifs with alert
    · exact ⟨⟨_, recorded⟩, fun _ _ => settle _ _ (fun _ => rfl) rfl recorded.alerts⟩
    · exact settle _ _ (fun _ => rfl) rfl recorded

theorem attempt_always {number : Int64} {history : History}
    (begun : Reached occasion permitted start .begun history)
    (due : Due occasion start history number) :
    (occasion.attempt start.status number).Always jobWorld permitted
      (occasion.OnTheWay permitted start) (Returned occasion permitted start) history := by
  have execute : ∀ h, Reached occasion permitted start (.running number) h →
      (Program.call (.execute ⟨occasion, number⟩) fun result =>
        finish (occasion.event number result)).Always jobWorld permitted
        (occasion.OnTheWay permitted start) (Returned occasion permitted start) h := fun h running =>
    ⟨⟨_, running⟩, fun choice allowed => finish_always allowed running.runs⟩
  refine (writeStatusIfChanged_always _ _ ⟨_, begun⟩ fun _ => ⟨_, begun.starts number due⟩).bind
    fun reached written onTheWay => ?_
  rintro (⟨cause, rfl, fallible⟩ | ⟨rfl, ⟨same, rfl⟩ | ⟨-, rfl⟩⟩)
  · exact ⟨onTheWay, fallible⟩
  · exact execute _ (begun.keepsRunning number due same)
  · exact execute _ (begun.starts number due)

theorem checkDependencies_always {number : Int64}
    (asked : occasion.decision start.status = .checkDependencies number) :
    (occasion.checkDependencies start.status number).Always jobWorld permitted
      (occasion.OnTheWay permitted start) (Returned occasion permitted start) start := by
  refine (@depsSatisfied_always _ _ _ (Reached occasion permitted start .begun)
    (fun h begun => ⟨_, begun⟩) (fun h dep seen begun => begun.saw dep seen) _ _ _ .begins).bind
    fun reached checked onTheWay => ?_
  rintro (⟨cause, rfl, fallible⟩ | ⟨unmet, rfl, begun, -, none⟩)
  · exact ⟨onTheWay, fallible⟩
  cases unmet with
  | nil => exact attempt_always begun (.inr ⟨asked, (none rfl).2⟩)
  | cons dep rest =>
    refine (writeStatusIfChanged_always _ _ ⟨_, begun⟩ fun _ => ⟨_, begun.waits number _ asked⟩).bind
      fun reached written onTheWay => ?_
    rintro (⟨cause, rfl, fallible⟩ | ⟨rfl, ⟨same, rfl⟩ | ⟨-, rfl⟩⟩)
    · exact ⟨onTheWay, fallible⟩
    · exact ⟨onTheWay, _, begun.keepsWaiting number _ asked same, trivial⟩
    · exact ⟨onTheWay, _, begun.waits number _ asked, trivial⟩

theorem proceed_always :
    occasion.proceed.Always jobWorld permitted (occasion.OnTheWay permitted start)
      (Returned occasion permitted start) start := by
  refine (readStatus_always ⟨_, .begins⟩).bind fun reached read onTheWay => ?_
  rintro ⟨rfl, ⟨cause, rfl, fallible⟩ | rfl⟩
  · exact ⟨onTheWay, fallible⟩
  cases asked : occasion.decision reached.status with
  | keep status =>
    simp only [asked]
    exact ⟨onTheWay, _, .begins, status, asked⟩
  | checkDependencies number =>
    simp only [asked]
    exact checkDependencies_always asked
  | attempt number =>
    simp only [asked]
    exact attempt_always .begins (.inl asked)

end Occasion

section Reconcile

variable (zones : Zones) (marshal : JobSpec → Bytes) (spec : JobSpec) (now : Int)

theorem reconcile_always (permitted : Choice → Prop) (start : History) :
    (reconcile zones marshal spec now).Always jobWorld permitted
      (fun history => history = start ∨ ∃ slot, spec.slot zones now = some slot ∧
        (Occasion.at marshal spec now slot).OnTheWay permitted start history)
      (fun history result => history = start ∧ spec.validate zones ≠ none ∨
        ∃ slot, spec.slot zones now = some slot ∧
          Returned (Occasion.at marshal spec now slot) permitted start history result) start := by
  rw [reconcile]
  cases checked : spec.validate zones with
  | some cause => exact ⟨.inl rfl, .inl ⟨rfl, by simp⟩⟩
  | none =>
    cases slotIs : spec.slot zones now with
    | none => exact .inl rfl
    | some slot =>
      exact Occasion.proceed_always.imp (fun history onTheWay => .inr ⟨slot, rfl, onTheWay⟩)
        fun history result returned => .inr ⟨slot, rfl, returned⟩

end Reconcile

/-- What `Recover` leaves: nothing new, or the status that the ledger asks for. -/
def Recovered (start history : History) : Prop :=
  history = start ∨ ∃ next, rebuilt start.status start.events = some next ∧ start.status ≠ some next ∧
    history = start ++ [.status next.stored]

/-- After a recovery that was not refused the status is the one that the ledger asks for. -/
def RecoveredFully (start history : History) : Prop :=
  ∀ next, rebuilt start.status start.events = some next →
    start.status = some next ∧ history = start ∨ history = start ++ [.status next.stored]

theorem recover_always (permitted : Choice → Prop) (start : History) :
    recover.Always jobWorld permitted (Recovered start)
      (fun history result => (∃ cause, result = .error cause ∧ Fallible permitted) ∨
        result = .ok () ∧ RecoveredFully start history) start := by
  refine (readStatus_always (.inl rfl)).bind fun reached read recovered => ?_
  rintro ⟨rfl, ⟨cause, rfl, fallible⟩ | rfl⟩
  · exact ⟨recovered, .inl ⟨_, rfl, fallible⟩⟩
  refine ⟨recovered, fun choice allowed => ?_⟩
  cases failed : choice.fails with
  | some cause =>
    simp only [jobWorld, Choice.answer, failed]
    exact ⟨recovered, .inl ⟨_, rfl, choice, allowed, by simp [failed]⟩⟩
  | none =>
    simp only [jobWorld, Choice.answer, failed]
    cases asked : rebuilt reached.status reached.events with
    | none => exact ⟨recovered, .inr ⟨rfl, fun next is => by simp [asked] at is⟩⟩
    | some next =>
      refine (writeStatusIfChanged_always _ _ recovered fun changed =>
        .inr ⟨next, asked, changed, rfl⟩).imp (fun _ => id) fun history result => ?_
      rintro (refused | ⟨rfl, ⟨same, rfl⟩ | ⟨-, rfl⟩⟩)
      · exact .inl refused
      · refine .inr ⟨rfl, fun other is => .inl ⟨?_, rfl⟩⟩
        rw [same, ← asked, is]
      · refine .inr ⟨rfl, fun other is => .inr ?_⟩
        rw [Option.some.inj (asked.symm.trans is)]

end KairosFlux.Jobctl
