import KairosFlux.Jobctl.Spec
import KairosFlux.Lib.Programs
import KairosFlux.Lib.Runs

/-! The reconciler of one job (`internal/jobctl/reconciler.go`, `status.go`): the decision, the order of
the writes, and the recovery at start. The store is the interface that the reconciler calls, with the
versions that were written and the newest one read back. -/

namespace KairosFlux.Jobctl

open Lib

inductive JobPhase
  | pending | running | succeeded | failed | alerting
  deriving DecidableEq

def JobPhase.Terminal (phase : JobPhase) : Prop := phase = .succeeded ∨ phase = .alerting
deriving Decidable

inductive EventOutcome
  | succeeded | failed | retryScheduled | alert | waitingOnDeps
  deriving DecidableEq

/-- The verdict is `none` for the empty text. -/
structure JobStatus where
  phase : JobPhase
  slot : Int64
  specFingerprint : Bytes
  attempt : Int64
  lastAttemptTime : Int64
  lastExitCode : Int64
  lastVerdict : Option EventOutcome
  message : Bytes
  deriving DecidableEq

structure Event where
  slot : Int64
  attempt : Int64
  specFingerprint : Bytes
  outcome : EventOutcome
  exitCode : Int64
  message : Bytes
  writeNanos : Int64
  deriving DecidableEq

/-- What a status is after it was written as JSON and read back. -/
def JobStatus.stored (status : JobStatus) : JobStatus :=
  { status with
    specFingerprint := Utf8.toValid status.specFingerprint, message := Utf8.toValid status.message }

def Event.stored (event : Event) : Event :=
  { event with
    specFingerprint := Utf8.toValid event.specFingerprint, message := Utf8.toValid event.message }

def jobStatusFromEvent (event : Event) : JobStatus :=
  { phase :=
      match event.outcome with
      | .succeeded => .succeeded
      | .alert => .alerting
      | _ => .failed
    slot := event.slot
    specFingerprint := event.specFingerprint
    attempt := event.attempt
    lastAttemptTime := event.writeNanos
    lastExitCode := event.exitCode
    lastVerdict := some event.outcome
    message :=
      if event.outcome = .succeeded ∧ event.message = [] then ascii "ok".toList else event.message }

structure ExecResult where
  exitCode : Int64
  stderr : Bytes
  err : Option Bytes
  deriving DecidableEq

def ExecResult.Succeeded (result : ExecResult) : Prop := result.err = none ∧ result.exitCode = 0
deriving Decidable

def signedDecimal (value : Int) : Bytes :=
  if value < 0 then 45 :: decimal value.natAbs else decimal value.natAbs

def truncate (text : Bytes) (limit : Nat) : Bytes :=
  if text.length ≤ limit then text else text.take limit ++ utf8 "...(截断)"

def execFailureMessage (result : ExecResult) : Bytes :=
  match result.err with
  | some cause => utf8 "启动失败: " ++ cause
  | none =>
    utf8 "退出码=" ++ signedDecimal result.exitCode.toInt ++ utf8 " stderr=" ++
      truncate result.stderr 500

inductive JobError
  | invalid (cause : ValidationError)
  | failed (text : Bytes)
  deriving DecidableEq

/-- One call of `Reconcile` for an accepted spec, with what it computes before it reads the store. -/
structure Occasion where
  spec : JobSpec
  slot : Int64
  fingerprint : Bytes
  nowNanos : Int64
  deriving DecidableEq

namespace Occasion

variable (occasion : Occasion)

/-- `Reconcile` up to the first effect: what the newest status asks for. -/
inductive Decision
  | keep (status : JobStatus)
  | checkDependencies (attempt : Int64)
  | attempt (number : Int64)
  deriving DecidableEq

def decision (prev : Option JobStatus) : Decision :=
  match prev with
  | none => .checkDependencies 1
  | some status =>
    if status.slot = occasion.slot ∧ status.specFingerprint = occasion.fingerprint then
      match status.phase with
      | .succeeded | .alerting => .keep status
      | .failed =>
        if occasion.nowNanos <
            status.lastAttemptTime + occasion.spec.retryBackoffSeconds * nanosPerSecond then
          .keep status
        else .attempt (status.attempt + 1)
      | .pending => .checkDependencies (status.attempt + 1)
      | .running => .attempt status.attempt
    else .checkDependencies 1

def pending (unmet : List Bytes) : JobStatus :=
  { phase := .pending, slot := occasion.slot, specFingerprint := occasion.fingerprint, attempt := 0,
    lastAttemptTime := 0, lastExitCode := 0, lastVerdict := some .waitingOnDeps,
    message := utf8 "等待依赖: [" ++ List.intercalate [32] unmet ++ ascii "]".toList }

def running (attempt : Int64) : JobStatus :=
  { phase := .running, slot := occasion.slot, specFingerprint := occasion.fingerprint,
    attempt := attempt, lastAttemptTime := occasion.nowNanos, lastExitCode := 0, lastVerdict := none,
    message := utf8 "执行中" }

def event (attempt : Int64) (result : ExecResult) : Event :=
  if result.Succeeded then
    ⟨occasion.slot, attempt, occasion.fingerprint, .succeeded, 0, [], occasion.nowNanos⟩
  else if occasion.spec.maxRetries + 1 ≤ attempt then
    ⟨occasion.slot, attempt, occasion.fingerprint, .alert, result.exitCode, execFailureMessage result,
      occasion.nowNanos⟩
  else
    ⟨occasion.slot, attempt, occasion.fingerprint, .failed, result.exitCode, execFailureMessage result,
      occasion.nowNanos⟩

end Occasion

/-- A run of the command. The executor is given the spec; the rest names the occurrence. -/
structure Execution where
  occasion : Occasion
  attempt : Int64
  deriving DecidableEq

inductive Call
  | readStatus
  | readDependency (name : Bytes)
  | listEvents
  | putStatus (status : JobStatus)
  | putEvent (event : Event)
  | execute (execution : Execution)
  | alert (event : Event)

/-- A call of the store may fail with a cause. -/
@[reducible] def Answer : Call → Type
  | .readStatus => Except Bytes (Option JobStatus)
  | .readDependency _ => Except Bytes (Option JobStatus)
  | .listEvents => Except Bytes (List Event)
  | .putStatus _ => Except Bytes Unit
  | .putEvent _ => Except Bytes Unit
  | .execute _ => ExecResult
  | .alert _ => Unit

abbrev JobProgram := Program Call Answer

def readStatus : JobProgram (Except JobError (Option JobStatus)) :=
  .call .readStatus fun answer =>
    match answer with
    | .error cause => .done (.error (.failed (utf8 "读状态失败: " ++ cause)))
    | .ok status => .done (.ok status)

def putStatus (status : JobStatus) : JobProgram (Except JobError Unit) :=
  .call (.putStatus status) fun answer =>
    match answer with
    | .error cause => .done (.error (.failed (utf8 "写状态失败: " ++ cause)))
    | .ok () => .done (.ok ())

def writeStatusIfChanged (prev : Option JobStatus) (next : JobStatus) :
    JobProgram (Except JobError Unit) :=
  if prev = some next then .done (.ok ()) else putStatus next

def Satisfied (slot : Int64) (seen : Option JobStatus) : Prop :=
  ∃ status, seen = some status ∧ status.slot = slot ∧ status.phase = .succeeded

instance (slot : Int64) : (seen : Option JobStatus) → Decidable (Satisfied slot seen)
  | none => isFalse fun ⟨_, found, _⟩ => by cases found
  | some status =>
    decidable_of_iff (status.slot = slot ∧ status.phase = .succeeded)
      ⟨fun both => ⟨status, rfl, both⟩, fun ⟨_, found, both⟩ => Option.some.inj found ▸ both⟩

/-- The dependencies that are not satisfied, sorted. -/
def depsSatisfied (slot : Int64) :
    List Bytes → List Bytes → JobProgram (Except JobError (List Bytes))
  | [], unmet => .done (.ok (unmet.insertionSort fun left right => left ≤ right))
  | dep :: rest, unmet =>
    .call (.readDependency dep) fun answer =>
      match answer with
      | .error cause =>
        .done (.error (.failed (utf8 "读依赖 " ++ dep ++ utf8 " 状态失败: " ++ cause)))
      | .ok seen =>
        depsSatisfied slot rest (if Satisfied slot seen then unmet else unmet ++ [dep])

namespace Occasion

variable (occasion : Occasion)

/-- The event, then the alert if the event is one, then the status of the event. -/
def finish (event : Event) : JobProgram (Except JobError JobStatus) :=
  .call (.putEvent event) fun answer =>
    match answer with
    | .error cause => .done (.error (.failed (utf8 "写事件账本失败: " ++ cause)))
    | .ok () =>
      let settle := (putStatus (jobStatusFromEvent event)).bind fun written =>
        match written with
        | .error cause => .done (.error cause)
        | .ok () => .done (.ok (jobStatusFromEvent event))
      if event.outcome = .alert then .call (.alert event) fun _ => settle else settle

/-- The mark that the attempt is running, the command, and what it came to. -/
def attempt (prev : Option JobStatus) (number : Int64) : JobProgram (Except JobError JobStatus) :=
  (writeStatusIfChanged prev (occasion.running number)).bind fun written =>
    match written with
    | .error cause => .done (.error cause)
    | .ok () =>
      .call (.execute ⟨occasion, number⟩) fun result => finish (occasion.event number result)

def checkDependencies (prev : Option JobStatus) (number : Int64) :
    JobProgram (Except JobError JobStatus) :=
  (depsSatisfied occasion.slot occasion.spec.dependsOn []).bind fun checked =>
    match checked with
    | .error cause => .done (.error cause)
    | .ok [] => occasion.attempt prev number
    | .ok unmet =>
      (writeStatusIfChanged prev (occasion.pending unmet)).bind fun written =>
        match written with
        | .error cause => .done (.error cause)
        | .ok () => .done (.ok (occasion.pending unmet))

def proceed : JobProgram (Except JobError JobStatus) :=
  readStatus.bind fun read =>
    match read with
    | .error cause => .done (.error cause)
    | .ok prev =>
      match occasion.decision prev with
      | .keep status => .done (.ok status)
      | .checkDependencies number => occasion.checkDependencies prev number
      | .attempt number => occasion.attempt prev number

end Occasion

section Reconcile

variable (zones : Zones) (marshal : JobSpec → Bytes)

def Occasion.at (spec : JobSpec) (now : Int) (slot : Int64) : Occasion :=
  ⟨spec, slot, spec.fingerprint marshal, unixNano now⟩

/-- A slot that cannot be computed stops the process. -/
def reconcile (spec : JobSpec) (now : Int) : JobProgram (Except JobError JobStatus) :=
  match spec.validate zones with
  | some cause => .done (.error (.invalid cause))
  | none =>
    match spec.slot zones now with
    | none => .fault
    | some slot => (Occasion.at marshal spec now slot).proceed

end Reconcile

def latestMatchingEvent (events : List Event) (slot : Int64) (fingerprint : Bytes) : Option Event :=
  events.reverse.find? fun event => event.slot = slot ∧ event.specFingerprint = fingerprint

/-- The status that the ledger asks for, if it has something to say. -/
def rebuilt (status : Option JobStatus) (events : List Event) : Option JobStatus :=
  match events.getLast? with
  | none => none
  | some last =>
    match status with
    | none => some (jobStatusFromEvent last)
    | some status =>
      match status.phase with
      | .running | .failed =>
        (latestMatchingEvent events status.slot status.specFingerprint).map jobStatusFromEvent
      | .succeeded | .alerting => some (jobStatusFromEvent last)
      | .pending => none

def recover : JobProgram (Except JobError Unit) :=
  readStatus.bind fun read =>
    match read with
    | .error cause => .done (.error cause)
    | .ok status =>
      .call .listEvents fun listed =>
        match listed with
        | .error cause => .done (.error (.failed (utf8 "读事件账本失败: " ++ cause)))
        | .ok events =>
          match rebuilt status events with
          | none => .done (.ok ())
          | some next => writeStatusIfChanged status next

inductive Happening
  | status (status : JobStatus)
  | event (event : Event)
  | saw (dependency : Bytes) (status : Option JobStatus)
  | ran (execution : Execution)
  | alerted (event : Event)
  deriving DecidableEq

namespace Happening

@[simp] def status? : Happening → Option JobStatus
  | .status written => some written
  | _ => none

@[simp] def event? : Happening → Option Event
  | .event written => some written
  | _ => none

@[simp] def execution? : Happening → Option Execution
  | .ran execution => some execution
  | _ => none

end Happening

abbrev History := List Happening

namespace History

variable (history : History)

def status : Option JobStatus := (history.filterMap Happening.status?).getLast?

def events : List Event := history.filterMap Happening.event?

def executions : List Execution := history.filterMap Happening.execution?

end History

/-- What is not decided by the job: whether a call of the store fails, what a dependency looks like,
and how the command ends. -/
structure Choice where
  fails : Option Bytes
  dependency : Option JobStatus
  result : ExecResult
  deriving DecidableEq

def Choice.answer {α : Type} (choice : Choice) (value : α) : Except Bytes α :=
  match choice.fails with
  | some cause => .error cause
  | none => .ok value

/-- A call that fails leaves nothing behind. -/
def jobWorld : World Call Answer History Choice where
  answer history call choice :=
    match call with
    | .readStatus => choice.answer history.status
    | .readDependency _ => choice.answer choice.dependency
    | .listEvents => choice.answer history.events
    | .putStatus _ => choice.answer ()
    | .putEvent _ => choice.answer ()
    | .execute _ => choice.result
    | .alert _ => ()
  effect history call answer :=
    match call, answer with
    | .putStatus status, .ok () => history ++ [.status status.stored]
    | .putEvent event, .ok () => history ++ [.event event.stored]
    | .readDependency dependency, .ok seen => history ++ [.saw dependency seen]
    | .execute execution, _ => history ++ [.ran execution]
    | .alert event, _ => history ++ [.alerted event]
    | _, _ => history

/-- The process is down from a crash until it was started again with a recovery. -/
structure Controller where
  history : History
  down : Bool

def Controller.new : Controller := ⟨[], false⟩

/-- A list of choices that ends before the program is a crash before the next call. -/
inductive ControllerStep
  | reconcile (spec : JobSpec) (now : Int) (choices : List Choice)
  | recover (choices : List Choice)
  deriving DecidableEq

section Runs

variable (zones : Zones) (marshal : JobSpec → Bytes)

/-- A recovery that the store refused does not keep the process from going on. -/
def controllerStep (controller : Controller) : ControllerStep → Controller
  | .reconcile spec now choices =>
    if controller.down then controller
    else
      let reached := (reconcile zones marshal spec now).exec jobWorld controller.history choices
      ⟨reached.1, reached.2.isNone⟩
  | .recover choices =>
    let reached := recover.exec jobWorld controller.history choices
    ⟨reached.1, reached.2.isNone⟩

end Runs

end KairosFlux.Jobctl
