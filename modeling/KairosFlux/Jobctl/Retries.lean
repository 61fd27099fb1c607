import KairosFlux.Jobctl.Occurrences

/-! The attempts of a job whose spec does not change and whose slots do not go back. -/

namespace KairosFlux.Jobctl

open Lib List History Controller

/-- In each slot the attempts are numbered, stay within the budget, and are made only after every
dependency was seen to have succeeded in the slot. -/
structure ProperRetries (spec : JobSpec) (history : History) : Prop where
  numbered : ∀ slot, Numbered (history.events.filter fun event => event.slot = slot)
  budget : ∀ slot, ((history.events.filter fun event => event.slot = slot).length : Int) ≤
    spec.maxRetries.toInt + 1
  dependencies : ∀ before execution after, history = before ++ .ran execution :: after →
    DependenciesSeen spec.dependsOn execution.occasion.slot before

theorem DependenciesSeen.mono {deps : List Bytes} {slot : Int64} {earlier later : History}
    (seen : DependenciesSeen deps slot earlier) (more : earlier ⊆ later) :
    DependenciesSeen deps slot later := fun dep member => by
  rcases seen dep member with ⟨status, is, satisfied⟩
  exact ⟨status, more is, satisfied⟩

variable {history : History} {occasion : Occasion} {start : History}

theorem Reached.subset {permitted : Choice → Prop}
    {stage : Stage} (reached : Reached occasion permitted start stage history) : start ⊆ history := by
  induction reached with
  | begins => exact List.Subset.refl _
  | keepsWaiting _ _ _ _ _ ih | keepsRunning _ _ _ _ ih => exact ih
  | _ => exact List.Subset.trans ‹_› (subset_append_left _ _)

theorem ran_concat {before after : History} {happening : Happening} {execution : Execution}
    (split : history ++ [happening] = before ++ .ran execution :: after) :
    happening = .ran execution ∧ history = before ∨
      ∃ rest, history = before ++ .ran execution :: rest := by
  rcases after.eq_nil_or_concat' with rfl | ⟨rest, last, rfl⟩
  · rcases append_inj' split rfl with ⟨same, is⟩
    exact .inl ⟨(List.cons.inj is).1, same⟩
  · rw [← cons_append, ← append_assoc] at split
    exact .inr ⟨rest, (append_inj' split rfl).1⟩

/-- The dependencies of an attempt that is due were seen: now, or before the attempt it goes on
with. -/
structure Prepared (spec : JobSpec) (history : History) : Prop where
  status : ∀ status, history.status = some status → status.phase ≠ .pending →
    DependenciesSeen spec.dependsOn status.slot history
  events : ∀ event ∈ history.events, DependenciesSeen spec.dependsOn event.slot history
  executions : ∀ before execution after, history = before ++ .ran execution :: after →
    DependenciesSeen spec.dependsOn execution.occasion.slot before

theorem Due.seen {number : Int64}
    (due : Due occasion start history number) (prepared : Prepared occasion.spec start)
    (more : start ⊆ history) : DependenciesSeen occasion.spec.dependsOn occasion.slot history := by
  rcases due with asked | ⟨-, seen⟩
  · rcases Occasion.fits_decision asked with ⟨status, found, track, phase⟩
    have slot : status.slot = occasion.slot := congrArg Prod.fst track
    have begun : status.phase ≠ .pending := by
      rcases phase with ⟨phase, -⟩ | ⟨phase, -⟩ <;> simp [phase]
    exact slot ▸ (prepared.status status found begun).mono more
  · exact seen

theorem Reached.seen {permitted : Choice → Prop}
    {stage : Stage} (prepared : Prepared occasion.spec start)
    (reached : Reached occasion permitted start stage history) :
    (stage = .begun ∨ stage = .waiting ∨
      DependenciesSeen occasion.spec.dependsOn occasion.slot history) ∧
    ∀ before execution after, history = before ++ .ran execution :: after →
      DependenciesSeen occasion.spec.dependsOn execution.occasion.slot before := by
  have grown : ∀ {h : History} {happening : Happening}, (∀ x, happening ≠ .ran x) →
      (∀ before execution after, h = before ++ .ran execution :: after →
        DependenciesSeen occasion.spec.dependsOn execution.occasion.slot before) →
      ∀ before execution after, h ++ [happening] = before ++ .ran execution :: after →
        DependenciesSeen occasion.spec.dependsOn execution.occasion.slot before := by
    intro h happening other all before execution after split
    rcases ran_concat split with ⟨is, -⟩ | ⟨rest, earlier⟩
    · exact absurd is (other execution)
    · exact all before execution rest earlier
  induction reached with
  | begins => exact ⟨.inl rfl, prepared.executions⟩
  | saw _ _ _ ih => exact ⟨.inl rfl, grown (by simp) ih.2⟩
  | waits _ _ _ _ ih => exact ⟨.inr (.inl rfl), grown (by simp) ih.2⟩
  | keepsWaiting _ _ _ _ _ ih => exact ⟨.inr (.inl rfl), ih.2⟩
  | starts number begun due ih =>
    have seen := due.seen prepared begun.subset
    exact ⟨.inr (.inr (seen.mono (subset_append_left _ _))), grown (by simp) ih.2⟩
  | keepsRunning number begun due _ ih =>
    exact ⟨.inr (.inr (due.seen prepared begun.subset)), ih.2⟩
  | runs number running ih =>
    have seen := ih.1.resolve_left (by simp) |>.resolve_left (by simp)
    refine ⟨.inr (.inr (seen.mono (subset_append_left _ _))), ?_⟩
    intro before execution after split
    rcases ran_concat split with ⟨is, rfl⟩ | ⟨rest, earlier⟩
    · cases is
      exact seen
    · exact ih.2 before execution rest earlier
  | records _ _ _ _ ih | alerts _ _ _ ih | settles _ _ _ ih =>
    have seen := ih.1.resolve_left (by simp) |>.resolve_left (by simp)
    exact ⟨.inr (.inr (seen.mono (subset_append_left _ _))), grown (by simp) ih.2⟩

/-- What the history of a job whose spec does not change is like. -/
structure Steady (spec : JobSpec) (fingerprint : Bytes) (history : History) : Prop where
  ledger : Ledger history
  prepared : Prepared spec history
  statusPrint : ∀ status, history.status = some status → status.specFingerprint = fingerprint
  eventPrint : ∀ event ∈ history.events, event.specFingerprint = fingerprint
  ordered : ∀ status, history.status = some status → ∀ event ∈ history.events, event.slot ≤ status.slot
  sorted : history.events.Pairwise fun earlier later => earlier.slot ≤ later.slot
  budget : ∀ event ∈ history.events, event.outcome = .failed →
    event.attempt.toInt ≤ spec.maxRetries.toInt

/-- The status does not say that an attempt is running of which the ledger has the event. -/
def Fresh (history : History) : Prop :=
  ∀ status, history.status = some status → status.phase = .running →
    ∀ event ∈ history.onTrack status.track, event.attempt ≠ status.attempt

def NotPast (history : History) (slot : Int64) : Prop :=
  ∀ status, history.status = some status → status.slot ≤ slot

theorem Steady.new (spec : JobSpec) (fingerprint : Bytes) : Steady spec fingerprint [] where
  ledger := .new
  prepared := ⟨by simp [status], by simp [events], by simp⟩
  statusPrint := by simp [status]
  eventPrint := by simp [events]
  ordered := by simp [status]
  sorted := .nil
  budget := by simp [events]

section Step

variable {spec : JobSpec} {fingerprint : Bytes} {occasion : Occasion} {permitted : Choice → Prop}
  {start history : History} {stage : Stage}

theorem Steady.untouched (steady : Steady spec fingerprint start) (fresh : Fresh start)
    (print : occasion.fingerprint = fingerprint) (notPast : NotPast start occasion.slot) :
    occasion.Untouched start where
  track := by
    cases found : start.status with
    | none => exact .inr (by simp [onTrack, steady.ledger.started found])
    | some status =>
      have same := (steady.statusPrint status found).trans print.symm
      by_cases slot : status.slot = occasion.slot
      · exact .inl ⟨status, rfl, Prod.ext slot same⟩
      · refine .inr (filter_eq_nil_iff.mpr fun event member => ?_)
        have older := steady.ordered status found event member
        have later := notPast status found
        simp only [decide_eq_true_eq]
        intro onTrack
        have sameSlot : event.slot = occasion.slot := congrArg Prod.fst onTrack
        exact slot (Int64.le_antisymm later (sameSlot ▸ older))
  fresh status found phase track := track ▸ fresh status found phase

theorem toInt_le_of_lt_succ {number bound : Int64} (less : number < bound + 1) :
    number.toInt ≤ bound.toInt := by
  have low := bound.le_toInt
  have high := number.toInt_lt
  rw [Int64.lt_iff_toInt_lt, Int64.toInt_add, show (1 : Int64).toInt = 1 from rfl] at less
  rcases lt_or_ge (bound.toInt + 1) (2 ^ 63) with small | wraps
  · rw [Int.bmod_eq_of_le (by omega) (by omega)] at less
    omega
  · omega

theorem Reached.steady (steady : Steady occasion.spec occasion.fingerprint start) (fresh : Fresh start)
    (notPast : NotPast start occasion.slot)
    (text : Utf8.toValid occasion.fingerprint = occasion.fingerprint)
    (reached : Reached occasion permitted start stage history) :
    Steady occasion.spec occasion.fingerprint history := by
  have seen := reached.seen steady.prepared
  have late : stage ≠ .begun → stage ≠ .waiting →
      DependenciesSeen occasion.spec.dependsOn occasion.slot history := fun notBegun notWaiting =>
    (seen.1.resolve_left notBegun).resolve_left notWaiting
  have slotOf : ∀ number result, (occasion.event number result).stored.slot = occasion.slot :=
    fun number result => congrArg Prod.fst (event_track text number result)
  rcases (reached.holds text).cases text with ⟨statuses, events⟩
  have all : ∀ {P : Event → Prop}, (∀ event ∈ start.events, P event) →
      (∀ number result, stage ≠ .begun → stage ≠ .waiting → P (occasion.event number result).stored) →
      ∀ event ∈ history.events, P event := by
    intro P old new
    rcases events with same | ⟨number, result, same, notBegun, notWaiting⟩
    · exact same ▸ old
    · rw [same]
      exact forall_mem_append.mpr ⟨old, by simpa using new number result notBegun notWaiting⟩
  have older : ∀ event ∈ start.events, event.slot ≤ occasion.slot := by
    intro event member
    cases before : start.status with
    | none => simp [steady.ledger.started before] at member
    | some earlier =>
      exact Int64.le_trans (steady.ordered earlier before event member) (notPast earlier before)
  refine ⟨?_, ⟨?_, ?_, seen.2⟩, ?_, ?_, ?_, ?_, ?_⟩
  · exact (reached.ledger steady.ledger (steady.untouched fresh rfl notPast) text).1
  · intro status found phase
    rcases statuses with ⟨same, -⟩ | ⟨current, is, track, waiting | ⟨notBegun, notWaiting⟩⟩
    · exact (steady.prepared.status status (same ▸ found) phase).mono reached.subset
    · cases is.symm.trans found
      exact absurd waiting phase
    · cases is.symm.trans found
      have slot : status.slot = occasion.slot := congrArg Prod.fst track
      exact slot ▸ late notBegun notWaiting
  · refine all (fun event member => (steady.prepared.events event member).mono reached.subset) ?_
    intro number result notBegun notWaiting
    exact slotOf number result ▸ late notBegun notWaiting
  · intro status found
    rcases statuses with ⟨same, -⟩ | ⟨current, is, track, -⟩
    · exact steady.statusPrint status (same ▸ found)
    · cases is.symm.trans found
      exact congrArg Prod.snd track
  · exact all steady.eventPrint fun number result _ _ =>
      congrArg Prod.snd (event_track text number result)
  · intro status found
    rcases statuses with ⟨same, begun⟩ | ⟨current, is, track, -⟩
    · exact all (steady.ordered status (same ▸ found)) fun _ _ notBegun => absurd begun notBegun
    · cases is.symm.trans found
      have slot : status.slot = occasion.slot := congrArg Prod.fst track
      rw [slot]
      exact all older fun number result _ _ => slotOf number result ▸ Int64.le_refl _
  · rcases events with same | ⟨number, result, same, -⟩
    · exact same ▸ steady.sorted
    · rw [same, pairwise_append]
      refine ⟨steady.sorted, pairwise_singleton _ _, fun event member new is => ?_⟩
      rw [mem_singleton.mp is, slotOf]
      exact older event member
  · refine all steady.budget fun number result _ _ failed => ?_
    rcases event_kind occasion number result with ⟨-, less⟩ | finished
    · have attempt := event_attempt occasion number result
      change (occasion.event number result).attempt.toInt ≤ _
      rw [attempt]
      exact toInt_le_of_lt_succ less
    · exact absurd failed (by rcases finished with is | is <;> simp [Event.stored, is])

theorem Recovered.steady (steady : Steady spec fingerprint start) (recovered : Recovered start history) :
    Steady spec fingerprint history := by
  have ledger := recovered.ledger steady.ledger
  rcases recovered with rfl | ⟨next, asked, -, rfl⟩
  · exact steady
  rcases steady.ledger.rebuilt_last asked with ⟨event, last, -, stored⟩
  have member : event ∈ start.events := mem_of_getLast? last
  have more : start ⊆ start ++ [.status next.stored] := subset_append_left _ _
  have found : ∀ status, History.status (start ++ [.status next.stored]) = some status →
      status = jobStatusFromEvent event := by
    intro status is
    rw [History.status_concat, stored] at is
    exact (Option.some.inj is).symm
  have events : History.events (start ++ [.status next.stored]) = start.events := by simp
  refine ⟨ledger, ⟨fun status is _ => ?_, ?_, ?_⟩, fun status is => ?_, ?_, fun status is => ?_, ?_, ?_⟩
  · rw [found status is]
    exact (steady.prepared.events event member).mono more
  · rw [events]
    exact fun other is => (steady.prepared.events other is).mono more
  · intro before execution after split
    rcases ran_concat split with ⟨is, -⟩ | ⟨rest, earlier⟩
    · cases is
    · exact steady.prepared.executions before execution rest earlier
  · rw [found status is]
    exact steady.eventPrint event member
  · exact events ▸ steady.eventPrint
  · rw [found status is, events]
    rcases List.getLast?_eq_some_iff.mp last with ⟨init, split⟩
    have sorted := steady.sorted
    rw [split, pairwise_append] at sorted
    rw [split]
    refine forall_mem_append.mpr ⟨fun other is => sorted.2.2 other is event (by simp), ?_⟩
    simp [jobStatusFromEvent]
  · exact events ▸ steady.sorted
  · exact events ▸ steady.budget

theorem fresh_of_not_running
    (settled : ∀ status, history.status = some status → status.phase ≠ .running) : Fresh history :=
  fun status found phase => absurd phase (settled status found)

theorem Returned.fresh {result : Except JobError JobStatus} (smooth : ¬Fallible permitted)
    (text : Utf8.toValid occasion.fingerprint = occasion.fingerprint)
    (returned : Returned occasion permitted start history result) : Fresh history := by
  cases result with
  | error cause => exact absurd returned smooth
  | ok status =>
    rcases returned with ⟨stage, reached, rests⟩
    have holds := reached.holds text
    refine fresh_of_not_running fun current found => ?_
    cases stage with
    | begun =>
      rcases rests with ⟨kept, asked⟩
      rcases Occasion.fits_decision asked with ⟨is, -, settled⟩
      cases (holds.1.trans is).symm.trans found
      exact settled
    | waiting =>
      rcases holds with ⟨waiting, is, phase, -⟩
      cases is.symm.trans found
      simp [phase]
    | settled number result =>
      cases holds.1.symm.trans found
      exact (jobStatusFromEvent_phase _).2
    | running | ran | recorded => exact absurd rests (by simp [Stage.Rests])

theorem onTrack_eq_nil_of_rebuilt (asked : rebuilt start.status start.events = none) {status : JobStatus}
    (found : start.status = some status) (phase : status.phase = .running) :
    start.onTrack status.track = [] := by
  rw [rebuilt] at asked
  cases last : start.events.getLast? with
  | none => simp [onTrack, List.getLast?_eq_none_iff.mp last]
  | some event =>
    simp only [last, found, phase, Option.map_eq_none_iff, latestMatchingEvent_eq] at asked
    exact List.getLast?_eq_none_iff.mp asked

theorem Recovered.fresh (recovered : Recovered start history) (fully : RecoveredFully start history) :
    Fresh history := by
  cases asked : rebuilt start.status start.events with
  | none =>
    rcases recovered with rfl | ⟨next, is, -⟩
    · intro status found phase
      simp [onTrack_eq_nil_of_rebuilt asked found phase]
    · simp [asked] at is
  | some next =>
    rcases rebuilt_mem asked with ⟨event, -, rfl⟩
    refine fresh_of_not_running fun status found => ?_
    rcases fully _ asked with ⟨is, rfl⟩ | rfl
    · cases is.symm.trans found
      exact (jobStatusFromEvent_phase event).2
    · rw [status_concat] at found
      cases found
      exact (jobStatusFromEvent_phase event).2

end Step

section Runs

variable (zones : Zones) (marshal : JobSpec → Bytes) (spec : JobSpec)

def ControllerStep.Serves : ControllerStep → Prop
  | .reconcile other _ choices => other = spec ∧ ∀ choice ∈ choices, choice.fails = none
  | .recover choices => ∀ choice ∈ choices, choice.fails = none

def ControllerStep.slot : ControllerStep → Option Int64
  | .reconcile other now _ => other.slot zones now
  | .recover _ => none

variable {zones marshal spec}

structure SteadyController (spec : JobSpec) (fingerprint : Bytes) (controller : Controller) : Prop where
  steady : Steady spec fingerprint controller.history
  fresh : controller.down = false → Fresh controller.history

variable {history : History}

theorem Reached.notPast {occasion : Occasion} {permitted : Choice → Prop} {start : History}
    {stage : Stage} (text : Utf8.toValid occasion.fingerprint = occasion.fingerprint)
    (reached : Reached occasion permitted start stage history) {later : Int64}
    (past : NotPast start later) (bound : occasion.slot ≤ later) : NotPast history later := by
  intro status found
  rcases ((reached.holds text).cases text).1 with ⟨same, -⟩ | ⟨current, is, track, -⟩
  · exact past status (same ▸ found)
  · cases is.symm.trans found
    have slot : status.slot = occasion.slot := congrArg Prod.fst track
    exact slot ▸ bound

theorem Recovered.notPast {start : History} {fingerprint : Bytes}
    (steady : Steady spec fingerprint start) (recovered : Recovered start history) {later : Int64}
    (past : NotPast start later) : NotPast history later := by
  rcases recovered with rfl | ⟨next, asked, -, rfl⟩
  · exact past
  intro status found
  rcases steady.ledger.rebuilt_last asked with ⟨event, last, -, stored⟩
  have member : event ∈ start.events := mem_of_getLast? last
  rw [status_concat, stored] at found
  cases found
  cases before : start.status with
  | none => simp [steady.ledger.started before] at member
  | some earlier => exact Int64.le_trans (steady.ordered earlier before event member) (past earlier before)

theorem not_fallible_of_smooth : ¬Fallible fun choice => choice.fails = none :=
  fun ⟨_, fine, fails⟩ => fails fine

theorem SteadyController.step {controller : Controller} {step : ControllerStep}
    (steady : SteadyController spec (spec.fingerprint marshal) controller) (serves : step.Serves spec)
    (notPast : ∀ slot, step.slot zones = some slot → NotPast controller.history slot) :
    SteadyController spec (spec.fingerprint marshal) (controllerStep zones marshal controller step) ∧
      ∀ later, NotPast controller.history later →
        (∀ slot, step.slot zones = some slot → slot ≤ later) →
        NotPast (controllerStep zones marshal controller step).history later := by
  cases step with
  | reconcile other now choices =>
    rcases serves with ⟨rfl, served⟩
    have text := Utf8.toValid_of_valid (fingerprint_valid marshal other)
    rw [controllerStep]
    split_ifs with down
    · exact ⟨steady, fun later past _ => past⟩
    have fresh : Fresh controller.history := steady.fresh (by simpa using down)
    rcases (reconcile_always zones marshal other now (fun choice => choice.fails = none)
      controller.history).exec choices served with ⟨way, returns⟩
    generalize Program.exec jobWorld _ controller.history choices = reached at way returns ⊢
    rcases reached with ⟨history, value⟩
    refine ⟨⟨?_, fun up => ?_⟩, fun later past bound => ?_⟩
    · rcases way with rfl | ⟨slot, slotIs, stage, reached⟩
      · exact steady.steady
      · exact reached.steady steady.steady fresh (notPast slot slotIs) text
    · cases value with
      | none => simp at up
      | some result =>
        rcases returns result rfl with ⟨rfl, -⟩ | ⟨slot, -, returned⟩
        · exact fresh
        · exact returned.fresh not_fallible_of_smooth text
    · rcases way with rfl | ⟨slot, slotIs, stage, reached⟩
      · exact past
      · exact reached.notPast text past (bound slot slotIs)
  | recover choices =>
    rw [controllerStep]
    rcases (recover_always (fun choice => choice.fails = none) controller.history).exec choices
      serves with ⟨way, returns⟩
    generalize Program.exec jobWorld _ controller.history choices = reached at way returns ⊢
    rcases reached with ⟨history, value⟩
    refine ⟨⟨way.steady steady.steady, fun up => ?_⟩, fun later past _ => ?_⟩
    · cases value with
      | none => simp at up
      | some result =>
        rcases returns result rfl with ⟨-, -, fallible⟩ | ⟨-, fully⟩
        · exact absurd fallible not_fallible_of_smooth
        · exact way.fresh fully
    · exact way.notPast steady.steady past

theorem SteadyController.run (steps : List ControllerStep) {controller : Controller}
    (steady : SteadyController spec (spec.fingerprint marshal) controller)
    (serve : ∀ step ∈ steps, step.Serves spec)
    (forward : (steps.filterMap (·.slot zones)).Pairwise fun earlier later => earlier ≤ later)
    (notPast : ∀ slot ∈ steps.filterMap (·.slot zones), NotPast controller.history slot) :
    SteadyController spec (spec.fingerprint marshal)
      (Lib.run (controllerStep zones marshal) controller steps) := by
  induction steps generalizing controller with
  | nil => exact steady
  | cons step rest ih =>
    rcases forall_mem_cons.mp serve with ⟨serves, later⟩
    have bounds : ∀ slot, step.slot zones = some slot →
        NotPast controller.history slot ∧ ∀ other ∈ rest.filterMap (·.slot zones), slot ≤ other := by
      intro slot is
      rw [filterMap_cons_some is] at forward notPast
      exact ⟨notPast slot (.head _), (pairwise_cons.mp forward).1⟩
    have forwardRest : (rest.filterMap (·.slot zones)).Pairwise fun earlier later => earlier ≤ later :=
      forward.sublist ((sublist_cons_self step rest).filterMap _)
    rcases steady.step serves fun slot is => (bounds slot is).1 with ⟨next, past⟩
    refine ih next later forwardRest fun other member => past other ?_ fun slot is =>
      (bounds slot is).2 other member
    exact notPast other (((sublist_cons_self step rest).filterMap _).subset member)

theorem Steady.onSlot {fingerprint : Bytes} (steady : Steady spec fingerprint history)
    (slot : Int64) :
    (history.events.filter fun event => event.slot = slot) = history.onTrack (slot, fingerprint) :=
  filter_congr fun event member => by
    simp [Event.track, Prod.ext_iff, steady.eventPrint event member]

theorem Steady.proper {fingerprint : Bytes} (steady : Steady spec fingerprint history)
    (retries : 0 ≤ spec.maxRetries.toInt) : ProperRetries spec history where
  numbered slot := steady.onSlot slot ▸ steady.ledger.numbered _
  budget slot := by
    have numbered := steady.ledger.numbered (slot, fingerprint)
    rw [steady.onSlot]
    rcases (history.onTrack (slot, fingerprint)).eq_nil_or_concat' with empty | ⟨earlier, last, split⟩
    · simp only [empty, length_nil]
      omega
    rw [split] at numbered ⊢
    rcases numbered.of_concat with ⟨before, failed, -⟩
    rcases earlier.eq_nil_or_concat' with rfl | ⟨init, event, rfl⟩
    · simpa using retries
    · -- the last but one has failed within the budget
      have member : event ∈ history.events :=
        mem_of_mem_filter (a := event) (p := fun event => event.track = (slot, fingerprint)) (by
          rw [← onTrack, split]
          simp)
      have attempt := before.of_concat.2.2
      have bound := steady.budget event member (failed event (by simp))
      simp only [length_append, length_singleton] at attempt ⊢
      omega
  dependencies := steady.prepared.executions

/-- Over runs with crashes and recoveries, of a spec that does not change and slots that do not go
back, the attempts of each slot form a proper sequence of retries. -/
theorem proper_retries (steps : List ControllerStep) (accepted : spec.validate zones = none)
    (serve : ∀ step ∈ steps, step.Serves spec)
    (forward : (steps.filterMap (·.slot zones)).Pairwise fun earlier later => earlier ≤ later) :
    ProperRetries spec (Lib.run (controllerStep zones marshal) new steps).history := by
  have initial : SteadyController spec (spec.fingerprint marshal) new :=
    ⟨Steady.new _ _, fun _ => by simp [Fresh, new, status]⟩
  have valid := (spec.validate_eq_none_iff zones).mp accepted
  have retries : (0 : Int64).toInt ≤ spec.maxRetries.toInt := Int64.le_iff_toInt_le.mp valid.maxRetries
  refine (initial.run steps serve forward fun slot _ => ?_).steady.proper retries
  simp [NotPast, new, status]

end Runs

/-- A first attempt fails, the process crashes before the status is written, and the retry a minute
later succeeds. -/
def crashedSteps : List ControllerStep :=
  [.reconcile (hourlySpec "a") 0 (List.replicate 4 ⟨none, none, ⟨1, [], none⟩⟩),
    .recover (List.replicate 3 smooth),
    .reconcile (hourlySpec "a") 61000000000 (List.replicate 5 smooth)]

theorem proper_retries_after_crash :
    ProperRetries (hourlySpec "a")
        (run (controllerStep noZones plainJSON) new crashedSteps).history ∧
      (run (controllerStep noZones plainJSON) new crashedSteps).history.events.map
        (fun event => (event.attempt, event.outcome)) = [(1, .failed), (2, .succeeded)] :=
  ⟨proper_retries _ (by decide +kernel) (by simp [crashedSteps, ControllerStep.Serves, smooth])
    (by decide +kernel), by decide +kernel⟩

end KairosFlux.Jobctl
