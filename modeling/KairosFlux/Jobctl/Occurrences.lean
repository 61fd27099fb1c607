import KairosFlux.Jobctl.Calls

/-! The ledger of a job over its runs: the attempts of each occurrence are numbered, and an occurrence
that came to an end is not run again. -/

namespace KairosFlux.Jobctl

open Lib List History Controller

def Event.Finished (event : Event) : Prop := event.outcome = .succeeded ∨ event.outcome = .alert
deriving Decidable

def History.onTrack (history : History) (track : Track) : List Event :=
  history.events.filter fun event => event.track = track

/-- The attempts are one, two, three and so on, and only the last one may have ended otherwise than by
a failure that is retried. -/
def Numbered (events : List Event) : Prop :=
  events.map (fun event => event.attempt.toInt) =
      (List.range events.length).map (fun i : Nat => (i : Int) + 1) ∧
    ∀ event ∈ events.dropLast, event.outcome = .failed

/-- How a status stands to the events of its occurrence. A status that says `running` may be older
than the event of its attempt. -/
def Fits (status : JobStatus) (events : List Event) : Prop :=
  match status.phase with
  | .pending => events = [] ∧ status.attempt = 0
  | .running =>
    (∀ event ∈ events, event.outcome = .failed) ∧ status.attempt.toInt = events.length + 1 ∨
      ∃ event, events.getLast? = some event ∧ event.attempt = status.attempt
  | _ => ∃ event, events.getLast? = some event ∧ status = jobStatusFromEvent event

/-- An occurrence is run only behind failures that are retried. -/
def OpenWhenRun (earlier later : Happening) : Prop :=
  ∀ event execution, earlier = .event event → later = .ran execution →
    event.track = execution.occasion.track → event.outcome = .failed

structure Ledger (history : History) : Prop where
  numbered : ∀ track, Numbered (history.onTrack track)
  kinds : ∀ event ∈ history.events, event.outcome = .failed ∨ event.Finished
  bounded : ∀ event ∈ history.events, event.outcome = .failed → event.attempt.toInt + 1 < 2 ^ 63
  stored : ∀ event ∈ history.events, event.stored = event
  started : history.status = none → history.events = []
  fits : ∀ status, history.status = some status → Fits status (history.onTrack status.track)
  newest : ∀ status, history.status = some status → history.onTrack status.track ≠ [] →
    history.events.getLast? = (history.onTrack status.track).getLast?
  opened : history.Pairwise OpenWhenRun

theorem Numbered.concat {events : List Event} {event : Event} (numbered : Numbered events)
    (failed : ∀ event ∈ events, event.outcome = .failed)
    (next : event.attempt.toInt = events.length + 1) : Numbered (events ++ [event]) := by
  constructor
  · simp [numbered.1, range_succ, next]
  · simpa using failed

theorem Numbered.of_concat {events : List Event} {event : Event} (numbered : Numbered (events ++ [event])) :
    Numbered events ∧ (∀ event ∈ events, event.outcome = .failed) ∧
      event.attempt.toInt = events.length + 1 := by
  rcases numbered with ⟨attempts, failed⟩
  rw [length_append, length_singleton, range_succ, map_append, map_append]
    at attempts
  rw [dropLast_concat] at failed
  rcases append_inj' attempts rfl with ⟨init, last⟩
  exact ⟨⟨init, fun event member => failed event (dropLast_subset _ member)⟩, failed,
    by simpa using last⟩

theorem Numbered.nil : Numbered [] := ⟨rfl, by simp⟩

theorem Numbered.attempt_getLast {events : List Event} {event : Event} (numbered : Numbered events)
    (last : events.getLast? = some event) : event.attempt.toInt = events.length := by
  rcases List.getLast?_eq_some_iff.mp last with ⟨init, rfl⟩
  simpa using numbered.of_concat.2.2

theorem Numbered.failed {events : List Event} {event : Event} (numbered : Numbered events)
    (last : events.getLast? = some event) (retried : event.outcome = .failed) :
    ∀ event ∈ events, event.outcome = .failed := by
  rcases List.getLast?_eq_some_iff.mp last with ⟨init, rfl⟩
  exact forall_mem_append.mpr ⟨numbered.of_concat.2.1, by simpa using retried⟩

theorem Numbered.pairwise {events : List Event} (numbered : Numbered events) :
    events.Pairwise fun left right => left.attempt ≠ right.attempt := by
  have distinct : (events.map fun event => event.attempt.toInt).Nodup := by
    rw [numbered.1]
    exact nodup_range.map fun i j same => by simpa using same
  exact (pairwise_map.mp distinct).imp fun differ same => differ (congrArg Int64.toInt same)

@[simp] theorem onTrack_concat (history : History) (happening : Happening) (track : Track) :
    onTrack (history ++ [happening]) track =
      history.onTrack track ++ happening.event?.toList.filter fun event => event.track = track := by
  simp [onTrack]

theorem onTrack_getLast? {history : History} {last : Event} (newest : history.events.getLast? = some last) :
    (history.onTrack last.track).getLast? = some last := by
  rcases List.getLast?_eq_some_iff.mp newest with ⟨init, events⟩
  simp [onTrack, events]

theorem track_of_getLast? {history : History} {track : Track} {event : Event}
    (last : (history.onTrack track).getLast? = some event) : event.track = track := by
  simpa using (mem_filter.mp (mem_of_getLast? last)).2

theorem latestMatchingEvent_eq (history : History) (slot : Int64) (fingerprint : Bytes) :
    latestMatchingEvent history.events slot fingerprint =
      (history.onTrack (slot, fingerprint)).getLast? := by
  rw [latestMatchingEvent, onTrack, List.getLast?_eq_head?_reverse, ← filter_reverse,
    List.head?_filter]
  congr 1
  funext event
  simp [Event.track, Prod.ext_iff]

@[simp] theorem Event.stored_stored (event : Event) : event.stored.stored = event.stored := by
  simp [Event.stored]

namespace Ledger

variable {history : History}

theorem new : Ledger [] where
  numbered _ := .nil
  kinds := by simp [events]
  bounded := by simp [events]
  stored := by simp [events]
  started _ := rfl
  fits := by simp [status]
  newest := by simp [status]
  opened := .nil

theorem pairwise_concat (ledger : Ledger history) {happening : Happening}
    (opened : ∀ earlier ∈ history, OpenWhenRun earlier happening) :
    (history ++ [happening]).Pairwise OpenWhenRun := by
  rw [pairwise_append]
  exact ⟨ledger.opened, pairwise_singleton _ _, fun earlier member later is =>
    mem_singleton.mp is ▸ opened earlier member⟩

theorem silent (ledger : Ledger history) {happening : Happening} (noStatus : happening.status? = none)
    (noEvent : happening.event? = none)
    (opened : ∀ earlier ∈ history, OpenWhenRun earlier happening) :
    Ledger (history ++ [happening]) := by
  have status : status (history ++ [happening]) = history.status := by
    rw [status_concat, noStatus, Option.none_or]
  have events : events (history ++ [happening]) = history.events := by
    rw [events_concat, noEvent, Option.toList_none, append_nil]
  have onTrack : onTrack (history ++ [happening]) = history.onTrack := by
    funext track
    rw [onTrack, events, onTrack]
  exact ⟨onTrack ▸ ledger.numbered, events ▸ ledger.kinds, events ▸ ledger.bounded,
    events ▸ ledger.stored, status ▸ events ▸ ledger.started, status ▸ onTrack ▸ ledger.fits,
    status ▸ events ▸ onTrack ▸ ledger.newest, ledger.pairwise_concat opened⟩

theorem status (ledger : Ledger history) (next : JobStatus)
    (fits : Fits next (history.onTrack next.track))
    (newest : history.onTrack next.track ≠ [] →
      history.events.getLast? = (history.onTrack next.track).getLast?) :
    Ledger (history ++ [.status next]) where
  numbered := by simpa using ledger.numbered
  kinds := by simpa using ledger.kinds
  bounded := by simpa using ledger.bounded
  stored := by simpa using ledger.stored
  started := by simp
  fits := by simpa using fits
  newest := by simpa using newest
  opened := ledger.pairwise_concat fun _ _ _ _ _ is => by cases is

theorem event (ledger : Ledger history) {current : JobStatus} (found : history.status = some current)
    (phase : current.phase = .running) (next : Event) (track : next.track = current.track)
    (attempt : next.attempt = current.attempt) (kind : next.outcome = .failed ∨ next.Finished)
    (small : next.outcome = .failed → next.attempt.toInt + 1 < 2 ^ 63) (stored : next.stored = next)
    (failed : ∀ event ∈ history.onTrack current.track, event.outcome = .failed)
    (number : current.attempt.toInt = (history.onTrack current.track).length + 1) :
    Ledger (history ++ [.event next]) where
  numbered other := by
    by_cases same : next.track = other
    · have concat : onTrack (history ++ [.event next]) other =
          history.onTrack current.track ++ [next] := by
        simp [← same, track]
      rw [concat]
      exact (ledger.numbered current.track).concat failed (attempt ▸ number)
    · simpa [same] using ledger.numbered other
  kinds := by
    rw [events_concat]
    exact forall_mem_append.mpr ⟨ledger.kinds, by simpa using kind⟩
  bounded := by
    rw [events_concat]
    exact forall_mem_append.mpr ⟨ledger.bounded, by simpa using small⟩
  stored := by
    rw [events_concat]
    exact forall_mem_append.mpr ⟨ledger.stored, by simpa using stored⟩
  started none := by simp [found] at none
  fits status is := by
    cases found.symm.trans (by simpa using is)
    simp [Fits, phase, track, attempt]
  newest status is _ := by
    cases found.symm.trans (by simpa using is)
    simp [track]
  opened := ledger.pairwise_concat fun _ _ _ _ _ is => by cases is

end Ledger

theorem fits_jobStatusFromEvent {events : List Event} {event : Event}
    (last : events.getLast? = some event) : Fits (jobStatusFromEvent event) events := by
  cases outcome : event.outcome <;> simp only [Fits, jobStatusFromEvent, outcome] <;>
    exact ⟨event, last, by simp [outcome]⟩

/-- The status speaks of the occurrence, or the ledger does not know it yet; and the status does not
say that an attempt is running of which the ledger has the event. -/
structure Occasion.Untouched (occasion : Occasion) (start : History) : Prop where
  track : (∃ status, start.status = some status ∧ status.track = occasion.track) ∨
    start.onTrack occasion.track = []
  fresh : ∀ status, start.status = some status → status.phase = .running →
    status.track = occasion.track → ∀ event ∈ start.onTrack occasion.track,
      event.attempt ≠ status.attempt

section Call

variable {occasion : Occasion} {permitted : Choice → Prop} {start history : History} {number : Int64}

theorem toInt_succ {attempt : Int64} (small : attempt.toInt + 1 < 2 ^ 63) :
    (attempt + 1).toInt = attempt.toInt + 1 := by
  have := attempt.le_toInt
  rw [Int64.toInt_add, show (1 : Int64).toInt = 1 from rfl, Int.bmod_eq_of_le (by omega) (by omega)]

theorem Ledger.of_checkDependencies (ledger : Ledger start) (untouched : occasion.Untouched start)
    (asked : occasion.decision start.status = .checkDependencies number) :
    start.onTrack occasion.track = [] ∧ number = 1 := by
  rcases Occasion.fits_decision asked with ⟨other, rfl⟩ | ⟨status, found, track, phase, rfl⟩
  · rcases untouched.track with ⟨status, found, track⟩ | empty
    · exact absurd track (other status found)
    · exact ⟨empty, rfl⟩
  · have fits := ledger.fits status found
    simp only [Fits, phase, track] at fits
    exact ⟨fits.1, by rw [fits.2]; rfl⟩

theorem Ledger.of_due (ledger : Ledger start) (untouched : occasion.Untouched start)
    (due : Due occasion start history number) :
    (∀ event ∈ start.onTrack occasion.track, event.outcome = .failed) ∧
      number.toInt = (start.onTrack occasion.track).length + 1 := by
  rcases due with asked | ⟨asked, -⟩
  · rcases Occasion.fits_decision asked with ⟨status, found, track, ⟨phase, rfl⟩ | ⟨phase, rfl, -⟩⟩
    · have fits := ledger.fits status found
      simp only [Fits, phase, track] at fits
      rcases fits with fresh | ⟨event, last, same⟩
      · exact fresh
      · exact absurd same (untouched.fresh status found phase track event (mem_of_getLast? last))
    · have fits := ledger.fits status found
      simp only [Fits, phase, track] at fits
      rcases fits with ⟨event, last, rfl⟩
      have member : event ∈ start.events := mem_of_mem_filter (mem_of_getLast? last)
      have failed : event.outcome = .failed := by
        rcases ledger.kinds event member with failed | succeeded | alert
        · exact failed
        · simp [jobStatusFromEvent, succeeded] at phase
        · simp [jobStatusFromEvent, alert] at phase
      have numbered := ledger.numbered occasion.track
      refine ⟨numbered.failed last failed, ?_⟩
      rw [← numbered.attempt_getLast last]
      exact toInt_succ (ledger.bounded event member failed)
  · rcases ledger.of_checkDependencies untouched asked with ⟨empty, rfl⟩
    simp [empty]

theorem event_kind (occasion : Occasion) (number : Int64) (result : ExecResult) :
    (occasion.event number result).outcome = .failed ∧ number < occasion.spec.maxRetries + 1 ∨
      (occasion.event number result).Finished := by
  rw [Occasion.event]
  split_ifs with succeeded exhausted
  · exact .inr (.inl rfl)
  · exact .inr (.inr rfl)
  · exact .inl ⟨rfl, Int64.not_le.mp exhausted⟩

theorem event_track (text : Utf8.toValid occasion.fingerprint = occasion.fingerprint)
    (number : Int64) (result : ExecResult) :
    (occasion.event number result).stored.track = occasion.track := by
  rw [Occasion.event]
  split_ifs <;> exact Prod.ext rfl text

theorem event_attempt (occasion : Occasion) (number : Int64) (result : ExecResult) :
    (occasion.event number result).attempt = number := by
  rw [Occasion.event]
  split_ifs <;> rfl

/-- A call leaves the status or writes one of its occurrence, and adds at most one event, of an
attempt of its occurrence. -/
theorem Stage.Holds.cases {stage : Stage} (holds : stage.Holds occasion start history)
    (text : Utf8.toValid occasion.fingerprint = occasion.fingerprint) :
    (history.status = start.status ∧ stage = .begun ∨
      ∃ status, history.status = some status ∧ status.track = occasion.track ∧
        (status.phase = .pending ∨ stage ≠ .begun ∧ stage ≠ .waiting)) ∧
    (history.events = start.events ∨
      ∃ number result, history.events = start.events ++ [(occasion.event number result).stored] ∧
        stage ≠ .begun ∧ stage ≠ .waiting) := by
  cases stage with
  | begun => exact ⟨.inl ⟨holds.1, rfl⟩, .inl holds.2⟩
  | waiting =>
    rcases holds with ⟨status, found, phase, track, -, events⟩
    exact ⟨.inr ⟨status, found, track, .inl phase⟩, .inl events⟩
  | running number | ran number =>
    rcases holds with ⟨status, found, phase, track, -, events⟩
    exact ⟨.inr ⟨status, found, track, .inr (by simp)⟩, .inl events⟩
  | recorded number result =>
    rcases holds with ⟨status, found, phase, track, -, events⟩
    exact ⟨.inr ⟨status, found, track, .inr (by simp)⟩, .inr ⟨number, result, events, by simp⟩⟩
  | settled number result =>
    exact ⟨.inr ⟨_, holds.1, event_track text number result, .inr (by simp)⟩,
      .inr ⟨number, result, holds.2, by simp⟩⟩

theorem onTrack_congr (same : history.events = start.events) (track : Track) :
    history.onTrack track = start.onTrack track := by
  rw [onTrack, same, onTrack]

theorem Reached.ledger {stage : Stage} (ledger : Ledger start) (untouched : occasion.Untouched start)
    (text : Utf8.toValid occasion.fingerprint = occasion.fingerprint)
    (reached : Reached occasion permitted start stage history) :
    Ledger history ∧ ∀ number, stage = .running number ∨ stage = .ran number →
      (∀ event ∈ start.onTrack occasion.track, event.outcome = .failed) ∧
        number.toInt = (start.onTrack occasion.track).length + 1 := by
  induction reached with
  | begins => exact ⟨ledger, by simp⟩
  | saw dep seen _ ih =>
    exact ⟨ih.1.silent rfl rfl fun _ _ _ _ _ is => (by cases is), by simp⟩
  | @waits before number unmet begun asked ih =>
    have empty := (ledger.of_checkDependencies untouched asked).1
    have same := onTrack_congr (begun.holds text).2 occasion.track
    have track : (occasion.pending unmet).stored.track = occasion.track := Prod.ext rfl text
    refine ⟨ih.1.status _ ?_ ?_, by simp⟩
    · rw [track, same, empty]
      exact ⟨rfl, rfl⟩
    · simp [track, same, empty]
  | keepsWaiting _ _ _ _ _ ih => exact ⟨ih.1, by simp⟩
  | @starts before number begun due ih =>
    have next := ledger.of_due untouched due
    have holds := begun.holds text
    have same := onTrack_congr holds.2 occasion.track
    have track : (occasion.running number).stored.track = occasion.track := Prod.ext rfl text
    refine ⟨ih.1.status _ ?_ fun some => ?_, by simpa using next⟩
    · rw [track, same]
      exact .inl next
    · rw [track, same] at some ⊢
      rw [holds.2]
      rcases untouched.track with ⟨status, found, onTrack⟩ | empty
      · exact onTrack ▸ ledger.newest status found (onTrack ▸ some)
      · exact absurd empty some
  | keepsRunning number _ due _ ih => exact ⟨ih.1, by simpa using ledger.of_due untouched due⟩
  | @runs before number running ih =>
    have next := ih.2 number (.inl rfl)
    rcases running.holds text with ⟨_, _, _, _, _, events⟩
    refine ⟨ih.1.silent rfl rfl ?_, by simpa using next⟩
    intro earlier member event execution isEvent isRun onTrack
    cases isRun
    refine next.1 event (mem_filter.mpr ⟨?_, by simpa using onTrack⟩)
    rw [← events]
    exact mem_filterMap.mpr ⟨earlier, member, by rw [isEvent]; rfl⟩
  | @records before number choice ran _ ih =>
    have next := ih.2 number (.inr rfl)
    rcases ran.holds text with ⟨status, found, phase, track, rfl, events⟩
    have same := onTrack_congr events occasion.track
    have kind := event_kind occasion status.attempt choice.result
    have attempt := event_attempt occasion status.attempt choice.result
    refine ⟨ih.1.event found phase _ ((event_track text _ _).trans track.symm) attempt
      (kind.imp_left And.left) (fun failed => ?_) (Event.stored_stored _) ?_ ?_, by simp⟩
    · rcases kind with ⟨-, less⟩ | finished
      · have := (occasion.spec.maxRetries + 1).toInt_lt
        rw [Int64.lt_iff_toInt_lt] at less
        change (occasion.event status.attempt choice.result).attempt.toInt + 1 < 2 ^ 63
        rw [attempt]
        omega
      · exact absurd failed (by rcases finished with is | is <;> simp [Event.stored, is])
    · rw [track, same]
      exact next.1
    · rw [track, same]
      exact next.2
  | alerts number result _ ih =>
    exact ⟨ih.1.silent rfl rfl fun _ _ _ _ _ is => (by cases is), by simp⟩
  | @settles before number result recorded ih =>
    rcases recorded.holds text with ⟨_, _, _, _, _, events⟩
    have track : (jobStatusFromEvent (occasion.event number result).stored).track = occasion.track :=
      event_track text number result
    have last : (before.onTrack occasion.track).getLast? =
        some (occasion.event number result).stored := by
      simp [onTrack, events, event_track text]
    rw [jobStatusFromEvent_stored]
    refine ⟨ih.1.status _ ?_ fun _ => ?_, by simp⟩
    · rw [track]
      exact fits_jobStatusFromEvent last
    · rw [track, last, events, List.getLast?_concat]

theorem rebuilt_eq_some {history : History} {next : JobStatus}
    (asked : rebuilt history.status history.events = some next) :
    ∃ event, next = jobStatusFromEvent event ∧ (history.events.getLast? = some event ∧
          (∀ status, history.status = some status → status.phase.Terminal) ∨
        ∃ status, history.status = some status ∧
          (status.phase = .running ∨ status.phase = .failed) ∧
          (history.onTrack status.track).getLast? = some event) := by
  rw [rebuilt] at asked
  cases last : history.events.getLast? with
  | none => simp [last] at asked
  | some event =>
    simp only [last] at asked
    cases found : history.status with
    | none =>
      simp only [found] at asked
      exact ⟨event, (Option.some.inj asked).symm, .inl ⟨rfl, by simp⟩⟩
    | some status =>
      have matching : latestMatchingEvent history.events status.slot status.specFingerprint =
          (history.onTrack status.track).getLast? := latestMatchingEvent_eq _ _ _
      cases phase : status.phase <;> simp only [found, phase, matching, Option.map_eq_some_iff] at asked
      case pending => cases asked
      case running =>
        rcases asked with ⟨matched, is, rfl⟩
        exact ⟨matched, rfl, .inr ⟨status, rfl, .inl phase, is⟩⟩
      case failed =>
        rcases asked with ⟨matched, is, rfl⟩
        exact ⟨matched, rfl, .inr ⟨status, rfl, .inr phase, is⟩⟩
      all_goals
        refine ⟨event, (Option.some.inj asked).symm, .inl ⟨rfl, fun other is => ?_⟩⟩
        cases is
        simp [JobPhase.Terminal, phase]

theorem rebuilt_mem {history : History} {next : JobStatus}
    (asked : rebuilt history.status history.events = some next) :
    ∃ event ∈ history.events, next = jobStatusFromEvent event := by
  rcases rebuilt_eq_some asked with ⟨event, is, ⟨last, -⟩ | ⟨status, -, -, last⟩⟩
  · exact ⟨event, mem_of_getLast? last, is⟩
  · exact ⟨event, mem_of_mem_filter (mem_of_getLast? last), is⟩

/-- What the ledger asks for comes from its last event, which is also the last of its occurrence. -/
theorem Ledger.rebuilt_last (ledger : Ledger start) {next : JobStatus}
    (asked : rebuilt start.status start.events = some next) :
    ∃ event, start.events.getLast? = some event ∧
      (start.onTrack event.track).getLast? = some event ∧ next.stored = jobStatusFromEvent event := by
  rcases rebuilt_eq_some asked with ⟨event, rfl, matched⟩
  have lasts : start.events.getLast? = some event ∧
      (start.onTrack event.track).getLast? = some event := by
    rcases matched with ⟨last, -⟩ | ⟨status, found, -, last⟩
    · exact ⟨last, onTrack_getLast? last⟩
    · have same := track_of_getLast? last
      have some : start.onTrack status.track ≠ [] := fun empty => by simp [empty] at last
      exact ⟨(ledger.newest status found some).trans last, same ▸ last⟩
  have stored := ledger.stored event (mem_of_getLast? lasts.1)
  exact ⟨event, lasts.1, lasts.2, by rw [jobStatusFromEvent_stored, stored]⟩

theorem Recovered.ledger (ledger : Ledger start) (recovered : Recovered start history) :
    Ledger history := by
  rcases recovered with rfl | ⟨next, asked, -, rfl⟩
  · exact ledger
  rcases ledger.rebuilt_last asked with ⟨event, last, onTrack, stored⟩
  have track : (jobStatusFromEvent event).track = event.track := rfl
  rw [stored]
  refine ledger.status _ ?_ fun _ => ?_
  · exact fits_jobStatusFromEvent onTrack
  · rw [track, last, onTrack]

end Call

/-- No execution behind the end of its occurrence, and no two events of one attempt. -/
structure NeverAgain (history : History) : Prop where
  finished : history.Pairwise fun earlier later => ∀ event execution, earlier = .event event →
    later = .ran execution → event.track = execution.occasion.track → ¬event.Finished
  distinct : (history.events.map fun event => (event.track, event.attempt)).Nodup

theorem Ledger.neverAgain {history : History} (ledger : Ledger history) : NeverAgain history where
  finished := ledger.opened.imp fun opened event execution isEvent isRun onTrack finished => by
    have failed := opened event execution isEvent isRun onTrack
    rcases finished with is | is <;> simp [failed] at is
  distinct := by
    rw [List.Nodup, pairwise_map, pairwise_iff_forall_sublist]
    intro left right sub same
    rcases Prod.mk.inj same with ⟨sameTrack, sameAttempt⟩
    have both : [left, right].filter (fun event => event.track = left.track) = [left, right] := by
      simp [sameTrack]
    have onTrack := sub.filter fun event => event.track = left.track
    rw [both] at onTrack
    exact pairwise_iff_forall_sublist.mp (ledger.numbered left.track).pairwise onTrack sameAttempt

section Runs

variable (zones : Zones) (marshal : JobSpec → Bytes)

/-- A call goes on with the occurrence of the status, whose event it does not miss, or begins one that
the ledger does not know. -/
def TakesUp (controller : Controller) : ControllerStep → Prop
  | .reconcile spec now _ => ∀ slot, spec.slot zones now = some slot →
      (Occasion.at marshal spec now slot).Untouched controller.history
  | .recover _ => True

variable {zones marshal}

theorem Ledger.step (controller : Controller) (step : ControllerStep) (ledger : Ledger controller.history)
    (takesUp : TakesUp zones marshal controller step) :
    Ledger (controllerStep zones marshal controller step).history := by
  cases step with
  | reconcile spec now choices =>
    rw [controllerStep]
    split_ifs with down
    · exact ledger
    have way := (reconcile_always zones marshal spec now (fun _ => True) controller.history).exec
      choices fun _ _ => trivial
    rcases way.1 with same | ⟨slot, slotIs, stage, reached⟩
    · change Ledger (Program.exec jobWorld _ controller.history choices).1
      rw [same]
      exact ledger
    · exact (reached.ledger ledger (takesUp slot slotIs)
        (Utf8.toValid_of_valid (fingerprint_valid marshal spec))).1
  | recover choices =>
    have way := (recover_always (fun _ => True) controller.history).exec choices fun _ _ => trivial
    exact way.1.ledger ledger

/-- Over runs with crashes and refused calls, an occurrence that came to an end is not run again, as
long as every call takes up the occurrence of the status or a new one. -/
theorem finished_not_run_again (steps : List ControllerStep)
    (takesUp : Guarded (controllerStep zones marshal) (TakesUp zones marshal) new steps) :
    NeverAgain (run (controllerStep zones marshal) new steps).history := by
  have ledger : Ledger (run (controllerStep zones marshal) new steps).history :=
    Guarded.invariant Ledger.step new steps Ledger.new takesUp
  exact ledger.neverAgain

end Runs

/-- The canonical encoding of a spec whose texts need no escapes and that has no environment. -/
def plainJSON (spec : JobSpec) : Bytes :=
  let quoted (text : Bytes) : Bytes := 34 :: text ++ [34]
  let list (texts : List Bytes) : Bytes := 91 :: List.intercalate [44] (texts.map quoted) ++ [93]
  utf8 "\x7b\"name\":" ++ quoted spec.name ++ utf8 ",\"command\":" ++ list spec.command ++
    utf8 ",\"dir\":" ++ quoted spec.dir ++ utf8 ",\"env\":null,\"depends_on\":" ++
    (if spec.dependsOn = [] then utf8 "null" else list spec.dependsOn) ++
    utf8 ",\"schedule_interval_seconds\":" ++ signedDecimal spec.scheduleIntervalSeconds.toInt ++
    utf8 ",\"max_retries\":" ++ signedDecimal spec.maxRetries.toInt ++
    utf8 ",\"retry_backoff_seconds\":" ++ signedDecimal spec.retryBackoffSeconds.toInt ++
    (if spec.schedule = [] then [] else utf8 ",\"schedule\":" ++ quoted spec.schedule) ++ utf8 "\x7d"

def hourlySpec (command : String) : JobSpec :=
  { name := ascii "scout".toList, command := [ascii command.toList], dir := [], env := none,
    dependsOn := [], scheduleIntervalSeconds := 3600, schedule := [], maxRetries := 1,
    retryBackoffSeconds := 60 }

def noZones : Zones := ⟨id, fun _ => .error []⟩

/-- The store answers and the command ends with exit code zero. -/
def smooth : Choice := ⟨none, none, ⟨0, [], none⟩⟩

theorem finished_not_run_again_after_crash :
    NeverAgain (run (controllerStep noZones plainJSON) new
      [.reconcile (hourlySpec "a") 0 (List.replicate 4 smooth),
        .recover (List.replicate 3 smooth)]).history := by
  refine finished_not_run_again _ ⟨fun slot _ => ?_, trivial, trivial⟩
  exact ⟨.inr rfl, by simp [new, status]⟩

theorem run_again_after_change : ¬NeverAgain (run (controllerStep noZones plainJSON) new
      [.reconcile (hourlySpec "a") 0 (List.replicate 5 smooth),
        .reconcile (hourlySpec "b") 0 (List.replicate 5 smooth),
        .reconcile (hourlySpec "a") 0 (List.replicate 5 smooth)]).history := fun never =>
  absurd never.distinct (by decide +kernel)

end KairosFlux.Jobctl
