import KairosFlux.Service.Standalone

/-! Concurrent writes to the standalone server and the state that a restart recovers
(`service/fsm.go`).

A call of `Write` appends to the log and then writes to the engine, both under a lock that calls
share and only a checkpoint takes alone. Nothing orders the two actions of different calls. -/

namespace KairosFlux.Service

open Lib Storage Layer Function List Engine

/-- A call whose record is in the log, at `offset`, has still to write to the engine. -/
inductive WritePhase where
  | waiting
  | logged (offset : Nat)
  | returned
  deriving DecidableEq

def WritePhase.offset : WritePhase → Option Nat
  | .waiting => none
  | .logged offset => some offset
  | .returned => none

structure Racing where
  engine : Engine
  wal : Bytes
  phases : Nat → WritePhase

def Racing.initial : Racing := ⟨new SortedMap.empty, [], fun _ => .waiting⟩

/-- The two actions of a call, and what runs beside the calls. -/
inductive RaceStep where
  | append (t : Nat)
  | apply (t : Nat)
  | swap
  | flush (ts : Nat)
  | checkpoint

/-- Some call is between its append and its write to the engine. -/
def Racing.busy (calls : List Command) (s : Racing) : Bool :=
  (List.range calls.length).any fun t => (s.phases t).offset.isSome

def raceStep (calls : List Command) (s : Racing) : RaceStep → Racing
  | .append t =>
    match calls[t]?, s.phases t with
    | some cmd, .waiting =>
      { s with
        wal := s.wal ++ encodeRecord (commandRecord cmd)
        phases := update s.phases t (.logged s.wal.length) }
    | _, _ => s
  | .apply t =>
    match calls[t]?, s.phases t with
    | some cmd, .logged _ =>
      { s with
        engine := applyCommand s.engine cmd
        phases := update s.phases t .returned }
    | _, _ => s
  | .swap => { s with engine := s.engine.swap }
  | .flush ts => { s with engine := s.engine.flushDirty ts }
  | .checkpoint => if s.busy calls then s else { s with wal := checkpointLog s.engine }

/-- A call writes to the engine only when no call on its key with an earlier record in the log has
still to do so, and the files are named by increasing timestamps. -/
def AppliesInOrder (calls : List Command) (s : Racing) : RaceStep → Prop
  | .apply t => ∀ cmd ∈ calls[t]?, ∀ offset ∈ (s.phases t).offset, ∀ u < calls.length,
      ∀ other ∈ calls[u]?, ∀ earlier ∈ (s.phases u).offset, other.key = cmd.key → offset ≤ earlier
  | .flush ts => ∀ file ∈ s.engine.disk.entries, file.1 < ts
  | _ => True

instance (calls : List Command) (s : Racing) (action : RaceStep) :
    Decidable (AppliesInOrder calls s action) := by
  cases action <;> dsimp only [AppliesInOrder] <;> infer_instance

/-- The engine behind a restart: the files on disk and the log replayed over them. -/
def Racing.recovered (s : Racing) : Engine := replayWAL (new s.engine.disk) s.wal

/-- Call `t` is `cmd`, and its record at `offset` has still to reach the engine. -/
structure Due (calls : List Command) (phases : Nat → WritePhase) (t : Nat) (cmd : Command)
    (offset : Nat) : Prop where
  call : calls[t]? = some cmd
  phase : phases t = .logged offset

/-- A due call has its record in the log, and the last one on a key is what the log holds there.
Where no call is due, the engine holds what the log holds over the files. -/
structure InStep (calls : List Command) (e : Engine) (wal : Bytes) (phases : Nat → WritePhase)
    (files : List (Nat × MemTable)) (logged : List LogEntry) : Prop where
  log : wal = walFormat.encodeAll (logged.map checkpointRecord)
  sound : ∀ entry ∈ logged, EntrySound entry
  mem : MemSound e
  onDisk : OnDisk e files
  covers : Layer.Covers (logLayer logged) e.memLayer
  recent : ∀ t cmd offset, Due calls phases t cmd offset →
    offset < wal.length ∧ logLayer logged cmd.key ≠ none
  last : ∀ t cmd offset, Due calls phases t cmd offset →
    (∀ u other earlier, Due calls phases u other earlier → other.key = cmd.key → earlier ≤ offset) →
      logLayer logged cmd.key = some cmd.stored
  settled : ∀ key, (∀ t cmd offset, Due calls phases t cmd offset → cmd.key ≠ key) →
    e.view key = above (logLayer logged) e.diskLayer key

variable {calls : List Command} {e : Engine} {wal : Bytes} {phases : Nat → WritePhase}
  {files : List (Nat × MemTable)} {logged : List LogEntry}

theorem Due.of_update {t u : Nat} {phase : WritePhase} {cmd : Command} {offset : Nat}
    (due : Due calls (update phases t phase) u cmd offset) :
    (u = t ∧ phase = .logged offset) ∨ (u ≠ t ∧ Due calls phases u cmd offset) := by
  obtain ⟨call, reached⟩ := due
  by_cases same : u = t
  · rw [same, update_self] at reached
    exact .inl ⟨same, reached⟩
  · rw [update_of_ne same] at reached
    exact .inr ⟨same, call, reached⟩

theorem Due.update {t u : Nat} {cmd : Command} {offset : Nat} (due : Due calls phases u cmd offset)
    (phase : WritePhase) (different : u ≠ t) :
    Due calls (update phases t phase) u cmd offset :=
  ⟨due.call, by rw [update_of_ne different, due.phase]⟩

namespace InStep

theorem initial : InStep calls (new SortedMap.empty) [] (fun _ => .waiting) [] [] where
  log := rfl
  sound _ member := nomatch member
  mem := MemSound.new SortedMap.empty
  onDisk := OnDisk.empty
  covers := fun _ _ => rfl
  recent _ _ _ due := by cases due.phase
  last _ _ _ due := by cases due.phase
  settled _ _ := rfl

section

variable (inStep : InStep calls e wal phases files logged)
include inStep

theorem append (t : Nat) (cmd : Command)
    (nonempty : cmd.Nonempty) (fits : cmd.Fits) (known : calls[t]? = some cmd)
    (waiting : phases t = .waiting) :
    InStep calls e (wal ++ encodeRecord (commandRecord cmd))
      (update phases t (.logged wal.length)) files (logged ++ [cmd.entry]) := by
  have same : ∀ other, calls[t]? = some other → other = cmd :=
    fun other otherKnown => Option.some.inj (otherKnown.symm.trans known)
  have here : Due calls (update phases t (.logged wal.length)) t cmd wal.length :=
    ⟨known, update_self ..⟩
  constructor
  case log =>
    rw [commandRecord_eq cmd nonempty, inStep.log]
    simp [Framing.encodeAll, walFormat]
  case sound =>
    exact forall_mem_append.mpr
      ⟨inStep.sound, forall_mem_singleton.mpr (cmd.entry_sound nonempty fits)⟩
  case mem => exact inStep.mem
  case onDisk => exact inStep.onDisk
  case covers =>
    intro key silent
    rw [logLayer_command, above_eq_none] at silent
    exact inStep.covers key silent.2
  case recent =>
    intro u other offset due
    have grown : wal.length < (wal ++ encodeRecord (commandRecord cmd)).length := by
      rw [length_append]
      exact Nat.lt_add_of_pos_right (walFormat.encode_pos (commandRecord cmd))
    rw [logLayer_command]
    rcases due.of_update with ⟨isT, place⟩ | ⟨_, before⟩
    · have call : other = cmd := same other (isT ▸ due.call)
      obtain rfl : wal.length = offset := WritePhase.logged.inj place
      rw [call, above_single_self]
      exact ⟨grown, by simp⟩
    · obtain ⟨inside, held⟩ := inStep.recent u other offset before
      refine ⟨inside.trans grown, ?_⟩
      rw [Ne, above_eq_none, not_and]
      exact fun _ => held
  case last =>
    intro u other offset due greatest
    rw [logLayer_command]
    rcases due.of_update with ⟨isT, _⟩ | ⟨_, before⟩
    · rw [same other (isT ▸ due.call)]
      exact above_single_self _ _ _
    · have different : other.key ≠ cmd.key := by
        intro sameKey
        have less := (inStep.recent u other offset before).1
        have more := greatest t cmd wal.length here sameKey.symm
        omega
      rw [above_single_of_ne _ _ _ _ different]
      apply inStep.last u other offset before
      intro v third earlier dueThird
      have isOther : v ≠ t := by
        intro isT
        rw [isT] at dueThird
        have phase := dueThird.phase
        rw [waiting] at phase
        cases phase
      exact greatest v third earlier (dueThird.update _ isOther)
  case settled =>
    intro key quiet
    have different : key ≠ cmd.key := (quiet t cmd wal.length here).symm
    rw [logLayer_command, above_assoc, above_single_of_ne _ _ _ _ different]
    apply inStep.settled key
    intro u other offset due
    by_cases isT : u = t
    · rw [same other (isT ▸ due.call)]
      exact different.symm
    · exact quiet u other offset (due.update _ isT)

theorem apply (t : Nat) (cmd : Command)
    (offset : Nat) (nonempty : cmd.Nonempty) (fits : cmd.Fits) (due : Due calls phases t cmd offset)
    (first : ∀ u other earlier, Due calls phases u other earlier → other.key = cmd.key →
      offset ≤ earlier) :
    InStep calls (applyCommand e cmd) wal (update phases t .returned) files logged := by
  have others : ∀ u other earlier,
      Due calls (update phases t .returned) u other earlier →
        u ≠ t ∧ Due calls phases u other earlier := by
    intro u other earlier dueOther
    rcases dueOther.of_update with ⟨_, phase⟩ | before
    · cases phase
    · exact before
  rw [applyCommand_eq]
  constructor
  case log => exact inStep.log
  case sound => exact inStep.sound
  case mem => exact inStep.mem.put cmd.entry (cmd.entry_sound nonempty fits)
  case onDisk => exact inStep.onDisk.put cmd.key cmd.stored
  case covers =>
    intro key silent
    have different : key ≠ cmd.key := by
      intro same
      rw [same] at silent
      exact (inStep.recent t cmd offset due).2 silent
    rw [memLayer_put, above_single_of_ne _ _ _ _ different]
    exact inStep.covers key silent
  case recent =>
    intro u other earlier dueOther
    exact inStep.recent u other earlier (others u other earlier dueOther).2
  case last =>
    intro u other later dueOther greatest
    obtain ⟨_, before⟩ := others u other later dueOther
    apply inStep.last u other later before
    intro v third earlier dueThird sameKey
    by_cases isT : v = t
    · obtain rfl : third = cmd := Option.some.inj (dueThird.call.symm.trans (isT ▸ due.call))
      have place : earlier = offset := by
        have phase := dueThird.phase
        rw [isT, due.phase] at phase
        exact (WritePhase.logged.inj phase).symm
      rw [place]
      exact first u other later before sameKey.symm
    · exact greatest v third earlier (dueThird.update _ isT) sameKey
  case settled =>
    intro key quiet
    rw [view_put, diskLayer_put]
    by_cases here : key = cmd.key
    · -- No other call on the key is due, so the record of this one is the last in the log.
      have value : logLayer logged cmd.key = some cmd.stored := by
        apply inStep.last t cmd offset due
        intro u other earlier dueOther sameKey
        by_cases isT : u = t
        · have phase := dueOther.phase
          rw [isT, due.phase] at phase
          exact (WritePhase.logged.inj phase).ge
        · exact absurd (sameKey.trans here.symm) (quiet u other earlier (dueOther.update _ isT))
      rw [here, above_single_self, above, value]
      rfl
    · rw [above_single_of_ne _ _ _ _ here]
      apply inStep.settled key
      intro u other earlier dueOther
      by_cases isT : u = t
      · obtain rfl : other = cmd := Option.some.inj (dueOther.call.symm.trans (isT ▸ due.call))
        exact Ne.symm here
      · exact quiet u other earlier (dueOther.update _ isT)

theorem swap : InStep calls e.swap wal phases files logged where
  __ := inStep
  mem := inStep.mem.swap
  onDisk := inStep.onDisk.swap
  covers := by
    rw [memLayer_swap]
    exact inStep.covers
  settled := by
    rw [view, memLayer_swap, diskLayer_swap]
    exact inStep.settled

-- The layer that moves to the files is covered by the log, so neither side of the equation changes.
theorem flush (ts : Nat) (later : ∀ file ∈ e.disk.entries, file.1 < ts) :
    ∃ after, InStep calls (e.flushDirty ts) wal phases after logged := by
  obtain ⟨after, moved, onDisk, files, memory⟩ :=
    inStep.onDisk.flushDirty ts later fun table flushing entry member =>
      (inStep.mem.dirty table flushing entry member).1
  have covers := inStep.covers
  rw [memory] at covers
  refine ⟨after, inStep.log, inStep.sound, inStep.mem.flushDirty ts, onDisk, covers.left,
    inStep.recent, inStep.last, ?_⟩
  intro key quiet
  have same := inStep.settled key quiet
  rw [view, memory] at same
  rw [view, files, ← above_assoc, above_covered covers.right]
  exact same

theorem checkpoint (quiet : ∀ t cmd offset, ¬ Due calls phases t cmd offset) :
    InStep calls e (checkpointLog e) phases files e.snapshotLive where
  __ := inStep
  log := rfl
  sound := by
    rw [inStep.mem.snapshotLive_eq]
    exact inStep.mem.mergeLive
  covers := by
    rw [inStep.mem.logLayer_snapshotLive]
    exact Layer.Covers.refl
  recent t cmd offset due := absurd due (quiet t cmd offset)
  last t cmd offset due := absurd due (quiet t cmd offset)
  settled key _ := by
    rw [inStep.mem.logLayer_snapshotLive]
    rfl

end

theorem quiet_of_not_busy (s : Racing) (idle : s.busy calls = false) :
    ∀ t cmd offset, ¬ Due calls s.phases t cmd offset := by
  intro t cmd offset due
  rw [Racing.busy, any_eq_false] at idle
  have bound : t < calls.length := (List.getElem?_eq_some_iff.mp due.call).1
  apply idle t (mem_range.mpr bound)
  rw [due.phase]
  rfl

theorem get_recovered (inStep : InStep calls e wal phases files logged)
    (quiet : ∀ t cmd offset, ¬ Due calls phases t cmd offset) (key : Bytes) :
    (replayWAL (new e.disk) wal).get key = e.get key := by
  have live : e.view key = above (logLayer logged) e.diskLayer key :=
    inStep.settled key fun t cmd offset due => absurd due (quiet t cmd offset)
  rw [inStep.log, get_replayWAL inStep.onDisk logged inStep.sound, get_eq, live]

theorem step (s : Racing) (nonempty : ∀ cmd ∈ calls, cmd.Nonempty) (fits : ∀ cmd ∈ calls, cmd.Fits)
    (inStep : InStep calls s.engine s.wal s.phases files logged) (action : RaceStep)
    (ordered : AppliesInOrder calls s action) :
    let next := raceStep calls s action
    ∃ files logged, InStep calls next.engine next.wal next.phases files logged := by
  obtain ⟨e, wal, phases⟩ := s
  cases action with
  | append t =>
    cases known : calls[t]? with
    | none => exact ⟨files, logged, by simpa only [raceStep, known] using inStep⟩
    | some cmd =>
      have member : cmd ∈ calls := mem_of_getElem? known
      cases phase : phases t with
      | waiting =>
        have appended := inStep.append t cmd (nonempty cmd member) (fits cmd member) known phase
        exact ⟨files, logged ++ [cmd.entry], by simpa only [raceStep, known, phase] using appended⟩
      | logged
      | returned => exact ⟨files, logged, by simpa only [raceStep, known, phase] using inStep⟩
  | apply t =>
    cases known : calls[t]? with
    | none => exact ⟨files, logged, by simpa only [raceStep, known] using inStep⟩
    | some cmd =>
      have member : cmd ∈ calls := mem_of_getElem? known
      cases phase : phases t with
      | waiting => exact ⟨files, logged, by simpa only [raceStep, known, phase] using inStep⟩
      | logged offset =>
        have place : (phases t).offset = some offset := by rw [phase]; rfl
        have first : ∀ u other earlier, Due calls phases u other earlier →
            other.key = cmd.key → offset ≤ earlier := by
          intro u other earlier due
          have otherPlace : (phases u).offset = some earlier := by rw [due.phase]; rfl
          exact ordered cmd known offset place u (List.getElem?_eq_some_iff.mp due.call).1
            other due.call earlier otherPlace
        have applied := inStep.apply t cmd offset (nonempty cmd member) (fits cmd member)
          ⟨known, phase⟩ first
        exact ⟨files, logged, by simpa only [raceStep, known, phase] using applied⟩
      | returned => exact ⟨files, logged, by simpa only [raceStep, known, phase] using inStep⟩
  | swap => exact ⟨files, logged, inStep.swap⟩
  | flush ts =>
    obtain ⟨after, flushed⟩ := inStep.flush ts ordered
    exact ⟨after, logged, flushed⟩
  | checkpoint =>
    cases busy : Racing.busy calls ⟨e, wal, phases⟩ with
    | true => exact ⟨files, logged, by simpa only [raceStep, busy, if_true] using inStep⟩
    | false =>
      have written := inStep.checkpoint (quiet_of_not_busy ⟨e, wal, phases⟩ busy)
      exact ⟨files, e.snapshotLive, by
        simpa only [raceStep, busy, Bool.false_eq_true, if_false] using written⟩

end InStep

/-- Once all calls have returned, a restart recovers what the live engine answers, as long as calls
on one key write to the engine in the order of their records in the log. -/
theorem recovered_eq_live (calls : List Command) (schedule : List RaceStep)
    (nonempty : ∀ cmd ∈ calls, cmd.Nonempty) (fits : ∀ cmd ∈ calls, cmd.Fits)
    (ordered : Guarded (raceStep calls) (AppliesInOrder calls) Racing.initial schedule) :
    let final := run (raceStep calls) Racing.initial schedule
    (∀ t < calls.length, final.phases t = .returned) →
      ∀ key, final.recovered.get key = final.engine.get key := by
  intro final returned key
  have reached : ∃ files logged, InStep calls final.engine final.wal final.phases files logged := by
    refine @Guarded.invariant _ _ _ _
      (fun s => ∃ files logged, InStep calls s.engine s.wal s.phases files logged) ?_
      Racing.initial schedule ⟨[], [], InStep.initial⟩ ordered
    intro s action inv allowed
    obtain ⟨files, logged, inStep⟩ := inv
    exact inStep.step s nonempty fits action allowed
  obtain ⟨files, logged, inStep⟩ := reached
  apply inStep.get_recovered
  intro t cmd offset due
  have bound : t < calls.length := (List.getElem?_eq_some_iff.mp due.call).1
  have phase := due.phase
  rw [returned t bound] at phase
  cases phase

theorem recovered_eq_live_two_keys :
    let calls : List Command := [⟨.put, ascii ['a'], some (ascii ['1'])⟩,
      ⟨.put, ascii ['b'], some (ascii ['2'])⟩, ⟨.delete, ascii ['a'], none⟩]
    let final := run (raceStep calls) Racing.initial
      [.append 0, .append 1, .append 2, .apply 1, .apply 0, .swap, .flush 5, .apply 2, .checkpoint]
    final.engine.get (ascii ['b']) = some (ascii ['2']) ∧
      final.recovered.get (ascii ['b']) = final.engine.get (ascii ['b']) := by
  intro calls final
  refine ⟨by decide +kernel, ?_⟩
  exact recovered_eq_live calls
    [.append 0, .append 1, .append 2, .apply 1, .apply 0, .swap, .flush 5, .apply 2, .checkpoint]
    (by decide) (by decide)
    ⟨trivial, trivial, trivial, by decide +kernel, by decide +kernel, trivial, by decide +kernel,
      by decide +kernel, trivial, trivial⟩
    (by decide +kernel) (ascii ['b'])

/-- Two puts of one key reach the log in one order and the engine in the other. -/
theorem recovery_reverts_write :
    let calls : List Command := [⟨.put, ascii ['k'], some (ascii ['1'])⟩,
      ⟨.put, ascii ['k'], some (ascii ['2'])⟩]
    let final := run (raceStep calls) Racing.initial [.append 0, .append 1, .apply 1, .apply 0]
    (∀ t < calls.length, final.phases t = .returned) ∧
      final.engine.get (ascii ['k']) = some (ascii ['1']) ∧
      final.recovered.get (ascii ['k']) = some (ascii ['2']) := by
  decide +kernel

end KairosFlux.Service
