import KairosFlux.Service.Standalone

/-! Runs of the standalone server with flushes, checkpoints and restarts (`service/fsm.go`,
`storage/engine.go`). -/

namespace KairosFlux.Service

open Lib Storage List Layer Engine KVServer

/-- `pending` holds the records that the replay of the last start has still to apply, and `acked`
the commands whose `Write` returned. -/
structure ServerState where
  engine : Engine
  wal : Bytes
  pending : List WALRecord
  acked : List Command

open ServerState

def ServerState.initial : ServerState := ⟨new SortedMap.empty, [], [], []⟩

/-- The halves of a flush run beside everything else, the replay included. `crash` loses the tables
in memory and starts the next replay. -/
inductive ServerStep where
  | write (cmd : Command)
  | swap
  | flush (ts : Nat)
  | checkpoint
  | crash
  | replayNext

-- The server takes writes and checkpoints only after the replay.
def serverStep (s : ServerState) : ServerStep → ServerState
  | .write cmd =>
    if s.pending = [] then
      { s with
        engine := applyCommand s.engine cmd
        wal := s.wal ++ encodeRecord (commandRecord cmd)
        acked := s.acked ++ [cmd] }
    else s
  | .swap => { s with engine := s.engine.swap }
  | .flush ts => { s with engine := s.engine.flushDirty ts }
  | .checkpoint => if s.pending = [] then { s with wal := checkpointLog s.engine } else s
  | .crash => { s with engine := new s.engine.disk, pending := replay s.wal }
  | .replayNext =>
    match s.pending with
    | [] => s
    | r :: rest => { s with engine := replayRecord s.engine r, pending := rest }

/-- Puts are of non-empty values, lengths fit their fields, and the files are named by increasing
timestamps. -/
def Admissible (s : ServerState) : ServerStep → Prop
  | .write cmd => cmd.Nonempty ∧ cmd.Fits
  | .flush ts => ∀ file ∈ s.engine.disk.entries, file.1 < ts
  | _ => True

instance (s : ServerState) (step : ServerStep) : Decidable (Admissible s step) := by
  cases step <;> dsimp only [Admissible] <;> infer_instance

/-- What the last acknowledged command on a key left there. -/
def lastAcked (key : Bytes) (acked : List Command) : Option Bytes :=
  (acked.filter fun cmd => cmd.key = key).getLast?.bind Command.stored

theorem lastAcked_single (cmd : Command) : lastAcked cmd.key [cmd] = cmd.stored := by
  simp [lastAcked]

def ackedLayer (acked : List Command) : Layer Bytes (Option Bytes) :=
  logLayer (acked.map Command.entry)

theorem ackedLayer_snoc (acked : List Command) (cmd : Command) : ackedLayer (acked ++ [cmd]) =
      above (single cmd.key cmd.stored) (ackedLayer acked) := by
  rw [ackedLayer, map_append]
  exact logLayer_command _ cmd

theorem lastAcked_eq (key : Bytes) (acked : List Command) :
    lastAcked key acked = (ackedLayer acked key).join := by
  induction acked using List.reverseRecOn with
  | nil => rfl
  | append_singleton acked cmd ih =>
    rw [ackedLayer_snoc, lastAcked, filter_append]
    by_cases here : cmd.key = key
    · rw [← here, above_single_self]
      simp
    · rw [above_single_of_ne _ _ _ _ (Ne.symm here), ← ih, lastAcked]
      simp [here]

/-- The acknowledged commands are what the replay still has to apply over the engine, and also what
the log holds over the files. -/
structure Keeps (e : Engine) (wal : Bytes) (pending : List WALRecord) (acked : List Command)
    (files : List (Nat × MemTable)) (logged : List WALRecord) : Prop where
  log : wal = walFormat.encodeAll logged
  sound : ∀ r ∈ logged, RecordSound r
  todoSound : ∀ r ∈ pending, RecordSound r
  mem : ∀ entry ∈ e.memEntries, EntryFits entry
  onDisk : OnDisk e files
  covers : Layer.Covers (recordLayer logged) e.memLayer
  coversTodo : Layer.Covers (recordLayer logged) (recordLayer pending)
  live : above (recordLayer pending) e.view = ackedLayer acked
  durable : above (recordLayer logged) e.diskLayer = ackedLayer acked

namespace Keeps

variable {e : Engine} {wal : Bytes} {pending : List WALRecord} {acked : List Command}
  {files : List (Nat × MemTable)} {logged : List WALRecord}

theorem initial : Keeps (new SortedMap.empty) [] [] [] [] [] where
  log := rfl
  sound _ member := nomatch member
  todoSound _ member := nomatch member
  mem _ member := nomatch member
  onDisk := OnDisk.empty
  covers _ _ := rfl
  coversTodo _ _ := rfl
  live := rfl
  durable := rfl

theorem write (keeps : Keeps e wal [] acked files logged) (cmd : Command) (fits : cmd.Fits) :
    Keeps (applyCommand e cmd) (wal ++ encodeRecord (commandRecord cmd)) [] (acked ++ [cmd]) files
      (logged ++ [commandRecord cmd]) := by
  have sound := commandRecord_sound cmd fits
  rw [applyCommand_eq]
  constructor
  case log =>
    rw [keeps.log, walFormat.encodeAll_append]
    simp [Framing.encodeAll, walFormat]
  case sound => exact forall_mem_append.mpr ⟨keeps.sound, forall_mem_singleton.mpr sound⟩
  case todoSound => exact keeps.todoSound
  case mem =>
    intro entry member
    rcases e.mem_memEntries_put cmd.key cmd.stored entry member with rfl | old
    · have entry := sound.entry
      rw [recordEntry_commandRecord] at entry
      exact entry
    · exact keeps.mem entry old
  case onDisk => exact keeps.onDisk.put cmd.key cmd.stored
  case covers =>
    rw [recordLayer_snoc, memLayer_put]
    exact keeps.covers.above_mono _
  case coversTodo => exact fun _ _ => rfl
  case live =>
    have before : e.view = ackedLayer acked := keeps.live
    rw [view_put, ackedLayer_snoc, before]
    rfl
  case durable =>
    rw [recordLayer_snoc, above_assoc, ackedLayer_snoc, diskLayer_put, keeps.durable]

theorem swap (keeps : Keeps e wal pending acked files logged) :
    Keeps e.swap wal pending acked files logged where
  __ := keeps
  mem entry member := keeps.mem entry (e.mem_memEntries_swap entry member)
  onDisk := keeps.onDisk.swap
  covers := by
    rw [memLayer_swap]
    exact keeps.covers
  live := by
    rw [view, memLayer_swap, diskLayer_swap]
    exact keeps.live
  durable := by
    rw [diskLayer_swap]
    exact keeps.durable

-- The layer that moves to the files is covered by the log, so the log over the files is the same.
theorem flush (keeps : Keeps e wal pending acked files logged) (ts : Nat)
    (later : ∀ file ∈ e.disk.entries, file.1 < ts) :
    ∃ after, Keeps (e.flushDirty ts) wal pending acked after logged := by
  obtain ⟨after, moved, onDisk, files, memory⟩ := keeps.onDisk.flushDirty ts later
    fun table flushing entry member =>
      keeps.mem entry (e.dirty_subset_memEntries table flushing entry member)
  have covers := keeps.covers
  rw [memory] at covers
  have sameView : (e.flushDirty ts).view = e.view := by
    rw [view, view, memory, files, above_assoc]
  refine ⟨after, keeps.log, keeps.sound, keeps.todoSound, ?_, onDisk, covers.left, keeps.coversTodo,
    ?_, ?_⟩
  · exact fun entry member => keeps.mem entry (e.mem_memEntries_flushDirty ts entry member)
  · rw [sameView]
    exact keeps.live
  · rw [files, above_covered covers.right]
    exact keeps.durable

theorem checkpoint (keeps : Keeps e wal [] acked files logged) (full : MemFull e) :
    Keeps e (checkpointLog e) [] acked files (e.snapshotLive.map checkpointRecord) := by
  have whole : MemSound e := MemSound.of_memEntries keeps.mem full
  have same : recordLayer (e.snapshotLive.map checkpointRecord) = e.memLayer := by
    rw [recordLayer_checkpoint, whole.logLayer_snapshotLive]
  exact { keeps with
    log := by rfl
    sound := by
      intro r member
      obtain ⟨entry, inside, rfl⟩ := mem_map.mp member
      rw [whole.snapshotLive_eq] at inside
      exact checkpointRecord_sound entry (whole.mergeLive entry inside).1
    covers := by
      rw [same]
      exact Layer.Covers.refl
    coversTodo := fun _ _ => rfl
    durable := by
      rw [same]
      exact keeps.live }

theorem replay_eq (keeps : Keeps e wal pending acked files logged) (full : LogFull wal) :
    replay wal = logged := by
  rw [keeps.log] at full ⊢
  exact replay_full logged keeps.sound full

theorem crash (keeps : Keeps e wal pending acked files logged) (full : LogFull wal) :
    Keeps (new e.disk) wal (replay wal) acked files logged := by
  rw [keeps.replay_eq full]
  constructor
  case log => exact keeps.log
  case sound => exact keeps.sound
  case todoSound => exact keeps.sound
  case mem => exact nofun
  case onDisk => exact keeps.onDisk.new
  case covers => exact fun _ _ => rfl
  case coversTodo => exact Layer.Covers.refl
  case live =>
    rw [keeps.onDisk.view_new]
    exact keeps.durable
  case durable =>
    rw [keeps.onDisk.new.diskLayer, ← keeps.onDisk.diskLayer]
    exact keeps.durable

theorem replayNext (r : WALRecord) (rest : List WALRecord)
    (keeps : Keeps e wal (r :: rest) acked files logged) :
    Keeps (replayRecord e r) wal rest acked files logged := by
  have sound := keeps.todoSound r (.head _)
  have covers := keeps.coversTodo
  rw [replayRecord_eq r sound]
  exact { keeps with
    todoSound := fun other member => keeps.todoSound other (.tail _ member)
    mem := by
      intro entry member
      rcases e.mem_memEntries_put _ _ entry member with rfl | old
      · exact sound.entry
      · exact keeps.mem entry old
    onDisk := keeps.onDisk.put _ _
    covers := by
      rw [memLayer_put]
      exact covers.right.above keeps.covers
    coversTodo := covers.left
    live := by
      rw [view_put, ← keeps.live, ← above_assoc]
      rfl }

theorem get_eq (keeps : Keeps e wal [] acked files logged) (key : Bytes) :
    e.get key = lastAcked key acked := by
  have live : e.view = ackedLayer acked := keeps.live
  rw [Engine.get_eq, lastAcked_eq, live]

theorem foldl_replayRecord (keeps : Keeps e wal pending acked files logged) :
    Keeps (pending.foldl replayRecord e) wal [] acked files logged := by
  induction pending generalizing e with
  | nil => exact keeps
  | cons r rest ih => exact ih (keeps.replayNext r rest)

end Keeps

def Kept (s : ServerState) : Prop :=
  ∃ files logged, Keeps s.engine s.wal s.pending s.acked files logged

/-- A checkpoint finds no empty value in memory and a start finds none in the log. Lengths fit their
fields, and the files are named by increasing timestamps. -/
def SparesEmpty (s : ServerState) : ServerStep → Prop
  | .write cmd => cmd.Fits
  | .flush ts => ∀ file ∈ s.engine.disk.entries, file.1 < ts
  | .checkpoint => MemFull s.engine
  | .crash => LogFull s.wal
  | _ => True

instance (s : ServerState) (step : ServerStep) : Decidable (SparesEmpty s step) := by
  cases step <;> dsimp only [SparesEmpty] <;> infer_instance

theorem Kept.step (s : ServerState) (step : ServerStep) (kept : Kept s)
    (spares : SparesEmpty s step) : Kept (serverStep s step) := by
  obtain ⟨e, wal, pending, acked⟩ := s
  obtain ⟨files, logged, keeps⟩ := kept
  cases step with
  | write cmd =>
    cases pending with
    | nil => exact ⟨files, logged ++ [commandRecord cmd], keeps.write cmd spares⟩
    | cons r rest => exact ⟨files, logged, keeps⟩
  | swap => exact ⟨files, logged, keeps.swap⟩
  | flush ts =>
    obtain ⟨after, flushed⟩ := keeps.flush ts spares
    exact ⟨after, logged, flushed⟩
  | checkpoint =>
    cases pending with
    | nil => exact ⟨files, e.snapshotLive.map checkpointRecord, keeps.checkpoint spares⟩
    | cons r rest => exact ⟨files, logged, keeps⟩
  | crash => exact ⟨files, logged, keeps.crash spares⟩
  | replayNext =>
    cases pending with
    | nil => exact ⟨files, logged, keeps⟩
    | cons r rest => exact ⟨files, logged, keeps.replayNext r rest⟩

theorem Kept.run (steps : List ServerStep)
    (spares : Guarded serverStep SparesEmpty initial steps) :
    Kept (run serverStep initial steps) :=
  Guarded.invariant Kept.step initial steps ⟨[], [], Keeps.initial⟩ spares

def RecordFull (r : WALRecord) : Prop := r.op = walOpPut → r.value ≠ none ∧ r.value ≠ some []

structure EmptyFree (e : Engine) (pending logged : List WALRecord) : Prop where
  mem : MemFull e
  todo : ∀ r ∈ pending, RecordFull r
  log : ∀ r ∈ logged, RecordFull r

namespace EmptyFree

variable {e : Engine} {wal : Bytes} {pending : List WALRecord} {acked : List Command}
  {files : List (Nat × MemTable)} {logged : List WALRecord}

theorem initial : EmptyFree (new SortedMap.empty) [] [] where
  mem _ member := nomatch member
  todo _ member := nomatch member
  log _ member := nomatch member

theorem logFull (free : EmptyFree e pending logged)
    (keeps : Keeps e wal pending acked files logged) : LogFull wal := by
  rw [LogFull, keeps.log, replay_encodeAll logged keeps.sound]
  intro r member isPut
  obtain ⟨original, inside, rfl⟩ := mem_map.mp member
  obtain ⟨present, nonempty⟩ := free.log original inside isPut
  obtain ⟨op, key, value⟩ := original
  cases value with
  | none => exact absurd rfl present
  | some bytes =>
    have long : bytes ≠ [] := fun empty => nonempty (congrArg some empty)
    simp [WALRecord.readBack, WALRecord.valueBytes, long]

theorem put (full : MemFull e) (key : Bytes) (value : Option Bytes) (nonempty : value ≠ some []) :
    MemFull (e.put key value) := by
  intro entry member
  rcases e.mem_memEntries_put key value entry member with rfl | old
  · exact nonempty
  · exact full entry old

theorem write (free : EmptyFree e [] logged) (cmd : Command) (nonempty : cmd.Nonempty) :
    EmptyFree (applyCommand e cmd) [] (logged ++ [commandRecord cmd]) := by
  obtain ⟨type, key, value⟩ := cmd
  rw [applyCommand_eq]
  cases type with
  | put =>
    refine ⟨put free.mem _ _ (nonempty rfl).2, free.todo, ?_⟩
    exact forall_mem_append.mpr
      ⟨free.log, forall_mem_singleton.mpr fun _ => nonempty rfl⟩
  | delete =>
    refine ⟨put free.mem _ _ (by simp [Command.stored]), free.todo, ?_⟩
    refine forall_mem_append.mpr ⟨free.log, forall_mem_singleton.mpr fun isPut => ?_⟩
    have differ : walOpDelete ≠ walOpPut := by decide
    exact absurd isPut differ

theorem checkpoint (free : EmptyFree e [] logged) (keeps : Keeps e wal [] acked files logged) :
    EmptyFree e [] (e.snapshotLive.map checkpointRecord) := by
  have whole : MemSound e := MemSound.of_memEntries keeps.mem free.mem
  refine ⟨free.mem, free.todo, fun r member isPut => ?_⟩
  obtain ⟨entry, inside, rfl⟩ := mem_map.mp member
  rw [whole.snapshotLive_eq] at inside
  refine ⟨fun nil => ?_, (whole.mergeLive entry inside).2⟩
  have isNil : entry.2 = none := nil
  have differ : walOpDelete ≠ walOpPut := by decide
  rw [checkpointRecord, if_pos isNil] at isPut
  exact differ isPut

theorem crash (free : EmptyFree e pending logged) (keeps : Keeps e wal pending acked files logged) :
    EmptyFree (new e.disk) (replay wal) logged := by
  rw [keeps.replay_eq (free.logFull keeps)]
  exact ⟨nofun, free.log, free.log⟩

theorem replayNext (r : WALRecord) (rest : List WALRecord)
    (free : EmptyFree e (r :: rest) logged) (sound : RecordSound r) :
    EmptyFree (replayRecord e r) rest logged := by
  rw [replayRecord_eq r sound]
  refine ⟨put free.mem _ _ ?_, ?_, free.log⟩
  · rw [recordEntry]
    split_ifs with isPut
    · exact (free.todo r (.head _) isPut).2
    · simp
  · exact fun other member => free.todo other (.tail _ member)

end EmptyFree

def KeptFree (s : ServerState) : Prop :=
  ∃ files logged, Keeps s.engine s.wal s.pending s.acked files logged ∧
    EmptyFree s.engine s.pending logged

theorem KeptFree.step (s : ServerState) (step : ServerStep) (kept : KeptFree s)
    (admissible : Admissible s step) : KeptFree (serverStep s step) := by
  obtain ⟨e, wal, pending, acked⟩ := s
  obtain ⟨files, logged, keeps, free⟩ := kept
  cases step with
  | write cmd =>
    cases pending with
    | nil =>
      exact ⟨files, logged ++ [commandRecord cmd], keeps.write cmd admissible.2,
        free.write cmd admissible.1⟩
    | cons r rest => exact ⟨files, logged, keeps, free⟩
  | swap =>
    have full : MemFull e.swap :=
      fun entry member => free.mem entry (e.mem_memEntries_swap entry member)
    exact ⟨files, logged, keeps.swap, full, free.todo, free.log⟩
  | flush ts =>
    obtain ⟨after, flushed⟩ := keeps.flush ts admissible
    have full : MemFull (e.flushDirty ts) :=
      fun entry member => free.mem entry (e.mem_memEntries_flushDirty ts entry member)
    exact ⟨after, logged, flushed, full, free.todo, free.log⟩
  | checkpoint =>
    cases pending with
    | nil =>
      exact ⟨files, e.snapshotLive.map checkpointRecord, keeps.checkpoint free.mem,
        free.checkpoint keeps⟩
    | cons r rest => exact ⟨files, logged, keeps, free⟩
  | crash => exact ⟨files, logged, keeps.crash (free.logFull keeps), free.crash keeps⟩
  | replayNext =>
    cases pending with
    | nil => exact ⟨files, logged, keeps, free⟩
    | cons r rest =>
      exact ⟨files, logged, keeps.replayNext r rest,
        free.replayNext r rest (keeps.todoSound r (.head _))⟩

theorem KeptFree.run (steps : List ServerStep)
    (admissible : Guarded serverStep Admissible initial steps) :
    KeptFree (run serverStep initial steps) :=
  Guarded.invariant KeptFree.step initial steps
    ⟨[], [], Keeps.initial, EmptyFree.initial⟩ admissible

theorem run_replayNext (s : ServerState) :
    run serverStep s (List.replicate s.pending.length .replayNext) =
      { s with engine := s.pending.foldl replayRecord s.engine, pending := [] } := by
  obtain ⟨e, wal, pending, acked⟩ := s
  induction pending generalizing e with
  | nil => rfl
  | cons r rest ih => exact ih (replayRecord e r)

/-- A crash followed by a start that replays the whole log. -/
def ServerState.restart (s : ServerState) : ServerState :=
  run serverStep s (.crash :: List.replicate (replay s.wal).length .replayNext)

theorem ServerState.restart_eq (s : ServerState) :
    s.restart = { s with engine := replayWAL (new s.engine.disk) s.wal, pending := [] } :=
  run_replayNext (serverStep s .crash)

/-- Wherever the flushes, checkpoints and restarts fall, the server answers with what the last
acknowledged command left under the key, and so does the server behind one more restart. -/
theorem checkpoint_keeps_acked (steps : List ServerStep)
    (admissible : Guarded serverStep Admissible initial steps) :
    let s := run serverStep initial steps
    (s.pending = [] → ∀ key, s.engine.get key = lastAcked key s.acked) ∧
      s.restart.pending = [] ∧ ∀ key, s.restart.engine.get key = lastAcked key s.acked := by
  intro s
  obtain ⟨files, logged, keeps, free⟩ := KeptFree.run steps admissible
  rw [s.restart_eq]
  refine ⟨?_, rfl, (keeps.crash (free.logFull keeps)).foldl_replayRecord.get_eq⟩
  intro ready
  rw [ready] at keeps
  exact keeps.get_eq

theorem checkpoint_keeps_acked_between_flushes : let k := ascii ['k']
    let steps : List ServerStep := [.write ⟨.put, k, some (ascii ['1'])⟩, .swap, .flush 5,
      .write ⟨.put, k, some (ascii ['2'])⟩, .checkpoint, .swap, .flush 7, .checkpoint]
    let s := run serverStep initial steps
    s.restart.engine.get k = lastAcked k s.acked ∧ lastAcked k s.acked = some (ascii ['2']) := by
  intro k steps s
  have kept := checkpoint_keeps_acked steps
    ⟨by decide, trivial, by decide, by decide, trivial, trivial, by decide +kernel, trivial, trivial⟩
  exact ⟨kept.2.2 k, by decide +kernel⟩

theorem lookup_writes (acked : List Command) (key : Bytes) :
    (acked.foldl write empty).storage.lookup key = lastAcked key acked := by
  induction acked using List.reverseRecOn with
  | nil => rfl
  | append_singleton acked cmd ih =>
    rw [foldl_append, foldl_cons, foldl_nil, lastAcked_eq, ackedLayer_snoc]
    by_cases here : key = cmd.key
    · rw [here, lookup_write_self, above_single_self]
      rfl
    · rw [lookup_write_of_ne _ _ _ here, ih, above_single_of_ne _ _ _ _ here,
        lastAcked_eq]

/-- The log, the tables and the files together are the key-value server its callers see. -/
theorem standalone_refines_kvServer (steps : List ServerStep)
    (admissible : Guarded serverStep Admissible initial steps) :
    let s := run serverStep initial steps
    s.pending = [] →
      ∀ key, s.engine.get key =
        (s.acked.foldl write empty).storage.lookup key := by
  intro s ready key
  obtain ⟨files, logged, keeps, _⟩ := KeptFree.run steps admissible
  rw [ready] at keeps
  rw [keeps.get_eq, lookup_writes]

theorem standalone_refines_kvServer_flushed :
    let steps : List ServerStep := [.write ⟨.put, [1], some [2]⟩, .swap, .flush 5]
    let s := run serverStep initial steps
    s.engine.get [1] = (s.acked.foldl write empty).storage.lookup [1] := by
  intro steps s
  exact standalone_refines_kvServer steps ⟨by decide, trivial, by decide, trivial⟩ rfl [1]

theorem mark_length_value_lost (key value : Bytes) (ts : Nat) (small : key.length < 2 ^ 32)
    (long : value.length = tombstoneValLen) :
    let s := run serverStep initial
      [.write ⟨.put, key, some value⟩, .swap, .flush ts, .checkpoint]
    s.restart.engine.get key = none ∧ lastAcked key s.acked = some value := by
  intro s
  refine ⟨?_, lastAcked_single ⟨.put, key, some value⟩⟩
  let entries : List LogEntry := [(key, some value)]
  have metas : (new s.engine.disk).metas = [tableMeta ts entries] := by
    have loaded := loadMeta_tableFile ts entries (by simp [entries]) small
    change List.filterMap loadMeta [(ts, tableFile entries)] = _
    rw [filterMap_cons, loaded]
    rfl
  have read : (new s.engine.disk).readMeta key (tableMeta ts entries) = some none := by
    have found : (new s.engine.disk).disk.lookup ts = some (tableFile entries) := by
      exact SortedMap.lookup_insert_self _ ts (tableFile entries)
    change (if key < key then none else if key < key then none else
      ((new s.engine.disk).disk.lookup ts).bind _) = _
    rw [if_neg (lt_irrefl key), if_neg (lt_irrefl key), found]
    exact readFromSSTable_markLength key value small long
  have files : (new s.engine.disk).getFromSSTables key = some none := by
    rw [getFromSSTables, metas]
    change List.findSome? _ [tableMeta ts entries] = _
    rw [List.findSome?_cons, read]
  rw [get_eq]
  change ((new s.engine.disk).getFromSSTables key).join = none
  rw [files]
  rfl

theorem view_replayRecords_of_ne (records : List WALRecord) (e : Engine) (key : Bytes)
    (different : ∀ r ∈ records, r.key ≠ key) :
    (records.foldl replayRecord e).view key = e.view key := by
  induction records generalizing e with
  | nil => rfl
  | cons r rest ih =>
    have here : key ≠ r.key := (different r (.head _)).symm
    rw [foldl_cons, ih _ fun other member => different other (.tail _ member), replayRecord]
    split_ifs
    · rw [view_put, above_single_of_ne _ _ _ _ here]
    · exact (congrFun (e.view_put r.key none) key).trans (above_single_of_ne _ _ _ _ here)
    · rfl

theorem long_key_lost (key : Bytes) (value : Option Bytes) (long : 2 ^ 32 ≤ key.length) :
    let s := run serverStep initial [.write ⟨.put, key, value⟩]
    s.restart.engine.get key = none ∧ lastAcked key s.acked = value := by
  intro s
  refine ⟨?_, lastAcked_single ⟨.put, key, value⟩⟩
  have different : ∀ r ∈ replay s.wal, r.key ≠ key := by
    intro r member same
    have small := walFormat.records_all _ readRecord_key_lt s.wal r member
    rw [same] at small
    omega
  rw [s.restart_eq, get_eq, replayWAL, view_replayRecords_of_ne _ _ key different]
  rfl

/-- Three ways to lose an acknowledged put: a clock that goes back between two flushes, a value as
long as the tombstone mark, and a key too long for its length field. -/
theorem acked_put_lost :
    (let k := ascii ['k']
      let s := run serverStep initial
        [.write ⟨.put, k, some (ascii ['1'])⟩, .swap, .flush 100,
          .write ⟨.put, k, some (ascii ['2'])⟩, .swap, .flush 50, .checkpoint]
      s.restart.engine.get k = some (ascii ['1']) ∧ lastAcked k s.acked = some (ascii ['2'])) ∧
    (∃ value : Bytes, value.length = 2 ^ 32 - 1 ∧
      let s := run serverStep initial
        [.write ⟨.put, ascii ['k'], some value⟩, .swap, .flush 1, .checkpoint]
      s.restart.engine.get (ascii ['k']) = none ∧ lastAcked (ascii ['k']) s.acked = some value) ∧
    ∃ key : Bytes, key.length = 2 ^ 32 ∧
      let s := run serverStep initial [.write ⟨.put, key, some (ascii ['1'])⟩]
      s.restart.engine.get key = none ∧ lastAcked key s.acked = some (ascii ['1']) := by
  refine ⟨by decide +kernel, ?_, ?_⟩
  · exact ⟨List.replicate (2 ^ 32 - 1) 0, length_replicate,
      mark_length_value_lost (ascii ['k']) _ 1 (by decide) length_replicate⟩
  · exact ⟨List.replicate (2 ^ 32) 0, length_replicate,
      long_key_lost _ _ (le_of_eq length_replicate.symm)⟩

end KairosFlux.Service
