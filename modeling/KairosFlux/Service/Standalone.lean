import KairosFlux.Service.KVServer
import KairosFlux.Storage.Engine
import KairosFlux.Storage.WAL

/-! The standalone server (`service/fsm.go`): a write goes to the log and then to the engine, a start
replays the log into the engine, and a checkpoint replaces the log by the tables in memory. -/

namespace KairosFlux.Service

open Lib Storage List Layer Engine

def Command.stored (cmd : Command) : Option Bytes :=
  match cmd.type with
  | .put => cmd.value
  | .delete => none

/-- The record that `applyStandalone` appends. -/
def commandRecord (cmd : Command) : WALRecord :=
  match cmd.type with
  | .put => ⟨walOpPut, cmd.key, cmd.value⟩
  | .delete => ⟨walOpDelete, cmd.key, none⟩

def applyCommand (e : Engine) (cmd : Command) : Engine :=
  match cmd.type with
  | .put => e.put cmd.key cmd.value
  | .delete => e.delete cmd.key

/-- The callback of `replayWAL`. -/
def replayRecord (e : Engine) (r : WALRecord) : Engine :=
  if r.op = walOpPut then e.put r.key r.value
  else if r.op = walOpDelete then e.delete r.key
  else e

def replayWAL (e : Engine) (wal : Bytes) : Engine := (replay wal).foldl replayRecord e

def checkpointRecord (entry : LogEntry) : WALRecord :=
  ⟨if entry.2 = none then walOpDelete else walOpPut, entry.1, entry.2⟩

def checkpointLog (e : Engine) : Bytes :=
  walFormat.encodeAll (e.snapshotLive.map checkpointRecord)

/-- A put has a value with at least one byte. -/
def Command.Nonempty (cmd : Command) : Prop :=
  cmd.type = .put → cmd.value ≠ none ∧ cmd.value ≠ some []
deriving Decidable

/-- The key fits the length fields of the log and of the tables, and so does the value, which must
also differ in length from the tombstone mark. -/
def Command.Fits (cmd : Command) : Prop :=
  cmd.key.length < 2 ^ 32 ∧ (cmd.value.getD []).length < 2 ^ 32 - 1
deriving Decidable

/-- An entry that the log and the tables give back as it is. -/
def EntrySound (entry : LogEntry) : Prop := EntryFits entry ∧ entry.2 ≠ some []

def Command.entry (cmd : Command) : LogEntry := (cmd.key, cmd.stored)

variable {e : Engine}

variable (records : List WALRecord) (entries : List LogEntry) (entry : LogEntry) (cmd : Command)

theorem Command.entry_sound (nonempty : cmd.Nonempty) (fits : cmd.Fits) : EntrySound cmd.entry := by
  obtain ⟨type, key, value⟩ := cmd
  cases type with
  | put =>
    refine ⟨⟨fits.1, ?_⟩, (nonempty rfl).2⟩
    intro bytes shape
    have same : value = some bytes := shape
    have small := fits.2
    rw [same] at small
    exact small
  | delete =>
    refine ⟨⟨fits.1, ?_⟩, ?_⟩
    · intro bytes shape
      exact absurd shape (by simp [Command.entry, Command.stored])
    · simp [Command.entry, Command.stored]

theorem commandRecord_eq (nonempty : cmd.Nonempty) :
    commandRecord cmd = checkpointRecord cmd.entry := by
  obtain ⟨type, key, value⟩ := cmd
  cases type with
  | put =>
    have present : value ≠ none := (nonempty rfl).1
    simp [commandRecord, checkpointRecord, Command.entry, Command.stored, present]
  | delete => rfl

theorem KVServer.lookup_write_self (kv : KVServer) (cmd : Command) :
    (kv.write cmd).storage.lookup cmd.key = cmd.stored := by
  obtain ⟨type, key, value⟩ := cmd
  cases type with
  | put =>
    cases value with
    | none => exact (kv.storage.lookup_erase key key).trans (if_pos rfl)
    | some bytes => exact kv.storage.lookup_insert_self key bytes
  | delete => exact (kv.storage.lookup_erase key key).trans (if_pos rfl)

theorem KVServer.lookup_write_of_ne (kv : KVServer) (cmd : Command) (key : Bytes)
    (different : key ≠ cmd.key) :
    (kv.write cmd).storage.lookup key = kv.storage.lookup key := by
  obtain ⟨type, written, value⟩ := cmd
  cases type with
  | put =>
    cases value with
    | none => exact (kv.storage.lookup_erase written key).trans (if_neg different)
    | some bytes => exact kv.storage.lookup_insert_of_ne written key bytes different
  | delete => exact (kv.storage.lookup_erase written key).trans (if_neg different)

theorem applyCommand_eq : applyCommand e cmd = e.put cmd.key cmd.stored := by
  rw [applyCommand, Command.stored]
  cases cmd.type <;> rfl

theorem replayRecord_checkpointRecord :
    replayRecord e (checkpointRecord entry) = e.put entry.1 entry.2 := by
  obtain ⟨key, value⟩ := entry
  cases value with
  | none | some => rfl

theorem checkpointRecord_fits (sound : EntrySound entry) : (checkpointRecord entry).Fits := by
  obtain ⟨key, value⟩ := entry
  refine ⟨sound.1.1, ?_⟩
  cases value with
  | none => simp [checkpointRecord, WALRecord.valueBytes]
  | some bytes =>
    have small : bytes.length < 2 ^ 32 - 1 := sound.1.2 bytes rfl
    change bytes.length < 2 ^ 32
    omega

theorem checkpointRecord_readBack (sound : EntrySound entry) :
    (checkpointRecord entry).readBack = checkpointRecord entry := by
  obtain ⟨key, value⟩ := entry
  cases value with
  | none => rfl
  | some bytes =>
    have present : bytes ≠ [] := fun empty => sound.2 (congrArg some empty)
    simp [checkpointRecord, WALRecord.readBack, WALRecord.valueBytes, present]

theorem replay_checkpointRecords (sound : ∀ entry ∈ entries, EntrySound entry) :
    replay (walFormat.encodeAll (entries.map checkpointRecord)) = entries.map checkpointRecord := by
  have fits : ∀ r ∈ entries.map checkpointRecord, r.Fits := by
    intro r member
    obtain ⟨entry, inside, rfl⟩ := mem_map.mp member
    exact checkpointRecord_fits entry (sound entry inside)
  have whole := (walFormat.records_encodeAll (entries.map checkpointRecord) [] fits rfl).1
  rw [append_nil] at whole
  rw [replay, whole, map_map]
  apply map_congr_left
  intro entry member
  exact checkpointRecord_readBack entry (sound entry member)

def logLayer (entries : List LogEntry) : Layer Bytes (Option Bytes) :=
  stack (entries.map fun entry => single entry.1 entry.2)

theorem logLayer_command : logLayer (entries ++ [cmd.entry]) =
      above (single cmd.key cmd.stored) (logLayer entries) := by
  rw [logLayer, map_append]
  exact stack_snoc _ _

theorem view_replayRecords (e : Engine) :
    ((entries.map checkpointRecord).foldl replayRecord e).view =
      above (logLayer entries) e.view := by
  induction entries generalizing e with
  | nil => rfl
  | cons entry rest ih =>
    rw [map_cons, foldl_cons, ih, replayRecord_checkpointRecord, view_put, ← above_assoc]
    rfl

theorem get_replayWAL {files : List (Nat × MemTable)} (onDisk : OnDisk e files)
    (entries : List LogEntry) (sound : ∀ entry ∈ entries, EntrySound entry) (key : Bytes) :
    (replayWAL (new e.disk) (walFormat.encodeAll (entries.map checkpointRecord))).get key =
      (above (logLayer entries) e.diskLayer key).join := by
  have replayed : (replayWAL (new e.disk)
      (walFormat.encodeAll (entries.map checkpointRecord))).view =
        above (logLayer entries) e.diskLayer := by
    calc
      _ = ((entries.map checkpointRecord).foldl replayRecord (new e.disk)).view := by
        rw [replayWAL, replay_checkpointRecords entries sound]
      _ = above (logLayer entries) (new e.disk).view := view_replayRecords entries _
      _ = above (logLayer entries) e.diskLayer := by rw [onDisk.view_new]
  rw [get_eq, replayed]

/-- What the replay of a record leaves under its key. -/
def recordEntry (r : WALRecord) : LogEntry := (r.key, if r.op = walOpPut then r.value else none)

structure RecordSound (r : WALRecord) : Prop where
  fits : r.Fits
  entry : EntryFits (recordEntry r)
  known : r.op = walOpPut ∨ r.op = walOpDelete ∧ r.value = none

/-- A put in the log has value bytes. -/
def LogFull (wal : Bytes) : Prop := ∀ r ∈ replay wal, r.op = walOpPut → r.value ≠ none
deriving Decidable

def MemFull (e : Engine) : Prop := ∀ entry ∈ e.memEntries, entry.2 ≠ some []
deriving Decidable

@[simp] theorem recordEntry_commandRecord : recordEntry (commandRecord cmd) = cmd.entry := by
  obtain ⟨type, key, value⟩ := cmd
  cases type <;> rfl

@[simp] theorem recordEntry_checkpointRecord : recordEntry (checkpointRecord entry) = entry := by
  obtain ⟨key, value⟩ := entry
  cases value <;> rfl

theorem commandRecord_sound (fits : cmd.Fits) : RecordSound (commandRecord cmd) := by
  obtain ⟨type, key, value⟩ := cmd
  have short : (value.getD []).length < 2 ^ 32 - 1 := fits.2
  cases type with
  | put =>
    refine ⟨⟨fits.1, ?_⟩, ⟨fits.1, fun bytes shape => ?_⟩, .inl rfl⟩
    · change (value.getD []).length < 2 ^ 32
      omega
    · have same : value = some bytes := shape
      rw [same] at short
      exact short
  | delete =>
    refine ⟨⟨fits.1, ?_⟩, ⟨fits.1, fun bytes shape => ?_⟩, .inr ⟨rfl, rfl⟩⟩
    · exact Nat.two_pow_pos 32
    · cases shape

theorem checkpointRecord_sound (fits : EntryFits entry) : RecordSound (checkpointRecord entry) := by
  obtain ⟨key, value⟩ := entry
  cases value with
  | none => exact ⟨⟨fits.1, Nat.two_pow_pos 32⟩, fits, .inr ⟨rfl, rfl⟩⟩
  | some bytes =>
    have small : bytes.length < 2 ^ 32 - 1 := fits.2 bytes rfl
    refine ⟨⟨fits.1, ?_⟩, fits, .inl rfl⟩
    change bytes.length < 2 ^ 32
    omega

theorem replayRecord_eq (r : WALRecord) (sound : RecordSound r) :
    replayRecord e r = e.put (recordEntry r).1 (recordEntry r).2 := by
  rw [replayRecord, recordEntry]
  rcases sound.known with isPut | ⟨isDelete, _⟩
  · rw [if_pos isPut, if_pos isPut]
  · have notPut : r.op ≠ walOpPut := by rw [isDelete]; decide
    rw [if_neg notPut, if_pos isDelete, if_neg notPut]
    rfl

/-- What a log says, the later record on top. -/
def recordLayer (records : List WALRecord) : Layer Bytes (Option Bytes) :=
  logLayer (records.map recordEntry)

theorem recordLayer_snoc : recordLayer (records ++ [commandRecord cmd]) =
      above (single cmd.key cmd.stored) (recordLayer records) := by
  rw [recordLayer, map_append, map_singleton, recordEntry_commandRecord]
  exact logLayer_command _ cmd

theorem recordLayer_checkpoint : recordLayer (entries.map checkpointRecord) = logLayer entries := by
  have same : recordEntry ∘ checkpointRecord = id := funext recordEntry_checkpointRecord
  rw [recordLayer, map_map, same, map_id]

theorem replay_encodeAll (sound : ∀ r ∈ records, RecordSound r) :
    replay (walFormat.encodeAll records) = records.map WALRecord.readBack := by
  have whole := (walFormat.records_encodeAll records [] (fun r member => (sound r member).fits) rfl).1
  rw [append_nil] at whole
  exact whole

theorem replay_full (sound : ∀ r ∈ records, RecordSound r)
    (full : LogFull (walFormat.encodeAll records)) :
    replay (walFormat.encodeAll records) = records := by
  have same : ∀ r ∈ records, r.readBack = r := by
    intro r member
    have delivered : r.readBack ∈ replay (walFormat.encodeAll records) := by
      rw [replay_encodeAll records sound]
      exact mem_map_of_mem member
    obtain ⟨op, key, value⟩ := r
    rcases (sound _ member).known with isPut | ⟨_, rfl⟩
    · have present := full _ delivered isPut
      cases value with
      | none => exact absurd rfl present
      | some bytes =>
        have nonempty : bytes ≠ [] := by
          rintro rfl
          exact present rfl
        simp [WALRecord.readBack, WALRecord.valueBytes, nonempty]
    · rfl
  rw [replay_encodeAll records sound, map_congr_left same, map_id']

structure MemSound (e : Engine) : Prop where
  active : ∀ entry ∈ e.active.entries, EntrySound entry
  dirty : ∀ table, e.dirty = some table → ∀ entry ∈ table.entries, EntrySound entry

namespace MemSound

theorem new (disk : SortedMap Nat SSTableFile) : MemSound (Engine.new disk) where
  active _ member := nomatch member
  dirty _ shape := absurd shape (by simp [Engine.new])

theorem of_memEntries (fits : ∀ entry ∈ e.memEntries, EntryFits entry) (full : MemFull e) :
    MemSound e where
  active entry member :=
    ⟨fits entry (mem_append_left _ member), full entry (mem_append_left _ member)⟩
  dirty table flushing entry member :=
    have inside := e.dirty_subset_memEntries table flushing entry member
    ⟨fits entry inside, full entry inside⟩

section

variable (mem : MemSound e)
include mem

theorem put (entry : LogEntry) (sound : EntrySound entry) : MemSound (e.put entry.1 entry.2) where
  active other member := by
    rcases SortedMap.mem_insertIn entry.1 entry.2 e.active.entries other member with rfl | old
    · exact sound
    · exact mem.active other old
  dirty := mem.dirty

theorem swap : MemSound e.swap := by
  rw [Engine.swap]
  split_ifs
  · constructor
    · intro entry member
      cases member
    · intro table shape
      rw [← Option.some.inj shape]
      exact mem.active
  · exact mem

theorem flushDirty (ts : Nat) : MemSound (e.flushDirty ts) := by
  rcases e.flushDirty_cases ts with same | ⟨table, _, _, next⟩
  · rw [same]
    exact mem
  · rw [next]
    exact ⟨mem.active, fun _ shape => absurd shape (by simp)⟩

theorem dirtyEntries : ∀ entry ∈ e.dirtyEntries, EntrySound entry := by
  intro entry member
  rw [Engine.dirtyEntries] at member
  cases flushing : e.dirty with
  | none =>
    rw [flushing] at member
    cases member
  | some table =>
    rw [flushing] at member
    exact mem.dirty table flushing entry member

theorem mergeLive : ∀ entry ∈ mergeLive e.active.entries e.dirtyEntries, EntrySound entry := by
  intro entry member
  rcases mem_mergeLive _ _ entry member with inActive | inDirty
  · exact mem.active entry inActive
  · exact mem.dirtyEntries entry inDirty

-- Copying changes only empty values, and a sound entry has none.
theorem snapshotLive_eq : e.snapshotLive = Engine.mergeLive e.active.entries e.dirtyEntries := by
  have copied : ∀ entry ∈ Engine.mergeLive e.active.entries e.dirtyEntries,
      (entry.1, Engine.copyValue entry.2) = entry := by
    intro entry member
    have sound := mem.mergeLive entry member
    obtain ⟨key, value⟩ := entry
    match value with
    | none => rfl
    | some [] => exact absurd rfl sound.2
    | some (byte :: rest) => rfl
  rw [snapshotLive, map_congr_left copied, map_id']

theorem logLayer_snapshotLive : logLayer e.snapshotLive = e.memLayer := by
  have sorted := Engine.mergeLive_sorted _ _ e.active.sorted e.dirtyEntries_sorted
  calc
    logLayer e.snapshotLive =
        ofEntries (Engine.mergeLive e.active.entries e.dirtyEntries) := by
      rw [mem.snapshotLive_eq, logLayer, stack_singles _ sorted]
    _ = above (ofEntries e.active.entries) (ofEntries e.dirtyEntries) :=
      Engine.ofEntries_mergeLive _ _ e.active.sorted
    _ = e.memLayer := by
      rw [e.ofEntries_dirtyEntries]
      rfl

end

end MemSound

end KairosFlux.Service
