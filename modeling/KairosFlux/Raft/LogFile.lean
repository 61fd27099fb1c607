import KairosFlux.Lib.TornLog
import KairosFlux.Raft.Node

/-! The records of the log file and of the snapshots (`raft/raft_wal.go`, `raft/raft_snapshot.go`):
`[index i64][term i64][length i64][command]`, big-endian, in both. -/

namespace KairosFlux.Raft

open Lib List

def encodeEntry (entry : LogEntry) : Bytes :=
  int64Bytes entry.index ++ beBytes 8 entry.term ++ beBytes 8 entry.command.length ++ entry.command

/-- The longest slice the runtime allocates. -/
def maxAlloc : Nat := 2 ^ 48

def readCommand (index : Int) (term cmdLen : Nat) (body : Bytes) : Option (LogEntry × Bytes) :=
  if maxAlloc < cmdLen ∨ body.length < cmdLen then none
  else some (⟨index, term, body.take cmdLen, false⟩, body.drop cmdLen)

def readEntry (bytes : Bytes) : Option (LogEntry × Bytes) :=
  if bytes.length < 24 then none
  else readCommand (int64Value (bytes.take 8)) (beValue (slice bytes 8 16))
    (beValue (slice bytes 16 24)) (bytes.drop 24)

/-- The numbers of a log entry are integers of the machine, and its command is a slice. -/
structure LogEntry.Fits (entry : LogEntry) : Prop where
  index : Int64Range entry.index
  term : entry.term < 2 ^ 63
  command : entry.command.length ≤ maxAlloc
  plain : entry.isSnapshot = false

instance (entry : LogEntry) : Decidable entry.Fits :=
  decidable_of_iff (Int64Range entry.index ∧ entry.term < 2 ^ 63 ∧
      entry.command.length ≤ maxAlloc ∧ entry.isSnapshot = false)
    ⟨fun all => ⟨all.1, all.2.1, all.2.2.1, all.2.2.2⟩,
      fun fits => ⟨fits.index, fits.term, fits.command, fits.plain⟩⟩

/-- The same of an entry of a snapshot. A term stands for its 64 bits, and the mark is not written. -/
structure LogEntry.Sized (entry : LogEntry) : Prop where
  index : Int64Range entry.index
  term : entry.term < 2 ^ 64
  command : entry.command.length ≤ maxAlloc

theorem LogEntry.Fits.sized {entry : LogEntry} (fits : entry.Fits) : entry.Sized :=
  ⟨fits.index, fits.term.trans (by decide), fits.command⟩

def LogEntry.unmark (entry : LogEntry) : LogEntry := { entry with isSnapshot := false }

variable (entry : LogEntry) (entries : List LogEntry) (n : Nat)

theorem encodeEntry_length : (encodeEntry entry).length = 24 + entry.command.length := by
  simp only [encodeEntry, length_append, int64Bytes_length, beBytes_length]

theorem encodeEntry_append (rest : Bytes) : encodeEntry entry ++ rest = int64Bytes entry.index ++
      (beBytes 8 entry.term ++ (beBytes 8 entry.command.length ++ (entry.command ++ rest))) := by
  simp only [encodeEntry, append_assoc]

theorem readEntry_header (sized : entry.Sized) (body : Bytes) : readEntry (int64Bytes entry.index ++
        (beBytes 8 entry.term ++ (beBytes 8 entry.command.length ++ body))) =
      readCommand entry.index entry.term entry.command.length body := by
  have small : entry.command.length < 2 ^ 64 := sized.command.trans_lt (by decide)
  have first : (int64Bytes entry.index).length = 8 := int64Bytes_length _
  obtain ⟨second, left⟩ := slice_drop (show (int64Bytes entry.index ++ (beBytes 8 entry.term ++
    (beBytes 8 entry.command.length ++ body))).drop 8 = _ from drop_left' first) (by simp : _ = 16)
  obtain ⟨third, behind⟩ := slice_drop left (by simp : _ = 24)
  rw [readEntry, if_neg (by simp; omega), take_left' first, second, third, behind,
    int64Value_int64Bytes _ sized.index, beValue_u64 _ sized.term, beValue_u64 _ small]

theorem readEntry_encodeEntry (rest : Bytes) (sized : entry.Sized) :
    readEntry (encodeEntry entry ++ rest) = some (entry.unmark, rest) := by
  have whole : ¬ (maxAlloc < entry.command.length ∨
      (entry.command ++ rest).length < entry.command.length) := by
    rw [length_append, not_or]
    exact ⟨not_lt.mpr sized.command, by omega⟩
  rw [encodeEntry_append, readEntry_header entry sized, readCommand, if_neg whole, take_left,
    drop_left, LogEntry.unmark]

theorem readEntry_cut (sized : entry.Sized)
    (cut : n < (encodeEntry entry).length) : readEntry ((encodeEntry entry).take n) = none := by
  rw [encodeEntry_length] at cut
  by_cases inHeader : n < 24
  · rw [readEntry, if_pos]
    rw [length_take]
    omega
  · have shape := encodeEntry_append entry []
    rw [append_nil, append_nil] at shape
    have front : (int64Bytes entry.index ++
        (beBytes 8 entry.term ++ beBytes 8 entry.command.length)).length = 24 := by simp
    have regroup : (encodeEntry entry).take n = int64Bytes entry.index ++
        (beBytes 8 entry.term ++ (beBytes 8 entry.command.length ++ entry.command.take (n - 24))) := by
      rw [shape, ← append_assoc, ← append_assoc, append_assoc (int64Bytes entry.index),
        take_append, front, take_of_length_le (by omega)]
      simp only [append_assoc]
    rw [regroup, readEntry_header entry sized, readCommand, if_pos]
    right
    rw [length_take]
    omega

def logFormat : Framing LogEntry where
  encode := encodeEntry
  read := readEntry
  fits := LogEntry.Fits
  readBack := id
  encode_pos entry := by rw [encodeEntry_length]; omega
  read_nil := rfl
  read_encode entry rest fits := by
    rw [readEntry_encodeEntry entry rest fits.sized, LogEntry.unmark, ← fits.plain]
    rfl
  read_cut entry n fits := readEntry_cut entry n fits.sized

/-- `make` does not return when it is asked for the slice of this length. -/
def Oversized (stopped : Bytes) : Prop :=
  24 ≤ stopped.length ∧ maxAlloc < beValue (slice stopped 16 24)
deriving Decidable

/-- `LoadLogs`: the entries up to the first incomplete one. No list stands for a panic. -/
def loadLogs (file : Bytes) : Option (List LogEntry) :=
  if Oversized (logFormat.tornTail file) then none else some (logFormat.records file)

-- A length from 2^63 on, at which `make` panics, is in no snapshot.
def deserializeLogEntries (data : Bytes) : List LogEntry :=
  if data.length < 4 then []
  else (logFormat.scan (beValue (data.take 4)) (data.drop 4)).1

/-- What a crash can leave behind the last whole entry. -/
def Torn (tail : Bytes) : Prop := readEntry tail = none ∧ ¬ Oversized tail

theorem torn_nil : Torn [] := ⟨rfl, by decide⟩

theorem loadLogs_encodeAll (tail : Bytes)
    (fits : ∀ entry ∈ entries, entry.Fits) (torn : Torn tail) :
    loadLogs (logFormat.encodeAll entries ++ tail) = some entries := by
  rcases logFormat.records_encodeAll entries tail fits torn.1 with ⟨read, left⟩
  rw [loadLogs, left, if_neg torn.2, read]
  exact congrArg some (map_id entries)

theorem not_oversized_take (fits : entry.Fits) : ¬ Oversized ((encodeEntry entry).take n) := by
  intro oversized
  have long : 24 ≤ n := by
    have length := oversized.1
    rw [length_take] at length
    omega
  have length : slice ((encodeEntry entry).take n) 16 24 = beBytes 8 entry.command.length := by
    have shape := encodeEntry_append entry []
    rw [append_nil, append_nil, ← append_assoc] at shape
    rw [slice, take_take, min_eq_left long, ← slice, shape]
    exact slice_middle _ _ _ _ _ (by simp) (by simp)
  have impossible := oversized.2
  rw [length, beValue_u64 _ (fits.command.trans_lt (by decide))] at impossible
  exact absurd impossible (not_lt.mpr fits.command)

theorem take_encodeAll_torn (fits : ∀ entry ∈ entries, entry.Fits) :
    ∃ whole torn, whole <+: entries ∧
      (logFormat.encodeAll entries).take n = logFormat.encodeAll whole ++ torn ∧ Torn torn := by
  rcases logFormat.take_encodeAll_cut entries n with ⟨whole, torn, front, cut, part⟩
  refine ⟨whole, torn, front, cut, ?_⟩
  rcases part with rfl | ⟨entry, member, m, less, rfl⟩
  · exact torn_nil
  · exact ⟨readEntry_cut entry m (fits entry member).sized less, not_oversized_take entry m (fits entry member)⟩

theorem serializeLogEntries_cons (first : LogEntry) (rest : List LogEntry) :
    serializeLogEntries (first :: rest) =
      beBytes 4 (first :: rest).length ++ logFormat.encodeAll (first :: rest) := by
  rw [Framing.encodeAll, ← flatMap_def]
  rfl

theorem take_serializeLogEntries (few : entries.length < 2 ^ 32) :
    beValue ((serializeLogEntries entries).take 4) = entries.length := by
  cases entries with
  | nil => rfl
  | cons first rest =>
    rw [serializeLogEntries_cons, take_left' (beBytes_length 4 _), beValue_u32 _ few]

theorem drop_serializeLogEntries :
    (serializeLogEntries entries).drop 4 = logFormat.encodeAll entries := by
  cases entries with
  | nil => rfl
  | cons first rest => rw [serializeLogEntries_cons, drop_left' (beBytes_length 4 _)]

theorem deserializeLogEntries_eq_scan (few : entries.length < 2 ^ 32) :
    deserializeLogEntries (serializeLogEntries entries) =
      (logFormat.scan entries.length (logFormat.encodeAll entries ++ [])).1 := by
  rw [deserializeLogEntries, take_serializeLogEntries entries few, drop_serializeLogEntries, append_nil]
  split_ifs with short
  · cases entries with
    | nil => rfl
    | cons first rest =>
      rw [serializeLogEntries_cons, length_append, beBytes_length] at short
      omega
  · rfl

theorem deserializeLogEntries_serializeLogEntries
    (fits : ∀ entry ∈ entries, entry.Fits) (few : entries.length < 2 ^ 32) :
    deserializeLogEntries (serializeLogEntries entries) = entries := by
  rw [deserializeLogEntries_eq_scan entries few, logFormat.scan_encodeAll _ [] _ fits rfl le_rfl]
  exact map_id _

end KairosFlux.Raft
