import KairosFlux.Lib.Checked
import KairosFlux.Raft.LogFile

/-! Snapshot data from a peer or a file (`raft/raft_snapshot.go`). A length is added to the offset before
it is compared with what is left, so one that makes the sum wrap around reaches `make`. -/

namespace KairosFlux.Raft

open Lib List

variable (size : Nat)

/-- One turn of the loop of `DeserializeLogEntries` over data of the size, with the bytes from the
offset on. Nothing stands for `break`. -/
def readSnapshotEntry (bytes : Bytes) : Checked (Option (LogEntry × Bytes)) :=
  if bytes.length < 24 then pure none
  else
    let body := bytes.drop 24
    let cmdLen := int64Value (slice bytes 16 24)
    if size < Int.bmod (size - body.length + cmdLen) (2 ^ 64) then pure none
    else if cmdLen < 0 ∨ maxAlloc < cmdLen then .panic
    else pure (some (⟨int64Value (bytes.take 8), beValue (slice bytes 8 16), body.take cmdLen.toNat,
      false⟩, body.drop cmdLen.toNat))

def readSnapshotEntries : Nat → Bytes → Checked (List LogEntry)
  | 0, _ => pure []
  | count + 1, bytes => do
    match ← readSnapshotEntry size bytes with
    | none => pure []
    | some (entry, rest) =>
      let entries ← readSnapshotEntries count rest
      pure (entry :: entries)

/-- `DeserializeLogEntries` of any bytes. -/
def deserializeSnapshot (data : Bytes) : Checked (List LogEntry) :=
  if data.length < 4 then pure []
  else readSnapshotEntries data.length (beValue (data.take 4)) (data.drop 4)

/-- The length in front of these bytes is in range, and so is the offset behind the command. -/
def InRange (bytes : Bytes) : Prop :=
  24 ≤ bytes.length → size - (bytes.length - 24) + beValue (slice bytes 16 24) < 2 ^ 63
deriving Decidable

/-- Where the loop meets an entry that is not whole, the length in it is in range. -/
def StopsInRange (data : Bytes) : Prop :=
  let count := beValue (data.take 4)
  let read := logFormat.scan count (data.drop 4)
  read.1.length < count → InRange data.length read.2
deriving Decidable

variable {size}

theorem readSnapshotEntry_eq (slice : size ≤ maxAlloc) (bytes : Bytes) (inside : bytes.length ≤ size)
    (stops : readEntry bytes = none → InRange size bytes) :
    readSnapshotEntry size bytes = .ok (readEntry bytes) := by
  rw [readSnapshotEntry, readEntry] at *
  by_cases short : bytes.length < 24
  · rw [if_pos short, if_pos short]
    rfl
  · have body : (bytes.drop 24).length = bytes.length - 24 := length_drop
    rw [if_neg short] at stops ⊢
    rw [if_neg short]
    generalize hu : beValue (Lib.slice bytes 16 24) = cmdLen at stops ⊢
    have range : size - (bytes.length - 24) + cmdLen < 2 ^ 63 := by
      by_cases long : maxAlloc < cmdLen ∨ (bytes.drop 24).length < cmdLen
      · rw [readCommand, if_pos long, InRange, hu] at stops
        exact stops rfl (not_lt.mp short)
      · rw [maxAlloc] at slice long
        omega
    have value : int64Value (Lib.slice bytes 16 24) = cmdLen := by
      rw [int64Value, hu, if_pos (by omega)]
    have sum : Int.bmod (size - (bytes.drop 24).length + cmdLen) (2 ^ 64) =
        size - (bytes.drop 24).length + cmdLen := by
      apply Int.bmod_eq_of_le <;> omega
    simp only [value, sum, Int.toNat_natCast, readCommand]
    by_cases long : (bytes.drop 24).length < cmdLen
    · rw [if_pos (by omega), if_pos (.inr long)]
      rfl
    · rw [maxAlloc] at *
      rw [if_neg (by omega), if_neg (by omega), if_neg (by omega)]
      rfl

theorem readEntry_within {bytes rest : Bytes} {entry : LogEntry}
    (read : readEntry bytes = some (entry, rest)) : entry.command <:+: bytes ∧ rest <:+ bytes := by
  rw [readEntry, readCommand] at read
  split_ifs at read
  cases read
  exact ⟨(List.take_prefix _ _).isInfix.trans (drop_suffix _ _).isInfix,
    (drop_suffix _ _).trans (drop_suffix _ _)⟩

theorem readSnapshotEntries_eq (slice : size ≤ maxAlloc) (count : Nat) (bytes : Bytes)
    (inside : bytes.length ≤ size)
    (stops : (logFormat.scan count bytes).1.length < count →
      InRange size (logFormat.scan count bytes).2) :
    readSnapshotEntries size count bytes = .ok (logFormat.scan count bytes).1 := by
  induction count generalizing bytes with
  | zero => rfl
  | succ count ih =>
    have first := readSnapshotEntry_eq slice bytes inside
    rw [Framing.scan, show logFormat.read = readEntry from rfl] at stops ⊢
    cases read : readEntry bytes with
    | none =>
      rw [read] at stops first
      rw [readSnapshotEntries, first fun _ => stops (Nat.succ_pos count)]
      rfl
    | some found =>
      obtain ⟨entry, rest⟩ := found
      rw [read] at stops first
      have shorter := (readEntry_within read).2.length_le
      have more := ih rest (shorter.trans inside) fun fewer => stops (Nat.succ_lt_succ fewer)
      rw [readSnapshotEntries, first (by simp), Checked.ok_bind]
      simp only [more]
      rfl

theorem scan_within (count : Nat) (bytes : Bytes) :
    ∀ entry ∈ (logFormat.scan count bytes).1, entry.command <:+: bytes := by
  induction count generalizing bytes with
  | zero => simp [Framing.scan]
  | succ count ih =>
    rw [Framing.scan, show logFormat.read = readEntry from rfl]
    cases read : readEntry bytes with
    | none => simp
    | some found =>
      obtain ⟨entry, rest⟩ := found
      rcases readEntry_within read with ⟨part, behind⟩
      exact forall_mem_cons.mpr ⟨part, fun other member => (ih rest other member).trans behind.isInfix⟩

theorem deserializeSnapshot_eq (data : Bytes) (slice : data.length ≤ maxAlloc)
    (stops : StopsInRange data) : deserializeSnapshot data = .ok (deserializeLogEntries data) := by
  rw [deserializeSnapshot, deserializeLogEntries]
  split_ifs
  · rfl
  · exact readSnapshotEntries_eq slice _ _ (drop_suffix _ _).length_le stops

def snapshotFormat : Framing LogEntry where
  encode := encodeEntry
  read := readEntry
  fits := LogEntry.Sized
  readBack := LogEntry.unmark
  encode_pos := logFormat.encode_pos
  read_nil := logFormat.read_nil
  read_encode := readEntry_encodeEntry
  read_cut := readEntry_cut

theorem scan_snapshotFormat (count : Nat) (bytes : Bytes) :
    snapshotFormat.scan count bytes = logFormat.scan count bytes := by
  induction count generalizing bytes with
  | zero => rfl
  | succ count ih =>
    simp only [Framing.scan, ih]
    rfl

theorem deserializeSnapshot_serializeLogEntries (entries : List LogEntry)
    (sized : ∀ entry ∈ entries, entry.Sized) (few : entries.length < 2 ^ 32)
    (slice : (serializeLogEntries entries).length ≤ maxAlloc) :
    deserializeSnapshot (serializeLogEntries entries) = .ok (entries.map LogEntry.unmark) := by
  have read := snapshotFormat.scan_encodeAll entries [] _ sized rfl le_rfl
  rw [scan_snapshotFormat, show snapshotFormat.encodeAll = logFormat.encodeAll from rfl] at read
  rw [deserializeSnapshot_eq _ slice, deserializeLogEntries_eq_scan entries few, read]
  · rfl
  · rw [append_nil] at read
    rw [StopsInRange, take_serializeLogEntries entries few, drop_serializeLogEntries, read]
    intro fewer
    simp at fewer

def oneEntry (cmdLen : Bytes) : Bytes := [0, 0, 0, 1] ++ replicate 16 0 ++ cmdLen

end KairosFlux.Raft
