import KairosFlux.Lib.Runs
import KairosFlux.Lib.TornLog

/-! The write-ahead log of the standalone mode (`storage/wal.go`).

Records are appended in groups and a group is acknowledged after its sync. A crash keeps some of
the bytes of the group being written, and the next start opens the file for appending as it is. -/

namespace KairosFlux.Storage

open Lib List

def walOpPut : UInt8 := 1

def walOpDelete : UInt8 := 2

/-- `none` is the nil slice. -/
structure WALRecord where
  op : UInt8
  key : Bytes
  value : Option Bytes
  deriving DecidableEq

def WALRecord.valueBytes (r : WALRecord) : Bytes := r.value.getD []

/-- `[op u8][klen u32][vlen u32][key][value]`, big-endian. -/
def encodeRecord (r : WALRecord) : Bytes :=
  r.op :: (beBytes 4 r.key.length ++ (beBytes 4 r.valueBytes.length ++ (r.key ++ r.valueBytes)))

/-- The part of the replay loop after the header. -/
def readBody (op : UInt8) (klen vlen : Nat) (body : Bytes) : Option (WALRecord × Bytes) :=
  if body.length < klen then none
  else
    let rest := body.drop klen
    if vlen = 0 then some (⟨op, body.take klen, none⟩, rest)
    else if rest.length < vlen then none
    else some (⟨op, body.take klen, some (rest.take vlen)⟩, rest.drop vlen)

def readRecord (bytes : Bytes) : Option (WALRecord × Bytes) :=
  if bytes.length < 9 then none
  else
    readBody (bytes.headD 0) (beValue (slice bytes 1 5)) (beValue (slice bytes 5 9)) (bytes.drop 9)

def WALRecord.Fits (r : WALRecord) : Prop := r.key.length < 2 ^ 32 ∧ r.valueBytes.length < 2 ^ 32
deriving Decidable

/-- A record as the replay delivers it: an empty value comes back as the nil slice. -/
def WALRecord.readBack (r : WALRecord) : WALRecord :=
  { r with value := if r.valueBytes = [] then none else some r.valueBytes }

theorem readRecord_header (op : UInt8) (klen vlen : Nat) (body : Bytes) (kSmall : klen < 2 ^ 32)
    (vSmall : vlen < 2 ^ 32) :
    readRecord (op :: (beBytes 4 klen ++ (beBytes 4 vlen ++ body))) = readBody op klen vlen body := by
  generalize shape : op :: (beBytes 4 klen ++ (beBytes 4 vlen ++ body)) = bytes
  have long : ¬ bytes.length < 9 := by
    rw [← shape]
    simp only [length_cons, length_append, beBytes_length]
    omega
  obtain ⟨atKey, left⟩ := slice_drop (show bytes.drop 1 = beBytes 4 klen ++ (beBytes 4 vlen ++ body) by
    rw [← shape, drop_one, tail_cons]) (by simp : _ = 5)
  obtain ⟨atValue, after⟩ := slice_drop left (by simp : _ = 9)
  rw [readRecord, if_neg long, atKey, atValue, after, beValue_u32 klen kSmall,
    beValue_u32 vlen vSmall, ← shape]
  rfl

theorem readRecord_encodeRecord (r : WALRecord) (rest : Bytes) (fits : r.Fits) :
    readRecord (encodeRecord r ++ rest) = some (r.readBack, rest) := by
  have regroup : encodeRecord r ++ rest = r.op :: (beBytes 4 r.key.length ++
      (beBytes 4 r.valueBytes.length ++ (r.key ++ (r.valueBytes ++ rest)))) := by
    simp only [encodeRecord, cons_append, append_assoc]
  rw [regroup, readRecord_header _ _ _ _ fits.1 fits.2, readBody]
  have enough : ¬ (r.key ++ (r.valueBytes ++ rest)).length < r.key.length := by
    rw [length_append]
    omega
  rw [if_neg enough, drop_left, take_left]
  by_cases empty : r.valueBytes = []
  · simp [WALRecord.readBack, empty]
  · have nonzero : r.valueBytes.length ≠ 0 := fun zero => empty (length_eq_zero_iff.mp zero)
    have inside : ¬ (r.valueBytes ++ rest).length < r.valueBytes.length := by
      rw [length_append]
      omega
    simp only [if_neg nonzero, if_neg inside, take_left, drop_left, WALRecord.readBack,
      if_neg empty]

-- A cut in the header, in the key and in the value are told apart by the three length tests.
theorem readRecord_cut (r : WALRecord) (n : Nat) (fits : r.Fits) (cut : n < (encodeRecord r).length) :
    readRecord ((encodeRecord r).take n) = none := by
  have total : (encodeRecord r).length = 9 + r.key.length + r.valueBytes.length := by
    simp only [encodeRecord, length_cons, length_append, beBytes_length]
    omega
  by_cases inHeader : n < 9
  · rw [readRecord, if_pos]
    rw [length_take]
    omega
  · have front : (r.op :: (beBytes 4 r.key.length ++ beBytes 4 r.valueBytes.length)).length = 9 := by
      simp
    have regroup : (encodeRecord r).take n = r.op :: (beBytes 4 r.key.length ++
        (beBytes 4 r.valueBytes.length ++ (r.key ++ r.valueBytes).take (n - 9))) := by
      rw [encodeRecord, ← append_assoc, ← cons_append, take_append, front,
        take_of_length_le (by omega)]
      simp only [cons_append, append_assoc]
    rw [regroup, readRecord_header _ _ _ _ fits.1 fits.2, readBody]
    have body : ((r.key ++ r.valueBytes).take (n - 9)).length = n - 9 := by
      rw [length_take, length_append]
      omega
    by_cases inKey : n - 9 < r.key.length
    · rw [if_pos (by omega)]
    · have nonzero : r.valueBytes.length ≠ 0 := by omega
      rw [if_neg (by omega)]
      simp only [if_neg nonzero]
      rw [if_pos]
      rw [length_drop]
      omega

def walFormat : Framing WALRecord where
  encode := encodeRecord
  read := readRecord
  fits := WALRecord.Fits
  readBack := WALRecord.readBack
  encode_pos _ := by simp [encodeRecord]
  read_nil := rfl
  read_encode := readRecord_encodeRecord
  read_cut := readRecord_cut

/-- `Replay`: the records from the start of the file up to the first incomplete one. -/
def replay (file : Bytes) : List WALRecord := walFormat.records file

theorem readRecord_key_lt (bytes : Bytes) (r : WALRecord) (rest : Bytes)
    (read : readRecord bytes = some (r, rest)) : r.key.length < 2 ^ 32 := by
  have small := beValue_slice_lt bytes 1 5
  rw [readRecord] at read
  split_ifs at read
  generalize beValue (slice bytes 1 5) = klen at small read
  have key : r.key = (bytes.drop 9).take klen := by
    simp only [readBody] at read
    split_ifs at read
    · exact congrArg (fun found => found.1.key) (Option.some.inj read).symm
    · exact congrArg (fun found => found.1.key) (Option.some.inj read).symm
  rw [key, length_take]
  omega

/-- The log with the records whose `Append` returned and all records passed to `Append`. -/
structure WALState where
  file : Bytes
  acked : List WALRecord
  passed : List WALRecord

def WALState.initial : WALState := ⟨[], [], []⟩

/-- `commit` writes and syncs a batch and acknowledges it. `crash` stops inside a commit with `kept`
bytes of its batch in the file, and the log is opened again by `NewWAL`, which changes nothing in
the file. `restart` opens it again with no commit under way. -/
inductive WALStep where
  | commit (batch : List WALRecord)
  | crash (batch : List WALRecord) (kept : Nat)
  | restart

def walStep (s : WALState) : WALStep → WALState
  | .commit batch =>
    ⟨s.file ++ walFormat.encodeAll batch, s.acked ++ batch, s.passed ++ batch⟩
  | .crash batch kept =>
    ⟨s.file ++ (walFormat.encodeAll batch).take kept, s.acked, s.passed ++ batch⟩
  | .restart => s

/-- Bytes are only written to a file that ends with a whole record, and lengths fit their fields. -/
def WritesWhole (s : WALState) : WALStep → Prop
  | .commit batch => walFormat.tornTail s.file = [] ∧ ∀ r ∈ batch, r.Fits
  | .crash batch _ => walFormat.tornTail s.file = [] ∧ ∀ r ∈ batch, r.Fits
  | .restart => True

instance (s : WALState) (step : WALStep) : Decidable (WritesWhole s step) := by
  cases step <;> dsimp only [WritesWhole] <;> infer_instance

/-- The file is whole records, the acknowledged ones among them, and a tail that cannot be read. -/
structure Logged (s : WALState) (whole : List WALRecord) (torn : Bytes) : Prop where
  shape : s.file = walFormat.encodeAll whole ++ torn
  stops : readRecord torn = none
  fits : ∀ r ∈ whole, r.Fits
  acked : s.acked.Sublist whole
  passed : ∀ r ∈ whole, r ∈ s.passed

theorem Logged.initial : Logged WALState.initial [] [] where
  shape := rfl
  stops := rfl
  fits _ member := nomatch member
  acked := List.Sublist.slnil
  passed _ member := nomatch member

variable {s : WALState} {whole : List WALRecord} {torn : Bytes}

theorem Logged.tail (logged : Logged s whole torn) : walFormat.tornTail s.file = torn := by
  rw [logged.shape]
  exact (walFormat.records_encodeAll whole torn logged.fits logged.stops).2

theorem Logged.replay (logged : Logged s whole torn) :
    replay s.file = whole.map WALRecord.readBack := by
  rw [logged.shape]
  exact (walFormat.records_encodeAll whole torn logged.fits logged.stops).1

theorem Logged.commit (logged : Logged s whole []) (batch : List WALRecord)
    (fits : ∀ r ∈ batch, r.Fits) : Logged (walStep s (.commit batch)) (whole ++ batch) [] where
  shape := by
    rw [walStep, logged.shape, append_nil, append_nil, walFormat.encodeAll_append]
  stops := logged.stops
  fits := forall_mem_append.mpr ⟨logged.fits, fits⟩
  acked := logged.acked.append (List.Sublist.refl batch)
  passed r member := by
    apply mem_append.mpr
    exact (mem_append.mp member).imp_left (logged.passed r)

theorem Logged.crash (logged : Logged s whole []) (batch : List WALRecord) (kept : Nat)
    (fits : ∀ r ∈ batch, r.Fits) :
    ∃ whole torn, Logged (walStep s (.crash batch kept)) whole torn := by
  obtain ⟨written, rest, front, cut, stops⟩ := walFormat.take_encodeAll batch kept fits
  refine ⟨whole ++ written, rest, ?_⟩
  constructor
  case shape =>
    rw [walStep, logged.shape, append_nil, cut, walFormat.encodeAll_append, append_assoc]
  case stops => exact stops
  case fits =>
    exact forall_mem_append.mpr ⟨logged.fits, fun r member => fits r (front.subset member)⟩
  case acked => exact logged.acked.trans (sublist_append_left whole written)
  case passed =>
    intro r member
    apply mem_append.mpr
    exact (mem_append.mp member).imp (logged.passed r) (front.subset ·)

theorem Logged.step (logged : Logged s whole torn) (step : WALStep) (writes : WritesWhole s step) :
    ∃ whole torn, Logged (walStep s step) whole torn := by
  cases step with
  | commit batch =>
    obtain ⟨clean, fits⟩ := writes
    rw [logged.tail] at clean
    subst clean
    exact ⟨whole ++ batch, [], logged.commit batch fits⟩
  | crash batch kept =>
    obtain ⟨clean, fits⟩ := writes
    rw [logged.tail] at clean
    subst clean
    exact logged.crash batch kept fits
  | restart => exact ⟨whole, torn, logged⟩

/-- As long as nothing is written behind a torn record, every replay delivers the acknowledged
records in order and only records that were passed to the log. -/
theorem wal_durable (steps : List WALStep)
    (writes : Guarded walStep WritesWhole WALState.initial steps) :
    let s := run walStep WALState.initial steps
    (s.acked.map WALRecord.readBack).Sublist (replay s.file) ∧
      ∀ r ∈ replay s.file, ∃ passed ∈ s.passed, r = passed.readBack := by
  intro s
  have reached : ∃ whole torn, Logged s whole torn := by
    refine @Guarded.invariant _ _ _ _ (fun s => ∃ whole torn, Logged s whole torn) ?_
      WALState.initial steps ⟨[], [], Logged.initial⟩ writes
    intro s step inv writes
    obtain ⟨whole, torn, logged⟩ := inv
    exact logged.step step writes
  obtain ⟨whole, torn, logged⟩ := reached
  rw [logged.replay]
  refine ⟨logged.acked.map _, ?_⟩
  intro r member
  obtain ⟨written, inside, rfl⟩ := mem_map.mp member
  exact ⟨written, logged.passed written inside, rfl⟩

theorem wal_durable_torn_last : let first : WALRecord := ⟨walOpPut, ascii ['k'], some (ascii ['v'])⟩
    let second : WALRecord := ⟨walOpDelete, ascii ['k'], none⟩
    let s := run walStep WALState.initial [.commit [first], .commit [second], .crash [first] 5, .restart]
    ([first, second].map WALRecord.readBack).Sublist (replay s.file) := by
  intro first second
  exact (wal_durable [.commit [first], .commit [second], .crash [first] 5, .restart]
    ⟨by decide, by decide, by decide, trivial, trivial⟩).1

/-- A commit behind a torn record is acknowledged and then read as the missing bytes of that
record. -/
theorem acked_record_lost : let torn : WALRecord := ⟨walOpPut, ascii ['k'], some (ascii ['v'])⟩
    let acked : WALRecord := ⟨walOpPut, ascii ['j'], some (ascii ['w'])⟩
    let s := run walStep WALState.initial [.crash [torn] 5, .commit [acked]]
    s.acked = [acked] ∧ replay s.file = [] := by
  decide +kernel

end KairosFlux.Storage
