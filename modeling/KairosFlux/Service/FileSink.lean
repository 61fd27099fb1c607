import KairosFlux.Service.Delivery

/-! The idempotent file sink (`service/delivery/idempotent_sink.go`): a file of JSON lines in ascending
order of the keys, whose last key is the mark up to which records are skipped. -/

namespace KairosFlux.Service

open Lib Storage List

abbrev SinkRecord := Bytes × Bytes

/-- The JSON text of a record, control characters escaped, without the encoder's newline. -/
structure RecordCodec where
  encode : SinkRecord → Bytes
  decode : Bytes → Option SinkRecord
  decode_encode : ∀ r, decode (encode r) = some r
  plain : ∀ r, newline ∉ encode r ∧ (13 : UInt8) ∉ encode r

/-- What one open of the file has in memory: the bytes of the `bufio.Writer` that are not in the file
yet, whether a write has failed (every later one fails then too), and the mark, `none` for nil. -/
structure SinkWriter where
  buffer : Bytes
  failed : Bool
  hwm : Option Bytes
  deriving DecidableEq

/-- The first `synced` bytes of the file survive a crash. -/
structure FileSink where
  file : Bytes
  synced : Nat
  writer : Option SinkWriter
  deriving DecidableEq

/-- What cuts a `Send` short: the context is found cancelled before a record of the batch, with some
bytes of the full buffer in the file; a write fails after some bytes; or `Sync` fails. -/
inductive SendFault
  | none
  | cancelled (records spilled : Nat)
  | writeError (written : Nat)
  | syncError
  deriving DecidableEq

/-- The largest token of the scanner. -/
def maxLineLength : Nat := 16 * 2 ^ 20

def dropReturn (line : Bytes) : Bytes := if line.getLast? = some 13 then line.dropLast else line

def SinkWriter.fresh (w : SinkWriter) (batch : List SinkRecord) : List SinkRecord :=
  batch.filter fun r => !(w.hwm.any fun mark => r.1 ≤ mark)

def maxKey (records : List SinkRecord) : Option Bytes :=
  records.foldl (fun best r =>
    match best with
    | none => copyKey r.1
    | some key => if key < r.1 then copyKey r.1 else best) none

section Sink

variable (codec : RecordCodec)

def encodeLines (records : List SinkRecord) : Bytes := lineFraming.encodeAll (records.map codec.encode)

def sinkRecords (file : Bytes) : List SinkRecord := (lineFraming.records file).filterMap codec.decode

/-- The key of the last line that can be read, where a line without its newline counts; `none` if a
line is too long. -/
def recoverHWM (file : Bytes) : Option (Option Bytes) :=
  let tail := lineFraming.tornTail file
  let lines := lineFraming.records file ++ if tail = [] then [] else [tail]
  if lines.any fun line => maxLineLength ≤ line.length then none
  else some (lines.foldl (fun last line =>
    match codec.decode (dropReturn line) with
    | none => last
    | some r => copyKey r.1) none)

/-- The part of `Send` behind the loop, where the error of a write that filled the buffer is counted
with those of `Flush`. With it goes whether the error is nil. -/
def FileSink.flush (s : FileSink) (w : SinkWriter) (records : List SinkRecord) :
    SendFault → FileSink × Bool
  | .writeError written =>
    let pending := w.buffer ++ encodeLines codec records
    ({ s with
      file := s.file ++ pending.take written
      writer := some { w with buffer := pending.drop written, failed := true } }, false)
  | .syncError =>
    ({ s with
      file := s.file ++ (w.buffer ++ encodeLines codec records)
      writer := some { w with buffer := [] } }, false)
  | _ =>
    let file := s.file ++ (w.buffer ++ encodeLines codec records)
    (⟨file, file.length, some ⟨[], false, maxKey records⟩⟩, true)

-- A batch without a record to write succeeds, whatever the writer has seen.
def FileSink.write (s : FileSink) (w : SinkWriter) (batch : List SinkRecord) (fault : SendFault) :
    FileSink × Bool :=
  if w.fresh batch = [] then (s, true)
  else if w.failed then (s, false)
  else s.flush codec w (w.fresh batch) fault

def FileSink.send (s : FileSink) (batch : List SinkRecord) (fault : SendFault) : FileSink × Bool :=
  match s.writer with
  | none => (s, false)
  | some w =>
    match fault with
    | .cancelled records spilled =>
      if records < batch.length then
        let pending := w.buffer ++ encodeLines codec (w.fresh (batch.take records))
        (if w.failed then s
          else { s with
            file := s.file ++ pending.take spilled
            writer := some { w with buffer := pending.drop spilled } }, false)
      else s.write codec w batch .none
    | _ => s.write codec w batch fault

/-- `NewIdempotentFileSink`, which fails if the mark cannot be read. -/
def FileSink.reopen (s : FileSink) : FileSink :=
  match recoverHWM codec s.file with
  | none => s
  | some hwm => { s with writer := some ⟨[], false, hwm⟩ }

end Sink

/-- A sink and how many records of the data, from the front, were in a `Send` that returned nil. -/
structure SinkRun where
  sink : FileSink
  acked : Nat

def SinkRun.new : SinkRun := ⟨⟨[], 0, none⟩, 0⟩

/-- A batch is given by its place in the data. A crash keeps some of the bytes that are not synced,
and the operating system may write bytes back at any time. -/
inductive SinkInput
  | send (start count : Nat) (fault : SendFault)
  | crash (kept : Nat)
  | writeBack (upTo : Nat)
  | reopen

section Runs

variable (codec : RecordCodec) (data : List SinkRecord)

def batchAt (start count : Nat) : List SinkRecord := (data.drop start).take count

def sinkStep (s : SinkRun) : SinkInput → SinkRun
  | .send start count fault =>
    let (sink, ok) := s.sink.send codec (batchAt data start count) fault
    ⟨sink, if ok then max s.acked (start + count) else s.acked⟩
  | .crash kept =>
    { s with sink := ⟨s.sink.file.take (max s.sink.synced kept), s.sink.synced, none⟩ }
  | .writeBack upTo =>
    { s with sink := { s.sink with synced := max s.sink.synced (min upTo s.sink.file.length) } }
  | .reopen =>
    match s.sink.writer with
    | none => { s with sink := s.sink.reopen codec }
    | some _ => s

/-- Nothing of an earlier `Send` is left in memory, the file ends with a whole line, and the mark is
the key of its last record. -/
structure InStepWith (file : Bytes) (w : SinkWriter) : Prop where
  flushed : w.buffer = []
  working : w.failed = false
  whole : lineFraming.tornTail file = []
  marked : w.hwm = (sinkRecords codec file).getLast?.bind fun r => copyKey r.1

instance (file : Bytes) (w : SinkWriter) : Decidable (InStepWith codec file w) :=
  decidable_of_iff (w.buffer = [] ∧ w.failed = false ∧ lineFraming.tornTail file = [] ∧
      w.hwm = (sinkRecords codec file).getLast?.bind fun r => copyKey r.1)
    ⟨fun facts => ⟨facts.1, facts.2.1, facts.2.2.1, facts.2.2.2⟩,
      fun step => ⟨step.flushed, step.working, step.whole, step.marked⟩⟩

/-- A batch starts at the last acknowledged position or before it, the sink is in step with its file,
and a batch with nothing to write finds the whole file synced. -/
def SinkCareful (s : SinkRun) : SinkInput → Prop
  | .send start count _ => start ≤ s.acked ∧ ∀ w ∈ s.sink.writer, InStepWith codec s.sink.file w ∧
      (w.fresh (batchAt data start count) = [] → s.sink.synced = s.sink.file.length)
  | _ => True

instance (s : SinkRun) (input : SinkInput) : Decidable (SinkCareful codec data s input) := by
  cases input <;> dsimp only [SinkCareful] <;> infer_instance

/-- The complete lines have every key once, and they have every acknowledged record. -/
structure EffectivelyOnce (s : SinkRun) : Prop where
  once : ((sinkRecords codec s.sink.file).map Prod.fst).Nodup
  kept : ∀ r ∈ data.take s.acked, r ∈ sinkRecords codec s.sink.file

/-- The file is a first part of the lines of the data, with the rest of what was encoded in memory,
and the acknowledged records are synced. -/
structure Written (s : SinkRun) : Prop where
  stream : s.sink.file ++ (s.sink.writer.elim [] SinkWriter.buffer) <+: encodeLines codec data
  synced : s.sink.synced ≤ s.sink.file.length
  durable : (encodeLines codec (data.take s.acked)).length ≤ s.sink.synced

end Runs

section Lines

variable {codec : RecordCodec} {data : List SinkRecord}

theorem encodeLines_append (first second : List SinkRecord) :
    encodeLines codec (first ++ second) = encodeLines codec first ++ encodeLines codec second := by
  rw [encodeLines, map_append, lineFraming.encodeAll_append]
  rfl

theorem encodeLines_prefix {first second : List SinkRecord} (front : first <+: second) :
    encodeLines codec first <+: encodeLines codec second := by
  rcases front with ⟨rest, rfl⟩
  rw [encodeLines_append]
  exact prefix_append _ _

theorem encodes_plain (records : List SinkRecord) :
    ∀ text ∈ records.map codec.encode, lineFraming.fits text := by
  intro text member
  rcases mem_map.mp member with ⟨r, _, rfl⟩
  exact (codec.plain r).1

theorem sinkRecords_encodeLines (records : List SinkRecord) (torn : Bytes)
    (stops : lineFraming.read torn = none) :
    sinkRecords codec (encodeLines codec records ++ torn) = records ∧
      lineFraming.tornTail (encodeLines codec records ++ torn) = torn := by
  rcases lineFraming.records_encodeAll (records.map codec.encode) torn (encodes_plain records) stops
    with ⟨whole, tail⟩
  refine ⟨?_, tail⟩
  rw [sinkRecords, encodeLines, whole]
  simp [lineFraming, filterMap_map, codec.decode_encode]

theorem lines_of_prefix (file : Bytes) (n : Nat) (front : file <+: encodeLines codec data)
    (long : (encodeLines codec (data.take n)).length ≤ file.length) :
    ∃ m torn, n ≤ m ∧ file = encodeLines codec (data.take m) ++ torn ∧
      lineFraming.read torn = none := by
  have lines : encodeLines codec (data.take n) <+: encodeLines codec data :=
    encodeLines_prefix (List.take_prefix n data)
  rcases prefix_of_prefix_length_le lines front long with ⟨rest, rfl⟩
  have behind : rest <+: encodeLines codec (data.drop n) := by
    nth_rewrite 2 [← take_append_drop n data] at front
    rw [encodeLines_append] at front
    exact (prefix_append_right_inj _).mp front
  rcases lineFraming.take_encodeAll ((data.drop n).map codec.encode) rest.length
    (encodes_plain (data.drop n)) with ⟨whole, torn, some, cut, stops⟩
  have read : whole = ((data.drop n).take whole.length).map codec.encode := by
    rw [map_take]
    exact prefix_iff_eq_take.mp some
  refine ⟨n + whole.length, torn, Nat.le_add_right _ _, ?_, stops⟩
  rw [take_add, encodeLines_append, append_assoc, prefix_iff_eq_take.mp behind]
  congr 1
  rw [encodeLines, cut, encodeLines, ← read]

theorem take_append_drop_take (m stop : Nat) :
    data.take m ++ (data.take stop).drop m = data.take (max m stop) := by
  rcases le_total stop m with before | behind
  · rw [max_eq_left before, drop_eq_nil_of_le, append_nil]
    exact (length_take_le stop data).trans before
  · rw [max_eq_right behind]
    nth_rewrite 2 [← take_append_drop m (data.take stop)]
    rw [take_take, min_eq_left behind]

theorem copyKey_of_ne_nil {key : Bytes} (named : key ≠ []) : copyKey key = some key := by
  cases key with
  | nil => exact absurd rfl named
  | cons byte rest => rfl

theorem mark_cases {records : List SinkRecord} (ascending : records.Pairwise KeyLt)
    (named : ∀ r ∈ records, r.1 ≠ []) (mark : Option Bytes)
    (marked : mark = records.getLast?.bind fun r => copyKey r.1) :
    (records = [] ∧ mark = none) ∨
      ∃ final ∈ records, mark = some final.1 ∧ ∀ r ∈ records, r.1 ≤ final.1 := by
  cases last : records.getLast? with
  | none =>
    rw [last] at marked
    exact .inl ⟨List.getLast?_eq_none_iff.mp last, marked⟩
  | some final =>
    have member := mem_of_getLast? last
    rw [last] at marked
    refine .inr ⟨final, member, ?_, le_getLast records ascending final last⟩
    rw [marked, Option.bind_some, copyKey_of_ne_nil (named final member)]

theorem batchAt_eq_append (m start count : Nat) (front : start ≤ m) : batchAt data start count =
      ((data.take (start + count)).take m).drop start ++ (data.take (start + count)).drop m := by
  have cut : batchAt data start count = (data.take (start + count)).drop start := by
    rw [drop_take, Nat.add_sub_cancel_left]
    rfl
  rw [cut]
  nth_rewrite 1 [← take_append_drop m (data.take (start + count))]
  rw [drop_append]
  rcases le_total m (data.take (start + count)).length with inside | short
  · rw [length_take_of_le inside, Nat.sub_eq_zero_of_le front, drop_zero]
  · rw [drop_eq_nil_of_le short, drop_nil]

theorem fresh_batchAt (ascending : data.Pairwise KeyLt) (named : ∀ r ∈ data, r.1 ≠ []) (w : SinkWriter)
    (m start count : Nat) (front : start ≤ m)
    (marked : w.hwm = (data.take m).getLast?.bind fun r => copyKey r.1) :
    w.fresh (batchAt data start count) = (data.take (start + count)).drop m := by
  have sorted : (data.take m ++ data.drop m).Pairwise KeyLt := by
    rw [take_append_drop]
    exact ascending
  rcases pairwise_append.mp sorted with ⟨first, _, across⟩
  have mark := mark_cases first (fun r member => named r (mem_of_mem_take member)) w.hwm marked
  have skipped : w.fresh (((data.take (start + count)).take m).drop start) = [] := by
    apply filter_eq_nil_iff.mpr
    intro r member
    have old : r ∈ data.take m := by
      have inside := mem_of_mem_drop member
      rw [take_take, min_comm, ← take_take] at inside
      exact mem_of_mem_take inside
    rcases mark with ⟨none, _⟩ | ⟨final, _, mark, greatest⟩
    · rw [none] at old
      cases old
    · simp [mark, greatest r old]
  have kept : w.fresh ((data.take (start + count)).drop m) = (data.take (start + count)).drop m := by
    apply filter_eq_self.mpr
    intro r member
    have new : r ∈ data.drop m := by
      rw [drop_take] at member
      exact mem_of_mem_take member
    rcases mark with ⟨_, mark⟩ | ⟨final, old, mark, _⟩
    · simp [mark]
    · have less : final.1 < r.1 := across final old r new
      simp [mark, less]
  rw [batchAt_eq_append m start count front, SinkWriter.fresh, filter_append]
  exact (congrArg₂ _ skipped kept).trans (nil_append _)

namespace Written

variable {s : SinkRun}

theorem new : Written codec data SinkRun.new where
  stream := nil_prefix
  synced := le_rfl
  durable := by simp [SinkRun.new, encodeLines, Framing.encodeAll]

section

variable (written : Written codec data s)
include written

theorem file_prefix : s.sink.file <+: encodeLines codec data :=
  (prefix_append _ _).trans written.stream

theorem continues (ascending : data.Pairwise KeyLt)
    (named : ∀ r ∈ data, r.1 ≠ []) (w : SinkWriter) (inStep : InStepWith codec s.sink.file w)
    (start : Nat) (front : start ≤ s.acked) :
    ∃ m, s.acked ≤ m ∧ s.sink.file = encodeLines codec (data.take m) ∧ ∀ count,
      w.fresh (batchAt data start count) = (data.take (start + count)).drop m ∧
        s.sink.file ++ (w.buffer ++ encodeLines codec (w.fresh (batchAt data start count))) =
          encodeLines codec (data.take (max m (start + count))) := by
  rcases lines_of_prefix s.sink.file s.acked written.file_prefix
    (written.durable.trans written.synced) with ⟨m, torn, long, lines, stops⟩
  rcases sinkRecords_encodeLines (data.take m) torn stops with ⟨records, tail⟩
  rw [← lines] at records tail
  have whole : torn = [] := tail.symm.trans inStep.whole
  rw [whole, append_nil] at lines
  refine ⟨m, long, lines, fun count => ?_⟩
  have marked := inStep.marked
  rw [records] at marked
  have fresh := fresh_batchAt ascending named w m start count (front.trans long) marked
  refine ⟨fresh, ?_⟩
  rw [fresh, inStep.flushed, nil_append, lines, ← encodeLines_append, take_append_drop_take]

theorem append (pending : Bytes) (n : Nat) (w : SinkWriter)
    (fits : s.sink.file ++ pending <+: encodeLines codec data) (rest : w.buffer = pending.drop n) :
    Written codec data ⟨⟨s.sink.file ++ pending.take n, s.sink.synced, some w⟩, s.acked⟩ where
  stream := by
    change s.sink.file ++ pending.take n ++ w.buffer <+: _
    rw [rest, append_assoc, take_append_drop]
    exact fits
  synced := by
    have before := written.synced
    change s.sink.synced ≤ (s.sink.file ++ pending.take n).length
    rw [length_append]
    omega
  durable := written.durable

theorem acknowledge (acked : Nat)
    (durable : (encodeLines codec (data.take acked)).length ≤ s.sink.synced) :
    Written codec data ⟨s.sink, acked⟩ :=
  ⟨written.stream, written.synced, durable⟩

theorem write (ascending : data.Pairwise KeyLt)
    (named : ∀ r ∈ data, r.1 ≠ []) (w : SinkWriter) (inStep : InStepWith codec s.sink.file w)
    (start count : Nat) (fault : SendFault) (front : start ≤ s.acked)
    (synced : w.fresh (batchAt data start count) = [] → s.sink.synced = s.sink.file.length) :
    let after := s.sink.write codec w (batchAt data start count) fault
    Written codec data ⟨after.1, if after.2 then max s.acked (start + count) else s.acked⟩ := by
  rcases written.continues ascending named w inStep start front with ⟨m, long, lines, goesOn⟩
  rcases goesOn count with ⟨_, stream⟩
  have inside : s.sink.file ++ (w.buffer ++ encodeLines codec (w.fresh (batchAt data start count))) <+:
      encodeLines codec data := by
    rw [stream]
    exact encodeLines_prefix (List.take_prefix _ _)
  -- The lines up to the end of the batch are those of the file and the pending ones.
  have covered : (encodeLines codec (data.take (max s.acked (start + count)))).length ≤
      (s.sink.file ++
        (w.buffer ++ encodeLines codec (w.fresh (batchAt data start count)))).length := by
    rw [stream]
    apply List.IsPrefix.length_le
    apply encodeLines_prefix
    exact take_prefix_take_left (max_le_max_right _ long)
  rw [FileSink.write]
  split_ifs with none failed
  · refine written.acknowledge _ ?_
    rw [none, inStep.flushed] at covered
    rw [synced none]
    simpa [encodeLines, Framing.encodeAll] using covered
  · rw [inStep.working] at failed
    cases failed
  have synchronised := inside
  rw [← append_nil (s.sink.file ++ _)] at synchronised
  cases fault with
  | writeError n => exact written.append _ n _ inside rfl
  | syncError =>
    have all := written.append _ (w.buffer ++
      encodeLines codec (w.fresh (batchAt data start count))).length { w with buffer := [] } inside
      drop_length.symm
    rw [take_length] at all
    exact all
  | none | cancelled => exact ⟨synchronised, le_rfl, covered⟩

theorem step (ascending : data.Pairwise KeyLt)
    (named : ∀ r ∈ data, r.1 ≠ []) (input : SinkInput) (careful : SinkCareful codec data s input) :
    Written codec data (sinkStep codec data s input) := by
  cases input with
  | send start count fault =>
    rcases careful with ⟨front, ready⟩
    simp only [sinkStep, FileSink.send]
    cases running : s.sink.writer with
    | none => exact written
    | some w =>
      rcases ready w running with ⟨inStep, synced⟩
      have whole := written.write ascending named w inStep start count
      cases fault with
      | cancelled records spilled =>
        by_cases early : records < (batchAt data start count).length
        · rcases written.continues ascending named w inStep start front with ⟨m, _, _, goesOn⟩
          have cut : (batchAt data start count).take records =
              batchAt data start (min records count) := by
            rw [batchAt, take_take]
            rfl
          simp only [if_pos early, inStep.working, Bool.false_eq_true, if_false, cut]
          refine written.append _ spilled _ ?_ rfl
          rw [(goesOn _).2]
          exact encodeLines_prefix (List.take_prefix _ _)
        · simp only [if_neg early]
          exact whole .none front synced
      | none | writeError | syncError => exact whole _ front synced
  | crash kept =>
    refine ⟨?_, ?_, written.durable⟩
    · change s.sink.file.take _ ++ [] <+: _
      rw [append_nil]
      exact (List.take_prefix _ _).trans written.file_prefix
    · have before := written.synced
      change s.sink.synced ≤ (s.sink.file.take _).length
      rw [length_take]
      omega
  | writeBack upTo =>
    have before := written.synced
    refine ⟨written.stream, ?_, ?_⟩
    · change max _ _ ≤ s.sink.file.length
      omega
    · exact written.durable.trans (le_max_left _ _)
  | reopen =>
    rw [sinkStep]
    cases running : s.sink.writer with
    | some w => exact written
    | none =>
      simp only [FileSink.reopen]
      cases recoverHWM codec s.sink.file with
      | none => exact written
      | some hwm =>
        refine ⟨?_, written.synced, written.durable⟩
        change s.sink.file ++ [] <+: _
        rw [append_nil]
        exact written.file_prefix

end

end Written

end Lines

/-- As long as each `Send` finds the sink in step with its file, and the file synced if there is
nothing to write, the complete lines have every key once and all acknowledged records, wherever the
sends fail and the process crashes. -/
theorem sink_effectively_once (codec : RecordCodec) (data : List SinkRecord)
    (ascending : data.Pairwise KeyLt) (named : ∀ r ∈ data, r.1 ≠ []) (inputs : List SinkInput)
    (careful : Guarded (sinkStep codec data) (SinkCareful codec data) SinkRun.new inputs) :
    EffectivelyOnce codec data (run (sinkStep codec data) SinkRun.new inputs) := by
  generalize final : run (sinkStep codec data) SinkRun.new inputs = s
  have preserved : ∀ s input, Written codec data s → SinkCareful codec data s input →
      Written codec data (sinkStep codec data s input) :=
    fun s input written careful => written.step ascending named input careful
  have written : Written codec data s := by
    rw [← final]
    exact Guarded.invariant preserved _ inputs Written.new careful
  rcases lines_of_prefix s.sink.file s.acked written.file_prefix
    (written.durable.trans written.synced) with ⟨m, torn, long, lines, stops⟩
  have records : sinkRecords codec s.sink.file = data.take m := by
    rw [lines]
    exact (sinkRecords_encodeLines (data.take m) torn stops).1
  constructor
  · rw [records]
    have sorted : ((data.take m).map Prod.fst).Pairwise (· < ·) :=
      pairwise_map.mpr (ascending.sublist (take_sublist m data))
    exact sorted.imp fun less => less.ne
  · rw [records]
    exact fun r member => (take_prefix_take_left long).subset member

def nibbles (byte : UInt8) : Bytes := [97 + byte / 16, 97 + byte % 16]

def readNibbles : Bytes → Option Bytes
  | [] => some []
  | [_] => none
  | high :: low :: rest =>
    if 97 ≤ high ∧ high < 113 ∧ 97 ≤ low ∧ low < 113 then
      (readNibbles rest).map (((high - 97) * 16 + (low - 97)) :: ·)
    else none

def plainText (r : SinkRecord) : Bytes :=
  123 :: (r.1.flatMap nibbles ++ 44 :: (r.2.flatMap nibbles ++ [125]))

def readPlainText : Bytes → Option SinkRecord
  | 123 :: text =>
    let key := text.takeWhile (· ≠ 44)
    let value := (text.drop (key.length + 1)).dropLast
    if text = key ++ 44 :: (value ++ [125]) then
      (readNibbles key).bind fun key => (readNibbles value).map fun value => (key, value)
    else none
  | _ => none

theorem nibbles_facts (byte : UInt8) :
    (∀ rest, readNibbles (nibbles byte ++ rest) = (readNibbles rest).map (byte :: ·)) ∧
      ∀ letter ∈ nibbles byte, 97 ≤ letter := by
  have all : ∀ n : Fin 256, let byte := UInt8.ofNat n
      (97 ≤ 97 + byte / 16 ∧ 97 + byte / 16 < 113 ∧ 97 ≤ 97 + byte % 16 ∧ 97 + byte % 16 < 113) ∧
        (97 + byte / 16 - 97) * 16 + (97 + byte % 16 - 97) = byte := by decide +kernel
  have here := all ⟨byte.toNat, byte.toNat_lt⟩
  rw [UInt8.ofNat_toNat] at here
  rcases here with ⟨range, value⟩
  constructor
  · intro rest
    change readNibbles ((97 + byte / 16) :: (97 + byte % 16) :: rest) = _
    rw [readNibbles, if_pos range, value]
  · simp [nibbles, range]

theorem readNibbles_flatMap (bytes : Bytes) : readNibbles (bytes.flatMap nibbles) = some bytes := by
  induction bytes with
  | nil => rfl
  | cons byte bytes ih => rw [flatMap_cons, (nibbles_facts byte).1, ih, Option.map_some]

theorem letter_le (bytes : Bytes) : ∀ letter ∈ bytes.flatMap nibbles, 97 ≤ letter := by
  intro letter member
  rcases mem_flatMap.mp member with ⟨byte, _, here⟩
  exact (nibbles_facts byte).2 letter here

theorem readPlainText_plainText (r : SinkRecord) : readPlainText (plainText r) = some r := by
  have plain : ∀ letter ∈ r.1.flatMap nibbles, decide (letter ≠ 44) = true := by
    intro letter member
    apply decide_eq_true
    rintro rfl
    exact absurd (letter_le r.1 44 member) (by decide)
  have key : (r.1.flatMap nibbles ++ 44 :: (r.2.flatMap nibbles ++ [125])).takeWhile (· ≠ 44) =
      r.1.flatMap nibbles := by
    rw [takeWhile_append_of_pos plain]
    simp
  have value : ((r.1.flatMap nibbles ++ 44 :: (r.2.flatMap nibbles ++ [125])).drop
      ((r.1.flatMap nibbles).length + 1)).dropLast = r.2.flatMap nibbles := by
    rw [← drop_drop, drop_left]
    simp
  rw [plainText, readPlainText]
  simp only [key, value, if_true, readNibbles_flatMap, Option.bind_some, Option.map_some]

def plainCodec : RecordCodec where
  encode := plainText
  decode := readPlainText
  decode_encode := readPlainText_plainText
  plain r := by
    have absent : ∀ byte : UInt8, byte < 44 → byte ∉ plainText r := by
      intro byte low member
      have high : 44 ≤ byte := by
        simp only [plainText, mem_cons, mem_append, not_mem_nil, or_false] at member
        rcases member with rfl | inKey | rfl | inValue | rfl
        · decide
        · exact le_trans (by decide) (letter_le r.1 byte inKey)
        · decide
        · exact le_trans (by decide) (letter_le r.2 byte inValue)
        · decide
      exact absurd low (not_lt.mpr high)
    exact ⟨absent newline (by decide), absent 13 (by decide)⟩

/-- A `Sync` fails, the process crashes, and the redelivered record is found in the file. -/
theorem sink_effectively_once_after_crash :
    let data : List SinkRecord := [(ascii ['a'], [1]), (ascii ['b'], [2])]
    let inputs := [SinkInput.reopen, .send 0 1 .none, .send 1 1 .syncError, .crash 100,
      .writeBack 100, .reopen, .send 1 1 .none]
    let s := run (sinkStep plainCodec data) SinkRun.new inputs
    s.acked = 2 ∧ EffectivelyOnce plainCodec data s := by
  intro data inputs s
  have less : ascii ['a'] < ascii ['b'] := by decide
  have ascending : data.Pairwise KeyLt := pairwise_pair.mpr less
  have named : ∀ r ∈ data, r.1 ≠ [] := by decide +kernel
  have careful : Guarded (sinkStep plainCodec data) (SinkCareful plainCodec data) SinkRun.new inputs := by
    decide +kernel
  have acked : s.acked = 2 := by decide +kernel
  exact ⟨acked, sink_effectively_once plainCodec data ascending named inputs careful⟩

/-- A cancelled `Send` leaves a record in the buffer that is encoded again, a record is written behind
a torn line, a record that is skipped is not synced, and the empty key is no mark. -/
theorem sink_not_effectively_once : let data := [(ascii ['a'], [1]), (ascii ['b'], [2])]
    let after := run (sinkStep plainCodec data) SinkRun.new
    let cancelled := after [.reopen, .send 0 2 (.cancelled 1 0), .send 0 2 .none]
    let torn := after [.reopen, .send 0 1 (.writeError 3), .crash 3, .reopen, .send 0 1 .none]
    let unsynced := after [.reopen, .send 0 1 .syncError, .crash 100, .reopen, .send 0 1 .none, .crash 0]
    let nameless := run (sinkStep plainCodec [([], [1])]) SinkRun.new
      [.reopen, .send 0 1 .none, .send 0 1 .none]
    (∀ s ∈ [cancelled, nameless], ¬ ((sinkRecords plainCodec s.sink.file).map Prod.fst).Nodup) ∧
      ∀ s ∈ [torn, unsynced], s.acked = 1 ∧ (ascii ['a'], [1]) ∉ sinkRecords plainCodec s.sink.file := by
  decide +kernel

end KairosFlux.Service
