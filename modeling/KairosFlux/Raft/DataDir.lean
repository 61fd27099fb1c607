import KairosFlux.Lib.Decimal
import KairosFlux.Lib.SortedMap
import KairosFlux.Raft.LogFile

/-! The files of a node, byte for byte (`raft/raft_wal.go`): what each call does to them one file
operation after the other, and what is read from them. -/

namespace KairosFlux.Raft

open Lib List

/-- The snapshots are under their names, in the order of `ReadDir`. -/
structure DataDir where
  state : Option Bytes
  log : Bytes
  snapshots : SortedMap Bytes Bytes

/-- A write of several bytes is one operation for each of them. -/
inductive FileOp
  | openState
  | writeState (offset : Nat) (byte : UInt8)
  | createLog
  | writeLog (byte : UInt8)
  | createSnapshot (name : Bytes)
  | writeSnapshot (name : Bytes) (byte : UInt8)
  | removeSnapshot (name : Bytes)

inductive WalCall
  | saveState (term votedFor : Int)
  | appendLogs (entries : List LogEntry)
  | rebuildLogFile (entries : List LogEntry)
  | saveSnapshot (data : Bytes) (lastIncludedIndex lastIncludedTerm : Int)
  | deleteOldSnapshots (keepIndex : Int)
  | truncateLogs (lastIncludedIndex : Int)

def magicNumber : Nat := 0x52415654

def version : Nat := 1

def stateBytes (term votedFor : Int) : Bytes :=
  beBytes 4 magicNumber ++ beBytes 4 version ++ int64Bytes term ++ int64Bytes votedFor

def snapshotHeader (lastIncludedIndex lastIncludedTerm : Int) (dataLen : Nat) : Bytes :=
  beBytes 4 magicNumber ++ beBytes 4 version ++ int64Bytes lastIncludedIndex ++
    int64Bytes lastIncludedTerm ++ beBytes 8 dataLen

def snapshotBytes (data : Bytes) (lastIncludedIndex lastIncludedTerm : Int) : Bytes :=
  snapshotHeader lastIncludedIndex lastIncludedTerm data.length ++ data

def formatInt : Int → Bytes
  | .ofNat value => decimal value
  | .negSucc value => 45 :: decimal (value + 1)

def snapSuffix : Bytes := ascii ['.', 's', 'n', 'a', 'p']

/-- `%d_%d.snap`. -/
def snapshotName (index term : Int) : Bytes := formatInt index ++ 95 :: formatInt term ++ snapSuffix

def parseDigits (text : Bytes) : Option Nat := if text = [] then none else decimalValue 0 text

def parseSigned : Bytes → Option Int
  | 45 :: digits => (parseDigits digits).map fun value => -Int.ofNat value
  | 43 :: digits => (parseDigits digits).map Int.ofNat
  | digits => (parseDigits digits).map Int.ofNat

/-- `strconv.ParseInt` in base 10 for 64 bits. -/
def parseInt (text : Bytes) : Option Int := (parseSigned text).filter fun value => Int64Range value

def indexOfName (name : Bytes) : Option Int :=
  if snapSuffix <:+ name then
    match (name.take (name.length - 5)).splitOnP (· == 95) with
    | [index, _] => parseInt index
    | _ => none
  else none

namespace DataDir

def new : DataDir := ⟨none, [], SortedMap.empty⟩

variable (dir : DataDir)

def overwrite (content : Bytes) (offset : Nat) (byte : UInt8) : Bytes :=
  content.take offset ++ byte :: content.drop (offset + 1)

def perform : FileOp → DataDir
  | .openState => { dir with state := some (dir.state.getD []) }
  | .writeState offset byte =>
    { dir with state := dir.state.map fun content => overwrite content offset byte }
  | .createLog => { dir with log := [] }
  | .writeLog byte => { dir with log := dir.log ++ [byte] }
  | .createSnapshot name => { dir with snapshots := dir.snapshots.insert name [] }
  | .writeSnapshot name byte =>
    let content := (dir.snapshots.lookup name).getD []
    { dir with snapshots := dir.snapshots.insert name (content ++ [byte]) }
  | .removeSnapshot name => { dir with snapshots := dir.snapshots.erase name }

/-- The operations of a call on these files. Where `LoadLogs` panics there are none. -/
def ops : WalCall → List FileOp
  | .saveState term votedFor =>
    .openState :: (stateBytes term votedFor).zipIdx.map fun byte => .writeState byte.2 byte.1
  | .appendLogs entries => (logFormat.encodeAll entries).map .writeLog
  | .rebuildLogFile entries => .createLog :: (logFormat.encodeAll entries).map .writeLog
  | .saveSnapshot data index term =>
    let name := snapshotName index term
    .createSnapshot name :: (snapshotBytes data index term).map (.writeSnapshot name)
  | .deleteOldSnapshots keepIndex =>
    (dir.snapshots.entries.filter fun file =>
      (indexOfName file.1).any fun index => index < keepIndex).map fun file =>
        .removeSnapshot file.1
  | .truncateLogs lastIncludedIndex =>
    match loadLogs dir.log with
    | none => []
    | some logs =>
      .createLog :: (logFormat.encodeAll
        (logs.filter fun entry => lastIncludedIndex < entry.index)).map .writeLog

def interrupt (call : WalCall) (count : Nat) : DataDir := ((dir.ops call).take count).foldl perform dir

def complete (call : WalCall) : DataDir := (dir.ops call).foldl perform dir

/-- No pair stands for an error. -/
def readState (file : Bytes) : Option (Int × Int) :=
  if file.length < 4 then none
  else if beValue (file.take 4) ≠ magicNumber then some (0, -1)
  else if file.length < 24 then none
  else some (int64Value (slice file 8 16), int64Value (slice file 16 24))

def loadState : Option (Int × Int) := dir.state.elim (some (0, -1)) readState

inductive SnapshotError
  | truncated
  | invalid
  deriving DecidableEq

-- `Read` of a cut file returns what there is, and the rest of the slice stays zero. It fails only
-- when there is nothing. A length at which `make` panics is in no snapshot.
def readSnapshot (file : Bytes) : Except SnapshotError (Bytes × Int × Int) :=
  if file.length < 4 then .error .truncated
  else if beValue (file.take 4) ≠ magicNumber then .error .invalid
  else if file.length < 32 then .error .truncated
  else
    let dataLen := beValue (slice file 24 32)
    let body := file.drop 32
    if body = [] ∧ dataLen ≠ 0 then .error .truncated
    else .ok (body.take dataLen ++ List.replicate (dataLen - body.length) 0,
      int64Value (slice file 8 16), int64Value (slice file 16 24))

/-- The loop of `LoadLatestSnapshot` over the directory. -/
def latest (files : List (Bytes × Bytes)) (found : Int × Option Bytes) : Int × Option Bytes :=
  files.foldl (fun found file =>
    match indexOfName file.1 with
    | some index => if found.1 < index then (index, some file.2) else found
    | none => found) found

def loadLatestSnapshot : Except SnapshotError (Option (Bytes × Int × Int)) :=
  match (latest dir.snapshots.entries (0, none)).2 with
  | none => .ok none
  | some file => (readSnapshot file).map some

end DataDir

structure PersistData where
  currentTerm : Int
  votedFor : Int
  log : List LogEntry
  lastIncludedIndex : Int
  lastIncludedTerm : Int
  deriving DecidableEq

def PersistData.new : PersistData := ⟨0, -1, [], 0, 0⟩

/-- What `readPersist` takes over from `LoadPersist`. After an error the node has the values of a new
one. No value stands for a panic. -/
def DataDir.readPersist (dir : DataDir) : Option PersistData :=
  match dir.loadState with
  | none => some .new
  | some (term, votedFor) =>
    (loadLogs dir.log).map fun log =>
      match dir.loadLatestSnapshot with
      | .ok (some (_, lastIndex, lastTerm)) => ⟨term, votedFor, log, lastIndex, lastTerm⟩
      | _ => ⟨term, votedFor, log, 0, 0⟩

theorem decimal_ne_nil (value : Nat) : decimal value ≠ [] := by
  intro empty
  have length := congrArg List.length empty
  cases length

theorem parseDigits_decimal (value : Nat) : parseDigits (decimal value) = some value := by
  rw [parseDigits, if_neg (decimal_ne_nil value), decimal,
    decimalValue_decimalFixed 0 _ value (lt_pow_decimal_length value), Nat.zero_mul, Nat.zero_add]

theorem not_mem_decimal (byte : UInt8) (other : ¬ IsDigit byte) (value : Nat) :
    byte ∉ decimal value := fun member => other (decimal_digits value byte member)

theorem parseSigned_formatInt (value : Int) : parseSigned (formatInt value) = some value := by
  cases value with
  | ofNat value =>
    have minus : ∀ digits, decimal value = 45 :: digits → False := by
      intro digits same
      exact not_mem_decimal 45 (by decide) value (same ▸ (.head _))
    have plus : ∀ digits, decimal value = 43 :: digits → False := by
      intro digits same
      exact not_mem_decimal 43 (by decide) value (same ▸ (.head _))
    rw [formatInt, parseSigned.eq_3 _ minus plus, parseDigits_decimal]
    rfl
  | negSucc value =>
    rw [formatInt, parseSigned, parseDigits_decimal]
    rfl

theorem underscore_not_mem_formatInt (value : Int) : 95 ∉ formatInt value := by
  cases value with
  | ofNat value => exact not_mem_decimal 95 (by decide) value
  | negSucc value =>
    intro member
    rcases mem_cons.mp member with same | inside
    · exact absurd same (by decide)
    · exact not_mem_decimal 95 (by decide) _ inside

theorem indexOfName_snapshotName (index term : Int) (range : Int64Range index) :
    indexOfName (snapshotName index term) = some index := by
  have stem : (snapshotName index term).take ((snapshotName index term).length - 5) =
      formatInt index ++ 95 :: formatInt term := by
    have length : (snapshotName index term).length - 5 =
        (formatInt index ++ 95 :: formatInt term).length := by
      rw [snapshotName, length_append]
      exact Nat.add_sub_cancel _ 5
    rw [length]
    exact take_left
  have free : ∀ value : Int, ∀ byte ∈ formatInt value, (byte == 95) = false := by
    intro value byte member
    rw [beq_eq_false_iff_ne]
    rintro rfl
    exact underscore_not_mem_formatInt value member
  have last : (formatInt term).splitOnP (· == 95) = [formatInt term] :=
    splitOnP_eq_singleton (free term)
  rw [indexOfName, if_pos ⟨_, rfl⟩, stem,
    splitOnP_append_cons_of_forall_mem (free index) 95 rfl, last]
  change parseInt (formatInt index) = some index
  rw [parseInt, parseSigned_formatInt]
  exact if_pos (decide_eq_true range)

namespace DataDir

variable (dir : DataDir)

theorem foldl_writeLog (bytes : Bytes) :
    (bytes.map FileOp.writeLog).foldl perform dir = { dir with log := dir.log ++ bytes } := by
  induction bytes generalizing dir with
  | nil => simp
  | cons byte rest ih =>
    rw [map_cons, foldl_cons, ih]
    simp [perform]

theorem take_zipIdx (bytes : Bytes) (offset count : Nat) :
    (bytes.zipIdx offset).take count = (bytes.take count).zipIdx offset := by
  induction bytes generalizing offset count with
  | nil => simp
  | cons byte rest ih =>
    cases count with
    | zero => rfl
    | succ count =>
      rw [zipIdx_cons, take_succ_cons, take_succ_cons, zipIdx_cons, ih]

theorem foldl_writeState (bytes content : Bytes) (offset : Nat) (inside : offset ≤ content.length)
    (open_ : dir.state = some content) :
    ((bytes.zipIdx offset).map fun byte => FileOp.writeState byte.2 byte.1).foldl perform dir =
      { dir with
        state := some (content.take offset ++ bytes ++ content.drop (offset + bytes.length)) } := by
  induction bytes generalizing dir content offset with
  | nil => simp [← open_]
  | cons byte rest ih =>
    have front : (content.take offset ++ [byte]).length = offset + 1 := by
      rw [length_append, length_take, min_eq_left inside, length_singleton]
    have shape : overwrite content offset byte =
        (content.take offset ++ [byte]) ++ content.drop (offset + 1) := by
      rw [overwrite, append_assoc, singleton_append]
    rw [zipIdx_cons, map_cons, foldl_cons,
      ih (dir.perform (.writeState offset byte)) (overwrite content offset byte) (offset + 1)
        (by rw [shape, length_append, front]; omega) (by rw [perform, open_, Option.map_some])]
    rw [shape, take_left' front, ← front, drop_append, drop_drop, front]
    simp [perform, Nat.add_assoc, Nat.add_comm 1]

theorem foldl_writeSnapshot (name bytes content : Bytes) (snapshots : SortedMap Bytes Bytes)
    (here : dir.snapshots = snapshots.insert name content) :
    (bytes.map (FileOp.writeSnapshot name)).foldl perform dir =
      { dir with snapshots := snapshots.insert name (content ++ bytes) } := by
  induction bytes generalizing dir content with
  | nil => simp [← here]
  | cons byte rest ih =>
    have next : (dir.perform (.writeSnapshot name byte)).snapshots =
        snapshots.insert name (content ++ [byte]) := by
      rw [perform, here, SortedMap.lookup_insert_self, Option.getD_some, SortedMap.insert_insert]
    rw [map_cons, foldl_cons, ih _ _ next, append_assoc, singleton_append]
    rfl

theorem foldl_removeSnapshot (files : List (Bytes × Bytes)) :
    let after := (files.map fun file => FileOp.removeSnapshot file.1).foldl perform dir
    after.state = dir.state ∧ after.log = dir.log ∧
      ∀ name, after.snapshots.lookup name =
        if name ∈ files.map Prod.fst then none else dir.snapshots.lookup name := by
  induction files generalizing dir with
  | nil => simp
  | cons file rest ih =>
    rcases ih (dir.perform (.removeSnapshot file.1)) with ⟨state, log, snapshots⟩
    refine ⟨state, log, fun name => (snapshots name).trans ?_⟩
    rw [perform, SortedMap.lookup_erase, map_cons]
    by_cases later : name ∈ rest.map Prod.fst
    · rw [if_pos later, if_pos (.tail _ later)]
    · rw [if_neg later]
      by_cases here : name = file.1
      · rw [if_pos here, if_pos (here ▸ (.head _))]
      · rw [if_neg here, if_neg fun member => (mem_cons.mp member).elim here later]

theorem interrupt_of_length_le (call : WalCall) (count : Nat) (enough : (dir.ops call).length ≤ count) :
    dir.interrupt call count = dir.complete call := by
  rw [interrupt, complete, take_of_length_le enough]

theorem interrupt_saveState (term votedFor : Int) (count : Nat) :
    dir.interrupt (.saveState term votedFor) (count + 1) = { dir with
        state := some ((stateBytes term votedFor).take count ++
          (dir.state.getD []).drop ((stateBytes term votedFor).take count).length) } := by
  rw [interrupt, ops, take_succ_cons, foldl_cons, ← map_take, take_zipIdx,
    foldl_writeState _ _ (dir.state.getD []) 0 (Nat.zero_le _) rfl]
  simp [perform]

theorem interrupt_appendLogs (entries : List LogEntry) (count : Nat) :
    dir.interrupt (.appendLogs entries) count =
      { dir with log := dir.log ++ (logFormat.encodeAll entries).take count } := by
  rw [interrupt, ops, ← map_take, foldl_writeLog]

theorem interrupt_rebuildLogFile (entries : List LogEntry) (count : Nat) :
    dir.interrupt (.rebuildLogFile entries) (count + 1) =
      { dir with log := (logFormat.encodeAll entries).take count } := by
  rw [interrupt, ops, take_succ_cons, foldl_cons, ← map_take, foldl_writeLog]
  rfl

theorem interrupt_truncateLogs (index : Int) (logs : List LogEntry)
    (loaded : loadLogs dir.log = some logs) (count : Nat) :
    dir.interrupt (.truncateLogs index) (count + 1) = { dir with
        log := (logFormat.encodeAll (logs.filter fun entry => index < entry.index)).take count } := by
  rw [interrupt, ops, loaded]
  rw [take_succ_cons, foldl_cons, ← map_take, foldl_writeLog]
  rfl

theorem interrupt_saveSnapshot (data : Bytes) (index term : Int) (count : Nat) :
    dir.interrupt (.saveSnapshot data index term) (count + 1) = { dir with
        snapshots := dir.snapshots.insert (snapshotName index term)
          ((snapshotBytes data index term).take count) } := by
  rw [interrupt, ops]
  rw [take_succ_cons, foldl_cons, ← map_take,
    foldl_writeSnapshot _ _ _ [] dir.snapshots rfl, nil_append]
  rfl

end DataDir

end KairosFlux.Raft
