import KairosFlux.Raft.Compaction
import KairosFlux.Raft.DataDir

/-! The files of a node and the values they stand for: each call of `raft/raft_wal.go` does to the
files what it does to the term and vote, the log and the latest snapshot. -/

namespace KairosFlux.Raft

open Lib List Option RaftWAL DataDir

variable {n : Nat}

def voteNumber (vote : Option (Fin n)) : Int := vote.elim (-1) fun node => (node : Nat)

-- A number that is neither -1 nor a node is no vote either.
def voteOf (number : Int) : Option (Fin n) :=
  if valid : 0 ≤ number ∧ number.toNat < n then some ⟨number.toNat, valid.2⟩ else none

theorem voteOf_voteNumber (vote : Option (Fin n)) : voteOf (voteNumber vote) = vote := by
  cases vote with
  | none => rfl
  | some node => simp [voteNumber, voteOf]

namespace RaftWAL

def pair (wal : RaftWAL n) : Int × Int := (wal.state.1, voteNumber wal.state.2)

def base (wal : RaftWAL n) : Int := wal.snapshot.elim 0 Snapshot.lastIncludedIndex

def perform (wal : RaftWAL n) : WalCall → RaftWAL n
  | .saveState term votedFor => { wal with state := (term.toNat, voteOf votedFor) }
  | .appendLogs entries => { wal with logs := wal.logs ++ entries }
  | .rebuildLogFile entries => { wal with logs := entries }
  | .saveSnapshot data index term => { wal with snapshot := some ⟨data, index, term.toNat⟩ }
  | .deleteOldSnapshots _ => wal
  | .truncateLogs index => { wal with logs := wal.logs.filter fun entry => index < entry.index }

end RaftWAL

theorem stateBytes_length (term votedFor : Int) : (stateBytes term votedFor).length = 24 := by
  simp [stateBytes]

theorem readState_stateBytes (term votedFor : Int) (termRange : Int64Range term)
    (voteRange : Int64Range votedFor) :
    readState (stateBytes term votedFor) = some (term, votedFor) := by
  have length := stateBytes_length term votedFor
  obtain ⟨magic, left⟩ := slice_drop (show (stateBytes term votedFor).drop 0 = beBytes 4 magicNumber ++
    (beBytes 4 version ++ (int64Bytes term ++ int64Bytes votedFor)) by
      simp only [stateBytes, append_assoc, drop_zero]) (by simp : _ = 4)
  obtain ⟨first, left⟩ := slice_drop (slice_drop left (by simp : _ = 8)).2 (by simp : _ = 16)
  have second := slice_drop_last left (by simp : _ = 24)
  rw [slice, drop_zero] at magic
  rw [readState, if_neg (by omega), magic, beValue_u32 _ (by decide), if_neg (by simp),
    if_neg (by omega), first, second, int64Value_int64Bytes _ termRange,
    int64Value_int64Bytes _ voteRange]

theorem readSnapshot_snapshotBytes (data : Bytes) (index term : Int) (indexRange : Int64Range index)
    (termRange : Int64Range term) (small : data.length ≤ maxAlloc) :
    readSnapshot (snapshotBytes data index term) = .ok (data, index, term) := by
  have length : (snapshotBytes data index term).length = 32 + data.length := by
    simp [snapshotBytes, snapshotHeader]
    omega
  obtain ⟨magic, left⟩ := slice_drop (show (snapshotBytes data index term).drop 0 =
    beBytes 4 magicNumber ++ (beBytes 4 version ++
      (int64Bytes index ++ (int64Bytes term ++ (beBytes 8 data.length ++ data)))) by
        simp only [snapshotBytes, snapshotHeader, append_assoc, drop_zero]) (by simp : _ = 4)
  obtain ⟨first, left⟩ := slice_drop (slice_drop left (by simp : _ = 8)).2 (by simp : _ = 16)
  obtain ⟨second, left⟩ := slice_drop left (by simp : _ = 24)
  obtain ⟨third, body⟩ := slice_drop left (by simp : _ = 32)
  rw [slice, drop_zero] at magic
  have there : ¬ (data = [] ∧ data.length ≠ 0) := by
    rintro ⟨rfl, nonzero⟩
    exact nonzero rfl
  rw [readSnapshot, if_neg (by omega), magic, beValue_u32 _ (by decide), if_neg (by simp),
    if_neg (by omega)]
  simp only [first, second, third, body, beValue_u64 _ (small.trans_lt (by decide)), if_neg there,
    int64Value_int64Bytes _ indexRange, int64Value_int64Bytes _ termRange, take_length,
    Nat.sub_self, replicate_zero, append_nil]

theorem latest_eq {target : Bytes × Bytes} {index : Int} (named : indexOfName target.1 = some index)
    {files : List (Bytes × Bytes)}
    (older : ∀ file ∈ files, file = target ∨ ∃ lower ∈ indexOfName file.1, lower < index)
    {found : Int × Option Bytes}
    (start : found = (index, some target.2) ∨ (found.1 < index ∧ target ∈ files)) :
    latest files found = (index, some target.2) := by
  induction files generalizing found with
  | nil =>
    rcases start with here | ⟨_, none⟩
    · exact here
    · cases none
  | cons file rest ih =>
    rcases forall_mem_cons.mp older with ⟨first, later⟩
    apply ih later
    rcases first with rfl | ⟨lower, named, less⟩
    · left
      simp only [named]
      rcases start with here | ⟨below, _⟩
      · rw [here, if_neg (lt_irrefl _)]
      · rw [if_pos below]
    · have lowerName : indexOfName file.1 = some lower := named
      simp only [lowerName]
      rcases start with here | ⟨below, member⟩
      · left
        rw [here, if_neg (not_lt.mpr less.le)]
      · right
        refine ⟨?_, ?_⟩
        · split_ifs
          · exact less
          · exact below
        · rcases mem_cons.mp member with rfl | inside
          · rename_i same
            have equal : lower = index := some.inj (lowerName.symm.trans same)
            exact absurd less (equal ▸ lt_irrefl _)
          · exact inside

/-- The snapshot is there, whole, and every other one has a smaller index. -/
structure Newest (snapshots : SortedMap Bytes Bytes) (snapshot : Snapshot) : Prop where
  positive : 0 < snapshot.lastIncludedIndex
  index : Int64Range snapshot.lastIncludedIndex
  term : Int64Range snapshot.lastIncludedTerm
  small : snapshot.data.length ≤ maxAlloc
  file : snapshots.lookup (snapshotName snapshot.lastIncludedIndex snapshot.lastIncludedTerm) =
    some (snapshotBytes snapshot.data snapshot.lastIncludedIndex snapshot.lastIncludedTerm)
  older : ∀ name, snapshots.lookup name ≠ none →
    name = snapshotName snapshot.lastIncludedIndex snapshot.lastIncludedTerm ∨
      ∃ index ∈ indexOfName name, index < snapshot.lastIncludedIndex

def HoldsSnapshot (snapshots : SortedMap Bytes Bytes) : Option Snapshot → Prop
  | none => snapshots.entries = []
  | some snapshot => Newest snapshots snapshot

/-- Behind the log there may be a part of an entry. -/
structure Represents (dir : DataDir) (wal : RaftWAL n) (torn : Bytes) : Prop where
  state : (dir.state = none ∧ wal.pair = (0, -1)) ∨
    dir.state = some (stateBytes wal.pair.1 wal.pair.2)
  range : Int64Range wal.pair.1 ∧ Int64Range wal.pair.2
  log : dir.log = logFormat.encodeAll wal.logs ++ torn
  torn : Torn torn
  fits : ∀ entry ∈ wal.logs, entry.Fits
  snapshots : HoldsSnapshot dir.snapshots wal.snapshot

theorem Newest.latest {snapshots : SortedMap Bytes Bytes} {snapshot : Snapshot}
    (newest : Newest snapshots snapshot) :
    latest snapshots.entries (0, none) = (snapshot.lastIncludedIndex, some
      (snapshotBytes snapshot.data snapshot.lastIncludedIndex snapshot.lastIncludedTerm)) := by
  have target := (snapshots.mem_entries_iff _ _).mpr newest.file
  refine latest_eq (indexOfName_snapshotName _ _ newest.index) ?_ (.inr ⟨newest.positive, target⟩)
  intro file member
  have there := (snapshots.mem_entries_iff _ _).mp member
  rcases newest.older file.1 (by rw [there]; exact nofun) with same | lower
  · left
    rw [same, newest.file] at there
    exact Prod.ext same (some.inj there).symm
  · exact .inr lower

namespace Represents

variable {dir : DataDir} {wal : RaftWAL n} {torn : Bytes}

section

variable (represents : Represents dir wal torn)
include represents

theorem loadState : dir.loadState = some wal.pair := by
  rcases represents.state with ⟨absent, first⟩ | whole
  · rw [DataDir.loadState, absent, first]
    rfl
  · rw [DataDir.loadState, whole, elim_some,
      readState_stateBytes _ _ represents.range.1 represents.range.2]

theorem loadLogs : loadLogs dir.log = some wal.logs := by
  rw [represents.log]
  exact loadLogs_encodeAll _ _ represents.fits represents.torn

theorem snapshot_cases :
    wal.snapshot = none ∧ dir.snapshots.entries = [] ∨
      ∃ snapshot, wal.snapshot = some snapshot ∧ Newest dir.snapshots snapshot := by
  have holds := represents.snapshots
  cases shape : wal.snapshot with
  | none =>
    rw [shape] at holds
    exact .inl ⟨rfl, holds⟩
  | some snapshot =>
    rw [shape] at holds
    exact .inr ⟨snapshot, rfl, holds⟩

theorem loadLatestSnapshot :
    dir.loadLatestSnapshot = .ok (wal.snapshot.map fun snapshot =>
      (snapshot.data, snapshot.lastIncludedIndex, (snapshot.lastIncludedTerm : Int))) := by
  rcases represents.snapshot_cases with ⟨shape, empty⟩ | ⟨snapshot, shape, newest⟩
  · rw [DataDir.loadLatestSnapshot, empty, shape]
    rfl
  · rw [DataDir.loadLatestSnapshot, newest.latest, shape]
    simp only
    rw [readSnapshot_snapshotBytes _ _ _ newest.index newest.term newest.small]
    rfl

theorem readPersist :
    dir.readPersist = some ⟨wal.pair.1, wal.pair.2, wal.logs, wal.base,
      wal.snapshot.elim 0 fun snapshot => (snapshot.lastIncludedTerm : Int)⟩ := by
  rw [DataDir.readPersist, represents.loadState, represents.loadLatestSnapshot]
  simp only [represents.loadLogs, map_some]
  cases shape : wal.snapshot with
  | none | some => simp [base, shape]

theorem base_nonneg : 0 ≤ wal.base := by
  have holds := represents.snapshots
  rw [base]
  cases shape : wal.snapshot with
  | none => exact le_rfl
  | some snapshot =>
    rw [shape] at holds
    exact (show Newest dir.snapshots snapshot from holds).positive.le

end

end Represents

/-- The numbers of a call are integers of the machine, and its slices can be allocated. -/
def WalCall.Fits : WalCall → Prop
  | .saveState term votedFor => Int64Range term ∧ Int64Range votedFor
  | .appendLogs entries => ∀ entry ∈ entries, entry.Fits
  | .rebuildLogFile entries => ∀ entry ∈ entries, entry.Fits
  | .saveSnapshot data index term =>
    Int64Range index ∧ Int64Range term ∧ data.length ≤ maxAlloc
  | .deleteOldSnapshots _ => True
  | .truncateLogs _ => True

instance (call : WalCall) : Decidable call.Fits := by
  cases call <;> dsimp only [WalCall.Fits] <;> infer_instance

/-- Entries are appended only to a file that ends with a whole one. -/
def DataDir.Whole (dir : DataDir) : WalCall → Prop
  | .appendLogs entries => entries ≠ [] → logFormat.tornTail dir.log = []
  | _ => True

instance (dir : DataDir) (call : WalCall) : Decidable (dir.Whole call) := by
  cases call <;> dsimp only [DataDir.Whole] <;> infer_instance

def NodePair (n : Nat) (term votedFor : Int) : Prop :=
  ((term.toNat : Int), voteNumber (voteOf votedFor : Option (Fin n))) = (term, votedFor)

/-- What a crash leaves of written entries, of which some are whole already. -/
theorem take_encodeAll_behind (entries : List LogEntry) (kept count : Nat)
    (fits : ∀ entry ∈ entries, entry.Fits)
    (written : (logFormat.encodeAll (entries.take kept)).length ≤ count) :
    ∃ more torn, more <+: entries.drop kept ∧ (logFormat.encodeAll entries).take count =
      logFormat.encodeAll (entries.take kept ++ more) ++ torn ∧ Torn torn := by
  have rest : ∀ entry ∈ entries.drop kept, entry.Fits :=
    fun entry member => fits entry (mem_of_mem_drop member)
  rcases take_encodeAll_torn (entries.drop kept)
    (count - (logFormat.encodeAll (entries.take kept)).length) rest with
    ⟨more, torn, front, cut, stops⟩
  refine ⟨more, torn, front, ?_, stops⟩
  have split : logFormat.encodeAll entries =
      logFormat.encodeAll (entries.take kept) ++ logFormat.encodeAll (entries.drop kept) := by
    rw [← logFormat.encodeAll_append, take_append_drop]
  rw [split, take_append, take_of_length_le written, cut, logFormat.encodeAll_append, append_assoc]

namespace Represents

variable {dir : DataDir} {wal : RaftWAL n} {torn : Bytes}

theorem tornTail (represents : Represents dir wal torn) : logFormat.tornTail dir.log = torn := by
  rw [represents.log]
  exact (logFormat.records_encodeAll _ _ represents.fits represents.torn.1).2

variable {term : Int} {entries : List LogEntry}

section

variable (represents : Represents dir wal torn)
include represents

theorem saveState {votedFor : Int}
    (fits : (WalCall.saveState term votedFor).Fits) (pair : NodePair n term votedFor) :
    Represents { dir with state := some (stateBytes term votedFor) }
      (wal.perform (.saveState term votedFor)) torn := by
  have same : (wal.perform (.saveState term votedFor)).pair = (term, votedFor) := pair
  constructor
  · right
    rw [same]
  · rw [same]
    exact fits
  · exact represents.log
  · exact represents.torn
  · exact represents.fits
  · exact represents.snapshots

theorem interrupt_saveState {votedFor : Int}
    (fits : (WalCall.saveState term votedFor).Fits) (pair : NodePair n term votedFor) {count : Nat}
    (safe : (dir.interrupt (.saveState term votedFor) count).state = dir.state ∨
      (dir.interrupt (.saveState term votedFor) count).state = some (stateBytes term votedFor)) :
    Represents (dir.interrupt (.saveState term votedFor) count) wal torn ∨
      Represents (dir.interrupt (.saveState term votedFor) count)
        (wal.perform (.saveState term votedFor)) torn := by
  cases count with
  | zero => exact .inl represents
  | succ count =>
    rw [dir.interrupt_saveState] at safe ⊢
    rcases safe with old | new
    · left
      exact ⟨by rw [old]; exact represents.state, represents.range, represents.log,
        represents.torn, represents.fits, represents.snapshots⟩
    · right
      simp only at new
      rw [new]
      exact represents.saveState fits pair

theorem complete_saveState (term votedFor : Int) : dir.complete (.saveState term votedFor) =
      { dir with state := some (stateBytes term votedFor) } := by
  have length := stateBytes_length term votedFor
  have old : (dir.state.getD []).length ≤ 24 := by
    rcases represents.state with ⟨absent, _⟩ | whole
    · rw [absent]
      exact Nat.zero_le _
    · rw [whole]
      exact (stateBytes_length _ _).le
  have all : (dir.ops (.saveState term votedFor)).length ≤ 24 + 1 := by
    simp [ops, length]
  rw [← dir.interrupt_of_length_le _ _ all, dir.interrupt_saveState,
    take_of_length_le length.le, drop_eq_nil_of_le (by omega), append_nil]

theorem setLog {log : Bytes}
    {tail : Bytes} (shape : log = logFormat.encodeAll entries ++ tail) (stops : Torn tail)
    (fits : ∀ entry ∈ entries, entry.Fits) :
    Represents { dir with log := log } { wal with logs := entries } tail :=
  ⟨represents.state, represents.range, shape, stops, fits, represents.snapshots⟩

theorem interrupt_appendLogs
    (fits : (WalCall.appendLogs entries).Fits) (whole : dir.Whole (.appendLogs entries))
    (count : Nat) :
    ∃ more tail, more <+: entries ∧ Represents (dir.interrupt (.appendLogs entries) count)
      { wal with logs := wal.logs ++ more } tail := by
  rw [dir.interrupt_appendLogs]
  by_cases none : entries = []
  · refine ⟨[], torn, nil_prefix, represents.setLog ?_ represents.torn ?_⟩
    · rw [none, represents.log]
      simp [Framing.encodeAll]
    · rw [append_nil]
      exact represents.fits
  · have clean : torn = [] := represents.tornTail.symm.trans (whole none)
    rcases take_encodeAll_torn entries count fits with ⟨more, tail, front, cut, stops⟩
    refine ⟨more, tail, front, represents.setLog ?_ stops ?_⟩
    · rw [cut, represents.log, clean, logFormat.encodeAll_append, append_nil, append_assoc]
    · exact forall_mem_append.mpr
        ⟨represents.fits, fun entry new => fits entry (front.subset new)⟩

theorem complete_appendLogs
    (fits : (WalCall.appendLogs entries).Fits) (whole : dir.Whole (.appendLogs entries)) :
    ∃ tail, Represents (dir.complete (.appendLogs entries))
      (wal.perform (.appendLogs entries)) tail := by
  have all : (dir.ops (.appendLogs entries)).length ≤ (logFormat.encodeAll entries).length := by
    simp [ops]
  have shape : dir.complete (.appendLogs entries) =
      { dir with log := dir.log ++ logFormat.encodeAll entries } := by
    rw [← dir.interrupt_of_length_le _ _ all, dir.interrupt_appendLogs, take_length]
  have behind : ∀ entry ∈ wal.logs ++ entries, entry.Fits := by
    intro entry member
    exact (mem_append.mp member).elim (represents.fits entry) (fits entry)
  rw [shape]
  by_cases none : entries = []
  · refine ⟨torn, represents.setLog ?_ represents.torn behind⟩
    rw [none, represents.log]
    simp [Framing.encodeAll]
  · have clean : torn = [] := represents.tornTail.symm.trans (whole none)
    refine ⟨[], represents.setLog ?_ torn_nil behind⟩
    rw [represents.log, clean, logFormat.encodeAll_append, append_nil, append_nil]

theorem rewrite (fits : ∀ entry ∈ entries, entry.Fits) (kept count : Nat)
    (written : (logFormat.encodeAll (entries.take kept)).length ≤ count) :
    ∃ more tail, more <+: entries.drop kept ∧
      Represents { dir with log := (logFormat.encodeAll entries).take count }
        { wal with logs := entries.take kept ++ more } tail := by
  rcases take_encodeAll_behind entries kept count fits written with ⟨more, tail, front, cut, stops⟩
  refine ⟨more, tail, front, represents.setLog cut stops ?_⟩
  intro entry member
  rcases mem_append.mp member with old | new
  · exact fits entry (mem_of_mem_take old)
  · exact fits entry (mem_of_mem_drop (front.subset new))

theorem complete_rebuildLogFile (fits : (WalCall.rebuildLogFile entries).Fits) :
    Represents (dir.complete (.rebuildLogFile entries)) (wal.perform (.rebuildLogFile entries)) [] := by
  have all : (dir.ops (.rebuildLogFile entries)).length ≤
      (logFormat.encodeAll entries).length + 1 := by
    simp [ops]
  rw [← dir.interrupt_of_length_le _ _ all, dir.interrupt_rebuildLogFile, take_length]
  exact represents.setLog (append_nil _).symm torn_nil fits

theorem complete_truncateLogs (index : Int) :
    Represents (dir.complete (.truncateLogs index)) (wal.perform (.truncateLogs index)) [] := by
  have all : (dir.ops (.truncateLogs index)).length ≤
      (logFormat.encodeAll (wal.logs.filter fun entry => index < entry.index)).length + 1 := by
    simp [ops, represents.loadLogs]
  rw [← dir.interrupt_of_length_le _ _ all,
    dir.interrupt_truncateLogs index wal.logs represents.loadLogs, take_length]
  exact represents.setLog (append_nil _).symm torn_nil
    fun entry member => represents.fits entry (mem_of_mem_filter member)

theorem interrupt_truncateLogs (empty : wal.logs = []) (index : Int) (count : Nat) :
    ∃ tail, Represents (dir.interrupt (.truncateLogs index) count) wal tail := by
  cases count with
  | zero => exact ⟨torn, represents⟩
  | succ count =>
    refine ⟨[], ?_⟩
    have none : ∀ entry ∈ wal.logs, entry.Fits := represents.fits
    rw [dir.interrupt_truncateLogs index wal.logs represents.loadLogs]
    refine represents.setLog ?_ torn_nil none
    simp [empty, Framing.encodeAll]

theorem complete_saveSnapshot {data : Bytes} {index : Int}
    (fits : (WalCall.saveSnapshot data index term).Fits) (ahead : wal.base < index)
    (natural : 0 ≤ term) :
    Represents (dir.complete (.saveSnapshot data index term))
      (wal.perform (.saveSnapshot data index term)) torn := by
  have all : (dir.ops (.saveSnapshot data index term)).length ≤
      (snapshotBytes data index term).length + 1 := by
    simp [ops]
  have base := represents.base_nonneg
  have back : ((term.toNat : Nat) : Int) = term := Int.toNat_of_nonneg natural
  rw [← dir.interrupt_of_length_le _ _ all, dir.interrupt_saveSnapshot, take_length]
  refine ⟨represents.state, represents.range, represents.log, represents.torn, represents.fits, ?_⟩
  constructor
  · exact base.trans_lt ahead
  · exact fits.1
  · simpa only [back] using fits.2.1
  · exact fits.2.2
  · simp only [back, SortedMap.lookup_insert_self]
  · intro name there
    simp only [back]
    by_cases same : name = snapshotName index term
    · exact .inl same
    · right
      rw [SortedMap.lookup_insert_of_ne _ _ _ _ same] at there
      rcases represents.snapshot_cases with ⟨_, empty⟩ | ⟨snapshot, shape, newest⟩
      · exact absurd (by rw [SortedMap.lookup, empty]; rfl) there
      · have before : snapshot.lastIncludedIndex < index := by
          rw [RaftWAL.base, shape] at ahead
          exact ahead
        rcases newest.older name there with rfl | ⟨lower, named, less⟩
        · exact ⟨_, indexOfName_snapshotName _ _ newest.index, before⟩
        · exact ⟨lower, named, less.trans before⟩

theorem interrupt_deleteOldSnapshots {keepIndex : Int}
    (newer : keepIndex ≤ wal.base) (count : Nat) :
    Represents (dir.interrupt (.deleteOldSnapshots keepIndex) count) wal torn := by
  rw [interrupt, ops, ← map_take]
  have removed : ∀ name ∈ ((dir.snapshots.entries.filter fun file =>
      (indexOfName file.1).any fun index => index < keepIndex).take count).map Prod.fst,
      ∃ index ∈ indexOfName name, index < keepIndex := by
    intro name member
    rcases mem_map.mp member with ⟨file, inside, rfl⟩
    have chosen := (mem_filter.mp (mem_of_mem_take inside)).2
    simpa [Option.any_eq_true] using chosen
  rcases dir.foldl_removeSnapshot ((dir.snapshots.entries.filter fun file =>
      (indexOfName file.1).any fun index => index < keepIndex).take count) with
    ⟨state, log, snapshots⟩
  refine ⟨by rw [state]; exact represents.state, represents.range, by rw [log]; exact represents.log,
    represents.torn, represents.fits, ?_⟩
  rcases represents.snapshot_cases with ⟨shape, empty⟩ | ⟨snapshot, shape, newest⟩
  · rw [shape]
    simp only [empty, filter_nil, take_nil, map_nil, foldl_nil]
    exact empty
  · have same : wal.base = snapshot.lastIncludedIndex := by
      rw [base, shape]
      rfl
    rw [shape]
    refine ⟨newest.positive, newest.index, newest.term, newest.small, ?_, ?_⟩
    · rw [snapshots, if_neg, newest.file]
      intro gone
      rcases removed _ gone with ⟨index, named, less⟩
      rw [indexOfName_snapshotName _ _ newest.index] at named
      obtain rfl := some.inj named
      omega
    · intro name there
      apply newest.older
      intro absent
      rw [snapshots, absent, ite_self] at there
      exact there rfl

end

end Represents

end KairosFlux.Raft
