import KairosFlux.Lib.Runs
import KairosFlux.Raft.Replication

/-! Log compaction. The offset of the array is -1 before the first snapshot and the index of the
snapshot after it, but the cut is made with `LastIncludedIndex` in both cases: right for the first
snapshot, one entry too far for every later one. -/

namespace KairosFlux.Raft

open Lib List Node

variable {n : Nat}

def Numbered : Int → List LogEntry → Prop
  | _, [] => True
  | start, entry :: rest => entry.index = start ∧ Numbered (start + 1) rest

namespace Numbered

variable {start : Int} {log more : List LogEntry}

theorem append (first : Numbered start log) (second : Numbered (start + log.length) more) :
    Numbered start (log ++ more) := by
  induction log generalizing start with
  | nil => simpa using second
  | cons entry rest ih =>
    refine ⟨first.1, ih first.2 ?_⟩
    rw [length_cons] at second
    convert second using 1
    push_cast
    ring

section

variable (numbered : Numbered start log)
include numbered

theorem take (k : Nat) : Numbered start (log.take k) := by
  induction log generalizing start k with
  | nil => rw [take_nil]; trivial
  | cons entry rest ih =>
    cases k with
    | zero => trivial
    | succ k => exact ⟨numbered.1, ih numbered.2 k⟩

theorem drop (k : Nat) : Numbered (start + k) (log.drop k) := by
  induction log generalizing start k with
  | nil => rw [drop_nil]; trivial
  | cons entry rest ih =>
    cases k with
    | zero => simpa using numbered
    | succ k =>
      have rest := ih numbered.2 k
      rw [drop_succ_cons]
      convert rest using 1
      push_cast
      ring

theorem getElem? {k : Nat} {entry : LogEntry}
    (found : log[k]? = some entry) : entry.index = start + k := by
  induction log generalizing start k with
  | nil => cases found
  | cons first rest ih =>
    cases k with
    | zero =>
      obtain rfl := Option.some.inj found
      simpa using numbered.1
    | succ k =>
      rw [ih numbered.2 found]
      push_cast
      ring

theorem filter_eq_drop (index : Int) :
    log.filter (fun entry => index < entry.index) = log.drop (index + 1 - start).toNat := by
  induction log generalizing start with
  | nil => rw [filter_nil, drop_nil]
  | cons entry rest ih =>
    have place := numbered.1
    have later := ih numbered.2
    by_cases behind : index < start
    · have zero : (index + 1 - start).toNat = 0 := by omega
      have zeroToo : (index + 1 - (start + 1)).toNat = 0 := by omega
      rw [zeroToo, drop_zero] at later
      rw [zero, drop_zero, filter_cons_of_pos (by simpa [place] using behind), later]
    · have positive : (index + 1 - start).toNat = (index + 1 - (start + 1)).toNat + 1 := by omega
      rw [positive, drop_succ_cons, filter_cons_of_neg (by simpa [place] using behind), later]

theorem filter {index : Int} (ahead : start ≤ index + 1) :
    Numbered (index + 1) (log.filter fun entry => index < entry.index) := by
  have suffix := numbered.drop (index + 1 - start).toNat
  rw [Int.toNat_of_nonneg (by omega), add_sub_cancel] at suffix
  rwa [numbered.filter_eq_drop]

theorem renumber_eq : renumber start log = log := by
  apply ext_getElem?
  intro k
  rw [renumber, List.getElem?_map, List.getElem?_zipIdx]
  cases found : log[k]? with
  | none => rfl
  | some entry =>
    have place := numbered.getElem? found
    simp [← place]

end

end Numbered

namespace Node

def firstIndex (r : Node n) : Int := if 0 < r.lastIncludedIndex then r.lastIncludedIndex + 1 else 0

theorem relIndex_eq_sub (r : Node n) (index : Int) : r.relIndex index = index - r.firstIndex := by
  rw [relIndex, firstIndex]
  split_ifs <;> omega

/-- The log is numbered from its snapshot on, and the log file holds the same. -/
structure Contiguous (r : Node n) : Prop where
  base : 0 ≤ r.lastIncludedIndex
  snapshot : r.lastSnapshotIndex = r.lastIncludedIndex
  numbered : Numbered r.firstIndex r.log
  file : r.wal.logs = r.log

/-- It is the first snapshot, or no entry is behind it. -/
def Clean (r : Node n) (index : Int) : Prop :=
  r.lastIncludedIndex = 0 ∨ (r.log.length : Int) ≤ index - r.lastIncludedIndex
deriving Decidable

variable {r : Node n} {index : Int}

/-- The cut is right exactly in these cases. -/
theorem compactLog_eq_iff (contiguous : r.Contiguous) (ahead : r.lastIncludedIndex < index) :
    r.compactLog index = r.log.filter (fun entry => index < entry.index) ↔ r.Clean index := by
  have base := contiguous.base
  have numbered := contiguous.numbered
  rw [numbered.filter_eq_drop, compactLog, Clean]
  by_cases first : r.lastIncludedIndex = 0
  · have start : r.firstIndex = 0 := if_neg (by omega)
    have suffix := numbered.drop (index + 1).toNat
    rw [start, zero_add, Int.toNat_of_nonneg (by omega)] at suffix
    simp only [start, first, sub_zero, true_or, iff_true]
    split_ifs with inside
    · exact suffix.renumber_eq
    · exact (drop_eq_nil_of_le (by omega)).symm
  · have start : r.firstIndex = r.lastIncludedIndex + 1 := if_pos (by omega)
    constructor
    · intro same
      by_contra long
      -- The cut takes the first entry of the suffix away.
      have length := congrArg List.length same
      rw [if_pos (by omega), renumber, length_map, length_zipIdx, length_drop,
        length_drop] at length
      omega
    · intro short
      rw [if_neg (by omega)]
      exact (drop_eq_nil_of_le (by omega)).symm

/-- What a snapshot at an index must leave: the entries behind it as they were, in memory and in the
log file. -/
def Compacted (r after : Node n) (index : Int) : Prop :=
  after.lastIncludedIndex = index ∧ after.log = r.log.filter (fun entry => index < entry.index) ∧
    (∀ (j : Nat) (entry : LogEntry), after.log[j]? = some entry →
      entry.index = after.lastIncludedIndex + 1 + j) ∧ after.wal.logs = after.log

structure Cut (r after : Node n) (index : Int) : Prop where
  base : after.lastIncludedIndex = index
  snapshot : after.lastSnapshotIndex = index
  log : after.log = r.compactLog index
  file : after.wal.logs = r.wal.logs.filter fun entry => index < entry.index

theorem Contiguous.suffix (contiguous : r.Contiguous) (ahead : r.lastIncludedIndex < index) :
    Numbered (index + 1) (r.log.filter fun entry => index < entry.index) := by
  have base := contiguous.base
  have start : r.firstIndex ≤ index + 1 := by
    rw [firstIndex]
    split_ifs <;> omega
  exact contiguous.numbered.filter start

theorem Cut.compacted_iff {after : Node n} (cut : Cut r after index)
    (contiguous : r.Contiguous) (ahead : r.lastIncludedIndex < index) :
    Compacted r after index ↔ r.Clean index := by
  rw [← compactLog_eq_iff contiguous ahead]
  constructor
  · intro compacted
    rw [← cut.log]
    exact compacted.2.1
  · intro exact
    have log := cut.log.trans exact
    refine ⟨cut.base, log, ?_, ?_⟩
    · intro j entry found
      rw [log] at found
      rw [cut.base]
      exact (contiguous.suffix ahead).getElem? found
    · rw [cut.file, contiguous.file, log]

theorem Cut.contiguous {after : Node n} (cut : Cut r after index)
    (contiguous : r.Contiguous) (ahead : r.lastIncludedIndex < index) (clean : r.Clean index) :
    after.Contiguous := by
  have base := contiguous.base
  have log := cut.log.trans ((compactLog_eq_iff contiguous ahead).mpr clean)
  have start : after.firstIndex = index + 1 := by
    rw [firstIndex, cut.base, if_pos (by omega)]
  constructor
  · rw [cut.base]
    omega
  · rw [cut.snapshot, cut.base]
  · rw [start, log]
    exact contiguous.suffix ahead
  · rw [cut.file, contiguous.file, log]

variable (r : Node n)

def Snapshots (index : Int) : Prop := r.lastSnapshotIndex < index ∧ index ≤ r.commitIndex
deriving Decidable

def Installs (args : InstallSnapshotArgs n) : Prop :=
  r.term ≤ args.term ∧ r.lastIncludedIndex < args.lastIncludedIndex
deriving Decidable

theorem takeSnapshot_refused {index : Int} (refused : ¬ r.Snapshots index) (full : Bool) :
    r.takeSnapshot index full = r := by
  rw [Snapshots] at refused
  rw [takeSnapshot, if_pos (by omega)]

theorem cut_takeSnapshot {index : Int} (accepted : r.Snapshots index) (full : Bool) :
    Cut r (r.takeSnapshot index full) index := by
  rw [Snapshots] at accepted
  rw [takeSnapshot, if_neg (by omega)]
  exact ⟨rfl, rfl, rfl, rfl⟩

structure SameLog (r after : Node n) : Prop where
  base : after.lastIncludedIndex = r.lastIncludedIndex
  snapshot : after.lastSnapshotIndex = r.lastSnapshotIndex
  log : after.log = r.log
  file : after.wal.logs = r.wal.logs

theorem SameLog.refl : SameLog r r := ⟨rfl, rfl, rfl, rfl⟩

variable {r}

variable {after : Node n}

theorem SameLog.trans {middle : Node n} (first : SameLog r middle)
    (second : SameLog middle after) : SameLog r after where
  base := second.base.trans first.base
  snapshot := second.snapshot.trans first.snapshot
  log := second.log.trans first.log
  file := second.file.trans first.file

theorem Contiguous.stay (contiguous : r.Contiguous) (same : SameLog r after) :
    after.Contiguous := by
  constructor
  · rw [same.base]
    exact contiguous.base
  · rw [same.snapshot, same.base]
    exact contiguous.snapshot
  · rw [firstIndex, same.base, same.log]
    exact contiguous.numbered
  · rw [same.file, same.log]
    exact contiguous.file

theorem SameLog.applyCommittedLogs (same : SameLog r after) :
    SameLog r after.applyCommittedLogs := by
  rcases after.applyCommittedLogs_spec with ⟨_, _, applied, _⟩
  rw [applied]
  exact ⟨same.base, same.snapshot, same.log, same.file⟩

variable (r)

theorem sameLog_adopt (leaderTerm : Nat) : SameLog r (r.adopt leaderTerm) := by
  rw [adopt]
  split_ifs
  · exact ⟨rfl, rfl, rfl, rfl⟩
  · exact .refl r

theorem sameLog_follow (leaderTerm : Nat) : SameLog r (r.follow leaderTerm) := by
  rw [follow]
  split_ifs <;> exact ⟨rfl, rfl, rfl, rfl⟩

theorem sameLog_advanceCommit (leaderCommit : Int) : SameLog r (r.advanceCommit leaderCommit) := by
  rw [advanceCommit]
  split_ifs
  · exact .applyCommittedLogs ⟨rfl, rfl, rfl, rfl⟩
  · exact .refl r

theorem sameLog_updateCommitIndex (me : Fin n) : SameLog r (r.updateCommitIndex me) := by
  rw [updateCommitIndex]
  split_ifs
  · split
    · exact .applyCommittedLogs ⟨rfl, rfl, rfl, rfl⟩
    · exact .refl r
  · exact .refl r

theorem sameLog_handleAppendReply (me peer : Fin n) (args : AppendEntriesArgs n)
    (reply : AppendEntriesReply) : SameLog r (r.handleAppendReply me peer args reply) := by
  rw [handleAppendReply]
  split_ifs
  · exact ⟨rfl, rfl, rfl, rfl⟩
  · rcases r.advanceMatch_spec peer (args.prevLogIndex + args.entries.length) with ⟨_, _, same⟩
    have matched : SameLog r (r.advanceMatch peer (args.prevLogIndex + args.entries.length)) := by
      rw [same]
      exact ⟨rfl, rfl, rfl, rfl⟩
    exact matched.trans (sameLog_updateCommitIndex _ me)
  · exact ⟨rfl, rfl, rfl, rfl⟩
  · exact .refl r

theorem installSnapshot_refused {args : InstallSnapshotArgs n} (refused : ¬ r.Installs args)
    (full : Bool) : SameLog r (r.installSnapshot args full).1 := by
  rw [Installs] at refused
  have adopts := r.sameLog_adopt args.term
  rw [installSnapshot]
  simp only
  split_ifs with stale covered
  · exact .refl r
  · exact adopts
  · rw [adopts.base] at covered
    omega

theorem cut_installSnapshot {args : InstallSnapshotArgs n} (accepted : r.Installs args)
    (full : Bool) : Cut r (r.installSnapshot args full).1 args.lastIncludedIndex := by
  rw [Installs] at accepted
  have adopts := r.sameLog_adopt args.term
  rw [installSnapshot]
  rw [if_neg (by omega), if_neg (by rw [adopts.base]; omega)]
  refine ⟨rfl, rfl, ?_, ?_⟩
  · simp only [persistStateLocked, compactLog, adopts.base, adopts.log]
  · simp only [persistStateLocked, saveSnapshot, adopts.file]

/-- A log that entries were merged into, with what has to be done to its file. -/
structure Merged (start : Int) (log added : List LogEntry) (rebuild : Bool)
    (merged : List LogEntry × Bool × List LogEntry) : Prop where
  numbered : Numbered start merged.1
  appended : merged.2.1 = false →
    rebuild = false ∧ ∃ more, merged.1 = log ++ more ∧ merged.2.2 = added ++ more

theorem merged_mergeEntries {relIndex : Int → Int} {start first : Int}
    (position : ∀ index, relIndex index = index - start) {entries log added : List LogEntry}
    {rebuild : Bool} (offered : Numbered first entries) (numbered : Numbered start log)
    (joins : first - start ≤ log.length) :
    Merged start log added rebuild (mergeEntries relIndex entries (log, rebuild, added)) := by
  induction entries generalizing first log added rebuild with
  | nil => exact ⟨numbered, fun kept => ⟨kept, [], by simp [mergeEntries]⟩⟩
  | cons entry rest ih =>
    have place : relIndex entry.index = first - start := by rw [position, offered.1]
    -- The entry is put behind a log that reaches up to it.
    have putLast : ∀ {log : List LogEntry} (rebuild : Bool), Numbered start log →
        first - start = log.length → Merged start (log ++ [entry]) (added ++ [entry]) rebuild
          (mergeEntries relIndex rest (log ++ [entry], rebuild, added ++ [entry])) := by
      intro log rebuild numbered reaches
      have last : Numbered (start + log.length) [entry] := ⟨by rw [offered.1]; omega, trivial⟩
      apply ih offered.2 (numbered.append last)
      rw [length_append, length_singleton]
      omega
    rw [mergeEntries]
    simp only [place]
    by_cases before : first - start < 0
    · rw [if_pos before]
      exact ih offered.2 numbered (by omega)
    · obtain ⟨k, position⟩ := Int.eq_ofNat_of_zero_le (not_lt.mp before)
      simp only [position, Int.toNat_natCast, not_lt.mpr (Int.natCast_nonneg k), if_false]
      cases found : log[k]? with
      | none =>
        rw [List.getElem?_eq_none_iff] at found
        simp only [Option.any_none, Bool.false_eq_true, if_false, Bool.or_false, found, if_true]
        have merged := putLast rebuild numbered (by omega)
        refine ⟨merged.numbered, fun kept => ?_⟩
        rcases merged.appended kept with ⟨before, more, log, added⟩
        exact ⟨before, entry :: more, by rw [log, ← append_cons], by rw [added, ← append_cons]⟩
      | some old =>
        have inside : k < log.length := (List.getElem?_eq_some_iff.mp found).1
        by_cases same : old.term = entry.term
        · simp only [Option.any_some, same, ne_eq, not_true_eq_false, decide_false,
            Bool.false_eq_true, if_false, Bool.or_false, not_le.mpr inside]
          exact ih offered.2 numbered (by omega)
        · have length : (log.take k).length = k := length_take_of_le inside.le
          simp only [Option.any_some, ne_eq, same, not_false_eq_true, decide_true, if_true,
            Bool.or_true, length, le_refl]
          have merged := putLast true (numbered.take k) (by rw [length, position])
          refine ⟨merged.numbered, fun kept => ?_⟩
          cases (merged.appended kept).1

section

variable {r} (contiguous : r.Contiguous)
include contiguous

theorem Contiguous.storeEntries {first : Int}
    {entries : List LogEntry} (offered : Numbered first entries)
    (joins : first - r.firstIndex ≤ r.log.length) : (r.storeEntries entries).Contiguous := by
  have merged : Merged r.firstIndex r.log [] false (mergeEntries r.relIndex entries (r.log, false, [])) :=
    merged_mergeEntries r.relIndex_eq_sub offered contiguous.numbered joins
  rw [Node.storeEntries]
  by_cases empty : entries = []
  · simp only [empty, if_true]
    exact contiguous
  · simp only [empty, if_false]
    refine ⟨contiguous.base, contiguous.snapshot, merged.numbered, ?_⟩
    simp only [persistStateLocked]
    split_ifs with rebuild
    · rfl
    · rcases merged.appended (Bool.eq_false_iff.mpr rebuild) with ⟨_, more, log, added⟩
      rw [log, added, contiguous.file, nil_append]

theorem Contiguous.joins {args : AppendEntriesArgs n}
    (accepted : r.prevMatches args) :
    args.prevLogIndex + 1 - r.firstIndex ≤ r.log.length := by
  have base := contiguous.base
  rw [prevMatches, entryAt, relIndex_eq_sub] at accepted
  split_ifs at accepted with start snapshot behind before
  · rw [firstIndex]
    split_ifs <;> omega
  · rw [firstIndex, if_pos snapshot.2]
    omega
  · cases accepted
  · cases found : r.log[(args.prevLogIndex - r.firstIndex).toNat]? with
    | none =>
      rw [found] at accepted
      cases accepted
    | some entry =>
      have inside := (List.getElem?_eq_some_iff.mp found).1
      omega

theorem Contiguous.appendEntries {args : AppendEntriesArgs n} (offered : Numbered (args.prevLogIndex + 1) args.entries) :
    (r.appendEntries args).1.Contiguous := by
  have follows := contiguous.stay (r.sameLog_follow args.term)
  rw [Node.appendEntries]
  simp only
  split_ifs with stale accepted
  · exact contiguous
  · exact (follows.storeEntries offered (follows.joins accepted)).stay (sameLog_advanceCommit _ _)
  · exact follows

theorem Contiguous.getLastLogIndex : r.getLastLogIndex = r.firstIndex + r.log.length - 1 := by
  rw [Node.getLastLogIndex]
  rcases r.log.eq_nil_or_concat' with empty | ⟨front, last, split⟩
  · rw [empty, firstIndex]
    simp only [List.getLast?_nil, length_nil]
    split_ifs <;> omega
  · have found : r.log[front.length]? = some last := by simp [split]
    have place := contiguous.numbered.getElem? found
    rw [split, List.getLast?_concat, length_append, length_singleton]
    simp only [place]
    push_cast
    ring

theorem Contiguous.appendEntry (command : Bytes) : (r.appendEntry command).1.Contiguous := by
  have added : (r.addEntry (r.newEntry command)).Contiguous := by
    refine ⟨contiguous.base, contiguous.snapshot, ?_, ?_⟩
    · apply contiguous.numbered.append
      refine ⟨?_, trivial⟩
      rw [newEntry, contiguous.getLastLogIndex]
      simp
    · rw [addEntry, contiguous.file]
  rw [Node.appendEntry]
  split_ifs
  · exact added.stay (.applyCommittedLogs ⟨rfl, rfl, rfl, rfl⟩)
  · exact added
  · exact contiguous

end

end Node

/-- Calls on one node: appends, as a leader and as a follower, and snapshots. -/
inductive LogCall (n : Nat)
  | startElection (me : Fin n)
  | wonAsCandidate (electionTerm : Nat)
  | appendEntry (command : Bytes)
  | appendReply (me peer : Fin n) (args : AppendEntriesArgs n) (reply : AppendEntriesReply)
  | appendEntries (args : AppendEntriesArgs n)
  | takeSnapshot (index : Int) (full : Bool)
  | installSnapshot (args : InstallSnapshotArgs n) (full : Bool)

namespace LogCall

def step (r : Node n) : LogCall n → Node n
  | startElection me => (r.startElection me).1
  | wonAsCandidate electionTerm => r.wonAsCandidate electionTerm
  | appendEntry command => (r.appendEntry command).1
  | appendReply me peer args reply => r.handleAppendReply me peer args reply
  | appendEntries args => (r.appendEntries args).1
  | takeSnapshot index full => r.takeSnapshot index full
  | installSnapshot args full => (r.installSnapshot args full).1

/-- The entries of a request are a part of a log. -/
def WellFormed : LogCall n → Prop
  | appendEntries args => Numbered (args.prevLogIndex + 1) args.entries
  | _ => True

def Exact (r : Node n) : LogCall n → Prop
  | takeSnapshot index full =>
    r.Snapshots index → r.Compacted (r.takeSnapshot index full) index
  | installSnapshot args full =>
    r.Installs args → r.Compacted (r.installSnapshot args full).1 args.lastIncludedIndex
  | _ => True

/-- A snapshot that is not refused is the first of the node, or covers its whole log. -/
def Clean (r : Node n) : LogCall n → Prop
  | takeSnapshot index _ => r.Snapshots index → r.Clean index
  | installSnapshot args _ => r.Installs args → r.Clean args.lastIncludedIndex
  | _ => True

theorem exact_iff_clean {r : Node n} (contiguous : r.Contiguous) (call : LogCall n) :
    call.Exact r ↔ call.Clean r := by
  cases call with
  | takeSnapshot index full =>
    refine forall_congr' fun accepted => ?_
    exact (r.cut_takeSnapshot accepted full).compacted_iff contiguous
      (contiguous.snapshot ▸ accepted.1)
  | installSnapshot args full =>
    refine forall_congr' fun accepted => ?_
    exact (r.cut_installSnapshot accepted full).compacted_iff contiguous accepted.2
  | _ => exact Iff.rfl

theorem contiguous_step {r : Node n} (contiguous : r.Contiguous) {call : LogCall n}
    (wellFormed : call.WellFormed) (clean : call.Clean r) : (step r call).Contiguous := by
  cases call with
  | startElection me =>
    rw [step, Node.startElection]
    split_ifs
    · exact contiguous
    · exact contiguous.stay ⟨rfl, rfl, rfl, rfl⟩
  | wonAsCandidate electionTerm =>
    rw [step, Node.wonAsCandidate]
    split_ifs
    · exact contiguous.stay ⟨rfl, rfl, rfl, rfl⟩
    · exact contiguous
  | appendEntry command => exact contiguous.appendEntry command
  | appendReply me peer args reply =>
    exact contiguous.stay (r.sameLog_handleAppendReply me peer args reply)
  | appendEntries args => exact contiguous.appendEntries wellFormed
  | takeSnapshot index full =>
    by_cases accepted : r.Snapshots index
    · exact (r.cut_takeSnapshot accepted full).contiguous contiguous
        (contiguous.snapshot ▸ accepted.1) (clean accepted)
    · rw [step, r.takeSnapshot_refused accepted]
      exact contiguous
  | installSnapshot args full =>
    by_cases accepted : r.Installs args
    · exact (r.cut_installSnapshot accepted full).contiguous contiguous accepted.2 (clean accepted)
    · exact contiguous.stay (r.installSnapshot_refused accepted full)

end LogCall

open LogCall

/-- Every snapshot of a run leaves exactly the entries behind it, in memory and in the log file,
if and only if each is the first of the node or covers its whole log. -/
theorem compaction_exact_iff (r : Node n) (contiguous : r.Contiguous) (calls : List (LogCall n))
    (wellFormed : ∀ call ∈ calls, call.WellFormed) :
    Guarded step (fun r call => call.Exact r) r calls ↔
      Guarded step (fun r call => call.Clean r) r calls := by
  induction calls generalizing r with
  | nil => exact Iff.rfl
  | cons call rest ih =>
    rcases forall_mem_cons.mp wellFormed with ⟨first, later⟩
    rw [Guarded, Guarded, exact_iff_clean contiguous]
    refine and_congr_right fun clean => ?_
    exact ih _ (contiguous_step contiguous first clean) later

def fourEntries : AppendEntriesArgs 2 where
  term := 1
  leaderID := 1
  prevLogIndex := -1
  prevLogTerm := 0
  entries := [⟨0, 1, [97], false⟩, ⟨1, 1, [98], false⟩, ⟨2, 1, [99], false⟩, ⟨3, 1, [100], false⟩]
  leaderCommit := 3

theorem contiguous_new : (new : Node n).Contiguous := ⟨le_rfl, rfl, trivial, rfl⟩

/-- The first snapshot leaves two entries, the second covers them. -/
theorem compaction_exact_chain :
    Guarded step (fun r call => call.Exact r) (new : Node 2)
      [.appendEntries fourEntries, .takeSnapshot 1 false, .takeSnapshot 3 false] := by
  refine (compaction_exact_iff _ contiguous_new _ ?_).mpr ?_
  · simp [LogCall.WellFormed, fourEntries, Numbered]
  · exact ⟨trivial, fun _ => .inl (by decide), fun _ => .inr (by decide), trivial⟩

/-- After a second snapshot at 2 the node has lost the entry 3, which the log file still has. -/
theorem compaction_drops_entry :
    ¬ Guarded step (fun r call => call.Exact r) (new : Node 2)
        [.appendEntries fourEntries, .takeSnapshot 1 false, .takeSnapshot 2 false] ∧
      (run step (new : Node 2)
        [.appendEntries fourEntries, .takeSnapshot 1 false, .takeSnapshot 2 false]).log = [] ∧
      (run step (new : Node 2)
        [.appendEntries fourEntries, .takeSnapshot 1 false, .takeSnapshot 2 false]).wal.logs =
          [⟨3, 1, [100], false⟩] := by
  refine ⟨fun exact => ?_, by decide, by decide⟩
  rcases exact with ⟨_, _, second, _⟩
  have compacted := second (by decide)
  have kept : ([] : List LogEntry) = [⟨3, 1, [100], false⟩] := compacted.2.1
  cases kept

end KairosFlux.Raft
