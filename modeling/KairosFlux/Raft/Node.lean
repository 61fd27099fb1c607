import KairosFlux.Lib.Bytes

/-! One node of a group (`raft/raft.go`, `raft/raft_election.go`, `raft/raft_replication.go`,
`raft/raft_snapshot.go`, `raft/rpc.go`): what each function does while it holds the lock. Nodes are
numbered as in `peers`. -/

namespace KairosFlux.Raft

open Lib Function

inductive State
  | follower
  | candidate
  | leader
  deriving DecidableEq

structure LogEntry where
  index : Int
  term : Nat
  command : Bytes
  isSnapshot : Bool
  deriving DecidableEq

structure Snapshot where
  data : Bytes
  lastIncludedIndex : Int
  lastIncludedTerm : Nat

/-- The files of a node: the last term and vote, the log, and the latest snapshot. -/
structure RaftWAL (n : Nat) where
  state : Nat × Option (Fin n)
  logs : List LogEntry
  snapshot : Option Snapshot

/-- No vote stands for the vote -1. `applyCh` is all that was put on the channel. -/
structure Node (n : Nat) where
  state : State
  votedFor : Option (Fin n)
  term : Nat
  commitIndex : Int
  lastApplied : Int
  lastSnapshotIndex : Int
  nextIndex : Fin n → Int
  matchIndex : Fin n → Int
  log : List LogEntry
  applyCh : List LogEntry
  lastIncludedIndex : Int
  lastIncludedTerm : Nat
  wal : RaftWAL n

structure RequestVoteArgs (n : Nat) where
  term : Nat
  candidateID : Fin n
  lastLogIndex : Int
  lastLogTerm : Nat

structure RequestVoteReply where
  term : Nat
  voteGranted : Bool

structure AppendEntriesArgs (n : Nat) where
  term : Nat
  leaderID : Fin n
  prevLogIndex : Int
  prevLogTerm : Nat
  entries : List LogEntry
  leaderCommit : Int

structure AppendEntriesReply where
  term : Nat
  success : Bool

structure InstallSnapshotArgs (n : Nat) where
  term : Nat
  leaderID : Fin n
  data : Bytes
  lastIncludedIndex : Int
  lastIncludedTerm : Nat

structure InstallSnapshotReply where
  term : Nat
  success : Bool

def serializeLogEntries : List LogEntry → Bytes
  | [] => []
  | entries => beBytes 4 entries.length ++ entries.flatMap fun entry =>
    beBytes 8 (entry.index % 2 ^ 64).toNat ++ beBytes 8 entry.term ++
      beBytes 8 entry.command.length ++ entry.command

namespace Node

variable {n : Nat}

def new : Node n where
  state := .follower
  votedFor := none
  term := 0
  commitIndex := -1
  lastApplied := -1
  lastSnapshotIndex := 0
  nextIndex _ := 0
  matchIndex _ := 0
  log := []
  applyCh := []
  lastIncludedIndex := 0
  lastIncludedTerm := 0
  wal := ⟨(0, none), [], none⟩

variable (r : Node n)

def persistStateLocked : Node n := { r with wal := { r.wal with state := (r.term, r.votedFor) } }

/-- `base` is -1 as long as there is no snapshot. -/
def relIndex (absIndex : Int) : Int :=
  absIndex - (if 0 < r.lastIncludedIndex then r.lastIncludedIndex else -1) - 1

def entryAt (relativeIndex : Int) : Option LogEntry :=
  if relativeIndex < 0 then none else r.log[relativeIndex.toNat]?

def getTermAt (absIndex : Int) : Nat :=
  if absIndex < 0 then 0
  else if absIndex = r.lastIncludedIndex ∧ 0 < r.lastIncludedIndex then r.lastIncludedTerm
  else (r.entryAt (r.relIndex absIndex)).elim 0 LogEntry.term

def getLastLogIndex : Int :=
  match r.log.getLast? with
  | some entry => entry.index
  | none => if 0 < r.lastIncludedIndex then r.lastIncludedIndex else -1

def lastLogTerm : Nat :=
  match r.log.getLast? with
  | some entry => entry.term
  | none => if 0 < r.lastIncludedIndex then r.lastIncludedTerm else 0

/-- The part of `startElection` under the lock, and the request for the other nodes. -/
def startElection (me : Fin n) : Node n × Option (RequestVoteArgs n) :=
  if r.state = .leader then (r, none)
  else
    let r :=
      { r with state := .candidate, term := r.term + 1, votedFor := some me }.persistStateLocked
    (r, some ⟨r.term, me, r.getLastLogIndex, r.lastLogTerm⟩)

/-- What a vote-collecting goroutine does with a reply, and what it puts on the channel. -/
def handleVoteReply (reply : RequestVoteReply) : Node n × Bool :=
  if r.term < reply.term then
    ({ r with term := reply.term, state := .follower, votedFor := none }, false)
  else (r, reply.term = r.term ∧ reply.voteGranted)

/-- The timeout of `awaitVotes`. -/
def abandonElection (electionTerm : Nat) : Node n :=
  if r.state = .candidate ∧ r.term = electionTerm then { r with state := .follower, votedFor := none }
  else r

-- Without a snapshot `matchIndex` starts at 0.
def becomeLeader : Node n :=
  { r with
    state := .leader
    nextIndex := fun _ => r.getLastLogIndex + 1
    matchIndex := fun _ => r.lastIncludedIndex }

def wonAsCandidate (electionTerm : Nat) : Node n :=
  if r.state = .candidate ∧ r.term = electionTerm then r.becomeLeader else r

def isLogUpToDate (candidateLastIndex : Int) (candidateLastTerm : Nat) : Bool :=
  if r.log = [] ∧ r.lastIncludedIndex = 0 then true
  else
    let last := r.log.getLast?
    let lastIndex := last.elim r.lastIncludedIndex LogEntry.index
    let lastTerm := last.elim r.lastIncludedTerm LogEntry.term
    lastTerm < candidateLastTerm ∨ (candidateLastTerm = lastTerm ∧ lastIndex ≤ candidateLastIndex)

def observe (candidateTerm : Nat) : Node n :=
  if r.term < candidateTerm then
    { r with term := candidateTerm, state := .follower, votedFor := none }.persistStateLocked
  else r

def requestVote (args : RequestVoteArgs n) : Node n × RequestVoteReply :=
  if args.term < r.term then (r, ⟨r.term, false⟩)
  else
    let r := r.observe args.term
    if (r.votedFor = none ∨ r.votedFor = some args.candidateID) ∧
        r.isLogUpToDate args.lastLogIndex args.lastLogTerm then
      ({ r with votedFor := some args.candidateID }.persistStateLocked, ⟨r.term, true⟩)
    else (r, ⟨r.term, false⟩)

def applyLoop : Nat → Node n → Node n
  | 0, r => r
  | count + 1, r =>
    let r := { r with lastApplied := r.lastApplied + 1 }
    match r.entryAt (r.relIndex r.lastApplied) with
    | some entry => applyLoop count { r with applyCh := r.applyCh ++ [entry] }
    | none => applyLoop count r

def applyCommittedLogs : Node n := applyLoop (r.commitIndex - r.lastApplied).toNat r

theorem applyLoop_spec (count : Nat) (r : Node n) : ∃ entries, applyLoop count r =
        { r with lastApplied := r.lastApplied + count, applyCh := r.applyCh ++ entries } ∧
      ∀ entry ∈ entries, ∃ index, r.lastApplied < index ∧ index ≤ r.lastApplied + count ∧
        r.entryAt (r.relIndex index) = some entry := by
  induction count generalizing r with
  | zero => exact ⟨[], by simp [applyLoop], nofun⟩
  | succ count ih =>
    -- The rest of the loop reads the same log.
    have goesOn : ∀ more, ∃ entries,
        applyLoop count { r with lastApplied := r.lastApplied + 1, applyCh := r.applyCh ++ more } =
          { r with
            lastApplied := r.lastApplied + (count + 1 : Nat)
            applyCh := r.applyCh ++ (more ++ entries) } ∧
        ∀ entry ∈ entries, ∃ index, r.lastApplied < index ∧
          index ≤ r.lastApplied + (count + 1 : Nat) ∧
          r.entryAt (r.relIndex index) = some entry := by
      intro more
      rcases ih { r with lastApplied := r.lastApplied + 1, applyCh := r.applyCh ++ more } with
        ⟨entries, same, listed⟩
      refine ⟨entries, ?_, ?_⟩
      · rw [same, List.append_assoc]
        congr 1
        push_cast
        omega
      · intro entry member
        rcases listed entry member with ⟨index, after, upTo, found⟩
        simp only at after upTo
        refine ⟨index, by omega, ?_, found⟩
        omega
    rw [applyLoop]
    split
    case h_1 entry found =>
      rcases goesOn [entry] with ⟨entries, same, listed⟩
      refine ⟨entry :: entries, same, fun other member => ?_⟩
      rcases List.mem_cons.mp member with rfl | rest
      · exact ⟨r.lastApplied + 1, by omega, by push_cast; omega, found⟩
      · exact listed other rest
    case h_2 =>
      rcases goesOn [] with ⟨entries, same, listed⟩
      rw [List.append_nil] at same
      exact ⟨entries, same, listed⟩

theorem applyCommittedLogs_spec : ∃ last entries, r.applyCommittedLogs =
        { r with lastApplied := last, applyCh := r.applyCh ++ entries } ∧
      ∀ entry ∈ entries, ∃ index, r.lastApplied < index ∧ index ≤ r.commitIndex ∧
        r.entryAt (r.relIndex index) = some entry := by
  rcases applyLoop_spec (r.commitIndex - r.lastApplied).toNat r with ⟨entries, same, listed⟩
  refine ⟨_, entries, same, fun entry member => ?_⟩
  rcases listed entry member with ⟨index, after, upTo, found⟩
  exact ⟨index, after, by omega, found⟩

@[simp] theorem applyCommittedLogs_state : r.applyCommittedLogs.state = r.state := by
  rcases r.applyCommittedLogs_spec with ⟨_, _, same, _⟩
  rw [same]

@[simp] theorem applyCommittedLogs_term : r.applyCommittedLogs.term = r.term := by
  rcases r.applyCommittedLogs_spec with ⟨_, _, same, _⟩
  rw [same]

@[simp] theorem applyCommittedLogs_votedFor : r.applyCommittedLogs.votedFor = r.votedFor := by
  rcases r.applyCommittedLogs_spec with ⟨_, _, same, _⟩
  rw [same]

@[simp] theorem applyCommittedLogs_log : r.applyCommittedLogs.log = r.log := by
  rcases r.applyCommittedLogs_spec with ⟨_, _, same, _⟩
  rw [same]

@[simp] theorem applyCommittedLogs_commitIndex : r.applyCommittedLogs.commitIndex = r.commitIndex := by
  rcases r.applyCommittedLogs_spec with ⟨_, _, same, _⟩
  rw [same]

@[simp] theorem applyCommittedLogs_nextIndex : r.applyCommittedLogs.nextIndex = r.nextIndex := by
  rcases r.applyCommittedLogs_spec with ⟨_, _, same, _⟩
  rw [same]

@[simp] theorem applyCommittedLogs_matchIndex : r.applyCommittedLogs.matchIndex = r.matchIndex := by
  rcases r.applyCommittedLogs_spec with ⟨_, _, same, _⟩
  rw [same]

@[simp] theorem applyCommittedLogs_lastIncludedIndex : r.applyCommittedLogs.lastIncludedIndex = r.lastIncludedIndex := by
  rcases r.applyCommittedLogs_spec with ⟨_, _, same, _⟩
  rw [same]

@[simp] theorem applyCommittedLogs_wal : r.applyCommittedLogs.wal = r.wal := by
  rcases r.applyCommittedLogs_spec with ⟨_, _, same, _⟩
  rw [same]

/-- The loop of `AppendEntries` over the entries, with the log, whether the log file has to be
rebuilt, and the entries to add to it. -/
def mergeEntries (relIndex : Int → Int) :
    List LogEntry → List LogEntry × Bool × List LogEntry → List LogEntry × Bool × List LogEntry
  | [], merged => merged
  | entry :: entries, (log, needRebuild, newEntries) =>
    let relativeIndex := relIndex entry.index
    if relativeIndex < 0 then mergeEntries relIndex entries (log, needRebuild, newEntries)
    else
      let conflict := log[relativeIndex.toNat]?.any fun old => old.term ≠ entry.term
      let log := if conflict then log.take relativeIndex.toNat else log
      let needRebuild := needRebuild || conflict
      if log.length ≤ relativeIndex.toNat then
        mergeEntries relIndex entries (log ++ [entry], needRebuild, newEntries ++ [entry])
      else mergeEntries relIndex entries (log, needRebuild, newEntries)

-- A previous index of 0 is rejected by a node without a snapshot.
def prevMatches (args : AppendEntriesArgs n) : Bool :=
  if args.prevLogIndex < 0 then true
  else if args.prevLogIndex = r.lastIncludedIndex ∧ 0 < r.lastIncludedIndex then
    args.prevLogTerm = r.lastIncludedTerm
  else if r.lastIncludedIndex < args.prevLogIndex then
    (r.entryAt (r.relIndex args.prevLogIndex)).any fun entry => entry.term = args.prevLogTerm
  else false

def storeEntries (entries : List LogEntry) : Node n :=
  let (log, needRebuild, newEntries) := mergeEntries r.relIndex entries (r.log, false, [])
  if entries = [] then r
  else
    let logs := if needRebuild then log else r.wal.logs ++ newEntries
    { r with log := log, wal := { r.wal with logs := logs } }.persistStateLocked

def advanceCommit (leaderCommit : Int) : Node n :=
  if r.commitIndex < leaderCommit then
    let lastLogIndex := r.log.getLast?.elim r.lastIncludedIndex LogEntry.index
    { r with commitIndex := min leaderCommit lastLogIndex }.applyCommittedLogs
  else r

/-- The sender is the leader of its term, and a candidate steps back. -/
def follow (leaderTerm : Nat) : Node n :=
  { (if r.term < leaderTerm then { r with term := leaderTerm, votedFor := none }.persistStateLocked
      else r) with state := .follower }

def appendEntries (args : AppendEntriesArgs n) : Node n × AppendEntriesReply :=
  if args.term < r.term then (r, ⟨r.term, false⟩)
  else
    let r := r.follow args.term
    if r.prevMatches args then
      ((r.storeEntries args.entries).advanceCommit args.leaderCommit, ⟨r.term, true⟩)
    else (r, ⟨r.term, false⟩)

def replicas (me : Fin n) (index : Int) : Nat :=
  1 + ((List.finRange n).filter fun peer => peer ≠ me ∧ index ≤ r.matchIndex peer).length

/-- The loop of `updateCommitIndex` from the end of the log. -/
def findCommit (me : Fin n) : Nat → Option Int
  | 0 => none
  | i + 1 =>
    match r.log[i]? with
    | none => findCommit me i
    | some entry =>
      if r.commitIndex < entry.index ∧ entry.term = r.term ∧ n / 2 < r.replicas me entry.index then
        some entry.index
      else findCommit me i

def updateCommitIndex (me : Fin n) : Node n :=
  if r.state = .leader then
    match r.findCommit me r.log.length with
    | some index => { r with commitIndex := index }.applyCommittedLogs
    | none => r
  else r

/-- What `replicateLog` sends to a peer. A snapshot that cannot be loaded is not sent. -/
inductive Outgoing (n : Nat)
  | entries (args : AppendEntriesArgs n)
  | snapshot (args : InstallSnapshotArgs n)
  | nothing

def Outgoing.entries? : Outgoing n → Option (AppendEntriesArgs n)
  | .entries args => some args
  | _ => none

def Outgoing.snapshot? : Outgoing n → Option (InstallSnapshotArgs n)
  | .snapshot args => some args
  | _ => none

theorem Outgoing.entries?_eq_some (out : Outgoing n) (args : AppendEntriesArgs n) :
    out.entries? = some args ↔ out = .entries args := by
  cases out <;> simp [entries?]

theorem Outgoing.snapshot?_eq_some (out : Outgoing n) (args : InstallSnapshotArgs n) :
    out.snapshot? = some args ↔ out = .snapshot args := by
  cases out <;> simp [snapshot?]

def replicateTo (me peer : Fin n) : Outgoing n :=
  let prevLogIndex := r.nextIndex peer - 1
  if prevLogIndex < r.lastIncludedIndex ∧ 0 < r.lastIncludedIndex then
    match r.wal.snapshot with
    | some snapshot =>
      .snapshot ⟨r.term, me, snapshot.data, r.lastIncludedIndex, r.lastIncludedTerm⟩
    | none => .nothing
  else
    let relativeStart := r.relIndex (r.nextIndex peer)
    let entries := if relativeStart < 0 then [] else r.log.drop relativeStart.toNat
    .entries ⟨r.term, me, prevLogIndex, r.getTermAt prevLogIndex, entries, r.commitIndex⟩

theorem replicateTo_entries {me peer : Fin n} {args : AppendEntriesArgs n}
    (sent : r.replicateTo me peer = .entries args) :
    args = ⟨r.term, me, r.nextIndex peer - 1, r.getTermAt (r.nextIndex peer - 1),
      if r.relIndex (r.nextIndex peer) < 0 then []
      else r.log.drop (r.relIndex (r.nextIndex peer)).toNat, r.commitIndex⟩ := by
  rw [replicateTo] at sent
  by_cases behind : r.nextIndex peer - 1 < r.lastIncludedIndex ∧ 0 < r.lastIncludedIndex
  · simp only [if_pos behind] at sent
    split at sent <;> cases sent
  · simp only [if_neg behind] at sent
    exact (Outgoing.entries.inj sent).symm

def newEntry (command : Bytes) : LogEntry := ⟨r.getLastLogIndex + 1, r.term, command, false⟩

def addEntry (entry : LogEntry) : Node n :=
  { r with log := r.log ++ [entry], wal := { r.wal with logs := r.wal.logs ++ [entry] } }

/-- `AppendEntry` up to the call of `replicateLog`. No index stands for the error. -/
def appendEntry (command : Bytes) : Node n × Option Int :=
  if r.state = .leader then
    let entry := r.newEntry command
    let added := r.addEntry entry
    (if n = 1 then { added with commitIndex := entry.index }.applyCommittedLogs else added,
      some entry.index)
  else (r, none)

theorem appendEntry_state (command : Bytes) : (r.appendEntry command).1.state = r.state := by
  rw [appendEntry]
  split_ifs
  · exact applyCommittedLogs_state _
  · rfl
  · rfl

theorem appendEntry_progress (command : Bytes) :
    (r.appendEntry command).1.nextIndex = r.nextIndex ∧
      (r.appendEntry command).1.matchIndex = r.matchIndex := by
  rw [appendEntry]
  split_ifs <;> simp [addEntry]

def handleAppendError (peer : Fin n) : Node n :=
  if r.state = .leader then
    { r with nextIndex := update r.nextIndex peer (r.nextIndex peer - 1) }
  else r

/-- `matchIndex` and `nextIndex` of a peer that has entries up to an index. -/
def advanceMatch (peer : Fin n) (matched : Int) : Node n :=
  if r.matchIndex peer < matched then
    { r with
      matchIndex := update r.matchIndex peer matched
      nextIndex := update r.nextIndex peer (matched + 1) }
  else r

def handleAppendReply (me peer : Fin n) (args : AppendEntriesArgs n) (reply : AppendEntriesReply) :
    Node n :=
  if r.term < reply.term then { r with term := reply.term, state := .follower, votedFor := none }
  else if reply.success then
    (r.advanceMatch peer (args.prevLogIndex + args.entries.length)).updateCommitIndex me
  else if 0 < r.nextIndex peer then
    { r with nextIndex := update r.nextIndex peer (r.nextIndex peer - 1) }
  else r

/-- Entries from a position on, numbered anew behind a snapshot. -/
def renumber (start : Int) (log : List LogEntry) : List LogEntry :=
  log.zipIdx.map fun numbered => { numbered.1 with index := start + numbered.2 }

def compactLog (index : Int) : List LogEntry :=
  let newLogStart := index + 1 - r.lastIncludedIndex
  if 0 ≤ newLogStart ∧ newLogStart ≤ r.log.length then
    renumber (index + 1) (r.log.drop newLogStart.toNat)
  else []

/-- The snapshot and what `TruncateLogs` leaves of the log file. -/
def saveSnapshot (snapshot : Snapshot) : RaftWAL n :=
  { r.wal with
    snapshot := some snapshot
    logs := r.wal.logs.filter fun entry => snapshot.lastIncludedIndex < entry.index }

/-- `full` says whether the apply channel is full. -/
def notify (full : Bool) (entry : LogEntry) : List LogEntry :=
  if full then r.applyCh else r.applyCh ++ [entry]

def takeSnapshot (index : Int) (full : Bool) : Node n :=
  if index ≤ r.lastSnapshotIndex ∨ r.commitIndex < index then r
  else
    let snapshotEntries := r.log.take (index + 1 - r.lastIncludedIndex).toNat
    let term :=
      match snapshotEntries.getLast? with
      | some entry => entry.term
      | none => if index = r.lastIncludedIndex then r.lastIncludedTerm else 0
    let data := serializeLogEntries snapshotEntries
    { r with
      log := r.compactLog index
      lastSnapshotIndex := index
      lastIncludedIndex := index
      lastIncludedTerm := term
      applyCh := r.notify full ⟨index, term, data, true⟩
      wal := r.saveSnapshot ⟨data, index, term⟩ }.persistStateLocked

/-- The term of a snapshot, which is not written to the state file yet. -/
def adopt (leaderTerm : Nat) : Node n :=
  if r.term < leaderTerm then { r with term := leaderTerm, state := .follower, votedFor := none }
  else r

def installSnapshot (args : InstallSnapshotArgs n) (full : Bool) : Node n × InstallSnapshotReply :=
  if args.term < r.term then (r, ⟨r.term, false⟩)
  else
    let r := r.adopt args.term
    if args.lastIncludedIndex ≤ r.lastIncludedIndex then (r, ⟨r.term, false⟩)
    else
      ({ r with
        log := r.compactLog args.lastIncludedIndex
        commitIndex := args.lastIncludedIndex
        lastApplied := args.lastIncludedIndex
        lastSnapshotIndex := args.lastIncludedIndex
        lastIncludedIndex := args.lastIncludedIndex
        lastIncludedTerm := args.lastIncludedTerm
        applyCh := r.notify full ⟨args.lastIncludedIndex, args.lastIncludedTerm, args.data, true⟩
        wal := r.saveSnapshot ⟨args.data, args.lastIncludedIndex, args.lastIncludedTerm⟩
        }.persistStateLocked, ⟨r.term, true⟩)

def handleSnapshotReply (peer : Fin n) (reply : InstallSnapshotReply) : Node n :=
  if reply.success then
    { r with
      nextIndex := update r.nextIndex peer (r.lastIncludedIndex + 1)
      matchIndex := update r.matchIndex peer r.lastIncludedIndex }
  else if r.term < reply.term then
    { r with term := reply.term, state := .follower, votedFor := none }
  else r

/-- A new process over the files: `NewRaftGroup` with `readPersist`. -/
def restart : Node n :=
  let loaded : Node n :=
    { new with
      term := r.wal.state.1
      votedFor := r.wal.state.2
      log := r.wal.logs
      wal := r.wal }
  match r.wal.snapshot with
  | none => loaded
  | some snapshot =>
    let index := snapshot.lastIncludedIndex
    let loaded := { loaded with
      lastIncludedIndex := index
      lastIncludedTerm := snapshot.lastIncludedTerm }
    if 0 < index then
      { loaded with
        commitIndex := index
        lastApplied := index
        lastSnapshotIndex := index
        applyCh := [⟨index, snapshot.lastIncludedTerm, snapshot.data, true⟩] }
    else loaded

end Node

end KairosFlux.Raft
