import KairosFlux.Raft.Persistence

/-! A node and its files over crashes and restarts. The files are written by several calls in a row,
and a crash may come after any file operation of any of them. -/

namespace KairosFlux.Raft

open Lib List Option Node RaftWAL

variable {n : Nat}

/-- What a node does between two restarts. -/
inductive NodeCall (n : Nat)
  | log (call : LogCall n)
  | requestVote (args : RequestVoteArgs n)
  | voteReply (reply : RequestVoteReply)
  | abandonElection (electionTerm : Nat)
  | appendError (peer : Fin n)
  | snapshotReply (peer : Fin n) (reply : InstallSnapshotReply)

namespace Node

variable (r : Node n)

/-- `persistStateLocked`. -/
def saved : WalCall := .saveState r.term (voteNumber r.votedFor)

def observeCalls (term : Nat) (after : Node n) : List WalCall :=
  if r.term < term then [after.saved] else []

def storeCalls (entries : List LogEntry) : List WalCall :=
  if entries = [] then []
  else
    let merged := mergeEntries r.relIndex entries (r.log, false, [])
    [if merged.2.1 then .rebuildLogFile merged.1 else .appendLogs merged.2.2, r.saved]

def snapshotCalls (after : Node n) (data : Bytes) : List WalCall :=
  [.saveSnapshot data after.lastIncludedIndex after.lastIncludedTerm,
    .deleteOldSnapshots after.lastIncludedIndex, .truncateLogs after.lastIncludedIndex, after.saved]

end Node

namespace NodeCall

def step (r : Node n) : NodeCall n → Node n
  | log call => LogCall.step r call
  | requestVote args => (r.requestVote args).1
  | voteReply reply => (r.handleVoteReply reply).1
  | abandonElection electionTerm => r.abandonElection electionTerm
  | appendError peer => r.handleAppendError peer
  | snapshotReply peer reply => r.handleSnapshotReply peer reply

/-- The calls that write the files, in their order. -/
def walCalls (r : Node n) : NodeCall n → List WalCall
  | log (.startElection me) => if r.state = .leader then [] else [(r.startElection me).1.saved]
  | log (.appendEntry command) =>
    if r.state = .leader then [.appendLogs [r.newEntry command]] else []
  | log (.appendEntries args) =>
    if args.term < r.term then []
    else
      let followed := r.follow args.term
      r.observeCalls args.term followed ++
        if followed.prevMatches args then followed.storeCalls args.entries else []
  | log (.takeSnapshot index full) =>
    if r.Snapshots index then
      snapshotCalls (r.takeSnapshot index full)
        (serializeLogEntries (r.log.take (index + 1 - r.lastIncludedIndex).toNat))
    else []
  | log (.installSnapshot args full) =>
    if r.Installs args then snapshotCalls (r.installSnapshot args full).1 args.data else []
  | requestVote args =>
    if args.term < r.term then []
    else
      r.observeCalls args.term (r.observe args.term) ++
        if (r.requestVote args).2.voteGranted then [(r.requestVote args).1.saved] else []
  | log (.wonAsCandidate _) => []
  | log (.appendReply _ _ _ _) => []
  | voteReply _ => []
  | abandonElection _ => []
  | appendError _ => []
  | snapshotReply _ _ => []

def WellFormed : NodeCall n → Prop
  | log call => call.WellFormed
  | _ => True

def Clean (r : Node n) : NodeCall n → Prop
  | log call => call.Clean r
  | _ => True

end NodeCall

/-- The pair of the last completed `SaveState`, and the entries whose append has returned and that
were not truncated on request. -/
structure Promise where
  pair : Int × Int
  entries : List LogEntry

namespace Promise

variable (p : Promise)

def after : WalCall → Promise
  | .saveState term votedFor => { p with pair := (term, votedFor) }
  | .appendLogs entries => { p with entries := p.entries ++ entries }
  | .rebuildLogFile entries => { p with entries := entries }
  | .truncateLogs index => { p with entries := p.entries.filter fun entry => index < entry.index }
  | _ => p

/-- What is promised while a call is under way, with the pairs that may be found. -/
def during : WalCall → List (Int × Int) × List LogEntry
  | .saveState term votedFor => ([p.pair, (term, votedFor)], p.entries)
  | .rebuildLogFile entries => ([p.pair], p.entries.filter (· ∈ entries))
  | .truncateLogs index => ([p.pair], p.entries.filter fun entry => index < entry.index)
  | _ => ([p.pair], p.entries)

end Promise

structure CrashSite where
  dir : DataDir
  pairs : List (Int × Int)
  entries : List LogEntry

/-- A crash after some completed calls and some operations of the next one. -/
def crashAt (dir : DataDir) (p : Promise) : List WalCall → Nat → Nat → CrashSite
  | [], _, _ => ⟨dir, [p.pair], p.entries⟩
  | call :: _, 0, count => ⟨dir.interrupt call count, (p.during call).1, (p.during call).2⟩
  | call :: rest, done + 1, count => crashAt (dir.complete call) (p.after call) rest done count

def firstAfter (base : Int) : Int := if 0 < base then base + 1 else 0

instance Numbered.decidable : ∀ start log, Decidable (Numbered start log)
  | _, [] => inferInstanceAs (Decidable True)
  | start, entry :: rest =>
    have := Numbered.decidable (start + 1) rest
    inferInstanceAs (Decidable (entry.index = start ∧ Numbered (start + 1) rest))

structure CrashSite.Restored (site : CrashSite) (data : PersistData) : Prop where
  pair : (data.currentTerm, data.votedFor) ∈ site.pairs
  contiguous : Numbered (firstAfter data.lastIncludedIndex) data.log
  entries : ∀ entry ∈ site.entries, entry ∈ data.log ∨ entry.index ≤ data.lastIncludedIndex

instance (site : CrashSite) (data : PersistData) : Decidable (site.Restored data) :=
  decidable_of_iff ((data.currentTerm, data.votedFor) ∈ site.pairs ∧
      Numbered (firstAfter data.lastIncludedIndex) data.log ∧
      ∀ entry ∈ site.entries, entry ∈ data.log ∨ entry.index ≤ data.lastIncludedIndex)
    ⟨fun all => ⟨all.1, all.2.1, all.2.2⟩, fun restored => ⟨restored.1, restored.2, restored.3⟩⟩

structure Process (n : Nat) where
  node : Node n
  dir : DataDir
  promise : Promise

inductive ProcessEvent (n : Nat)
  | call (call : NodeCall n)
  | crash (call : NodeCall n) (done count : Nat)

def DataDir.loaded (dir : DataDir) (data : PersistData) : RaftWAL n where
  state := (data.currentTerm.toNat, voteOf data.votedFor)
  logs := data.log
  snapshot :=
    if 0 < data.lastIncludedIndex then
      match dir.loadLatestSnapshot with
      | .ok (some (bytes, index, term)) => some ⟨bytes, index, term.toNat⟩
      | _ => none
    else none

def Node.boot (wal : RaftWAL n) : Node n := { new with wal := wal }.restart

namespace Process

def new : Process n := ⟨.new, .new, ⟨(0, -1), []⟩⟩

variable (p : Process n)

def site (call : NodeCall n) (done count : Nat) : CrashSite :=
  crashAt p.dir p.promise (call.walCalls p.node) done count

-- A process that panics does not come up.
def restart (site : CrashSite) : Process n :=
  match site.dir.readPersist with
  | none => { p with dir := site.dir }
  | some data =>
    ⟨.boot (site.dir.loaded data), site.dir, ⟨(data.currentTerm, data.votedFor), site.entries⟩⟩

def step (p : Process n) : ProcessEvent n → Process n
  | .call call =>
    let calls := call.walCalls p.node
    ⟨call.step p.node, calls.foldl DataDir.complete p.dir, calls.foldl Promise.after p.promise⟩
  | .crash call done count => p.restart (p.site call done count)

def Restores (p : Process n) : ProcessEvent n → Prop
  | .call _ => True
  | .crash call done count =>
    match (p.site call done count).dir.readPersist with
    | none => False
    | some data => (p.site call done count).Restored data

end Process

/-- A crash in a call leaves nothing that a restart cannot make out: the state file has its old or
its new content; a log file that is written anew is not emptied yet or has the promised entries
again; and with entries in the log file, a snapshot is not begun yet or the log is truncated. -/
def SafeCrash (dir : DataDir) (p : Promise) (call : WalCall) (count : Nat) : Prop :=
  match call with
  | .saveState term votedFor =>
    (dir.interrupt call count).state = dir.state ∨
      (dir.interrupt call count).state = some (stateBytes term votedFor)
  | .appendLogs _ => True
  | .rebuildLogFile entries => count = 0 ∨ ∃ kept ∈ List.range (entries.length + 1),
      (logFormat.encodeAll (entries.take kept)).length < count ∧
        ∀ entry ∈ p.entries, entry ∈ entries → entry ∈ entries.take kept
  | .saveSnapshot _ _ _ =>
    count = 0 ∨ (dir.ops call).length ≤ count ∧ loadLogs dir.log = some []
  | .deleteOldSnapshots _ => loadLogs dir.log = some []
  | .truncateLogs _ => (dir.ops call).length ≤ count ∨ loadLogs dir.log = some []

instance (dir : DataDir) (p : Promise) : ∀ call count, Decidable (SafeCrash dir p call count)
  | .appendLogs _, _ => isTrue trivial
  | .deleteOldSnapshots _, _ => inferInstanceAs (Decidable (_ = _))
  | .rebuildLogFile _, _ => by dsimp only [SafeCrash]; infer_instance
  | .saveState .., _ | .saveSnapshot .., _ | .truncateLogs _, _ => inferInstanceAs (Decidable (_ ∨ _))

/-- Every append of the calls finds whole entries. -/
def WholeCalls (dir : DataDir) : List WalCall → Prop
  | [] => True
  | call :: rest => dir.Whole call ∧ WholeCalls (dir.complete call) rest

/-- The same up to a crash, which is a safe one. -/
def SafeCalls (dir : DataDir) (p : Promise) : List WalCall → Nat → Nat → Prop
  | [], _, _ => True
  | call :: _, 0, count => dir.Whole call ∧ SafeCrash dir p call count
  | call :: rest, done + 1, count =>
    dir.Whole call ∧ SafeCalls (dir.complete call) (p.after call) rest done count

instance WholeCalls.decidable : ∀ dir calls, Decidable (WholeCalls dir calls)
  | _, [] => inferInstanceAs (Decidable True)
  | dir, call :: rest =>
    have := WholeCalls.decidable (dir.complete call) rest
    inferInstanceAs (Decidable (_ ∧ _))

instance SafeCalls.decidable : ∀ dir p calls done count, Decidable (SafeCalls dir p calls done count)
  | _, _, [], _, _ => inferInstanceAs (Decidable True)
  | _, _, _ :: _, 0, _ => inferInstanceAs (Decidable (_ ∧ _))
  | dir, p, call :: rest, done + 1, count =>
    have := SafeCalls.decidable (dir.complete call) (p.after call) rest done count
    inferInstanceAs (Decidable (_ ∧ _))

/-- What the calls of a node are to a log: they go on where it ends. -/
def RaftWAL.Contiguous (wal : RaftWAL n) : Prop := Numbered (firstAfter wal.base) wal.logs

def RaftWAL.Issued (wal : RaftWAL n) : WalCall → Prop
  | .saveState term votedFor => wal.Contiguous ∧ NodePair n term votedFor
  | .appendLogs entries =>
    wal.Contiguous ∧ Numbered (firstAfter wal.base + wal.logs.length) entries
  | .rebuildLogFile entries => wal.Contiguous ∧ Numbered (firstAfter wal.base) entries
  | .saveSnapshot _ index term => wal.Contiguous ∧ wal.base < index ∧ 0 ≤ term
  | .deleteOldSnapshots keepIndex => keepIndex ≤ wal.base
  | .truncateLogs index =>
    index = wal.base ∧ 0 < index ∧ ∃ start ≤ index + 1, Numbered start wal.logs

def RaftWAL.IssuedAll (wal : RaftWAL n) : List WalCall → Prop
  | [] => wal.Contiguous
  | call :: rest => wal.Issued call ∧ (wal.perform call).IssuedAll rest

/-- The files stand for the values, and these keep what is promised. -/
structure Written (dir : DataDir) (p : Promise) (wal : RaftWAL n) (torn : Bytes) : Prop where
  represents : Represents dir wal torn
  pair : wal.pair = p.pair
  kept : ∀ entry ∈ p.entries, entry ∈ wal.logs ∨ entry.index ≤ wal.base

def CrashSite.Survived (site : CrashSite) (wal : RaftWAL n) (torn : Bytes) : Prop :=
  wal.Contiguous ∧ ∃ pair ∈ site.pairs, Written site.dir ⟨pair, site.entries⟩ wal torn

theorem Numbered.beginning {start : Int} {log front : List LogEntry} (numbered : Numbered start log)
    (short : front <+: log) : Numbered start front := by
  rcases short with ⟨rest, rfl⟩
  have taken := numbered.take front.length
  rwa [take_left] at taken

namespace Written

variable {dir : DataDir} {p : Promise} {wal : RaftWAL n} {torn : Bytes}

theorem complete (written : Written dir p wal torn) {call : WalCall} (fits : call.Fits)
    (whole : dir.Whole call) (issued : wal.Issued call) :
    ∃ tail, Written (dir.complete call) (p.after call) (wal.perform call) tail := by
  cases call with
  | saveState term votedFor =>
    refine ⟨torn, ?_, issued.2, written.kept⟩
    rw [written.represents.complete_saveState]
    exact written.represents.saveState fits issued.2
  | appendLogs entries =>
    rcases written.represents.complete_appendLogs fits whole with ⟨tail, represents⟩
    refine ⟨tail, represents, written.pair, fun entry member => ?_⟩
    rcases mem_append.mp member with old | new
    · exact (written.kept entry old).imp_left (mem_append_left _)
    · exact .inl (mem_append_right _ new)
  | rebuildLogFile entries =>
    exact ⟨[], written.represents.complete_rebuildLogFile fits, written.pair,
      fun _ member => .inl member⟩
  | saveSnapshot data index term =>
    refine ⟨torn, written.represents.complete_saveSnapshot fits issued.2.1 issued.2.2,
      written.pair, fun entry member => ?_⟩
    exact (written.kept entry member).imp_right fun covered => covered.trans issued.2.1.le
  | deleteOldSnapshots keepIndex =>
    refine ⟨torn, ?_, written.pair, written.kept⟩
    rw [← dir.interrupt_of_length_le _ _ le_rfl]
    exact written.represents.interrupt_deleteOldSnapshots issued _
  | truncateLogs index =>
    refine ⟨[], written.represents.complete_truncateLogs index, written.pair,
      fun entry member => ?_⟩
    rcases mem_filter.mp member with ⟨promised, later⟩
    exact (written.kept entry promised).imp_left fun inside => mem_filter.mpr ⟨inside, later⟩

theorem completeAll (written : Written dir p wal torn) {calls : List WalCall}
    (fits : ∀ call ∈ calls, call.Fits) (whole : WholeCalls dir calls)
    (issued : wal.IssuedAll calls) :
    ∃ tail, Written (calls.foldl DataDir.complete dir) (calls.foldl Promise.after p)
      (calls.foldl perform wal) tail := by
  induction calls generalizing dir p wal torn with
  | nil => exact ⟨torn, written⟩
  | cons call rest ih =>
    rcases forall_mem_cons.mp fits with ⟨first, later⟩
    rcases written.complete first whole.1 issued.1 with ⟨tail, next⟩
    exact ih next later whole.2 issued.2

theorem survived {site : CrashSite} {wal' : RaftWAL n} {tail : Bytes} (contiguous : wal'.Contiguous)
    (represents : Represents site.dir wal' tail) (pair : wal'.pair ∈ site.pairs)
    (kept : ∀ entry ∈ site.entries, entry ∈ wal'.logs ∨ entry.index ≤ wal'.base) :
    ∃ (after : RaftWAL n) (torn : Bytes), site.Survived after torn :=
  ⟨wal', tail, contiguous, wal'.pair, pair, represents, rfl, kept⟩

theorem interrupt (written : Written dir p wal torn) {call : WalCall} (fits : call.Fits)
    (whole : dir.Whole call) (issued : wal.Issued call) {count : Nat}
    (safe : SafeCrash dir p call count) :
    ∃ (after : RaftWAL n) (tail : Bytes), CrashSite.Survived
      ⟨dir.interrupt call count, (p.during call).1, (p.during call).2⟩ after tail := by
  have represents := written.represents
  have one := mem_singleton.mpr written.pair
  cases call with
  | saveState term votedFor =>
    rcases represents.interrupt_saveState fits issued.2 safe with old | new
    · exact survived issued.1 old (by rw [written.pair]; exact .head _) written.kept
    · have pair : (wal.perform (.saveState term votedFor)).pair = (term, votedFor) := issued.2
      have contiguous : (wal.perform (.saveState term votedFor)).Contiguous := issued.1
      refine survived contiguous new ?_ written.kept
      rw [pair]
      exact .tail _ (.head _)
  | appendLogs entries =>
    rcases represents.interrupt_appendLogs fits whole count with ⟨more, tail, front, after⟩
    refine survived ?_ after one ?_
    · exact issued.1.append (issued.2.beginning front)
    · intro entry member
      exact (written.kept entry member).imp_left (mem_append_left _)
  | rebuildLogFile entries =>
    cases count with
    | zero =>
      refine survived issued.1 represents one ?_
      exact fun entry member => written.kept entry (mem_of_mem_filter member)
    | succ count =>
      rcases safe with zero | ⟨kept, _, there, again⟩
      · cases zero
      · rcases represents.rewrite fits kept count (by omega) with ⟨more, tail, front, after⟩
        rw [← dir.interrupt_rebuildLogFile] at after
        refine survived ?_ after one ?_
        · apply issued.2.beginning
          have whole : entries.take kept ++ more <+: entries.take kept ++ entries.drop kept :=
            (prefix_append_right_inj _).mpr front
          rwa [take_append_drop] at whole
        · intro entry member
          rcases mem_filter.mp member with ⟨promised, inside⟩
          exact .inl (mem_append_left _ (again entry promised (of_decide_eq_true inside)))
  | saveSnapshot data index term =>
    rcases safe with rfl | ⟨all, empty⟩
    · exact survived issued.1 represents one written.kept
    · rcases written.complete fits whole issued with ⟨tail, next⟩
      rw [← dir.interrupt_of_length_le _ _ all] at next
      have none : wal.logs = [] := some.inj (represents.loadLogs.symm.trans empty)
      refine survived ?_ next.represents (mem_singleton.mpr next.pair) next.kept
      rw [RaftWAL.Contiguous, perform, none]
      trivial
  | deleteOldSnapshots keepIndex =>
    have none : wal.logs = [] := some.inj (represents.loadLogs.symm.trans safe)
    refine survived ?_ (represents.interrupt_deleteOldSnapshots issued count) one written.kept
    rw [RaftWAL.Contiguous, none]
    trivial
  | truncateLogs index =>
    rcases issued with ⟨newest, positive, start, before, numbered⟩
    rcases safe with all | empty
    · have after := represents.complete_truncateLogs index
      rw [← dir.interrupt_of_length_le _ _ all] at after
      refine survived ?_ after one ?_
      · have first : firstAfter index = index + 1 := if_pos positive
        have same : (wal.perform (.truncateLogs index)).base = index := newest.symm
        rw [RaftWAL.Contiguous, same, first]
        exact numbered.filter before
      · intro entry member
        rcases mem_filter.mp member with ⟨promised, later⟩
        exact (written.kept entry promised).imp_left
          fun inside => mem_filter.mpr ⟨inside, later⟩
    · have none : wal.logs = [] := some.inj (represents.loadLogs.symm.trans empty)
      rcases represents.interrupt_truncateLogs none index count with ⟨tail, after⟩
      refine survived ?_ after one ?_
      · rw [RaftWAL.Contiguous, none]
        trivial
      · exact fun entry member => written.kept entry (mem_of_mem_filter member)

theorem crashAt (written : Written dir p wal torn) {calls : List WalCall}
    (fits : ∀ call ∈ calls, call.Fits) (issued : wal.IssuedAll calls) {done count : Nat}
    (safe : SafeCalls dir p calls done count) :
    ∃ (after : RaftWAL n) (tail : Bytes),
      (Raft.crashAt dir p calls done count).Survived after tail := by
  induction calls generalizing dir p wal torn done with
  | nil =>
    exact survived issued written.represents (mem_singleton.mpr written.pair) written.kept
  | cons call rest ih =>
    rcases forall_mem_cons.mp fits with ⟨first, later⟩
    cases done with
    | zero => exact written.interrupt first safe.1 issued.1 safe.2
    | succ done =>
      rcases written.complete first safe.1 issued.1 with ⟨tail, next⟩
      exact ih next later issued.2 safe.2

end Written

namespace NodeCall

theorem perform_saved (wal : RaftWAL n) (r : Node n) :
    wal.perform r.saved = { wal with state := (r.term, r.votedFor) } := by
  simp only [saved, perform, voteOf_voteNumber, Int.toNat_natCast]

theorem perform_observeCalls_follow (r : Node n) (term : Nat) :
    (r.observeCalls term (r.follow term)).foldl perform r.wal = (r.follow term).wal := by
  rw [observeCalls, follow]
  split_ifs
  · rw [foldl_cons, foldl_nil, perform_saved]
    rfl
  · rfl

theorem perform_observeCalls_observe (r : Node n) (term : Nat) :
    (r.observeCalls term (r.observe term)).foldl perform r.wal = (r.observe term).wal := by
  rw [observeCalls, observe]
  split_ifs
  · rw [foldl_cons, foldl_nil, perform_saved]
    rfl
  · rfl

theorem perform_storeCalls (r : Node n) (entries : List LogEntry) :
    (r.storeCalls entries).foldl perform r.wal = (r.storeEntries entries).wal := by
  rw [storeCalls, storeEntries]
  by_cases none : entries = []
  · simp only [none, if_true, foldl_nil]
  · simp only [none, if_false, foldl_cons, foldl_nil, perform_saved]
    split_ifs <;> rfl

theorem perform_snapshotCalls (r after : Node n) (data : Bytes)
    (wal : after.wal = { r.saveSnapshot ⟨data, after.lastIncludedIndex, after.lastIncludedTerm⟩ with
      state := (after.term, after.votedFor) }) :
    (snapshotCalls after data).foldl perform r.wal = after.wal := by
  simp only [snapshotCalls, foldl_cons, foldl_nil, perform_saved, wal]
  simp only [perform, saveSnapshot, Int.toNat_natCast]

theorem wal_handleAppendReply (r : Node n) (me peer : Fin n) (args : AppendEntriesArgs n)
    (reply : AppendEntriesReply) : (r.handleAppendReply me peer args reply).wal = r.wal := by
  rw [handleAppendReply]
  split_ifs
  · rfl
  · rcases r.advanceMatch_spec peer (args.prevLogIndex + args.entries.length) with ⟨_, _, same⟩
    rw [same, updateCommitIndex]
    split_ifs
    · split
      · exact applyCommittedLogs_wal _
      · rfl
    · rfl
  · rfl
  · rfl

theorem wal_advanceCommit (r : Node n) (leaderCommit : Int) :
    (r.advanceCommit leaderCommit).wal = r.wal := by
  rw [advanceCommit]
  split_ifs
  · exact applyCommittedLogs_wal _
  · rfl

theorem wal_adopt (r : Node n) (term : Nat) : (r.adopt term).wal = r.wal := by
  rw [adopt]
  split_ifs <;> rfl

theorem wal_installSnapshot_refused (r : Node n) {args : InstallSnapshotArgs n}
    (refused : ¬ r.Installs args) (full : Bool) : (r.installSnapshot args full).1.wal = r.wal := by
  have adopts := r.sameLog_adopt args.term
  rw [Node.Installs] at refused
  rw [installSnapshot]
  simp only
  split_ifs with stale covered
  · rfl
  · exact wal_adopt r args.term
  · rw [adopts.base] at covered
    omega

/-- The calls do to the files what the step does to the values they stand for. -/
theorem perform_walCalls (r : Node n) (call : NodeCall n) :
    (call.walCalls r).foldl perform r.wal = (call.step r).wal := by
  cases call with
  | log call =>
    cases call with
    | startElection me =>
      rw [walCalls, step, LogCall.step]
      split_ifs with leads
      · rw [startElection, if_pos leads]
        rfl
      · rw [foldl_cons, foldl_nil, perform_saved, startElection, if_neg leads]
        rfl
    | wonAsCandidate electionTerm =>
      rw [walCalls, step, LogCall.step, wonAsCandidate]
      split_ifs <;> rfl
    | appendEntry command =>
      rw [walCalls, step, LogCall.step, appendEntry]
      split_ifs
      · rw [applyCommittedLogs_wal]
        rfl
      · rfl
      · rfl
    | appendReply me peer args reply =>
      rw [walCalls, step, LogCall.step, wal_handleAppendReply]
      rfl
    | appendEntries args =>
      rw [walCalls, step, LogCall.step, appendEntries]
      simp only
      split_ifs with stale accepted
      · rfl
      · rw [foldl_append, perform_observeCalls_follow, perform_storeCalls, wal_advanceCommit]
      · rw [append_nil, perform_observeCalls_follow]
    | takeSnapshot index full =>
      rw [walCalls, step, LogCall.step]
      split_ifs with accepted
      · apply perform_snapshotCalls
        rw [Node.Snapshots] at accepted
        rw [takeSnapshot, if_neg (by omega)]
        rfl
      · rw [r.takeSnapshot_refused accepted]
        rfl
    | installSnapshot args full =>
      rw [walCalls, step, LogCall.step]
      split_ifs with accepted
      · apply perform_snapshotCalls
        have adopts := r.sameLog_adopt args.term
        rw [Node.Installs] at accepted
        rw [installSnapshot]
        rw [if_neg (by omega), if_neg (by rw [adopts.base]; omega)]
        simp only [persistStateLocked, saveSnapshot, wal_adopt]
      · exact (wal_installSnapshot_refused r accepted full).symm
  | requestVote args =>
    rw [walCalls, step]
    by_cases stale : args.term < r.term
    · rw [if_pos stale, Node.requestVote, if_pos stale]
      rfl
    · rw [if_neg stale]
      by_cases granted : ((r.observe args.term).votedFor = none ∨
          (r.observe args.term).votedFor = some args.candidateID) ∧
          (r.observe args.term).isLogUpToDate args.lastLogIndex args.lastLogTerm
      · have vote : r.requestVote args =
            ({ r.observe args.term with votedFor := some args.candidateID }.persistStateLocked,
              ⟨(r.observe args.term).term, true⟩) := by
          rw [Node.requestVote, if_neg stale]
          exact if_pos granted
        rw [vote, if_pos rfl, foldl_append, perform_observeCalls_observe, foldl_cons, foldl_nil,
          perform_saved]
        rfl
      · have vote : r.requestVote args =
            (r.observe args.term, ⟨(r.observe args.term).term, false⟩) := by
          rw [Node.requestVote, if_neg stale]
          exact if_neg granted
        rw [vote, if_neg Bool.false_ne_true, append_nil, perform_observeCalls_observe]
  | voteReply reply =>
    rw [walCalls, step, Node.handleVoteReply]
    split_ifs <;> rfl
  | abandonElection electionTerm =>
    rw [walCalls, step, Node.abandonElection]
    split_ifs <;> rfl
  | appendError peer =>
    rw [walCalls, step, Node.handleAppendError]
    split_ifs <;> rfl
  | snapshotReply peer reply =>
    rw [walCalls, step, handleSnapshotReply]
    split_ifs <;> rfl

/-- Only a snapshot call writes a snapshot. -/
def SnapshotKept : WalCall → Prop
  | .saveSnapshot _ _ _ => False
  | _ => True

theorem snapshot_foldl_perform (calls : List WalCall) (wal : RaftWAL n)
    (kept : ∀ call ∈ calls, SnapshotKept call) :
    (calls.foldl perform wal).snapshot = wal.snapshot := by
  induction calls generalizing wal with
  | nil => rfl
  | cons call rest ih =>
    rcases forall_mem_cons.mp kept with ⟨first, later⟩
    rw [foldl_cons, ih _ later]
    cases call with
    | saveSnapshot data index term => exact first.elim
    | saveState | appendLogs | rebuildLogFile | deleteOldSnapshots | truncateLogs => rfl

theorem snapshotKept_observeCalls (r after : Node n) (term : Nat) :
    ∀ call ∈ r.observeCalls term after, SnapshotKept call := by
  rw [observeCalls]
  split_ifs <;> simp [saved, SnapshotKept]

theorem snapshotKept_storeCalls (r : Node n) (entries : List LogEntry) :
    ∀ call ∈ r.storeCalls entries, SnapshotKept call := by
  rw [storeCalls]
  simp only
  split_ifs <;> simp [saved, SnapshotKept]

theorem snapshot_step (r : Node n) (call : NodeCall n)
    (taken : ∀ index full, call ≠ .log (.takeSnapshot index full))
    (installed : ∀ args full, call ≠ .log (.installSnapshot args full)) :
    (call.step r).wal.snapshot = r.wal.snapshot := by
  rw [← perform_walCalls]
  apply snapshot_foldl_perform
  cases call with
  | log call =>
    cases call with
    | startElection me =>
      rw [walCalls]
      split_ifs <;> simp [saved, SnapshotKept]
    | wonAsCandidate electionTerm => simp [walCalls]
    | appendEntry command =>
      rw [walCalls]
      split_ifs <;> simp [SnapshotKept]
    | appendReply me peer args reply => simp [walCalls]
    | appendEntries args =>
      rw [walCalls]
      simp only
      split_ifs
      · simp
      · exact forall_mem_append.mpr
          ⟨snapshotKept_observeCalls _ _ _, snapshotKept_storeCalls _ _⟩
      · rw [append_nil]
        exact snapshotKept_observeCalls _ _ _
    | takeSnapshot index full => exact absurd rfl (taken index full)
    | installSnapshot args full => exact absurd rfl (installed args full)
  | requestVote args =>
    rw [walCalls]
    split_ifs
    · simp
    · exact forall_mem_append.mpr
        ⟨snapshotKept_observeCalls _ _ _, by simp [saved, SnapshotKept]⟩
    · rw [append_nil]
      exact snapshotKept_observeCalls _ _ _
  | voteReply | abandonElection | appendError | snapshotReply => simp [walCalls]

end NodeCall

namespace RaftWAL

variable {wal : RaftWAL n}

theorem issuedAll_append {first second : List WalCall} (begins : wal.IssuedAll first)
    (goesOn : (first.foldl perform wal).IssuedAll second) : wal.IssuedAll (first ++ second) := by
  induction first generalizing wal with
  | nil => exact goesOn
  | cons call rest ih => exact ⟨begins.1, ih begins.2 goesOn⟩

theorem Contiguous.saved (contiguous : wal.Contiguous) (r : Node n) : wal.IssuedAll [r.saved] :=
  ⟨⟨contiguous, by rw [NodePair, voteOf_voteNumber, Int.toNat_natCast]⟩, contiguous⟩

theorem Contiguous.observeCalls (contiguous : wal.Contiguous) (r after : Node n) (term : Nat) :
    wal.IssuedAll (r.observeCalls term after) := by
  rw [Node.observeCalls]
  split_ifs
  · exact contiguous.saved after
  · exact contiguous

theorem Contiguous.snapshotCalls (contiguous : wal.Contiguous) {after : Node n}
    (base : 0 ≤ wal.base) (ahead : wal.base < after.lastIncludedIndex) (data : Bytes) :
    wal.IssuedAll (snapshotCalls after data) := by
  have positive : 0 < after.lastIncludedIndex := base.trans_lt ahead
  have before : firstAfter wal.base ≤ after.lastIncludedIndex + 1 := by
    rw [firstAfter]
    split_ifs <;> omega
  have first : firstAfter after.lastIncludedIndex = after.lastIncludedIndex + 1 := if_pos positive
  refine ⟨⟨contiguous, ahead, Int.natCast_nonneg _⟩, le_rfl, ⟨rfl, positive, _, before, contiguous⟩, ?_⟩
  apply Contiguous.saved
  change Numbered (firstAfter after.lastIncludedIndex)
    (wal.logs.filter fun entry => after.lastIncludedIndex < entry.index)
  rw [first]
  exact Numbered.filter contiguous before

end RaftWAL

/-- The node has the log of its files, behind their snapshot. -/
structure Node.Backed (r : Node n) : Prop where
  contiguous : r.Contiguous
  base : r.wal.base = r.lastIncludedIndex

namespace Node.Backed

variable {r : Node n}

theorem wal (backed : r.Backed) : r.wal.Contiguous := by
  rw [RaftWAL.Contiguous, backed.base, backed.contiguous.file]
  exact backed.contiguous.numbered

theorem stay {after : Node n} (backed : r.Backed) (same : SameLog r after)
    (snapshot : after.wal.snapshot = r.wal.snapshot) : after.Backed where
  contiguous := backed.contiguous.stay same
  base := by
    rw [RaftWAL.base, snapshot, same.base]
    exact backed.base

theorem follow (backed : r.Backed) (term : Nat) : (r.follow term).Backed := by
  apply backed.stay (r.sameLog_follow term)
  rw [Node.follow]
  split_ifs <;> rfl

theorem storeCalls (backed : r.Backed) {first : Int} {entries : List LogEntry}
    (offered : Numbered first entries) (joins : first - r.firstIndex ≤ r.log.length) :
    r.wal.IssuedAll (r.storeCalls entries) := by
  have merged : Node.Merged r.firstIndex r.log [] false
      (mergeEntries r.relIndex entries (r.log, false, [])) :=
    merged_mergeEntries r.relIndex_eq_sub offered backed.contiguous.numbered joins
  have start : firstAfter r.wal.base = r.firstIndex := by rw [backed.base]; rfl
  have file := backed.contiguous.file
  have whole : ∀ call : WalCall, (r.wal.perform call).base = r.wal.base →
      (r.wal.perform call).logs = (mergeEntries r.relIndex entries (r.log, false, [])).1 →
      (r.wal.perform call).Contiguous := by
    intro call base logs
    rw [RaftWAL.Contiguous, base, logs, start]
    exact merged.numbered
  rw [Node.storeCalls]
  split_ifs
  · exact backed.wal
  · simp only
    split_ifs with rebuild
    · refine ⟨⟨backed.wal, ?_⟩, (whole _ rfl rfl).saved r⟩
      rw [start]
      exact merged.numbered
    · rcases merged.appended (Bool.eq_false_iff.mpr rebuild) with ⟨_, more, log, added⟩
      rw [nil_append] at added
      refine ⟨⟨backed.wal, ?_⟩, (whole _ rfl ?_).saved r⟩
      · have behind := merged.numbered.drop r.log.length
        rw [log, drop_left] at behind
        rw [added, start, file]
        exact behind
      · rw [perform, added, log, file]

end Node.Backed

/-- What is stored and applied is the same. -/
structure Node.SameRecord (r after : Node n) : Prop extends SameLog r after where
  commit : after.commitIndex = r.commitIndex
  applied : after.lastApplied = r.lastApplied
  channel : after.applyCh = r.applyCh

namespace NodeCall

theorem issuedAll_walCalls {r : Node n} (backed : r.Backed) {call : NodeCall n}
    (wellFormed : call.WellFormed) : r.wal.IssuedAll (call.walCalls r) := by
  have base : 0 ≤ r.wal.base := by rw [backed.base]; exact backed.contiguous.base
  cases call with
  | log call =>
    cases call with
    | startElection me =>
      rw [walCalls]
      split_ifs
      · exact backed.wal
      · exact backed.wal.saved _
    | wonAsCandidate electionTerm => exact backed.wal
    | appendEntry command =>
      rw [walCalls]
      split_ifs
      · have place : Numbered (firstAfter r.wal.base + r.wal.logs.length)
            [r.newEntry command] := by
          refine ⟨?_, trivial⟩
          rw [newEntry, backed.contiguous.getLastLogIndex, backed.base, backed.contiguous.file]
          simp only [sub_add_cancel]
          rfl
        exact ⟨⟨backed.wal, place⟩, Numbered.append backed.wal place⟩
      · exact backed.wal
    | appendReply me peer args reply => exact backed.wal
    | appendEntries args =>
      rw [walCalls]
      split_ifs with stale
      · exact backed.wal
      · apply issuedAll_append (backed.wal.observeCalls _ _ _)
        rw [perform_observeCalls_follow]
        split_ifs with accepted
        · exact (backed.follow args.term).storeCalls wellFormed
            ((backed.follow args.term).contiguous.joins accepted)
        · exact (backed.follow args.term).wal
    | takeSnapshot index full =>
      rw [walCalls]
      split_ifs with accepted
      · apply backed.wal.snapshotCalls base
        rw [(r.cut_takeSnapshot accepted full).base, backed.base, ← backed.contiguous.snapshot]
        exact accepted.1
      · exact backed.wal
    | installSnapshot args full =>
      rw [walCalls]
      split_ifs with accepted
      · apply backed.wal.snapshotCalls base
        rw [(r.cut_installSnapshot accepted full).base, backed.base]
        exact accepted.2
      · exact backed.wal
  | requestVote args =>
    rw [walCalls]
    by_cases stale : args.term < r.term
    · rw [if_pos stale]
      exact backed.wal
    · rw [if_neg stale]
      have observed : (r.observe args.term).wal.Contiguous := by
        rw [observe]
        split_ifs <;> exact backed.wal
      apply issuedAll_append (backed.wal.observeCalls _ _ _)
      rw [perform_observeCalls_observe]
      split_ifs
      · exact observed.saved _
      · exact observed
  | voteReply | abandonElection | appendError | snapshotReply => exact backed.wal

/-- The calls that only have to do with elections and with the progress of the peers. -/
def Aside : NodeCall n → Prop
  | log (.startElection _) | log (.wonAsCandidate _) => True
  | log _ => False
  | _ => True

theorem sameRecord_step (r : Node n) {call : NodeCall n} (aside : call.Aside) :
    r.SameRecord (call.step r) := by
  cases call with
  | log call =>
    cases call with
    | startElection me =>
      rw [step, LogCall.step, startElection]
      split_ifs <;> exact ⟨⟨rfl, rfl, rfl, rfl⟩, rfl, rfl, rfl⟩
    | wonAsCandidate electionTerm =>
      rw [step, LogCall.step, wonAsCandidate]
      split_ifs <;> exact ⟨⟨rfl, rfl, rfl, rfl⟩, rfl, rfl, rfl⟩
    | _ => exact aside.elim
  | requestVote args =>
    rw [step, Node.requestVote, observe]
    simp only
    split_ifs <;> exact ⟨⟨rfl, rfl, rfl, rfl⟩, rfl, rfl, rfl⟩
  | voteReply reply =>
    rw [step, handleVoteReply]
    split_ifs <;> exact ⟨⟨rfl, rfl, rfl, rfl⟩, rfl, rfl, rfl⟩
  | abandonElection electionTerm =>
    rw [step, Node.abandonElection]
    split_ifs <;> exact ⟨⟨rfl, rfl, rfl, rfl⟩, rfl, rfl, rfl⟩
  | appendError peer =>
    rw [step, handleAppendError]
    split_ifs <;> exact ⟨⟨rfl, rfl, rfl, rfl⟩, rfl, rfl, rfl⟩
  | snapshotReply peer reply =>
    rw [step, handleSnapshotReply]
    split_ifs <;> exact ⟨⟨rfl, rfl, rfl, rfl⟩, rfl, rfl, rfl⟩

theorem backed_step {r : Node n} (backed : r.Backed) {call : NodeCall n}
    (wellFormed : call.WellFormed) (clean : call.Clean r) : (call.step r).Backed := by
  by_cases aside : call.Aside
  · apply backed.stay (sameRecord_step r aside).toSameLog
    apply snapshot_step <;> (rintro _ _ rfl; exact aside)
  cases call with
  | log call =>
    refine ⟨LogCall.contiguous_step backed.contiguous wellFormed clean, ?_⟩
    -- only a snapshot moves the base
    have unmoved (taken : ∀ index full, call ≠ .takeSnapshot index full)
        (installed : ∀ args full, call ≠ .installSnapshot args full)
        (same : (LogCall.step r call).lastIncludedIndex = r.lastIncludedIndex) :
        (LogCall.step r call).wal.base = (LogCall.step r call).lastIncludedIndex := by
      have snapshot : (LogCall.step r call).wal.snapshot = r.wal.snapshot :=
        snapshot_step r (.log call) (by simpa using taken) (by simpa using installed)
      rw [same, ← backed.base, RaftWAL.base, snapshot]
      rfl
    cases call with
    | startElection | wonAsCandidate => exact absurd trivial aside
    | appendEntry command =>
      apply unmoved (by simp) (by simp)
      rw [LogCall.step, appendEntry]
      split_ifs
      · exact applyCommittedLogs_lastIncludedIndex _
      · rfl
      · rfl
    | appendReply me peer args reply =>
      exact unmoved (by simp) (by simp) (r.sameLog_handleAppendReply me peer args reply).base
    | appendEntries args =>
      apply unmoved (by simp) (by simp)
      rw [LogCall.step, appendEntries]
      simp only
      split_ifs
      · rfl
      · rw [(sameLog_advanceCommit _ _).base, storeEntries]
        split_ifs <;> exact (r.sameLog_follow args.term).base
      · exact (r.sameLog_follow args.term).base
    | takeSnapshot index full =>
      by_cases accepted : r.Snapshots index
      · rw [Node.Snapshots] at accepted
        rw [step, LogCall.step, takeSnapshot, if_neg (by omega)]
        rfl
      · rw [step, LogCall.step, r.takeSnapshot_refused accepted]
        exact backed.base
    | installSnapshot args full =>
      by_cases accepted : r.Installs args
      · have adopts := r.sameLog_adopt args.term
        rw [Node.Installs] at accepted
        rw [step, LogCall.step, installSnapshot]
        rw [if_neg (by omega), if_neg (by rw [adopts.base]; omega)]
        rfl
      · rw [step, LogCall.step, wal_installSnapshot_refused r accepted,
          (r.installSnapshot_refused accepted full).base]
        exact backed.base
  | requestVote | voteReply | abandonElection | appendError | snapshotReply =>
    exact absurd trivial aside

end NodeCall

theorem boot_backed {dir : DataDir} {wal : RaftWAL n} {torn : Bytes}
    (represents : Represents dir wal torn) (contiguous : wal.Contiguous) :
    (boot wal).Backed ∧ (boot wal).wal = wal := by
  have holds := represents.snapshots
  rw [RaftWAL.Contiguous, base] at contiguous
  cases shape : wal.snapshot with
  | none =>
    rw [shape] at contiguous
    simp only [boot, restart, shape]
    refine ⟨⟨⟨le_rfl, rfl, contiguous, rfl⟩, ?_⟩, trivial⟩
    simp only [base, shape]
    rfl
  | some snapshot =>
    rw [shape] at contiguous holds
    have positive : 0 < snapshot.lastIncludedIndex :=
      (show Newest dir.snapshots snapshot from holds).positive
    simp only [boot, restart, shape, if_pos positive]
    refine ⟨⟨⟨positive.le, rfl, contiguous, rfl⟩, ?_⟩, trivial⟩
    simp only [base, shape]
    rfl

theorem Represents.loaded {dir : DataDir} {wal : RaftWAL n} {torn : Bytes}
    (represents : Represents dir wal torn) (lastTerm : Int) :
    dir.loaded ⟨wal.pair.1, wal.pair.2, wal.logs, wal.base, lastTerm⟩ = wal := by
  have holds := represents.snapshots
  rcases wal with ⟨⟨term, vote⟩, logs, snapshot⟩
  simp only [DataDir.loaded, pair, base, voteOf_voteNumber, Int.toNat_natCast]
  cases snapshot with
  | none => rfl
  | some snapshot =>
    have positive : 0 < snapshot.lastIncludedIndex :=
      (show Newest dir.snapshots snapshot from holds).positive
    simp only [elim_some, if_pos positive, represents.loadLatestSnapshot, map_some,
      Int.toNat_natCast]

namespace Process

/-- The run has come to a state whose files can be relied on. -/
def Sound (p : Process n) : Prop :=
  p.node.Backed ∧ ∃ torn, Written p.dir p.promise p.node.wal torn

/-- The conditions on a step: requests are parts of a log, numbers fit, snapshots are clean, entries
are appended to whole ones, and crashes are safe. -/
def Careful (p : Process n) : ProcessEvent n → Prop
  | .call call => call.WellFormed ∧ call.Clean p.node ∧
      (∀ issued ∈ call.walCalls p.node, issued.Fits) ∧ WholeCalls p.dir (call.walCalls p.node)
  | .crash call done count => call.WellFormed ∧
      (∀ issued ∈ call.walCalls p.node, issued.Fits) ∧
      SafeCalls p.dir p.promise (call.walCalls p.node) done count

theorem sound_new : (Process.new : Process n).Sound := by
  refine ⟨⟨contiguous_new, rfl⟩, [], ?_, rfl, nofun⟩
  have range : Int64Range 0 ∧ Int64Range (-1) := by decide
  exact ⟨.inl ⟨rfl, rfl⟩, range, rfl, torn_nil, nofun, rfl⟩

theorem sound_step (p : Process n) (event : ProcessEvent n) (sound : p.Sound)
    (careful : p.Careful event) : (p.step event).Sound ∧ p.Restores event := by
  rcases sound with ⟨backed, torn, written⟩
  cases event with
  | call call =>
    rcases careful with ⟨wellFormed, clean, fits, whole⟩
    refine ⟨⟨NodeCall.backed_step backed wellFormed clean, ?_⟩, trivial⟩
    rcases written.completeAll fits whole (NodeCall.issuedAll_walCalls backed wellFormed) with
      ⟨tail, after⟩
    rw [NodeCall.perform_walCalls] at after
    exact ⟨tail, after⟩
  | crash call done count =>
    rcases careful with ⟨wellFormed, fits, safe⟩
    rcases written.crashAt fits (NodeCall.issuedAll_walCalls backed wellFormed) safe with
      ⟨wal, tail, contiguous, pair, allowed, survives⟩
    have data := survives.represents.readPersist
    rcases boot_backed survives.represents contiguous with ⟨up, same⟩
    constructor
    · rw [step, restart, site, data]
      simp only [survives.represents.loaded]
      refine ⟨up, tail, ?_⟩
      rw [same]
      exact ⟨survives.represents, rfl, survives.kept⟩
    · rw [Restores, site, data]
      refine ⟨?_, contiguous, survives.kept⟩
      rw [survives.pair]
      exact allowed

end Process

/-- In every run whose steps meet the conditions, every restart finds a pair that was saved and is no
older than the last completed one, and a log behind its snapshot with every entry that was promised. -/
theorem restart_restores (events : List (ProcessEvent n))
    (careful : Guarded Process.step Process.Careful (Process.new : Process n) events) :
    Guarded Process.step Process.Restores (Process.new : Process n) events := by
  exact careful.observed Process.sound_step _ _ Process.sound_new

instance : ∀ call : NodeCall n, Decidable call.WellFormed
  | .log call => by cases call <;> dsimp only [NodeCall.WellFormed, LogCall.WellFormed] <;> infer_instance
  | .requestVote _ | .voteReply _ | .abandonElection _ | .appendError _ | .snapshotReply .. =>
    isTrue trivial

instance (r : Node n) : ∀ call : NodeCall n, Decidable (call.Clean r)
  | .log call => by cases call <;> dsimp only [NodeCall.Clean, LogCall.Clean] <;> infer_instance
  | .requestVote _ | .voteReply _ | .abandonElection _ | .appendError _ | .snapshotReply .. =>
    isTrue trivial

instance (p : Process n) (event : ProcessEvent n) : Decidable (p.Careful event) := by
  cases event <;> dsimp only [Process.Careful] <;> infer_instance

instance (p : Process n) (event : ProcessEvent n) : Decidable (p.Restores event) := by
  cases event <;> dsimp only [Process.Restores]
  case call => infer_instance
  case crash => split <;> infer_instance

def elected (electionTerm : Nat) : List (ProcessEvent 1) :=
  [.call (.log (.startElection 0)), .call (.log (.wonAsCandidate electionTerm))]

def appends (commands : List Bytes) : List (ProcessEvent 1) :=
  commands.map fun command => .call (.log (.appendEntry command))

/-- A snapshot, a crash in an append, and a crash before a write of the state. -/
theorem restart_restores_torn_append :
    Guarded Process.step Process.Restores (Process.new : Process 1)
      (elected 1 ++ appends [[97], [98], [99]] ++ [.call (.log (.takeSnapshot 1 false)),
        .crash (.log (.appendEntry [100])) 0 10, .crash (.log (.startElection 0)) 0 0]) := by
  apply restart_restores
  decide +kernel

/-- A crash in a write of the state leaves a term with the vote of another one; a crash in the
truncation of the log loses the entry behind the snapshot; a crash before it leaves entries that do
not go with the snapshot; and an entry that is appended behind a part of one is never read. -/
theorem restart_fails : (¬ Guarded Process.step Process.Restores (Process.new : Process 2)
      [.call (.log (.startElection 0)), .crash (.requestVote ⟨2, 1, -1, 0⟩) 0 17]) ∧
    ∀ events ∈ [appends [[97], [98], [99]] ++ [.crash (.log (.takeSnapshot 1 false)) 2 1],
        appends [[97], [98], [99]] ++ [.crash (.log (.takeSnapshot 1 false)) 1 0],
        appends [[97]] ++ [.crash (.log (.appendEntry [98])) 0 10] ++ elected 2 ++ appends [[99]] ++
          [.crash (.abandonElection 0) 0 0]],
      ¬ Guarded Process.step Process.Restores (Process.new : Process 1) (elected 1 ++ events) := by
  decide +kernel

end KairosFlux.Raft
