import KairosFlux.Service.Snapshots

/-! A server that replays the snapshots of its own node (`Run` and `Apply` in `service/fsm.go`): the
commands that the node has committed go to the engine in their order, and each snapshot is replayed
into a file of its own while commands and flushes go on. -/

namespace KairosFlux.Raft

open List Node

variable {n : Nat}

namespace Node

variable (r : Node n)

theorem channel_applyCommittedLogs {before : List LogEntry} (grown : before <+: r.applyCh) :
    before <+: r.applyCommittedLogs.applyCh := by
  rcases r.applyCommittedLogs_spec with ⟨_, entries, same, _⟩
  rw [same]
  exact grown.trans (prefix_append _ _)

theorem channel_notify (full : Bool) (entry : LogEntry) : r.applyCh <+: r.notify full entry := by
  rw [notify]
  split_ifs
  · exact prefix_rfl
  · exact prefix_append _ _

theorem channel_advanceCommit (leaderCommit : Int) :
    r.applyCh <+: (r.advanceCommit leaderCommit).applyCh := by
  rw [advanceCommit]
  split_ifs
  · exact channel_applyCommittedLogs _ prefix_rfl
  · exact prefix_rfl

theorem channel_updateCommitIndex (me : Fin n) : r.applyCh <+: (r.updateCommitIndex me).applyCh := by
  rw [updateCommitIndex]
  split_ifs
  · split
    · exact channel_applyCommittedLogs _ prefix_rfl
    · exact prefix_rfl
  · exact prefix_rfl

theorem channel_advanceMatch (peer : Fin n) (matched : Int) :
    (r.advanceMatch peer matched).applyCh = r.applyCh := by
  rw [advanceMatch]
  split_ifs <;> rfl

theorem channel_storeEntries (entries : List LogEntry) :
    (r.storeEntries entries).applyCh = r.applyCh := by
  rw [storeEntries]
  split_ifs <;> rfl

theorem channel_follow (term : Nat) : (r.follow term).applyCh = r.applyCh := by
  rw [follow]
  split_ifs <;> rfl

theorem channel_adopt (term : Nat) : (r.adopt term).applyCh = r.applyCh := by
  rw [adopt]
  split_ifs <;> rfl

end Node

theorem NodeCall.channel_step (r : Node n) (call : NodeCall n) :
    r.applyCh <+: (call.step r).applyCh := by
  have aside (aside : call.Aside) : r.applyCh <+: (call.step r).applyCh := by
    rw [(sameRecord_step r aside).channel]
  cases call with
  | log call =>
    cases call with
    | startElection | wonAsCandidate => exact aside trivial
    | appendEntry command =>
      rw [step, LogCall.step, appendEntry]
      split_ifs
      · exact channel_applyCommittedLogs _ prefix_rfl
      · exact prefix_rfl
      · exact prefix_rfl
    | appendReply me peer args reply =>
      rw [step, LogCall.step, handleAppendReply]
      split_ifs
      · exact prefix_rfl
      · rw [← r.channel_advanceMatch peer (args.prevLogIndex + args.entries.length)]
        exact channel_updateCommitIndex _ me
      · exact prefix_rfl
      · exact prefix_rfl
    | appendEntries args =>
      rw [step, LogCall.step, appendEntries]
      simp only
      split_ifs
      · exact prefix_rfl
      · rw [← r.channel_follow args.term, ← channel_storeEntries _ args.entries]
        exact channel_advanceCommit _ _
      · rw [r.channel_follow]
    | takeSnapshot index full =>
      by_cases accepted : r.Snapshots index
      · rw [Node.Snapshots] at accepted
        rw [step, LogCall.step, takeSnapshot, if_neg (by omega)]
        exact r.channel_notify full _
      · rw [step, LogCall.step, r.takeSnapshot_refused accepted]
    | installSnapshot args full =>
      rw [step, LogCall.step, installSnapshot]
      simp only
      split_ifs
      · exact prefix_rfl
      · rw [r.channel_adopt]
      · rw [← r.channel_adopt args.term]
        exact Node.channel_notify _ full _
  | requestVote | voteReply | abandonElection | appendError | snapshotReply => exact aside trivial

end KairosFlux.Raft

namespace KairosFlux.Service

open Lib Storage List
open Raft (Node NodeCall deserializeLogEntries)

variable {n : Nat}

/-- `taken` entries of the channel have reached `Apply`. -/
structure Replica (n : Nat) where
  node : Node n
  taken : Nat
  engine : SideMachine

inductive ReplicaInput (n : Nat)
  | call (call : NodeCall n)
  | apply
  | flushStep (now : Nat)
  | replayStep (place now : Nat)

section Steps

variable (decode : Bytes → Option Command) (choice : BloomChoice)

/-- The start of `replaySnapshot`, which goes on beside the commands. -/
def startReplay (e : SideMachine) (data : Bytes) : SideMachine :=
  let entries := deserializeLogEntries data
  if entries = [] then e else { e with side := e.side ++ [.waiting (kvEntries decode entries)] }

def apply (e : SideMachine) (entry : Raft.LogEntry) : SideMachine :=
  if entry.isSnapshot then startReplay decode e entry.command
  else
    { e with
      machine := { e.machine with store := applyEntry decode e.machine.store entry.command } }

namespace Replica

def new : Replica n := ⟨.new, 0, .new⟩

def step (s : Replica n) : ReplicaInput n → Replica n
  | .call call => { s with node := call.step s.node }
  | .apply =>
    match s.node.applyCh[s.taken]? with
    | none => s
    | some entry => { s with taken := s.taken + 1, engine := Service.apply decode s.engine entry }
  | .flushStep now =>
    { s with engine := { s.engine with machine := Storage.flushStep choice now s.engine.machine } }
  | .replayStep place now => { s with engine := s.engine.sideStep choice place now }

def applied (s : Replica n) : List Bytes :=
  ((s.node.applyCh.take s.taken).filter fun entry => !entry.isSnapshot).map Raft.LogEntry.command

def history (s : Replica n) : Layer Bytes (Option Bytes) := writesLayer (writesOf decode s.applied)

def Quiet (s : Replica n) : Prop :=
  s.taken = s.node.applyCh.length ∧ s.engine.side = [] ∧ s.engine.machine.flush = .idle
deriving Decidable

/-- The clock goes on and the fields have room, and a replayed table that is registered is not
noticed. -/
def Careful (s : Replica n) : ReplicaInput n → Prop
  | .call _ => True
  | .apply => ∀ entry ∈ s.node.applyCh[s.taken]?, entry.isSnapshot = false →
      ∀ write ∈ writesOf decode [entry.command], EntryFits write
  | .flushStep now =>
    Timely s.engine.machine (.flushStep now) ∧ Roomy s.engine.machine (.flushStep now)
  | .replayStep place now =>
    match s.engine.side[place]? with
    | none => True
    | some (.waiting _) => s.engine.machine.clock < now
    | some (.named _ entries) =>
      Sized entries ∧ Unnoticed s.engine.machine (s.history decode) entries

end Replica

namespace Replica

variable {decode choice} {s : Replica n}

theorem shelved_applyEntry {e : SideMachine} {tables : List StoredTable}
    {before : List Bytes} (shelved : Shelved choice e tables (writesLayer (writesOf decode before)))
    (command : Bytes) (fits : ∀ write ∈ writesOf decode [command], EntryFits write) :
    Shelved choice
      { e with machine := { e.machine with store := applyEntry decode e.machine.store command } }
      tables (writesLayer (writesOf decode (before ++ [command]))) := by
  rw [applyEntry_eq, writesOf_append, writesLayer_append]
  cases found : decode command with
  | none =>
    have nothing : writesOf decode [command] = [] := by simp [writesOf, found]
    rw [nothing]
    exact shelved
  | some cmd =>
    have one : writesOf decode [command] = [cmd.entry] := by simp [writesOf, found]
    rw [one]
    exact shelved.put cmd.entry.1 cmd.entry.2 (fits cmd.entry (one ▸ mem_singleton_self _))

theorem shelved_startReplay {e : SideMachine} {tables : List StoredTable}
    {history : Layer Bytes (Option Bytes)} (shelved : Shelved choice e tables history) (data : Bytes) :
    Shelved choice (startReplay decode e data) tables history := by
  rw [startReplay]
  split_ifs
  · exact shelved
  · have sameNames : SideMachine.names ⟨e.machine,
        e.side ++ [.waiting (kvEntries decode (deserializeLogEntries data))]⟩ = e.names := by
      simp [SideMachine.names, SideTable.name]
    rcases shelved.names_subperm (List.Perm.of_eq sameNames).subperm rfl with ⟨distinct, clocked⟩
    refine ⟨shelved.stored, shelved.listed, distinct, clocked, shelved.memory, shelved.filled,
      fun ts entries member => ?_, shelved.view, shelved.covered⟩
    rcases mem_append.mp member with old | new
    · exact shelved.built ts entries old
    · cases mem_singleton.mp new

theorem applied_next {entry : Raft.LogEntry} (next : s.node.applyCh[s.taken]? = some entry)
    (engine : SideMachine) :
    applied { s with taken := s.taken + 1, engine := engine } =
      if entry.isSnapshot then s.applied else s.applied ++ [entry.command] := by
  rw [applied, applied]
  simp only [take_add_one, next, Option.toList_some, filter_append, map_append]
  cases kind : entry.isSnapshot <;> simp [kind]

/-- Reads give what the applied commands leave. -/
def Sound (decode : Bytes → Option Command) (choice : BloomChoice) (s : Replica n) : Prop :=
  s.taken ≤ s.node.applyCh.length ∧ ∃ tables, Shelved choice s.engine tables (s.history decode)

theorem sound_new : (new : Replica n).Sound decode choice :=
  ⟨le_rfl, [], Shelved.new⟩

theorem sound_step (input : ReplicaInput n) (sound : s.Sound decode choice)
    (careful : s.Careful decode input) : (s.step decode choice input).Sound decode choice := by
  rcases sound with ⟨behind, tables, shelved⟩
  cases input with
  | call call =>
    rcases call.channel_step s.node with ⟨more, grown⟩
    refine ⟨?_, tables, ?_⟩
    · rw [step, ← grown, length_append]
      exact behind.trans (Nat.le_add_right _ _)
    · have same : (s.step decode choice (.call call)).history decode = s.history decode := by
        simp only [history, applied, step]
        rw [← grown, take_append_of_le_length behind]
      rw [same]
      exact shelved
  | apply =>
    rw [step]
    cases next : s.node.applyCh[s.taken]? with
    | none => exact ⟨behind, tables, shelved⟩
    | some entry =>
      have inside : s.taken < s.node.applyCh.length := (List.getElem?_eq_some_iff.mp next).1
      refine ⟨inside, tables, ?_⟩
      simp only [history]
      rw [applied_next next, Service.apply]
      split_ifs with snapshot
      · exact shelved_startReplay shelved entry.command
      · exact shelved_applyEntry shelved entry.command
          (careful entry next (Bool.eq_false_of_not_eq_true snapshot))
  | flushStep now =>
    rcases shelved.flush now careful.1 careful.2 with ⟨after, moved⟩
    exact ⟨behind, after, moved⟩
  | replayStep place now =>
    have condition := careful
    rw [Careful] at condition
    have timely : ∀ entries, s.engine.side[place]? = some (.waiting entries) →
        s.engine.machine.clock < now := by
      intro entries found
      rw [found] at condition
      exact condition
    have unnoticed : ∀ ts entries, s.engine.side[place]? = some (.named ts entries) →
        Sized entries ∧ Unnoticed s.engine.machine (s.history decode) entries := by
      intro ts entries found
      rw [found] at condition
      exact condition
    rcases shelved.side place now timely unnoticed with ⟨after, moved⟩
    exact ⟨behind, after, moved⟩

end Replica

end Steps

instance (m : Machine) (history : Layer Bytes (Option Bytes)) (entries : List Storage.LogEntry) :
    Decidable (Unnoticed m history entries) :=
  inferInstanceAs (Decidable (∀ _ ∈ _, _ ∨ _ ∨ _ ∧ _))

instance (decode : Bytes → Option Command) (s : Replica n) (input : ReplicaInput n) :
    Decidable (s.Careful decode input) := by
  cases input <;> dsimp only [Replica.Careful]
  case replayStep place now => split <;> infer_instance
  all_goals infer_instance

/-- A node alone that commits some commands and applies them. -/
def commits (commands : List Bytes) : List (ReplicaInput 1) :=
  [.call (.log (.startElection (Fin.last 0))), .call (.log (.wonAsCandidate 1))] ++
    commands.flatMap fun command => [.call (.log (.appendEntry command)), .apply]

def flushes (now : Nat) : List (ReplicaInput 1) := List.replicate 4 (.flushStep now)

def snapshotAt (index : Int) : List (ReplicaInput 1) :=
  [.call (.log (.takeSnapshot index false)), .apply]

end KairosFlux.Service
