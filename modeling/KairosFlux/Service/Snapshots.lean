import KairosFlux.Raft.Restart
import KairosFlux.Service.Standalone
import KairosFlux.Storage.SideTables

/-! Snapshots of the replicated server (`Apply` and `replaySnapshot` in `service/fsm.go`): the log
entries of a snapshot are replayed into a table of their own, and the question is whether they make
up the state they stand for. -/

namespace KairosFlux.Service

open Lib Storage List Layer KVServer
open Raft (Node NodeCall Process RaftWAL WalCall deserializeLogEntries serializeLogEntries)

section Replay

-- `json.Unmarshal` of a command. A type that is neither put nor delete counts as no command.
variable (decode : Bytes → Option Command)

/-- `Apply` of an entry that is no snapshot. -/
def applyEntry (s : Store) (command : Bytes) : Store :=
  match decode command with
  | none => s
  | some cmd =>
    match cmd.type with
    | .put => s.put cmd.key cmd.value
    | .delete => s.put cmd.key none

def kvEntries (entries : List Raft.LogEntry) : List Storage.LogEntry :=
  entries.filterMap fun entry =>
    match decode entry.command with
    | none => none
    | some cmd =>
      match cmd.type with
      | .put => some (cmd.key, cmd.value)
      | .delete => some (cmd.key, none)

def replaySnapshot (choice : BloomChoice) (ts : Nat) (s : Store) (data : Bytes) : Store :=
  let entries := deserializeLogEntries data
  if entries = [] then s else s.flushToSSTable choice ts (kvEntries decode entries)

def writesOf (commands : List Bytes) : List Storage.LogEntry :=
  (commands.filterMap decode).map Command.entry

theorem applyEntry_eq (s : Store) (command : Bytes) : applyEntry decode s command =
      (writesOf decode [command]).foldl (fun s entry => s.put entry.1 entry.2) s := by
  rw [applyEntry, writesOf, filterMap_cons]
  cases decode command with
  | none => rfl
  | some cmd =>
    rcases cmd with ⟨type, key, value⟩
    cases type <;> rfl

theorem kvEntries_eq (entries : List Raft.LogEntry) :
    kvEntries decode entries = writesOf decode (entries.map Raft.LogEntry.command) := by
  rw [kvEntries, writesOf, filterMap_map, map_filterMap]
  apply filterMap_congr
  intro entry _
  rw [Function.comp_apply]
  cases decode entry.command with
  | none => rfl
  | some cmd =>
    rcases cmd with ⟨type, key, value⟩
    cases type <;> rfl

theorem writesOf_append (earlier later : List Bytes) :
    writesOf decode (earlier ++ later) = writesOf decode earlier ++ writesOf decode later := by
  rw [writesOf, filterMap_append, map_append]
  rfl

variable (commands : List Bytes)

theorem foldl_applyEntry (s : Store) : (commands.foldl (applyEntry decode) s).memLayer =
        above (writesLayer (writesOf decode commands)) s.memLayer ∧
      (commands.foldl (applyEntry decode) s).metas = s.metas ∧
      (commands.foldl (applyEntry decode) s).disk = s.disk := by
  induction commands using List.reverseRecOn with
  | nil => exact ⟨rfl, rfl, rfl⟩
  | append_singleton commands command ih =>
    rw [foldl_append, foldl_cons, foldl_nil, applyEntry_eq, writesOf_append, writesLayer_append]
    cases found : decode command with
    | none =>
      have nothing : writesOf decode [command] = [] := by simp [writesOf, found]
      rw [nothing]
      exact ih
    | some cmd =>
      have one : writesOf decode [command] = [cmd.entry] := by simp [writesOf, found]
      have single : writesLayer [cmd.entry] = single cmd.entry.1 cmd.entry.2 := rfl
      rw [one, foldl_cons, foldl_nil, Store.memLayer_put, ih.1, single, above_assoc]
      exact ⟨rfl, ih.2⟩

theorem get_foldl_applyEntry_new (key : Bytes) :
    (commands.foldl (applyEntry decode) Store.new).get key =
      (writesLayer (writesOf decode commands) key).join := by
  rcases foldl_applyEntry decode commands Store.new with ⟨memory, metas, disk⟩
  have stored : Stored plainBloom (commands.foldl (applyEntry decode) Store.new).metas
      (commands.foldl (applyEntry decode) Store.new).disk [] := by
    rw [metas, disk]
    exact Stored.empty
  rw [stored.get_layer, memory]
  exact congrArg Option.join (congrFun (above_empty _) key |>.trans
    (congrFun (above_empty _) key))

/-- The server after some commands: the values that are there. -/
def serverAfter (commands : List Bytes) : KVServer :=
  (commands.filterMap decode).foldl write empty

theorem lookup_serverAfter (key : Bytes) : (serverAfter decode commands).storage.lookup key =
      (writesLayer (writesOf decode commands) key).join := by
  rw [serverAfter, writesOf]
  induction commands.filterMap decode using List.reverseRecOn with
  | nil => rfl
  | append_singleton cmds cmd ih =>
    rw [foldl_append, foldl_cons, foldl_nil, map_append, map_cons, map_nil, writesLayer_snoc]
    by_cases same : key = cmd.key
    · subst same
      rw [lookup_write_self]
      exact congrArg Option.join (above_single_self _ _ _).symm
    · rw [lookup_write_of_ne _ _ _ same, ih]
      exact congrArg Option.join (above_single_of_ne _ _ _ _ same).symm

end Replay

variable {n : Nat}

/-- Up to its commit index the log of a node holds the committed commands, each at its index. -/
def HoldsCommitted (committed : List Bytes) (r : Node n) : Prop :=
  let count := (r.commitIndex + 1 - r.firstIndex).toNat
  count ≤ r.log.length ∧
    (r.log.take count).map Raft.LogEntry.command = (committed.drop r.firstIndex.toNat).take count

instance (committed : List Bytes) (r : Node n) : Decidable (HoldsCommitted committed r) :=
  inferInstanceAs (Decidable (_ ∧ _))

def snapshotEntries (r : Node n) (index : Int) : List Raft.LogEntry :=
  r.log.take (index + 1 - r.lastIncludedIndex).toNat

/-- The committed commands from the last snapshot on, up to an index. -/
def since (committed : List Bytes) (r : Node n) (index : Int) : List Bytes :=
  (committed.take (index + 1).toNat).drop r.firstIndex.toNat

theorem map_snapshotEntries {committed : List Bytes} {r : Node n} {index : Int}
    (holds : HoldsCommitted committed r) (contiguous : r.Contiguous) (accepted : r.Snapshots index)
    (clean : r.Clean index) :
    (snapshotEntries r index).map Raft.LogEntry.command = since committed r index := by
  rcases holds with ⟨long, same⟩
  have base := contiguous.base
  have committedIndex := accepted.2
  have taken : snapshotEntries r index = r.log.take (index + 1 - r.firstIndex).toNat := by
    rw [snapshotEntries]
    rcases clean with first | short
    · rw [Node.firstIndex, if_neg (by omega), first]
    · by_cases first : r.lastIncludedIndex = 0
      · rw [Node.firstIndex, if_neg (by omega), first]
      · rw [Node.firstIndex, if_pos (by omega)] at long ⊢
        rw [take_of_length_le (by omega), take_of_length_le (by omega)]
  have front : (index + 1 - r.firstIndex).toNat ≤ (r.commitIndex + 1 - r.firstIndex).toNat := by
    omega
  have nonneg : 0 ≤ r.firstIndex := by
    rw [Node.firstIndex]
    split_ifs <;> omega
  have ends : (index + 1).toNat - r.firstIndex.toNat = (index + 1 - r.firstIndex).toNat := by omega
  rw [taken, since, drop_take, ends, map_take, ← min_eq_left front, ← take_take,
    ← map_take, same, take_take]

/-- Every key that is there at the last snapshot is written again behind it. -/
def Rewritten (decode : Bytes → Option Command) (committed : List Bytes) (r : Node n) (index : Int) :
    Prop :=
  ∀ entry ∈ (serverAfter decode (committed.take r.firstIndex.toNat)).storage.entries,
    ∃ write ∈ writesOf decode (since committed r index), write.1 = entry.1

instance (decode : Bytes → Option Command) (committed : List Bytes) (r : Node n) (index : Int) :
    Decidable (Rewritten decode committed r index) :=
  inferInstanceAs (Decidable (∀ _ ∈ _, ∃ _ ∈ _, _))

/-- The data of a snapshot stand for the commands up to its index. -/
def CarriesState (decode : Bytes → Option Command) (committed : List Bytes) (data : Bytes)
    (index : Int) : Prop :=
  ∀ choice ts key, (replaySnapshot decode choice ts Store.new data).get key =
    ((committed.take (index + 1).toNat).foldl (applyEntry decode) Store.new).get key

/-- The fields of the snapshot and of the table it is replayed into have room. -/
def SnapshotRoomy (decode : Bytes → Option Command) (entries : List Raft.LogEntry) : Prop :=
  entries.length < 2 ^ 32 ∧ Sized (kvEntries decode entries)

instance (decode : Bytes → Option Command) (entries : List Raft.LogEntry) :
    Decidable (SnapshotRoomy decode entries) :=
  inferInstanceAs (Decidable (_ ∧ _))

theorem get_replaySnapshot (decode : Bytes → Option Command) (entries : List Raft.LogEntry)
    (fits : ∀ entry ∈ entries, entry.Fits) (roomy : SnapshotRoomy decode entries) (choice : BloomChoice)
    (ts : Nat) (key : Bytes) :
    (replaySnapshot decode choice ts Store.new (serializeLogEntries entries)).get key =
      (writesLayer (writesOf decode (entries.map Raft.LogEntry.command)) key).join := by
  rw [replaySnapshot, Raft.deserializeLogEntries_serializeLogEntries entries fits roomy.1]
  split_ifs with nothing
  · subst nothing
    rfl
  · rw [get_flushToSSTable_new choice ts _ roomy.2, kvEntries_eq]

theorem carriesState_iff (decode : Bytes → Option Command) {committed : List Bytes} {r : Node n}
    {index : Int} (holds : HoldsCommitted committed r) (contiguous : r.Contiguous)
    (accepted : r.Snapshots index) (clean : r.Clean index)
    (fits : ∀ entry ∈ snapshotEntries r index, entry.Fits)
    (roomy : SnapshotRoomy decode (snapshotEntries r index)) :
    CarriesState decode committed (serializeLogEntries (snapshotEntries r index)) index ↔
      Rewritten decode committed r index := by
  have ahead := contiguous.snapshot ▸ accepted.1
  have nonneg : r.firstIndex.toNat ≤ (index + 1).toNat := by
    rw [Node.firstIndex]
    split_ifs <;> omega
  -- the commands up to the index are those at the last snapshot and those behind it
  have parts : committed.take (index + 1).toNat =
      committed.take r.firstIndex.toNat ++ since committed r index := by
    have split := take_append_drop r.firstIndex.toNat (committed.take (index + 1).toNat)
    rw [take_take, min_eq_left nonneg] at split
    exact split.symm
  have layers : CarriesState decode committed (serializeLogEntries (snapshotEntries r index)) index ↔
      Layer.SameReads (writesLayer (writesOf decode (since committed r index)))
        (above (writesLayer (writesOf decode (since committed r index)))
          (writesLayer (writesOf decode (committed.take r.firstIndex.toNat)))) := by
    have read := fun choice ts key =>
      get_replaySnapshot decode (snapshotEntries r index) fits roomy choice ts key
    rw [map_snapshotEntries holds contiguous accepted clean] at read
    simp only [CarriesState, read, get_foldl_applyEntry_new, parts, writesOf_append,
      writesLayer_append]
    exact ⟨fun same key => same plainBloom 0 key, fun same _ _ key => same key⟩
  rw [layers, sameReads_above_iff, Rewritten]
  constructor
  · intro spoken entry member
    rw [← writesLayer_ne_none]
    have present := (SortedMap.mem_entries_iff _ entry.1 entry.2).mp member
    rw [lookup_serverAfter, Option.join_eq_some_iff] at present
    exact spoken entry.1 entry.2 present
  · intro rewritten key value present
    rw [writesLayer_ne_none]
    apply rewritten (key, value)
    rw [SortedMap.mem_entries_iff, lookup_serverAfter, present]
    rfl

section Runs

variable (decode : Bytes → Option Command) (committed : List Bytes)

def callStep (p : Process n) (call : NodeCall n) : Process n := p.step (.call call)

/-- What `LoadLatestSnapshot` returns stands for the commands up to its index. -/
def LatestCarries (p : Process n) : Prop :=
  match p.dir.loadLatestSnapshot with
  | .error _ => False
  | .ok none => True
  | .ok (some (data, index, _)) => CarriesState decode committed data index

/-- Snapshots are taken of committed commands and not received, and their fields have room. -/
def Recorded (r : Node n) : NodeCall n → Prop
  | .log (.takeSnapshot index _) =>
    r.Snapshots index → HoldsCommitted committed r ∧ SnapshotRoomy decode (snapshotEntries r index)
  | .log (.installSnapshot _ _) => False
  | _ => True

/-- A snapshot that is not refused finds every key of the last one written again. -/
def Superseding (r : Node n) : NodeCall n → Prop
  | .log (.takeSnapshot index _) => r.Snapshots index → Rewritten decode committed r index
  | _ => True

def SnapshotCareful (p : Process n) (call : NodeCall n) : Prop :=
  p.Careful (.call call) ∧ Recorded decode committed p.node call

variable {p : Process n}

theorem latestCarries_iff (sound : p.Sound) :
    LatestCarries decode committed p ↔ ∀ snapshot ∈ p.node.wal.snapshot,
      CarriesState decode committed snapshot.data snapshot.lastIncludedIndex := by
  rcases sound with ⟨_, torn, written⟩
  rw [LatestCarries, written.represents.loadLatestSnapshot]
  cases p.node.wal.snapshot with
  | none | some => simp

/-- A call leaves a snapshot that stands for its commands exactly if it finds the keys of the last
one written again. -/
theorem latestCarries_callStep_iff {call : NodeCall n} (sound : p.Sound)
    (carries : LatestCarries decode committed p) (careful : SnapshotCareful decode committed p call) :
    LatestCarries decode committed (callStep p call) ↔ Superseding decode committed p.node call := by
  have next : (callStep p call).Sound := (Process.sound_step p (.call call) sound careful.1).1
  rw [latestCarries_iff decode committed sound] at carries
  rw [latestCarries_iff decode committed next]
  have node : (callStep p call).node = call.step p.node := rfl
  rw [node]
  -- a call that keeps the snapshot keeps what it stands for
  have kept : (call.step p.node).wal.snapshot = p.node.wal.snapshot →
      ∀ snapshot ∈ (call.step p.node).wal.snapshot,
        CarriesState decode committed snapshot.data snapshot.lastIncludedIndex := by
    intro same
    rw [same]
    exact carries
  rcases careful with ⟨⟨_, clean, _, _⟩, recorded⟩
  rcases sound with ⟨backed, torn, written⟩
  cases call with
  | log call =>
    cases call with
    | takeSnapshot index full =>
      by_cases accepted : p.node.Snapshots index
      · rcases recorded accepted with ⟨holds, roomy⟩
        have fits : ∀ entry ∈ snapshotEntries p.node index, entry.Fits := by
          intro entry member
          apply written.represents.fits
          rw [backed.contiguous.file]
          exact mem_of_mem_take member
        have taken : ∃ term, (p.node.takeSnapshot index full).wal.snapshot =
            some ⟨serializeLogEntries (snapshotEntries p.node index), index, term⟩ := by
          have inside := accepted
          rw [Node.Snapshots] at inside
          rw [Node.takeSnapshot, if_neg (by omega)]
          exact ⟨_, rfl⟩
        rcases taken with ⟨term, taken⟩
        have after : ((NodeCall.log (.takeSnapshot index full)).step p.node).wal.snapshot = _ :=
          taken
        have state := carriesState_iff decode holds backed.contiguous accepted (clean accepted)
          fits roomy
        rw [after]
        simp only [Option.mem_some_iff, forall_eq', state, Superseding, accepted, true_imp_iff]
      · have same : (NodeCall.log (.takeSnapshot index full)).step p.node = p.node :=
          p.node.takeSnapshot_refused accepted full
        exact iff_of_true (kept (by rw [same])) fun taken => absurd taken accepted
    | installSnapshot args full => exact recorded.elim
    | _ => exact iff_of_true (kept (NodeCall.snapshot_step _ _ (by simp) (by simp))) trivial
  | _ => exact iff_of_true (kept (NodeCall.snapshot_step _ _ (by simp) (by simp))) trivial

end Runs

instance (decode : Bytes → Option Command) (committed : List Bytes) (r : Node n) (call : NodeCall n) :
    Decidable (Recorded decode committed r call) := by
  unfold Recorded
  split <;> infer_instance

instance (decode : Bytes → Option Command) (committed : List Bytes) (r : Node n) (call : NodeCall n) :
    Decidable (Superseding decode committed r call) := by
  unfold Superseding
  split <;> infer_instance

instance (decode : Bytes → Option Command) (committed : List Bytes) (p : Process n)
    (call : NodeCall n) : Decidable (SnapshotCareful decode committed p call) :=
  inferInstanceAs (Decidable (_ ∧ _))

/-- Commands of one byte for the key and at most one for the value. -/
def shortCommand : Bytes → Option Command
  | [key] => some ⟨.delete, [key], none⟩
  | [key, value] => some ⟨.put, [key], some [value]⟩
  | _ => none

/-- A node alone takes a snapshot after two commands, and another after all of them. -/
def snapshotTwice (first second : List Bytes) (index last : Int) : List (NodeCall 1) :=
  [.log (.startElection (Fin.last 0)), .log (.wonAsCandidate 1)] ++
    first.map (fun command => .log (.appendEntry command)) ++ [.log (.takeSnapshot index false)] ++
    second.map (fun command => .log (.appendEntry command)) ++ [.log (.takeSnapshot last false)]

/-- What the second snapshot of a run holds that writes one of two keys again. -/
def lastTwo : List Raft.LogEntry := [⟨2, 1, [106, 2], false⟩, ⟨3, 1, [106, 3], false⟩]

end KairosFlux.Service
