import KairosFlux.Service.Agreement
import KairosFlux.Service.Delivery

/-! Plain and versioned data in one key space (`applyWrite` of `service/router_v2.go`, `Scan` of
`service/fsm.go`). They are told apart by the shape of the key alone. -/

namespace KairosFlux.Service

open Lib Temporal List

/-- `Scan` without a predicate. -/
def KVServer.scan (kv : KVServer) (start stop : Bytes) (limit : Nat) : List (Bytes × Bytes) :=
  ((kv.scanRaw start stop).filter fun entry => !isInternalKey entry.1).take
    (if limit = 0 ∨ maxScanResults < limit then maxScanResults else limit)

/-- The writes of a connection, all of them without failure. -/
inductive DataOp
  | put (key value : Bytes)
  | del (key : Bytes)
  | putVersioned (call : PutCall)

namespace DataOp

def step (ts : TemporalStore) : DataOp → TemporalStore
  | put key value => ts.write ⟨.put, key, some value⟩
  | del key => ts.write ⟨.delete, key, none⟩
  | putVersioned call => ts.put call

def isVersioned : DataOp → Bool
  | putVersioned _ => true
  | _ => false

/-- A plain key has not the shape of a version or pointer key, and no logical key is empty: the
pointer key of the empty one is not taken for a pointer key. An empty plain key ends the scan of a
memtable that holds it. -/
def Apart : DataOp → Prop
  | put key value => key ≠ [] ∧ value ≠ [] ∧ isInternalKey key = false
  | del key => key ≠ [] ∧ isInternalKey key = false
  | putVersioned call => call.logical ≠ []

/-- What a plain operation makes of the value of a key. -/
def onPlain (key : Bytes) (last : Option Bytes) : DataOp → Option Bytes
  | put written value => if key = written then some value else last
  | del written => if key = written then none else last
  | putVersioned _ => last

end DataOp

def lastPlain (key : Bytes) (ops : List DataOp) : Option Bytes := ops.foldl (DataOp.onPlain key) none

theorem isInternalKey_version (logical : Bytes) (seq : UInt64) :
    isInternalKey (versionStorageKey logical seq) = true := by
  rw [isInternalKey, parseVersionStorageKey_versionStorageKey]
  rfl

theorem isInternalKey_current {logical : Bytes} (nonempty : logical ≠ []) :
    isInternalKey (currentStorageKey logical) = true := by
  rw [isInternalKey, (isCurrentStorageKey_iff _).mpr ⟨logical, nonempty, rfl⟩, Bool.or_true]

theorem ne_of_internal {key other : Bytes} (internal : isInternalKey key = true)
    (plain : isInternalKey other = false) : key ≠ other := by
  intro same
  rw [same, plain] at internal
  cases internal

/-- The stores agree on all logical keys, but for the pointer of the empty one. -/
structure SameVersions (ts other : TemporalStore) : Prop where
  agree : Agree (· ≠ []) ts other
  empty : ∀ seq, ts.store.storage.lookup (versionStorageKey [] seq) =
    other.store.storage.lookup (versionStorageKey [] seq)

theorem SameVersions.version {ts other : TemporalStore} (same : SameVersions ts other)
    (logical : Bytes) (seq : UInt64) : ts.store.storage.lookup (versionStorageKey logical seq) =
      other.store.storage.lookup (versionStorageKey logical seq) := by
  by_cases empty : logical = []
  · rw [empty]
    exact same.empty seq
  · exact same.agree.version logical seq empty

theorem SameVersions.putVersioned {ts other : TemporalStore} (same : SameVersions ts other)
    {call : PutCall} (nonempty : call.logical ≠ []) :
    SameVersions (ts.put call) (other.put call) := by
  have closed : ∀ logical : Bytes, logical ≠ [] → currentStorageKey logical ≠ [] := by
    intro logical _ empty
    exact absurd (append_eq_nil_iff.mp empty).2 (by decide)
  refine ⟨same.agree.put closed nonempty, fun seq => ?_⟩
  rw [lookup_put_version _ _ _ _ nonempty.symm, lookup_put_version _ _ _ _ nonempty.symm,
    same.empty seq]

theorem SameVersions.write {ts other : TemporalStore} (same : SameVersions ts other) (cmd : Command)
    (plain : isInternalKey cmd.key = false) : SameVersions (ts.write cmd) other := by
  refine ⟨same.agree.write_left cmd ?_ ?_, fun seq => ?_⟩
  · exact fun logical nonempty => ne_of_internal (isInternalKey_current nonempty) plain
  · exact fun logical seq _ => ne_of_internal (isInternalKey_version logical seq) plain
  · rw [← same.empty seq]
    exact ts.store.lookup_write_of_ne cmd _ (ne_of_internal (isInternalKey_version [] seq) plain)

theorem sameVersions_run (ops : List DataOp) (apart : ∀ op ∈ ops, op.Apart) :
    SameVersions (run DataOp.step (newTemporalStore .empty) ops)
      (run DataOp.step (newTemporalStore .empty) (ops.filter DataOp.isVersioned)) := by
  have both : ∀ (ts other : TemporalStore) (op : DataOp), SameVersions ts other → op.Apart →
      op.isVersioned = true → SameVersions (op.step ts) (op.step other) := by
    intro ts other op same apart versioned
    cases op with
    | putVersioned call => exact same.putVersioned apart
    | put | del => cases versioned
  have skipped : ∀ (ts other : TemporalStore) (op : DataOp), SameVersions ts other → op.Apart →
      op.isVersioned = false → SameVersions (op.step ts) other := by
    intro ts other op same apart plain
    cases op with
    | putVersioned call => cases plain
    | put key value => exact same.write _ apart.2.2
    | del key => exact same.write _ apart.2
  exact run_filter DataOp.isVersioned both skipped _ _ ops ⟨.refl _ _, fun _ => rfl⟩ apart

theorem lookup_step (ts : TemporalStore) (op : DataOp) (apart : op.Apart) (key : Bytes)
    (plain : isInternalKey key = false) :
    (op.step ts).store.storage.lookup key = op.onPlain key (ts.store.storage.lookup key) := by
  have written : ∀ cmd : Command, (ts.write cmd).store.storage.lookup key =
      if key = cmd.key then cmd.stored else ts.store.storage.lookup key := by
    intro cmd
    split_ifs with same
    · rw [same]
      exact ts.store.lookup_write_self cmd
    · exact ts.store.lookup_write_of_ne cmd key same
  cases op with
  | put target value => exact written ⟨.put, target, some value⟩
  | del target => exact written ⟨.delete, target, none⟩
  | putVersioned call =>
    have current := (ne_of_internal (isInternalKey_current apart) plain).symm
    have version := (ne_of_internal (isInternalKey_version call.logical
      (ts.nextSeq call.logical)) plain).symm
    rw [DataOp.step, lookup_put, if_neg current, if_neg version, DataOp.onPlain]

theorem lookup_run (ops : List DataOp) (apart : ∀ op ∈ ops, op.Apart) (key : Bytes)
    (plain : isInternalKey key = false) :
    (run DataOp.step (newTemporalStore .empty) ops).store.storage.lookup key = lastPlain key ops := by
  induction ops using List.reverseRecOn with
  | nil => rfl
  | append_singleton ops op ih =>
    rw [forall_mem_append] at apart
    rw [run_append, lastPlain, foldl_append, ← lastPlain, ← ih apart.1]
    exact lookup_step _ op (apart.2 op (mem_singleton_self op)) key plain

theorem KVServer.mem_scan (kv : KVServer) (start stop : Bytes)
    (short : (kv.scan start stop 0).length < maxScanResults) (key value : Bytes) :
    (key, value) ∈ kv.scan start stop 0 ↔
      isInternalKey key = false ∧ kv.storage.lookup key = some value ∧ start ≤ key ∧
        (stop = [] ∨ key ≤ stop) := by
  have whole : kv.scan start stop 0 =
      (kv.scanRaw start stop).filter fun entry => !isInternalKey entry.1 := by
    rw [scan, if_pos (.inl rfl), length_take] at short
    rw [scan, if_pos (.inl rfl), take_of_length_le (by omega)]
  rw [whole, mem_filter, mem_scanRaw, Bool.not_eq_true', and_comm]

theorem lastPlain_eq_none {ops : List DataOp} (apart : ∀ op ∈ ops, op.Apart) {key : Bytes}
    (internal : isInternalKey key = true) : lastPlain key ops = none := by
  induction ops using List.reverseRecOn with
  | nil => rfl
  | append_singleton ops op ih =>
    rw [forall_mem_append] at apart
    rw [lastPlain, foldl_append, ← lastPlain, ih apart.1]
    have own := apart.2 op (mem_singleton_self op)
    cases op with
    | put target value => exact if_neg (ne_of_internal internal own.2.2)
    | del target => exact if_neg (ne_of_internal internal own.2)
    | putVersioned call => rfl

/-- With plain keys that do not look like internal ones, versioned reads do not see plain writes, and a
scan shows exactly the plain data. -/
theorem plain_and_versioned_apart (ops : List DataOp) (apart : ∀ op ∈ ops, op.Apart) :
    let ts := run DataOp.step (newTemporalStore .empty) ops
    let alone := run DataOp.step (newTemporalStore .empty) (ops.filter DataOp.isVersioned)
    (∀ logical, ts.listVersions logical = alone.listVersions logical ∧
      ∀ asOfNanos, ts.getAsOf logical asOfNanos = alone.getAsOf logical asOfNanos) ∧
    ∀ start stop, (ts.store.scan start stop 0).length < maxScanResults →
      (ts.store.scan start stop 0).Pairwise KeyLt ∧
      ∀ key value, (key, value) ∈ ts.store.scan start stop 0 ↔
        lastPlain key ops = some value ∧ start ≤ key ∧ (stop = [] ∨ key ≤ stop) := by
  intro ts alone
  have same := sameVersions_run ops apart
  constructor
  · intro logical
    have listed : ts.listVersions logical = alone.listVersions logical :=
      listVersions_congr (same.version logical)
    exact ⟨listed, fun asOfNanos => by rw [TemporalStore.getAsOf, TemporalStore.getAsOf, listed]⟩
  · intro start stop short
    refine ⟨((ts.store.scanRaw_sorted start stop).filter _).sublist (take_sublist _ _), ?_⟩
    intro key value
    rw [ts.store.mem_scan start stop short]
    constructor
    · intro found
      rcases found with ⟨plain, present, range⟩
      rw [lookup_run ops apart key plain] at present
      exact ⟨present, range⟩
    · intro found
      rcases found with ⟨last, range⟩
      have plain : isInternalKey key = false := by
        cases internal : isInternalKey key with
        | false => rfl
        | true =>
          rw [lastPlain_eq_none apart internal] at last
          cases last
      exact ⟨plain, (lookup_run ops apart key plain).trans last, range⟩

theorem plain_and_versioned_apart_scan :
    let ops : List DataOp := [.put (ascii ['a']) [1], .putVersioned ⟨ascii ['a'], [2], 5, [], 0⟩,
      .put (ascii ['b']) [3], .del (ascii ['a'])]
    let ts := run DataOp.step (newTemporalStore .empty) ops
    (ascii ['b'], [3]) ∈ ts.store.scan [] [] 0 := by
  intro ops ts
  have apart : ∀ op ∈ ops, op.Apart := by
    simp [ops, DataOp.Apart, ascii]
    decide
  have shown := (plain_and_versioned_apart ops apart).2 [] [] (by decide +kernel)
  exact (shown.2 _ _).mpr ⟨by decide, by decide, .inl rfl⟩

/-- A plain put of `x:current` is hidden from the scan, a plain put of the first version key of `x` is
listed as a version of `x`, and the pointer of the empty logical key is shown by the scan. -/
theorem plain_and_versioned_mixed :
    let hidden := run DataOp.step (newTemporalStore .empty) [.put (currentStorageKey (ascii ['x'])) [1]]
    let forged := run DataOp.step (newTemporalStore .empty)
      [.put (versionStorageKey (ascii ['x']) 1) [0, 0, 0, 0, 0, 0, 0, 0, 7]]
    let leaked := run DataOp.step (newTemporalStore .empty) [.putVersioned ⟨[], [1], 5, [], 0⟩]
    hidden.store.scan [] [] 0 = [] ∧
      (forged.listVersions (ascii ['x'])).map Version.payload = [[7]] ∧
      (leaked.store.scan [] [] 0).map Prod.fst = [currentSuffix] := by
  decide +kernel

end KairosFlux.Service
