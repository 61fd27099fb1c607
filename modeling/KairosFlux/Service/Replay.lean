import KairosFlux.Service.LogicalKeys
import KairosFlux.Temporal.Fingerprint

/-! Replay and reconciliation (`ReplayFingerprint` of `service/temporal_store.go`).

The logical keys of a data set are found again by a scan for pointer keys between the prefix and the
prefix followed by the byte 0xFF. -/

namespace KairosFlux.Service

open Lib Temporal List KVServer TemporalStore

structure ReplayResult where
  keyCount : UInt32
  mismatches : List Bytes
  fingerprint : Bytes
  bounded : Bool
  deriving DecidableEq

def logicalOfPointer (entry : Bytes × Bytes) : Option Bytes :=
  if isCurrentStorageKey entry.1 then
    some (entry.1.take (entry.1.length - currentSuffix.length))
  else none

/-- What one round of the replay loop adds: the entry, if any, and whether the key is a mismatch. -/
structure KeyReplay where
  entry : Option Entry
  mismatch : Bool

namespace TemporalStore

def replayKeys (ts : TemporalStore) (keyPrefix : Bytes) : List Bytes :=
  ((ts.store.scanRaw keyPrefix (keyPrefix ++ [255])).filterMap logicalOfPointer).insertionSort
    fun left right => left ≤ right

def replayKey (ts : TemporalStore) (asOfNanos : Int64) (logical : Bytes) : KeyReplay :=
  let versions := ts.listVersions logical
  if 0 < asOfNanos then
    match asOf versions asOfNanos with
    | none => ⟨none, false⟩
    | some v => ⟨some ⟨logical, v.seq, v.payload⟩, false⟩
  else
    match latest versions with
    | none => ⟨none, true⟩
    | some newest =>
      let mismatch := match ts.currentPointer logical with
        | none => true
        | some cur => cur.seq ≠ newest.seq ∨ cur.payloadHash ≠ newest.payloadHash
      ⟨some ⟨logical, newest.seq, newest.payload⟩, mismatch⟩

def replayFingerprint (ts : TemporalStore) (keyPrefix : Bytes) (asOfNanos : Int64) : ReplayResult :=
  let logicalKeys := ts.replayKeys keyPrefix
  { keyCount := UInt32.ofNat logicalKeys.length
    mismatches := logicalKeys.filter fun logical => (ts.replayKey asOfNanos logical).mismatch
    fingerprint := fingerprint
      (logicalKeys.filterMap fun logical => (ts.replayKey asOfNanos logical).entry)
    bounded := 0 < asOfNanos }

end TemporalStore

def writtenKeys (keyPrefix : Bytes) (calls : List PutCall) : List Bytes :=
  (calls.map PutCall.logical).dedup.filter fun logical => keyPrefix <+: logical

def lastEntry (calls : List PutCall) (logical : Bytes) : Option Entry :=
  (onKey logical (recordsOf calls)).getLast?.map fun v => ⟨logical, v.seq, v.payload⟩

/-- A key under the prefix is not empty, does not go on with the byte 0xFF and has no pointer key
that is itself a logical key. A key outside the prefix has no pointer key under it. -/
def ReplayApart (keyPrefix : Bytes) (calls : List PutCall) : Prop :=
  ∀ call ∈ calls,
    (keyPrefix <+: call.logical → call.logical ≠ [] ∧ ¬ keyPrefix ++ [255] <+: call.logical ∧
      ∀ other ∈ calls, other.logical ≠ currentStorageKey call.logical) ∧
    (¬ keyPrefix <+: call.logical → ¬ keyPrefix <+: currentStorageKey call.logical)
deriving Decidable

variable (calls : List PutCall) (keyPrefix logical : Bytes)

theorem mem_writtenKeys (calls : List PutCall) (logical : Bytes) :
    logical ∈ writtenKeys keyPrefix calls ↔
      (∃ call ∈ calls, call.logical = logical) ∧ keyPrefix <+: logical := by
  rw [writtenKeys, mem_filter, mem_dedup, mem_map, decide_eq_true_eq]

theorem logicalOfPointer_eq_some_iff (entry : Bytes × Bytes) (logical : Bytes) :
    logicalOfPointer entry = some logical ↔ logical ≠ [] ∧ entry.1 = currentStorageKey logical := by
  have cut : ∀ key : Bytes, (currentStorageKey key).take
      ((currentStorageKey key).length - currentSuffix.length) = key := by
    intro key
    rw [currentStorageKey, length_append, Nat.add_sub_cancel, take_left]
  rw [logicalOfPointer]
  constructor
  · intro found
    split_ifs at found with recognised
    obtain ⟨key, nonempty, shape⟩ := (isCurrentStorageKey_iff entry.1).mp recognised
    rw [shape, cut, Option.some.injEq] at found
    rw [← found]
    exact ⟨nonempty, shape⟩
  · intro shape
    rw [if_pos ((isCurrentStorageKey_iff entry.1).mpr ⟨logical, shape.1, shape.2⟩), shape.2, cut]

theorem lookup_pointer_iff :
    (∃ raw, (storeAfter calls).store.storage.lookup (currentStorageKey logical) = some raw) ↔
      ∃ call ∈ calls, call.logical = logical := by
  rw [(traced_storeAfter calls).holds.current]
  constructor
  · intro present
    obtain ⟨raw, found⟩ := present
    rw [Option.map_eq_some_iff] at found
    obtain ⟨v, last, _⟩ := found
    obtain ⟨inside, rfl⟩ := (mem_onKey _ _ _).mp (mem_of_getLast? last)
    obtain ⟨call, called, shape⟩ := mem_written _ calls v inside
    exact ⟨call, called, by rw [shape]; rfl⟩
  · intro called
    obtain ⟨call, member, rfl⟩ := called
    cases last : (onKey call.logical (recordsOf calls)).getLast? with
    | none =>
      have length := onKey_written_length (newTemporalStore empty) calls call.logical
      rw [← recordsOf, List.getLast?_eq_none_iff.mp last, length_nil] at length
      have absent := countP_eq_zero.mp length.symm call member
      exact absurd absent (by simp)
    | some v => exact ⟨_, rfl⟩

/-- The pointer key of a logical key is found by the scan. -/
def Replayed (keyPrefix logical : Bytes) : Prop :=
  logical ≠ [] ∧ keyPrefix ≤ currentStorageKey logical ∧
    currentStorageKey logical ≤ keyPrefix ++ [255]
deriving Decidable

theorem Replayed.pointer_prefix {keyPrefix logical : Bytes} (replayed : Replayed keyPrefix logical) :
    keyPrefix <+: currentStorageKey logical :=
  prefix_of_between _ _ replayed.2.1 replayed.2.2

theorem mem_replayKeys_iff : logical ∈ (storeAfter calls).replayKeys keyPrefix ↔
      Replayed keyPrefix logical ∧ ∃ call ∈ calls, call.logical = logical := by
  rw [replayKeys, mem_insertionSort, mem_filterMap, ← lookup_pointer_iff]
  constructor
  · rintro ⟨entry, scanned, isPointer⟩
    rcases (logicalOfPointer_eq_some_iff entry logical).mp isPointer with ⟨nonempty, shape⟩
    rcases (mem_scanRaw _ _ _ entry.1 entry.2).mp scanned with ⟨present, above, below⟩
    rw [shape] at present above below
    exact ⟨⟨nonempty, above, below.resolve_left (by simp)⟩, entry.2, present⟩
  · rintro ⟨⟨nonempty, above, below⟩, raw, present⟩
    refine ⟨(currentStorageKey logical, raw), ?_,
      (logicalOfPointer_eq_some_iff _ _).mpr ⟨nonempty, rfl⟩⟩
    exact (mem_scanRaw _ _ _ _ _).mpr ⟨present, above, .inr below⟩

theorem mem_replayKeys (apart : ReplayApart keyPrefix calls) (logical : Bytes) :
    logical ∈ (storeAfter calls).replayKeys keyPrefix ↔ logical ∈ writtenKeys keyPrefix calls := by
  rw [mem_replayKeys_iff, mem_writtenKeys]
  constructor
  · rintro ⟨replayed, call, member, rfl⟩
    refine ⟨⟨call, member, rfl⟩, ?_⟩
    by_contra outside
    exact (apart call member).2 outside replayed.pointer_prefix
  · rintro ⟨⟨call, member, rfl⟩, under⟩
    rcases (apart call member).1 under with ⟨nonempty, notTop, _⟩
    have inside := (between_suffixed_iff keyPrefix call.logical currentSuffix (by decide +kernel)
      (by decide)).mpr ⟨under.trans (prefix_append _ _), notTop⟩
    exact ⟨⟨nonempty, inside⟩, call, member, rfl⟩

theorem replayKeys_nodup (ts : TemporalStore) (keyPrefix : Bytes) :
    (ts.replayKeys keyPrefix).Nodup := by
  rw [replayKeys, (perm_insertionSort _ _).nodup_iff]
  refine List.Pairwise.filterMap _ ?_ (ts.store.scanRaw_sorted _ _)
  intro left right less first firstIs second secondIs same
  have leftKey := ((logicalOfPointer_eq_some_iff left first).mp firstIs).2
  have rightKey := ((logicalOfPointer_eq_some_iff right second).mp secondIs).2
  rw [KeyLt, leftKey, rightKey, same] at less
  exact lt_irrefl _ less

theorem replayKeys_perm (apart : ReplayApart keyPrefix calls) :
    ((storeAfter calls).replayKeys keyPrefix).Perm (writtenKeys keyPrefix calls) := by
  have writtenOnce : (writtenKeys keyPrefix calls).Nodup := (nodup_dedup _).filter _
  rw [perm_ext_iff_of_nodup (replayKeys_nodup _ _) writtenOnce]
  exact mem_replayKeys calls keyPrefix apart

theorem latest_of_sorted (versions : List Version) (v : Version)
    (sorted : versions.Pairwise fun left right => left.seq < right.seq)
    (last : versions.getLast? = some v) : latest versions = some v := by
  cases versions with
  | nil => exact absurd last (by simp)
  | cons first rest =>
    obtain ⟨member, largest⟩ := latestFrom_largest first rest
    have atLeast := largest v (mem_of_getLast? last)
    obtain ⟨front, shape⟩ := List.getLast?_eq_some_iff.mp last
    rw [latest]
    rw [shape] at member sorted
    rcases mem_append.mp member with inside | inside
    · have less := (pairwise_append.mp sorted).2.2 _ inside v (.head _)
      exact absurd (lt_of_le_of_lt atLeast less) (lt_irrefl _)
    · rw [mem_singleton.mp inside]

theorem replayKey_of_written (apart : ReplayApart keyPrefix calls)
    (fits : ∀ call ∈ calls, call.source.length < 2 ^ 32)
    (bounded : ∀ logical, countOn logical calls < 2 ^ 64) (asOfNanos : Int64)
    (unbounded : ¬ 0 < asOfNanos) (logical : Bytes)
    (member : logical ∈ writtenKeys keyPrefix calls) :
    ∃ entry, lastEntry calls logical = some entry ∧ entry.logicalKey = logical ∧
      (storeAfter calls).replayKey asOfNanos logical = ⟨some entry, false⟩ := by
  obtain ⟨⟨call, called, rfl⟩, under⟩ := (mem_writtenKeys _ _ _).mp member
  have numbers := seqs_from_one calls call.logical ((apart call called).1 under).2.2
  have listed := listVersions_eq_onKey calls call.logical (fun call called _ => fits call called)
    (bounded call.logical) numbers
  obtain ⟨raw, present⟩ := (lookup_pointer_iff calls call.logical).mpr ⟨call, called, rfl⟩
  rw [(traced_storeAfter calls).holds.current, Option.map_eq_some_iff] at present
  obtain ⟨v, last, _⟩ := present
  have newest := latest_of_sorted _ v (onKey_sorted calls call.logical (bounded call.logical) numbers)
    last
  have pointer := currentPointer_of_pointed (traced_storeAfter calls).holds
    call.logical v last
  refine ⟨⟨call.logical, v.seq, v.payload⟩, by rw [lastEntry, last]; rfl, rfl, ?_⟩
  simp only [replayKey, if_neg unbounded, listed, newest, pointer, currentValueOf]
  simp

/-- Replay finds exactly the written keys under the prefix, agrees with every pointer and takes the
fingerprint of their last records. -/
theorem replay_reconciles (calls : List PutCall) (keyPrefix : Bytes) (asOfNanos : Int64)
    (apart : ReplayApart keyPrefix calls) (unbounded : ¬ 0 < asOfNanos)
    (fits : ∀ call ∈ calls, call.source.length < 2 ^ 32)
    (bounded : ∀ logical, countOn logical calls < 2 ^ 64)
    (few : (writtenKeys keyPrefix calls).length < 2 ^ 32) :
    let result := (storeAfter calls).replayFingerprint keyPrefix asOfNanos
    result.mismatches = [] ∧ result.keyCount.toNat = (writtenKeys keyPrefix calls).length ∧
      result.fingerprint =
        fingerprint ((writtenKeys keyPrefix calls).filterMap (lastEntry calls)) := by
  intro result
  have perm := replayKeys_perm calls keyPrefix apart
  have replayed : ∀ logical ∈ (storeAfter calls).replayKeys keyPrefix,
      ∃ entry, lastEntry calls logical = some entry ∧ entry.logicalKey = logical ∧
        (storeAfter calls).replayKey asOfNanos logical = ⟨some entry, false⟩ := by
    intro logical found
    exact replayKey_of_written calls keyPrefix apart fits bounded asOfNanos unbounded logical
      (perm.mem_iff.mp found)
  refine ⟨?_, ?_, ?_⟩
  · show List.filter _ _ = []
    rw [filter_eq_nil_iff]
    intro logical found mismatch
    obtain ⟨entry, _, _, shape⟩ := replayed logical found
    rw [shape] at mismatch
    exact absurd mismatch (by simp)
  · show (UInt32.ofNat _).toNat = _
    rw [UInt32.toNat_ofNat', perm.length_eq, Nat.mod_eq_of_lt few]
  · have entries : ((storeAfter calls).replayKeys keyPrefix).filterMap (fun logical =>
        ((storeAfter calls).replayKey asOfNanos logical).entry) =
          ((storeAfter calls).replayKeys keyPrefix).filterMap (lastEntry calls) := by
      apply filterMap_congr
      intro logical found
      obtain ⟨entry, last, _, shape⟩ := replayed logical found
      rw [shape, last]
    have places : ((((storeAfter calls).replayKeys keyPrefix).filterMap (lastEntry calls)).map
        Entry.place).Nodup := by
      rw [List.Nodup, pairwise_map]
      refine List.Pairwise.filterMap _ ?_ (replayKeys_nodup (storeAfter calls) keyPrefix)
      intro left right different first firstIs second secondIs same
      rw [lastEntry, Option.map_eq_some_iff] at firstIs secondIs
      obtain ⟨_, _, rfl⟩ := firstIs
      obtain ⟨_, _, rfl⟩ := secondIs
      exact different (congrArg Prod.fst same)
    show fingerprint _ = _
    rw [entries, fingerprint, fingerprint, fingerprintStream, fingerprintStream,
      sortEntries_eq_of_perm _ _ (perm.filterMap (lastEntry calls)) places]

theorem replay_reconciles_two_keys :
    let calls : List PutCall := [⟨ascii ['p', '/', 'a'], ascii ['1'], 1, [], 0⟩,
      ⟨ascii ['p', '/', 'b'], ascii ['2'], 2, [], 0⟩, ⟨ascii ['p', '/', 'a'], ascii ['3'], 3, [], 0⟩,
      ⟨ascii ['q'], ascii ['4'], 4, [], 0⟩]
    let result := (storeAfter calls).replayFingerprint (ascii ['p', '/']) 0
    result.mismatches = [] ∧ result.keyCount.toNat = 2 := by
  intro calls
  have bounded : ∀ logical, countOn logical calls < 2 ^ 64 := fun logical =>
    lt_of_le_of_lt countP_le_length (by decide)
  have reconciled := replay_reconciles calls (ascii ['p', '/']) 0 (by decide) (by decide) (by decide)
    bounded (by decide)
  exact ⟨reconciled.1, reconciled.2.1.trans (by decide)⟩

/-- A written key that goes on with the byte 0xFF after the prefix is outside the scanned range, and
a prefix that reaches into the suffix of a pointer key counts a key that does not start with it. -/
theorem replay_miscounts : let high : PutCall := ⟨[97, 255], ascii ['1'], 1, [], 0⟩
    let short : PutCall := ⟨ascii ['x'], ascii ['1'], 1, [], 0⟩
    writtenKeys [97] [high] = [[97, 255]] ∧
      ((storeAfter [high]).replayFingerprint [97] 0).keyCount = 0 ∧
      writtenKeys (ascii ['x', ':', 'c']) [short] = [] ∧
      ((storeAfter [short]).replayFingerprint (ascii ['x', ':', 'c']) 0).keyCount = 1 := by
  decide +kernel

end KairosFlux.Service
