import KairosFlux.Service.KVServer

/-! Versioned writes and as-of reads (`service/temporal_store.go`). -/

namespace KairosFlux.Service

open Lib Temporal

structure PutCall where
  logical : Bytes
  payload : Bytes
  writeNanos : Int64
  source : Bytes
  schemaVersion : UInt32
  deriving DecidableEq

structure TemporalStore where
  store : KVServer
  seqCache : Bytes → Option UInt64

def newTemporalStore (store : KVServer) : TemporalStore := ⟨store, fun _ => none⟩

def newVersion (call : PutCall) (seq : UInt64) : Version where
  logicalKey := call.logical
  seq := seq
  writeNanos := call.writeNanos
  payload := call.payload
  source := call.source
  schemaVer := call.schemaVersion
  persistedHash := hashPayload call.payload

def currentValueOf (v : Version) : CurrentValue := ⟨v.seq, v.payloadHash⟩

def versionCommand (v : Version) : Command where
  type := .put
  key := versionStorageKey v.logicalKey v.seq
  value := some (encodeVersionRecord v)

def currentCommand (v : Version) : Command where
  type := .put
  key := currentStorageKey v.logicalKey
  value := some (encodeCurrentValue (currentValueOf v))

namespace TemporalStore

def currentPointer (ts : TemporalStore) (logical : Bytes) : Option CurrentValue :=
  match ts.store.get (currentStorageKey logical) with
  | none => none
  | some raw => decodeCurrentValue raw

def nextSeq (ts : TemporalStore) (logical : Bytes) : UInt64 :=
  match ts.seqCache logical with
  | some seq => seq + 1
  | none =>
    match ts.currentPointer logical with
    | none => 1
    | some cur => cur.seq + 1

def write (ts : TemporalStore) (cmd : Command) : TemporalStore :=
  { ts with store := ts.store.write cmd }

def cacheSeq (ts : TemporalStore) (logical : Bytes) (seq : UInt64) : TemporalStore :=
  { ts with seqCache := Function.update ts.seqCache logical (some seq) }

@[simp] theorem seqCache_cacheSeq (ts : TemporalStore) (logical : Bytes) (seq : UInt64) :
    (ts.cacheSeq logical seq).seqCache = Function.update ts.seqCache logical (some seq) :=
  rfl

/-- `versionOk` and `currentOk` say whether the two `Write` calls of the put succeed. A write that
fails has no effect and the put returns its error. -/
def putVersioned (ts : TemporalStore) (call : PutCall) (versionOk currentOk : Bool) :
    TemporalStore × Option UInt64 :=
  let seq := ts.nextSeq call.logical
  let v := newVersion call seq
  if versionOk = false then (ts, none)
  else
    let versioned := ts.write (versionCommand v)
    if currentOk = false then (versioned, none)
    else ((versioned.write (currentCommand v)).cacheSeq call.logical seq, some seq)

def versionOfEntry (logical : Bytes) (entry : Bytes × Bytes) : Option Version :=
  match parseVersionStorageKey entry.1 with
  | none => none
  | some (gotLogical, seq) =>
    if gotLogical ≠ logical then none
    else
      match decodeVersionRecord entry.2 with
      | none => none
      | some rec => some { rec with logicalKey := logical, seq := seq }

def listVersions (ts : TemporalStore) (logical : Bytes) : List Version :=
  let raw := ts.store.scanRaw (versionStorageKeyLowerBound logical)
    (versionStorageKeyUpperBound logical)
  (raw.filterMap (versionOfEntry logical)).insertionSort fun left right => left.seq ≤ right.seq

def getAsOf (ts : TemporalStore) (logical : Bytes) (asOfNanos : Int64) : Option Version :=
  asOf (ts.listVersions logical) asOfNanos

end TemporalStore

/-- What a reader makes of the bytes stored under one version key. -/
def readVersion (logical : Bytes) (seq : UInt64) (raw : Bytes) : Option Version :=
  (decodeVersionRecord raw).map fun rec => { rec with logicalKey := logical, seq := seq }

theorem readVersion_encodeVersionRecord (v : Version) (sourceFits : v.source.length < 2 ^ 32)
    (hashFits : v.persistedHash.length < 2 ^ 16) :
    readVersion v.logicalKey v.seq (encodeVersionRecord v) = some v := by
  rw [readVersion, decodeVersionRecord_encodeVersionRecord v sourceFits hashFits]
  rfl

namespace TemporalStore

theorem versionOfEntry_eq_some_iff (logical : Bytes) (entry : Bytes × Bytes) (v : Version) :
    versionOfEntry logical entry = some v ↔
      entry.1 = versionStorageKey logical v.seq ∧ readVersion logical v.seq entry.2 = some v := by
  constructor
  · intro read
    rw [versionOfEntry] at read
    split at read
    · exact absurd read (by simp)
    · next gotLogical seq parsed =>
        split_ifs at read with same
        split at read
        · exact absurd read (by simp)
        · next rec decoded =>
            rw [not_not] at same
            subst same
            rw [Option.some.injEq] at read
            subst read
            exact ⟨eq_versionStorageKey_of_parse _ _ _ parsed, by rw [readVersion, decoded]; rfl⟩
  · intro found
    rw [readVersion, Option.map_eq_some_iff] at found
    obtain ⟨key, rec, decoded, same⟩ := found
    simp only [versionOfEntry, key, parseVersionStorageKey_versionStorageKey, decoded, same,
      ne_eq, not_true_eq_false, if_false]

variable (ts : TemporalStore)

theorem mem_listVersions (logical : Bytes) (v : Version) : v ∈ ts.listVersions logical ↔
      ∃ raw, ts.store.storage.lookup (versionStorageKey logical v.seq) = some raw ∧
        readVersion logical v.seq raw = some v := by
  rw [listVersions, List.mem_insertionSort, List.mem_filterMap]
  constructor
  · intro listed
    obtain ⟨entry, scanned, read⟩ := listed
    obtain ⟨key, value⟩ := (versionOfEntry_eq_some_iff logical entry v).mp read
    have present := ((ts.store.mem_scanRaw _ _ entry.1 entry.2).mp scanned).1
    exact ⟨entry.2, key ▸ present, value⟩
  · intro stored
    obtain ⟨raw, present, read⟩ := stored
    refine ⟨(versionStorageKey logical v.seq, raw), ?_,
      (versionOfEntry_eq_some_iff logical _ v).mpr ⟨rfl, read⟩⟩
    have between := versionStorageKey_between logical v.seq
    exact (ts.store.mem_scanRaw _ _ _ _).mpr ⟨present, between.1, .inr between.2⟩

theorem scannedVersions_sorted (logical start stop : Bytes) :
    ((ts.store.scanRaw start stop).filterMap (versionOfEntry logical)).Pairwise
      fun left right => left.seq < right.seq := by
  refine List.Pairwise.filterMap _ ?_ (ts.store.scanRaw_sorted start stop)
  intro left right less first firstRead second secondRead
  have firstKey := ((versionOfEntry_eq_some_iff logical left first).mp firstRead).1
  have secondKey := ((versionOfEntry_eq_some_iff logical right second).mp secondRead).1
  rw [← versionStorageKey_lt_iff logical, ← firstKey, ← secondKey]
  exact less

theorem listVersions_sorted (logical : Bytes) :
    (ts.listVersions logical).Pairwise fun left right => left.seq < right.seq := by
  have strict := ts.scannedVersions_sorted logical (versionStorageKeyLowerBound logical)
    (versionStorageKeyUpperBound logical)
  have weak := strict.imp fun less => le_of_lt less
  rw [listVersions, List.Pairwise.insertionSort_eq weak]
  exact strict

end TemporalStore

end KairosFlux.Service
