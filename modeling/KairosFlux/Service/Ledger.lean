import KairosFlux.Lib.Counter
import KairosFlux.Service.TemporalStore

/-! The abstract content of a store written only by versioned puts.

Two histories describe it: the versions whose version key was stored and the versions a pointer
was written for, each in the order of the writes. The key-value content is a function of the two,
and the two kinds of write extend one history each. -/

namespace KairosFlux.Service

open Lib Temporal List SortedMap Option

def onKey (logical : Bytes) (versions : List Version) : List Version :=
  versions.filter fun v => v.logicalKey = logical

def lastStored (logical : Bytes) (seq : UInt64) (versions : List Version) : Option Version :=
  (versions.filter fun v => v.logicalKey = logical ∧ v.seq = seq).getLast?

structure Holds (kv : KVServer) (stored pointed : List Version) : Prop where
  version : ∀ logical seq, kv.storage.lookup (versionStorageKey logical seq) =
    (lastStored logical seq stored).map encodeVersionRecord
  current : ∀ logical, kv.storage.lookup (currentStorageKey logical) =
    (onKey logical pointed).getLast?.map fun v => encodeCurrentValue (currentValueOf v)
  other : ∀ key raw, kv.storage.lookup key = some raw →
    (∃ logical seq, key = versionStorageKey logical seq) ∨
      ∃ logical, key = currentStorageKey logical

/-- A cached number is the number of the last version pointed to. -/
def CacheFollows (cache : Bytes → Option UInt64) (pointed : List Version) : Prop :=
  ∀ logical seq, cache logical = some seq →
    ∃ v, (onKey logical pointed).getLast? = some v ∧ v.seq = seq

def seqsOf (logical : Bytes) (versions : List Version) : List UInt64 :=
  (onKey logical versions).map Version.seq

/-- The numbers each logical key was given are consecutive, from wherever they start. -/
def Numbered (stored : List Version) : Prop := ∀ logical, Consecutive (seqsOf logical stored)

variable (logical : Bytes) (versions : List Version) (v : Version)

theorem onKey_append (first second : List Version) :
    onKey logical (first ++ second) = onKey logical first ++ onKey logical second :=
  filter_append _ _

theorem onKey_snoc : onKey logical (versions ++ [v]) =
      if v.logicalKey = logical then onKey logical versions ++ [v] else onKey logical versions := by
  rw [onKey, filter_append, ← onKey]
  split_ifs with same <;> simp [same]

theorem onKey_snoc_same :
    onKey v.logicalKey (versions ++ [v]) = onKey v.logicalKey versions ++ [v] := by
  rw [onKey_snoc, if_pos rfl]

theorem onKey_snoc_other
    (different : v.logicalKey ≠ logical) : onKey logical (versions ++ [v]) = onKey logical versions := by
  rw [onKey_snoc, if_neg different]

theorem mem_onKey : v ∈ onKey logical versions ↔ v ∈ versions ∧ v.logicalKey = logical := by
  rw [onKey, mem_filter, decide_eq_true_eq]

theorem lastStored_snoc (seq : UInt64) (versions : List Version) (v : Version) :
    lastStored logical seq (versions ++ [v]) =
      if v.logicalKey = logical ∧ v.seq = seq then some v else lastStored logical seq versions := by
  rw [lastStored, filter_append, List.getLast?_append]
  split_ifs with same
  · have kept : [v].filter (fun v => v.logicalKey = logical ∧ v.seq = seq) = [v] := by simp [same]
    rw [kept]
    rfl
  · have dropped : [v].filter (fun v => v.logicalKey = logical ∧ v.seq = seq) = [] := by
      simpa using same
    rw [dropped]
    rfl

theorem lastStored_eq_some (seq : UInt64) (versions : List Version) (v : Version)
    (last : lastStored logical seq versions = some v) :
    v ∈ versions ∧ v.logicalKey = logical ∧ v.seq = seq := by
  have member := mem_of_getLast? last
  rwa [mem_filter, decide_eq_true_eq] at member

theorem seqsOf_snoc_same :
    seqsOf v.logicalKey (versions ++ [v]) = seqsOf v.logicalKey versions ++ [v.seq] := by
  rw [seqsOf, onKey_snoc_same, map_append]
  rfl

theorem seqsOf_length : (seqsOf logical versions).length = (onKey logical versions).length :=
  length_map _

theorem write_versionCommand (kv : KVServer) (v : Version) : (kv.write (versionCommand v)).storage =
      kv.storage.insert (versionStorageKey v.logicalKey v.seq) (encodeVersionRecord v) :=
  rfl

theorem write_currentCommand (kv : KVServer) (v : Version) : (kv.write (currentCommand v)).storage =
      kv.storage.insert (currentStorageKey v.logicalKey) (encodeCurrentValue (currentValueOf v)) :=
  rfl

namespace Holds

variable {kv : KVServer} {stored pointed : List Version}

theorem empty : Holds KVServer.empty [] [] where
  version _ _ := rfl
  current _ := rfl
  other _ _ present := by simp [KVServer.empty] at present

theorem writeVersion (holds : Holds kv stored pointed) (v : Version) :
    Holds (kv.write (versionCommand v)) (stored ++ [v]) pointed where
  version logical seq := by
    rw [write_versionCommand, lookup_insert, holds.version, lastStored_snoc]
    simp only [versionStorageKey_inj, eq_comm (a := v.logicalKey), eq_comm (a := v.seq)]
    split_ifs <;> rfl
  current logical := by
    have different : currentStorageKey logical ≠ versionStorageKey v.logicalKey v.seq :=
      (versionStorageKey_ne_currentStorageKey _ _ _).symm
    rw [write_versionCommand, lookup_insert_of_ne _ _ _ _ different, holds.current]
  other key raw present := by
    rw [write_versionCommand, lookup_insert] at present
    split_ifs at present with same
    · exact .inl ⟨v.logicalKey, v.seq, same⟩
    · exact holds.other key raw present

theorem writeCurrent (holds : Holds kv stored pointed) (v : Version) :
    Holds (kv.write (currentCommand v)) stored (pointed ++ [v]) where
  version logical seq := by
    have different : versionStorageKey logical seq ≠ currentStorageKey v.logicalKey :=
      versionStorageKey_ne_currentStorageKey _ _ _
    rw [write_currentCommand, lookup_insert_of_ne _ _ _ _ different, holds.version]
  current logical := by
    rw [write_currentCommand, lookup_insert, holds.current, onKey_snoc]
    simp only [currentStorageKey_inj, eq_comm (a := v.logicalKey)]
    split_ifs
    · rw [List.getLast?_concat]
      rfl
    · rfl
  other key raw present := by
    rw [write_currentCommand, lookup_insert] at present
    split_ifs at present with same
    · exact .inr ⟨v.logicalKey, same⟩
    · exact holds.other key raw present

end Holds

theorem decode_currentValueOf (v : Version) :
    decodeCurrentValue (encodeCurrentValue (currentValueOf v)) = some (currentValueOf v) := by
  apply decodeCurrentValue_encodeCurrentValue
  rw [currentValueOf, Version.payloadHash, hashPayload_length]
  decide

namespace TemporalStore

variable {ts : TemporalStore} {stored pointed : List Version}

section

variable (holds : Holds ts.store stored pointed)
include holds

theorem currentPointer_of_pointed (logical : Bytes)
    (v : Version) (last : (onKey logical pointed).getLast? = some v) :
    ts.currentPointer logical = some (currentValueOf v) := by
  have present := holds.current logical
  rw [last] at present
  rw [currentPointer, KVServer.get, present]
  exact decode_currentValueOf v

section

variable (follows : CacheFollows ts.seqCache pointed)
include follows

theorem nextSeq_of_pointed (logical : Bytes) (v : Version)
    (last : (onKey logical pointed).getLast? = some v) : ts.nextSeq logical = v.seq + 1 := by
  rw [nextSeq]
  cases cached : ts.seqCache logical with
  | some seq =>
    obtain ⟨w, lastIs, number⟩ := follows logical seq cached
    rw [last, some.injEq] at lastIs
    rw [lastIs, number]
  | none =>
    rw [currentPointer_of_pointed holds logical v last]
    rfl

/-- Without a pointer the read falls through to the pointer of the pointer key itself, so the first
number is one only when that key was not pointed to as a logical key. -/
theorem nextSeq_of_unpointed (logical : Bytes) (unpointed : onKey logical pointed = [])
    (unnested : onKey (currentStorageKey logical) pointed = []) : ts.nextSeq logical = 1 := by
  have uncached : ts.seqCache logical = none := by
    cases cached : ts.seqCache logical with
    | none => rfl
    | some seq =>
      obtain ⟨v, last, _⟩ := follows logical seq cached
      rw [unpointed] at last
      exact absurd last (by simp)
  have absent : ts.store.storage.lookup (currentStorageKey logical) = none := by
    rw [holds.current, unpointed]
    rfl
  have nested : ts.store.storage.lookup (currentStorageKey (currentStorageKey logical)) = none := by
    rw [holds.current, unnested]
    rfl
  have missing : ts.currentPointer logical = none := by
    rw [currentPointer, KVServer.get, absent]
    rw [KVServer.getViaCurrentPointer, nested]
  rw [nextSeq, uncached, missing]

/-- One more put keeps the numbers of its key consecutive, provided every version of the key stored
so far was also pointed to. -/
theorem numbered_snoc (numbered : Numbered stored) (call : PutCall)
    (settled : onKey call.logical stored = onKey call.logical pointed) :
    Numbered (stored ++ [newVersion call (ts.nextSeq call.logical)]) := by
  intro logical
  by_cases same : call.logical = logical
  · subst same
    have extended : seqsOf call.logical (stored ++ [newVersion call (ts.nextSeq call.logical)]) =
        seqsOf call.logical stored ++ [ts.nextSeq call.logical] :=
      seqsOf_snoc_same stored (newVersion call (ts.nextSeq call.logical))
    rw [extended]
    refine (numbered call.logical).snoc _ _ ?_
    intro last isLast
    rw [seqsOf, List.getLast?_map, map_eq_some_iff] at isLast
    obtain ⟨v, lastVersion, rfl⟩ := isLast
    exact nextSeq_of_pointed holds follows call.logical v (settled ▸ lastVersion)
  · rw [seqsOf, onKey_snoc_other _ _ _ same]
    exact numbered logical

end

end

end TemporalStore

theorem CacheFollows.fresh (pointed : List Version) : CacheFollows (fun _ => none) pointed := by
  intro logical seq cached
  exact absurd cached (by simp)

theorem CacheFollows.snoc (cache : Bytes → Option UInt64) (pointed : List Version) (v : Version)
    (follows : CacheFollows cache pointed) :
    CacheFollows (Function.update cache v.logicalKey (some v.seq)) (pointed ++ [v]) := by
  intro logical seq cached
  by_cases same : v.logicalKey = logical
  · subst same
    rw [Function.update_self, some.injEq] at cached
    exact ⟨v, by rw [onKey_snoc_same, List.getLast?_concat], cached⟩
  · rw [Function.update_of_ne (Ne.symm same)] at cached
    rw [onKey_snoc_other logical pointed v same]
    exact follows logical seq cached

/-- What a run of versioned puts, whole or torn, keeps true of the store and its cache. -/
structure Traced (ts : TemporalStore) (stored pointed : List Version) : Prop where
  holds : Holds ts.store stored pointed
  follows : CacheFollows ts.seqCache pointed
  numbered : Numbered stored

namespace Traced

variable {ts : TemporalStore} {stored pointed : List Version}

theorem fresh : Traced (newTemporalStore KVServer.empty) [] [] where
  holds := Holds.empty
  follows := CacheFollows.fresh []
  numbered _ := Consecutive.nil

section

variable (traced : Traced ts stored pointed)
include traced

theorem restart : Traced (newTemporalStore ts.store) stored pointed where
  __ := traced
  follows := CacheFollows.fresh pointed

theorem storeVersion (call : PutCall)
    (settled : onKey call.logical stored = onKey call.logical pointed) :
    Traced (ts.write (versionCommand (newVersion call (ts.nextSeq call.logical))))
      (stored ++ [newVersion call (ts.nextSeq call.logical)]) pointed where
  holds := traced.holds.writeVersion _
  follows := traced.follows
  numbered := TemporalStore.numbered_snoc traced.holds traced.follows traced.numbered call settled

theorem point (v : Version) :
    Traced ((ts.write (currentCommand v)).cacheSeq v.logicalKey v.seq) stored (pointed ++ [v]) where
  holds := traced.holds.writeCurrent v
  follows := CacheFollows.snoc _ _ v traced.follows
  numbered := traced.numbered

theorem put (call : PutCall) (settled : onKey call.logical stored = onKey call.logical pointed) :
    Traced (ts.putVersioned call true true).1
      (stored ++ [newVersion call (ts.nextSeq call.logical)])
      (pointed ++ [newVersion call (ts.nextSeq call.logical)]) :=
  (traced.storeVersion call settled).point _

end

end Traced

theorem lastStored_of_mem (stored : List Version) (v : Version) (member : v ∈ stored)
    (distinct : (seqsOf v.logicalKey stored).Nodup) :
    lastStored v.logicalKey v.seq stored = some v := by
  cases last : lastStored v.logicalKey v.seq stored with
  | none =>
    rw [lastStored, List.getLast?_eq_none_iff, filter_eq_nil_iff] at last
    exact absurd (last v member) (by simp)
  | some w =>
    obtain ⟨inside, sameKey, sameSeq⟩ := lastStored_eq_some _ _ _ _ last
    have wOnKey := (mem_onKey v.logicalKey stored w).mpr ⟨inside, sameKey⟩
    have vOnKey := (mem_onKey v.logicalKey stored v).mpr ⟨member, rfl⟩
    rw [inj_on_of_nodup_map distinct wOnKey vOnKey sameSeq]

theorem lastStored_snoc_of_distinct (stored : List Version) (v w : Version) (logical : Bytes)
    (seq : UInt64) (distinct : (seqsOf v.logicalKey (stored ++ [v])).Nodup)
    (last : lastStored logical seq stored = some w) :
    lastStored logical seq (stored ++ [v]) = some w := by
  obtain ⟨member, rfl, rfl⟩ := lastStored_eq_some _ _ _ _ last
  by_cases same : v.logicalKey = w.logicalKey
  · exact lastStored_of_mem (stored ++ [v]) w (mem_append_left _ member) (same ▸ distinct)
  · rw [lastStored_snoc, if_neg (fun both => same both.1), last]

/-- The fields whose lengths are stored fit their length fields. -/
def Readable (v : Version) : Prop := v.source.length < 2 ^ 32 ∧ v.persistedHash.length < 2 ^ 16

theorem readable_newVersion (call : PutCall) (seq : UInt64) (fits : call.source.length < 2 ^ 32) :
    Readable (newVersion call seq) := by
  refine ⟨fits, ?_⟩
  rw [newVersion, hashPayload_length]
  decide

theorem Holds.mem_listVersions {ts : TemporalStore} {stored pointed : List Version}
    (holds : Holds ts.store stored pointed) (logical : Bytes)
    (distinct : (seqsOf logical stored).Nodup)
    (readable : ∀ v ∈ onKey logical stored, Readable v) (v : Version) :
    v ∈ ts.listVersions logical ↔ v ∈ onKey logical stored := by
  rw [ts.mem_listVersions, mem_onKey]
  constructor
  · intro listed
    obtain ⟨raw, present, read⟩ := listed
    rw [holds.version, map_eq_some_iff] at present
    obtain ⟨w, last, encoded⟩ := present
    obtain ⟨member, sameKey, sameSeq⟩ := lastStored_eq_some _ _ _ _ last
    obtain ⟨sourceFits, hashFits⟩ := readable w ((mem_onKey logical stored w).mpr ⟨member, sameKey⟩)
    have reread := readVersion_encodeVersionRecord w sourceFits hashFits
    rw [sameKey, sameSeq, encoded, read, some.injEq] at reread
    rw [reread]
    exact ⟨member, sameKey⟩
  · intro member
    obtain ⟨inside, rfl⟩ := member
    obtain ⟨sourceFits, hashFits⟩ := readable v ((mem_onKey _ stored v).mpr ⟨inside, rfl⟩)
    refine ⟨encodeVersionRecord v, ?_, readVersion_encodeVersionRecord v sourceFits hashFits⟩
    rw [holds.version, lastStored_of_mem stored v inside distinct, map_some]

end KairosFlux.Service
