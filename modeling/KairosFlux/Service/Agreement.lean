import KairosFlux.Service.LogicalKeys
import KairosFlux.Service.Standalone

/-! Two stores that agree on what belongs to some logical keys answer alike about these keys and keep
doing so: the storage keys of different logical keys are different. Looking up a pointer key goes
through `Get`, which may follow the pointer of that key in turn, so the logical keys have to be closed
under taking the pointer key. -/

namespace KairosFlux.Service

open Lib Temporal Function

variable (ts : TemporalStore) (call : PutCall)

theorem lookup_put (key : Bytes) : (ts.put call).store.storage.lookup key =
      if key = currentStorageKey call.logical then
        some (encodeCurrentValue (currentValueOf (newVersion call (ts.nextSeq call.logical))))
      else if key = versionStorageKey call.logical (ts.nextSeq call.logical) then
        some (encodeVersionRecord (newVersion call (ts.nextSeq call.logical)))
      else ts.store.storage.lookup key := by
  have stored : (ts.put call).store.storage =
      (ts.store.storage.insert (versionStorageKey call.logical (ts.nextSeq call.logical))
        (encodeVersionRecord (newVersion call (ts.nextSeq call.logical)))).insert
          (currentStorageKey call.logical)
          (encodeCurrentValue (currentValueOf (newVersion call (ts.nextSeq call.logical)))) := rfl
  rw [stored, SortedMap.lookup_insert, SortedMap.lookup_insert]
  split_ifs <;> rfl

theorem lookup_put_version (logical : Bytes) (seq : UInt64) (other : logical ≠ call.logical) :
    (ts.put call).store.storage.lookup (versionStorageKey logical seq) =
      ts.store.storage.lookup (versionStorageKey logical seq) := by
  rw [lookup_put, if_neg (versionStorageKey_ne_currentStorageKey _ _ _),
    if_neg fun same => other ((versionStorageKey_inj _ _ _ _).mp same).1]

theorem seqCache_put : (ts.put call).seqCache =
      update ts.seqCache call.logical (some (ts.nextSeq call.logical)) := rfl

/-- The stores agree on all that belongs to these logical keys. -/
structure Agree (safe : Bytes → Prop) (ts other : TemporalStore) : Prop where
  cache : ∀ logical, safe logical → ts.seqCache logical = other.seqCache logical
  current : ∀ logical, safe logical → ts.store.storage.lookup (currentStorageKey logical) =
    other.store.storage.lookup (currentStorageKey logical)
  version : ∀ logical seq, safe logical →
    ts.store.storage.lookup (versionStorageKey logical seq) =
      other.store.storage.lookup (versionStorageKey logical seq)

theorem listVersions_congr {ts other : TemporalStore} {logical : Bytes}
    (same : ∀ seq, ts.store.storage.lookup (versionStorageKey logical seq) =
      other.store.storage.lookup (versionStorageKey logical seq)) :
    ts.listVersions logical = other.listVersions logical := by
  apply eq_of_sorted_of_mem_iff
  · exact ts.listVersions_sorted logical
  · exact other.listVersions_sorted logical
  · intro v
    rw [TemporalStore.mem_listVersions, TemporalStore.mem_listVersions, same]

namespace Agree

variable {safe : Bytes → Prop} {ts other : TemporalStore}

theorem refl (safe : Bytes → Prop) (ts : TemporalStore) : Agree safe ts ts :=
  ⟨fun _ _ => rfl, fun _ _ => rfl, fun _ _ _ => rfl⟩

theorem symm (agree : Agree safe ts other) : Agree safe other ts where
  cache logical inside := (agree.cache logical inside).symm
  current logical inside := (agree.current logical inside).symm
  version logical seq inside := (agree.version logical seq inside).symm

variable {logical : Bytes}

theorem listVersions (agree : Agree safe ts other) (inside : safe logical) :
    ts.listVersions logical = other.listVersions logical :=
  listVersions_congr fun seq => agree.version logical seq inside

theorem getAsOf (agree : Agree safe ts other) (inside : safe logical)
    (asOfNanos : Int64) : ts.getAsOf logical asOfNanos = other.getAsOf logical asOfNanos := by
  rw [TemporalStore.getAsOf, TemporalStore.getAsOf, agree.listVersions inside]

theorem getViaCurrentPointer (agree : Agree safe ts other) (inside : safe logical) :
    ts.store.getViaCurrentPointer logical = other.store.getViaCurrentPointer logical := by
  rw [KVServer.getViaCurrentPointer, KVServer.getViaCurrentPointer, agree.current logical inside]
  split
  · rfl
  · split
    · rfl
    · rw [agree.version logical _ inside]

section Closed

variable (closed : ∀ logical, safe logical → safe (currentStorageKey logical))

include closed

theorem nextSeq (agree : Agree safe ts other) {logical : Bytes} (inside : safe logical) :
    ts.nextSeq logical = other.nextSeq logical := by
  have found : ts.store.get (currentStorageKey logical) =
      other.store.get (currentStorageKey logical) := by
    rw [KVServer.get, KVServer.get, agree.current logical inside,
      agree.getViaCurrentPointer (closed logical inside)]
  have pointer : ts.currentPointer logical = other.currentPointer logical := by
    rw [TemporalStore.currentPointer, TemporalStore.currentPointer, found]
  rw [TemporalStore.nextSeq, TemporalStore.nextSeq, agree.cache logical inside, pointer]

theorem put (agree : Agree safe ts other) {call : PutCall} (inside : safe call.logical) :
    Agree safe (ts.put call) (other.put call) := by
  have seq := agree.nextSeq closed inside
  refine ⟨?_, ?_, ?_⟩
  · intro logical within
    rw [seqCache_put, seqCache_put, seq]
    by_cases same : logical = call.logical
    · rw [same, update_self, update_self]
    · rw [update_of_ne same, update_of_ne same, agree.cache logical within]
  · intro logical within
    rw [lookup_put, lookup_put, seq, agree.current logical within]
  · intro logical number within
    rw [lookup_put, lookup_put, seq, agree.version logical number within]

end Closed

theorem put_left (agree : Agree safe ts other) {call : PutCall} (outside : ¬ safe call.logical) :
    Agree safe (ts.put call) other := by
  have different : ∀ logical, safe logical → logical ≠ call.logical := by
    intro logical within same
    exact outside (same ▸ within)
  refine ⟨?_, ?_, ?_⟩
  · intro logical within
    rw [seqCache_put, update_of_ne (different logical within), agree.cache logical within]
  · intro logical within
    rw [lookup_put, if_neg (mt (currentStorageKey_inj _ _).mp (different logical within)),
      if_neg (versionStorageKey_ne_currentStorageKey _ _ _).symm, agree.current logical within]
  · intro logical number within
    rw [lookup_put_version _ _ _ _ (different logical within), agree.version logical number within]

theorem write_left (agree : Agree safe ts other) (cmd : Command)
    (current : ∀ logical, safe logical → currentStorageKey logical ≠ cmd.key)
    (version : ∀ logical seq, safe logical → versionStorageKey logical seq ≠ cmd.key) :
    Agree safe (ts.write cmd) other := by
  refine ⟨agree.cache, ?_, ?_⟩
  · intro logical within
    rw [← agree.current logical within]
    exact ts.store.lookup_write_of_ne cmd _ (current logical within)
  · intro logical seq within
    rw [← agree.version logical seq within]
    exact ts.store.lookup_write_of_ne cmd _ (version logical seq within)

end Agree

end KairosFlux.Service
