import KairosFlux.Lib.SortedMap
import KairosFlux.Temporal.Keys
import KairosFlux.Temporal.Record

/-! The key-value server as its callers see it (`service/fsm.go`).

`storage` is the live content of the storage engine: a value for every key that is present. -/

namespace KairosFlux.Service

open Lib Temporal

inductive CommandType where
  | put
  | delete
  deriving DecidableEq

/-- The value of a put; `none` is the nil slice, which the engine keeps as a tombstone. -/
structure Command where
  type : CommandType
  key : Bytes
  value : Option Bytes
  deriving DecidableEq

structure KVServer where
  storage : SortedMap Bytes Bytes

namespace KVServer

def empty : KVServer := ⟨SortedMap.empty⟩

def write (kv : KVServer) (cmd : Command) : KVServer :=
  match cmd.type, cmd.value with
  | .put, some value => ⟨kv.storage.insert cmd.key value⟩
  | .put, none => ⟨kv.storage.erase cmd.key⟩
  | .delete, _ => ⟨kv.storage.erase cmd.key⟩

def getViaCurrentPointer (kv : KVServer) (key : Bytes) : Option Bytes :=
  match kv.storage.lookup (currentStorageKey key) with
  | none => none
  | some curRaw =>
    match decodeCurrentValue curRaw with
    | none => none
    | some cur =>
      match kv.storage.lookup (versionStorageKey key cur.seq) with
      | none => none
      | some verRaw =>
        match decodeVersionRecord verRaw with
        | none => none
        | some rec => some rec.payload

/-- `none` stands for `storage.ErrKeyNotFound`. -/
def get (kv : KVServer) (key : Bytes) : Option Bytes :=
  match kv.storage.lookup key with
  | some value => some value
  | none => kv.getViaCurrentPointer key

-- Both ends are inclusive and an empty end leaves the range open.
def scanRaw (kv : KVServer) (start stop : Bytes) : List (Bytes × Bytes) :=
  kv.storage.entries.filter fun entry =>
    start ≤ entry.1 ∧ (stop = [] ∨ entry.1 ≤ stop)

variable (kv : KVServer)

theorem mem_scanRaw (start stop key value : Bytes) : (key, value) ∈ kv.scanRaw start stop ↔
      kv.storage.lookup key = some value ∧ start ≤ key ∧ (stop = [] ∨ key ≤ stop) := by
  rw [scanRaw, List.mem_filter, SortedMap.mem_entries_iff, decide_eq_true_eq]

theorem scanRaw_sorted (start stop : Bytes) : (kv.scanRaw start stop).Pairwise KeyLt :=
  kv.storage.sorted.filter _

end KVServer

end KairosFlux.Service
