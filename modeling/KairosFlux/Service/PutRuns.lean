import KairosFlux.Lib.Runs
import KairosFlux.Service.Ledger

/-! Runs of versioned puts in which every write succeeds (`service/temporal_store.go`). -/

namespace KairosFlux.Service

open Lib Temporal List

def TemporalStore.put (ts : TemporalStore) (call : PutCall) : TemporalStore :=
  (ts.putVersioned call true true).1

def outcomes : TemporalStore → List PutCall → List (PutCall × Option UInt64)
  | _, [] => []
  | ts, call :: rest => (call, (ts.putVersioned call true true).2) :: outcomes (ts.put call) rest

def written (ts : TemporalStore) (calls : List PutCall) : List Version :=
  (outcomes ts calls).filterMap fun outcome => outcome.2.map (newVersion outcome.1)

def countOn (logical : Bytes) (calls : List PutCall) : Nat :=
  calls.countP fun call => call.logical = logical

/-- The store after a run of puts from nothing, and what the run wrote. -/
def storeAfter (calls : List PutCall) : TemporalStore :=
  run TemporalStore.put (newTemporalStore KVServer.empty) calls

def recordsOf (calls : List PutCall) : List Version :=
  written (newTemporalStore KVServer.empty) calls

variable (ts : TemporalStore) (calls : List PutCall) (call : PutCall) (logical : Bytes)

theorem written_cons (rest : List PutCall) : written ts (call :: rest) =
      newVersion call (ts.nextSeq call.logical) :: written (ts.put call) rest :=
  rfl

theorem written_append (first second : List PutCall) : written ts (first ++ second) =
      written ts first ++ written (run TemporalStore.put ts first) second := by
  induction first generalizing ts with
  | nil => rfl
  | cons call rest ih =>
    rw [cons_append, written_cons, written_cons, ih, cons_append, run_cons]

theorem recordsOf_snoc : recordsOf (calls ++ [call]) =
      recordsOf calls ++ [newVersion call ((storeAfter calls).nextSeq call.logical)] := by
  rw [recordsOf, written_append]
  rfl

theorem storeAfter_snoc : storeAfter (calls ++ [call]) = (storeAfter calls).put call := by
  rw [storeAfter, run_append]
  rfl

-- By induction on the calls from the right: the last put extends both histories by one version.
theorem traced_storeAfter : Traced (storeAfter calls) (recordsOf calls) (recordsOf calls) := by
  induction calls using List.reverseRecOn with
  | nil => exact Traced.fresh
  | append_singleton calls call ih =>
    rw [storeAfter_snoc, recordsOf_snoc]
    exact ih.put call rfl

theorem mem_written (v : Version)
    (member : v ∈ written ts calls) : ∃ call ∈ calls, v = newVersion call v.seq := by
  induction calls generalizing ts with
  | nil => cases member
  | cons call rest ih =>
    rcases mem_cons.mp member with rfl | member
    · exact ⟨call, .head _, rfl⟩
    · obtain ⟨other, inside, shape⟩ := ih (ts.put call) member
      exact ⟨other, .tail _ inside, shape⟩

theorem onKey_written_length :
    (onKey logical (written ts calls)).length = countOn logical calls := by
  induction calls generalizing ts with
  | nil => rfl
  | cons call rest ih =>
    have tail := ih (ts.put call)
    rw [onKey] at tail
    rw [written_cons, countOn, countP_cons, onKey, filter_cons]
    by_cases same : call.logical = logical
    · simp [newVersion, same, tail, countOn]
    · simp [newVersion, same, tail, countOn]

theorem recordsOf_readable
    (fits : ∀ call ∈ calls, call.logical = logical → call.source.length < 2 ^ 32) :
    ∀ v ∈ onKey logical (recordsOf calls), Readable v := by
  intro v member
  obtain ⟨inside, rfl⟩ := (mem_onKey _ _ _).mp member
  obtain ⟨call, called, shape⟩ := mem_written _ calls v inside
  have key : call.logical = v.logicalKey := by rw [shape]; rfl
  rw [shape]
  exact readable_newVersion call v.seq (fits call called key)

theorem recordsOf_distinct
    (bounded : countOn logical calls ≤ 2 ^ 64) : (seqsOf logical (recordsOf calls)).Nodup := by
  refine ((traced_storeAfter calls).numbered logical).nodup _ ?_
  rw [seqsOf_length, recordsOf, onKey_written_length]
  exact bounded

theorem mem_listVersions_storeAfter
    (fits : ∀ call ∈ calls, call.logical = logical → call.source.length < 2 ^ 32)
    (bounded : countOn logical calls ≤ 2 ^ 64) (v : Version) :
    v ∈ (storeAfter calls).listVersions logical ↔ v ∈ onKey logical (recordsOf calls) :=
  (traced_storeAfter calls).holds.mem_listVersions logical
    (recordsOf_distinct calls logical bounded) (recordsOf_readable calls logical fits) v

end KairosFlux.Service
