import KairosFlux.Lib.LatestByKey
import KairosFlux.Service.AsOf
import KairosFlux.Service.AuditExact
import KairosFlux.Service.ReadHandlers

/-! What the plane for agents reads and writes (`internal/aiplane/store.go`), over the temporal store of
the process (`engineReadWriter` of `kairosflux.go`). -/

namespace KairosFlux.Aiplane

open Lib Proto Temporal Service List

def nowUnboundedAsOf : Int64 := 9223372036854775807

def engineSource : Bytes := ascii "aiplane".toList

def getAsOf (ts : TemporalStore) (logicalKey : Bytes) (asOfNanos : Int64) : Option Bytes :=
  (ts.getAsOf logicalKey asOfNanos).map Version.payload

/-- All versions of all keys with the prefix, up to the time. -/
def listPrefix (ts : TemporalStore) (keyPrefix : Bytes) (asOfNanos : Int64) : List WriteEnvelopeView :=
  (ts.listWrites ⟨keyPrefix, 0, asOfNanos, []⟩).entries.map WriteEnvelope.view

def engineCall (logicalKey payload : Bytes) (nanos : Int64) : PutCall :=
  ⟨logicalKey, payload, nanos, engineSource, 0⟩

def writeAsEngine (ts : TemporalStore) (logicalKey payload : Bytes) (nanos : Int64) : TemporalStore :=
  ts.put (engineCall logicalKey payload nanos)

def writeIfChanged (ts : TemporalStore) (logicalKey payload : Bytes) (nanos : Int64) : TemporalStore :=
  if getAsOf ts logicalKey nowUnboundedAsOf = some payload then ts
  else writeAsEngine ts logicalKey payload nanos

def latestPerLogicalKey (entries : List WriteEnvelopeView) : List WriteEnvelopeView :=
  latestByKey WriteEnvelopeView.logicalKey WriteEnvelopeView.seq entries

/-- A bound in time that leaves nothing out. -/
def Unbounded (asOfNanos : Int64) : Prop := asOfNanos ≤ 0 ∨ asOfNanos = nowUnboundedAsOf
deriving Decidable

theorem le_nowUnboundedAsOf (nanos : Int64) : nanos ≤ nowUnboundedAsOf := by
  rw [Int64.le_iff_toInt_le]
  exact nanos.toInt_le

theorem accepts_iff (keyPrefix : Bytes) (asOfNanos : Int64) (v : Version) :
    (AuditQuery.mk keyPrefix 0 asOfNanos []).accepts v = true ↔
      (0 < asOfNanos → v.writeNanos ≤ asOfNanos) := by
  simp only [AuditQuery.accepts, decide_eq_true_eq, ne_eq, not_true_eq_false, false_and, not_false_eq_true,
    and_true, not_and, Int64.not_lt]
  constructor
  · intro accepted
    exact accepted.2
  · intro inTime
    exact ⟨fun impossible => absurd impossible (by decide), inTime⟩

theorem accepts_of_unbounded {asOfNanos : Int64} (unbounded : Unbounded asOfNanos) (keyPrefix : Bytes)
    (v : Version) : (AuditQuery.mk keyPrefix 0 asOfNanos []).accepts v = true := by
  rw [accepts_iff]
  intro positive
  rcases unbounded with closed | rfl
  · exact absurd positive (Int64.not_lt.mpr closed)
  · exact le_nowUnboundedAsOf v.writeNanos

/-- The order of a listing: by key, and by number for each key. -/
def ListedBefore (left right : WriteEnvelopeView) : Prop :=
  toLex (left.logicalKey, left.seq) < toLex (right.logicalKey, right.seq)

instance : Std.Irrefl ListedBefore := ⟨fun _ => lt_irrefl _⟩

instance : Std.Antisymm ListedBefore := ⟨fun _ _ before after => absurd after (lt_asymm before)⟩

theorem listPrefix_sorted (ts : TemporalStore) (keyPrefix : Bytes) (asOfNanos : Int64) :
    (listPrefix ts keyPrefix asOfNanos).Pairwise ListedBefore :=
  pairwise_map.mpr (listWrites_sorted ts _)

section

variable {calls : List PutCall} (fits : ∀ call ∈ calls, call.source.length < 2 ^ 32)
  (few : calls.length < 2 ^ 64)

include few in
theorem countOn_lt (logical : Bytes) : countOn logical calls < 2 ^ 64 :=
  lt_of_le_of_lt countP_le_length few

include fits few

theorem mem_listPrefix (keyPrefix : Bytes) (asOfNanos : Int64) (entry : WriteEnvelopeView) :
    entry ∈ listPrefix (storeAfter calls) keyPrefix asOfNanos ↔
      ∃ v ∈ recordsOf calls, Scanned keyPrefix v ∧ (0 < asOfNanos → v.writeNanos ≤ asOfNanos) ∧
        (writeOf v).view = entry := by
  have hits := @mem_scanHits calls ⟨keyPrefix, 0, asOfNanos, []⟩ fits
    fun logical => (countOn_lt few logical).le
  rw [listPrefix, mem_map]
  constructor
  · intro listed
    rcases listed with ⟨write, member, rfl⟩
    rw [TemporalStore.listWrites, sortWrites, mem_insertionSort, hits] at member
    rcases member with ⟨v, recorded, scanned, accepted, rfl⟩
    exact ⟨v, recorded, scanned, (accepts_iff _ _ _).mp accepted, rfl⟩
  · intro listed
    rcases listed with ⟨v, recorded, scanned, inTime, rfl⟩
    refine ⟨writeOf v, ?_, rfl⟩
    rw [TemporalStore.listWrites, sortWrites, mem_insertionSort, hits]
    exact ⟨v, recorded, scanned, (accepts_iff _ _ _).mpr inTime, rfl⟩

theorem mem_listPrefix_unbounded (keyPrefix : Bytes) {asOfNanos : Int64}
    (unbounded : Unbounded asOfNanos) (entry : WriteEnvelopeView) :
    entry ∈ listPrefix (storeAfter calls) keyPrefix asOfNanos ↔
      ∃ v ∈ recordsOf calls, Scanned keyPrefix v ∧ (writeOf v).view = entry := by
  rw [mem_listPrefix fits few]
  constructor
  · intro listed
    rcases listed with ⟨v, recorded, scanned, _, same⟩
    exact ⟨v, recorded, scanned, same⟩
  · intro listed
    rcases listed with ⟨v, recorded, scanned, same⟩
    exact ⟨v, recorded, scanned,
      (accepts_iff keyPrefix asOfNanos v).mp (accepts_of_unbounded unbounded keyPrefix v), same⟩

theorem mem_latest_listPrefix (keyPrefix : Bytes) {asOfNanos : Int64}
    (unbounded : Unbounded asOfNanos) (entry : WriteEnvelopeView) :
    entry ∈ latestPerLogicalKey (listPrefix (storeAfter calls) keyPrefix asOfNanos) ↔
      ∃ v ∈ recordsOf calls, Scanned keyPrefix v ∧ (writeOf v).view = entry ∧
        ∀ w ∈ onKey v.logicalKey (recordsOf calls), Scanned keyPrefix w → w.seq ≤ v.seq := by
  have listed := mem_listPrefix_unbounded fits few keyPrefix unbounded
  have apart : ∀ left ∈ listPrefix (storeAfter calls) keyPrefix asOfNanos,
      ∀ right ∈ listPrefix (storeAfter calls) keyPrefix asOfNanos,
      left.logicalKey = right.logicalKey → left.seq = right.seq → left = right := by
    intro left leftIn right rightIn sameKey sameSeq
    rcases (listed left).mp leftIn with ⟨v, vIn, _, rfl⟩
    rcases (listed right).mp rightIn with ⟨w, wIn, _, rfl⟩
    have distinct := recordsOf_distinct calls v.logicalKey (countOn_lt few _).le
    have same : v = w := inj_on_of_nodup_map distinct ((mem_onKey _ _ _).mpr ⟨vIn, rfl⟩)
      ((mem_onKey _ _ _).mpr ⟨wIn, sameKey.symm⟩) sameSeq
    rw [same]
  rw [latestPerLogicalKey, mem_latestByKey _ _ apart, IsLatest, listed]
  constructor
  · intro latest
    rcases latest with ⟨⟨v, recorded, scanned, rfl⟩, largest⟩
    refine ⟨v, recorded, scanned, rfl, ?_⟩
    intro w member wScanned
    rcases (mem_onKey _ _ _).mp member with ⟨wRecorded, sameKey⟩
    exact largest (writeOf w).view ((listed _).mpr ⟨w, wRecorded, wScanned, rfl⟩) sameKey
  · intro latest
    rcases latest with ⟨v, recorded, scanned, rfl, largest⟩
    refine ⟨⟨v, recorded, scanned, rfl⟩, ?_⟩
    intro other member sameKey
    rcases (listed other).mp member with ⟨w, wRecorded, wScanned, rfl⟩
    exact largest w ((mem_onKey _ _ _).mpr ⟨wRecorded, sameKey⟩) wScanned

theorem getAsOf_unbounded (logicalKey : Bytes) :
    (getAsOf (storeAfter calls) logicalKey nowUnboundedAsOf = none ↔
        onKey logicalKey (recordsOf calls) = []) ∧
      ∀ payload, getAsOf (storeAfter calls) logicalKey nowUnboundedAsOf = some payload →
        ∃ v ∈ onKey logicalKey (recordsOf calls), v.payload = payload ∧
          ∀ w ∈ onKey logicalKey (recordsOf calls), w.seq ≤ v.seq := by
  have fitsKey : ∀ call ∈ calls, call.logical = logicalKey → call.source.length < 2 ^ 32 :=
    fun call member _ => fits call member
  constructor
  · rw [getAsOf, Option.map_eq_none_iff,
      getAsOf_eq_none_iff calls logicalKey nowUnboundedAsOf fitsKey (countOn_lt few _).le,
      eq_nil_iff_forall_not_mem]
    constructor
    · intro invisible v member
      exact invisible v member (le_nowUnboundedAsOf v.writeNanos)
    · intro none v member
      exact absurd member (none v)
  · intro payload found
    rw [getAsOf, Option.map_eq_some_iff] at found
    rcases found with ⟨v, answer, rfl⟩
    rw [getAsOf_eq_some_iff calls logicalKey nowUnboundedAsOf fitsKey (countOn_lt few _).le] at answer
    refine ⟨v, answer.1, rfl, ?_⟩
    intro w member
    exact answer.2.2 w member (le_nowUnboundedAsOf w.writeNanos)

end

end KairosFlux.Aiplane
