import KairosFlux.Lib.Paging
import KairosFlux.Service.PutRuns
import KairosFlux.Temporal.Fingerprint

/-! The audit listing of writes and its paged form (`ListWrites` and `ListWritesPage` of
`service/temporal_store.go`).

Both scan the version keys in the byte order of the storage keys. The cursor of the paged form is
compared in the order of logical key and number. -/

namespace KairosFlux.Service

open Lib Temporal List

structure WriteEnvelope where
  logicalKey : Bytes
  seq : UInt64
  writeNanos : Int64
  source : Bytes
  schemaVer : UInt32
  persistedHash : Bytes
  payload : Bytes
  hashOK : Bool
  deriving DecidableEq

structure SourceCount where
  source : Bytes
  count : UInt32
  deriving DecidableEq

structure ListWritesResult where
  entries : List WriteEnvelope
  bySource : List SourceCount
  deriving DecidableEq

structure ListWritesCursor where
  logicalKey : Bytes
  seq : UInt64
  deriving DecidableEq

/-- A bound that is not positive leaves its side of the time window open, and an empty source
matches every source. -/
structure AuditQuery where
  keyPrefix : Bytes
  tFromNanos : Int64
  tToNanos : Int64
  sourceFilter : Bytes

def AuditQuery.accepts (query : AuditQuery) (rec : Version) : Bool :=
  ¬ (0 < query.tFromNanos ∧ rec.writeNanos < query.tFromNanos) ∧
    ¬ (0 < query.tToNanos ∧ query.tToNanos < rec.writeNanos) ∧
    ¬ (query.sourceFilter ≠ [] ∧ rec.source ≠ query.sourceFilter)

def envelopeOf (logical : Bytes) (seq : UInt64) (rec : Version) : WriteEnvelope where
  logicalKey := logical
  seq := seq
  writeNanos := rec.writeNanos
  source := rec.source
  schemaVer := rec.schemaVer
  persistedHash := rec.persistedHash
  payload := rec.payload
  hashOK := rec.persistedHash = [] ∨ rec.persistedHash = hashPayload rec.payload

/-- The part of the scan loop the two listings share: everything up to the cursor test. -/
def hitOf (query : AuditQuery) (entry : Bytes × Bytes) : Option WriteEnvelope :=
  if isCurrentStorageKey entry.1 then none
  else
    match parseVersionStorageKey entry.1 with
    | none => none
    | some (logical, seq) =>
      match decodeVersionRecord entry.2 with
      | none => none
      | some rec => if query.accepts rec then some (envelopeOf logical seq rec) else none

def WriteEnvelope.cursor (entry : WriteEnvelope) : ListWritesCursor := ⟨entry.logicalKey, entry.seq⟩

def ListWritesCursor.place (cursor : ListWritesCursor) : Bytes × UInt64 :=
  (cursor.logicalKey, cursor.seq)

def sortWrites (entries : List WriteEnvelope) : List WriteEnvelope :=
  entries.insertionSort fun left right => keySeqLe left.cursor.place right.cursor.place

def countSources (entries : List WriteEnvelope) : List SourceCount :=
  let names := ((entries.map WriteEnvelope.source).dedup).insertionSort fun left right => left ≤ right
  names.map fun name => ⟨name, UInt32.ofNat (entries.countP fun entry => entry.source = name)⟩

def beforeCursor (after : Option ListWritesCursor) (entry : WriteEnvelope) : Bool :=
  match after with
  | none => false
  | some cursor => keySeqLe entry.cursor.place cursor.place

/-- The rest of the scan loop of the paged form; a full page stops at the next hit. -/
def pageLoop (after : Option ListWritesCursor) (limit : UInt32) (acc : List WriteEnvelope) :
    List WriteEnvelope → List WriteEnvelope × Bool
  | [] => (acc, false)
  | entry :: rest =>
    if beforeCursor after entry then pageLoop after limit acc rest
    else if 0 < limit ∧ limit ≤ UInt32.ofNat acc.length then (acc, true)
    else pageLoop after limit (acc ++ [entry]) rest

namespace TemporalStore

def scanHits (ts : TemporalStore) (query : AuditQuery) : List WriteEnvelope :=
  (ts.store.scanRaw query.keyPrefix (query.keyPrefix ++ [255])).filterMap (hitOf query)

def listWrites (ts : TemporalStore) (query : AuditQuery) : ListWritesResult where
  entries := sortWrites (ts.scanHits query)
  bySource := countSources (ts.scanHits query)

def listWritesPage (ts : TemporalStore) (query : AuditQuery) (after : Option ListWritesCursor)
    (limit : UInt32) : ListWritesResult × Bool :=
  let (entries, hasMore) := pageLoop after limit [] (ts.scanHits query)
  (⟨sortWrites entries, countSources entries⟩, hasMore)

/-- A client that reads all pages: it starts without a cursor and goes on from the last entry of
each page while the store reports more. -/
def allPages (ts : TemporalStore) (query : AuditQuery) (limit : UInt32) (fuel : Nat) :
    Option (List WriteEnvelope) :=
  drain (fun after => ((ts.listWritesPage query after limit).1.entries,
    (ts.listWritesPage query after limit).2)) WriteEnvelope.cursor fuel none

end TemporalStore

def cursorPosition (cursor : ListWritesCursor) : Lex (Bytes × UInt64) := toLex cursor.place

theorem not_beforeCursor (after : Option ListWritesCursor) (entry : WriteEnvelope) :
    (!beforeCursor after entry) = beyond cursorPosition WriteEnvelope.cursor after entry := by
  cases after with
  | none => rfl
  | some cursor =>
    rw [beforeCursor, beyond, ← decide_not]
    apply decide_eq_decide.mpr
    rw [keySeqLe_iff, not_le]
    rfl

-- The accumulator never passes the limit, so the 32-bit length never wraps.
theorem pageLoop_eq (after : Option ListWritesCursor) (limit : UInt32) (positive : 0 < limit)
    (acc hits : List WriteEnvelope) (room : acc.length ≤ limit.toNat) :
    pageLoop after limit acc hits =
      (acc ++ (hits.filter (beyond cursorPosition WriteEnvelope.cursor after)).take
          (limit.toNat - acc.length),
        decide (limit.toNat < acc.length +
          (hits.filter (beyond cursorPosition WriteEnvelope.cursor after)).length)) := by
  induction hits generalizing acc with
  | nil =>
    simpa [pageLoop] using room
  | cons entry rest ih =>
    rw [pageLoop, filter_cons, ← not_beforeCursor]
    cases past : beforeCursor after entry with
    | true =>
      exact ih acc room
    | false =>
      simp only [Bool.false_eq_true, if_false, Bool.not_false, if_true, length_cons]
      have small : acc.length < 2 ^ 32 := lt_of_le_of_lt room limit.toNat_lt
      have full : (0 < limit ∧ limit ≤ UInt32.ofNat acc.length) ↔ limit.toNat ≤ acc.length := by
        rw [UInt32.le_iff_toNat_le, UInt32.toNat_ofNat', Nat.mod_eq_of_lt small]
        exact and_iff_right positive
      by_cases filled : limit.toNat ≤ acc.length
      · rw [if_pos (full.mpr filled), Nat.sub_eq_zero_of_le filled, take_zero,
          append_nil, decide_eq_true (by omega)]
      · rw [if_neg (fun both => filled (full.mp both)), ih _ (by simp; omega)]
        obtain ⟨left, split⟩ : ∃ left, limit.toNat - acc.length = left + 1 :=
          ⟨limit.toNat - acc.length - 1, by omega⟩
        rw [split, take_succ_cons, length_append, length_singleton,
          show limit.toNat - (acc.length + 1) = left by omega, append_assoc]
        simp only [singleton_append, Prod.mk.injEq, true_and]
        apply decide_eq_decide.mpr
        omega

theorem sortWrites_sorted (entries : List WriteEnvelope) :
    (sortWrites entries).Pairwise fun left right =>
      cursorPosition left.cursor ≤ cursorPosition right.cursor := by
  have sorted := pairwise_insertionSort (fun left right : WriteEnvelope =>
    keySeqLe left.cursor.place right.cursor.place) entries
  exact sorted.imp fun less => (keySeqLe_iff _ _).mp less

theorem listWritesPage_eq (ts : TemporalStore) (query : AuditQuery) (limit : UInt32)
    (positive : 0 < limit) (after : Option ListWritesCursor) :
    (ts.listWritesPage query after limit).1.entries = sortWrites (((ts.scanHits query).filter
          (beyond cursorPosition WriteEnvelope.cursor after)).take limit.toNat) ∧
      (ts.listWritesPage query after limit).2 = decide (limit.toNat <
        ((ts.scanHits query).filter (beyond cursorPosition WriteEnvelope.cursor after)).length) := by
  have loop := pageLoop_eq after limit positive [] (ts.scanHits query) (Nat.zero_le _)
  rw [nil_append, length_nil, Nat.sub_zero] at loop
  simp only [Nat.zero_add] at loop
  rw [TemporalStore.listWritesPage, loop]
  exact ⟨rfl, rfl⟩

theorem pages_listWritesPage (ts : TemporalStore) (query : AuditQuery) (limit : UInt32)
    (positive : 0 < limit) :
    Pages (fun after => ((ts.listWritesPage query after limit).1.entries,
      (ts.listWritesPage query after limit).2)) cursorPosition WriteEnvelope.cursor limit.toNat
      (ts.scanHits query) where
  perm after := by
    rw [(listWritesPage_eq ts query limit positive after).1]
    exact perm_insertionSort _ _
  sorted after := by
    exact sortWrites_sorted _
  more after := (listWritesPage_eq ts query limit positive after).2

/-- Reading all pages always ends, and it gives exactly the entries of the whole listing when, and
only when, the byte order of the storage keys and the order of logical key and number agree across
every page boundary. -/
theorem paging_exact (ts : TemporalStore) (query : AuditQuery) (limit : UInt32)
    (positive : 0 < limit) :
    ∃ all, (∀ fuel, (ts.scanHits query).length < fuel → ts.allPages query limit fuel = some all) ∧
      (all.Perm (ts.listWrites query).entries ↔
        BlocksOrdered (fun entry => cursorPosition entry.cursor) limit.toNat
          (ts.scanHits query)) := by
  have nonzero : 0 < limit.toNat := positive
  obtain ⟨all, drained, complete⟩ := drain_complete_iff (pages_listWritesPage ts query limit positive)
    nonzero
  refine ⟨all, drained, ?_⟩
  rw [← complete]
  have whole : (ts.listWrites query).entries.Perm (ts.scanHits query) :=
    perm_insertionSort _ _
  exact ⟨fun same => same.trans whole, fun same => same.trans whole.symm⟩

theorem paging_exact_two_keys :
    let ts := storeAfter [⟨ascii ['a'], ascii ['p'], 1, [], 0⟩, ⟨ascii ['b'], ascii ['q'], 2, [], 0⟩]
    ∃ all, ts.allPages ⟨[], 0, 0, []⟩ 1 3 = some all ∧ all.length = 2 := by
  intro ts
  obtain ⟨all, drained, _⟩ := paging_exact ts ⟨[], 0, 0, []⟩ 1 (by decide)
  have length : (ts.scanHits ⟨[], 0, 0, []⟩).length < 3 := by decide +kernel
  have result := drained 3 length
  refine ⟨all, result, ?_⟩
  have direct : (ts.allPages ⟨[], 0, 0, []⟩ 1 3).map List.length = some 2 := by decide +kernel
  rw [result] at direct
  exact Option.some.inj direct

/-- The storage key of `a!` sorts before that of `a`, so a page that ends on `a!` moves the cursor
past `a`, which no page has returned. -/
theorem page_skips_shorter_key : let ts := storeAfter [⟨ascii ['a'], ascii ['p'], 1, [], 0⟩,
      ⟨ascii ['a', '!'], ascii ['q'], 2, [], 0⟩]
    (ts.allPages ⟨[], 0, 0, []⟩ 1 3).map (List.map WriteEnvelope.logicalKey) =
        some [ascii ['a', '!']] ∧
      (ts.listWrites ⟨[], 0, 0, []⟩).entries.map WriteEnvelope.logicalKey =
        [ascii ['a'], ascii ['a', '!']] := by
  decide +kernel

end KairosFlux.Service
