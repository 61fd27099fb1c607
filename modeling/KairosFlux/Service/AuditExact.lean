import KairosFlux.Service.Audit
import KairosFlux.Service.Replay

/-! What the audit listing says about a run of puts (`ListWrites` of `service/temporal_store.go`).

The writes are found by their version keys between the prefix and the prefix followed by the byte
0xFF, so a prefix selects storage keys and not logical keys. -/

namespace KairosFlux.Service

open Lib Temporal List

def Scanned (keyPrefix : Bytes) (v : Version) : Prop :=
  keyPrefix ≤ versionStorageKey v.logicalKey v.seq ∧
    versionStorageKey v.logicalKey v.seq ≤ keyPrefix ++ [255]
deriving Decidable

def writeOf (v : Version) : WriteEnvelope where
  logicalKey := v.logicalKey
  seq := v.seq
  writeNanos := v.writeNanos
  source := v.source
  schemaVer := v.schemaVer
  persistedHash := v.persistedHash
  payload := v.payload
  hashOK := true

def askedRecords (query : AuditQuery) (calls : List PutCall) : List Version :=
  (recordsOf calls).filter fun v => query.keyPrefix <+: v.logicalKey ∧ query.accepts v

/-- An exact listing: one entry for each record that is asked for, in the order of logical key and
number, and the number of entries for each of their sources. -/
structure ExactListing (query : AuditQuery) (calls : List PutCall) (result : ListWritesResult) :
    Prop where
  entries : result.entries.Perm ((askedRecords query calls).map writeOf)
  sorted : result.entries.Pairwise fun left right =>
    cursorPosition left.cursor < cursorPosition right.cursor
  counted : ∀ counts ∈ result.bySource,
    counts.count.toNat = result.entries.countP fun entry => entry.source = counts.source
  sources : ∀ entry ∈ result.entries, ∃ counts ∈ result.bySource, counts.source = entry.source

/-- Of the accepted records, no logical key goes on with the byte 0xFF after the prefix, and none
that does not start with the prefix has a version key that does. -/
def AuditApart (query : AuditQuery) (calls : List PutCall) : Prop :=
  ∀ v ∈ recordsOf calls, query.accepts v →
    ¬ query.keyPrefix ++ [255] <+: v.logicalKey ∧
      (query.keyPrefix <+: versionStorageKey v.logicalKey v.seq → query.keyPrefix <+: v.logicalKey)
deriving Decidable

theorem versionSuffix_low (seq : UInt64) :
    ∀ byte ∈ versionSep ++ decimalFixed versionSeqWidth seq.toNat, byte < 255 := by
  intro byte member
  rcases mem_append.mp member with sep | digit
  · have low : ∀ byte ∈ versionSep, byte < 255 := by decide +kernel
    exact low byte sep
  · exact lt_of_le_of_lt (seqDigits seq byte digit).2 (by decide)

theorem scanned_iff (keyPrefix : Bytes) (v : Version) :
    Scanned keyPrefix v ↔ keyPrefix <+: versionStorageKey v.logicalKey v.seq ∧
      ¬ keyPrefix ++ [255] <+: v.logicalKey := by
  have shape : versionStorageKey v.logicalKey v.seq =
      v.logicalKey ++ (versionSep ++ decimalFixed versionSeqWidth v.seq.toNat) :=
    append_assoc _ _ _
  rw [Scanned, shape]
  exact between_suffixed_iff keyPrefix v.logicalKey _ (versionSuffix_low v.seq)
    (append_ne_nil_of_left_ne_nil (by decide) _)

theorem under_versionStorageKey {keyPrefix : Bytes} {v : Version} (under : keyPrefix <+: v.logicalKey) :
    keyPrefix <+: versionStorageKey v.logicalKey v.seq :=
  under.trans ((prefix_append _ _).trans (prefix_append _ _))

theorem isCurrentStorageKey_version (logical : Bytes) (seq : UInt64) :
    isCurrentStorageKey (versionStorageKey logical seq) = false := by
  rw [Bool.eq_false_iff]
  intro recognised
  rcases (isCurrentStorageKey_iff _).mp recognised with ⟨other, _, same⟩
  exact versionStorageKey_ne_currentStorageKey logical other seq same

theorem hitOf_eq_some_iff (query : AuditQuery) (entry : Bytes × Bytes) (hit : WriteEnvelope) :
    hitOf query entry = some hit ↔ ∃ rec, entry.1 = versionStorageKey hit.logicalKey hit.seq ∧
      decodeVersionRecord entry.2 = some rec ∧ query.accepts rec ∧
        envelopeOf hit.logicalKey hit.seq rec = hit := by
  constructor
  · intro found
    rw [hitOf] at found
    split_ifs at found
    split at found
    · cases found
    next logical seq parsed =>
      split at found
      · cases found
      next rec decoded =>
        split_ifs at found with accepted
        obtain rfl := Option.some.inj found
        exact ⟨rec, eq_versionStorageKey_of_parse _ _ _ parsed, decoded, accepted, rfl⟩
  · rintro ⟨rec, key, decoded, accepted, same⟩
    simp only [hitOf, key, isCurrentStorageKey_version, parseVersionStorageKey_versionStorageKey,
      decoded, accepted, same, Bool.false_eq_true, if_false, if_true]

theorem writeOf_injective : Function.Injective writeOf := by
  intro first second same
  cases first
  cases second
  simp only [writeOf, WriteEnvelope.mk.injEq, and_true] at same
  simp only [Version.mk.injEq]
  tauto

theorem envelopeOf_stored (calls : List PutCall) (v : Version) (member : v ∈ recordsOf calls) :
    envelopeOf v.logicalKey v.seq v.stored = writeOf v := by
  rcases mem_written _ calls v member with ⟨call, _, shape⟩
  have hash : v.persistedHash = hashPayload v.payload := by rw [shape]; rfl
  simp [envelopeOf, writeOf, Version.stored, hash]

section Hits

variable {calls : List PutCall} {query : AuditQuery}

theorem scanHits_places (ts : TemporalStore) (query : AuditQuery) :
    (ts.scanHits query).Pairwise fun left right => left.cursor.place ≠ right.cursor.place := by
  refine List.Pairwise.filterMap _ ?_ (ts.store.scanRaw_sorted _ _)
  intro left right less first firstIs second secondIs same
  rcases (hitOf_eq_some_iff query left first).mp firstIs with ⟨_, firstKey, _⟩
  rcases (hitOf_eq_some_iff query right second).mp secondIs with ⟨_, secondKey, _⟩
  have keys : first.logicalKey = second.logicalKey := congrArg Prod.fst same
  have seqs : first.seq = second.seq := congrArg Prod.snd same
  rw [KeyLt, firstKey, secondKey, keys, seqs] at less
  exact lt_irrefl _ less

theorem recordsOf_nodup (bounded : ∀ logical, countOn logical calls ≤ 2 ^ 64) :
    (recordsOf calls).Nodup := by
  rw [nodup_iff_count_le_one]
  intro v
  have distinct : (onKey v.logicalKey (recordsOf calls)).Nodup :=
    (recordsOf_distinct calls v.logicalKey (bounded v.logicalKey)).of_map
  calc
    (recordsOf calls).count v = (onKey v.logicalKey (recordsOf calls)).count v :=
      (count_filter (by simp)).symm
    _ ≤ 1 := nodup_iff_count_le_one.mp distinct v

theorem listWrites_sorted (ts : TemporalStore) (query : AuditQuery) :
    (ts.listWrites query).entries.Pairwise fun left right =>
      cursorPosition left.cursor < cursorPosition right.cursor := by
  have apart : (ts.listWrites query).entries.Pairwise fun left right =>
      left.cursor.place ≠ right.cursor.place := by
    apply (List.Perm.pairwise_iff _ (perm_insertionSort _ _)).mpr (scanHits_places ts query)
    exact fun different => different.symm
  apply (apart.and (sortWrites_sorted (ts.scanHits query))).imp
  intro left right both
  exact lt_of_le_of_ne both.2 fun same => both.1 (toLex.injective same)

theorem sources_written (ts : TemporalStore) (calls : List PutCall) :
    (written ts calls).map Version.source = calls.map PutCall.source := by
  induction calls generalizing ts with
  | nil => rfl
  | cons call rest ih =>
    rw [written_cons, map_cons, map_cons, ih]
    rfl

theorem mem_countSources (entries : List WriteEnvelope) (counts : SourceCount) :
    counts ∈ countSources entries ↔ (∃ entry ∈ entries, entry.source = counts.source) ∧
      counts.count = UInt32.ofNat (entries.countP fun entry => entry.source = counts.source) := by
  simp only [countSources, mem_map, mem_insertionSort, mem_dedup]
  constructor
  · intro listed
    rcases listed with ⟨name, known, rfl⟩
    exact ⟨known, rfl⟩
  · intro listed
    rcases listed with ⟨known, counted⟩
    refine ⟨counts.source, known, ?_⟩
    rw [← counted]

variable (fits : ∀ call ∈ calls, call.source.length < 2 ^ 32)
  (bounded : ∀ logical, countOn logical calls ≤ 2 ^ 64)
include fits bounded

theorem mem_scanHits (hit : WriteEnvelope) :
    hit ∈ (storeAfter calls).scanHits query ↔
      ∃ v ∈ recordsOf calls, Scanned query.keyPrefix v ∧ query.accepts v ∧ writeOf v = hit := by
  have holds := (traced_storeAfter calls).holds
  have decodes : ∀ v ∈ recordsOf calls, decodeVersionRecord (encodeVersionRecord v) = some v.stored := by
    intro v member
    have readable := recordsOf_readable calls v.logicalKey (fun call called _ => fits call called) v
      ((mem_onKey _ _ _).mpr ⟨member, rfl⟩)
    exact decodeVersionRecord_encodeVersionRecord v readable.1 readable.2
  rw [TemporalStore.scanHits, mem_filterMap]
  constructor
  · rintro ⟨entry, scanned, found⟩
    rcases (hitOf_eq_some_iff query entry hit).mp found with ⟨rec, key, decoded, accepted, same⟩
    rcases (KVServer.mem_scanRaw _ _ _ entry.1 entry.2).mp scanned with ⟨present, above, below⟩
    rw [key] at present above below
    rw [holds.version, Option.map_eq_some_iff] at present
    rcases present with ⟨v, last, encoded⟩
    rcases lastStored_eq_some _ _ _ _ last with ⟨member, sameKey, sameSeq⟩
    rw [← encoded, decodes v member] at decoded
    obtain rfl := Option.some.inj decoded
    refine ⟨v, member, ?_, accepted, ?_⟩
    · rw [Scanned, sameKey, sameSeq]
      exact ⟨above, below.resolve_left (by simp)⟩
    · rw [← envelopeOf_stored calls v member, sameKey, sameSeq, same]
  · rintro ⟨v, member, ⟨above, below⟩, accepted, rfl⟩
    have kept : lastStored v.logicalKey v.seq (recordsOf calls) = some v :=
      lastStored_of_mem _ v member (recordsOf_distinct calls v.logicalKey (bounded v.logicalKey))
    refine ⟨(versionStorageKey v.logicalKey v.seq, encodeVersionRecord v), ?_, ?_⟩
    · refine (KVServer.mem_scanRaw _ _ _ _ _).mpr ⟨?_, above, .inr below⟩
      rw [holds.version, kept, Option.map_some]
    · exact (hitOf_eq_some_iff query _ (writeOf v)).mpr
        ⟨v.stored, rfl, decodes v member, accepted, envelopeOf_stored calls v member⟩

theorem scanHits_perm :
    ((storeAfter calls).scanHits query).Perm (((recordsOf calls).filter fun v =>
      Scanned query.keyPrefix v ∧ query.accepts v).map writeOf) := by
  have hitsOnce : ((storeAfter calls).scanHits query).Nodup := by
    apply (scanHits_places _ _).imp
    intro left right apart same
    exact apart (by rw [same])
  have recordsOnce : (((recordsOf calls).filter fun v =>
      Scanned query.keyPrefix v ∧ query.accepts v).map writeOf).Nodup :=
    ((recordsOf_nodup bounded).filter _).map writeOf_injective
  rw [perm_ext_iff_of_nodup hitsOnce recordsOnce]
  intro hit
  rw [mem_scanHits fits bounded, mem_map]
  simp only [mem_filter, decide_eq_true_eq, and_assoc]

theorem listed_iff :
    ((storeAfter calls).listWrites query).entries.Perm ((askedRecords query calls).map writeOf) ↔
      AuditApart query calls := by
  have listed : ((storeAfter calls).listWrites query).entries.Perm (((recordsOf calls).filter fun v =>
      Scanned query.keyPrefix v ∧ query.accepts v).map writeOf) :=
    (perm_insertionSort _ _).trans (scanHits_perm fits bounded)
  constructor
  · intro exact v member accepted
    have same : ∀ w, w ∈ (recordsOf calls).filter (fun v =>
        Scanned query.keyPrefix v ∧ query.accepts v) ↔ w ∈ askedRecords query calls := by
      intro w
      have perm := listed.symm.trans exact
      exact (map_perm_map_iff writeOf_injective).mp perm |>.mem_iff
    have here := same v
    simp only [askedRecords, mem_filter, decide_eq_true_eq, member, accepted, true_and,
      and_true, scanned_iff] at here
    constructor
    · intro top
      have under : query.keyPrefix <+: v.logicalKey := (prefix_append _ _).trans top
      exact (here.mpr under).2 top
    · intro reaches
      by_contra outside
      have top : ¬ query.keyPrefix ++ [255] <+: v.logicalKey :=
        fun top => outside ((prefix_append _ _).trans top)
      exact outside (here.mp ⟨reaches, top⟩)
  · intro apart
    have same : (recordsOf calls).filter (fun v => Scanned query.keyPrefix v ∧ query.accepts v) =
        askedRecords query calls := by
      apply filter_congr
      intro v member
      apply decide_eq_decide.mpr
      apply and_congr_left
      intro accepted
      rcases apart v member accepted with ⟨top, reaches⟩
      rw [scanned_iff]
      exact ⟨fun scanned => reaches scanned.1, fun under => ⟨under_versionStorageKey under, top⟩⟩
    rw [← same]
    exact listed

theorem countP_scanHits_le (source : Bytes) :
    ((storeAfter calls).scanHits query).countP (fun hit => hit.source = source) ≤
      calls.countP fun call => call.source = source := by
  calc
    ((storeAfter calls).scanHits query).countP (fun hit => hit.source = source) =
        ((recordsOf calls).filter fun v => Scanned query.keyPrefix v ∧ query.accepts v).countP
          fun v => v.source = source := by
      rw [(scanHits_perm fits bounded).countP_eq, countP_map]
      rfl
    _ ≤ (recordsOf calls).countP fun v => v.source = source := filter_sublist.countP_le
    _ = ((recordsOf calls).map Version.source).countP fun name => name = source := by
      rw [countP_map]
      rfl
    _ = calls.countP fun call => call.source = source := by
      rw [recordsOf, sources_written, countP_map]
      rfl

end Hits

/-- The listing is exact for the records that are asked for if, and only if, the scan over the version
keys selects the same records as the prefix does. -/
theorem listWrites_exact_iff (calls : List PutCall) (query : AuditQuery)
    (fits : ∀ call ∈ calls, call.source.length < 2 ^ 32)
    (bounded : ∀ logical, countOn logical calls ≤ 2 ^ 64)
    (few : ∀ source, (calls.countP fun call => call.source = source) < 2 ^ 32) :
    ExactListing query calls ((storeAfter calls).listWrites query) ↔ AuditApart query calls := by
  constructor
  · intro exact
    exact (listed_iff fits bounded).mp exact.entries
  · intro apart
    have hits : ((storeAfter calls).listWrites query).entries.Perm ((storeAfter calls).scanHits query) :=
      perm_insertionSort _ _
    refine ⟨(listed_iff fits bounded).mpr apart, listWrites_sorted _ query, ?_, ?_⟩
    · intro counts listed
      have small : ((storeAfter calls).scanHits query).countP (fun hit => hit.source = counts.source) <
          2 ^ 32 :=
        lt_of_le_of_lt (countP_scanHits_le fits bounded counts.source) (few counts.source)
      rw [((mem_countSources _ counts).mp listed).2, hits.countP_eq, UInt32.toNat_ofNat',
        Nat.mod_eq_of_lt small]
    · intro entry listed
      let count := UInt32.ofNat (((storeAfter calls).scanHits query).countP
        fun hit => hit.source = entry.source)
      have member : ⟨entry.source, count⟩ ∈ ((storeAfter calls).listWrites query).bySource :=
        (mem_countSources _ _).mpr ⟨⟨entry, hits.mem_iff.mp listed, rfl⟩, rfl⟩
      exact ⟨⟨entry.source, count⟩, member, rfl⟩

theorem listWrites_exact_window :
    let calls : List PutCall := [⟨ascii ['p', 'a'], ascii ['1'], 1, ascii ['s'], 0⟩,
      ⟨ascii ['p', 'b'], ascii ['2'], 2, ascii ['t'], 0⟩,
      ⟨ascii ['p', 'a'], ascii ['3'], 3, ascii ['s'], 0⟩, ⟨ascii ['q'], ascii ['4'], 3, ascii ['s'], 0⟩]
    ExactListing ⟨ascii ['p'], 2, 0, ascii ['s']⟩ calls
      ((storeAfter calls).listWrites ⟨ascii ['p'], 2, 0, ascii ['s']⟩) := by
  intro calls
  have short : calls.length < 2 ^ 32 := by decide
  have bounded : ∀ logical, countOn logical calls ≤ 2 ^ 64 := fun logical =>
    le_trans countP_le_length (by decide)
  have few : ∀ source, (calls.countP fun call => call.source = source) < 2 ^ 32 := fun source =>
    lt_of_le_of_lt countP_le_length short
  exact (listWrites_exact_iff calls ⟨ascii ['p'], 2, 0, ascii ['s']⟩ (by decide) bounded few).mpr
    (by decide +kernel)

/-- A write to a key that goes on with the byte 0xFF after the prefix is missing, and a prefix that
reaches into a version key returns a write to a key that does not start with it. -/
theorem listWrites_inexact : let high : PutCall := ⟨[97, 255], ascii ['1'], 1, [], 0⟩
    let short : PutCall := ⟨ascii ['x'], ascii ['1'], 1, [], 0⟩
    (askedRecords ⟨[97], 0, 0, []⟩ [high]).map Version.logicalKey = [[97, 255]] ∧
      ((storeAfter [high]).listWrites ⟨[97], 0, 0, []⟩).entries = [] ∧
      askedRecords ⟨ascii ['x', ':', 'v'], 0, 0, []⟩ [short] = [] ∧
      ((storeAfter [short]).listWrites ⟨ascii ['x', ':', 'v'], 0, 0, []⟩).entries.map
        WriteEnvelope.logicalKey = [ascii ['x']] := by
  decide +kernel

end KairosFlux.Service
