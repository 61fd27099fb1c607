import KairosFlux.Service.LogicalKeys

/-! As-of reads over runs of versioned puts (`service/temporal_store.go`). -/

namespace KairosFlux.Service

open Lib Temporal List Option KVServer

variable (calls : List PutCall) (logical : Bytes) (asOfNanos : Int64)

theorem NewestVisible.unique (versions : List Version) (v w : Version)
    (distinct : (versions.map Version.seq).Nodup) (first : NewestVisible asOfNanos versions v)
    (second : NewestVisible asOfNanos versions w) : v = w := by
  have below := second.2.2 v first.1 first.2.1
  have above := first.2.2 w second.1 second.2.1
  exact inj_on_of_nodup_map distinct first.1 second.1 (le_antisymm below above)

theorem newestVisible_congr (left right : List Version) (v : Version)
    (same : ∀ w, w.writeNanos ≤ asOfNanos → (w ∈ left ↔ w ∈ right)) :
    NewestVisible asOfNanos left v ↔ NewestVisible asOfNanos right v := by
  constructor
  · intro newest
    obtain ⟨member, visible, largest⟩ := newest
    refine ⟨(same v visible).mp member, visible, ?_⟩
    intro w inside seen
    exact largest w ((same w seen).mpr inside) seen
  · intro newest
    obtain ⟨member, visible, largest⟩ := newest
    refine ⟨(same v visible).mpr member, visible, ?_⟩
    intro w inside seen
    exact largest w ((same w seen).mp inside) seen

section

variable (fits : ∀ call ∈ calls, call.logical = logical → call.source.length < 2 ^ 32)
include fits

theorem getAsOf_eq_some_iff
    (bounded : countOn logical calls ≤ 2 ^ 64) (v : Version) :
    (storeAfter calls).getAsOf logical asOfNanos = some v ↔
      NewestVisible asOfNanos (onKey logical (recordsOf calls)) v := by
  have listed := mem_listVersions_storeAfter calls logical fits bounded
  have agree := fun w => newestVisible_congr asOfNanos
    ((storeAfter calls).listVersions logical) (onKey logical (recordsOf calls)) w
    fun u _ => listed u
  constructor
  · intro answered
    exact (agree v).mp (asOf_newest _ _ v answered)
  · intro newest
    cases answer : (storeAfter calls).getAsOf logical asOfNanos with
    | none =>
      have absent := asOf_eq_none _ _ answer v ((listed v).mpr newest.1)
      exact absurd newest.2.1 absent
    | some w =>
      have other := (agree w).mp (asOf_newest _ _ w answer)
      rw [NewestVisible.unique asOfNanos _ v w (recordsOf_distinct calls logical bounded) newest other]

theorem getAsOf_eq_none_iff
    (bounded : countOn logical calls ≤ 2 ^ 64) :
    (storeAfter calls).getAsOf logical asOfNanos = none ↔
      ∀ v ∈ onKey logical (recordsOf calls), ¬ v.writeNanos ≤ asOfNanos := by
  have listed := mem_listVersions_storeAfter calls logical fits bounded
  constructor
  · intro absent v member
    exact asOf_eq_none _ _ absent v ((listed v).mpr member)
  · intro invisible
    cases answer : (storeAfter calls).getAsOf logical asOfNanos with
    | none => rfl
    | some w =>
      have newest := (getAsOf_eq_some_iff calls logical asOfNanos fits bounded w).mp answer
      exact absurd newest.2.1 (invisible w newest.1)

end

theorem recordsOf_append (later : List PutCall) :
    recordsOf (calls ++ later) = recordsOf calls ++ written (storeAfter calls) later :=
  written_append _ calls later

theorem visible_before (later : List PutCall) (logical : Bytes) (asOfNanos : Int64)
    (future : ∀ call ∈ later, asOfNanos < call.writeNanos) (v : Version)
    (visible : v.writeNanos ≤ asOfNanos) :
    v ∈ onKey logical (recordsOf (calls ++ later)) ↔ v ∈ onKey logical (recordsOf calls) := by
  have invisible : v ∉ written (storeAfter calls) later := by
    intro member
    obtain ⟨call, inside, shape⟩ := mem_written _ later v member
    have after := future call inside
    rw [shape] at visible
    exact Int64.lt_irrefl (Int64.lt_of_lt_of_le after visible)
  rw [mem_onKey, mem_onKey, recordsOf_append, mem_append, or_iff_left invisible]

/-- An as-of read answers the visible record of largest number, and puts of later times leave the
answer as it is. -/
theorem asOf_answer_stable (calls later : List PutCall) (logical : Bytes) (asOfNanos : Int64)
    (fits : ∀ call ∈ calls ++ later, call.logical = logical → call.source.length < 2 ^ 32)
    (bounded : countOn logical (calls ++ later) ≤ 2 ^ 64) :
    (∀ v, (storeAfter calls).getAsOf logical asOfNanos = some v ↔
        NewestVisible asOfNanos (onKey logical (recordsOf calls)) v) ∧
      ((storeAfter calls).getAsOf logical asOfNanos = none ↔
        ∀ v ∈ onKey logical (recordsOf calls), ¬ v.writeNanos ≤ asOfNanos) ∧
      ((∀ call ∈ later, asOfNanos < call.writeNanos) →
        (storeAfter (calls ++ later)).getAsOf logical asOfNanos =
          (storeAfter calls).getAsOf logical asOfNanos) := by
  have fitsBefore : ∀ call ∈ calls, call.logical = logical → call.source.length < 2 ^ 32 :=
    fun call member => fits call (mem_append_left _ member)
  have boundedBefore : countOn logical calls ≤ 2 ^ 64 := by
    rw [countOn, countP_append] at bounded
    exact le_trans (Nat.le_add_right _ _) bounded
  refine ⟨getAsOf_eq_some_iff calls logical asOfNanos fitsBefore boundedBefore,
    getAsOf_eq_none_iff calls logical asOfNanos fitsBefore boundedBefore, ?_⟩
  intro future
  ext v
  rw [getAsOf_eq_some_iff (calls ++ later) logical asOfNanos fits bounded,
    getAsOf_eq_some_iff calls logical asOfNanos fitsBefore boundedBefore]
  exact newestVisible_congr asOfNanos _ _ v fun w seen =>
    visible_before calls later logical asOfNanos future w seen

theorem asOf_answer_stable_out_of_order :
    let calls : List PutCall := [⟨ascii ['k'], ascii ['a'], 5, [], 0⟩,
      ⟨ascii ['k'], ascii ['b'], 3, [], 0⟩]
    let later : List PutCall := [⟨ascii ['k'], ascii ['c'], 9, [], 0⟩]
    (storeAfter (calls ++ later)).getAsOf (ascii ['k']) 6 =
      some (newVersion ⟨ascii ['k'], ascii ['b'], 3, [], 0⟩ 2) := by
  intro calls later
  have bounded : countOn (ascii ['k']) (calls ++ later) ≤ 2 ^ 64 :=
    le_trans countP_le_length (by decide)
  have stable := asOf_answer_stable calls later (ascii ['k']) 6 (by decide) bounded
  rw [stable.2.2 (by decide)]
  decide +kernel

/-- A source of 2^32 bytes is stored with the length zero, so its own bytes are read as the fields
that follow it. -/
theorem long_source_misread (call : PutCall) (seq : UInt64) (rest : Bytes)
    (shape : call.source = leBytes 4 0 ++ (leBytes 2 0 ++ rest))
    (long : call.source.length = 2 ^ 32) (v : Version)
    (read : readVersion call.logical seq (encodeVersionRecord (newVersion call seq)) = some v) :
    v.source = [] := by
  have length : leBytes 4 call.source.length = leBytes 4 0 := by rw [long]; decide
  have decoded := decodeVersionRecord_envelope (leBytes 8 (envelopeMarkerBit ||| envelopeVersion1))
    (leBytes 8 call.writeNanos.toUInt64.toNat) (leBytes 4 0) [] (leBytes 4 0) (leBytes 2 0) []
    (rest ++ (leBytes 4 call.schemaVersion.toNat ++
      (leBytes 2 (hashPayload call.payload).length ++ (hashPayload call.payload ++ call.payload))))
    rfl rfl rfl rfl rfl (by decide) rfl rfl
  have encoded : encodeVersionRecord (newVersion call seq) =
      leBytes 8 (envelopeMarkerBit ||| envelopeVersion1) ++
        (leBytes 8 call.writeNanos.toUInt64.toNat ++ (leBytes 4 0 ++ ([] ++ (leBytes 4 0 ++
          (leBytes 2 0 ++ ([] ++ (rest ++ (leBytes 4 call.schemaVersion.toNat ++
            (leBytes 2 (hashPayload call.payload).length ++
              (hashPayload call.payload ++ call.payload)))))))))) := by
    simp only [encodeVersionRecord, newVersion, length]
    rw [shape]
    simp only [append_assoc, nil_append]
  rw [readVersion, encoded, decoded, map_some, some.injEq] at read
  rw [← read]

theorem asOf_long_source (call : PutCall) (rest : Bytes)
    (shape : call.source = leBytes 4 0 ++ (leBytes 2 0 ++ rest))
    (long : call.source.length = 2 ^ 32) (asOfNanos : Int64) :
    (storeAfter [call]).getAsOf call.logical asOfNanos ≠
      some (newVersion call ((newTemporalStore empty).nextSeq call.logical)) := by
  intro answered
  have listed := (asOf_newest _ _ _ answered).1
  obtain ⟨raw, present, read⟩ := ((storeAfter [call]).mem_listVersions _ _).mp listed
  have holds := (traced_storeAfter [call]).holds
  have stored : recordsOf [call] =
      [newVersion call ((newTemporalStore empty).nextSeq call.logical)] := rfl
  rw [holds.version, stored, map_eq_some_iff] at present
  obtain ⟨w, last, encoded⟩ := present
  obtain ⟨member, _, _⟩ := lastStored_eq_some _ _ _ _ last
  rw [mem_singleton.mp member] at encoded
  rw [← encoded] at read
  have empty := long_source_misread call _ rest shape long _ read
  have length : call.source.length = 0 := congrArg List.length empty
  rw [long] at length
  exact absurd length (by decide)

theorem nextSeq_fresh : (newTemporalStore empty).nextSeq logical = 1 :=
  TemporalStore.nextSeq_of_unpointed Traced.fresh.holds Traced.fresh.follows logical rfl rfl

theorem nextSeq_replicate (first second : PutCall) (count : Nat) (sameKey : second.logical = first.logical) :
    (storeAfter (first :: List.replicate count second)).nextSeq second.logical =
      1 + UInt64.ofNat (count + 1) := by
  have calls : first :: List.replicate (count + 1) second =
      (first :: List.replicate count second) ++ [second] := by
    rw [replicate_succ', cons_append]
  have keys : ∀ call ∈ first :: List.replicate (count + 1) second,
      call.logical = second.logical := by
    intro call member
    rcases mem_cons.mp member with rfl | member
    · exact sameKey.symm
    · rw [eq_of_mem_replicate member]
  have unnested : ∀ other ∈ first :: List.replicate (count + 1) second,
      other.logical ≠ currentStorageKey second.logical := by
    intro other otherIn same
    rw [keys other otherIn] at same
    have length := congrArg List.length same
    rw [currentStorageKey, length_append] at length
    exact absurd length (by simp [currentSuffix, ascii])
  have total : countOn second.logical (first :: List.replicate (count + 1) second) = count + 2 := by
    rw [countOn, countP_eq_length.mpr (by simpa using keys), length_cons, length_replicate]
  have numbers := seqs_from_one _ second.logical unnested
  rw [total, countFrom_succ, calls, recordsOf_snoc] at numbers
  have extended := seqsOf_snoc_same (recordsOf (first :: List.replicate count second))
    (newVersion second ((storeAfter (first :: List.replicate count second)).nextSeq second.logical))
  exact (List.cons.inj (append_inj_right' (extended.symm.trans numbers) rfl)).1

theorem asOf_wrapped (first second : PutCall) (count : Nat) (around : count + 1 = 2 ^ 64)
    (sameKey : second.logical = first.logical) (asOfNanos : Int64)
    (future : asOfNanos < second.writeNanos) (firstFits : first.source.length < 2 ^ 32)
    (secondFits : second.source.length < 2 ^ 32) :
    (storeAfter (first :: List.replicate (count + 1) second)).getAsOf first.logical asOfNanos =
      none := by
  have calls : first :: List.replicate (count + 1) second =
      (first :: List.replicate count second) ++ [second] := by
    rw [replicate_succ', cons_append]
  have number := nextSeq_replicate first second count sameKey
  rw [around] at number
  have records : recordsOf (first :: List.replicate (count + 1) second) =
      recordsOf (first :: List.replicate count second) ++ [newVersion second 1] := by
    rw [calls, recordsOf_snoc, number]
    rfl
  cases answer : (storeAfter (first :: List.replicate (count + 1) second)).getAsOf first.logical
      asOfNanos with
  | none => rfl
  | some v =>
    obtain ⟨listed, visible, _⟩ := asOf_newest _ _ _ answer
    obtain ⟨raw, present, read⟩ := (TemporalStore.mem_listVersions _ _ _).mp listed
    rw [(traced_storeAfter _).holds.version, map_eq_some_iff] at present
    obtain ⟨w, last, encoded⟩ := present
    obtain ⟨member, sameLogical, sameSeq⟩ := lastStored_eq_some _ _ _ _ last
    have readable : Readable w := by
      apply recordsOf_readable _ first.logical _ w ((mem_onKey _ _ _).mpr ⟨member, sameLogical⟩)
      intro call called _
      rcases mem_cons.mp called with rfl | called
      · exact firstFits
      · rw [eq_of_mem_replicate called]
        exact secondFits
    have reread := readVersion_encodeVersionRecord w readable.1 readable.2
    rw [sameLogical, sameSeq, encoded, read, some.injEq] at reread
    subst reread
    -- A visible record is the first one, and its key now holds the last one.
    have isFirst : v = newVersion first 1 := by
      rcases mem_cons.mp member with same | member
      · exact same
      · obtain ⟨call, called, shape⟩ := mem_written _ _ v member
        rw [shape, eq_of_mem_replicate called] at visible
        exact absurd (Int64.lt_of_lt_of_le future visible) Int64.lt_irrefl
    rw [isFirst, records, lastStored_snoc, if_pos ⟨sameKey, rfl⟩, some.injEq] at last
    rw [isFirst, ← last] at visible
    exact absurd (Int64.lt_of_lt_of_le future visible) Int64.lt_irrefl

/-- Two ways in which an as-of read loses a visible record: a source too long for its length field,
and so many puts that a number is given twice. -/
theorem asOf_record_lost :
    (∃ call : PutCall, NewestVisible 0 (onKey call.logical (recordsOf [call])) (newVersion call 1) ∧
        (storeAfter [call]).getAsOf call.logical 0 ≠ some (newVersion call 1)) ∧
      ∃ (first : PutCall) (later : List PutCall), (∀ call ∈ first :: later, call.source = []) ∧
        (∀ call ∈ later, 0 < call.writeNanos) ∧
        (storeAfter [first]).getAsOf first.logical 0 = some (newVersion first 1) ∧
        (storeAfter ([first] ++ later)).getAsOf first.logical 0 = none := by
  constructor
  · let source : Bytes := leBytes 4 0 ++ (leBytes 2 0 ++ List.replicate (2 ^ 32 - 6) 0)
    let call : PutCall := ⟨ascii ['k'], [], 0, source, 0⟩
    have long : source.length = 2 ^ 32 := by
      rw [length_append, length_append, length_replicate, leBytes_length, leBytes_length]
      norm_num
    refine ⟨call, ⟨?_, ?_, ?_⟩, ?_⟩
    · exact mem_filter.mpr ⟨mem_cons_self, by simp [newVersion]⟩
    · exact Int64.le_refl 0
    · intro v member _
      rw [recordsOf, written_cons, nextSeq_fresh] at member
      have same := mem_singleton.mp (mem_of_mem_filter member)
      rw [same]
    · have lost := asOf_long_source call _ rfl long 0
      rwa [nextSeq_fresh] at lost
  · let first : PutCall := ⟨ascii ['k'], ascii ['a'], 0, [], 0⟩
    let second : PutCall := ⟨ascii ['k'], ascii ['b'], 1, [], 0⟩
    refine ⟨first, List.replicate (2 ^ 64 - 1 + 1) second, ?_, ?_, by decide +kernel, ?_⟩
    · intro call member
      rcases mem_cons.mp member with rfl | member
      · rfl
      · rw [eq_of_mem_replicate member]
    · intro call member
      rw [eq_of_mem_replicate member]
      decide
    · exact asOf_wrapped first second (2 ^ 64 - 1) (by decide) rfl 0 (by decide) (by decide) (by decide)

end KairosFlux.Service
