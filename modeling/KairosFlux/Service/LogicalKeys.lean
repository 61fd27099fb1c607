import KairosFlux.Service.PutRuns

/-! Logical keys that look like storage keys (`service/temporal_store.go`, `service/fsm.go`).

Logical keys share one key space with the version and pointer keys made from them. A read of a
pointer that is not there falls back to the pointer of the pointer key itself, and a read of a
logical key first takes it literally. -/

namespace KairosFlux.Service

open Lib Temporal List Option KVServer TemporalStore

/-- No logical key of the run is a storage key that the run writes. -/
def KeysApart (calls : List PutCall) : Prop :=
  ∀ call ∈ calls, ∀ other ∈ calls, call.logical ≠ currentStorageKey other.logical ∧
    ∀ seq : UInt64, 1 ≤ seq.toNat → seq.toNat ≤ countOn other.logical calls →
      call.logical ≠ versionStorageKey other.logical seq

variable (calls : List PutCall) (logical : Bytes)

theorem onKey_eq_nil_of_absent
    (absent : ∀ call ∈ calls, call.logical ≠ logical) : onKey logical (recordsOf calls) = [] := by
  rw [onKey, filter_eq_nil_iff]
  intro v member same
  obtain ⟨call, inside, shape⟩ := mem_written _ calls v member
  apply absent call inside
  have key : v.logicalKey = logical := by simpa using same
  rw [← key, shape]
  rfl

theorem nextSeq_after (call : PutCall)
    (unnested : ∀ other ∈ calls, other.logical ≠ currentStorageKey call.logical) :
    (countOn call.logical calls = 0 → (storeAfter calls).nextSeq call.logical = 1) ∧
      ∀ last, (seqsOf call.logical (recordsOf calls)).getLast? = some last →
        (storeAfter calls).nextSeq call.logical = last + 1 := by
  have traced := traced_storeAfter calls
  constructor
  · intro none
    have first : onKey call.logical (recordsOf calls) = [] := by
      rw [← length_eq_zero_iff, recordsOf, onKey_written_length, none]
    exact nextSeq_of_unpointed traced.holds traced.follows call.logical first
      (onKey_eq_nil_of_absent calls _ unnested)
  · intro last isLast
    rw [seqsOf, List.getLast?_map, map_eq_some_iff] at isLast
    obtain ⟨v, lastVersion, rfl⟩ := isLast
    exact nextSeq_of_pointed traced.holds traced.follows call.logical v lastVersion

-- By induction on the calls from the right; only the key of the last call gets a new number.
theorem seqs_from_one (unnested : ∀ other ∈ calls, other.logical ≠ currentStorageKey logical) :
    seqsOf logical (recordsOf calls) = countFrom 1 (countOn logical calls) := by
  induction calls using List.reverseRecOn with
  | nil => rfl
  | append_singleton calls call ih =>
    have before : ∀ other ∈ calls, other.logical ≠ currentStorageKey logical :=
      fun other member => unnested other (mem_append_left _ member)
    have earlier := ih before
    have counted : countOn logical (calls ++ [call]) =
        countOn logical calls + if call.logical = logical then 1 else 0 := by
      rw [countOn, countP_append, ← countOn]
      simp [countP_cons]
    rw [recordsOf_snoc, counted]
    by_cases same : call.logical = logical
    · subst same
      obtain ⟨starts, follows⟩ := nextSeq_after calls call before
      rw [if_pos rfl, ← countFrom_snoc 1 ((storeAfter calls).nextSeq call.logical)]
      · rw [← earlier]
        exact seqsOf_snoc_same (recordsOf calls) (newVersion call _)
      · rw [← earlier]
        exact follows
      · exact starts
    · rw [if_neg same, Nat.add_zero, ← earlier, seqsOf, onKey_snoc_other _ _ _ same, ← seqsOf]

theorem outcomes_on (ts : TemporalStore) (calls : List PutCall) (logical : Bytes) :
    ((outcomes ts calls).filter fun outcome => outcome.1.logical = logical).map Prod.snd =
      (seqsOf logical (written ts calls)).map some := by
  induction calls generalizing ts with
  | nil => rfl
  | cons call rest ih =>
    have tail := ih (ts.put call)
    rw [seqsOf, onKey] at tail
    rw [outcomes, written_cons, seqsOf, onKey, filter_cons, filter_cons]
    by_cases same : call.logical = logical
    · simp [newVersion, same, tail, putVersioned]
    · simp [newVersion, same, tail]

theorem onKey_sorted (bounded : countOn logical calls < 2 ^ 64)
    (numbers : seqsOf logical (recordsOf calls) = countFrom 1 (countOn logical calls)) :
    (onKey logical (recordsOf calls)).Pairwise fun left right => left.seq < right.seq := by
  have sorted := countFrom_sorted 1 (countOn logical calls) (by omega)
  rw [show UInt64.ofNat 1 = 1 from rfl, ← numbers, seqsOf, pairwise_map] at sorted
  exact sorted

theorem eq_of_sorted_of_mem_iff (left right : List Version)
    (leftSorted : left.Pairwise fun v w => v.seq < w.seq)
    (rightSorted : right.Pairwise fun v w => v.seq < w.seq)
    (same : ∀ v, v ∈ left ↔ v ∈ right) : left = right := by
  exact leftSorted.eq_of_mem_iff rightSorted same

theorem mem_countFrom_one (count : Nat) (small : count < 2 ^ 64) (seq : UInt64)
    (member : seq ∈ countFrom 1 count) : 1 ≤ seq.toNat ∧ seq.toNat ≤ count := by
  obtain ⟨i, inside, rfl⟩ := mem_map.mp member
  rw [mem_range] at inside
  simp
  omega

theorem listVersions_eq_onKey
    (fits : ∀ call ∈ calls, call.logical = logical → call.source.length < 2 ^ 32)
    (bounded : countOn logical calls < 2 ^ 64)
    (numbers : seqsOf logical (recordsOf calls) = countFrom 1 (countOn logical calls)) :
    (storeAfter calls).listVersions logical = onKey logical (recordsOf calls) := by
  apply eq_of_sorted_of_mem_iff
  · exact (storeAfter calls).listVersions_sorted logical
  · exact onKey_sorted calls logical bounded numbers
  · exact mem_listVersions_storeAfter calls logical fits (le_of_lt bounded)

theorem lookup_literal_absent (apart : KeysApart calls)
    (bounded : ∀ logical, countOn logical calls < 2 ^ 64) (call : PutCall) (member : call ∈ calls) :
    (storeAfter calls).store.storage.lookup call.logical = none := by
  have holds := (traced_storeAfter calls).holds
  cases present : (storeAfter calls).store.storage.lookup call.logical with
  | none => rfl
  | some raw =>
    rcases holds.other _ _ present with isVersion | isCurrent
    · obtain ⟨logical, seq, shape⟩ := isVersion
      rw [shape, holds.version, map_eq_some_iff] at present
      obtain ⟨v, last, _⟩ := present
      obtain ⟨inside, rfl, rfl⟩ := lastStored_eq_some _ _ _ _ last
      obtain ⟨other, otherIn, made⟩ := mem_written _ calls v inside
      have key : other.logical = v.logicalKey := by rw [made]; rfl
      have number : v.seq ∈ seqsOf v.logicalKey (recordsOf calls) :=
        mem_map.mpr ⟨v, (mem_onKey _ _ _).mpr ⟨inside, rfl⟩, rfl⟩
      rw [seqs_from_one calls v.logicalKey (fun call called => key ▸ (apart call called other otherIn).1)]
        at number
      have range := mem_countFrom_one _ (bounded v.logicalKey) v.seq number
      refine absurd ?_ ((apart call member other otherIn).2 v.seq range.1 (key ▸ range.2))
      rw [shape, key]
    · obtain ⟨logical, shape⟩ := isCurrent
      rw [shape, holds.current, map_eq_some_iff] at present
      obtain ⟨v, last, _⟩ := present
      obtain ⟨inside, rfl⟩ := (mem_onKey _ _ _).mp (mem_of_getLast? last)
      obtain ⟨other, otherIn, made⟩ := mem_written _ calls v inside
      have key : other.logical = v.logicalKey := by rw [made]; rfl
      refine absurd ?_ (apart call member other otherIn).1
      rw [shape, key]

theorem getViaCurrentPointer_of_pointed (kv : KVServer) (stored pointed : List Version)
    (holds : Holds kv stored pointed) (logical : Bytes) (v : Version)
    (last : (onKey logical pointed).getLast? = some v)
    (kept : lastStored logical v.seq stored = some v) (readable : Readable v) :
    kv.getViaCurrentPointer logical = some v.payload := by
  have current := holds.current logical
  rw [last, map_some] at current
  have version : kv.storage.lookup (versionStorageKey logical (currentValueOf v).seq) =
      some (encodeVersionRecord v) := by
    rw [holds.version, currentValueOf, kept, map_some]
  have decoded := decodeVersionRecord_encodeVersionRecord v readable.1 readable.2
  rw [getViaCurrentPointer, current]
  simp only [decode_currentValueOf, version, decoded]
  rfl

theorem get_last_payload (apart : KeysApart calls)
    (fits : ∀ call ∈ calls, call.source.length < 2 ^ 32)
    (bounded : ∀ logical, countOn logical calls < 2 ^ 64) (logical : Bytes) (v : Version)
    (last : (onKey logical (recordsOf calls)).getLast? = some v) :
    (storeAfter calls).store.get logical = some v.payload := by
  obtain ⟨inside, rfl⟩ := (mem_onKey _ _ _).mp (mem_of_getLast? last)
  obtain ⟨call, member, shape⟩ := mem_written _ calls v inside
  have key : call.logical = v.logicalKey := by rw [shape]; rfl
  have literal := lookup_literal_absent calls apart bounded call member
  rw [key] at literal
  rw [KVServer.get, literal]
  exact getViaCurrentPointer_of_pointed _ _ _ (traced_storeAfter calls).holds v.logicalKey v last
    (lastStored_of_mem _ v inside
      (recordsOf_distinct calls v.logicalKey (le_of_lt (bounded v.logicalKey))))
    (recordsOf_readable calls v.logicalKey (fun call called _ => fits call called) v
      (mem_of_getLast? last))

/-- When no logical key is a storage key of the run, each key has its own numbers from one, its own
listing and its own last payload. -/
theorem logical_keys_apart (calls : List PutCall) (apart : KeysApart calls)
    (fits : ∀ call ∈ calls, call.source.length < 2 ^ 32)
    (bounded : ∀ logical, countOn logical calls < 2 ^ 64) (logical : Bytes) :
    ((outcomes (newTemporalStore empty) calls).filter fun outcome =>
        outcome.1.logical = logical).map Prod.snd = (countFrom 1 (countOn logical calls)).map some ∧
      (storeAfter calls).listVersions logical = onKey logical (recordsOf calls) ∧
      ∀ v, (onKey logical (recordsOf calls)).getLast? = some v →
        (storeAfter calls).store.get logical = some v.payload := by
  have numbers : seqsOf logical (recordsOf calls) = countFrom 1 (countOn logical calls) := by
    by_cases called : ∃ call ∈ calls, call.logical = logical
    · obtain ⟨call, member, rfl⟩ := called
      exact seqs_from_one calls call.logical fun other otherIn => (apart other otherIn call member).1
    · have none : countOn logical calls = 0 := countP_eq_zero.mpr fun call member same =>
        called ⟨call, member, by simpa using same⟩
      have absent := onKey_eq_nil_of_absent calls logical fun call member same =>
        called ⟨call, member, same⟩
      rw [none, seqsOf, absent]
      rfl
  refine ⟨?_, ?_, get_last_payload calls apart fits bounded logical⟩
  · rw [outcomes_on, ← recordsOf, numbers]
  · exact listVersions_eq_onKey calls logical (fun call called _ => fits call called)
      (bounded logical) numbers

theorem logical_keys_apart_two_keys :
    let calls : List PutCall := [⟨ascii ['a'], ascii ['p'], 1, [], 0⟩,
      ⟨ascii ['b'], ascii ['q'], 2, [], 0⟩, ⟨ascii ['a'], ascii ['r'], 3, [], 0⟩]
    (storeAfter calls).store.get (ascii ['a']) = some (ascii ['r']) := by
  intro calls
  have short : ∀ call ∈ calls, call.logical.length = 1 := by decide
  have apart : KeysApart calls := by
    intro call member other _
    have length := short call member
    constructor
    · intro same
      rw [same, currentStorageKey, length_append] at length
      exact absurd length (by simp [currentSuffix, ascii])
    · intro seq _ _ same
      rw [same, versionStorageKey, length_append, decimalFixed_length] at length
      exact absurd length (by simp [versionSeqWidth])
  have bounded : ∀ logical, countOn logical calls < 2 ^ 64 := fun logical =>
    lt_of_le_of_lt countP_le_length (by decide)
  exact (logical_keys_apart calls apart (by decide) bounded (ascii ['a'])).2.2
    (newVersion ⟨ascii ['a'], ascii ['r'], 3, [], 0⟩ 2) (by decide +kernel)

/-- The pointer of `x` is missing, so the read of it takes the payload put under the logical key
`x:current` for a pointer, and the first put of `x` gets the number after the one found there. -/
theorem nested_pointer_misread :
    let nested : PutCall := ⟨currentStorageKey (ascii ['x']), leBytes 8 41 ++ leBytes 2 0, 1, [], 0⟩
    let first : PutCall := ⟨ascii ['x'], ascii ['p'], 2, [], 0⟩
    (outcomes (newTemporalStore empty) [nested, first]).map Prod.snd = [some 1, some 42] := by
  decide +kernel

end KairosFlux.Service
