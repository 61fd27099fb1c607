import KairosFlux.Service.AsOf
import KairosFlux.Service.Replay

/-! Replay at a point in time (`ReplayFingerprint` of `service/temporal_store.go` with a bound).

The fingerprint is of the records up to the bound, but the keys are counted before a key without such
a record is left out. -/

namespace KairosFlux.Service

open Lib Temporal List TemporalStore

def replayedKeys (keyPrefix : Bytes) (calls : List PutCall) : List Bytes :=
  (calls.map PutCall.logical).dedup.filter fun logical => Replayed keyPrefix logical

/-- Those that the calls of the second part write first. -/
def openedKeys (keyPrefix : Bytes) (calls later : List PutCall) : List Bytes :=
  (replayedKeys keyPrefix later).filter fun logical => logical ∉ calls.map PutCall.logical

def entryAsOf (ts : TemporalStore) (asOfNanos : Int64) (logical : Bytes) : Option Entry :=
  (ts.getAsOf logical asOfNanos).map fun v => ⟨logical, v.seq, v.payload⟩

variable (keyPrefix : Bytes) (calls : List PutCall)

theorem mem_replayedKeys (logical : Bytes) : logical ∈ replayedKeys keyPrefix calls ↔
      Replayed keyPrefix logical ∧ ∃ call ∈ calls, call.logical = logical := by
  rw [replayedKeys, mem_filter, mem_dedup, mem_map, decide_eq_true_eq, and_comm]

theorem replayedKeys_nodup : (replayedKeys keyPrefix calls).Nodup :=
  (nodup_dedup _).filter _

theorem replayKeys_length :
    ((storeAfter calls).replayKeys keyPrefix).length = (replayedKeys keyPrefix calls).length := by
  apply List.Perm.length_eq
  rw [perm_ext_iff_of_nodup (replayKeys_nodup _ _) (replayedKeys_nodup _ _)]
  intro logical
  rw [mem_replayKeys_iff, mem_replayedKeys]

theorem replayedKeys_append_length (later : List PutCall) :
    (replayedKeys keyPrefix (calls ++ later)).length =
      (replayedKeys keyPrefix calls).length + (openedKeys keyPrefix calls later).length := by
  rw [← length_append]
  apply List.Perm.length_eq
  have distinct : (replayedKeys keyPrefix calls ++ openedKeys keyPrefix calls later).Nodup := by
    apply List.Nodup.append (replayedKeys_nodup _ _) ((replayedKeys_nodup _ _).filter _)
    intro logical old new
    rcases (mem_replayedKeys _ _ _).mp old with ⟨_, call, member, rfl⟩
    have fresh : call.logical ∉ calls.map PutCall.logical := by
      simpa using (mem_filter.mp new).2
    exact fresh (mem_map_of_mem member)
  rw [perm_ext_iff_of_nodup (replayedKeys_nodup _ _) distinct]
  intro logical
  rw [mem_append, openedKeys, mem_filter, mem_replayedKeys, mem_replayedKeys, mem_replayedKeys]
  simp only [mem_append, mem_map, decide_eq_true_eq]
  constructor
  · rintro ⟨replayed, call, old | new, rfl⟩
    · exact .inl ⟨replayed, call, old, rfl⟩
    · by_cases known : ∃ other ∈ calls, other.logical = call.logical
      · exact .inl ⟨replayed, known⟩
      · exact .inr ⟨⟨replayed, call, new, rfl⟩, known⟩
  · rintro (⟨replayed, call, old, rfl⟩ | ⟨⟨replayed, call, new, rfl⟩, _⟩)
    · exact ⟨replayed, call, .inl old, rfl⟩
    · exact ⟨replayed, call, .inr new, rfl⟩

section Bounded

variable {asOfNanos : Int64}

variable (first : List PutCall) (ts : TemporalStore) (second : List PutCall) (keyPrefix : Bytes)

theorem replayKey_bounded (positive : 0 < asOfNanos) (logical : Bytes) :
    ts.replayKey asOfNanos logical = ⟨entryAsOf ts asOfNanos logical, false⟩ := by
  rw [replayKey, if_pos positive, entryAsOf, getAsOf]
  cases asOf (ts.listVersions logical) asOfNanos <;> rfl

/-- Everything but the count and the fingerprint is fixed by the bound. -/
theorem replayFingerprint_bounded (positive : 0 < asOfNanos) (keyPrefix : Bytes) :
    ts.replayFingerprint keyPrefix asOfNanos =
      { keyCount := UInt32.ofNat (ts.replayKeys keyPrefix).length
        mismatches := []
        fingerprint := fingerprint ((ts.replayKeys keyPrefix).filterMap (entryAsOf ts asOfNanos))
        bounded := true } := by
  simp [replayFingerprint, replayKey_bounded ts positive, positive]

theorem entryAsOf_called (calls : List PutCall) (logical : Bytes) (entry : Entry)
    (fits : ∀ call ∈ calls, call.source.length < 2 ^ 32) (bounded : countOn logical calls ≤ 2 ^ 64)
    (found : entryAsOf (storeAfter calls) asOfNanos logical = some entry) :
    ∃ call ∈ calls, call.logical = logical := by
  rcases Option.map_eq_some_iff.mp found with ⟨v, answered, _⟩
  have newest := (getAsOf_eq_some_iff calls logical asOfNanos (fun call member _ => fits call member)
    bounded v).mp answered
  rcases (mem_onKey _ _ _).mp newest.1 with ⟨inside, rfl⟩
  rcases mem_written _ calls v inside with ⟨call, member, shape⟩
  exact ⟨call, member, by rw [shape]; rfl⟩

theorem places_nodup :
    (((ts.replayKeys keyPrefix).filterMap (entryAsOf ts asOfNanos)).map Entry.place).Nodup := by
  rw [List.Nodup, pairwise_map]
  refine List.Pairwise.filterMap _ ?_ (replayKeys_nodup ts keyPrefix)
  intro left right different first firstIs second secondIs same
  rcases Option.map_eq_some_iff.mp firstIs with ⟨_, _, rfl⟩
  rcases Option.map_eq_some_iff.mp secondIs with ⟨_, _, rfl⟩
  exact different (congrArg Prod.fst same)

variable (fits : ∀ call ∈ first ++ second, call.source.length < 2 ^ 32)
  (bounded : ∀ logical, countOn logical first ≤ 2 ^ 64 ∧ countOn logical second ≤ 2 ^ 64)
include fits bounded

theorem fingerprint_eq (agree : ∀ logical, Replayed keyPrefix logical →
      entryAsOf (storeAfter first) asOfNanos logical =
        entryAsOf (storeAfter second) asOfNanos logical) :
    fingerprint (((storeAfter first).replayKeys keyPrefix).filterMap
        (entryAsOf (storeAfter first) asOfNanos)) =
      fingerprint (((storeAfter second).replayKeys keyPrefix).filterMap
        (entryAsOf (storeAfter second) asOfNanos)) := by
  have perm : (((storeAfter first).replayKeys keyPrefix).filterMap
      (entryAsOf (storeAfter first) asOfNanos)).Perm
        (((storeAfter second).replayKeys keyPrefix).filterMap
          (entryAsOf (storeAfter second) asOfNanos)) := by
    rw [perm_ext_iff_of_nodup (places_nodup _ _).of_map (places_nodup _ _).of_map]
    intro entry
    simp only [mem_filterMap, mem_replayKeys_iff]
    constructor
    · rintro ⟨logical, ⟨replayed, _⟩, found⟩
      rw [agree logical replayed] at found
      exact ⟨logical, ⟨replayed, entryAsOf_called second logical entry
        (fun call member => fits call (mem_append_right _ member)) (bounded logical).2 found⟩, found⟩
    · rintro ⟨logical, ⟨replayed, _⟩, found⟩
      rw [← agree logical replayed] at found
      exact ⟨logical, ⟨replayed, entryAsOf_called first logical entry
        (fun call member => fits call (mem_append_left _ member)) (bounded logical).1 found⟩, found⟩
  rw [fingerprint, fingerprint, fingerprintStream, fingerprintStream,
    sortEntries_eq_of_perm _ _ perm (places_nodup _ _)]

theorem replayFingerprint_eq_iff (positive : 0 < asOfNanos)
    (agree : ∀ logical, Replayed keyPrefix logical →
      entryAsOf (storeAfter first) asOfNanos logical =
        entryAsOf (storeAfter second) asOfNanos logical) :
    (storeAfter first).replayFingerprint keyPrefix asOfNanos =
        (storeAfter second).replayFingerprint keyPrefix asOfNanos ↔
      (replayedKeys keyPrefix first).length ≡ (replayedKeys keyPrefix second).length [MOD 2 ^ 32] := by
  rw [replayFingerprint_bounded _ positive, replayFingerprint_bounded _ positive,
    fingerprint_eq first second keyPrefix fits bounded agree, replayKeys_length, replayKeys_length]
  simp only [ReplayResult.mk.injEq, and_true]
  rw [← UInt32.toNat_inj, UInt32.toNat_ofNat', UInt32.toNat_ofNat']
  rfl

/-- Keys outside the prefix, with pointer keys outside it, do not come into the replay. -/
theorem entryAsOf_congr (apart : ∀ call ∈ first ++ second, ¬ keyPrefix <+: call.logical →
      ¬ keyPrefix <+: currentStorageKey call.logical)
    (same : ∀ v, keyPrefix <+: v.logicalKey → v.writeNanos ≤ asOfNanos →
      (v ∈ recordsOf first ↔ v ∈ recordsOf second)) (logical : Bytes)
    (replayed : Replayed keyPrefix logical) :
    entryAsOf (storeAfter first) asOfNanos logical =
      entryAsOf (storeAfter second) asOfNanos logical := by
  have fitsFirst : ∀ call ∈ first, call.source.length < 2 ^ 32 :=
    fun call member => fits call (mem_append_left _ member)
  have fitsSecond : ∀ call ∈ second, call.source.length < 2 ^ 32 :=
    fun call member => fits call (mem_append_right _ member)
  by_cases under : keyPrefix <+: logical
  · have answers : (storeAfter first).getAsOf logical asOfNanos =
        (storeAfter second).getAsOf logical asOfNanos := by
      ext v
      rw [getAsOf_eq_some_iff first logical asOfNanos (fun call member _ => fitsFirst call member)
          (bounded logical).1,
        getAsOf_eq_some_iff second logical asOfNanos (fun call member _ => fitsSecond call member)
          (bounded logical).2]
      apply newestVisible_congr
      intro w visible
      rw [mem_onKey, mem_onKey]
      constructor
      · rintro ⟨inside, rfl⟩
        exact ⟨(same w under visible).mp inside, rfl⟩
      · rintro ⟨inside, rfl⟩
        exact ⟨(same w under visible).mpr inside, rfl⟩
    rw [entryAsOf, answers, entryAsOf]
  · -- No call of either run is on such a key.
    have silent : ∀ call ∈ first ++ second, call.logical ≠ logical := by
      rintro call member rfl
      exact apart call member under replayed.pointer_prefix
    have none : ∀ calls, calls ⊆ first ++ second → countOn logical calls ≤ 2 ^ 64 →
        entryAsOf (storeAfter calls) asOfNanos logical = none := by
      intro calls inside small
      apply Option.eq_none_iff_forall_ne_some.mpr
      intro entry found
      rcases entryAsOf_called calls logical entry (fun call member => fits call (inside member)) small
        found with ⟨call, member, here⟩
      exact silent call (inside member) here
    rw [none first (subset_append_left _ _) (bounded logical).1,
      none second (subset_append_right _ _) (bounded logical).2]

end Bounded

/-- Runs with the same records under the prefix up to the bound have the same bounded replay exactly
if they have equally many scanned keys, in the 32 bits of the count; and calls of later times leave the
replay as it is exactly if they write no new scanned key. -/
theorem bounded_replay_reproducible (keyPrefix : Bytes) (asOfNanos : Int64) (positive : 0 < asOfNanos) :
    (∀ first second : List PutCall, (∀ call ∈ first ++ second, call.source.length < 2 ^ 32) →
      (∀ logical, countOn logical first ≤ 2 ^ 64 ∧ countOn logical second ≤ 2 ^ 64) →
      (∀ call ∈ first ++ second, ¬ keyPrefix <+: call.logical →
        ¬ keyPrefix <+: currentStorageKey call.logical) →
      (∀ v, keyPrefix <+: v.logicalKey → v.writeNanos ≤ asOfNanos →
        (v ∈ recordsOf first ↔ v ∈ recordsOf second)) →
      ((storeAfter first).replayFingerprint keyPrefix asOfNanos =
          (storeAfter second).replayFingerprint keyPrefix asOfNanos ↔
        (replayedKeys keyPrefix first).length ≡
          (replayedKeys keyPrefix second).length [MOD 2 ^ 32])) ∧
    ∀ calls later : List PutCall, (∀ call ∈ calls ++ later, call.source.length < 2 ^ 32) →
      (∀ logical, countOn logical (calls ++ later) ≤ 2 ^ 64) →
      (∀ call ∈ later, asOfNanos < call.writeNanos) →
      ((storeAfter (calls ++ later)).replayFingerprint keyPrefix asOfNanos =
          (storeAfter calls).replayFingerprint keyPrefix asOfNanos ↔
        2 ^ 32 ∣ (openedKeys keyPrefix calls later).length) := by
  constructor
  · intro first second fits bounded apart same
    apply replayFingerprint_eq_iff first second keyPrefix fits bounded positive
    exact entryAsOf_congr first second keyPrefix fits bounded apart same
  · intro calls later fits bounded future
    have before : ∀ logical, countOn logical calls ≤ 2 ^ 64 := by
      intro logical
      apply le_trans _ (bounded logical)
      rw [countOn, countOn, countP_append]
      exact Nat.le_add_right _ _
    have fitsBoth : ∀ call ∈ (calls ++ later) ++ calls, call.source.length < 2 ^ 32 :=
      forall_mem_append.mpr ⟨fits, fun call old => fits call (mem_append_left _ old)⟩
    rw [replayFingerprint_eq_iff (calls ++ later) calls keyPrefix fitsBoth
      (fun logical => ⟨bounded logical, before logical⟩) positive]
    · rw [replayedKeys_append_length, ← Nat.modEq_zero_iff_dvd]
      nth_rewrite 2 [← Nat.add_zero (replayedKeys keyPrefix calls).length]
      exact ⟨Nat.ModEq.add_left_cancel' _, Nat.ModEq.add_left _⟩
    · intro logical _
      rw [entryAsOf, entryAsOf, (asOf_answer_stable calls later logical asOfNanos
        (fun call member _ => fits call member) (bounded logical)).2.2 future]

/-- A later put on an old key, and one on a key outside of the prefix. -/
theorem bounded_replay_reproducible_later :
    let calls : List PutCall := [⟨ascii ['p', '/', 'a'], ascii ['1'], 1, [], 0⟩]
    let later : List PutCall := [⟨ascii ['p', '/', 'a'], ascii ['2'], 9, [], 0⟩,
      ⟨ascii ['q'], ascii ['3'], 9, [], 0⟩]
    (storeAfter (calls ++ later)).replayFingerprint (ascii ['p', '/']) 5 =
      (storeAfter calls).replayFingerprint (ascii ['p', '/']) 5 := by
  intro calls later
  have bounded : ∀ logical, countOn logical (calls ++ later) ≤ 2 ^ 64 := fun logical =>
    le_trans countP_le_length (by decide)
  have iff := (bounded_replay_reproducible (ascii ['p', '/']) 5 (by decide)).2 calls later (by decide)
    bounded (by decide)
  exact iff.mpr (by decide +kernel)

/-- A key that is written first after the bound is counted. -/
theorem bounded_replay_counts_later :
    let calls : List PutCall := [⟨ascii ['p', '/', 'a'], ascii ['1'], 1, [], 0⟩]
    let later : List PutCall := [⟨ascii ['p', '/', 'b'], ascii ['2'], 9, [], 0⟩]
    ((storeAfter calls).replayFingerprint (ascii ['p', '/']) 5).keyCount = 1 ∧
      ((storeAfter (calls ++ later)).replayFingerprint (ascii ['p', '/']) 5).keyCount = 2 := by
  decide +kernel

end KairosFlux.Service
