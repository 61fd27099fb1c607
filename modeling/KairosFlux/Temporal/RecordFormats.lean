import Mathlib.Data.Nat.Bitwise
import KairosFlux.Lib.Checked
import KairosFlux.Temporal.Record

/-! The two formats of a stored version (`internal/temporal/temporal.go`). They share one byte space, and
the highest bit of the first word tells them apart. Here the decoders test the bounds of every slice
they take. -/

namespace KairosFlux.Temporal.Indexed

open Lib Lib.Checked

def decodeVersionValue (raw : Bytes) : Checked (Int64 × Bytes) := do
  require (8 ≤ raw.length)
  let writeNanos ← uintAt raw 0 8
  let payload ← bytesFrom raw 8
  pure (Int64.ofUInt64 (UInt64.ofNat writeNanos), payload)

def decodeEnvelope (raw : Bytes) : Checked Version := do
  require (16 + 4 ≤ raw.length)
  let off := 8
  let writeNanos ← uintAt raw off 8
  let off := off + 8
  let sourceLen ← uintAt raw off 4
  let off := off + 4
  require (off + sourceLen + 4 + 2 ≤ raw.length)
  let source ← bytesAt raw off sourceLen
  let off := off + sourceLen
  let schemaVer ← uintAt raw off 4
  let off := off + 4
  let hashLen ← uintAt raw off 2
  let off := off + 2
  require (off + hashLen ≤ raw.length)
  let hash ← bytesAt raw off hashLen
  let off := off + hashLen
  let payload ← bytesFrom raw off
  pure ⟨[], 0, Int64.ofUInt64 (UInt64.ofNat writeNanos), payload, source, UInt32.ofNat schemaVer, hash⟩

def decodeVersionRecord (raw : Bytes) : Checked Version := do
  require (8 ≤ raw.length)
  let marker ← uintAt raw 0 8
  if marker &&& envelopeMarkerBit = 0 then do
    let old ← decodeVersionValue raw
    pure ⟨[], 0, old.1, old.2, [], 0, []⟩
  else decodeEnvelope raw

variable (raw : Bytes)

theorem decodeVersionValue_eq :
    decodeVersionValue raw = ofOption (Temporal.decodeVersionValue raw) := by
  apply require_bind_ofOption (by omega)
  intro long
  rw [uintAt_slice (by omega), ok_bind, bytesFrom_inside long, ok_bind]
  rfl

theorem decodeVersionRecord_eq :
    decodeVersionRecord raw = ofOption (Temporal.decodeVersionRecord raw) := by
  apply require_bind_ofOption (by omega)
  intro long
  rw [uintAt_slice (by omega), ok_bind, decodeVersionValue_eq]
  simp only [Nat.zero_add]
  by_cases old : leValue (slice raw 0 8) &&& envelopeMarkerBit = 0
  · rw [if_pos old, if_pos old]
    cases Temporal.decodeVersionValue raw with
    | none | some => rfl
  · rw [if_neg old, if_neg old, decodeEnvelope]
    simp only [Nat.add_assoc, Nat.reduceAdd]
    apply require_bind_ofOption (by omega)
    intro head
    rw [uintAt_slice (by omega), ok_bind, uintAt_slice (by omega), ok_bind]
    simp only [Nat.reduceAdd]
    apply require_bind_ofOption (by omega)
    intro sourceRoom
    rw [bytesAt_slice (by omega), ok_bind, uintAt_slice (by omega), ok_bind, uintAt_slice (by omega),
      ok_bind]
    simp only [Nat.add_assoc, Nat.reduceAdd]
    apply require_bind_ofOption (by omega)
    intro hashRoom
    rw [bytesAt_slice (by omega), ok_bind, bytesFrom_inside (by omega), ok_bind]
    simp only [Nat.add_assoc, pure_eq_ok, ofOption_some]

theorem nanos_lt_marker (writeNanos : Int64) (past : 0 ≤ writeNanos) :
    writeNanos.toUInt64.toNat < envelopeMarkerBit := by
  have sign := Int64.le_iff_toInt_le.mp past
  have value : writeNanos.toInt = writeNanos.toUInt64.toBitVec.toInt := rfl
  rw [value, BitVec.toInt_eq_toNat_cond] at sign
  have zero : (0 : Int64).toInt = 0 := rfl
  rw [zero] at sign
  have bound := writeNanos.toUInt64.toNat_lt
  show writeNanos.toUInt64.toBitVec.toNat < 2 ^ 63
  split_ifs at sign with small
  · omega
  · have top := writeNanos.toUInt64.toBitVec.isLt
    omega

theorem and_marker_eq_zero (word : Nat) (small : word < envelopeMarkerBit) :
    word &&& envelopeMarkerBit = 0 := by
  rw [envelopeMarkerBit, Nat.and_two_pow, Nat.testBit_lt_two_pow small]
  rfl

variable (v : Version) (writeNanos : Int64) (payload : Bytes) (past : 0 ≤ writeNanos)
include past

theorem decodeVersionRecord_encodeVersionValue :
    Temporal.decodeVersionRecord (encodeVersionValue writeNanos payload) =
      some ⟨[], 0, writeNanos, payload, [], 0, []⟩ := by
  have long : ¬ (encodeVersionValue writeNanos payload).length < 8 := by
    rw [encodeVersionValue, List.length_append, leBytes_length]
    omega
  obtain ⟨word, rest⟩ := slice_drop (show (encodeVersionValue writeNanos payload).drop 0 =
    leBytes 8 writeNanos.toUInt64.toNat ++ payload from rfl) ((Nat.zero_add _).trans (leBytes_length 8 _))
  have value : leValue (leBytes 8 writeNanos.toUInt64.toNat) = writeNanos.toUInt64.toNat := by
    rw [leValue_leBytes, Nat.mod_eq_of_lt (show _ < 256 ^ 8 from writeNanos.toUInt64.toNat_lt)]
  have unmarked := and_marker_eq_zero _ (nanos_lt_marker writeNanos past)
  simp only [Temporal.decodeVersionRecord, Temporal.decodeVersionValue, if_neg long, word, value, rest,
    if_pos unmarked, UInt64.ofNat_toNat]

/-- The first words differ in the marker bit. -/
theorem encodeVersionRecord_ne_encodeVersionValue :
    encodeVersionRecord v ≠ encodeVersionValue writeNanos payload := by
  intro same
  have words : leBytes 8 (envelopeMarkerBit ||| envelopeVersion1) =
      leBytes 8 writeNanos.toUInt64.toNat :=
    (List.append_inj same (by simp only [leBytes_length])).1
  have values := congrArg leValue words
  rw [leValue_leBytes, leValue_leBytes,
    Nat.mod_eq_of_lt (show _ < 256 ^ 8 from writeNanos.toUInt64.toNat_lt)] at values
  have unmarked := nanos_lt_marker writeNanos past
  rw [← values] at unmarked
  exact absurd unmarked (by decide)

omit past

/-- Both formats read back, no bytes are of both, and no bytes lead the decoder outside. -/
theorem version_formats_apart :
    (∀ v : Version, v.source.length < 2 ^ 32 → v.persistedHash.length < 2 ^ 16 →
        decodeVersionRecord (encodeVersionRecord v) = ok v.stored) ∧
      (∀ writeNanos : Int64, 0 ≤ writeNanos → ∀ payload,
        decodeVersionRecord (encodeVersionValue writeNanos payload) =
          ok ⟨[], 0, writeNanos, payload, [], 0, []⟩) ∧
      (∀ (v : Version) (writeNanos : Int64) (payload : Bytes), 0 ≤ writeNanos →
        encodeVersionRecord v ≠ encodeVersionValue writeNanos payload) ∧
      Total decodeVersionRecord := by
  refine ⟨?_, ?_, encodeVersionRecord_ne_encodeVersionValue, Total.of_eq decodeVersionRecord_eq⟩
  · intro v sourceFits hashFits
    rw [decodeVersionRecord_eq, decodeVersionRecord_encodeVersionRecord v sourceFits hashFits,
      ofOption_some]
  · intro writeNanos past payload
    rw [decodeVersionRecord_eq, decodeVersionRecord_encodeVersionValue writeNanos payload past,
      ofOption_some]

end KairosFlux.Temporal.Indexed
