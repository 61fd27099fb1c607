import KairosFlux.Proto.ReadFrames
import KairosFlux.Service.RouterV2

/-! The other sides of `PUT_VERSIONED` and `GET_AS_OF` (`proto/put_frame.go`, `proto/temporal_frame.go`,
`proto/v2_response.go`): what a client puts into a request and what it takes out of a response. -/

namespace KairosFlux.Proto

open Lib Kairnet Service List

/-- `[keyLen u32][valueLen u32][key][value]`. -/
def encodePutFrame (key value : Bytes) : Bytes :=
  leBytes 4 key.length ++ (leBytes 4 value.length ++ (key ++ value))

/-- A source that is not empty follows as `[sourceLen u32][source]`. -/
def encodePutVersionedFrame (key value source : Bytes) : Bytes :=
  if source = [] then encodePutFrame key value
  else encodePutFrame key value ++ (leBytes 4 source.length ++ source)

-- Whether there is a source is told by what is left behind the value.
def decodePutVersionedFrame (data : Bytes) : Option (Bytes × Bytes × Bytes) :=
  match decodePutFrame data with
  | none => none
  | some (key, value) =>
    let rest := data.drop (8 + key.length + value.length)
    if rest.length = 0 then some (key, value, [])
    else if rest.length < 4 then none
    else
      let sourceLen := leValue (slice rest 0 4)
      if 4 + sourceLen ≠ rest.length then none
      else some (key, value, slice rest 4 (4 + sourceLen))

/-- `[keyLen u32][key][asOfNanos u64]`. -/
def encodeAsOfFrame (key : Bytes) (asOfNanos : Int64) : Bytes :=
  leBytes 4 key.length ++ (key ++ nanosBytes asOfNanos)

/-- The last number is how many bytes were read. -/
def decodeVersionEntry (data : Bytes) : Option (UInt64 × Int64 × Bytes × Nat) :=
  if data.length < 20 then none
  else
    let n := leValue (slice data 16 20)
    if data.length < 20 + n then none
    else
      some (UInt64.ofNat (leValue (slice data 0 8)), nanosOf (leValue (slice data 8 16)),
        slice data 20 (20 + n), 20 + n)

def decodeV2ErrPayload (payload : Bytes) : Option (UInt16 × Bytes) :=
  if payload.length < 4 then none
  else
    let n := leValue (slice payload 2 4)
    if payload.length < 4 + n then none
    else some (UInt16.ofNat (leValue (slice payload 0 2)), slice payload 4 (4 + n))

@[simp] theorem encodePutFrame_length (key value : Bytes) :
    (encodePutFrame key value).length = 8 + key.length + value.length := by
  simp only [encodePutFrame, length_append, leBytes_length]
  omega

@[simp] theorem encodeAsOfFrame_length (key : Bytes) (asOfNanos : Int64) :
    (encodeAsOfFrame key asOfNanos).length = 12 + key.length := by
  simp only [encodeAsOfFrame, length_append, leBytes_length, nanosBytes_length]
  omega

theorem encodePutVersionedFrame_length (key value source : Bytes) :
    (encodePutVersionedFrame key value source).length =
      8 + key.length + value.length + if source = [] then 0 else 4 + source.length := by
  rw [encodePutVersionedFrame]
  split_ifs with none
  · exact encodePutFrame_length key value
  · simp [Nat.add_assoc]

theorem decodePutFrame_encode (key value rest : Bytes) (keyFits : key.length < 256 ^ 4)
    (valueFits : value.length < 256 ^ 4) :
    decodePutFrame (encodePutFrame key value ++ rest) = some (key, value) := by
  obtain ⟨keyLen, left⟩ := slice_drop (show (encodePutFrame key value ++ rest).drop 0 =
    leBytes 4 key.length ++ (leBytes 4 value.length ++ (key ++ (value ++ rest))) by
      simp only [encodePutFrame, append_assoc, drop_zero]) (by simp : _ = 4)
  obtain ⟨valueLen, left⟩ := slice_drop left (by simp : _ = 8)
  obtain ⟨keyPart, left⟩ := slice_drop left rfl
  have valuePart := (slice_drop left rfl).1
  have long : (encodePutFrame key value ++ rest).length =
      8 + key.length + value.length + rest.length := by simp
  simp only [decodePutFrame, keyLen, valueLen, leValue_leBytes_of_lt keyFits,
    leValue_leBytes_of_lt valueFits, keyPart, valuePart]
  rw [if_neg (by omega), if_neg (by omega)]

theorem decodePutVersionedFrame_encode (key value source : Bytes) (keyFits : key.length < 256 ^ 4)
    (valueFits : value.length < 256 ^ 4) (sourceFits : source.length < 256 ^ 4) :
    decodePutVersionedFrame (encodePutVersionedFrame key value source) =
      some (key, value, source) := by
  rw [encodePutVersionedFrame]
  split_ifs with none
  · have put := decodePutFrame_encode key value [] keyFits valueFits
    rw [append_nil] at put
    have rest : (encodePutFrame key value).drop (8 + key.length + value.length) = [] :=
      drop_eq_nil_of_le (encodePutFrame_length key value).le
    simp only [decodePutVersionedFrame, put, rest, none, length_nil, if_true]
  · have put := decodePutFrame_encode key value (leBytes 4 source.length ++ source) keyFits valueFits
    have rest : (encodePutFrame key value ++ (leBytes 4 source.length ++ source)).drop
        (8 + key.length + value.length) = leBytes 4 source.length ++ source := by
      rw [← encodePutFrame_length key value, drop_left]
    have length : (leBytes 4 source.length ++ source).length = 4 + source.length := by simp
    obtain ⟨sourceLen, left⟩ := slice_drop
      (show (leBytes 4 source.length ++ source).drop 0 = _ from rfl) (by simp : _ = 4)
    have sourcePart := slice_drop_last left rfl
    simp only [decodePutVersionedFrame, put, rest, length, sourceLen,
      leValue_leBytes_of_lt sourceFits, sourcePart, ne_eq, not_true_eq_false, if_false]
    rw [if_neg (by omega), if_neg (by omega)]

theorem decodeAsOfFrame_encode (key : Bytes) (asOfNanos : Int64) (keyFits : key.length < 256 ^ 4) :
    decodeAsOfFrame (encodeAsOfFrame key asOfNanos) = some (key, asOfNanos) := by
  obtain ⟨keyLen, left⟩ := slice_drop (show (encodeAsOfFrame key asOfNanos).drop 0 = _ from rfl)
    (by simp : _ = 4)
  obtain ⟨keyPart, left⟩ := slice_drop left rfl
  have nanosPart := slice_drop_last left (by simp : _ = 4 + key.length + 8)
  have long := encodeAsOfFrame_length key asOfNanos
  have nanosValue : nanosOf (leValue (nanosBytes asOfNanos)) = asOfNanos := by
    rw [nanosBytes, leValue_leBytes_of_lt (uint64_fits _), nanosOf_toUInt64]
  simp only [decodeAsOfFrame, keyLen, leValue_leBytes_of_lt keyFits, keyPart, nanosPart, nanosValue]
  rw [if_neg (by omega), if_neg (by omega)]

theorem decodeVersionEntry_encode (seq : UInt64) (writeNanos : Int64) (payload : Bytes)
    (fits : payload.length < 256 ^ 4) :
    decodeVersionEntry (encodeVersionEntry seq writeNanos payload) =
      some (seq, writeNanos, payload, 20 + payload.length) := by
  obtain ⟨seqPart, left⟩ := slice_drop
    (show (encodeVersionEntry seq writeNanos payload).drop 0 = _ from rfl) (by simp : _ = 8)
  obtain ⟨nanosPart, left⟩ := slice_drop left (by simp : _ = 16)
  obtain ⟨lengthPart, left⟩ := slice_drop left (by simp : _ = 20)
  have payloadPart := slice_drop_last left rfl
  have long := encodeVersionEntry_length seq writeNanos payload
  have nanosValue : nanosOf (leValue (nanosBytes writeNanos)) = writeNanos := by
    rw [nanosBytes, leValue_leBytes_of_lt (uint64_fits _), nanosOf_toUInt64]
  simp only [decodeVersionEntry, seqPart, nanosPart, lengthPart, payloadPart, nanosValue,
    leValue_leBytes_of_lt (uint64_fits seq), UInt64.ofNat_toNat,
    leValue_leBytes_of_lt fits]
  rw [if_neg (by omega), if_neg (by omega)]

end KairosFlux.Proto
