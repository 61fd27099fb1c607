import KairosFlux.Proto.ListWrites
import KairosFlux.Service.ReadHandlers

/-! The response of a replay as the client reads it (`proto/temporal_frame.go`,
`handleReplayFingerprint` in `service/router_v2.go`). A logical key may be longer than its length field
in the response can say, and the mark of a bounded replay is recognised by what is left over. -/

namespace KairosFlux.Proto

open Lib Lib.Checked

structure ReplayFingerprintView where
  keyCount : UInt32
  mismatchCount : UInt32
  fingerprint : Bytes
  mismatchKeys : List Bytes
  bounded : Bool
  deriving DecidableEq

def decodeMismatchAt (body : Bytes) (off : Nat) : Checked (Bytes × Nat) := do
  require (off + 2 ≤ body.length)
  let n ← uintAt body off 2
  let off := off + 2
  require (off + n ≤ body.length)
  let key ← bytesAt body off n
  pure (key, off + n)

def decodeBounded (body : Bytes) (off : Nat) : Checked Bool := do
  if off < body.length then do
    let mark ← uintAt body off 1
    pure (decide (mark ≠ 0))
  else pure false

-- A string takes two words.
def decodeReplayFingerprintResponse (body : Bytes) : Checked ReplayFingerprintView := do
  require (10 ≤ body.length)
  let keyCount ← uintAt body 0 4
  let mismatchCount ← uintAt body 4 4
  let fpLen ← uintAt body 8 2
  let off := 10
  require (off + fpLen ≤ body.length)
  let fingerprint ← bytesAt body off fpLen
  let off := off + fpLen
  reserve 16 mismatchCount
  let keys ← readCounted (decodeMismatchAt body) mismatchCount off
  let bounded ← decodeBounded body keys.2
  pure ⟨UInt32.ofNat keyCount, UInt32.ofNat mismatchCount, fingerprint, keys.1, bounded⟩

theorem decodeMismatchAt_short (body : Bytes) (off : Nat) (key : Bytes) (stop : Nat)
    (read : decodeMismatchAt body off = ok (key, stop)) : key.length < 2 ^ 16 := by
  simp only [decodeMismatchAt, bind_eq_ok_iff] at read
  rcases read with ⟨_, long, n, len, _, room, taken, bytes, done⟩
  cases done
  rw [require_eq_ok_iff] at long room
  have small := Safe.uintAt long
  rw [len] at small
  have bound : n < 256 ^ 2 := small
  rw [bytesAt_inside room] at bytes
  cases bytes
  rw [List.length_take]
  omega

theorem decodeReplayFingerprintResponse_short (body : Bytes) (view : ReplayFingerprintView)
    (read : decodeReplayFingerprintResponse body = ok view) :
    view.mismatchKeys.length < 2 ^ 32 ∧ ∀ key ∈ view.mismatchKeys, key.length < 2 ^ 16 := by
  simp only [decodeReplayFingerprintResponse, bind_eq_ok_iff] at read
  rcases read with ⟨_, long, _, _, count, counted, fpLen, _, _, _, _, _, _, _, keys, list, _, _, done⟩
  cases done
  rw [require_eq_ok_iff] at long
  have small : Safe (uintAt body 4 4) fun value => value < 256 ^ 4 := Safe.uintAt (by omega)
  rw [counted] at small
  have bound : count < 256 ^ 4 := small
  have read := readCounted_all (decodeMismatchAt_short body) count (10 + fpLen) keys.1 keys.2 list
  exact ⟨show keys.1.length < 2 ^ 32 by omega, read.2⟩

theorem decodeMismatchAt_encode (body key : Bytes) (fits : key.length < 2 ^ 16) (off : Nat)
    (rest : Bytes) (atKey : Remains body off (encodeMismatch key ++ rest)) :
    decodeMismatchAt body off = ok (key, off + (encodeMismatch key).length) := by
  have total := encodeMismatch_length key
  simp only [encodeMismatch, List.append_assoc] at atKey
  have behind := atKey.next_uint
  have size := behind.length
  rw [List.length_append] at size
  simp only [decodeMismatchAt]
  rw [require_pos (by omega), ok_bind, atKey.uintAt (by omega), ok_bind, require_pos (by omega), ok_bind,
    behind.bytesAt, ok_bind, total, pure_eq_ok, Nat.add_assoc]

theorem decodeReplayFingerprintResponse_encode (keyCount : UInt32) (fingerprint : Bytes)
    (keys : List Bytes) (tail : Bytes) (fpFits : fingerprint.length < 2 ^ 16)
    (count : keys.length < 2 ^ 32) (fits : ∀ key ∈ keys, key.length < 2 ^ 16) (bounded : Bool)
    (mark : ∀ body off, Remains body off tail → decodeBounded body off = ok bounded) :
    decodeReplayFingerprintResponse
        (encodeReplayFingerprintResponse keyCount (UInt32.ofNat keys.length) fingerprint keys ++ tail) =
      ok ⟨keyCount, UInt32.ofNat keys.length, fingerprint, keys, bounded⟩ := by
  have whole : (UInt32.ofNat keys.length).toNat = keys.length := by
    rw [UInt32.toNat_ofNat', Nat.mod_eq_of_lt (by omega)]
  generalize shape :
    encodeReplayFingerprintResponse keyCount (UInt32.ofNat keys.length) fingerprint keys ++ tail = body
  have atKeyCount := Remains.start body
  nth_rewrite 2 [← shape] at atKeyCount
  simp only [encodeReplayFingerprintResponse, whole, List.append_assoc] at atKeyCount
  have atCount : Remains body 4 _ := atKeyCount.next_uint
  have atFpLen : Remains body 8 _ := atCount.next_uint
  have atFingerprint : Remains body 10 _ := atFpLen.next_uint
  have atKeys := atFingerprint.next
  have atTail := atKeys.next
  have size := atTail.length
  have back : ∀ key ∈ keys, ∀ off rest, Remains body off (encodeMismatch key ++ rest) →
      decodeMismatchAt body off = ok (key, off + (encodeMismatch key).length) :=
    fun key member => decodeMismatchAt_encode body key (fits key member)
  simp only [decodeReplayFingerprintResponse]
  rw [require_pos (by omega), ok_bind, atKeyCount.uintAt (uint32_fits _), ok_bind,
    atCount.uintAt (by omega), ok_bind, atFpLen.uintAt (by omega), ok_bind, require_pos (by omega),
    ok_bind, atFingerprint.bytesAt, ok_bind, reserve_inside (by omega), ok_bind,
    Remains.readCounted keys back _ tail atKeys, ok_bind, mark body _ atTail, ok_bind,
    UInt32.ofNat_toNat, pure_eq_ok]

end KairosFlux.Proto

namespace KairosFlux.Service

open Lib Lib.Checked Proto

namespace ReplayResult

variable (result : ReplayResult)

def oldBody : Bytes :=
  encodeReplayFingerprintResponse result.keyCount (UInt32.ofNat result.mismatches.length)
    result.fingerprint result.mismatches

/-- The client reads the result out of the body, with this mark. -/
def ReadFrom (body : Bytes) (bounded : Bool) : Prop :=
  ∃ view, decodeReplayFingerprintResponse body = ok view ∧ view.keyCount = result.keyCount ∧
    view.mismatchKeys = result.mismatches ∧ view.fingerprint = result.fingerprint ∧
    view.bounded = bounded

/-- The list and each of its keys are as long as their length fields can say. -/
def Fits : Prop := result.mismatches.length < 2 ^ 32 ∧ ∀ key ∈ result.mismatches, key.length < 2 ^ 16

variable {result}

theorem ReadFrom.fits {body : Bytes} {bounded : Bool} (read : result.ReadFrom body bounded) :
    result.Fits := by
  rcases read with ⟨view, decoded, _, keys, _, _⟩
  have short := decodeReplayFingerprintResponse_short body view decoded
  rw [keys] at short
  exact short

theorem Fits.readFrom (fits : result.Fits) (fingerprint : result.fingerprint.length < 2 ^ 16)
    (tail : Bytes) (bounded : Bool)
    (mark : ∀ body off, Remains body off tail → decodeBounded body off = ok bounded) :
    result.ReadFrom (result.oldBody ++ tail) bounded := by
  have decoded := decodeReplayFingerprintResponse_encode result.keyCount result.fingerprint
    result.mismatches tail fingerprint fits.1 fits.2 bounded mark
  exact ⟨_, decoded, rfl, rfl, rfl, rfl⟩

end ReplayResult

/-- A replay result is read back in both generations if and only if the list and its keys fit their
length fields. -/
theorem replay_survives_wire_iff (result : ReplayResult)
    (fingerprint : result.fingerprint.length < 2 ^ 16) :
    (result.ReadFrom (ReadResult.replay result).body result.bounded ∧
      result.ReadFrom result.oldBody false) ↔ result.Fits := by
  constructor
  · intro survives
    exact survives.2.fits
  · intro fits
    constructor
    · apply fits.readFrom fingerprint (leBytes 1 result.bounded.toNat)
      intro body off atMark
      have size := atMark.length
      rw [leBytes_length] at size
      cases bounded : result.bounded with
      | false | true =>
        rw [bounded] at atMark
        rw [decodeBounded, if_pos (by omega), atMark.uintAt_last (by decide)]
        rfl
    · have read := fits.readFrom fingerprint [] false (by
        intro body off atEnd
        have size := atEnd.length
        rw [List.length_nil] at size
        rw [decodeBounded, if_neg (by omega)]
        rfl)
      rw [List.append_nil] at read
      exact read

/-- Two keys of which one did not match, in a replay with an upper time. -/
theorem replay_survives_wire_one_mismatch :
    let result : ReplayResult := ⟨2, [ascii "k".toList], ascii "f0".toList, true⟩
    result.ReadFrom (ReadResult.replay result).body true ∧ result.ReadFrom result.oldBody false := by
  intro result
  have fits : result.Fits := ⟨by decide, by decide⟩
  exact (replay_survives_wire_iff result (by decide)).mpr fits

/-- The length field of a key of 65536 bytes says zero. -/
theorem replay_loses_long_key :
    let result : ReplayResult := ⟨1, [List.replicate 65536 107], ascii "f0".toList, false⟩
    ¬ (result.ReadFrom (ReadResult.replay result).body result.bounded ∧
      result.ReadFrom result.oldBody false) := by
  intro result survives
  have short := survives.2.fits.2 _ (.head _)
  rw [List.length_replicate] at short
  omega

end KairosFlux.Service
