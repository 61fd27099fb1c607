import KairosFlux.Proto.ListWrites

/-! The payloads of the other reads (`proto/scan.go`, `proto/temporal_frame.go`): what the server takes
out of a request and what it puts into a response. -/

namespace KairosFlux.Proto

open Lib List

def scanReqHeaderLen : Nat := 13

def statusOK : Bytes := ascii "ok".toList

structure Predicate where
  field : Bytes
  op : UInt8
  operand : Bytes
  deriving DecidableEq

structure ScanRequest where
  start : Bytes
  stop : Bytes
  pred : Predicate
  deriving DecidableEq

def decodeScanRequest (data : Bytes) : Option ScanRequest :=
  if data.length < scanReqHeaderLen then none
  else
    let startLen := leValue (slice data 0 4)
    let endLen := leValue (slice data 4 8)
    let fieldLen := leValue (slice data 8 12)
    let op := data.getD 12 0
    let off := scanReqHeaderLen
    if data.length < off + startLen + endLen + fieldLen then none
    else
      let start := slice data off (off + startLen)
      let off := off + startLen
      let stop := slice data off (off + endLen)
      let off := off + endLen
      let field := slice data off (off + fieldLen)
      let off := off + fieldLen
      some ⟨start, stop, ⟨field, op, data.drop off⟩⟩

/-- `[keyLen u32][valueLen u32][key][value]`. -/
def encodeScanEntry (entry : Bytes × Bytes) : Bytes :=
  leBytes 4 entry.1.length ++ (leBytes 4 entry.2.length ++ (entry.1 ++ entry.2))

/-- `[statusLen u8][status][count u32][entry...]`. -/
def encodeScanResponse (status : Bytes) (entries : List (Bytes × Bytes)) : Bytes :=
  UInt8.ofNat status.length ::
    (status ++ (leBytes 4 entries.length ++ (entries.map encodeScanEntry).flatten))

def decodeAsOfFrame (data : Bytes) : Option (Bytes × Int64) :=
  if data.length < 4 then none
  else
    let keyLen := leValue (slice data 0 4)
    if data.length < 4 + keyLen + 8 then none
    else
      some (slice data 4 (4 + keyLen), nanosOf (leValue (slice data (4 + keyLen) (4 + keyLen + 8))))

/-- `[seq u64][writeNanos u64][payloadLen u32][payload]`. -/
def encodeVersionEntry (seq : UInt64) (writeNanos : Int64) (payload : Bytes) : Bytes :=
  leBytes 8 seq.toNat ++ (nanosBytes writeNanos ++ (leBytes 4 payload.length ++ payload))

def encodeListVersionsResponse (entries : List Bytes) : Bytes :=
  leBytes 4 entries.length ++ entries.flatten

-- What is behind the prefix is told apart by its length.
def decodeReplayFingerprintRequest (data : Bytes) : Option (Bytes × Int64) :=
  if data.length < 4 then none
  else
    let prefixLen := leValue (slice data 0 4)
    if data.length < 4 + prefixLen then none
    else
      let keyPrefix := slice data 4 (4 + prefixLen)
      let rest := data.length - (4 + prefixLen)
      if rest = 0 then some (keyPrefix, 0)
      else if rest = 8 then
        some (keyPrefix, nanosOf (leValue (slice data (4 + prefixLen) (4 + prefixLen + 8))))
      else none

/-- `[len u16][key]`. -/
def encodeMismatch (key : Bytes) : Bytes := leBytes 2 key.length ++ key

/-- `[keyCount u32][mismatchCount u32][fingerprintLen u16][fingerprint][mismatch...]`. -/
def encodeReplayFingerprintResponse (keyCount mismatchCount : UInt32) (fingerprint : Bytes)
    (mismatchKeys : List Bytes) : Bytes :=
  leBytes 4 keyCount.toNat ++
    (leBytes 4 mismatchCount.toNat ++
      (leBytes 2 fingerprint.length ++ (fingerprint ++ (mismatchKeys.map encodeMismatch).flatten)))

def encodeReplayFingerprintResponseV2 (keyCount mismatchCount : UInt32) (fingerprint : Bytes)
    (mismatchKeys : List Bytes) (bounded : Bool) : Bytes :=
  encodeReplayFingerprintResponse keyCount mismatchCount fingerprint mismatchKeys ++
    leBytes 1 bounded.toNat

theorem length_flatten_map {Item : Type} (items : List Item) (encode : Item → Bytes)
    (size : Item → Nat) (each : ∀ item, (encode item).length = size item) :
    (items.map encode).flatten.length = (items.map size).sum := by
  rw [length_flatten, map_map]
  exact congrArg List.sum (map_congr_left fun item _ => each item)

theorem encodeScanEntry_length (entry : Bytes × Bytes) :
    (encodeScanEntry entry).length = 8 + entry.1.length + entry.2.length := by
  simp only [encodeScanEntry, length_append, leBytes_length]
  omega

theorem encodeVersionEntry_length (seq : UInt64) (writeNanos : Int64) (payload : Bytes) :
    (encodeVersionEntry seq writeNanos payload).length = 20 + payload.length := by
  simp only [encodeVersionEntry, length_append, leBytes_length, nanosBytes_length]
  omega

theorem encodeMismatch_length (key : Bytes) : (encodeMismatch key).length = 2 + key.length := by
  rw [encodeMismatch, length_append, leBytes_length]

theorem encodeReplayFingerprintResponseV2_length (keyCount mismatchCount : UInt32)
    (fingerprint : Bytes) (mismatchKeys : List Bytes) (bounded : Bool) :
    (encodeReplayFingerprintResponseV2 keyCount mismatchCount fingerprint mismatchKeys
        bounded).length =
      10 + fingerprint.length + (mismatchKeys.map fun key => 2 + key.length).sum + 1 := by
  simp only [encodeReplayFingerprintResponseV2, encodeReplayFingerprintResponse, length_append,
    leBytes_length, length_flatten_map mismatchKeys encodeMismatch _ encodeMismatch_length]
  omega

end KairosFlux.Proto
