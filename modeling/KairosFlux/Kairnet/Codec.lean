import KairosFlux.Lib.FrameStream

/-! The two frame formats (`kairnet/codec/datapack.go`, `kairnet/codec/v2.go`). A stream is the list
of the bytes that were not read yet. -/

namespace KairosFlux.Kairnet

open Lib List

def hardMaxPackageSize : UInt32 := (256 : UInt32) <<< 20

/-- A limit of 0 is not configured. -/
def effectiveMaxSize (configured : UInt32) : UInt32 :=
  if configured = 0 then hardMaxPackageSize else configured

theorem leValue_leBytes_of_lt {width value : Nat} (small : value < 256 ^ width) :
    leValue (leBytes width value) = value := by
  rw [leValue_leBytes, Nat.mod_eq_of_lt small]

/-! The first format: `[dataLen u32 LE][msgIDLen u16 LE][msgID bytes][data bytes]`. -/

/-- `idLen` is set by `UnPack` only. -/
structure Message where
  id : Bytes
  idLen : UInt16
  dataLen : UInt32
  data : Bytes
  deriving DecidableEq

def newMessage (id data : Bytes) : Message := ⟨id, 0, UInt32.ofNat data.length, data⟩

namespace DataPack

def headLen : Nat := 6

def head (msg : Message) : Bytes := leBytes 4 msg.dataLen.toNat ++ leBytes 2 msg.id.length

/-- The error is the length of a message ID that is too long. -/
def pack (msg : Message) : Except Nat Bytes :=
  if 0xFFFF < msg.id.length then .error msg.id.length else .ok (head msg ++ (msg.id ++ msg.data))

/-- Nothing is returned for a header that is too short. -/
def unPack (data : Bytes) : Option Message :=
  if data.length < headLen then none
  else
    some { id := []
           idLen := UInt16.ofNat (leValue (slice data 4 6))
           dataLen := UInt32.ofNat (leValue (slice data 0 4))
           data := [] }

inductive DecodeError
  | readHeader (cause : ReadError)
  | unpackHeader
  | frameTooLarge (dataLen max : UInt32)
  | readMsgID (cause : ReadError)
  | readBody (cause : ReadError)
  deriving DecidableEq

def readMsgID (msg : Message) (r : Bytes) : Except DecodeError Message × Bytes :=
  if 0 < msg.idLen then
    match readFull msg.idLen.toNat r with
    | (.error cause, r) => (.error (.readMsgID cause), r)
    | (.ok idBuf, r) => (.ok { msg with id := idBuf }, r)
  else (.ok msg, r)

def readBody (msg : Message) (r : Bytes) : Except DecodeError Message × Bytes :=
  if 0 < msg.dataLen then
    match readFull msg.dataLen.toNat r with
    | (.error cause, r) => (.error (.readBody cause), r)
    | (.ok data, r) => (.ok { msg with data := data }, r)
  else (.ok msg, r)

def readRest (msg : Message) (r : Bytes) : Except DecodeError Message × Bytes :=
  match readMsgID msg r with
  | (.error err, r) => (.error err, r)
  | (.ok msg, r) => readBody msg r

def decode (maxSize : UInt32) (r : Bytes) : Except DecodeError Message × Bytes :=
  match readFull headLen r with
  | (.error cause, r) => (.error (.readHeader cause), r)
  | (.ok headData, r) =>
    match unPack headData with
    | none => (.error .unpackHeader, r)
    | some msg =>
      if effectiveMaxSize maxSize < msg.dataLen then
        (.error (.frameTooLarge msg.dataLen (effectiveMaxSize maxSize)), r)
      else readRest msg r

/-- The message is built as `NewMessage` builds it, and can be packed and read under the limit. -/
structure Fits (maxSize : UInt32) (msg : Message) : Prop where
  dataLen : msg.dataLen = UInt32.ofNat msg.data.length
  data : msg.data.length ≤ (effectiveMaxSize maxSize).toNat
  id : msg.id.length ≤ 0xFFFF

def received (msg : Message) : Message := { msg with idLen := UInt16.ofNat msg.id.length }

theorem length_head (msg : Message) : (head msg).length = headLen := by simp [head, headLen]

section

variable {maxSize : UInt32} {msg : Message}

section

variable (fits : Fits maxSize msg)
include fits

theorem Fits.toNat_dataLen : msg.dataLen.toNat = msg.data.length := by
  have small : msg.data.length < UInt32.size := fits.data.trans_lt (UInt32.toNat_lt _)
  rw [fits.dataLen, UInt32.toNat_ofNat_of_lt' small]

theorem Fits.toNat_idLen : (UInt16.ofNat msg.id.length).toNat = msg.id.length := by
  have small : msg.id.length < UInt16.size := fits.id.trans_lt (by decide)
  rw [UInt16.toNat_ofNat_of_lt' small]

theorem unPack_head :
    unPack (head msg) = some ⟨[], UInt16.ofNat msg.id.length, msg.dataLen, []⟩ := by
  have idLen := fits.id
  have dataLen := msg.dataLen.toNat_lt
  obtain ⟨first, left⟩ := slice_drop (show (head msg).drop 0 = _ from rfl) (by simp : _ = 4)
  have second := slice_drop_last left (by simp : _ = 6)
  rw [unPack, if_neg (by rw [length_head]; exact lt_irrefl _), first, second,
    leValue_leBytes_of_lt (by omega), leValue_leBytes_of_lt (by omega), UInt32.ofNat_toNat]

theorem takes_head : Takes (decode maxSize) (head msg)
    (readRest ⟨[], UInt16.ofNat msg.id.length, msg.dataLen, []⟩) := by
  have small : ¬ effectiveMaxSize maxSize < msg.dataLen := by
    rw [UInt32.lt_iff_toNat_lt, fits.toNat_dataLen]
    exact not_lt.mpr fits.data
  apply Takes.field
  · intro rest
    rw [decode, readFull_append (length_head msg)]
    simp only [unPack_head fits, small, if_false]
  · intro _ r cause failed
    rw [decode, ← length_head msg, failed]
    exact ⟨_, _, rfl⟩

theorem takes_id : Takes (readRest ⟨[], UInt16.ofNat msg.id.length, msg.dataLen, []⟩) msg.id
    (readBody ⟨msg.id, UInt16.ofNat msg.id.length, msg.dataLen, []⟩) := by
  have width := fits.toNat_idLen
  apply Takes.field
  · intro rest
    rw [readRest, readMsgID]
    split_ifs with some
    · simp only [width, readFull_append rfl]
    · rw [UInt16.lt_iff_toNat_lt, width] at some
      have none : msg.id = [] := eq_nil_of_length_eq_zero (Nat.eq_zero_of_not_pos some)
      rw [none, nil_append]
  · intro some r cause failed
    rw [readRest, readMsgID, if_pos (by rwa [UInt16.lt_iff_toNat_lt, width])]
    simp only [width, failed]
    exact ⟨_, _, rfl⟩

theorem takes_data : Takes (readBody ⟨msg.id, UInt16.ofNat msg.id.length, msg.dataLen, []⟩) msg.data
    fun rest => (.ok (received msg), rest) := by
  have width := fits.toNat_dataLen
  apply Takes.field
  · intro rest
    rw [readBody]
    split_ifs with some
    · simp only [width, readFull_append rfl]
      rfl
    · rw [UInt32.lt_iff_toNat_lt, width] at some
      have none : msg.data = [] := eq_nil_of_length_eq_zero (Nat.eq_zero_of_not_pos some)
      rw [received, none, nil_append]
  · intro some r cause failed
    rw [readBody, if_pos (by rwa [UInt32.lt_iff_toNat_lt, width])]
    simp only [width, failed]
    exact ⟨_, _, rfl⟩

theorem frames_pack :
    Frames (decode maxSize) (head msg ++ (msg.id ++ msg.data)) (received msg) := by
  have takes := (takes_head fits).trans ((takes_id fits).trans (takes_data fits))
  refine ⟨?_, takes.whole, takes.cut⟩
  rw [length_append, length_head, headLen]
  omega

end

theorem decode_too_large (maxSize : UInt32) (r : Bytes) (enough : headLen ≤ r.length)
    (large : (effectiveMaxSize maxSize).toNat < leValue (r.take 4)) :
    decode maxSize r = (.error (.frameTooLarge (UInt32.ofNat (leValue (r.take 4)))
      (effectiveMaxSize maxSize)), r.drop headLen) := by
  have declared : slice (r.take headLen) 0 4 = r.take 4 := by
    rw [slice, drop_zero, take_take, headLen]
    rfl
  have bound : leValue (r.take 4) < UInt32.size := by
    have limit := leValue_lt (r.take 4)
    rw [length_take_of_le (by rw [headLen] at enough; omega)] at limit
    exact limit
  have exceeds : effectiveMaxSize maxSize < UInt32.ofNat (leValue (r.take 4)) := by
    rw [UInt32.lt_iff_toNat_lt, UInt32.toNat_ofNat_of_lt' bound]
    exact large
  rw [decode, readFull, if_pos enough]
  simp only
  rw [unPack, if_neg (by rw [length_take]; omega), declared]
  simp only [exceeds, if_true]

end

end DataPack

/-! The second format:
`[magic+ver u16 LE][flags u8][opcode u8][type u16 LE][corr_id u32 LE][dataLen u32 LE][data bytes]`. -/

def magicV2 : UInt8 := 0xBA

def versionV2 : UInt8 := 0x02

def headerV2Len : Nat := 14

def encodeMagicVer (magic version : UInt8) : UInt16 := magic.toUInt16 <<< 8 ||| version.toUInt16

def decodeMagicVer (v : UInt16) : UInt8 × UInt8 := ((v >>> 8).toUInt8, v.toUInt8)

structure HeaderV2 where
  flags : UInt8
  opcode : UInt8
  type : UInt16
  corrID : UInt32
  dataLen : UInt32
  deriving DecidableEq

structure MessageV2 where
  header : HeaderV2
  payload : Bytes
  deriving DecidableEq

def newMessageV2 (h : HeaderV2) (payload : Bytes) : MessageV2 :=
  ⟨{ h with dataLen := UInt32.ofNat payload.length }, payload⟩

namespace DataPackV2

def head (msg : MessageV2) : Bytes :=
  leBytes 2 (encodeMagicVer magicV2 versionV2).toNat ++ ([msg.header.flags, msg.header.opcode] ++
    (leBytes 2 msg.header.type.toNat ++ (leBytes 4 msg.header.corrID.toNat ++
      leBytes 4 msg.payload.length)))

def pack (msg : MessageV2) : Bytes := head msg ++ msg.payload

inductive UnpackError
  | tooShort
  | notV2Magic (got : UInt8)
  | unsupportedV2Version (got : UInt8)
  deriving DecidableEq

def unPack (head : Bytes) : Except UnpackError HeaderV2 :=
  if head.length < headerV2Len then .error .tooShort
  else
    let (magic, version) := decodeMagicVer (UInt16.ofNat (leValue (slice head 0 2)))
    if magic ≠ magicV2 then .error (.notV2Magic magic)
    else if version ≠ versionV2 then .error (.unsupportedV2Version version)
    else
      .ok { flags := head.getD 2 0
            opcode := head.getD 3 0
            type := UInt16.ofNat (leValue (slice head 4 6))
            corrID := UInt32.ofNat (leValue (slice head 6 10))
            dataLen := UInt32.ofNat (leValue (slice head 10 14)) }

inductive DecodeError
  | readHeader (cause : ReadError)
  | unpackHeader (cause : UnpackError)
  | frameTooLarge (dataLen max : UInt32)
  | readBody (cause : ReadError)
  deriving DecidableEq

def readBody (h : HeaderV2) (r : Bytes) : Except DecodeError MessageV2 × Bytes :=
  if 0 < h.dataLen then
    match readFull h.dataLen.toNat r with
    | (.error cause, r) => (.error (.readBody cause), r)
    | (.ok payload, r) => (.ok ⟨h, payload⟩, r)
  else (.ok ⟨h, []⟩, r)

def decode (maxSize : UInt32) (r : Bytes) : Except DecodeError MessageV2 × Bytes :=
  match readFull headerV2Len r with
  | (.error cause, r) => (.error (.readHeader cause), r)
  | (.ok headBuf, r) =>
    match unPack headBuf with
    | .error cause => (.error (.unpackHeader cause), r)
    | .ok h =>
      if effectiveMaxSize maxSize < h.dataLen then
        (.error (.frameTooLarge h.dataLen (effectiveMaxSize maxSize)), r)
      else readBody h r

/-- The message is built as `NewMessageV2` builds it, and can be read under the limit. -/
structure Fits (maxSize : UInt32) (msg : MessageV2) : Prop where
  dataLen : msg.header.dataLen = UInt32.ofNat msg.payload.length
  payload : msg.payload.length ≤ (effectiveMaxSize maxSize).toNat

theorem length_head (msg : MessageV2) : (head msg).length = headerV2Len := by simp [head, headerV2Len]

section

variable {maxSize : UInt32} {msg : MessageV2}

section

variable (fits : Fits maxSize msg)
include fits

theorem Fits.toNat_dataLen : msg.header.dataLen.toNat = msg.payload.length := by
  have small : msg.payload.length < UInt32.size := fits.payload.trans_lt (UInt32.toNat_lt _)
  rw [fits.dataLen, UInt32.toNat_ofNat_of_lt' small]

theorem unPack_head : unPack (head msg) = .ok msg.header := by
  have type := msg.header.type.toNat_lt
  have corrID := msg.header.corrID.toNat_lt
  have dataLen := fits.payload.trans_lt (UInt32.toNat_lt _)
  have magic : slice (head msg) 0 2 = leBytes 2 (encodeMagicVer magicV2 versionV2).toNat := rfl
  have typeField : slice (head msg) 4 6 = leBytes 2 msg.header.type.toNat := rfl
  have corrField : slice (head msg) 6 10 = leBytes 4 msg.header.corrID.toNat := rfl
  have lenField : slice (head msg) 10 14 = leBytes 4 msg.payload.length := rfl
  have marked : decodeMagicVer (UInt16.ofNat (leValue (leBytes 2 (encodeMagicVer magicV2 versionV2).toNat))) =
      (magicV2, versionV2) := by decide
  rw [unPack, if_neg (by rw [length_head]; exact lt_irrefl _), magic, marked]
  rw [typeField, corrField, lenField, leValue_leBytes_of_lt (by omega),
    leValue_leBytes_of_lt (by omega), leValue_leBytes_of_lt (by omega), UInt16.ofNat_toNat,
    UInt32.ofNat_toNat, ← fits.dataLen]
  rfl

theorem takes_head : Takes (decode maxSize) (head msg) (readBody msg.header) := by
  have small : ¬ effectiveMaxSize maxSize < msg.header.dataLen := by
    rw [UInt32.lt_iff_toNat_lt, fits.toNat_dataLen]
    exact not_lt.mpr fits.payload
  apply Takes.field
  · intro rest
    rw [decode, readFull_append (length_head msg)]
    simp only [unPack_head fits, small, if_false]
  · intro _ r cause failed
    rw [decode, ← length_head msg, failed]
    exact ⟨_, _, rfl⟩

theorem takes_payload : Takes (readBody msg.header) msg.payload fun rest => (.ok msg, rest) := by
  have width := fits.toNat_dataLen
  apply Takes.field
  · intro rest
    rw [readBody]
    split_ifs with some
    · simp only [width, readFull_append rfl]
    · rw [UInt32.lt_iff_toNat_lt, width] at some
      have none : msg.payload = [] := eq_nil_of_length_eq_zero (Nat.eq_zero_of_not_pos some)
      rw [none, nil_append, ← none]
  · intro some r cause failed
    rw [readBody, if_pos (by rwa [UInt32.lt_iff_toNat_lt, width])]
    simp only [width, failed]
    exact ⟨_, _, rfl⟩

theorem frames_pack : Frames (decode maxSize) (pack msg) msg := by
  have takes := (takes_head fits).trans (takes_payload fits)
  refine ⟨?_, takes.whole, takes.cut⟩
  rw [pack, length_append, length_head, headerV2Len]
  omega

end

theorem decode_too_large (maxSize : UInt32) (r : Bytes) (enough : headerV2Len ≤ r.length)
    (marked : r.take 2 = [versionV2, magicV2])
    (large : (effectiveMaxSize maxSize).toNat < leValue (slice r 10 14)) :
    decode maxSize r = (.error (.frameTooLarge (UInt32.ofNat (leValue (slice r 10 14)))
      (effectiveMaxSize maxSize)), r.drop headerV2Len) := by
  have magic : slice (r.take headerV2Len) 0 2 = [versionV2, magicV2] := by
    rw [slice, drop_zero, take_take, ← marked]
    rfl
  have declared : slice (r.take headerV2Len) 10 14 = slice r 10 14 := by
    rw [slice, take_take]
    rfl
  have bound : leValue (slice r 10 14) < UInt32.size := by
    have limit := leValue_lt (slice r 10 14)
    have width : (r.take 14).length = 14 := length_take_of_le enough
    rw [slice, length_drop, width] at limit
    exact limit
  have exceeds : effectiveMaxSize maxSize < UInt32.ofNat (leValue (slice r 10 14)) := by
    rw [UInt32.lt_iff_toNat_lt, UInt32.toNat_ofNat_of_lt' bound]
    exact large
  have known : decodeMagicVer (UInt16.ofNat (leValue [versionV2, magicV2])) =
      (magicV2, versionV2) := by decide
  rw [decode, readFull, if_pos enough]
  simp only
  rw [unPack, if_neg (by rw [length_take]; omega), magic, known, declared]
  simp only [ne_eq, not_true_eq_false, if_false, exceeds, if_true]

end

end DataPackV2

open DataPackV2

theorem DataPack.mapM_pack {maxSize : UInt32} {msgs : List Message}
    (fit : ∀ msg ∈ msgs, DataPack.Fits maxSize msg) :
    ∃ frames, msgs.mapM DataPack.pack = .ok frames ∧
      List.Forall₂ (Frames (DataPack.decode maxSize)) frames (msgs.map DataPack.received) := by
  induction msgs with
  | nil => exact ⟨[], rfl, .nil⟩
  | cons msg rest ih =>
    rcases forall_mem_cons.mp fit with ⟨first, later⟩
    rcases ih later with ⟨frames, packed, framed⟩
    have whole : DataPack.pack msg = .ok (DataPack.head msg ++ (msg.id ++ msg.data)) :=
      if_neg (not_lt.mpr first.id)
    refine ⟨_ :: frames, ?_, .cons (DataPack.frames_pack first) framed⟩
    rw [mapM_cons, whole, packed]
    rfl

/-- Under a size limit: packing every message of a list succeeds, decoding what was packed gives the
messages and the end of the stream, a cut gives the messages before it and an error, and a frame that
declares too much is refused behind its header. -/
theorem streams_decode (maxSize : UInt32) :
    (∀ msgs : List Message, (∀ msg ∈ msgs, DataPack.Fits maxSize msg) →
      ∃ frames, msgs.mapM DataPack.pack = .ok frames ∧
        Delivers (DataPack.decode maxSize) (.readHeader .eof) frames (msgs.map DataPack.received)) ∧
    (∀ r, DataPack.headLen ≤ r.length → (effectiveMaxSize maxSize).toNat < leValue (r.take 4) →
      DataPack.decode maxSize r = (.error (.frameTooLarge (UInt32.ofNat (leValue (r.take 4)))
        (effectiveMaxSize maxSize)), r.drop DataPack.headLen)) ∧
    (∀ msgs : List MessageV2, (∀ msg ∈ msgs, DataPackV2.Fits maxSize msg) →
      Delivers (decode maxSize) (.readHeader .eof) (msgs.map pack) msgs) ∧
    (∀ r, headerV2Len ≤ r.length → r.take 2 = [versionV2, magicV2] →
      (effectiveMaxSize maxSize).toNat < leValue (slice r 10 14) →
      decode maxSize r = (.error (.frameTooLarge (UInt32.ofNat (leValue (slice r 10 14)))
        (effectiveMaxSize maxSize)), r.drop headerV2Len)) := by
  refine ⟨?_, DataPack.decode_too_large maxSize, ?_, decode_too_large maxSize⟩
  · intro msgs fit
    rcases DataPack.mapM_pack fit with ⟨frames, packed, framed⟩
    exact ⟨frames, packed, delivers_frames framed rfl⟩
  · intro msgs fit
    refine delivers_frames ?_ rfl
    rw [List.forall₂_map_left_iff, List.forall₂_same]
    exact fun msg member => frames_pack (fit msg member)

/-- Two requests in the first format, the second of them cut, and a header that declares too much. -/
theorem streams_decode_puts :
    (∃ frames, [newMessage [112] [1, 2], newMessage [] []].mapM DataPack.pack = .ok frames ∧
      Delivers (DataPack.decode 1024) (.readHeader .eof) frames
        [⟨[112], 1, 2, [1, 2]⟩, ⟨[], 0, 0, []⟩]) ∧
    DataPack.decode 1024 [255, 255, 255, 255, 0, 0, 7] =
      (.error (.frameTooLarge 4294967295 1024), [7]) := by
  constructor
  · refine (streams_decode 1024).1 _ ?_
    intro msg member
    rcases mem_cons.mp member with rfl | member
    · exact ⟨rfl, by decide, by decide⟩
    · rw [mem_singleton.mp member]
      exact ⟨rfl, by decide, by decide⟩
  · exact (streams_decode 1024).2.1 [255, 255, 255, 255, 0, 0, 7] (by decide) (by decide)

end KairosFlux.Kairnet
