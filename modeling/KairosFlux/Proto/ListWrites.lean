import KairosFlux.Lib.Checked
import KairosFlux.Temporal.Record

/-! The payloads of `LIST_WRITES` in both generations of the protocol (`proto/temporal_frame.go`). The
second one puts a cursor and a limit behind the request, and the next cursor behind the response; which
of the two a payload is of shows only in the bytes that are left. -/

namespace KairosFlux.Proto

open Lib Lib.Checked Temporal List

def nanosBytes (nanos : Int64) : Bytes := leBytes 8 nanos.toUInt64.toNat

def nanosOf (value : Nat) : Int64 := Int64.ofUInt64 (UInt64.ofNat value)

@[simp] theorem nanosBytes_length (nanos : Int64) : (nanosBytes nanos).length = 8 := leBytes_length 8 _

theorem nanosOf_toUInt64 (nanos : Int64) : nanosOf nanos.toUInt64.toNat = nanos := by
  rw [nanosOf, UInt64.ofNat_toNat]

structure ListWritesRequest where
  keyPrefix : Bytes
  tFromNanos : Int64
  tToNanos : Int64
  source : Bytes
  deriving DecidableEq

/-- `[prefixLen u32][prefix][tFromNanos i64][tToNanos i64][sourceLen u32][source]`. -/
def encodeListWritesRequest (request : ListWritesRequest) : Bytes :=
  leBytes 4 request.keyPrefix.length ++
    (request.keyPrefix ++
      (nanosBytes request.tFromNanos ++
        (nanosBytes request.tToNanos ++
          (leBytes 4 request.source.length ++ request.source))))

/-- What both request decoders read before they reach the source. -/
structure RequestHead where
  keyPrefix : Bytes
  tFromNanos : Int64
  tToNanos : Int64
  sourceLen : Nat
  off : Nat

def decodeRequestHead (data : Bytes) : Checked RequestHead := do
  require (4 ≤ data.length)
  let prefixLen ← uintAt data 0 4
  require (4 + prefixLen + 8 + 8 + 4 ≤ data.length)
  let off := 4
  let keyPrefix ← bytesAt data off prefixLen
  let off := off + prefixLen
  let tFromNanos ← uintAt data off 8
  let off := off + 8
  let tToNanos ← uintAt data off 8
  let off := off + 8
  let sourceLen ← uintAt data off 4
  let off := off + 4
  pure ⟨keyPrefix, nanosOf tFromNanos, nanosOf tToNanos, sourceLen, off⟩

def decodeListWritesRequest (data : Bytes) : Checked ListWritesRequest := do
  let head ← decodeRequestHead data
  require (head.off + head.sourceLen = data.length)
  let source ← bytesAt data head.off head.sourceLen
  pure ⟨head.keyPrefix, head.tFromNanos, head.tToNanos, source⟩

/-- Without a cursor and a limit it is the request of the first generation. -/
def encodeListWritesRequestV2 (request : ListWritesRequest) (cursor : Bytes) (limit : UInt32) : Bytes :=
  if cursor.length = 0 ∧ limit = 0 then encodeListWritesRequest request
  else
    encodeListWritesRequest request ++
      (leBytes 4 cursor.length ++ (cursor ++ leBytes 4 limit.toNat))

structure PagedRequest where
  request : ListWritesRequest
  /-- `none` is the nil slice of a request that has no tail. -/
  after : Option Bytes
  limit : UInt32
  deriving DecidableEq

def decodeListWritesRequestV2 (data : Bytes) : Checked PagedRequest := do
  let head ← decodeRequestHead data
  require (head.off + head.sourceLen ≤ data.length)
  let source ← bytesAt data head.off head.sourceLen
  let request := ⟨head.keyPrefix, head.tFromNanos, head.tToNanos, source⟩
  let off := head.off + head.sourceLen
  if off = data.length then pure ⟨request, none, 0⟩
  else do
    require (off + 4 + 4 ≤ data.length)
    let cursorLen ← uintAt data off 4
    let off := off + 4
    require (off + cursorLen + 4 = data.length)
    let after ← bytesAt data off cursorLen
    let limit ← uintAt data (off + cursorLen) 4
    pure ⟨request, some after, UInt32.ofNat limit⟩

/-- `[logicalKeyLen u32][logicalKey][seq u64]`. -/
def encodeListWritesCursor (logicalKey : Bytes) (seq : UInt64) : Bytes :=
  leBytes 4 logicalKey.length ++ (logicalKey ++ leBytes 8 seq.toNat)

def decodeListWritesCursor (payload : Bytes) : Checked (Bytes × UInt64) := do
  require (4 ≤ payload.length)
  let logicalKeyLen ← uintAt payload 0 4
  require (4 + logicalKeyLen + 8 = payload.length)
  let logicalKey ← bytesAt payload 4 logicalKeyLen
  let seq ← uintAt payload (4 + logicalKeyLen) 8
  pure (logicalKey, UInt64.ofNat seq)

structure WriteEnvelopeView where
  logicalKey : Bytes
  seq : UInt64
  writeNanos : Int64
  source : Bytes
  schemaVer : UInt32
  payloadHash : Bytes
  payload : Bytes
  hashOK : Bool
  deriving DecidableEq

/-- `[logicalKeyLen u32][logicalKey][seq u64][writeNanos i64][sourceLen u32][source][schemaVer u32]
[hashLen u16][payloadHash][payloadLen u32][payload][hashOK u8]`. -/
def encodeWriteEnvelopeEntry (e : WriteEnvelopeView) : Bytes :=
  leBytes 4 e.logicalKey.length ++
    (e.logicalKey ++
      (leBytes 8 e.seq.toNat ++
        (nanosBytes e.writeNanos ++
          (leBytes 4 e.source.length ++
            (e.source ++
              (leBytes 4 e.schemaVer.toNat ++
                (leBytes 2 e.payloadHash.length ++
                  (e.payloadHash ++
                    (leBytes 4 e.payload.length ++
                      (e.payload ++ leBytes 1 e.hashOK.toNat))))))))))

def decodeWriteEnvelopeEntry (data : Bytes) : Checked (WriteEnvelopeView × Nat) := do
  require (4 ≤ data.length)
  let logicalKeyLen ← uintAt data 0 4
  let off := 4
  require (off + logicalKeyLen + 8 + 8 + 4 ≤ data.length)
  let logicalKey ← bytesAt data off logicalKeyLen
  let off := off + logicalKeyLen
  let seq ← uintAt data off 8
  let off := off + 8
  let writeNanos ← uintAt data off 8
  let off := off + 8
  let sourceLen ← uintAt data off 4
  let off := off + 4
  require (off + sourceLen + 4 + 2 ≤ data.length)
  let source ← bytesAt data off sourceLen
  let off := off + sourceLen
  let schemaVer ← uintAt data off 4
  let off := off + 4
  let hashLen ← uintAt data off 2
  let off := off + 2
  require (off + hashLen + 4 ≤ data.length)
  let payloadHash ← bytesAt data off hashLen
  let off := off + hashLen
  let payloadLen ← uintAt data off 4
  let off := off + 4
  require (off + payloadLen + 1 ≤ data.length)
  let payload ← bytesAt data off payloadLen
  let off := off + payloadLen
  let hashOK ← uintAt data off 1
  let off := off + 1
  pure (⟨logicalKey, UInt64.ofNat seq, nanosOf writeNanos, source, UInt32.ofNat schemaVer, payloadHash,
    payload, decide (hashOK ≠ 0)⟩, off)

/-- The length of an entry, computed without reading its fields. -/
def writeEnvelopeEntryLen (data : Bytes) : Checked Nat := do
  require (4 ≤ data.length)
  let logicalKeyLen ← uintAt data 0 4
  let off := 4
  require (off + logicalKeyLen + 8 + 8 + 4 ≤ data.length)
  let off := off + (logicalKeyLen + 8 + 8)
  let sourceLen ← uintAt data off 4
  let off := off + 4
  require (off + sourceLen + 4 + 2 ≤ data.length)
  let off := off + sourceLen
  let off := off + 4
  let hashLen ← uintAt data off 2
  let off := off + 2
  require (off + hashLen + 4 ≤ data.length)
  let off := off + hashLen
  let payloadLen ← uintAt data off 4
  let off := off + 4
  require (off + payloadLen + 1 ≤ data.length)
  pure (off + payloadLen + 1)

structure SourceCountView where
  source : Bytes
  count : UInt32
  deriving DecidableEq

def encodeSourceCount (c : SourceCountView) : Bytes :=
  leBytes 4 c.source.length ++ (c.source ++ leBytes 4 c.count.toNat)

/-- `[matchCount u32][entry...][sourceCountN u32]([sourceLen u32][source][count u32])...`. The parallel
slices `sourceNames` and `sourceCounts` are one list here. -/
def encodeListWritesResponse (entries : List Bytes) (counts : List SourceCountView) : Bytes :=
  leBytes 4 entries.length ++
    (entries.flatten ++ (leBytes 4 counts.length ++ (counts.map encodeSourceCount).flatten))

def encodeListWritesResponseV2 (entries : List Bytes) (counts : List SourceCountView)
    (nextCursor : Bytes) : Bytes :=
  encodeListWritesResponse entries counts ++ (leBytes 4 nextCursor.length ++ nextCursor)

/-- One round of the loop over the entries: `DecodeWriteEnvelopeEntry(body[off:])`. -/
def decodeEntryAt (body : Bytes) (off : Nat) : Checked (WriteEnvelopeView × Nat) := do
  let rest ← bytesFrom body off
  let entry ← decodeWriteEnvelopeEntry rest
  pure (entry.1, off + entry.2)

/-- One round of the loop over the counts. -/
def decodeSourceCountAt (body : Bytes) (off : Nat) : Checked (SourceCountView × Nat) := do
  require (off + 4 ≤ body.length)
  let srcLen ← uintAt body off 4
  let off := off + 4
  require (off + srcLen + 4 ≤ body.length)
  let source ← bytesAt body off srcLen
  let off := off + srcLen
  let count ← uintAt body off 4
  pure (⟨source, UInt32.ofNat count⟩, off + 4)

/-- The size in bytes of a `WriteEnvelopeView`. -/
def viewSize : Nat := 104

/-- The size in bytes of a `SourceCountView`. -/
def countSize : Nat := 24

/-- `DecodeListWritesResponse` together with the offset it has reached. -/
def decodeListWritesBase (body : Bytes) :
    Checked ((List WriteEnvelopeView × List SourceCountView) × Nat) := do
  require (4 ≤ body.length)
  let matchCount ← uintAt body 0 4
  reserve viewSize matchCount
  let entries ← readCounted (decodeEntryAt body) matchCount 4
  require (entries.2 + 4 ≤ body.length)
  let sourceCountN ← uintAt body entries.2 4
  reserve countSize sourceCountN
  let counts ← readCounted (decodeSourceCountAt body) sourceCountN (entries.2 + 4)
  pure ((entries.1, counts.1), counts.2)

def decodeListWritesResponse (body : Bytes) :
    Checked (List WriteEnvelopeView × List SourceCountView) := do
  let base ← decodeListWritesBase body
  pure base.1

def skipEntryAt (body : Bytes) (off : Nat) : Checked Nat := do
  let rest ← bytesFrom body off
  let consumed ← writeEnvelopeEntryLen rest
  pure (off + consumed)

-- Nothing is tested before this read: the first pass over the body has to have been there.
def skipSourceCountAt (body : Bytes) (off : Nat) : Checked Nat := do
  let srcLen ← uintAt body off 4
  pure (off + (4 + srcLen + 4))

structure PagedResponse where
  entries : List WriteEnvelopeView
  counts : List SourceCountView
  /-- `none` is the nil slice of a body that has no tail. -/
  nextCursor : Option Bytes
  deriving DecidableEq

/-- What is left behind the base of the body. -/
def decodeNextCursor (body : Bytes) (base : List WriteEnvelopeView × List SourceCountView) (off : Nat) :
    Checked PagedResponse :=
  if off = body.length then pure ⟨base.1, base.2, none⟩
  else do
    require (off + 4 ≤ body.length)
    let nextLen ← uintAt body off 4
    require (off + 4 + nextLen = body.length)
    let nextCursor ← bytesAt body (off + 4) nextLen
    pure ⟨base.1, base.2, some nextCursor⟩

-- The place where the base ends is found by a second walk over the body.
def decodeListWritesResponseV2 (body : Bytes) : Checked PagedResponse := do
  let base ← decodeListWritesResponse body
  let off ← skipCounted (skipEntryAt body) base.1.length 4
  let off ← skipCounted (skipSourceCountAt body) base.2.length (off + 4)
  decodeNextCursor body base off

variable (body data : Bytes) (entries : List WriteEnvelopeView) (request : ListWritesRequest) (e : WriteEnvelopeView) (counts : List SourceCountView) (off : Nat)

theorem decodeRequestHead_safe :
    Safe (decodeRequestHead data) fun head => head.off ≤ data.length := by
  apply Safe.bind (Safe.require _)
  intro _ long
  apply Safe.bind (Safe.uintAt (by omega))
  intro prefixLen _
  apply Safe.bind (Safe.require _)
  intro _ room
  apply Safe.bind (Safe.bytesAt (by omega))
  intro keyPrefix _
  apply Safe.bind (Safe.uintAt (by omega))
  intro tFromNanos _
  apply Safe.bind (Safe.uintAt (by omega))
  intro tToNanos _
  apply Safe.bind (Safe.uintAt (by omega))
  intro sourceLen _
  apply Safe.pure
  omega

theorem decodeListWritesRequest_safe : Safe (decodeListWritesRequest data) fun _ => True := by
  apply Safe.bind (decodeRequestHead_safe data)
  intro head _
  apply Safe.bind (Safe.require _)
  intro _ whole
  apply Safe.bind (Safe.bytesAt (by omega))
  intro source _
  exact Safe.pure trivial

theorem decodeListWritesRequestV2_safe : Safe (decodeListWritesRequestV2 data) fun _ => True := by
  simp only [decodeListWritesRequestV2]
  apply Safe.bind (decodeRequestHead_safe data)
  intro head _
  apply Safe.bind (Safe.require _)
  intro _ room
  apply Safe.bind (Safe.bytesAt (by omega))
  intro source _
  split
  · exact Safe.pure trivial
  · apply Safe.bind (Safe.require _)
    intro _ tail
    apply Safe.bind (Safe.uintAt (by omega))
    intro cursorLen _
    apply Safe.bind (Safe.require _)
    intro _ whole
    apply Safe.bind (Safe.bytesAt (by omega))
    intro after _
    apply Safe.bind (Safe.uintAt (by omega))
    intro limit _
    exact Safe.pure trivial

theorem decodeListWritesCursor_safe (payload : Bytes) :
    Safe (decodeListWritesCursor payload) fun _ => True := by
  apply Safe.bind (Safe.require _)
  intro _ long
  apply Safe.bind (Safe.uintAt (by omega))
  intro logicalKeyLen _
  apply Safe.bind (Safe.require _)
  intro _ whole
  apply Safe.bind (Safe.bytesAt (by omega))
  intro logicalKey _
  apply Safe.bind (Safe.uintAt (by omega))
  intro seq _
  exact Safe.pure trivial

theorem decodeWriteEnvelopeEntry_safe :
    Safe (decodeWriteEnvelopeEntry data) fun entry => entry.2 ≤ data.length := by
  apply Safe.bind (Safe.require _)
  intro _ long
  apply Safe.bind (Safe.uintAt (by omega))
  intro logicalKeyLen _
  apply Safe.bind (Safe.require _)
  intro _ keyRoom
  apply Safe.bind (Safe.bytesAt (by omega))
  intro logicalKey _
  apply Safe.bind (Safe.uintAt (by omega))
  intro seq _
  apply Safe.bind (Safe.uintAt (by omega))
  intro writeNanos _
  apply Safe.bind (Safe.uintAt (by omega))
  intro sourceLen _
  apply Safe.bind (Safe.require _)
  intro _ sourceRoom
  apply Safe.bind (Safe.bytesAt (by omega))
  intro source _
  apply Safe.bind (Safe.uintAt (by omega))
  intro schemaVer _
  apply Safe.bind (Safe.uintAt (by omega))
  intro hashLen _
  apply Safe.bind (Safe.require _)
  intro _ hashRoom
  apply Safe.bind (Safe.bytesAt (by omega))
  intro payloadHash _
  apply Safe.bind (Safe.uintAt (by omega))
  intro payloadLen _
  apply Safe.bind (Safe.require _)
  intro _ payloadRoom
  apply Safe.bind (Safe.bytesAt (by omega))
  intro payload _
  apply Safe.bind (Safe.uintAt (by omega))
  intro hashOK _
  apply Safe.pure
  omega

/-- The separately written length computation is the one of the decoder, also in what it rejects. -/
theorem writeEnvelopeEntryLen_eq :
    writeEnvelopeEntryLen data = decodeWriteEnvelopeEntry data >>= fun entry => pure entry.2 := by
  simp only [writeEnvelopeEntryLen, decodeWriteEnvelopeEntry, Checked.bind_assoc, ← Nat.add_assoc]
  -- Both test the same bounds in the same order, so they part ways only in what they keep.
  apply require_bind_congr
  intro long
  simp only [ok_bind, uintAt_inside (show 0 + 4 ≤ data.length by omega)]
  generalize leValue ((data.drop 0).take 4) = keyLen
  apply require_bind_congr
  intro keyRoom
  simp only [ok_bind, bytesAt_inside (show 4 + keyLen ≤ data.length by omega),
    uintAt_inside (show 4 + keyLen + 8 ≤ data.length by omega),
    uintAt_inside (show 4 + keyLen + 8 + 8 ≤ data.length by omega), uintAt_inside keyRoom]
  generalize leValue ((data.drop (4 + keyLen + 8 + 8)).take 4) = sourceLen
  generalize 4 + keyLen + 8 + 8 + 4 = off
  apply require_bind_congr
  intro sourceRoom
  simp only [ok_bind, bytesAt_inside (show off + sourceLen ≤ data.length by omega),
    uintAt_inside (show off + sourceLen + 4 ≤ data.length by omega), uintAt_inside sourceRoom]
  generalize leValue ((data.drop (off + sourceLen + 4)).take 2) = hashLen
  generalize off + sourceLen + 4 + 2 = off
  apply require_bind_congr
  intro hashRoom
  simp only [ok_bind, bytesAt_inside (show off + hashLen ≤ data.length by omega),
    uintAt_inside hashRoom]
  generalize leValue ((data.drop (off + hashLen)).take 4) = payloadLen
  generalize off + hashLen + 4 = off
  apply require_bind_congr
  intro payloadRoom
  simp only [ok_bind, pure_eq_ok, bytesAt_inside (show off + payloadLen ≤ data.length by omega),
    uintAt_inside payloadRoom]

theorem skipEntryAt_of_decodeEntryAt (entry : WriteEnvelopeView)
    (stop : Nat) (read : decodeEntryAt body off = ok (entry, stop)) :
    skipEntryAt body off = ok stop := by
  rw [decodeEntryAt, bind_eq_ok_iff] at read
  rcases read with ⟨rest, cut, read⟩
  rw [bind_eq_ok_iff] at read
  rcases read with ⟨found, decoded, read⟩
  cases read
  rw [skipEntryAt, cut, ok_bind, writeEnvelopeEntryLen_eq, decoded, ok_bind, pure_eq_ok, ok_bind,
    pure_eq_ok]

theorem skipSourceCountAt_of_decodeSourceCountAt (count : SourceCountView)
    (stop : Nat) (read : decodeSourceCountAt body off = ok (count, stop)) :
    skipSourceCountAt body off = ok stop := by
  simp only [decodeSourceCountAt, bind_eq_ok_iff] at read
  rcases read with ⟨_, _, srcLen, length, _, _, source, _, value, _, read⟩
  cases read
  rw [skipSourceCountAt, length, ok_bind, pure_eq_ok, ← Nat.add_assoc, ← Nat.add_assoc]

theorem decodeEntryAt_safe (inside : off ≤ body.length) :
    Safe (decodeEntryAt body off) fun entry => entry.2 ≤ body.length := by
  apply Safe.bind (Safe.bytesFrom inside)
  intro rest size
  apply Safe.bind (decodeWriteEnvelopeEntry_safe rest)
  intro entry stop
  apply Safe.pure
  omega

theorem decodeSourceCountAt_safe :
    Safe (decodeSourceCountAt body off) fun count => count.2 ≤ body.length := by
  apply Safe.bind (Safe.require _)
  intro _ long
  apply Safe.bind (Safe.uintAt long)
  intro srcLen _
  apply Safe.bind (Safe.require _)
  intro _ room
  apply Safe.bind (Safe.bytesAt (by omega))
  intro source _
  apply Safe.bind (Safe.uintAt room)
  intro count _
  exact Safe.pure room

theorem decodeListWritesBase_safe :
    Safe (decodeListWritesBase body) fun base => base.2 ≤ body.length := by
  apply Safe.bind (Safe.require _)
  intro _ long
  apply Safe.bind (Safe.uintAt (by omega))
  intro matchCount matchSmall
  apply Safe.bind (Safe.reserve (by rw [viewSize]; omega))
  intro _ _
  apply Safe.bind (Safe.readCounted (decodeEntryAt_safe body) matchCount 4 long)
  intro entries _
  apply Safe.bind (Safe.require _)
  intro _ room
  apply Safe.bind (Safe.uintAt room)
  intro sourceCountN countSmall
  apply Safe.bind (Safe.reserve (by rw [countSize]; omega))
  intro _ _
  apply Safe.bind (Safe.readCounted (fun off _ => decodeSourceCountAt_safe body off) sourceCountN _ room)
  intro counts stop
  exact Safe.pure stop

theorem decodeListWritesResponse_safe : Safe (decodeListWritesResponse body) fun _ => True := by
  apply Safe.bind (decodeListWritesBase_safe body)
  intro base _
  exact Safe.pure trivial

theorem relocated (stop : Nat) (read : decodeListWritesBase body = ok ((entries, counts), stop)) :
    ∃ middle, skipCounted (skipEntryAt body) entries.length 4 = ok middle ∧
      skipCounted (skipSourceCountAt body) counts.length (middle + 4) = ok stop := by
  simp only [decodeListWritesBase, bind_eq_ok_iff] at read
  rcases read with ⟨_, _, matchCount, _, _, _, ⟨found, middle⟩, first, _, _, sourceCountN, _, _, _,
    ⟨tally, last⟩, second, read⟩
  cases read
  rcases skipCounted_of_readCounted (skipEntryAt_of_decodeEntryAt body) matchCount 4 found middle
    first with ⟨rfl, walked⟩
  rcases skipCounted_of_readCounted (skipSourceCountAt_of_decodeSourceCountAt body) sourceCountN
    (middle + 4) tally last second with ⟨rfl, counted⟩
  exact ⟨middle, walked, counted⟩

theorem decodeListWritesResponseV2_eq : decodeListWritesResponseV2 body =
      decodeListWritesBase body >>= fun base => decodeNextCursor body base.1 base.2 := by
  cases read : decodeListWritesBase body with
  | panic | rejected => rw [decodeListWritesResponseV2, decodeListWritesResponse, read]; rfl
  | ok base =>
    rcases base with ⟨⟨entries, counts⟩, stop⟩
    rcases relocated body entries counts stop read with ⟨middle, walked, counted⟩
    rw [decodeListWritesResponseV2, decodeListWritesResponse, read, ok_bind, pure_eq_ok, ok_bind,
      walked, ok_bind, counted, ok_bind, ok_bind]

theorem decodeListWritesResponseV2_safe : Safe (decodeListWritesResponseV2 body) fun _ => True := by
  rw [decodeListWritesResponseV2_eq]
  apply Safe.bind (decodeListWritesBase_safe body)
  intro base inside
  rw [decodeNextCursor]
  split
  · exact Safe.pure trivial
  · apply Safe.bind (Safe.require _)
    intro _ room
    apply Safe.bind (Safe.uintAt room)
    intro nextLen _
    apply Safe.bind (Safe.require _)
    intro _ whole
    apply Safe.bind (Safe.bytesAt (by omega))
    intro nextCursor _
    exact Safe.pure trivial

/-- Every length fits the field that announces it. -/
structure ListWritesRequest.Fits (request : ListWritesRequest) : Prop where
  keyPrefix : request.keyPrefix.length < 256 ^ 4
  source : request.source.length < 256 ^ 4

structure WriteEnvelopeView.Fits (e : WriteEnvelopeView) : Prop where
  logicalKey : e.logicalKey.length < 256 ^ 4
  source : e.source.length < 256 ^ 4
  payloadHash : e.payloadHash.length < 256 ^ 2
  payload : e.payload.length < 256 ^ 4

structure ResponseFits (entries : List WriteEnvelopeView) (counts : List SourceCountView) : Prop where
  matchCount : entries.length < 256 ^ 4
  entry : ∀ e ∈ entries, e.Fits
  sourceCountN : counts.length < 256 ^ 4
  source : ∀ c ∈ counts, c.source.length < 256 ^ 4

theorem uint32_fits (value : UInt32) : value.toNat < 256 ^ 4 := value.toNat_lt

theorem uint64_fits (value : UInt64) : value.toNat < 256 ^ 8 := value.toNat_lt

theorem encodeListWritesRequest_length : (encodeListWritesRequest request).length =
      4 + request.keyPrefix.length + 8 + 8 + 4 + request.source.length := by
  simp only [encodeListWritesRequest, length_append, leBytes_length, nanosBytes_length]
  omega

theorem decodeRequestHead_encode (fits : request.Fits) (tail : Bytes) :
    decodeRequestHead (encodeListWritesRequest request ++ tail) =
        ok ⟨request.keyPrefix, request.tFromNanos, request.tToNanos, request.source.length,
          4 + request.keyPrefix.length + 8 + 8 + 4⟩ ∧
      Remains (encodeListWritesRequest request ++ tail) (4 + request.keyPrefix.length + 8 + 8 + 4)
        (request.source ++ tail) := by
  have size : (encodeListWritesRequest request ++ tail).length =
      4 + request.keyPrefix.length + 8 + 8 + 4 + request.source.length + tail.length := by
    rw [length_append, encodeListWritesRequest_length]
  generalize shape : encodeListWritesRequest request ++ tail = data at size ⊢
  have start := Remains.start data
  nth_rewrite 2 [← shape] at start
  simp only [encodeListWritesRequest, nanosBytes, append_assoc] at start
  have atPrefix : Remains data 4 _ := start.next_uint
  have atFrom := atPrefix.next
  have atTo := atFrom.next_uint
  have atSource := atTo.next_uint
  refine ⟨?_, atSource.next_uint⟩
  simp only [decodeRequestHead]
  rw [require_pos (by omega), ok_bind, start.uintAt fits.keyPrefix, ok_bind, require_pos (by omega),
    ok_bind, atPrefix.bytesAt, ok_bind, atFrom.uintAt (uint64_fits _), ok_bind,
    atTo.uintAt (uint64_fits _), ok_bind, atSource.uintAt fits.source, ok_bind, nanosOf_toUInt64,
    nanosOf_toUInt64, pure_eq_ok]

theorem decodeListWritesRequestV2_encode (fits : request.Fits)
    (cursor : Bytes) (cursorFits : cursor.length < 256 ^ 4) (limit : UInt32) :
    decodeListWritesRequestV2 (encodeListWritesRequestV2 request cursor limit) =
      ok ⟨request, if cursor.length = 0 ∧ limit = 0 then none else some cursor, limit⟩ := by
  by_cases unpaged : cursor.length = 0 ∧ limit = 0
  · rw [encodeListWritesRequestV2, if_pos unpaged, if_pos unpaged, unpaged.2]
    have size := encodeListWritesRequest_length request
    have head := decodeRequestHead_encode request fits []
    rw [append_nil, append_nil] at head
    simp only [decodeListWritesRequestV2, head.1, ok_bind]
    rw [require_pos (by omega), ok_bind, head.2.bytesAt_last, ok_bind, if_pos (by omega), pure_eq_ok]
  · rw [encodeListWritesRequestV2, if_neg unpaged, if_neg unpaged]
    have head := decodeRequestHead_encode request fits
      (leBytes 4 cursor.length ++ (cursor ++ leBytes 4 limit.toNat))
    generalize encodeListWritesRequest request ++
      (leBytes 4 cursor.length ++ (cursor ++ leBytes 4 limit.toNat)) = data at head ⊢
    have size := head.2.length
    simp only [length_append, leBytes_length] at size
    have atCursorLen := head.2.next
    have atCursor := atCursorLen.next_uint
    have atLimit := atCursor.next
    simp only [decodeListWritesRequestV2, head.1, ok_bind]
    rw [require_pos (by omega), ok_bind, head.2.bytesAt, ok_bind, if_neg (by omega),
      require_pos (by omega), ok_bind, atCursorLen.uintAt cursorFits, ok_bind, require_pos (by omega),
      ok_bind, atCursor.bytesAt, ok_bind, atLimit.uintAt_last (uint32_fits _), ok_bind,
      UInt32.ofNat_toNat, pure_eq_ok]

/-- The old decoder accepts a request that ends with its source, and there the new one stops too. -/
theorem decodeListWritesRequestV2_of_old (accepted : decodeListWritesRequest data = ok request) :
    decodeListWritesRequestV2 data = ok ⟨request, none, 0⟩ := by
  simp only [decodeListWritesRequest, bind_eq_ok_iff] at accepted
  rcases accepted with ⟨head, read, _, whole, source, taken, done⟩
  cases done
  rw [require_eq_ok_iff] at whole
  simp only [decodeListWritesRequestV2]
  rw [read, ok_bind, require_pos (by omega), ok_bind, taken, ok_bind, if_pos whole, pure_eq_ok]

theorem encodeWriteEnvelopeEntry_length : (encodeWriteEnvelopeEntry e).length =
      4 + e.logicalKey.length + 8 + 8 + 4 + e.source.length + 4 + 2 + e.payloadHash.length + 4 +
        e.payload.length + 1 := by
  simp only [encodeWriteEnvelopeEntry, length_append, leBytes_length, nanosBytes_length]
  omega

theorem decodeWriteEnvelopeEntry_encode (fits : e.Fits) (tail : Bytes) :
    decodeWriteEnvelopeEntry (encodeWriteEnvelopeEntry e ++ tail) =
      ok (e, (encodeWriteEnvelopeEntry e).length) := by
  have whole : (encodeWriteEnvelopeEntry e ++ tail).length =
      (encodeWriteEnvelopeEntry e).length + tail.length := length_append
  rw [encodeWriteEnvelopeEntry_length] at whole
  rw [encodeWriteEnvelopeEntry_length]
  generalize shape : encodeWriteEnvelopeEntry e ++ tail = data at whole ⊢
  have start := Remains.start data
  nth_rewrite 2 [← shape] at start
  simp only [encodeWriteEnvelopeEntry, nanosBytes, append_assoc] at start
  have atKey : Remains data 4 _ := start.next_uint
  have atSeq := atKey.next
  have atNanos := atSeq.next_uint
  have atSourceLen := atNanos.next_uint
  have atSource := atSourceLen.next_uint
  have atSchema := atSource.next
  have atHashLen := atSchema.next_uint
  have atHash := atHashLen.next_uint
  have atPayloadLen := atHash.next
  have atPayload := atPayloadLen.next_uint
  have atFlag := atPayload.next
  have flag : e.hashOK.toNat < 256 ^ 1 := lt_of_le_of_lt e.hashOK.toNat_le (by decide)
  have back : decide (e.hashOK.toNat ≠ 0) = e.hashOK := by cases e.hashOK <;> rfl
  simp only [decodeWriteEnvelopeEntry]
  rw [require_pos (by omega), ok_bind, start.uintAt fits.logicalKey, ok_bind, require_pos (by omega),
    ok_bind, atKey.bytesAt, ok_bind, atSeq.uintAt (uint64_fits _), ok_bind,
    atNanos.uintAt (uint64_fits _), ok_bind, atSourceLen.uintAt fits.source, ok_bind,
    require_pos (by omega), ok_bind, atSource.bytesAt, ok_bind, atSchema.uintAt (uint32_fits _),
    ok_bind, atHashLen.uintAt fits.payloadHash, ok_bind, require_pos (by omega), ok_bind,
    atHash.bytesAt, ok_bind, atPayloadLen.uintAt fits.payload, ok_bind, require_pos (by omega),
    ok_bind, atPayload.bytesAt, ok_bind, atFlag.uintAt flag, ok_bind, back, nanosOf_toUInt64,
    UInt64.ofNat_toNat, UInt32.ofNat_toNat, pure_eq_ok]

theorem decodeEntryAt_encode (fits : e.Fits) (off : Nat)
    (rest : Bytes) (left : Remains body off (encodeWriteEnvelopeEntry e ++ rest)) :
    decodeEntryAt body off = ok (e, off + (encodeWriteEnvelopeEntry e).length) := by
  rw [decodeEntryAt, left.bytesFrom, ok_bind, decodeWriteEnvelopeEntry_encode e fits, ok_bind,
    pure_eq_ok]

theorem encodeSourceCount_length (c : SourceCountView) :
    (encodeSourceCount c).length = 4 + c.source.length + 4 := by
  simp only [encodeSourceCount, length_append, leBytes_length]
  omega

theorem decodeSourceCountAt_encode (c : SourceCountView)
    (fits : c.source.length < 256 ^ 4) (off : Nat) (rest : Bytes)
    (left : Remains body off (encodeSourceCount c ++ rest)) :
    decodeSourceCountAt body off = ok (c, off + (encodeSourceCount c).length) := by
  have size := left.length
  simp only [encodeSourceCount, append_assoc, length_append, leBytes_length] at left size
  have atSource := left.next_uint
  have atCount := atSource.next
  simp only [decodeSourceCountAt]
  rw [require_pos (by omega), ok_bind, left.uintAt fits, ok_bind, require_pos (by omega), ok_bind,
    atSource.bytesAt, ok_bind, atCount.uintAt (uint32_fits _), ok_bind, UInt32.ofNat_toNat, pure_eq_ok,
    encodeSourceCount_length, ← Nat.add_assoc, ← Nat.add_assoc]

theorem encodeListWritesResponse_length (entries : List Bytes) (counts : List SourceCountView) :
    (encodeListWritesResponse entries counts).length =
      4 + entries.flatten.length + 4 + (counts.map encodeSourceCount).flatten.length := by
  simp only [encodeListWritesResponse, length_append, leBytes_length]
  omega

section

variable (fits : ResponseFits entries counts)
include fits

theorem decodeListWritesBase_encode (tail : Bytes) : decodeListWritesBase
        (encodeListWritesResponse (entries.map encodeWriteEnvelopeEntry) counts ++ tail) =
      ok ((entries, counts),
        (encodeListWritesResponse (entries.map encodeWriteEnvelopeEntry) counts).length) := by
  have whole : (encodeListWritesResponse (entries.map encodeWriteEnvelopeEntry) counts ++ tail).length =
      _ + tail.length := length_append
  rw [encodeListWritesResponse_length] at whole
  rw [encodeListWritesResponse_length]
  generalize shape : encodeListWritesResponse (entries.map encodeWriteEnvelopeEntry) counts ++ tail =
    body at whole ⊢
  have start := Remains.start body
  nth_rewrite 2 [← shape] at start
  simp only [encodeListWritesResponse, length_map, append_assoc] at start
  have atEntries : Remains body 4 _ := start.next_uint
  have atCountN := atEntries.next
  have atCounts := atCountN.next_uint
  have matchSmall := fits.matchCount
  have countSmall := fits.sourceCountN
  have readEntries := Remains.readCounted entries
    (fun e member off rest left => decodeEntryAt_encode body e (fits.entry e member) off rest left) 4 _
    atEntries
  have readCounts := Remains.readCounted counts
    (fun c member off rest left => decodeSourceCountAt_encode body c (fits.source c member) off rest
      left) _ _ atCounts
  rw [decodeListWritesBase, require_pos (by omega), ok_bind, start.uintAt matchSmall, ok_bind,
    reserve_inside (by rw [viewSize]; omega), ok_bind, readEntries, ok_bind, require_pos (by omega),
    ok_bind, atCountN.uintAt countSmall, ok_bind, reserve_inside (by rw [countSize]; omega), ok_bind,
    readCounts, ok_bind, pure_eq_ok]

theorem decodeListWritesResponseV2_encodeV2 (next : Bytes) (nextFits : next.length < 256 ^ 4) :
    decodeListWritesResponseV2
        (encodeListWritesResponseV2 (entries.map encodeWriteEnvelopeEntry) counts next) =
      ok ⟨entries, counts, some next⟩ := by
  rw [decodeListWritesResponseV2_eq, encodeListWritesResponseV2,
    decodeListWritesBase_encode entries counts fits, ok_bind]
  generalize encodeListWritesResponse (entries.map encodeWriteEnvelopeEntry) counts = base
  have tail : Remains (base ++ (leBytes 4 next.length ++ next)) base.length
      (leBytes 4 next.length ++ next) := ⟨base, rfl, rfl⟩
  have size := tail.length
  have fields : (leBytes 4 next.length ++ next).length = 4 + next.length := by
    rw [length_append, leBytes_length]
  have last := tail.next_uint
  rw [decodeNextCursor, if_neg (by omega), require_pos (by omega), ok_bind, tail.uintAt nextFits,
    ok_bind, require_pos (by omega), ok_bind, last.bytesAt_last, ok_bind, pure_eq_ok]

theorem decodeListWritesResponseV2_encode : decodeListWritesResponseV2
        (encodeListWritesResponse (entries.map encodeWriteEnvelopeEntry) counts) =
      ok ⟨entries, counts, none⟩ := by
  have base := decodeListWritesBase_encode entries counts fits []
  rw [append_nil] at base
  rw [decodeListWritesResponseV2_eq, base, ok_bind, decodeNextCursor, if_pos rfl, pure_eq_ok]

end

end KairosFlux.Proto
