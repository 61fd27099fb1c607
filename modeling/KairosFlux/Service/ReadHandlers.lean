import KairosFlux.Proto.ReadFrames
import KairosFlux.Service.Audit
import KairosFlux.Service.PlainKeys
import KairosFlux.Service.Replay
import KairosFlux.Service.RouterV2

/-! The handlers of the reads (`service/router_v2.go`) and the size of the frames they send. Each one
decodes the request, asks the store and encodes what it has got; only `handleListWrites` looks at the
frame limit before it sends. -/

namespace KairosFlux.Service

open Lib Kairnet Proto Temporal List DataPackV2

def errCodeResultTooLarge : UInt16 := 0x1002

inductive Lookup
  | found (value : Bytes)
  | notFound
  | failed

/-- The reads of the store behind the router. Where a call can fail, `none` stands for its error. -/
structure ReadStore where
  get : Bytes → Lookup
  scan : ScanRequest → List (Bytes × Bytes)
  getAsOf : Bytes → Int64 → Option (Option Version)
  listVersions : Bytes → Option (List Version)
  replayFingerprint : Bytes → Int64 → Option ReplayResult
  listWrites : AuditQuery → Option ListWritesResult
  listWritesPage : AuditQuery → Option ListWritesCursor → UInt32 → Option (ListWritesResult × Bool)

/-- `Scan` with a predicate; how one is evaluated on a JSON value is a parameter. -/
def KVServer.scanPred (eval : Predicate → Bytes → Bool) (kv : KVServer) (req : ScanRequest)
    (limit : Nat) : List (Bytes × Bytes) :=
  ((kv.scanRaw req.start req.stop).filter fun entry =>
    !isInternalKey entry.1 && (req.pred.op == 0 || eval req.pred entry.2)).take
      (if limit = 0 ∨ maxScanResults < limit then maxScanResults else limit)

/-- The reads of a store whose files can all be read. -/
def TemporalStore.reads (eval : Predicate → Bytes → Bool) (ts : TemporalStore) : ReadStore where
  get key := match ts.store.get key with
    | some value => .found value
    | none => .notFound
  scan req := ts.store.scanPred eval req 0
  getAsOf key asOfNanos := some (ts.getAsOf key asOfNanos)
  listVersions key := some (ts.listVersions key)
  replayFingerprint keyPrefix asOfNanos := some (ts.replayFingerprint keyPrefix asOfNanos)
  listWrites query := some (ts.listWrites query)
  listWritesPage query after limit := some (ts.listWritesPage query after limit)

inductive ReadResult
  | value (stored : Bytes)
  | rows (entries : List (Bytes × Bytes))
  | version (v : Version)
  | versions (vs : List Version)
  | replay (result : ReplayResult)
  | writes (result : ListWritesResult)
  | page (result : ListWritesResult) (nextCursor : Bytes)

def WriteEnvelope.view (e : WriteEnvelope) : WriteEnvelopeView :=
  ⟨e.logicalKey, e.seq, e.writeNanos, e.source, e.schemaVer, e.persistedHash, e.payload, e.hashOK⟩

def SourceCount.view (c : SourceCount) : SourceCountView := ⟨c.source, c.count⟩

def encodeVersion (v : Version) : Bytes := encodeVersionEntry v.seq v.writeNanos v.payload

def encodeWrite (e : WriteEnvelope) : Bytes := encodeWriteEnvelopeEntry e.view

def encodeListWritesBody (result : ListWritesResult) : Bytes :=
  encodeListWritesResponse (result.entries.map encodeWrite) (result.bySource.map SourceCount.view)

def encodeListWritesBodyV2 (result : ListWritesResult) (nextCursor : Bytes) : Bytes :=
  encodeListWritesResponseV2 (result.entries.map encodeWrite) (result.bySource.map SourceCount.view)
    nextCursor

def ReadResult.body : ReadResult → Bytes
  | value stored => stored
  | rows entries => (encodeScanResponse statusOK entries).drop (1 + statusOK.length)
  | version v => encodeVersion v
  | versions vs => encodeListVersionsResponse (vs.map encodeVersion)
  | replay result =>
    encodeReplayFingerprintResponseV2 result.keyCount (UInt32.ofNat result.mismatches.length)
      result.fingerprint result.mismatches result.bounded
  | writes result => encodeListWritesBody result
  | page result nextCursor => encodeListWritesBodyV2 result nextCursor

def malformedFrame : Rejection := ⟨errCodeMalformedFrame, ascii "malformed_frame".toList⟩

def keyNotFound : Rejection := ⟨errCodeNone, ascii "notfound".toList⟩

def readError : Rejection := ⟨errCodeNone, ascii "error".toList⟩

def resultTooLarge : Rejection := ⟨errCodeResultTooLarge, ascii "result_too_large".toList⟩

section

variable (reads : ReadStore) (data : Bytes)

def readGet : Except Rejection ReadResult :=
  match decodeKeyFrame data with
  | none => .error malformedFrame
  | some key =>
    match reads.get key with
    | .notFound => .error keyNotFound
    | .failed => .error readError
    | .found value => .ok (.value value)

def readScan : Except Rejection ReadResult :=
  match decodeScanRequest data with
  | none => .error malformedFrame
  | some req => .ok (.rows (reads.scan req))

def readGetAsOf : Except Rejection ReadResult :=
  match decodeAsOfFrame data with
  | none => .error malformedFrame
  | some (key, asOfNanos) =>
    match reads.getAsOf key asOfNanos with
    | none => .error readError
    | some none => .error keyNotFound
    | some (some v) => .ok (.version v)

def readListVersions : Except Rejection ReadResult :=
  match decodeKeyFrame data with
  | none => .error malformedFrame
  | some key =>
    match reads.listVersions key with
    | none => .error readError
    | some versions => .ok (.versions versions)

def readReplayFingerprint : Except Rejection ReadResult :=
  match decodeReplayFingerprintRequest data with
  | none => .error malformedFrame
  | some (keyPrefix, asOfNanos) =>
    match reads.replayFingerprint keyPrefix asOfNanos with
    | none => .error readError
    | some result => .ok (.replay result)

/-- A request without a cursor starts at the beginning; no cursor is read from one that is malformed. -/
def readCursor (afterBytes : Bytes) : Except Rejection (Option ListWritesCursor) :=
  if 0 < afterBytes.length then
    match decodeListWritesCursor afterBytes with
    | .ok (logicalKey, seq) => .ok (some ⟨logicalKey, seq⟩)
    | _ => .error malformedFrame
  else .ok none

def nextCursor (result : ListWritesResult) (hasMore : Bool) : Bytes :=
  match hasMore, result.entries.getLast? with
  | true, some last => encodeListWritesCursor last.logicalKey last.seq
  | _, _ => []

def readListWrites : Except Rejection ReadResult :=
  match decodeListWritesRequestV2 data with
  | .ok paged =>
    let query : AuditQuery := ⟨paged.request.keyPrefix, paged.request.tFromNanos,
      paged.request.tToNanos, paged.request.source⟩
    let afterBytes := paged.after.getD []
    if afterBytes.length = 0 ∧ paged.limit = 0 then
      match reads.listWrites query with
      | none => .error readError
      | some result => .ok (.writes result)
    else
      match readCursor afterBytes with
      | .error rejection => .error rejection
      | .ok after =>
        match reads.listWritesPage query after paged.limit with
        | none => .error readError
        | some (result, hasMore) => .ok (.page result (nextCursor result hasMore))
  | _ => .error malformedFrame

end

/-- `sendErr` or `sendOK`. -/
def answerOf : Except Rejection ReadResult → Answer
  | .error rejection => .err rejection.code rejection.reason
  | .ok result => .ok result.body

-- The comparison is between 32-bit numbers: the length of the body is cut off first.
def limited (maxPackageSize : UInt32) : Except Rejection ReadResult → Except Rejection ReadResult
  | .error rejection => .error rejection
  | .ok result =>
    if effectiveMaxSize maxPackageSize < UInt32.ofNat result.body.length then .error resultTooLarge
    else .ok result

def handleGet (reads : ReadStore) (data : Bytes) : Answer := answerOf (readGet reads data)

def handleScan (reads : ReadStore) (data : Bytes) : Answer := answerOf (readScan reads data)

def handleGetAsOf (reads : ReadStore) (data : Bytes) : Answer := answerOf (readGetAsOf reads data)

def handleListVersions (reads : ReadStore) (data : Bytes) : Answer := answerOf (readListVersions reads data)

def handleReplayFingerprint (reads : ReadStore) (data : Bytes) : Answer :=
  answerOf (readReplayFingerprint reads data)

def handleListWrites (maxPackageSize : UInt32) (reads : ReadStore) (data : Bytes) : Answer :=
  answerOf (limited maxPackageSize (readListWrites reads data))

inductive ReadOp
  | get
  | scan
  | getAsOf
  | listVersions
  | replayFingerprint
  | listWrites
  deriving DecidableEq

namespace ReadOp

def opcode : ReadOp → UInt8
  | get => opcodeGet
  | scan => opcodeScan
  | getAsOf => opcodeGetAsOf
  | listVersions => opcodeListVersions
  | replayFingerprint => opcodeReplayFingerprint
  | listWrites => opcodeListWrites

def ofOpcode (code : UInt8) : Option ReadOp :=
  [get, scan, getAsOf, listVersions, replayFingerprint, listWrites].find? fun op => op.opcode = code

def handle (maxPackageSize : UInt32) (reads : ReadStore) (data : Bytes) : ReadOp → Answer
  | get => handleGet reads data
  | scan => handleScan reads data
  | getAsOf => handleGetAsOf reads data
  | listVersions => handleListVersions reads data
  | replayFingerprint => handleReplayFingerprint reads data
  | listWrites => handleListWrites maxPackageSize reads data

end ReadOp

/-- The router over a store: its reads are served by the handlers above. -/
def RouterV2.serving {σ : Type} (r : RouterV2 σ) (maxPackageSize : UInt32) (reads : σ → ReadStore) :
    RouterV2 σ where
  windowSafetyValveN := r.windowSafetyValveN
  backend :=
    { r.backend with
      answer := fun s req =>
        match ReadOp.ofOpcode req.opcode with
        | some op => (s, op.handle maxPackageSize (reads s) req.data)
        | none => r.backend.answer s req }

def ReadResult.size : ReadResult → Nat
  | value stored => stored.length
  | rows entries => 4 + (entries.map fun entry => 8 + entry.1.length + entry.2.length).sum
  | version v => 20 + v.payload.length
  | versions vs => 4 + (vs.map fun v => 20 + v.payload.length).sum
  | replay result =>
    10 + result.fingerprint.length + (result.mismatches.map fun key => 2 + key.length).sum + 1
  | writes result => writesSize result
  | page result nextCursor => writesSize result + (4 + nextCursor.length)
where
  writesSize (result : ListWritesResult) : Nat :=
    4 + (result.entries.map fun e => 35 + e.logicalKey.length + e.source.length +
      e.persistedHash.length + e.payload.length).sum + 4 +
      (result.bySource.map fun c => 8 + c.source.length).sum

theorem writesBody_length (result : ListWritesResult) :
    (encodeListWritesBody result).length = ReadResult.size.writesSize result := by
  have entry : ∀ e : WriteEnvelope, (encodeWrite e).length =
      35 + e.logicalKey.length + e.source.length + e.persistedHash.length + e.payload.length := by
    intro e
    rw [encodeWrite, encodeWriteEnvelopeEntry_length, WriteEnvelope.view]
    simp only
    omega
  have count : ∀ c : SourceCount, (encodeSourceCount c.view).length = 8 + c.source.length := by
    intro c
    rw [encodeSourceCount_length, SourceCount.view]
    simp only
    omega
  rw [encodeListWritesBody, encodeListWritesResponse_length, map_map,
    length_flatten_map result.entries encodeWrite _ entry,
    length_flatten_map result.bySource (encodeSourceCount ∘ SourceCount.view) _ count,
    ReadResult.size.writesSize]

theorem ReadResult.body_length (result : ReadResult) : result.body.length = result.size := by
  have version : ∀ v : Version, (encodeVersion v).length = 20 + v.payload.length := by
    intro v
    exact encodeVersionEntry_length _ _ _
  cases result with
  | value stored => rfl
  | rows entries =>
    simp only [body, size, encodeScanResponse, drop_succ_cons, Nat.add_comm 1, drop_left,
      length_append, leBytes_length,
      length_flatten_map entries encodeScanEntry _ encodeScanEntry_length]
  | version v => exact version v
  | versions vs =>
    simp only [body, size, encodeListVersionsResponse, length_append, leBytes_length,
      length_flatten_map vs encodeVersion _ version]
  | replay result => exact encodeReplayFingerprintResponseV2_length _ _ _ _ _
  | writes result => exact writesBody_length result
  | page result nextCursor =>
    rw [body, size, encodeListWritesBodyV2, encodeListWritesResponseV2, length_append,
      length_append, leBytes_length, ← writesBody_length, encodeListWritesBody]

def Response.payload : Response → Bytes
  | ok _ _ payload => payload
  | err _ _ code reason => v2ErrPayload code reason
  | windowAck fields => v2AckBody fields
  | statAck fields => v2AckBody fields

def Response.isErr : Response → Bool
  | err _ _ _ _ => true
  | _ => false

theorem Response.decode_frame (maxPackageSize : UInt32) (response : Response)
    (fits : response.payload.length ≤ (effectiveMaxSize maxPackageSize).toNat) (rest : Bytes) :
    ∃ msg, decode maxPackageSize (response.frame ++ rest) = (.ok msg, rest) ∧
      msg.payload = response.payload := by
  have sent : ∀ header : HeaderV2,
      decode maxPackageSize
          (pack (newMessageV2 header response.payload) ++ rest) =
        (.ok (newMessageV2 header response.payload), rest) := by
    intro header
    exact (frames_pack ⟨rfl, fits⟩).whole rest
  cases response with
  | ok type corrID payload => exact ⟨_, sent ⟨0, opcodeOK, type, corrID, 0⟩, rfl⟩
  | err type corrID code reason => exact ⟨_, sent ⟨0, opcodeErr, type, corrID, 0⟩, rfl⟩
  | windowAck fields =>
    exact ⟨_, sent ⟨0, opcodeWindowAck, typeUnspecified, fields.corrID, 0⟩, rfl⟩
  | statAck fields => exact ⟨_, sent ⟨0, opcodeStatAck, typeUnspecified, fields.corrID, 0⟩, rfl⟩

/-- The response to a read that has come to `outcome`. -/
def responseTo (type : UInt16) (corrID : UInt32) : Except Rejection ReadResult → Response
  | .error rejection => .err type corrID rejection.code rejection.reason
  | .ok result => .ok type corrID result.body

def payloadSize : Except Rejection ReadResult → Nat
  | .error rejection => 4 + rejection.reason.length
  | .ok result => result.size

theorem responseTo_payload_length (type : UInt16) (corrID : UInt32)
    (outcome : Except Rejection ReadResult) :
    (responseTo type corrID outcome).payload.length = payloadSize outcome := by
  cases outcome with
  | error rejection =>
    simp only [responseTo, Response.payload, v2ErrPayload, payloadSize, length_append,
      leBytes_length]
  | ok result => exact result.body_length

namespace ReadOp

def read (store : ReadStore) (data : Bytes) : ReadOp → Except Rejection ReadResult
  | get => readGet store data
  | scan => readScan store data
  | getAsOf => readGetAsOf store data
  | listVersions => readListVersions store data
  | replayFingerprint => readReplayFingerprint store data
  | listWrites => readListWrites store data

def checked (maxPackageSize : UInt32) (found : Except Rejection ReadResult) :
    ReadOp → Except Rejection ReadResult
  | listWrites => limited maxPackageSize found
  | _ => found

theorem handle_eq (maxPackageSize : UInt32) (store : ReadStore) (data : Bytes) (op : ReadOp) :
    op.handle maxPackageSize store data =
      answerOf (op.checked maxPackageSize (op.read store data)) := by
  cases op <;> rfl

theorem ofOpcode_opcode (op : ReadOp) : ofOpcode op.opcode = some op := by
  cases op <;> rfl

/-- What the store has fits the limit, or the size test of `LIST_WRITES` notices that it does not; and
the refusals fit. -/
def Sendable (maxPackageSize : UInt32) (found : Except Rejection ReadResult) (op : ReadOp) : Prop :=
  let limit := (effectiveMaxSize maxPackageSize).toNat
  match found with
  | .error rejection => 4 + rejection.reason.length ≤ limit
  | .ok result =>
    result.size ≤ limit ∨
      op = .listWrites ∧ limit < result.size % 2 ^ 32 ∧ 4 + resultTooLarge.reason.length ≤ limit

theorem sendable_iff (maxPackageSize : UInt32) (found : Except Rejection ReadResult) (op : ReadOp) :
    op.Sendable maxPackageSize found ↔
      payloadSize (op.checked maxPackageSize found) ≤ (effectiveMaxSize maxPackageSize).toNat := by
  cases found with
  | error rejection => cases op <;> rfl
  | ok result =>
    by_cases audit : op = .listWrites
    · subst audit
      simp only [Sendable, checked, limited, UInt32.lt_iff_toNat_lt, UInt32.toNat_ofNat',
        result.body_length, true_and]
      split_ifs with large
      · simp only [payloadSize]
        omega
      · simp only [payloadSize]
        omega
    · have plain : op.checked maxPackageSize (.ok result) = .ok result := by
        cases op <;> first | rfl | exact absurd rfl audit
      simp only [Sendable, plain, payloadSize, audit, false_and, or_false]

theorem handleV2_getLast {σ : Type} (r : RouterV2 σ) (maxPackageSize : UInt32)
    (store : σ → ReadStore) (tier : AckTier) (s : σ) (state : V2ConnState) (type : UInt16)
    (corrID : UInt32) (data : Bytes) (op : ReadOp) :
    ((r.serving maxPackageSize store).handleV2 tier s state
        ⟨op.opcode, type, corrID, data⟩).2.2.getLast? =
      some (responseTo type corrID (op.checked maxPackageSize (op.read (store s) data))) := by
  have answered : ((r.serving maxPackageSize store).handleAnswer s
      ⟨op.opcode, type, corrID, data⟩).2 =
        [responseTo type corrID (op.checked maxPackageSize (op.read (store s) data))] := by
    simp only [RouterV2.handleAnswer, RouterV2.serving, ofOpcode_opcode, handle_eq]
    cases op.checked maxPackageSize (op.read (store s) data) <;> rfl
  have shape : ∃ flushed, ((r.serving maxPackageSize store).handleV2 tier s state
      ⟨op.opcode, type, corrID, data⟩).2.2 =
        flushed ++ ((r.serving maxPackageSize store).handleAnswer s
          ⟨op.opcode, type, corrID, data⟩).2 := by
    cases op with
    | get | scan => exact ⟨(RouterV2.maybeImplicitFlush tier state).2, rfl⟩
    | getAsOf | listVersions | replayFingerprint | listWrites => exact ⟨[], rfl⟩
  rcases shape with ⟨flushed, shape⟩
  rw [shape, answered, List.getLast?_concat]

end ReadOp

/-- The response is not larger than the limit, a peer with the same limit reads it, and a result that
would not fit is answered by an error frame. -/
structure FitsFrame (maxPackageSize : UInt32) (found : Except Rejection ReadResult)
    (response : Response) : Prop where
  payload : response.payload.length ≤ (effectiveMaxSize maxPackageSize).toNat
  received : ∀ rest, ∃ msg,
    decode maxPackageSize (response.frame ++ rest) = (.ok msg, rest) ∧
      msg.payload = response.payload
  refused : ∀ result, found = .ok result →
    (effectiveMaxSize maxPackageSize).toNat < result.size → response.isErr

theorem fitsFrame_iff (maxPackageSize : UInt32) (found : Except Rejection ReadResult) (op : ReadOp)
    (type : UInt16) (corrID : UInt32) :
    FitsFrame maxPackageSize found (responseTo type corrID (op.checked maxPackageSize found)) ↔
      op.Sendable maxPackageSize found := by
  rw [ReadOp.sendable_iff, ← responseTo_payload_length type corrID]
  constructor
  · intro fits
    exact fits.payload
  · intro small
    refine ⟨small, Response.decode_frame maxPackageSize _ small, ?_⟩
    intro result present large
    -- An OK frame would carry the body of the result itself.
    rw [responseTo_payload_length] at small
    cases sent : op.checked maxPackageSize found with
    | error rejection => rfl
    | ok other =>
      have same : other = result := by
        rw [present] at sent
        cases op with
        | listWrites =>
          simp only [ReadOp.checked, limited] at sent
          split_ifs at sent
          exact (Except.ok.inj sent).symm
        | _ => exact (Except.ok.inj sent).symm
      rw [sent, payloadSize, same] at small
      exact absurd large (not_lt.mpr small)

/-- A read is answered by a frame that fits exactly if the store has nothing too large for it. -/
theorem read_response_fits_iff {σ : Type} (r : RouterV2 σ) (maxPackageSize : UInt32)
    (store : σ → ReadStore) (tier : AckTier) (s : σ) (state : V2ConnState) (type : UInt16)
    (corrID : UInt32) (data : Bytes) (op : ReadOp) :
    (∃ response, ((r.serving maxPackageSize store).handleV2 tier s state
        ⟨op.opcode, type, corrID, data⟩).2.2.getLast? = some response ∧
      FitsFrame maxPackageSize (op.read (store s) data) response) ↔
    op.Sendable maxPackageSize (op.read (store s) data) := by
  rw [ReadOp.handleV2_getLast]
  constructor
  · intro answered
    rcases answered with ⟨response, same, fits⟩
    rw [← Option.some.inj same, fitsFrame_iff] at fits
    exact fits
  · intro sendable
    exact ⟨_, rfl, (fitsFrame_iff maxPackageSize _ op type corrID).mpr sendable⟩

/-- A scan of two small values under a limit that each of their writes has met: an OK frame that a
peer with the same limit refuses. A limit below the size of an error frame cannot be kept at all. -/
theorem scan_response_too_large :
    let put := fun key => Command.mk .put [key] (some [1, 1, 1, 1, 1, 1, 1, 1])
    let ts := newTemporalStore ((KVServer.empty.write (put 97)).write (put 98))
    let router : RouterV2 TemporalStore := ⟨⟨fun _ => false, none, fun ts cmd => (ts.write cmd, true),
      fun ts _ => (ts, .ok [])⟩, 1000⟩
    let sent := fun (maxPackageSize : UInt32) (op : ReadOp) (data : Bytes) =>
      ((router.serving maxPackageSize (TemporalStore.reads fun _ _ => true)).handleV2 .every ts .new
        ⟨op.opcode, 0, 7, data⟩).2.2
    (sent 24 .scan (List.replicate 13 0)).map Response.payload =
        [[2, 0, 0, 0] ++ (encodeScanEntry ([97], [1, 1, 1, 1, 1, 1, 1, 1]) ++
          encodeScanEntry ([98], [1, 1, 1, 1, 1, 1, 1, 1]))] ∧
      (sent 24 .scan (List.replicate 13 0)).map (fun response =>
        (decode 24 response.frame).1) = [.error (.frameTooLarge 38 24)] ∧
      (sent 8 .get []).map (fun response => (decode 8 response.frame).1) =
        [.error (.frameTooLarge 19 8)] := by
  decide +kernel

end KairosFlux.Service
