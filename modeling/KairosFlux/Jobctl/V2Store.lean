import KairosFlux.Proto.ClientFrames
import KairosFlux.Service.AsOf
import KairosFlux.Service.ReadHandlers
import KairosFlux.Service.Roles

/-! The store over the network (`internal/jobctl/v2store.go`) and the server it talks to
(`service/router_v2.go`, `kairnet/transport/connection.go`).

The latest version is read as the version as of now. Now is the client's clock; the versions carry the
times of the server's clock. -/

namespace KairosFlux.Jobctl

open Lib Kairnet Proto Temporal Service List DataPackV2

/-- What becomes of a request: it does not arrive, no response to it arrives, or neither is lost. -/
inductive Delivery
  | unreachable
  | unanswered
  | answered
  deriving DecidableEq

/-- What one request meets: the network, the memory guardrail and the two clocks. -/
structure Moment where
  delivery : Delivery
  blocked : Bool
  serverNanos : Int64
  clientNanos : Int64

/-- `router` serves the requests this client does not make. -/
structure Server where
  router : RouterV2 TemporalStore
  schemas : Schemas
  eval : Predicate → Bytes → Bool
  maxPackageSize : UInt32

namespace Server

variable (server : Server) (moment : Moment)

def handlePutVersioned (ts : TemporalStore) (req : RequestV2) : TemporalStore × Service.Answer :=
  if moment.blocked then (ts, .err errCodeMemoryLimit (ascii "memory_limit_reached".toList))
  else
    match decodePutVersionedFrame req.data with
    | none => (ts, .err malformedFrame.code malformedFrame.reason)
    | some (key, value, source) =>
      match server.schemas.handlePutVersioned ts
          ⟨req.type, key, value, source, moment.serverNanos⟩ with
      | (ts, .error rejection) => (ts, .err rejection.code rejection.reason)
      | (ts, .ok seq) => (ts, .ok (leBytes 8 seq.toNat))

/-- The router with the handlers of `PUT_VERSIONED` and of the reads. -/
def routing : RouterV2 TemporalStore :=
  RouterV2.serving
    { server.router with
      backend :=
        { server.router.backend with
          answer := fun ts req =>
            if req.opcode = opcodePutVersioned then server.handlePutVersioned moment ts req
            else server.router.backend.answer ts req } }
    server.maxPackageSize (TemporalStore.reads server.eval)

/-- One turn of the reader of a connection that has agreed on every-acks. A frame that cannot be
decoded ends the connection. -/
def respond (ts : TemporalStore) (frame : Bytes) : TemporalStore × Option Response :=
  match (decode server.maxPackageSize frame).1 with
  | .error _ => (ts, none)
  | .ok msg =>
    let handled := (server.routing moment).handleV2 .every ts .new
      ⟨msg.header.opcode, msg.header.type, msg.header.corrID, msg.payload⟩
    (handled.1, handled.2.2.head?)

end Server

inductive StoreError
  | connection
  | readFrame (cause : DataPackV2.DecodeError)
  | errUnreadable
  | rejected (code : UInt16) (reason : Bytes)
  | seqLength (length : Nat)
  | unreadable
  deriving DecidableEq

namespace V2Store

variable (server : Server) (moment : Moment)

/-- The message of a request; the correlation is always 1. -/
def request (opcode : UInt8) (payload : Bytes) : MessageV2 :=
  newMessageV2 ⟨0, opcode, typeUnspecified, 1, 0⟩ payload

def received : Option Response → Except StoreError MessageV2
  | none => .error .connection
  | some response =>
    match (decode 0 response.frame).1 with
    | .error cause => .error (.readFrame cause)
    | .ok resp => .ok resp

-- A request that is answered too late is one without an answer, made when the server handles it.
def roundTrip (ts : TemporalStore) (opcode : UInt8) (payload : Bytes) :
    TemporalStore × Except StoreError MessageV2 :=
  match moment.delivery with
  | .unreachable => (ts, .error .connection)
  | .unanswered => ((server.respond moment ts (pack (request opcode payload))).1,
      .error .connection)
  | .answered =>
    let responded := server.respond moment ts (pack (request opcode payload))
    (responded.1, received responded.2)

def errFromErrResp (resp : MessageV2) : StoreError :=
  match decodeV2ErrPayload resp.payload with
  | none => .errUnreadable
  | some (code, reason) => .rejected code reason

def seqOf (resp : MessageV2) : Except StoreError UInt64 :=
  if resp.header.opcode ≠ opcodeOK then .error (errFromErrResp resp)
  else if resp.payload.length ≠ 8 then .error (.seqLength resp.payload.length)
  else .ok (UInt64.ofNat (leValue resp.payload))

def payloadOf (resp : MessageV2) : Except StoreError (Option Bytes) :=
  if resp.header.opcode ≠ opcodeOK then
    match decodeV2ErrPayload resp.payload with
    | some (_, reason) =>
      if reason = keyNotFound.reason then .ok none else .error (errFromErrResp resp)
    | none => .error (errFromErrResp resp)
  else
    match decodeVersionEntry resp.payload with
    | none => .error .unreadable
    | some (_, _, payload, _) => .ok (some payload)

def putVersioned (ts : TemporalStore) (logicalKey payload source : Bytes) :
    TemporalStore × Except StoreError UInt64 :=
  let answered := roundTrip server moment ts opcodePutVersioned
    (encodePutVersionedFrame logicalKey payload source)
  (answered.1, answered.2.bind seqOf)

def getLatest (ts : TemporalStore) (logicalKey : Bytes) :
    TemporalStore × Except StoreError (Option Bytes) :=
  let answered := roundTrip server moment ts opcodeGetAsOf
    (encodeAsOfFrame logicalKey moment.clientNanos)
  (answered.1, answered.2.bind payloadOf)

end V2Store

open V2Store

inductive StoreCall
  | putVersioned (logicalKey payload source : Bytes)
  | getLatest (logicalKey : Bytes)

/-- A call of the client and what it meets. Steps are in the order in which the server handles them. -/
structure StoreStep where
  call : StoreCall
  moment : Moment

def Server.step (server : Server) (ts : TemporalStore) (step : StoreStep) : TemporalStore :=
  match step.call with
  | .putVersioned logicalKey payload source =>
    (putVersioned server step.moment ts logicalKey payload source).1
  | .getLatest logicalKey => (getLatest server step.moment ts logicalKey).1

def Server.after (server : Server) (steps : List StoreStep) : TemporalStore :=
  run server.step (newTemporalStore KVServer.empty) steps

theorem decode_pack_opcode (maxSize : UInt32) (msg resp : MessageV2)
    (decoded : (decode maxSize (pack msg)).1 = .ok resp) :
    resp.header.opcode = msg.header.opcode := by
  have opcode : ∀ h, unPack (head msg) = .ok h →
      h.opcode = msg.header.opcode := by
    intro h unpacked
    have marked : decodeMagicVer (UInt16.ofNat (leValue
        (slice (head msg) 0 2))) = (magicV2, versionV2) := by
      rw [show slice (head msg) 0 2 = leBytes 2 (encodeMagicVer magicV2 versionV2).toNat from rfl]
      decide
    rw [unPack, if_neg (by rw [length_head]; exact lt_irrefl _), marked] at unpacked
    simp only [ne_eq, not_true_eq_false, if_false, Except.ok.injEq] at unpacked
    rw [← unpacked]
    rfl
  rw [decode, pack, readFull_append (length_head msg)] at decoded
  simp only at decoded
  split at decoded
  · cases decoded
  · rename_i h unpacked
    rw [← opcode h unpacked]
    split_ifs at decoded
    rw [readBody] at decoded
    split_ifs at decoded
    · split at decoded
      · cases decoded
      · rw [← Except.ok.inj decoded]
    · rw [← Except.ok.inj decoded]

theorem decode_pack_too_large (maxSize : UInt32) (header : HeaderV2) (payload : Bytes)
    (long : (effectiveMaxSize maxSize).toNat < payload.length) (sized : payload.length < 256 ^ 4) :
    ∃ err, (decode maxSize (pack (newMessageV2 header payload))).1 =
      .error err := by
  have declared : leValue (slice (pack (newMessageV2 header payload)) 10 14) =
      payload.length := by
    rw [show slice (pack (newMessageV2 header payload)) 10 14 =
      leBytes 4 payload.length from rfl, leValue_leBytes_of_lt sized]
  have enough : headerV2Len ≤ (pack (newMessageV2 header payload)).length := by
    rw [pack, length_append, length_head]
    omega
  rw [decode_too_large maxSize _ enough rfl (by rw [declared]; exact long)]
  exact ⟨_, rfl⟩

namespace V2Store

theorem payloadOf_err {resp : MessageV2} (refused : resp.header.opcode ≠ opcodeOK) (payload : Bytes) :
    payloadOf resp ≠ .ok (some payload) := by
  rw [payloadOf, if_pos refused]
  split
  · split_ifs <;> exact nofun
  · exact nofun

theorem received_err {Value : Type} (read : MessageV2 → Except StoreError Value) (value : Value)
    (failing : ∀ resp, resp.header.opcode ≠ opcodeOK → read resp ≠ .ok value) (type : UInt16)
    (corrID : UInt32) (code : UInt16) (reason : Bytes) :
    (received (some (.err type corrID code reason))).bind read ≠ .ok value := by
  rw [received]
  split
  · exact nofun
  · rename_i resp decoded
    have opcode := decode_pack_opcode 0 _ resp decoded
    have different : opcodeErr ≠ opcodeOK := by decide
    exact failing resp (opcode.trans_ne different)

variable (type : UInt16) (corrID : UInt32)

theorem received_ok (payload : Bytes) (fits : payload.length ≤ hardMaxPackageSize.toNat) :
    received (some (.ok type corrID payload)) =
      .ok (newMessageV2 ⟨0, opcodeOK, type, corrID, 0⟩ payload) := by
  have whole := (@frames_pack 0 (newMessageV2 ⟨0, opcodeOK, type, corrID, 0⟩ payload)
    ⟨rfl, fits⟩).whole []
  rw [append_nil] at whole
  rw [received, Response.frame, Response.frame.send, whole]

theorem received_too_large (payload : Bytes)
    (long : hardMaxPackageSize.toNat < payload.length) (sized : payload.length < 256 ^ 4) :
    ∃ err, received (some (.ok type corrID payload)) = .error err := by
  rcases decode_pack_too_large 0 ⟨0, opcodeOK, type, corrID, 0⟩ payload long sized with ⟨err, failed⟩
  refine ⟨.readFrame err, ?_⟩
  rw [received, Response.frame, Response.frame.send, failed]

end V2Store

namespace Server

variable (server : Server) (moment : Moment) (ts : TemporalStore)

def limit : Nat := (effectiveMaxSize server.maxPackageSize).toNat

theorem respond_fits (opcode : UInt8) (payload : Bytes) (fits : payload.length ≤ server.limit) :
    server.respond moment ts (pack (request opcode payload)) =
      let handled := (server.routing moment).handleV2 .every ts .new
        ⟨opcode, typeUnspecified, 1, payload⟩
      (handled.1, handled.2.2.head?) := by
  have whole := (@frames_pack server.maxPackageSize (request opcode payload)
    ⟨rfl, fits⟩).whole []
  rw [append_nil] at whole
  rw [respond, whole]
  rfl

theorem respond_too_large (opcode : UInt8) (payload : Bytes) (long : server.limit < payload.length)
    (sized : payload.length < 256 ^ 4) :
    server.respond moment ts (pack (request opcode payload)) = (ts, none) := by
  rcases decode_pack_too_large server.maxPackageSize ⟨0, opcode, typeUnspecified, 1, 0⟩ payload long
    sized with ⟨err, failed⟩
  rw [respond, request, failed]

/-- The put that a frame which has arrived makes, if it is admitted. -/
def admitted (frame : VersionedFrame) : Option PutCall :=
  if sourceRole frame.source = .agent ∧ isProposalKey frame.key = false then none
  else
    match server.schemas.verdict frame with
    | .drop _ _ => none
    | .pass value => some (server.schemas.call frame value)

theorem handlePutVersioned_admitted (frame : VersionedFrame) (call : PutCall)
    (admits : server.admitted frame = some call) :
    server.schemas.handlePutVersioned ts frame = (ts.put call, .ok (ts.nextSeq frame.key)) := by
  rw [admitted] at admits
  rw [Schemas.handlePutVersioned]
  split_ifs at admits ⊢ with forbidden
  cases said : server.schemas.verdict frame with
  | drop code reason => simp [said] at admits
  | pass value =>
    simp only [said, Option.some.injEq] at admits
    simp only [admits]

theorem handlePutVersioned_refused (frame : VersionedFrame) (refuses : server.admitted frame = none) :
    ∃ rejection, server.schemas.handlePutVersioned ts frame = (ts, .error rejection) := by
  rw [admitted] at refuses
  rw [Schemas.handlePutVersioned]
  split_ifs at refuses ⊢ with forbidden
  · exact ⟨_, rfl⟩
  · cases said : server.schemas.verdict frame with
    | drop code reason => exact ⟨_, rfl⟩
    | pass value => simp [said] at refuses

def frameOf (logicalKey payload source : Bytes) : VersionedFrame :=
  ⟨typeUnspecified, logicalKey, payload, source, moment.serverNanos⟩

/-- The put that a request makes in the store when it arrives. -/
def accepted (logicalKey payload source : Bytes) : Option PutCall :=
  if moment.blocked ∨ server.limit < (encodePutVersionedFrame logicalKey payload source).length then
    none
  else server.admitted (frameOf moment logicalKey payload source)

def putOf (step : StoreStep) : Option PutCall :=
  match step.call with
  | .getLatest _ => none
  | .putVersioned logicalKey payload source =>
    if step.moment.delivery = .unreachable then none
    else server.accepted step.moment logicalKey payload source

end Server

def StoreStep.Sized (step : StoreStep) : Prop :=
  match step.call with
  | .putVersioned logicalKey payload source =>
    (encodePutVersionedFrame logicalKey payload source).length < 256 ^ 4
  | .getLatest logicalKey => 12 + logicalKey.length < 256 ^ 4

theorem StoreStep.Sized.parts {logicalKey payload source : Bytes}
    (sized : (encodePutVersionedFrame logicalKey payload source).length < 256 ^ 4) :
    logicalKey.length < 256 ^ 4 ∧ payload.length < 256 ^ 4 ∧ source.length < 256 ^ 4 := by
  rw [encodePutVersionedFrame_length] at sized
  split_ifs at sized with none
  · subst none
    exact ⟨by omega, by omega, by decide⟩
  · exact ⟨by omega, by omega, by omega⟩

namespace Server

variable (server : Server) (moment : Moment) (ts : TemporalStore)

theorem routing_put (data : Bytes) :
    (server.routing moment).handleV2 .every ts .new ⟨opcodePutVersioned, typeUnspecified, 1, data⟩ =
      ((server.handlePutVersioned moment ts ⟨opcodePutVersioned, typeUnspecified, 1, data⟩).1, .new,
        match (server.handlePutVersioned moment ts ⟨opcodePutVersioned, typeUnspecified, 1, data⟩).2 with
        | .ok payload => [.ok typeUnspecified 1 payload]
        | .err code reason => [.err typeUnspecified 1 code reason]) := by
  have answer : (server.routing moment).backend.answer ts
      ⟨opcodePutVersioned, typeUnspecified, 1, data⟩ =
        server.handlePutVersioned moment ts ⟨opcodePutVersioned, typeUnspecified, 1, data⟩ := rfl
  change (((server.routing moment).handleAnswer ts _).1, _,
    ((server.routing moment).handleAnswer ts _).2) = _
  rw [RouterV2.handleAnswer, answer]
  rcases server.handlePutVersioned moment ts ⟨opcodePutVersioned, typeUnspecified, 1, data⟩ with
    ⟨stored, payload | ⟨code, reason⟩⟩ <;> rfl

theorem routing_getAsOf (data : Bytes) :
    (server.routing moment).handleV2 .every ts .new ⟨opcodeGetAsOf, typeUnspecified, 1, data⟩ =
      (ts, .new, [responseTo typeUnspecified 1 (readGetAsOf (ts.reads server.eval) data)]) := by
  have answer : (server.routing moment).backend.answer ts
      ⟨opcodeGetAsOf, typeUnspecified, 1, data⟩ = (ts, handleGetAsOf (ts.reads server.eval) data) :=
    rfl
  change (((server.routing moment).handleAnswer ts _).1, _,
    ((server.routing moment).handleAnswer ts _).2) = _
  rw [RouterV2.handleAnswer, answer, handleGetAsOf]
  cases readGetAsOf (ts.reads server.eval) data <;> rfl

/-- What the server does with a put: it stores the value and answers with its number, or it leaves the
store as it is and answers nothing or an error. -/
inductive PutResponse (logicalKey payload source : Bytes) : TemporalStore × Option Response → Prop
  | stored (call : PutCall) (seq : UInt64)
      (accepts : server.accepted moment logicalKey payload source = some call) :
      PutResponse logicalKey payload source
        (ts.put call, some (.ok typeUnspecified 1 (leBytes 8 seq.toNat)))
  | closed (refuses : server.accepted moment logicalKey payload source = none) :
      PutResponse logicalKey payload source (ts, none)
  | refused (code : UInt16) (reason : Bytes)
      (refuses : server.accepted moment logicalKey payload source = none) :
      PutResponse logicalKey payload source (ts, some (.err typeUnspecified 1 code reason))

theorem respond_put (logicalKey payload source : Bytes)
    (sized : (encodePutVersionedFrame logicalKey payload source).length < 256 ^ 4) :
    server.PutResponse moment ts logicalKey payload source
      (server.respond moment ts (pack (request opcodePutVersioned
        (encodePutVersionedFrame logicalKey payload source)))) := by
  by_cases long : server.limit < (encodePutVersionedFrame logicalKey payload source).length
  · rw [server.respond_too_large moment ts _ _ long sized]
    exact .closed (if_pos (.inr long))
  · rw [server.respond_fits moment ts _ _ (not_lt.mp long), routing_put]
    rcases StoreStep.Sized.parts sized with ⟨keyFits, payloadFits, sourceFits⟩
    rw [handlePutVersioned, decodePutVersionedFrame_encode _ _ _ keyFits payloadFits sourceFits]
    by_cases blocked : moment.blocked = true
    · rw [if_pos blocked]
      exact .refused _ _ (if_pos (.inl blocked))
    · have same : server.accepted moment logicalKey payload source =
          server.admitted (frameOf moment logicalKey payload source) :=
        if_neg (not_or.mpr ⟨blocked, long⟩)
      rw [if_neg blocked]
      cases admits : server.admitted (frameOf moment logicalKey payload source) with
      | none =>
        rcases server.handlePutVersioned_refused ts _ admits with ⟨rejection, refused⟩
        rw [frameOf] at refused
        simp only [refused]
        exact .refused _ _ (same.trans admits)
      | some call =>
        have stored := server.handlePutVersioned_admitted ts _ call admits
        rw [frameOf] at stored
        simp only [stored]
        exact .stored call _ (same.trans admits)

end Server

namespace V2Store

variable (server : Server) (moment : Moment) (ts : TemporalStore)

variable (logicalKey : Bytes)

theorem putVersioned_spec (payload source : Bytes)
    (sized : (encodePutVersionedFrame logicalKey payload source).length < 256 ^ 4) :
    (putVersioned server moment ts logicalKey payload source).1 =
        (server.putOf ⟨.putVersioned logicalKey payload source, moment⟩).elim ts ts.put ∧
      ∀ seq, (putVersioned server moment ts logicalKey payload source).2 = .ok seq →
        ∃ call, server.putOf ⟨.putVersioned logicalKey payload source, moment⟩ = some call := by
  have responded := server.respond_put moment ts logicalKey payload source sized
  generalize shape : server.respond moment ts (pack (request opcodePutVersioned
    (encodePutVersionedFrame logicalKey payload source))) = outcome at responded
  cases sent : moment.delivery with
  | unreachable =>
    simp only [putVersioned, roundTrip, sent, Server.putOf, if_true]
    exact ⟨rfl, nofun⟩
  | unanswered =>
    simp only [putVersioned, roundTrip, sent, Server.putOf, shape, reduceCtorEq, if_false]
    refine ⟨?_, nofun⟩
    cases responded with
    | stored call seq accepts => rw [accepts]; rfl
    | closed refuses | refused code reason refuses => rw [refuses]; rfl
  | answered =>
    simp only [putVersioned, roundTrip, sent, Server.putOf, shape, reduceCtorEq, if_false]
    cases responded with
    | stored call seq accepts =>
      rw [accepts]
      exact ⟨rfl, fun _ _ => ⟨call, rfl⟩⟩
    | closed refuses =>
      rw [refuses]
      exact ⟨rfl, nofun⟩
    | refused code reason refuses =>
      rw [refuses]
      refine ⟨rfl, ?_⟩
      intro seq acknowledged
      refine absurd acknowledged (received_err seqOf seq (fun _ refused => ?_) _ _ _ _)
      rw [seqOf, if_pos refused]
      exact nofun

theorem getLatest_eq_some_iff (payload : Bytes) (answered : moment.delivery = .answered)
    (sized : 12 + logicalKey.length < 256 ^ 4)
    (small : ∀ v, ts.getAsOf logicalKey moment.clientNanos = some v → 20 + v.payload.length < 256 ^ 4) :
    (getLatest server moment ts logicalKey).2 = .ok (some payload) ↔
      12 + logicalKey.length ≤ server.limit ∧ 20 + payload.length ≤ hardMaxPackageSize.toNat ∧
        ∃ v, ts.getAsOf logicalKey moment.clientNanos = some v ∧ v.payload = payload := by
  have length := encodeAsOfFrame_length logicalKey moment.clientNanos
  simp only [getLatest, roundTrip, answered]
  by_cases fits : 12 + logicalKey.length ≤ server.limit
  · rw [server.respond_fits moment ts _ _ (by rw [length]; exact fits), Server.routing_getAsOf,
      readGetAsOf, decodeAsOfFrame_encode logicalKey _ (by omega)]
    simp only [TemporalStore.reads, fits, true_and, List.head?_cons]
    cases found : ts.getAsOf logicalKey moment.clientNanos with
    | none =>
      have refused := received_err payloadOf (some payload) (fun _ => (payloadOf_err · payload))
        typeUnspecified 1 keyNotFound.code keyNotFound.reason
      simp only [responseTo, refused, reduceCtorEq, false_and, exists_false, and_false]
    | some v =>
      have body := encodeVersionEntry_length v.seq v.writeNanos v.payload
      have limit := small v found
      simp only [responseTo, ReadResult.body, encodeVersion, Option.some.injEq, exists_eq_left']
      by_cases room : 20 + v.payload.length ≤ hardMaxPackageSize.toNat
      · rw [received_ok _ _ _ (by rw [body]; exact room)]
        have entry := decodeVersionEntry_encode v.seq v.writeNanos v.payload (by omega)
        simp only [Except.bind, payloadOf, newMessageV2, ne_eq, not_true_eq_false, if_false, entry,
          Except.ok.injEq, Option.some.injEq]
        constructor
        · intro same
          exact ⟨same ▸ room, same⟩
        · intro both
          exact both.2
      · rcases received_too_large typeUnspecified 1 _ (by rw [body]; omega) (by rw [body]; exact limit)
          with ⟨err, failed⟩
        rw [failed]
        constructor
        · intro impossible
          cases impossible
        · intro both
          exact absurd (both.2 ▸ both.1) room
  · rw [server.respond_too_large moment ts _ _ (by rw [length]; omega) (by rw [length]; exact sized)]
    simp only [received, Except.bind, fits, false_and, reduceCtorEq]

theorem getLatest_store (sized : 12 + logicalKey.length < 256 ^ 4) :
    (getLatest server moment ts logicalKey).1 = ts := by
  have length := encodeAsOfFrame_length logicalKey moment.clientNanos
  have unchanged : (server.respond moment ts (pack (request opcodeGetAsOf
      (encodeAsOfFrame logicalKey moment.clientNanos)))).1 = ts := by
    by_cases fits : 12 + logicalKey.length ≤ server.limit
    · rw [server.respond_fits moment ts _ _ (by rw [length]; exact fits), Server.routing_getAsOf]
    · rw [server.respond_too_large moment ts _ _ (by rw [length]; omega)
        (by rw [length]; exact sized)]
  simp only [getLatest, roundTrip]
  cases moment.delivery with
  | unreachable => rfl
  | unanswered | answered => exact unchanged

end V2Store

namespace Server

variable (server : Server)

theorem step_eq (ts : TemporalStore) (step : StoreStep) (sized : step.Sized) :
    server.step ts step = (server.putOf step).elim ts ts.put := by
  rcases step with ⟨⟨logicalKey, payload, source⟩ | ⟨logicalKey⟩, moment⟩
  · exact (putVersioned_spec server moment ts logicalKey payload source sized).1
  · exact getLatest_store server moment ts logicalKey sized

-- By induction on the steps from the right; each one makes at most one put.
theorem after_eq (steps : List StoreStep) (sized : ∀ step ∈ steps, step.Sized) :
    server.after steps = storeAfter (steps.filterMap server.putOf) := by
  induction steps using List.reverseRecOn with
  | nil => rfl
  | append_singleton steps step ih =>
    have earlier := ih fun other member => sized other (mem_append_left _ member)
    have last := server.step_eq (server.after steps) step (sized step (by simp))
    rw [after, run_append, ← after]
    change server.step (server.after steps) step = _
    rw [last, earlier, filterMap_append]
    cases made : server.putOf step with
    | none => simp [made]
    | some call => simp [made, storeAfter_snoc]

theorem putOf_eq_some {step : StoreStep} {call : PutCall} (made : server.putOf step = some call) :
    ∃ logicalKey payload source value, step.call = .putVersioned logicalKey payload source ∧
      (encodePutVersionedFrame logicalKey payload source).length ≤ server.limit ∧
      server.schemas.verdict (frameOf step.moment logicalKey payload source) = .pass value ∧
      call = server.schemas.call (frameOf step.moment logicalKey payload source) value := by
  rcases step with ⟨⟨logicalKey, payload, source⟩ | ⟨logicalKey⟩, moment⟩
  · simp only [putOf, accepted, admitted] at made
    split_ifs at made with lost refused forbidden
    cases said : server.schemas.verdict (frameOf moment logicalKey payload source) with
    | drop code reason => simp [said] at made
    | pass value =>
      simp only [said, Option.some.injEq] at made
      exact ⟨logicalKey, payload, source, value, rfl, not_lt.mp (not_or.mp refused).2, said,
        made.symm⟩
  · cases made

end Server

theorem getAsOf_after_put (calls later : List PutCall) (call : PutCall) (asOfNanos : Int64)
    (fits : ∀ other ∈ calls ++ call :: later, other.logical = call.logical →
      other.source.length < 2 ^ 32)
    (bounded : (calls ++ call :: later).length < 2 ^ 64)
    (unnested : ∀ other ∈ calls ++ call :: later, other.logical ≠ currentStorageKey call.logical)
    (alone : ∀ other ∈ later, other.logical ≠ call.logical) (v : Version) :
    (storeAfter (calls ++ call :: later)).getAsOf call.logical asOfNanos = some v ↔
      if call.writeNanos ≤ asOfNanos then
        v = newVersion call ((storeAfter calls).nextSeq call.logical)
      else (storeAfter calls).getAsOf call.logical asOfNanos = some v := by
  generalize next : newVersion call ((storeAfter calls).nextSeq call.logical) = new
  have nanos : new.writeNanos = call.writeNanos := by rw [← next]; rfl
  have few : countOn call.logical (calls ++ call :: later) < 2 ^ 64 :=
    lt_of_le_of_lt countP_le_length bounded
  have fewBefore : countOn call.logical calls ≤ 2 ^ 64 := by
    rw [countOn, countP_append] at few
    exact le_of_lt (lt_of_le_of_lt (Nat.le_add_right _ _) few)
  have records : onKey call.logical (recordsOf (calls ++ call :: later)) =
      onKey call.logical (recordsOf calls) ++ [new] := by
    have rest : onKey call.logical (written (storeAfter (calls ++ [call])) later) = [] := by
      rw [onKey, filter_eq_nil_iff]
      intro w member same
      rcases mem_written _ later w member with ⟨other, inside, shape⟩
      have key : w.logicalKey = call.logical := by simpa using same
      apply alone other inside
      rw [← key, shape]
      rfl
    have key : new.logicalKey = call.logical := by rw [← next]; rfl
    rw [append_cons, recordsOf_append, onKey_append, rest, append_nil, recordsOf_snoc, next,
      onKey_snoc, if_pos key]
  -- Numbers grow, so the new version has the largest.
  have sorted := onKey_sorted _ call.logical few (seqs_from_one _ call.logical unnested)
  rw [records, pairwise_append] at sorted
  have largest : ∀ w ∈ onKey call.logical (recordsOf calls), w.seq ≤ new.seq :=
    fun w member => le_of_lt (sorted.2.2 w member new (.head _))
  rw [getAsOf_eq_some_iff _ call.logical asOfNanos fits few.le, records]
  split_ifs with visible
  · have newest : NewestVisible asOfNanos (onKey call.logical (recordsOf calls) ++ [new]) new := by
      refine ⟨by simp, nanos ▸ visible, ?_⟩
      intro w member seen
      rcases mem_append.mp member with old | last
      · exact largest w old
      · rw [mem_singleton.mp last]
    have distinct := recordsOf_distinct (calls ++ call :: later) call.logical few.le
    rw [seqsOf, records] at distinct
    constructor
    · intro other
      exact NewestVisible.unique asOfNanos _ v new distinct other newest
    · intro same
      exact same ▸ newest
  · rw [getAsOf_eq_some_iff calls call.logical asOfNanos
      (fun other member => fits other (mem_append_left _ member)) fewBefore]
    refine newestVisible_congr asOfNanos _ _ v fun w seen => ?_
    have different : w ≠ new := by
      intro same
      rw [same, nanos] at seen
      exact visible seen
    simp [different]

def StoreStep.Writes (logicalKey : Bytes) (step : StoreStep) : Prop :=
  ∃ payload source, step.call = .putVersioned logicalKey payload source

/-- No value that the filter lets through is too long for the length field of a response. -/
def Server.Modest (server : Server) : Prop :=
  ∀ frame value, (encodePutVersionedFrame frame.key frame.value frame.source).length ≤ server.limit →
    server.schemas.verdict frame = .pass value → 20 + value.length < 256 ^ 4

/-- The request and the response fit the limits of the two sides, and the version that the client's
clock lets the server see has the payload: the new one if it was not stamped later, and otherwise the
one that was to be seen before the put. -/
structure Server.ReadsBack (server : Server) (ts : TemporalStore) (logicalKey payload source : Bytes)
    (put get : Moment) : Prop where
  request : 12 + logicalKey.length ≤ server.limit
  response : 20 + payload.length ≤ hardMaxPackageSize.toNat
  seen : if put.serverNanos ≤ get.clientNanos then
      server.schemas.verdict (Server.frameOf put logicalKey payload source) = .pass payload
    else ∃ v, ts.getAsOf logicalKey get.clientNanos = some v ∧ v.payload = payload

section

variable (server : Server)

variable {step : StoreStep} {call : PutCall}

theorem putOf_logical (made : server.putOf step = some call) : step.Writes call.logical := by
  rcases server.putOf_eq_some made with ⟨logicalKey, payload, source, value, shape, _, _, rfl⟩
  exact ⟨payload, source, shape⟩

theorem putOf_source (made : server.putOf step = some call) : call.source.length < 2 ^ 32 := by
  rcases server.putOf_eq_some made with ⟨logicalKey, payload, source, value, _, fits, _, rfl⟩
  exact (StoreStep.Sized.parts (lt_of_le_of_lt fits (UInt32.toNat_lt _))).2.2

theorem after_getAsOf_put {steps : List StoreStep} (sized : ∀ step ∈ steps, step.Sized)
    (few : steps.length ≤ 2 ^ 64) {logicalKey : Bytes} {asOfNanos : Int64} {v : Version}
    (found : (server.after steps).getAsOf logicalKey asOfNanos = some v) :
    ∃ step ∈ steps, ∃ call, server.putOf step = some call ∧ v.payload = call.payload := by
  have bounded : countOn logicalKey (steps.filterMap server.putOf) ≤ 2 ^ 64 :=
    le_trans countP_le_length (le_trans (length_filterMap_le _ _) few)
  have fits : ∀ call ∈ steps.filterMap server.putOf, call.logical = logicalKey →
      call.source.length < 2 ^ 32 := by
    intro call member _
    rcases mem_filterMap.mp member with ⟨step, _, made⟩
    exact putOf_source server made
  rw [server.after_eq steps sized, getAsOf_eq_some_iff _ _ _ fits bounded] at found
  have inside := ((mem_onKey _ _ _).mp found.1).1
  rcases mem_written _ _ v inside with ⟨call, member, shape⟩
  rcases mem_filterMap.mp member with ⟨step, inSteps, made⟩
  exact ⟨step, inSteps, call, made, by rw [shape]; rfl⟩

theorem after_getAsOf (before between : List StoreStep) (step : StoreStep) (call : PutCall)
    (made : server.putOf step = some call) (asOfNanos : Int64)
    (sized : ∀ other ∈ before ++ step :: between, other.Sized)
    (few : (before ++ step :: between).length < 2 ^ 64)
    (unnested : ∀ other ∈ before ++ between, ¬ other.Writes (currentStorageKey call.logical))
    (alone : ∀ other ∈ between, ¬ other.Writes call.logical) (v : Version) :
    (server.after (before ++ step :: between)).getAsOf call.logical asOfNanos = some v ↔
      if call.writeNanos ≤ asOfNanos then
        v = newVersion call ((server.after before).nextSeq call.logical)
      else (server.after before).getAsOf call.logical asOfNanos = some v := by
  have puts : (before ++ step :: between).filterMap server.putOf =
      before.filterMap server.putOf ++ call :: between.filterMap server.putOf := by
    rw [filterMap_append, filterMap_cons_some made]
  rw [server.after_eq _ sized, server.after_eq before (fun other member => sized other (by simp [member])),
    puts]
  apply getAsOf_after_put
  · intro other member _
    rw [← puts] at member
    rcases mem_filterMap.mp member with ⟨origin, _, made⟩
    exact putOf_source server made
  · rw [← puts]
    exact lt_of_le_of_lt (length_filterMap_le _ _) few
  · intro other member nested
    -- The put itself is not on the pointer key of its own key.
    rw [mem_append, mem_cons] at member
    have origin : other = call ∨ ∃ origin ∈ before ++ between, server.putOf origin = some other := by
      rcases member with early | rfl | late
      · rcases mem_filterMap.mp early with ⟨origin, inside, made⟩
        exact .inr ⟨origin, mem_append_left _ inside, made⟩
      · exact .inl rfl
      · rcases mem_filterMap.mp late with ⟨origin, inside, made⟩
        exact .inr ⟨origin, mem_append_right _ inside, made⟩
    rcases origin with rfl | ⟨origin, inside, made⟩
    · exact absurd (append_right_eq_self.mp nested.symm) (by decide)
    · exact unnested origin inside (nested ▸ putOf_logical server made)
  · intro other member same
    rcases mem_filterMap.mp member with ⟨origin, inside, made⟩
    exact alone origin inside (same ▸ putOf_logical server made)

end

/-- A read of a key that follows an acknowledged put of it, with no other put of it in between, gives
what was put exactly if it is to be seen at the client's time. -/
theorem reads_own_write_iff (server : Server) (modest : server.Modest)
    (before between : List StoreStep) (logicalKey payload source : Bytes) (put get : Moment)
    (seq : UInt64)
    (sized : ∀ step ∈ before ++ ⟨.putVersioned logicalKey payload source, put⟩ :: between ++
      [⟨.getLatest logicalKey, get⟩], step.Sized)
    (few : (before ++ between).length + 1 < 2 ^ 64)
    (unnested : ∀ step ∈ before ++ between, ¬ step.Writes (currentStorageKey logicalKey))
    (acknowledged : (putVersioned server put (server.after before) logicalKey payload
      source).2 = .ok seq)
    (alone : ∀ step ∈ between, ¬ step.Writes logicalKey) (answered : get.delivery = .answered) :
    (getLatest server get (server.after
        (before ++ ⟨.putVersioned logicalKey payload source, put⟩ :: between)) logicalKey).2 =
          .ok (some payload) ↔
      server.ReadsBack (server.after before) logicalKey payload source put get := by
  have sizedRun : ∀ other ∈ before ++ ⟨.putVersioned logicalKey payload source, put⟩ :: between,
      other.Sized := fun other member => sized other (mem_append_left _ member)
  have sizedPut := sized ⟨.putVersioned logicalKey payload source, put⟩ (by simp)
  have sizedGet := sized ⟨.getLatest logicalKey, get⟩ (by simp)
  have fewRun : (before ++ ⟨.putVersioned logicalKey payload source, put⟩ :: between).length <
      2 ^ 64 := by
    simp only [length_append, length_cons] at few ⊢
    omega
  rcases (putVersioned_spec server put (server.after before) logicalKey payload source
    sizedPut).2 seq acknowledged with ⟨call, made⟩
  rcases server.putOf_eq_some made with ⟨_, _, _, value, same, _, said, rfl⟩
  cases same
  have small : ∀ v, (server.after (before ++ ⟨.putVersioned logicalKey payload source, put⟩ ::
      between)).getAsOf logicalKey get.clientNanos = some v → 20 + v.payload.length < 256 ^ 4 := by
    intro v found
    rcases after_getAsOf_put server sizedRun fewRun.le found with ⟨step, _, other, madeOther, content⟩
    rcases server.putOf_eq_some madeOther with ⟨_, _, _, value, _, fits, said, rfl⟩
    rw [content]
    exact modest _ value fits said
  have seen : ∀ v, (server.after (before ++ ⟨.putVersioned logicalKey payload source, put⟩ ::
      between)).getAsOf logicalKey get.clientNanos = some v ↔
        if put.serverNanos ≤ get.clientNanos then
          v = newVersion (server.schemas.call (Server.frameOf put logicalKey payload source) value)
            ((server.after before).nextSeq logicalKey)
        else (server.after before).getAsOf logicalKey get.clientNanos = some v :=
    after_getAsOf server before between _ _ made get.clientNanos sizedRun fewRun unnested alone
  rw [getLatest_eq_some_iff server get _ logicalKey payload answered sizedGet small]
  constructor
  · intro fine
    rcases fine with ⟨request, response, v, found, content⟩
    have shown := (seen v).mp found
    refine ⟨request, response, ?_⟩
    split_ifs at shown ⊢ with visible
    · subst shown
      have unchanged : value = payload := content
      exact unchanged ▸ said
    · exact ⟨v, shown, content⟩
  · intro back
    have shown := back.seen
    refine ⟨back.request, back.response, ?_⟩
    split_ifs at shown with visible
    · have unchanged : value = payload := Verdict.pass.inj (said.symm.trans shown)
      exact ⟨_, (seen _).mpr (by rw [if_pos visible]), unchanged⟩
    · rcases shown with ⟨v, found, content⟩
      exact ⟨v, (seen v).mpr (by rw [if_neg visible]; exact found), content⟩

def plainServer : Server where
  router := ⟨⟨fun _ => false, none, fun ts cmd => (ts.write cmd, true), fun ts _ => (ts, .ok [])⟩, 1000⟩
  schemas := ⟨none, fun _ _ => 0⟩
  eval := fun _ _ => true
  maxPackageSize := 16777216

theorem plainServer_modest : plainServer.Modest := by
  intro frame value fits said
  have same : frame.value = value := Verdict.pass.inj said
  have limit : plainServer.limit = 16777216 := by decide
  rw [encodePutVersionedFrame_length, limit] at fits
  rw [← same]
  omega

def answeredAt (serverNanos clientNanos : Int64) : Moment := ⟨.answered, false, serverNanos, clientNanos⟩

theorem reads_own_write_iff_in_time :
    (getLatest plainServer (answeredAt 0 9) (plainServer.after
        [⟨.putVersioned [107] [97] [], answeredAt 5 0⟩, ⟨.putVersioned [108] [98] [], answeredAt 6 0⟩])
          [107]).2 = .ok (some [97]) :=
  (reads_own_write_iff plainServer plainServer_modest [] [⟨.putVersioned [108] [98] [], answeredAt 6 0⟩]
    [107] [97] [] (answeredAt 5 0) (answeredAt 0 9) 1
    (by simp [StoreStep.Sized, encodePutVersionedFrame_length]) (by decide)
    (by simp [StoreStep.Writes, currentStorageKey, currentSuffix, ascii]) (by decide +kernel)
    (by simp [StoreStep.Writes]) rfl).mpr ⟨by decide, by decide, rfl⟩

/-- The server's clock is one nanosecond ahead. The client that has just put a value is told that there
is none, or it is given the value it has replaced. -/
theorem own_write_not_read :
    (putVersioned plainServer (answeredAt 10 8) (plainServer.after []) [107] [97] []).2 =
        .ok 1 ∧
      (getLatest plainServer (answeredAt 11 9) (plainServer.after
        [⟨.putVersioned [107] [97] [], answeredAt 10 8⟩]) [107]).2 = .ok none ∧
      (putVersioned plainServer (answeredAt 10 8) (plainServer.after
        [⟨.putVersioned [107] [97] [], answeredAt 5 3⟩]) [107] [98] []).2 = .ok 2 ∧
      (getLatest plainServer (answeredAt 11 9) (plainServer.after
        [⟨.putVersioned [107] [97] [], answeredAt 5 3⟩, ⟨.putVersioned [107] [98] [], answeredAt 10 8⟩])
          [107]).2 = .ok (some [97]) := by
  decide +kernel

end KairosFlux.Jobctl
