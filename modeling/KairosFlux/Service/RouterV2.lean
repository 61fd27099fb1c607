import KairosFlux.Kairnet.Codec
import KairosFlux.Lib.Runs
import KairosFlux.Service.KVServer

/-! The handler of the second protocol version (`service/router_v2.go`, `proto/v2_response.go`): how
it answers, and how it counts the writes of a connection. What the store, the filter and the memory
guardrail do is a parameter. -/

namespace KairosFlux.Service

open Lib Kairnet Option

def opcodePut : UInt8 := 0x01
def opcodeGet : UInt8 := 0x02
def opcodeDel : UInt8 := 0x03
def opcodeScan : UInt8 := 0x04
def opcodeBye : UInt8 := 0x06
def opcodeFlush : UInt8 := 0x07
def opcodeStat : UInt8 := 0x08
def opcodePutVersioned : UInt8 := 0x09
def opcodeGetAsOf : UInt8 := 0x0A
def opcodeListVersions : UInt8 := 0x0B
def opcodeReplayFingerprint : UInt8 := 0x0C
def opcodeListWrites : UInt8 := 0x0D
def opcodeOK : UInt8 := 0x80
def opcodeErr : UInt8 := 0x81
def opcodeWindowAck : UInt8 := 0x82
def opcodeStatAck : UInt8 := 0x83

def errCodeNone : UInt16 := 0x0000
def errCodeMalformedFrame : UInt16 := 0x1001
def errCodeMemoryLimit : UInt16 := 0x1003
def errCodeSchemaValidation : UInt16 := 0x3001

def typeUnspecified : UInt16 := 0

def decodePutFrame (data : Bytes) : Option (Bytes × Bytes) :=
  if data.length < 8 then none
  else
    let keyLen := leValue (slice data 0 4)
    let valueLen := leValue (slice data 4 8)
    if data.length < 8 + keyLen + valueLen then none
    else some (slice data 8 (8 + keyLen), slice data (8 + keyLen) (8 + keyLen + valueLen))

def decodeKeyFrame (data : Bytes) : Option Bytes :=
  if data.length < 4 then none
  else
    let keyLen := leValue (slice data 0 4)
    if data.length < 4 + keyLen then none else some (slice data 4 (4 + keyLen))

structure RequestV2 where
  opcode : UInt8
  type : UInt16
  corrID : UInt32
  data : Bytes

/-- The counters of a window or of a connection. -/
structure Counts where
  received : UInt32
  accepted : UInt32
  rejected : UInt32
  firstErrCode : UInt16
  firstErrReason : Bytes
  deriving DecidableEq

structure V2AckFields where
  corrID : UInt32
  counts : Counts
  deriving DecidableEq

inductive Response
  | ok (type : UInt16) (corrID : UInt32) (payload : Bytes)
  | err (type : UInt16) (corrID : UInt32) (code : UInt16) (reason : Bytes)
  | windowAck (fields : V2AckFields)
  | statAck (fields : V2AckFields)
  deriving DecidableEq

def v2ErrPayload (code : UInt16) (reason : Bytes) : Bytes :=
  leBytes 2 code.toNat ++ leBytes 2 reason.length ++ reason

def v2AckBody (fields : V2AckFields) : Bytes :=
  leBytes 4 fields.corrID.toNat ++ leBytes 4 fields.counts.received.toNat ++
    leBytes 4 fields.counts.accepted.toNat ++ leBytes 4 fields.counts.rejected.toNat ++
    leBytes 2 fields.counts.firstErrCode.toNat ++ leBytes 2 fields.counts.firstErrReason.length ++
    fields.counts.firstErrReason

/-- The frame `sendV2` puts on the connection. -/
def Response.frame : Response → Bytes
  | ok type corrID payload => send opcodeOK type corrID payload
  | err type corrID code reason => send opcodeErr type corrID (v2ErrPayload code reason)
  | windowAck fields => send opcodeWindowAck typeUnspecified fields.corrID (v2AckBody fields)
  | statAck fields => send opcodeStatAck typeUnspecified fields.corrID (v2AckBody fields)
where
  send (opcode : UInt8) (type : UInt16) (corrID : UInt32) (payload : Bytes) : Bytes :=
    DataPackV2.pack (newMessageV2 ⟨0, opcode, type, corrID, 0⟩ payload)

structure Rejection where
  code : UInt16
  reason : Bytes
  deriving DecidableEq

inductive Verdict
  | pass (newValue : Bytes)
  | drop (code : UInt16) (reason : Bytes)

inductive Answer
  | ok (payload : Bytes)
  | err (code : UInt16) (reason : Bytes)

/-- What the router calls. Without a filter every value passes; `write` says whether the store
returned no error; `answer` serves the requests that are neither plain writes nor control frames. -/
structure Backend (σ : Type) where
  blocked : σ → Bool
  validateForType : Option (σ → UInt16 → Bytes → Bytes → σ × Verdict)
  write : σ → Command → σ × Bool
  answer : σ → RequestV2 → σ × Answer

namespace Backend

variable {σ : Type} (b : Backend σ)

/-- The store's answer to a write. No rejection stands for accepted. -/
def store (s : σ) (cmd : Command) : σ × Option Rejection :=
  ((b.write s cmd).1,
    if (b.write s cmd).2 then none else some ⟨errCodeNone, ascii "store_error".toList⟩)

def applyWrite (s : σ) (req : RequestV2) : σ × Option Rejection :=
  if b.blocked s then (s, some ⟨errCodeMemoryLimit, ascii "memory_limit_reached".toList⟩)
  else if req.opcode = opcodeDel then
    match decodeKeyFrame req.data with
    | none => (s, some ⟨errCodeMalformedFrame, ascii "malformed_frame".toList⟩)
    | some key => b.store s ⟨.delete, key, none⟩
  else
    match decodePutFrame req.data with
    | none => (s, some ⟨errCodeMalformedFrame, ascii "malformed_frame".toList⟩)
    | some (key, value) =>
      match b.validateForType with
      | none => b.store s ⟨.put, key, some value⟩
      | some validate =>
        match validate s req.type key value with
        | (s, .drop code reason) =>
          (s, some ⟨if code = 0 then errCodeSchemaValidation else code, reason⟩)
        | (s, .pass newValue) => b.store s ⟨.put, key, some newValue⟩

/-- A rejection never looks like no error, as the counters assume. -/
theorem applyWrite_named (s : σ) (req : RequestV2) (rejection : Rejection)
    (rejected : (b.applyWrite s req).2 = some rejection) :
    ¬ (rejection.code = errCodeNone ∧ rejection.reason = []) := by
  have stored : ∀ s cmd, (b.store s cmd).2 = some rejection →
      ¬ (rejection.code = errCodeNone ∧ rejection.reason = []) := by
    intro s cmd same
    rw [store] at same
    split_ifs at same
    obtain rfl := some.inj same
    decide
  rw [applyWrite] at rejected
  split_ifs at rejected
  · obtain rfl := some.inj rejected
    decide
  · split at rejected
    · obtain rfl := some.inj rejected
      decide
    · exact stored _ _ rejected
  · split at rejected
    · obtain rfl := some.inj rejected
      decide
    · split at rejected
      · exact stored _ _ rejected
      · split at rejected
        · obtain rfl := some.inj rejected
          rintro ⟨none, _⟩
          simp only at none
          split_ifs at none with zero
          · exact absurd none (by decide)
          · exact zero none
        · exact stored _ _ rejected

end Backend

def Counts.zero : Counts := ⟨0, 0, 0, errCodeNone, []⟩

def Counts.count (c : Counts) : Option Rejection → Counts
  | none => { c with received := c.received + 1, accepted := c.accepted + 1 }
  | some rejection =>
    let first := c.firstErrCode = errCodeNone ∧ c.firstErrReason = []
    { c with
      received := c.received + 1
      rejected := c.rejected + 1
      firstErrCode := if first then rejection.code else c.firstErrCode
      firstErrReason := if first then rejection.reason else c.firstErrReason }

inductive AckTier
  | every
  | window
  | none
  deriving DecidableEq

/-- A connection: the open window and the totals. -/
structure V2ConnState where
  windowOpen : Bool
  windowCorrID : UInt32
  window : Counts
  cum : Counts

namespace V2ConnState

def new : V2ConnState := ⟨false, 0, .zero, .zero⟩

def closeWindow (state : V2ConnState) : V2ConnState × List Response :=
  ({ state with windowOpen := false }, [.windowAck ⟨state.windowCorrID, state.window⟩])

def flush (state : V2ConnState) : V2ConnState × List Response :=
  if state.windowOpen then state.closeWindow else (state, [])

def leaveWindow (state : V2ConnState) (corrID : UInt32) : V2ConnState × List Response :=
  if state.windowOpen ∧ state.windowCorrID ≠ corrID then state.closeWindow else (state, [])

def enterWindow (state : V2ConnState) (corrID : UInt32) : V2ConnState :=
  if state.windowOpen then state
  else { state with windowOpen := true, windowCorrID := corrID, window := .zero }

def countBoth (state : V2ConnState) (result : Option Rejection) : V2ConnState :=
  { state with window := state.window.count result, cum := state.cum.count result }

def closeFull (state : V2ConnState) (windowSafetyValveN : UInt32) : V2ConnState × List Response :=
  if windowSafetyValveN ≤ state.window.received then state.closeWindow else (state, [])

def recordIntoWindow (state : V2ConnState) (windowSafetyValveN corrID : UInt32)
    (result : Option Rejection) : V2ConnState × List Response :=
  let (state, left) := state.leaveWindow corrID
  let (state, full) := ((state.enterWindow corrID).countBoth result).closeFull windowSafetyValveN
  (state, left ++ full)

def recordCumulative (state : V2ConnState) (result : Option Rejection) : V2ConnState :=
  { state with cum := state.cum.count result }

def statAck (state : V2ConnState) (corrID : UInt32) : Response := .statAck ⟨corrID, state.cum⟩

end V2ConnState

structure RouterV2 (σ : Type) where
  backend : Backend σ
  windowSafetyValveN : UInt32

namespace RouterV2

variable {σ : Type} (r : RouterV2 σ) (tier : AckTier)

def handleWrite (s : σ) (state : V2ConnState) (req : RequestV2) : σ × V2ConnState × List Response :=
  let (s, result) := r.backend.applyWrite s req
  match tier with
  | .window => (s, state.recordIntoWindow r.windowSafetyValveN req.corrID result)
  | .none => (s, state.recordCumulative result, [])
  | .every =>
    match result with
    | .none => (s, state, [.ok req.type req.corrID []])
    | .some rejection =>
      (s, state, [.err req.type req.corrID rejection.code rejection.reason])

def maybeImplicitFlush (state : V2ConnState) : V2ConnState × List Response :=
  if tier = .window then state.flush else (state, [])

def handleAnswer (s : σ) (req : RequestV2) : σ × List Response :=
  match r.backend.answer s req with
  | (s, .ok payload) => (s, [.ok req.type req.corrID payload])
  | (s, .err code reason) => (s, [.err req.type req.corrID code reason])

def handleRead (s : σ) (state : V2ConnState) (req : RequestV2) : σ × V2ConnState × List Response :=
  let (state, flushed) := maybeImplicitFlush tier state
  let (s, answered) := r.handleAnswer s req
  (s, state, flushed ++ answered)

-- A flush without an open window is acknowledged with zeros.
def handleFlush (state : V2ConnState) : V2ConnState × List Response :=
  if tier = .window ∧ state.windowOpen then state.closeWindow
  else (state, [.windowAck ⟨0, .zero⟩])

def handleStat (state : V2ConnState) (req : RequestV2) : List Response := [state.statAck req.corrID]

def handleBye (state : V2ConnState) (req : RequestV2) : V2ConnState × List Response :=
  if tier = .every then (state, [])
  else
    let (state, flushed) := maybeImplicitFlush tier state
    (state, flushed ++ [state.statAck req.corrID])

def handleV2 (s : σ) (state : V2ConnState) (req : RequestV2) : σ × V2ConnState × List Response :=
  if req.opcode = opcodePut ∨ req.opcode = opcodeDel then r.handleWrite tier s state req
  else if req.opcode = opcodeGet ∨ req.opcode = opcodeScan then r.handleRead tier s state req
  else if req.opcode = opcodeFlush then (s, handleFlush tier state)
  else if req.opcode = opcodeStat then (s, state, handleStat state req)
  else if req.opcode = opcodeBye then (s, handleBye tier state req)
  else if req.opcode ∈ [opcodePutVersioned, opcodeGetAsOf, opcodeListVersions,
      opcodeReplayFingerprint, opcodeListWrites] then
    let (s, answered) := r.handleAnswer s req
    (s, state, answered)
  else (s, state, [.err req.type req.corrID errCodeNone (ascii "unknown opcode".toList)])

end RouterV2

end KairosFlux.Service
