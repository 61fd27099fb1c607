import KairosFlux.Service.RouterV2

/-! The choice of the protocol (`kairnet/negotiate/negotiate.go`, `kairnet/transport/connection.go`).

The server changes to the second format when it reads the probe. The client takes a silence up to its
deadline for the first format. -/

namespace KairosFlux.Kairnet

open Lib Service DataPackV2

def msgHello : Bytes := ascii "HELLO".toList

def ackEvery : UInt8 := 0

def isValidAckTier (v : UInt8) : Bool := v = ackEvery ∨ v = 1 ∨ v = 2

def helloProbe (want : UInt8) : Message := newMessage msgHello [versionV2, want]

def buildHelloResponseV2WithAck (ack : UInt8) : Bytes :=
  pack (newMessageV2 ⟨0, opcodeOK, typeUnspecified, 0, 0⟩ [versionV2, ack])

/-- The answer to a probe and the tier it confirms. -/
def serverHandleProbe (msg : Message) : Option (Bytes × UInt8) :=
  if msg.id ≠ msgHello then none
  else
    let requested := (msg.data[1]?.filter isValidAckTier).getD ackEvery
    some (buildHelloResponseV2WithAck requested, requested)

/-- The reader of a connection. Other frames are dispatched and leave this as it is. -/
structure ServerConn where
  usingV2 : Bool
  ackTier : UInt8
  sent : Bytes

/-- One round of `StartReader`. -/
def ServerConn.read (maxSize : UInt32) (c : ServerConn) (r : Bytes) : ServerConn × Bytes :=
  if c.usingV2 then (c, (decode maxSize r).2)
  else
    match DataPack.decode maxSize r with
    | (.error _, rest) => (c, rest)
    | (.ok msg, rest) =>
      match serverHandleProbe msg with
      | some (respond, ack) => (⟨true, ack, c.sent ++ respond⟩, rest)
      | none => (c, rest)

inductive WireVersion
  | v1
  | v2
  deriving DecidableEq

inductive NegotiateError
  | readMagicVer (n : Nat)
  | unsupportedVersion
  | unexpectedBytes
  | readHeader
  | unpackHeader (cause : DataPackV2.UnpackError)
  | opcode (got : UInt8)
  | readPayload
  | shortPayload (length : Nat)
  | serverVersion (got : UInt8)
  | ackPref (got : UInt8)
  deriving DecidableEq

def finishReadV2Response (magicVer r : Bytes) : Except NegotiateError (WireVersion × UInt8) × Bytes :=
  match readFull (headerV2Len - 2) r with
  | (.error _, r) => (.error .readHeader, r)
  | (.ok rest, r) =>
    match unPack (magicVer ++ rest) with
    | .error cause => (.error (.unpackHeader cause), r)
    | .ok h =>
      if h.opcode ≠ opcodeOK then (.error (.opcode h.opcode), r)
      else
        match readFull h.dataLen.toNat r with
        | (.error _, r) => (.error .readPayload, r)
        | (.ok payload, r) =>
          match payload with
          | serverVersion :: ack :: _ =>
            if serverVersion ≠ versionV2 then (.error (.serverVersion serverVersion), r)
            else if isValidAckTier ack then (.ok (.v2, ack), r)
            else (.error (.ackPref ack), r)
          | [] | [_] => (.error (.shortPayload payload.length), r)

/-- The stream is what reaches the client before the deadline. -/
def clientNegotiateWithAck (r : Bytes) : Except NegotiateError (WireVersion × UInt8) × Bytes :=
  match readFull 2 r with
  | (.error _, rest) =>
    if r = [] then (.ok (.v1, ackEvery), rest) else (.error (.readMagicVer r.length), rest)
  | (.ok magicVer, rest) =>
    let (magic, version) := decodeMagicVer (UInt16.ofNat (leValue magicVer))
    if magic ≠ magicV2 then (.error .unexpectedBytes, rest)
    else if version ≠ versionV2 then (.error .unsupportedVersion, rest)
    else finishReadV2Response magicVer rest

/-- The server after the probe. What the client sends next comes behind it. -/
def probed (maxSize : UInt32) (want : UInt8) : ServerConn :=
  (ServerConn.read maxSize ⟨false, ackEvery, []⟩
    (DataPack.head (helloProbe want) ++ ((helloProbe want).id ++ (helloProbe want).data))).1

/-- Of the answer, as many bytes as given come before the client's deadline. A client without an error
has the format and the tier of the server, and nothing of the answer is left for it. -/
def Agrees (c : ServerConn) (arrived : Nat) : Prop :=
  ∀ version ack rest, clientNegotiateWithAck (c.sent.take arrived) = (.ok (version, ack), rest) →
    (version = .v2 ↔ c.usingV2 = true) ∧ ack = c.ackTier ∧ rest ++ c.sent.drop arrived = []

theorem probed_eq {maxSize : UInt32} (able : 2 ≤ (effectiveMaxSize maxSize).toNat) (want : UInt8) :
    ∃ ack, (ack = 0 ∨ ack = 1 ∨ ack = 2) ∧
      probed maxSize want = ⟨true, ack, buildHelloResponseV2WithAck ack⟩ := by
  have fits : DataPack.Fits maxSize (helloProbe want) := ⟨rfl, able, show msgHello.length ≤ 65535 by decide⟩
  have whole := (DataPack.frames_pack fits).whole []
  rw [List.append_nil] at whole
  refine ⟨((some want).filter isValidAckTier).getD ackEvery, ?_, ?_⟩
  · by_cases valid : isValidAckTier want = true
    · rw [Option.filter_some_pos valid]
      exact of_decide_eq_true valid
    · rw [Option.filter_some_neg (Bool.eq_false_of_not_eq_true valid)]
      exact .inl rfl
  · change (ServerConn.read maxSize ⟨false, ackEvery, []⟩ _).1 = _
    rw [ServerConn.read, if_neg Bool.false_ne_true, whole]
    rfl

/-- A part of the answer is an error of the client, and the whole of it is understood. -/
theorem agrees_answer {ack : UInt8} (tier : ack = 0 ∨ ack = 1 ∨ ack = 2) {arrived : Nat}
    (heard : 0 < arrived) : Agrees ⟨true, ack, buildHelloResponseV2WithAck ack⟩ arrived := by
  have part : ∀ ack ∈ [(0 : UInt8), 1, 2], ∀ n < 16, 0 < n →
      (clientNegotiateWithAck ((buildHelloResponseV2WithAck ack).take n)).1.isOk = false := by
    decide +kernel
  have whole : clientNegotiateWithAck (buildHelloResponseV2WithAck ack) = (.ok (.v2, ack), []) := by
    rcases tier with rfl | rfl | rfl <;> rfl
  intro version ack' rest ok
  by_cases cut : arrived < 16
  · have failed := part ack (by simpa using tier) arrived cut heard
    rw [ok] at failed
    cases failed
  · have length_le : (buildHelloResponseV2WithAck ack).length ≤ arrived := not_lt.mp cut
    rw [List.take_of_length_le length_le, whole] at ok
    cases ok
    exact ⟨by simp, rfl, List.drop_of_length_le length_le⟩

/-- The two ends agree iff the client hears anything of the answer before its deadline. -/
theorem negotiation_agrees_iff {maxSize : UInt32} (able : 2 ≤ (effectiveMaxSize maxSize).toNat)
    (want : UInt8) (arrived : Nat) : Agrees (probed maxSize want) arrived ↔ 0 < arrived := by
  rcases probed_eq able want with ⟨ack, tier, answered⟩
  rw [answered]
  refine ⟨fun agrees => ?_, agrees_answer tier⟩
  by_contra none
  obtain rfl : arrived = 0 := by omega
  simpa using agrees .v1 ackEvery [] rfl

theorem negotiation_agrees_iff_late : 2 ≤ (effectiveMaxSize 4096).toNat ∧
    (Agrees (probed 4096 1) 0 ↔ 0 < 0) ∧ (Agrees (probed 4096 1) 5 ↔ 0 < 5) :=
  have able : 2 ≤ (effectiveMaxSize 4096).toNat := by decide
  ⟨able, negotiation_agrees_iff able 1 0, negotiation_agrees_iff able 1 5⟩

/-- The answer comes after the deadline: the client speaks the first format to a server that reads the
second one. -/
theorem silence_taken_for_first_format :
    clientNegotiateWithAck ((probed 4096 1).sent.take 0) = (.ok (.v1, ackEvery), []) ∧
      (probed 4096 1).usingV2 = true ∧ (probed 4096 1).sent.length = 16 := by
  decide +kernel

end KairosFlux.Kairnet
