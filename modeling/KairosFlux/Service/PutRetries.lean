import KairosFlux.Proto.ClientFrames

/-! A put on its way: the filter in front of the router (`service/ingesthook/filter.go`), the router of
the first protocol (`service/router.go`) and the client that retries (`client/client.go`,
`client/conn.go`).

The filter remembers the timestamp of a record before it is known whether the record is stored. -/

namespace KairosFlux.Service

open Lib Proto Option

def lastIndexByte (s : Bytes) (c : UInt8) : Option Nat :=
  (s.reverse.findIdx? fun byte => byte = c).map fun fromEnd => s.length - 1 - fromEnd

/-- The device and the timestamp of a key such as `imu:dev0:17`. -/
def parseKey (key : Bytes) : Option (Bytes × Int64) :=
  match lastIndexByte key 58 with
  | none => none
  | some i =>
    if i = 0 ∨ i = key.length - 1 then none
    else (parseInt64 (key.drop (i + 1))).map fun ts => (key.take i, ts)

/-- What the validator of a registered type objects to, as a code and a text. -/
abbrev Validation := Bytes → Option (UInt16 × Bytes)

/-- `lookupDescriptor` is the registry of types by key prefix. `redact` gives a value in which a field
had to be replaced. -/
structure Filter where
  redact : Bytes → Option Bytes
  maxValueLen : Int
  dropBackward : Bool
  lookupDescriptor : Bytes → Option Validation

/-- The last timestamp of each device. -/
abbrev LastTS := Bytes → Option Int64

inductive FilterResult
  | pass (newValue : Bytes) (changed : Bool)
  | drop (code : UInt16) (reason : Bytes)

def oversizedValue : Bytes := ascii "oversized_value".toList

def nonMonotonicTimestamp : Bytes := ascii "non_monotonic_timestamp".toList

namespace Filter

variable (f : Filter)

def oversized (value : Bytes) : Bool := 0 < f.maxValueLen ∧ f.maxValueLen < value.length

def stamp (key : Bytes) (checkMonotonic : Bool) : Option (Bytes × Int64) :=
  if checkMonotonic ∧ f.dropBackward ∧ (f.lookupDescriptor key).isNone then parseKey key else none

/-- The validator of the type, if there is one, and the redaction. -/
def checked (key value : Bytes) : FilterResult :=
  match (f.lookupDescriptor key).bind fun validation => validation value with
  | some (code, reason) => .drop code reason
  | none =>
    match f.redact value with
    | some newValue => .pass newValue true
    | none => .pass value false

def validate (lastTS : LastTS) (key value : Bytes) (checkMonotonic : Bool) : LastTS × FilterResult :=
  if f.oversized value then (lastTS, .drop 0 oversizedValue)
  else
    match f.stamp key checkMonotonic with
    | none => (lastTS, f.checked key value)
    | some (device, ts) =>
      if (lastTS device).any fun last => ts ≤ last then (lastTS, .drop 0 nonMonotonicTimestamp)
      else (Function.update lastTS device (some ts), f.checked key value)

end Filter

inductive HookAction
  | pass (data : Bytes)
  | drop (reason : Bytes)

def Filter.handle (f : Filter) (lastTS : LastTS) (data : Bytes) : LastTS × HookAction :=
  match decodePutFrame data with
  | none => (lastTS, .drop (ascii "malformed_frame".toList))
  | some (key, value) =>
    match f.validate lastTS key value true with
    | (lastTS, .drop _ reason) => (lastTS, .drop reason)
    | (lastTS, .pass newValue changed) =>
      (lastTS, .pass (if changed then encodePutFrame key newValue else data))

def statusError : Bytes := ascii "error".toList
def statusDropped : Bytes := ascii "dropped".toList
def statusOverloaded : Bytes := ascii "overloaded".toList
def statusNotFound : Bytes := ascii "notfound".toList

def statusPayload (status : Bytes) : Bytes := UInt8.ofNat status.length :: status

/-- A reason is cut off after 4096 bytes. -/
def droppedPayload (reason : Bytes) : Bytes :=
  statusPayload statusDropped ++ (leBytes 2 (reason.take 4096).length ++ reason.take 4096)

/-- How a write ends, here or at the owner of the key. An error does not say that nothing was stored. -/
inductive WriteOutcome
  | done
  | failed
  | failedStored
  deriving DecidableEq

structure Circumstances where
  admitted : Bool
  blocked : Bool
  write : WriteOutcome

/-- Without a hook every frame passes. `forwardTarget` is the owner of a key that is not kept here. -/
structure Router where
  filter : Option Filter
  forwardTarget : Bytes → Option Bytes

/-- What was stored: the owner it was forwarded to, if there is one, the key and the value. -/
structure RouterState where
  lastTS : LastTS
  stored : List (Option Bytes × Bytes × Bytes)

namespace Router

variable (r : Router)

/-- A malformed frame is not answered. -/
def handlePut (s : RouterState) (data : Bytes) (c : Circumstances) : RouterState × Option Bytes :=
  match decodePutFrame data with
  | none => (s, none)
  | some (key, value) =>
    let entry := (r.forwardTarget key, key, value)
    match c.write with
    | .done => ({ s with stored := s.stored ++ [entry] }, some (statusPayload statusOK))
    | .failed => (s, some (statusPayload statusError))
    | .failedStored => ({ s with stored := s.stored ++ [entry] }, some (statusPayload statusError))

def handle (s : RouterState) (data : Bytes) (c : Circumstances) : RouterState × Option Bytes :=
  if c.admitted = false ∨ c.blocked then (s, some (statusPayload statusOverloaded))
  else r.handlePut s data c

def preHandle (lastTS : LastTS) (data : Bytes) : LastTS × HookAction :=
  match r.filter with
  | none => (lastTS, .pass data)
  | some f => f.handle lastTS data

def doMsgHandle (s : RouterState) (data : Bytes) (c : Circumstances) : RouterState × Option Bytes :=
  match r.preHandle s.lastTS data with
  | (lastTS, .drop reason) => ({ s with lastTS := lastTS }, some (droppedPayload reason))
  | (lastTS, .pass data) => r.handle { s with lastTS := lastTS } data c

end Router

structure PutRequest where
  data : Bytes
  circumstances : Circumstances

def Router.step (r : Router) (s : RouterState) (request : PutRequest) : RouterState :=
  (r.doMsgHandle s request.data request.circumstances).1

inductive ClientError
  | keyNotFound
  | dropped (reason : Bytes)
  | closed
  | overloaded
  | server
  | protocol
  | network
  | cancelled
  deriving DecidableEq

namespace Client

def parseStatus (payload : Bytes) : Except ClientError (Bytes × Bytes) :=
  match payload with
  | [] => .error .protocol
  | n :: rest =>
    if rest.length < n.toNat then .error .protocol
    else .ok (rest.take n.toNat, rest.drop n.toNat)

def parseDropReason (rest : Bytes) : Bytes :=
  if rest.length < 2 then []
  else
    let n := leValue (slice rest 0 2)
    if rest.length < 2 + n then [] else slice rest 2 (2 + n)

-- A status that is not known counts as an error of the server.
def errorOf (status rest : Bytes) : Option ClientError :=
  if status = statusOK then none
  else if status = statusNotFound then some .keyNotFound
  else if status = statusOverloaded then some .overloaded
  else if status = statusDropped then some (.dropped (parseDropReason rest))
  else some .server

def readResponse (payload : Bytes) : Except ClientError Bytes :=
  match parseStatus payload with
  | .error err => .error err
  | .ok (status, rest) =>
    match errorOf status rest with
    | some err => .error err
    | none => .ok rest

def retryable : ClientError → Bool
  | .keyNotFound | .dropped _ | .closed => false
  | .overloaded | .server | .protocol => true
  | .network | .cancelled => true

/-- What becomes of one attempt: there is no connection any more, the request or the response is lost,
or neither. -/
inductive Transport
  | closed
  | unsent
  | lost
  | answered

/-- The puts of others that are handled before an attempt, and what the attempt meets. -/
structure Attempt where
  others : List PutRequest
  transport : Transport
  circumstances : Circumstances

def attempt (r : Router) (data : Bytes) (s : RouterState) (a : Attempt) :
    RouterState × Except ClientError Bytes :=
  let s := run r.step s a.others
  match a.transport with
  | .closed => (s, .error .closed)
  | .unsent => (s, .error .network)
  | .lost => ((r.doMsgHandle s data a.circumstances).1, .error .network)
  | .answered =>
    match r.doMsgHandle s data a.circumstances with
    | (s, none) => (s, .error .network)
    | (s, some payload) => (s, readResponse payload)

/-- The loop: `left` attempts may still be made, and the context is done after the given ones. -/
def tryAgain (r : Router) (data : Bytes) :
    Nat → ClientError → RouterState → List Attempt → RouterState × Except ClientError Bytes
  | 0, lastErr, s, _ => (s, .error lastErr)
  | _ + 1, _, s, [] => (s, .error .cancelled)
  | left + 1, _, s, a :: rest =>
    match attempt r data s a with
    | (s, .ok payload) => (s, .ok payload)
    | (s, .error err) => if retryable err then tryAgain r data left err s rest else (s, .error err)

/-- `do`. There is at least one attempt, so that no error stands for none. -/
def perform (r : Router) (maxRetries : Nat) (data : Bytes) (s : RouterState) (attempts : List Attempt) :
    RouterState × Except ClientError Bytes :=
  tryAgain r data (maxRetries + 1) .cancelled s attempts

end Client

namespace Client

theorem readResponse_dropped (reason : Bytes) :
    ∃ told, readResponse (droppedPayload reason) = .error (.dropped told) := by
  refine ⟨parseDropReason (leBytes 2 (reason.take 4096).length ++ reason.take 4096), ?_⟩
  rfl

end Client

theorem Router.handle_not_dropped (r : Router) (s : RouterState) (data : Bytes) (c : Circumstances)
    (payload : Bytes) (answer : (r.handle s data c).2 = some payload) (reason : Bytes) :
    Client.readResponse payload ≠ .error (.dropped reason) := by
  have three : payload = statusPayload statusOverloaded ∨ payload = statusPayload statusOK ∨
      payload = statusPayload statusError := by
    rw [handle] at answer
    split_ifs at answer with shed
    · exact .inl (some.inj answer).symm
    · rw [handlePut] at answer
      split at answer
      · cases answer
      · cases written : c.write with
        | done =>
          simp only [written, some.injEq] at answer
          exact .inr (.inl answer.symm)
        | failed | failedStored =>
          simp only [written, some.injEq] at answer
          exact .inr (.inr answer.symm)
  rcases three with rfl | rfl | rfl
  · exact nofun
  · exact nofun
  · exact nofun

def Remembered (device : Bytes) (ts : Int64) (lastTS : LastTS) : Prop :=
  ∃ last, lastTS device = some last ∧ ts ≤ last

namespace Filter

variable {f : Filter} {lastTS : LastTS} {key value : Bytes}

theorem validate_remembered {device : Bytes} {ts : Int64} (stamped : f.stamp key true = some (device, ts))
    (small : f.oversized value = false) (remembered : Remembered device ts lastTS) :
    f.validate lastTS key value true = (lastTS, .drop 0 nonMonotonicTimestamp) := by
  rcases remembered with ⟨last, seen, later⟩
  rw [validate, if_neg (by rw [small]; exact Bool.false_ne_true), stamped]
  simp only [seen, any_some, later, decide_true, if_true]

theorem validate_pass {newLast : LastTS} {newValue : Bytes} {changed : Bool}
    (passed : f.validate lastTS key value true = (newLast, .pass newValue changed)) :
    f.oversized value = false ∧ f.checked key value = .pass newValue changed ∧
      ∀ device ts, f.stamp key true = some (device, ts) → Remembered device ts newLast := by
  rw [validate] at passed
  split_ifs at passed with large
  · cases (Prod.mk.inj passed).2
  have small : f.oversized value = false := Bool.eq_false_of_not_eq_true large
  cases stamped : f.stamp key true with
  | none =>
    simp only [stamped, Prod.mk.injEq] at passed
    exact ⟨small, passed.2, nofun⟩
  | some found =>
    simp only [stamped] at passed
    split_ifs at passed with backward
    · cases (Prod.mk.inj passed).2
    rw [Prod.mk.injEq] at passed
    refine ⟨small, passed.2, ?_⟩
    intro device ts same
    cases same
    exact ⟨ts, by rw [← passed.1, Function.update_self], Int64.le_refl ts⟩

end Filter

namespace Router

variable (r : Router)

def Compares (key : Bytes) : Prop := ∃ f, r.filter = some f ∧ (f.stamp key true).isSome

theorem doMsgHandle_lastTS (s : RouterState) (data : Bytes) (c : Circumstances) :
    (r.doMsgHandle s data c).1.lastTS = (r.preHandle s.lastTS data).1 := by
  rw [doMsgHandle]
  split
  · rename_i lastTS reason hooked
    rw [hooked]
  · -- The router itself does not touch what the filter remembers.
    rename_i lastTS newData hooked
    rw [hooked, handle]
    split_ifs
    · rfl
    · rw [handlePut]
      split
      · rfl
      · cases c.write <;> rfl

variable {r} {data key value : Bytes}

theorem doMsgHandle_remembered {f : Filter} (present : r.filter = some f)
    (decoded : decodePutFrame data = some (key, value)) {device : Bytes} {ts : Int64}
    (stamped : f.stamp key true = some (device, ts)) (small : f.oversized value = false)
    (s : RouterState) (c : Circumstances) (remembered : Remembered device ts s.lastTS) :
    (r.doMsgHandle s data c).2 = some (droppedPayload nonMonotonicTimestamp) := by
  have dropped := f.validate_remembered stamped small remembered
  have hooked : r.preHandle s.lastTS data = (s.lastTS, .drop nonMonotonicTimestamp) := by
    simp only [preHandle, present, Filter.handle, decoded, dropped]
  rw [doMsgHandle, hooked]

theorem preHandle_of_retryable (s : RouterState) (c : Circumstances) (payload : Bytes)
    (err : ClientError) (answer : (r.doMsgHandle s data c).2 = some payload)
    (told : Client.readResponse payload = .error err) (again : Client.retryable err = true) :
    ∃ newData, (r.preHandle s.lastTS data).2 = .pass newData := by
  rw [doMsgHandle] at answer
  split at answer
  · rename_i lastTS reason hooked
    rcases Client.readResponse_dropped reason with ⟨read, dropped⟩
    rw [some.injEq] at answer
    rw [← answer, dropped, Except.error.injEq] at told
    rw [← told] at again
    cases again
  · rename_i lastTS newData hooked
    exact ⟨newData, by rw [hooked]⟩

theorem remembered_of_pass {f : Filter} (present : r.filter = some f)
    (decoded : decodePutFrame data = some (key, value)) (lastTS : LastTS) (newData : Bytes)
    (passed : (r.preHandle lastTS data).2 = .pass newData) :
    f.oversized value = false ∧ (∃ newValue changed, f.checked key value = .pass newValue changed) ∧
      ∀ device ts, f.stamp key true = some (device, ts) →
        Remembered device ts (r.preHandle lastTS data).1 := by
  simp only [preHandle, present, Filter.handle, decoded] at passed ⊢
  rcases validated : f.validate lastTS key value true with ⟨newLast, ⟨newValue, changed⟩ | ⟨_, _⟩⟩
  · rcases Filter.validate_pass validated with ⟨small, fine, remembered⟩
    exact ⟨small, ⟨newValue, changed, fine⟩, remembered⟩
  · simp [validated] at passed

theorem passes_again (decoded : decodePutFrame data = some (key, value)) (plain : ¬ r.Compares key)
    (lastTS : LastTS) (newData : Bytes) (passed : (r.preHandle lastTS data).2 = .pass newData)
    (later : LastTS) : ∃ newData, r.preHandle later data = (later, .pass newData) := by
  cases present : r.filter with
  | none => exact ⟨data, by rw [preHandle, present]⟩
  | some f =>
    rcases remembered_of_pass present decoded lastTS newData passed with ⟨small, ⟨newValue, changed, fine⟩, _⟩
    have unstamped : f.stamp key true = none := by
      cases stamped : f.stamp key true with
      | none => rfl
      | some found => exact absurd ⟨f, present, by rw [stamped]; rfl⟩ plain
    have validated : f.validate later key value true = (later, f.checked key value) := by
      rw [Filter.validate, if_neg (by rw [small]; exact Bool.false_ne_true), unstamped]
    rw [fine] at validated
    refine ⟨if changed then encodePutFrame key newValue else data, ?_⟩
    simp only [preHandle, present, Filter.handle, decoded, validated]

section

variable (passes : ∀ lastTS, ∃ newData, r.preHandle lastTS data = (lastTS, .pass newData))
include passes

theorem not_dropped_of_passes
    (s : RouterState) (c : Circumstances) (payload : Bytes)
    (answer : (r.doMsgHandle s data c).2 = some payload) (reason : Bytes) :
    Client.readResponse payload ≠ .error (.dropped reason) := by
  rcases passes s.lastTS with ⟨newData, hooked⟩
  rw [doMsgHandle, hooked] at answer
  exact r.handle_not_dropped _ newData c payload answer reason

-- By induction on the attempts that are left; an attempt fails as dropped only if the server says so.
theorem tryAgain_not_dropped (reason : Bytes)
    (left : Nat) (lastErr : ClientError) (fine : lastErr ≠ .dropped reason) (s : RouterState)
    (attempts : List Client.Attempt) :
    (Client.tryAgain r data left lastErr s attempts).2 ≠ .error (.dropped reason) := by
  induction left generalizing lastErr s attempts with
  | zero =>
    exact fun same => fine (Except.error.inj same)
  | succ left ih =>
    cases attempts with
    | nil => exact nofun
    | cons a rest =>
      have told : (Client.attempt r data s a).2 ≠ .error (.dropped reason) := by
        rw [Client.attempt]
        cases a.transport with
        | closed | unsent | lost => exact nofun
        | answered =>
          rcases answer : r.doMsgHandle (run r.step s a.others) data a.circumstances with
            ⟨next, none | payload⟩
          · simp
          · have read := not_dropped_of_passes passes _ a.circumstances payload
              (by rw [answer]) reason
            simpa [answer] using read
      rw [Client.tryAgain]
      rcases tried : Client.attempt r data s a with ⟨next, err | payload⟩
      · rw [tried] at told
        have different : err ≠ .dropped reason := fun same => told (by rw [same])
        simp only
        split_ifs
        · exact ih err different next rest
        · exact told
      · exact nofun

end

end Router

def Newer (key other : Bytes) : Prop :=
  ∃ device ts later, parseKey key = some (device, ts) ∧ parseKey other = some (device, later) ∧
    ts < later

def NoneNewer (key : Bytes) (requests : List PutRequest) : Prop :=
  ∀ request ∈ requests, ∀ other value, decodePutFrame request.data = some (other, value) →
    ¬ Newer key other

/-- A put that was handled once is not taken for a replay when it is sent again before any newer one
of its device, and the client that goes on trying is not told so. -/
structure SafeToRetry (r : Router) (s : RouterState) (data key : Bytes) (c : Circumstances) : Prop where
  resent : ∀ between again, NoneNewer key between →
    (r.doMsgHandle (run r.step (r.doMsgHandle s data c).1 between) data again).2 ≠
      some (droppedPayload nonMonotonicTimestamp)
  loop : ∀ maxRetries attempts, (∀ a ∈ attempts, NoneNewer key a.others) →
    (Client.perform r maxRetries data s (⟨[], .answered, c⟩ :: attempts)).2 ≠
      .error (.dropped nonMonotonicTimestamp)

/-- A put that was answered with something to retry, whether it was stored or not, may be retried
exactly if the filter does not compare timestamps for its key. -/
theorem safe_to_retry_iff (r : Router) (s : RouterState) (data key value payload : Bytes)
    (c : Circumstances) (err : ClientError) (decoded : decodePutFrame data = some (key, value))
    (answer : (r.doMsgHandle s data c).2 = some payload)
    (told : Client.readResponse payload = .error err) (again : Client.retryable err = true) :
    SafeToRetry r s data key c ↔ ¬ r.Compares key := by
  rcases Router.preHandle_of_retryable s c payload err answer told again with ⟨newData, passed⟩
  constructor
  · intro safe compares
    rcases compares with ⟨f, present, stamped⟩
    rcases isSome_iff_exists.mp stamped with ⟨⟨device, ts⟩, found⟩
    rcases Router.remembered_of_pass present decoded s.lastTS newData passed with ⟨small, _, remembers⟩
    have remembered : Remembered device ts (r.doMsgHandle s data c).1.lastTS := by
      rw [Router.doMsgHandle_lastTS]
      exact remembers device ts found
    exact safe.resent [] c (nofun)
      (Router.doMsgHandle_remembered present decoded found small _ c remembered)
  · intro plain
    have passes := Router.passes_again decoded plain s.lastTS newData passed
    constructor
    · intro between next _ dropped
      rcases Client.readResponse_dropped nonMonotonicTimestamp with ⟨reason, read⟩
      exact Router.not_dropped_of_passes passes _ next _ dropped reason read
    · intro maxRetries attempts _
      exact Router.tryAgain_not_dropped passes _ (maxRetries + 1) .cancelled nofun s _

def deviceRouter : Router := ⟨some ⟨fun _ => none, 0, true, fun _ => none⟩, fun _ => none⟩

def freshState : RouterState := ⟨fun _ => none, []⟩

/-- A key without a timestamp. -/
theorem safe_to_retry_iff_plain_key :
    SafeToRetry deviceRouter freshState (encodePutFrame (ascii "config".toList) [1])
      (ascii "config".toList) ⟨false, false, .done⟩ :=
  (safe_to_retry_iff deviceRouter freshState (encodePutFrame (ascii "config".toList) [1])
    (ascii "config".toList) [1] (statusPayload statusOverloaded) ⟨false, false, .done⟩ .overloaded
    (by decide) (by decide) (by decide) rfl).mpr (by
      rintro ⟨f, present, stamped⟩
      cases present
      exact absurd stamped (by decide))

/-- A record of a device that is refused by the admission, or that the store fails to write, is dropped
when it is sent again. The client's own second attempt makes the error permanent, and nothing was
stored. -/
theorem retry_dropped :
    let data := encodePutFrame (ascii "imu:dev0:17".toList) [1]
    let shed : Circumstances := ⟨false, false, .done⟩
    let broken : Circumstances := ⟨true, false, .failed⟩
    let fine : Circumstances := ⟨true, false, .done⟩
    (deviceRouter.doMsgHandle freshState data shed).2 = some (statusPayload statusOverloaded) ∧
      (deviceRouter.doMsgHandle (deviceRouter.doMsgHandle freshState data shed).1 data fine).2 =
        some (droppedPayload nonMonotonicTimestamp) ∧
      (deviceRouter.doMsgHandle freshState data broken).2 = some (statusPayload statusError) ∧
      (Client.perform deviceRouter 2 data freshState [⟨[], .answered, broken⟩, ⟨[], .answered, fine⟩]).2 =
        .error (.dropped nonMonotonicTimestamp) ∧
      (Client.perform deviceRouter 2 data freshState
        [⟨[], .answered, broken⟩, ⟨[], .answered, fine⟩]).1.stored = [] := by
  decide +kernel

end KairosFlux.Service
