import KairosFlux.Service.Agreement
import KairosFlux.Service.RouterV2

/-! The role of a writer (`internal/identity/identity.go`, `handlePutVersioned` of
`service/router_v2.go`): an agent may write proposals only. -/

namespace KairosFlux.Service

open Lib Temporal List

inductive Role
  | agent
  | engine
  deriving DecidableEq

def agentSourcePrefix : Bytes := ascii ['a', 'g', 'e', 'n', 't', ':']

def proposalKeyPrefix : Bytes := ascii ['p', 'r', 'o', 'p', 'o', 's', 'a', 'l', ':']

def sourceRole (source : Bytes) : Role := if agentSourcePrefix <+: source then .agent else .engine

def isProposalKey (key : Bytes) : Bool := proposalKeyPrefix <+: key

def errCodeUnauthorizedRole : UInt16 := 0x4001

/-- A decoded PUT_VERSIONED frame, and the time at which it is handled. -/
structure VersionedFrame where
  type : UInt16
  key : Bytes
  value : Bytes
  source : Bytes
  nanos : Int64

/-- The schema registry: what the filter says about a value, if there is a filter, and the version of
the contract. -/
structure Schemas where
  validateVersionedForType : Option (UInt16 → Bytes → Bytes → Verdict)
  schemaVersionFor : UInt16 → Bytes → UInt32

namespace Schemas

variable (schemas : Schemas)

def verdict (frame : VersionedFrame) : Verdict :=
  match schemas.validateVersionedForType with
  | none => .pass frame.value
  | some validate => validate frame.type frame.key frame.value

def call (frame : VersionedFrame) (value : Bytes) : PutCall :=
  ⟨frame.key, value, frame.nanos, frame.source, schemas.schemaVersionFor frame.type frame.key⟩

/-- Every write of the store succeeds. The answer is the number of the version. -/
def handlePutVersioned (ts : TemporalStore) (frame : VersionedFrame) :
    TemporalStore × Except Rejection UInt64 :=
  if sourceRole frame.source = .agent ∧ isProposalKey frame.key = false then
    (ts, .error ⟨errCodeUnauthorizedRole, ascii "agent_write_forbidden_kind".toList⟩)
  else
    match schemas.verdict frame with
    | .drop code reason =>
      (ts, .error ⟨if code = 0 then errCodeSchemaValidation else code, reason⟩)
    | .pass value => (ts.put (schemas.call frame value), .ok (ts.nextSeq frame.key))

def handle (ts : TemporalStore) (frame : VersionedFrame) : TemporalStore :=
  (schemas.handlePutVersioned ts frame).1

end Schemas

def VersionedFrame.byEngine (frame : VersionedFrame) : Bool := sourceRole frame.source = .engine

def Schemas.answers (schemas : Schemas) (key : Bytes) :
    TemporalStore → List VersionedFrame → List (Except Rejection UInt64)
  | _, [] => []
  | ts, frame :: rest =>
    let later := answers schemas key (schemas.handle ts frame) rest
    if frame.byEngine ∧ frame.key = key then (schemas.handlePutVersioned ts frame).2 :: later
    else later

def proposalWord : Bytes := ascii ['p', 'r', 'o', 'p', 'o', 's', 'a', 'l']

theorem isProposalKey_current (logical : Bytes) (pointer : isProposalKey (currentStorageKey logical) = true) :
    isProposalKey logical = true ∨ logical = proposalWord := by
  simp only [isProposalKey, decide_eq_true_eq] at pointer ⊢
  by_cases long : proposalKeyPrefix.length ≤ logical.length
  · exact .inl (prefix_of_prefix_length_le pointer (prefix_append _ _) long)
  · right
    have short : logical <+: proposalKeyPrefix :=
      prefix_of_prefix_length_le (prefix_append _ _) pointer (by omega)
    rcases short with ⟨rest, split⟩
    have cut : ∀ n < 9, proposalKeyPrefix.drop n <+: currentSuffix → n = 8 := by decide
    have length : logical.length < 9 := not_le.mp long
    have suffix : proposalKeyPrefix.drop logical.length <+: currentSuffix := by
      rw [currentStorageKey, ← split] at pointer
      rw [← split, drop_left]
      exact (prefix_append_right_inj logical).mp pointer
    have whole : logical = proposalKeyPrefix.take logical.length := by rw [← split, take_left]
    rw [whole, cut _ length suffix]
    decide

theorem isProposalKey_append {logical : Bytes} (rest : Bytes)
    (inside : isProposalKey logical = true ∨ logical = proposalWord) :
    isProposalKey (logical ++ 58 :: rest) = true := by
  simp only [isProposalKey, decide_eq_true_eq] at inside ⊢
  rcases inside with proposal | rfl
  · exact proposal.trans (prefix_append _ _)
  · exact ⟨rest, rfl⟩

/-- The stores agree on the safe logical keys and on all literal keys outside the proposals. -/
structure Unmoved (safe : Bytes → Prop) (ts other : TemporalStore) : Prop where
  agree : Agree safe ts other
  literal : ∀ key, isProposalKey key = false →
    ts.store.storage.lookup key = other.store.storage.lookup key

theorem Unmoved.symm {safe : Bytes → Prop} {ts other : TemporalStore} (same : Unmoved safe ts other) :
    Unmoved safe other ts :=
  ⟨same.agree.symm, fun key plain => (same.literal key plain).symm⟩

section

variable {safe : Bytes → Prop}
  (closed : ∀ logical, safe logical → safe (currentStorageKey logical))
  (proposals : ∀ logical, ¬ safe logical → isProposalKey logical = true ∨ logical = proposalWord)
  (schemas : Schemas) {ts other : TemporalStore}

include proposals in
theorem Unmoved.put_left (same : Unmoved safe ts other) {call : PutCall}
    (outside : ¬ safe call.logical) : Unmoved safe (ts.put call) other := by
  refine ⟨same.agree.put_left outside, fun key plain => ?_⟩
  have apart : ∀ rest, key ≠ call.logical ++ 58 :: rest := by
    intro rest equal
    rw [equal, isProposalKey_append rest (proposals _ outside)] at plain
    cases plain
  have version : ∀ seq, key ≠ versionStorageKey call.logical seq := by
    intro seq
    rw [versionStorageKey, append_assoc]
    exact apart _
  have current : key ≠ currentStorageKey call.logical := apart _
  rw [lookup_put, if_neg current, if_neg (version _), same.literal key plain]

include closed proposals in
theorem Unmoved.put (same : Unmoved safe ts other) (call : PutCall) :
    Unmoved safe (ts.put call) (other.put call) := by
  by_cases inside : safe call.logical
  · refine ⟨same.agree.put closed inside, fun key plain => ?_⟩
    rw [lookup_put, lookup_put, same.agree.nextSeq closed inside, same.literal key plain]
  · exact ((same.put_left proposals inside).symm.put_left proposals inside).symm

include closed proposals in
theorem Unmoved.handle (same : Unmoved safe ts other) (frame : VersionedFrame) :
    Unmoved safe (schemas.handle ts frame) (schemas.handle other frame) := by
  rw [Schemas.handle, Schemas.handle, Schemas.handlePutVersioned, Schemas.handlePutVersioned]
  split_ifs
  · exact same
  · split
    · exact same
    · exact same.put closed proposals _

include proposals in
theorem Unmoved.handle_left (same : Unmoved safe ts other) {frame : VersionedFrame}
    (outside : isProposalKey frame.key = true → ¬ safe frame.key)
    (byAgent : sourceRole frame.source = .agent) : Unmoved safe (schemas.handle ts frame) other := by
  rw [Schemas.handle, Schemas.handlePutVersioned]
  split_ifs with refused
  · exact same
  · split
    · exact same
    · apply same.put_left proposals
      apply outside
      by_contra plain
      exact refused ⟨byAgent, Bool.eq_false_iff.mpr plain⟩

include closed in
theorem Unmoved.answer (same : Unmoved safe ts other) {frame : VersionedFrame}
    (inside : safe frame.key) :
    (schemas.handlePutVersioned ts frame).2 = (schemas.handlePutVersioned other frame).2 := by
  rw [Schemas.handlePutVersioned, Schemas.handlePutVersioned, same.agree.nextSeq closed inside]
  split_ifs
  · rfl
  · split <;> rfl

theorem byEngine_eq_false {frame : VersionedFrame} (agent : frame.byEngine = false) :
    sourceRole frame.source = .agent := by
  rw [VersionedFrame.byEngine, decide_eq_false_iff_not] at agent
  cases role : sourceRole frame.source with
  | agent => rfl
  | engine => exact absurd role agent

include closed proposals in
theorem unmoved_run {key : Bytes} (inside : safe key) (same : Unmoved safe ts other)
    (frames : List VersionedFrame)
    (outside : ∀ frame ∈ frames, sourceRole frame.source = .agent →
      isProposalKey frame.key = true → ¬ safe frame.key) :
    Unmoved safe (run schemas.handle ts frames)
        (run schemas.handle other (frames.filter VersionedFrame.byEngine)) ∧
      schemas.answers key ts frames =
        schemas.answers key other (frames.filter VersionedFrame.byEngine) := by
  induction frames generalizing ts other with
  | nil => exact ⟨same, rfl⟩
  | cons frame rest ih =>
    rcases forall_mem_cons.mp outside with ⟨first, later⟩
    cases engine : frame.byEngine with
    | true =>
      rw [filter_cons_of_pos engine]
      rcases ih (same.handle closed proposals schemas frame) later with ⟨reached, replies⟩
      refine ⟨reached, ?_⟩
      rw [Schemas.answers, Schemas.answers, replies]
      split_ifs with own
      · rw [same.answer closed schemas (own.2 ▸ inside)]
      · rfl
    | false =>
      have agent := byEngine_eq_false engine
      rw [filter_cons_of_neg (by simp [engine]), Schemas.answers]
      simp only [engine, Bool.false_eq_true, false_and, if_false, run_cons]
      exact ih (same.handle_left proposals schemas (first agent) agent) later

end

/-- Any key but the one whose pointer key looks like a proposal. -/
def Distant (logical : Bytes) : Prop := isProposalKey logical = false ∧ logical ≠ proposalWord

/-- Any key outside the proposals, with the chain of pointer keys that starts among them. -/
def Chained (logical : Bytes) : Prop :=
  isProposalKey logical = false ∨ currentStorageKey proposalWord <+: logical

theorem Distant.current {logical : Bytes} (distant : Distant logical) :
    Distant (currentStorageKey logical) := by
  constructor
  · rw [Bool.eq_false_iff]
    intro pointer
    rcases isProposalKey_current logical pointer with proposal | word
    · rw [distant.1] at proposal
      cases proposal
    · exact distant.2 word
  · intro same
    have last := congrArg List.getLast? same
    have letter : currentSuffix.getLast? = some 116 := by decide
    rw [currentStorageKey, List.getLast?_append, letter, Option.some_or] at last
    exact absurd last (by decide)

theorem Distant.proposals (logical : Bytes) (near : ¬ Distant logical) :
    isProposalKey logical = true ∨ logical = proposalWord := by
  by_cases word : logical = proposalWord
  · exact .inr word
  · left
    by_contra plain
    exact near ⟨Bool.eq_false_iff.mpr plain, word⟩

theorem Chained.current {logical : Bytes} (chained : Chained logical) :
    Chained (currentStorageKey logical) := by
  rcases chained with plain | chain
  · cases pointer : isProposalKey (currentStorageKey logical) with
    | false => exact .inl pointer
    | true =>
      rcases isProposalKey_current logical pointer with proposal | rfl
      · rw [plain] at proposal
        cases proposal
      · exact .inr prefix_rfl
  · exact .inr (chain.trans (prefix_append _ _))

theorem Unmoved.answers_alike {safe : Bytes → Prop} {ts other : TemporalStore}
    (same : Unmoved safe ts other) {key : Bytes} (inside : safe key)
    (plain : isProposalKey key = false) :
    ts.listVersions key = other.listVersions key ∧
      (∀ asOfNanos, ts.getAsOf key asOfNanos = other.getAsOf key asOfNanos) ∧
      ts.store.get key = other.store.get key := by
  refine ⟨same.agree.listVersions inside, same.agree.getAsOf inside, ?_⟩
  rw [KVServer.get, KVServer.get, same.literal key plain, same.agree.getViaCurrentPointer inside]

/-- Without the frames of agents the answers about a key outside the proposals are the same, if the
key is not the proposal prefix without its colon or no agent writes below the pointer key of that. -/
theorem agents_leave_engine_data (schemas : Schemas) (ts : TemporalStore)
    (frames : List VersionedFrame) (key : Bytes) (plain : isProposalKey key = false)
    (clean : key ≠ proposalWord ∨ ∀ frame ∈ frames, sourceRole frame.source = .agent →
      ¬ currentStorageKey proposalWord <+: frame.key) :
    let engineOnly := frames.filter VersionedFrame.byEngine
    let after := run schemas.handle ts frames
    let without := run schemas.handle ts engineOnly
    schemas.answers key ts frames = schemas.answers key ts engineOnly ∧
      after.listVersions key = without.listVersions key ∧
      (∀ asOfNanos, after.getAsOf key asOfNanos = without.getAsOf key asOfNanos) ∧
      after.store.get key = without.store.get key := by
  intro engineOnly after without
  rcases clean with distant | chained
  · have inside : Distant key := ⟨plain, distant⟩
    have outside : ∀ frame ∈ frames, sourceRole frame.source = .agent →
        isProposalKey frame.key = true → ¬ Distant frame.key := by
      intro frame _ _ proposal safe
      rw [safe.1] at proposal
      cases proposal
    have closed : ∀ logical, Distant logical → Distant (currentStorageKey logical) := fun _ => .current
    rcases unmoved_run closed Distant.proposals schemas inside
      ⟨.refl _ ts, fun _ _ => rfl⟩ frames outside with ⟨same, replies⟩
    exact ⟨replies, same.answers_alike inside plain⟩
  · have inside : Chained key := .inl plain
    have proposals : ∀ logical, ¬ Chained logical →
        isProposalKey logical = true ∨ logical = proposalWord := by
      intro logical free
      left
      by_contra other
      exact free (.inl (Bool.eq_false_iff.mpr other))
    have outside : ∀ frame ∈ frames, sourceRole frame.source = .agent →
        isProposalKey frame.key = true → ¬ Chained frame.key := by
      intro frame member agent proposal safe
      rcases safe with other | chain
      · rw [other] at proposal
        cases proposal
      · exact chained frame member agent chain
    have closed : ∀ logical, Chained logical → Chained (currentStorageKey logical) := fun _ => .current
    rcases unmoved_run closed proposals schemas inside
      ⟨.refl _ ts, fun _ _ => rfl⟩ frames outside with ⟨same, replies⟩
    exact ⟨replies, same.answers_alike inside plain⟩

def noSchemas : Schemas := ⟨none, fun _ _ => 0⟩

theorem agents_leave_engine_key : let frames : List VersionedFrame :=
      [⟨0, ascii ['k'], [1], agentSourcePrefix, 1⟩, ⟨0, proposalKeyPrefix, [2], agentSourcePrefix, 2⟩,
        ⟨0, ascii ['k'], [3], [], 3⟩]
    (run noSchemas.handle (newTemporalStore .empty) frames).store.get (ascii ['k']) =
      (run noSchemas.handle (newTemporalStore .empty)
        [⟨0, ascii ['k'], [3], [], 3⟩]).store.get (ascii ['k']) := by
  intro frames
  exact (agents_leave_engine_data noSchemas (newTemporalStore .empty) frames (ascii ['k']) (by decide)
    (.inl (by decide))).2.2.2

/-- An agent writes the proposal `proposal:current`; the first version of the key `proposal`, written
by the engine, then gets the number 42. -/
theorem agent_moves_engine_seq : let forged : VersionedFrame :=
      ⟨0, currentStorageKey proposalWord, leBytes 8 41 ++ leBytes 2 0, agentSourcePrefix, 1⟩
    let first : VersionedFrame := ⟨0, proposalWord, [1], [], 2⟩
    isProposalKey proposalWord = false ∧ sourceRole forged.source = .agent ∧
      (noSchemas.answers proposalWord (newTemporalStore .empty) [forged, first]).map Except.toOption =
        [some 42] ∧
      (noSchemas.answers proposalWord (newTemporalStore .empty) [first]).map Except.toOption =
        [some 1] := by
  decide +kernel

end KairosFlux.Service
