import KairosFlux.Aiplane.Similarity
import KairosFlux.Lib.SelfDelimiting
import Mathlib.Data.List.TakeWhile

/-! Who came first (`internal/aiplane/similarity.go`, `internal/aiplane/evidence.go`).

A history of calls leaves two things: which pairs of factors are suspect, and in which order the
factors were admitted. The gate reads the first from the edges, but not the second. -/

namespace KairosFlux.Aiplane

open Lib Proto Temporal Service List Option

/-- `suspect` is what the latest edge of two factors says. `admissions` are the admitted factors in the
order of their first admissions. -/
structure Gate where
  suspect : Bytes → Bytes → Bool
  admissions : List Bytes

namespace Gate

def new : Gate := ⟨fun _ _ => false, []⟩

def record (gate : Gate) (factorA factorB : Bytes) (flag : Bool) : Gate :=
  { gate with
    suspect := fun a b =>
      if a = factorA ∧ b = factorB ∨ a = factorB ∧ b = factorA then flag else gate.suspect a b }

def enter (gate : Gate) (factor : Bytes) : Gate :=
  if factor ∈ gate.admissions then gate
  else { gate with admissions := gate.admissions ++ [factor] }

/-- The first factor was admitted, and before the second one if that was admitted at all. -/
def Precedes (gate : Gate) (first second : Bytes) : Prop :=
  first ∈ gate.admissions.takeWhile fun factor => factor ≠ second

/-- A duplicate that came before it keeps the factor out. -/
def Latecomer (gate : Gate) (factor : Bytes) : Prop :=
  ∃ other, gate.suspect factor other = true ∧ gate.Precedes other factor

/-- The factor was admitted before every duplicate of it, and one of them was admitted after it. -/
def Overtaken (gate : Gate) (factor : Bytes) : Prop :=
  factor ∈ gate.admissions ∧
    (∃ other ∈ gate.admissions, gate.suspect factor other = true) ∧
    ∀ other, gate.suspect factor other = true → ¬ gate.Precedes other factor

theorem Precedes.admitted {gate : Gate} {first second : Bytes} (precedes : gate.Precedes first second) :
    first ∈ gate.admissions :=
  (takeWhile_sublist _).subset precedes

theorem precedes_of_not_admitted {gate : Gate} {first second : Bytes} (admitted : first ∈ gate.admissions)
    (never : second ∉ gate.admissions) : gate.Precedes first second := by
  have whole : gate.admissions.takeWhile (fun factor => decide (factor ≠ second)) = gate.admissions := by
    rw [takeWhile_eq_self_iff]
    intro factor member
    rw [decide_eq_true_eq]
    rintro rfl
    exact never member
  rw [Precedes, whole]
  exact admitted

/-- A gate that refuses whoever has an admitted duplicate refuses the latecomers exactly, unless the
factor was overtaken. -/
theorem latecomer_iff (gate : Gate) (factor : Bytes) :
    ((∃ other ∈ gate.admissions, gate.suspect factor other = true) ↔ gate.Latecomer factor) ↔
      ¬ gate.Overtaken factor := by
  constructor
  · intro exact overtaken
    rcases overtaken with ⟨_, present, first⟩
    rcases exact.mp present with ⟨other, suspect, precedes⟩
    exact first other suspect precedes
  · intro notOvertaken
    constructor
    · intro present
      by_contra notLate
      have first : ∀ other, gate.suspect factor other = true → ¬ gate.Precedes other factor :=
        fun other suspect precedes => notLate ⟨other, suspect, precedes⟩
      have admitted : factor ∈ gate.admissions := by
        by_contra never
        rcases present with ⟨other, member, suspect⟩
        exact first other suspect (precedes_of_not_admitted member never)
      exact notOvertaken ⟨admitted, present, first⟩
    · intro late
      rcases late with ⟨other, suspect, precedes⟩
      exact ⟨other, precedes.admitted, suspect⟩

theorem record_suspect (gate : Gate) (factorA factorB : Bytes) (flag : Bool) (a b : Bytes) :
    (gate.record factorA factorB flag).suspect a b =
      if a = factorA ∧ b = factorB ∨ a = factorB ∧ b = factorA then flag else gate.suspect a b := rfl

@[simp] theorem enter_suspect (gate : Gate) (factor : Bytes) :
    (gate.enter factor).suspect = gate.suspect := by
  rw [enter]
  split_ifs <;> rfl

theorem mem_enter (gate : Gate) (factor other : Bytes) :
    other ∈ (gate.enter factor).admissions ↔ other ∈ gate.admissions ∨ other = factor := by
  rw [enter]
  split_ifs with known
  · constructor
    · exact .inl
    · rintro (old | rfl)
      · exact old
      · exact known
  · simp

end Gate

inductive PlaneCall (Number : Type)
  | recordSimilarity (factorA factorB : Bytes) (returnsA returnsB : List Number)
  | admitFactorEvidence (asOfNanos : Int64) (factor experimentFingerprint : Bytes)

structure PlaneStep (Number : Type) where
  call : PlaneCall Number
  nanos : Int64

structure Plane where
  ts : TemporalStore
  gate : Gate

def Plane.new : Plane := ⟨newTemporalStore KVServer.empty, .new⟩

/-- A name in valid UTF-8 without a colon and without a bar. -/
structure ProperName (name : Bytes) : Prop where
  valid : Utf8.Valid name
  colon : 58 ∉ name
  bar : 124 ∉ name

section

variable {Number : Type} {arith : Arithmetic Number} (json : PlaneJSON arith)

def Plane.step (plane : Plane) (step : PlaneStep Number) : Plane :=
  match step.call with
  | .recordSimilarity factorA factorB returnsA returnsB =>
    match recordSimilarity json plane.ts factorA factorB returnsA returnsB step.nanos with
    | (ts, .ok edge) => ⟨ts, plane.gate.record factorA factorB edge.suspectDuplicate⟩
    | (ts, .error _) => ⟨ts, plane.gate⟩
  | .admitFactorEvidence asOfNanos factor experimentFingerprint =>
    match admitFactorEvidence json plane.ts asOfNanos factor experimentFingerprint step.nanos with
    | (ts, .ok ()) => ⟨ts, plane.gate.enter factor⟩
    | (ts, .error _) => ⟨ts, plane.gate⟩

/-- Proper names, a correlation that is a finite number, an experiment that does not start with the
byte 0xFF, and no bound in time. -/
def PlaneStep.Proper (arith : Arithmetic Number) (step : PlaneStep Number) : Prop :=
  match step.call with
  | .recordSimilarity factorA factorB returnsA returnsB =>
    ProperName factorA ∧ ProperName factorB ∧
      ∀ corr, pearsonCorrelation arith returnsA returnsB = .ok corr → arith.finite corr = true
  | .admitFactorEvidence asOfNanos factor experimentFingerprint =>
    ProperName factor ∧ experimentFingerprint.head? ≠ some 255 ∧ Unbounded asOfNanos

end

section

variable {a b c d factor other : Bytes}

theorem similarityKey_of_le (order : a ≤ b) :
    similarityKey a b = similarityPrefix ++ (a ++ 124 :: b) := by
  rw [similarityKey, min_eq_left order, max_eq_right order]

theorem similarityKey_comm (a b : Bytes) : similarityKey a b = similarityKey b a := by
  rw [similarityKey, similarityKey, min_comm, max_comm]

theorem similarityKey_inj (first : 124 ∉ a) (second : 124 ∉ c) (ordered : a ≤ b)
    (otherOrdered : c ≤ d) : similarityKey a b = similarityKey c d ↔ a = c ∧ b = d := by
  rw [similarityKey_of_le ordered, similarityKey_of_le otherOrdered, append_cancel_left_eq]
  constructor
  · exact append_separator_inj 124 a c b d first second
  · rintro ⟨rfl, rfl⟩
    rfl

theorem similarityKey_ne_evidence (suffix rest : Bytes) :
    similarityKey a b ++ suffix ≠ evidencePrefix ++ rest := by
  intro same
  have first : (similarityKey a b ++ suffix).head? = some 102 := rfl
  have second : (evidencePrefix ++ rest).head? = some 101 := rfl
  rw [same, second] at first
  exact absurd first (by decide)

theorem evidence_not_scanned (factor experimentFingerprint : Bytes) (seq : UInt64) :
    ¬ similarityPrefix <+: versionStorageKey (evidenceFactorKey factor experimentFingerprint) seq := by
  intro under
  rcases under with ⟨rest, same⟩
  have first : (similarityPrefix ++ rest).head? = some 102 := rfl
  have second : (versionStorageKey (evidenceFactorKey factor experimentFingerprint) seq).head? =
      some 101 := rfl
  rw [same, second] at first
  exact absurd first (by decide)

theorem similarityKey_ne_current (first : 124 ∉ a) (second : 124 ∉ c) (fourth : ¬ currentSuffix <:+ d)
    (ordered : a ≤ b) (otherOrdered : c ≤ d) :
    similarityKey c d ≠ currentStorageKey (similarityKey a b) := by
  intro same
  rw [similarityKey_of_le ordered, similarityKey_of_le otherOrdered, currentStorageKey,
    append_assoc, append_assoc, cons_append, append_cancel_left_eq] at same
  apply fourth
  rw [(append_separator_inj 124 c a d _ second first same).2]
  exact suffix_append _ _

theorem ProperName.suffix (proper : ProperName a) : ¬ currentSuffix <:+ a :=
  fun ends => proper.colon (ends.subset (by decide))

/-- The scan for a factor finds the keys of its own experiments only. -/
theorem evidence_scanned_iff (first : ProperName factor) (second : ProperName other)
    (experimentFingerprint : Bytes) (seq : UInt64) :
    evidenceFactorPrefix factor <+:
        versionStorageKey (evidenceFactorKey other experimentFingerprint) seq ↔ factor = other := by
  rw [versionStorageKey, evidenceFactorKey, evidenceFactorPrefix, evidenceFactorPrefix]
  constructor
  · intro under
    rcases under with ⟨rest, same⟩
    simp only [append_assoc, append_cancel_left_eq, cons_append, nil_append] at same
    exact (append_separator_inj 58 _ _ _ _ first.colon second.colon same).1
  · rintro rfl
    rw [append_assoc, append_assoc]
    exact prefix_append _ _

end

section

variable {Number : Type} {arith : Arithmetic Number} (json : PlaneJSON arith)

def latestOn (logicalKey : Bytes) (calls : List PutCall) : Option Version :=
  (onKey logicalKey (recordsOf calls)).getLast?

def EvidencePut (gate : Gate) (call : PutCall) : Prop :=
  ∃ factor experimentFingerprint nanos, ProperName factor ∧ factor ∈ gate.admissions ∧
    call = engineCall (evidenceFactorKey factor experimentFingerprint)
      (json.marshalMarker factor experimentFingerprint) nanos

def SimilarityPut (call : PutCall) : Prop :=
  ∃ a b payload nanos, ProperName a ∧ ProperName b ∧ a < b ∧
    call = engineCall (similarityKey a b) payload nanos

structure Linked (calls : List PutCall) (gate : Gate) : Prop where
  shaped : ∀ call ∈ calls, EvidencePut json gate call ∨ SimilarityPut call
  admitted : ∀ factor ∈ gate.admissions, ProperName factor ∧ ∃ call ∈ calls,
    ∃ experimentFingerprint, experimentFingerprint.head? ≠ some 255 ∧
      call.logical = evidenceFactorKey factor experimentFingerprint
  edges : ∀ a b, ProperName a → ProperName b → a < b →
    (latestOn (similarityKey a b) calls).elim (gate.suspect a b = false) fun v =>
      ∃ corr, json.unmarshal v.payload = some ⟨a, b, corr, gate.suspect a b⟩
  symmetric : ∀ a b, gate.suspect a b = gate.suspect b a
  known : ∀ a b, gate.suspect a b = true → ProperName a ∧ ProperName b ∧ a ≠ b

theorem Linked.new : Linked json [] .new where
  shaped := by simp
  admitted := by simp [Gate.new]
  edges := fun _ _ _ _ _ => rfl
  symmetric := fun _ _ => rfl
  known := nofun

variable {json} {calls : List PutCall} {gate : Gate}

theorem getLast_of_largest {versions : List Version}
    (sorted : versions.Pairwise fun left right => left.seq < right.seq) {v : Version} (member : v ∈ versions)
    (largest : ∀ w ∈ versions, w.seq ≤ v.seq) : versions.getLast? = some v := by
  rcases eq_nil_or_concat versions with rfl | ⟨front, last, rfl⟩
  · cases member
  · rw [concat_eq_append, pairwise_append] at sorted
    rw [concat_eq_append] at member largest ⊢
    rw [List.getLast?_concat, some.injEq]
    rcases mem_append.mp member with early | isLast
    · have less := sorted.2.2 v early last (.head _)
      exact absurd (largest last (by simp)) (not_le.mpr less)
    · exact (mem_singleton.mp isLast).symm

theorem latestOn_snoc_same (calls : List PutCall) (call : PutCall) :
    ∃ v, latestOn call.logical (calls ++ [call]) = some v ∧ v.payload = call.payload := by
  refine ⟨newVersion call ((storeAfter calls).nextSeq call.logical), ?_, rfl⟩
  have here : (newVersion call ((storeAfter calls).nextSeq call.logical)).logicalKey = call.logical := rfl
  rw [latestOn, recordsOf_snoc, onKey_snoc, if_pos here, List.getLast?_concat]

theorem latestOn_snoc_other (calls : List PutCall) (call : PutCall) {logicalKey : Bytes}
    (different : call.logical ≠ logicalKey) : latestOn logicalKey (calls ++ [call]) =
      latestOn logicalKey calls := by
  rw [latestOn, recordsOf_snoc, onKey_snoc_other _ _ _ different, ← latestOn]

theorem exists_record {calls : List PutCall} {call : PutCall} (member : call ∈ calls) :
    ∃ v ∈ recordsOf calls, v.logicalKey = call.logical := by
  rcases append_of_mem member with ⟨before, after, rfl⟩
  refine ⟨newVersion call ((storeAfter before).nextSeq call.logical), ?_, rfl⟩
  rw [append_cons, recordsOf_append, recordsOf_snoc]
  simp

theorem ProperName.head {name : Bytes} (proper : ProperName name) : name.head? ≠ some 255 := by
  cases proper.valid with
  | nil => exact nofun
  | @rune rune rest is _ =>
    cases rune with
    | nil => cases is
    | cons first following =>
      intro high
      have isHigh : first = 255 := some.inj high
      rw [isHigh] at is
      cases is

theorem similarity_scanned {a b : Bytes} (first : ProperName a) (ordered : a < b) {v : Version}
    (key : v.logicalKey = similarityKey a b) : Scanned similarityPrefix v := by
  rw [scanned_iff, key]
  refine ⟨?_, ?_⟩
  · exact prefix_append _ _
  · rw [similarityKey_of_le ordered.le, prefix_append_right_inj]
    rintro ⟨rest, high⟩
    cases a with
    | nil => cases high
    | cons byte rest =>
      injection high with isHigh
      exact first.head (by rw [← isHigh]; rfl)

theorem Linked.sources (linked : Linked json calls gate) :
    ∀ call ∈ calls, call.source.length < 2 ^ 32 := by
  intro call member
  have source : call.source = engineSource := by
    rcases linked.shaped call member with ⟨_, _, _, _, _, rfl⟩ | ⟨_, _, _, _, _, _, _, rfl⟩ <;> rfl
  rw [source]
  decide

section

variable (linked : Linked json calls gate) (few : calls.length < 2 ^ 64)
include linked few

theorem Linked.sorted {a b : Bytes} (first : ProperName a) (ordered : a < b) :
    (onKey (similarityKey a b) (recordsOf calls)).Pairwise fun left right => left.seq < right.seq := by
  apply onKey_sorted _ _ (countOn_lt few _)
  apply seqs_from_one
  intro call member
  rcases linked.shaped call member with
    ⟨factor, experimentFingerprint, _, _, _, rfl⟩ | ⟨c, d, _, _, proper, properToo, otherOrdered, rfl⟩
  · intro nested
    apply similarityKey_ne_evidence currentSuffix (factor ++ [58] ++ experimentFingerprint)
    rw [← currentStorageKey, ← nested]
    simp [engineCall, evidenceFactorKey, evidenceFactorPrefix]
  · exact similarityKey_ne_current first.bar proper.bar properToo.suffix ordered.le otherOrdered.le

variable {asOfNanos : Int64} (unbounded : Unbounded asOfNanos)
include unbounded

theorem Linked.isFactorAdmitted_iff {factor : Bytes} (proper : ProperName factor) :
    isFactorAdmitted (storeAfter calls) factor asOfNanos = true ↔ factor ∈ gate.admissions := by
  have listed := mem_listPrefix_unbounded linked.sources few (evidenceFactorPrefix factor) unbounded
  rw [isFactorAdmitted, decide_eq_true_eq, length_pos_iff, ne_eq, latestPerLogicalKey,
    latestByKey_eq_nil]
  constructor
  · intro present
    rcases exists_mem_of_ne_nil _ present with ⟨entry, member⟩
    rcases (listed entry).mp member with ⟨v, recorded, scanned, _⟩
    have under := ((scanned_iff _ _).mp scanned).1
    rcases mem_written _ calls v recorded with ⟨call, made, shape⟩
    rw [show v.logicalKey = call.logical by rw [shape]; rfl] at under
    rcases linked.shaped call made with
      ⟨other, experimentFingerprint, _, properToo, admitted, rfl⟩ | ⟨a, b, _, _, _, _, _, rfl⟩
    · rw [(evidence_scanned_iff proper properToo experimentFingerprint v.seq).mp under]
      exact admitted
    · rcases under with ⟨rest, same⟩
      refine absurd same.symm ?_
      rw [evidenceFactorPrefix, append_assoc, versionStorageKey, append_assoc]
      exact similarityKey_ne_evidence _ _
  · intro admitted
    rcases (linked.admitted factor admitted).2 with ⟨call, made, experimentFingerprint, low, key⟩
    rcases exists_record made with ⟨v, recorded, same⟩
    refine ne_nil_of_mem ((listed (writeOf v).view).mpr ⟨v, recorded, ?_, rfl⟩)
    rw [scanned_iff, same, key]
    refine ⟨(evidence_scanned_iff proper proper _ _).mpr rfl, ?_⟩
    rw [evidenceFactorKey, prefix_append_right_inj]
    rintro ⟨rest, high⟩
    exact low (by rw [← high]; rfl)

theorem Linked.mem_latest (entry : WriteEnvelopeView) :
    entry ∈ latestPerLogicalKey (listPrefix (storeAfter calls) similarityPrefix asOfNanos) ↔
      ∃ a b v, ProperName a ∧ ProperName b ∧ a < b ∧
        latestOn (similarityKey a b) calls = some v ∧ (writeOf v).view = entry := by
  rw [mem_latest_listPrefix linked.sources few similarityPrefix unbounded]
  constructor
  · intro latest
    rcases latest with ⟨v, recorded, scanned, same, largest⟩
    rcases mem_written _ calls v recorded with ⟨call, made, shape⟩
    have key : v.logicalKey = call.logical := by rw [shape]; rfl
    rcases linked.shaped call made with
      ⟨factor, experimentFingerprint, _, _, _, rfl⟩ | ⟨a, b, _, _, first, second, ordered, rfl⟩
    · have under := ((scanned_iff _ _).mp scanned).1
      rw [key] at under
      exact absurd under (evidence_not_scanned factor experimentFingerprint v.seq)
    · refine ⟨a, b, v, first, second, ordered, ?_, same⟩
      apply getLast_of_largest (linked.sorted few first ordered)
      · exact (mem_onKey _ _ _).mpr ⟨recorded, key⟩
      · intro w member
        have onPair := ((mem_onKey _ _ _).mp member).2
        exact largest w ((mem_onKey _ _ _).mpr ⟨((mem_onKey _ _ _).mp member).1, onPair.trans key.symm⟩)
          (similarity_scanned first ordered onPair)
  · intro latest
    rcases latest with ⟨a, b, v, first, second, ordered, last, same⟩
    have member := mem_of_getLast? last
    rcases (mem_onKey _ _ _).mp member with ⟨recorded, key⟩
    refine ⟨v, recorded, similarity_scanned first ordered key, same, ?_⟩
    intro w inside _
    rw [key] at inside
    have sorted := linked.sorted few first ordered
    rcases List.getLast?_eq_some_iff.mp last with ⟨front, shape⟩
    rw [shape, pairwise_append] at sorted
    rw [shape] at inside
    rcases mem_append.mp inside with early | isLast
    · exact le_of_lt (sorted.2.2 w early v (.head _))
    · rw [mem_singleton.mp isLast]

theorem Linked.suspectEdge_iff (factor : Bytes) {a b : Bytes} (first : ProperName a)
    (second : ProperName b) {entry : WriteEnvelopeView} {corr : Number} {flag : Bool}
    (decoded : json.unmarshal entry.payload = some ⟨a, b, corr, flag⟩) :
    (suspectEdge json (storeAfter calls) factor asOfNanos entry).isSome = true ↔
      flag = true ∧ (a = factor ∧ b ∈ gate.admissions ∨ a ≠ factor ∧ b = factor ∧ a ∈ gate.admissions) := by
  simp only [suspectEdge, decoded]
  cases flag with
  | false => simp
  | true =>
    by_cases left : a = factor
    · have admitted := linked.isFactorAdmitted_iff few unbounded second
      simp only [left, SimilarityEdge.other, if_true, Bool.true_eq_false, ne_eq, not_true_eq_false,
        false_and, or_false, if_false, true_and]
      split_ifs with present
      · simp [admitted.mp present]
      · simp [mt admitted.mpr present]
    · have admitted := linked.isFactorAdmitted_iff few unbounded first
      by_cases right : b = factor
      · simp only [left, right, SimilarityEdge.other, if_false, Bool.true_eq_false, ne_eq,
          not_true_eq_false, not_false_eq_true, and_false, or_false, false_and, true_and, false_or]
        split_ifs with present
        · simp [admitted.mp present]
        · simp [mt admitted.mpr present]
      · simp [left, right]

theorem Linked.findSuspectDuplicate_iff (factor : Bytes) :
    (findSuspectDuplicate json (storeAfter calls) factor asOfNanos).isSome = true ↔
      ∃ other ∈ gate.admissions, gate.suspect factor other = true := by
  rw [findSuspectDuplicate, List.findSome?_isSome_iff]
  constructor
  · intro found
    rcases found with ⟨entry, member, counts⟩
    rcases (linked.mem_latest few unbounded entry).mp member with
      ⟨a, b, v, first, second, ordered, last, rfl⟩
    have edge := linked.edges a b first second ordered
    rw [last, elim_some] at edge
    rcases edge with ⟨corr, decoded⟩
    rcases (linked.suspectEdge_iff few unbounded factor first second decoded).mp counts with
      ⟨suspect, ⟨rfl, admitted⟩ | ⟨_, rfl, admitted⟩⟩
    · exact ⟨b, admitted, suspect⟩
    · exact ⟨a, admitted, by rw [linked.symmetric]; exact suspect⟩
  · intro present
    rcases present with ⟨other, admitted, suspect⟩
    rcases linked.known factor other suspect with ⟨first, second, different⟩
    -- The pair, in the order in which the edge has it.
    have pair : ∀ a b, ProperName a → ProperName b → a < b → gate.suspect a b = true →
        (a = factor ∧ b ∈ gate.admissions ∨ a ≠ factor ∧ b = factor ∧ a ∈ gate.admissions) →
        ∃ entry ∈ latestPerLogicalKey (listPrefix (storeAfter calls) similarityPrefix asOfNanos),
          (suspectEdge json (storeAfter calls) factor asOfNanos entry).isSome = true := by
      intro a b properA properB ordered flagged ends
      have edge := linked.edges a b properA properB ordered
      cases last : latestOn (similarityKey a b) calls with
      | none =>
        rw [last, elim_none, flagged] at edge
        cases edge
      | some v =>
        rw [last, elim_some] at edge
        rcases edge with ⟨corr, decoded⟩
        exact ⟨(writeOf v).view, (linked.mem_latest few unbounded _).mpr
          ⟨a, b, v, properA, properB, ordered, last, rfl⟩,
          (linked.suspectEdge_iff few unbounded factor properA properB decoded).mpr ⟨flagged, ends⟩⟩
    rcases lt_or_gt_of_ne different with less | greater
    · exact pair factor other first second less suspect (.inl ⟨rfl, admitted⟩)
    · exact pair other factor second first greater (by rw [linked.symmetric]; exact suspect)
        (.inr ⟨different.symm, rfl, admitted⟩)

end

theorem Gate.record_comm (gate : Gate) (a b : Bytes) (flag : Bool) :
    gate.record a b flag = gate.record b a flag := by
  simp only [Gate.record, or_comm]

theorem writeIfChanged_cases (fits : ∀ call ∈ calls, call.source.length < 2 ^ 32)
    (few : calls.length < 2 ^ 64) (logicalKey payload : Bytes) (nanos : Int64) :
    ∃ added, writeIfChanged (storeAfter calls) logicalKey payload nanos = storeAfter (calls ++ added) ∧
      (added = [] ∧ (∃ v ∈ onKey logicalKey (recordsOf calls), v.payload = payload ∧
          ∀ w ∈ onKey logicalKey (recordsOf calls), w.seq ≤ v.seq) ∨
        added = [engineCall logicalKey payload nanos]) := by
  rw [writeIfChanged]
  split_ifs with same
  · exact ⟨[], by rw [append_nil],
      .inl ⟨rfl, (getAsOf_unbounded fits few logicalKey).2 payload same⟩⟩
  · exact ⟨[engineCall logicalKey payload nanos], by rw [writeAsEngine, storeAfter_snoc], .inr rfl⟩

theorem writeIfChanged_latest (fits : ∀ call ∈ calls, call.source.length < 2 ^ 32)
    (few : calls.length < 2 ^ 64) {key : Bytes}
    (sorted : (onKey key (recordsOf calls)).Pairwise fun left right => left.seq < right.seq)
    (payload : Bytes) (nanos : Int64) :
    ∃ added, added.length ≤ 1 ∧
      writeIfChanged (storeAfter calls) key payload nanos = storeAfter (calls ++ added) ∧
      (∀ call ∈ added, call = engineCall key payload nanos) ∧
      (∃ v, latestOn key (calls ++ added) = some v ∧ v.payload = payload) ∧
      ∀ other ≠ key, latestOn other (calls ++ added) = latestOn other calls := by
  rcases writeIfChanged_cases fits few key payload nanos with
    ⟨added, stored, ⟨rfl, v, member, content, largest⟩ | rfl⟩
  · refine ⟨[], by simp, stored, by simp, ⟨v, ?_, content⟩, by simp⟩
    rw [append_nil]
    exact getLast_of_largest sorted member largest
  · refine ⟨_, le_refl 1, stored, by simp, latestOn_snoc_same calls (engineCall key payload nanos), ?_⟩
    exact fun other different => latestOn_snoc_other calls _ different.symm

theorem Linked.record (linked : Linked json calls gate) {a b : Bytes} (first : ProperName a)
    (second : ProperName b) (ordered : a < b) {corr : Number} {flag : Bool} {payload : Bytes}
    (decoded : json.unmarshal payload = some ⟨a, b, corr, flag⟩) {added : List PutCall}
    (similar : ∀ call ∈ added, ∃ nanos, call = engineCall (similarityKey a b) payload nanos)
    (last : ∃ v, latestOn (similarityKey a b) (calls ++ added) = some v ∧ v.payload = payload)
    (others : ∀ key ≠ similarityKey a b, latestOn key (calls ++ added) = latestOn key calls) :
    Linked json (calls ++ added) (gate.record a b flag) where
  shaped := by
    intro call member
    rcases mem_append.mp member with old | new
    · exact linked.shaped call old
    · rcases similar call new with ⟨nanos, rfl⟩
      exact .inr ⟨a, b, payload, nanos, first, second, ordered, rfl⟩
  admitted := by
    intro factor admitted
    rcases linked.admitted factor admitted with ⟨proper, call, made, rest⟩
    exact ⟨proper, call, mem_append_left _ made, rest⟩
  edges := by
    intro x y properX properY otherOrdered
    by_cases same : similarityKey x y = similarityKey a b
    · rcases (similarityKey_inj properX.bar first.bar otherOrdered.le ordered.le).mp same with
        ⟨rfl, rfl⟩
      rcases last with ⟨v, isLast, content⟩
      rw [isLast, elim_some, content]
      exact ⟨corr, by rw [decoded, Gate.record_suspect, if_pos (.inl ⟨rfl, rfl⟩)]⟩
    · have differs : ¬ (x = a ∧ y = b ∨ x = b ∧ y = a) := by
        rintro (⟨rfl, rfl⟩ | ⟨rfl, rfl⟩)
        · exact same rfl
        · exact same (similarityKey_comm _ _)
      rw [others _ same, Gate.record_suspect, if_neg differs]
      exact linked.edges x y properX properY otherOrdered
  symmetric := by
    intro x y
    simp only [Gate.record_suspect, linked.symmetric x y, and_comm, or_comm]
  known := by
    intro x y suspect
    rw [Gate.record_suspect] at suspect
    split_ifs at suspect with pair
    · rcases pair with ⟨rfl, rfl⟩ | ⟨rfl, rfl⟩
      · exact ⟨first, second, ordered.ne⟩
      · exact ⟨second, first, ordered.ne'⟩
    · exact linked.known x y suspect

theorem Linked.enter (linked : Linked json calls gate) {factor experimentFingerprint : Bytes}
    (proper : ProperName factor) (low : experimentFingerprint.head? ≠ some 255) {added : List PutCall}
    (evident : ∀ call ∈ added, ∃ nanos, call = engineCall
      (evidenceFactorKey factor experimentFingerprint)
      (json.marshalMarker factor experimentFingerprint) nanos)
    (present : ∃ call ∈ calls ++ added, call.logical = evidenceFactorKey factor experimentFingerprint)
    (others : ∀ a b, latestOn (similarityKey a b) (calls ++ added) = latestOn (similarityKey a b) calls) :
    Linked json (calls ++ added) (gate.enter factor) where
  shaped := by
    intro call member
    rcases mem_append.mp member with old | new
    · rcases linked.shaped call old with ⟨other, experiment, nanos, properToo, admitted, shape⟩ | similar
      · exact .inl ⟨other, experiment, nanos, properToo, (gate.mem_enter _ _).mpr (.inl admitted), shape⟩
      · exact .inr similar
    · rcases evident call new with ⟨nanos, shape⟩
      exact .inl ⟨factor, experimentFingerprint, nanos, proper, (gate.mem_enter _ _).mpr (.inr rfl), shape⟩
  admitted := by
    intro other admitted
    rcases (gate.mem_enter _ _).mp admitted with old | rfl
    · rcases linked.admitted other old with ⟨properToo, call, made, rest⟩
      exact ⟨properToo, call, mem_append_left _ made, rest⟩
    · rcases present with ⟨call, made, key⟩
      exact ⟨proper, call, made, experimentFingerprint, low, key⟩
  edges := by
    intro a b first second ordered
    rw [others, Gate.enter_suspect]
    exact linked.edges a b first second ordered
  symmetric := by
    rw [Gate.enter_suspect]
    exact linked.symmetric
  known := by
    rw [Gate.enter_suspect]
    exact linked.known

theorem newEdge_comm (a b : Bytes) (corr : Number) : newEdge arith a b corr = newEdge arith b a corr := by
  rw [newEdge, newEdge, min_comm, max_comm]

theorem newEdge_of_lt {a b : Bytes} (ordered : a < b) (corr : Number) :
    newEdge arith a b corr = ⟨a, b, corr, arith.greater corr arith.similarityThreshold⟩ := by
  rw [newEdge, min_eq_left ordered.le, max_eq_right ordered.le]

theorem unmarshal_newEdge {a b : Bytes} (first : Utf8.Valid a) (second : Utf8.Valid b) (ordered : a < b)
    {corr : Number} (finite : arith.finite corr = true) :
    json.unmarshal (encodeSimilarityEdge json (newEdge arith a b corr)) =
      some ⟨a, b, corr, arith.greater corr arith.similarityThreshold⟩ := by
  have possible := json.marshal_isSome (newEdge arith a b corr)
  rw [newEdge_of_lt ordered, finite] at possible
  rcases isSome_iff_exists.mp possible with ⟨text, marshalled⟩
  rw [newEdge_of_lt ordered, encodeSimilarityEdge, marshalled, getD_some,
    json.unmarshal_marshal _ text marshalled, SimilarityEdge.stored]
  simp only [Utf8.toValid_of_valid first, Utf8.toValid_of_valid second]

theorem Linked.recordEdge (linked : Linked json calls gate) (few : calls.length < 2 ^ 64) {a b : Bytes}
    (first : ProperName a) (second : ProperName b) (ordered : a < b) {corr : Number}
    (finite : arith.finite corr = true) (nanos : Int64) :
    ∃ added, added.length ≤ 1 ∧ writeIfChanged (storeAfter calls) (similarityKey a b)
        (encodeSimilarityEdge json (newEdge arith a b corr)) nanos = storeAfter (calls ++ added) ∧
      Linked json (calls ++ added)
        (gate.record a b (arith.greater corr arith.similarityThreshold)) := by
  have decoded := @unmarshal_newEdge _ arith json a b first.valid second.valid ordered corr finite
  rcases writeIfChanged_latest linked.sources few (linked.sorted few first ordered)
    (encodeSimilarityEdge json (newEdge arith a b corr)) nanos with
    ⟨added, one, stored, similar, last, others⟩
  refine ⟨added, one, stored, linked.record first second ordered decoded ?_ last others⟩
  exact fun call isNew => ⟨nanos, similar call isNew⟩

theorem Linked.admitFactor (linked : Linked json calls gate) (few : calls.length < 2 ^ 64)
    {factor experimentFingerprint : Bytes} (proper : ProperName factor)
    (low : experimentFingerprint.head? ≠ some 255) (nanos : Int64) :
    ∃ added, added.length ≤ 1 ∧
      writeIfChanged (storeAfter calls) (evidenceFactorKey factor experimentFingerprint)
        (json.marshalMarker factor experimentFingerprint) nanos = storeAfter (calls ++ added) ∧
      Linked json (calls ++ added) (gate.enter factor) := by
  have apart : ∀ a b, evidenceFactorKey factor experimentFingerprint ≠ similarityKey a b := by
    intro a b same
    apply @similarityKey_ne_evidence a b [] (factor ++ [58] ++ experimentFingerprint)
    rw [append_nil, ← same]
    simp [evidenceFactorKey, evidenceFactorPrefix]
  rcases writeIfChanged_cases linked.sources few (evidenceFactorKey factor experimentFingerprint)
    (json.marshalMarker factor experimentFingerprint) nanos with
    ⟨added, stored, ⟨rfl, v, member, _, _⟩ | rfl⟩
  · refine ⟨[], by simp, stored, linked.enter proper low (by simp) ?_ (by simp)⟩
    rcases (mem_onKey _ _ _).mp member with ⟨recorded, key⟩
    rcases mem_written _ calls v recorded with ⟨call, made, shape⟩
    refine ⟨call, by simpa using made, ?_⟩
    rw [← key, shape]
    rfl
  · refine ⟨_, le_refl 1, stored, linked.enter proper low ?_ ?_ ?_⟩
    · intro call isNew
      exact ⟨nanos, mem_singleton.mp isNew⟩
    · exact ⟨_, mem_append_right _ (mem_singleton_self _), rfl⟩
    · intro a b
      exact latestOn_snoc_other calls _ (apart a b)

theorem Plane.step_linked {plane : Plane} (stored : plane.ts = storeAfter calls)
    (linked : Linked json calls plane.gate) (few : calls.length < 2 ^ 64) (step : PlaneStep Number)
    (proper : step.Proper arith) :
    ∃ added, added.length ≤ 1 ∧ (plane.step json step).ts = storeAfter (calls ++ added) ∧
      Linked json (calls ++ added) (plane.step json step).gate := by
  have nothing : ∃ added : List PutCall, added.length ≤ 1 ∧ plane.ts = storeAfter (calls ++ added) ∧
      Linked json (calls ++ added) plane.gate :=
    ⟨[], by simp, by rw [append_nil, stored], by rwa [append_nil]⟩
  rcases step with ⟨⟨factorA, factorB, returnsA, returnsB⟩ | ⟨asOfNanos, factor, experimentFingerprint⟩, nanos⟩
  · rcases proper with ⟨first, second, finite⟩
    simp only [Plane.step, recordSimilarity]
    split_ifs with same
    · exact nothing
    · cases correlated : pearsonCorrelation arith returnsA returnsB with
      | error cause => exact nothing
      | ok corr =>
        simp only
        rw [stored]
        rcases lt_or_gt_of_ne same with less | greater
        · exact linked.recordEdge few first second less (finite corr correlated) nanos
        · rw [similarityKey_comm, newEdge_comm, Gate.record_comm]
          exact linked.recordEdge few second first greater (finite corr correlated) nanos
  · rcases proper with ⟨named, low, _⟩
    simp only [Plane.step, admitFactorEvidence]
    split_ifs with noFactor noExperiment
    · exact nothing
    · exact nothing
    · cases findSuspectDuplicate json plane.ts factor asOfNanos with
      | some edge => exact nothing
      | none =>
        rw [stored]
        exact linked.admitFactor few named low nanos

theorem Plane.run_linked (json : PlaneJSON arith) (steps : List (PlaneStep Number))
    (proper : ∀ step ∈ steps, step.Proper arith) (few : steps.length < 2 ^ 64) :
    ∃ calls, calls.length ≤ steps.length ∧ (run (Plane.step json) .new steps).ts = storeAfter calls ∧
      Linked json calls (run (Plane.step json) .new steps).gate := by
  exact run_logged (fun calls (plane : Plane) => plane.ts = storeAfter calls ∧ Linked json calls plane.gate)
    (fun _ _ step held few proper => Plane.step_linked held.1 held.2 few step proper)
    ⟨rfl, .new json⟩ steps proper few

/-- The call has met a duplicate. -/
def Refused (answer : Except (AdmissionError Number) Unit) : Prop :=
  ∃ factor other corr threshold, answer = .error (.suspectDuplicate factor other corr threshold)

/-- After a history of calls with proper names the gate refuses exactly the latecomers, unless the
factor was overtaken. -/
theorem gate_exact_iff (json : PlaneJSON arith) (steps : List (PlaneStep Number))
    (proper : ∀ step ∈ steps, step.Proper arith) (few : steps.length < 2 ^ 64) (asOfNanos : Int64)
    (unbounded : Unbounded asOfNanos) (factor experimentFingerprint : Bytes) (named : factor ≠ [])
    (tested : experimentFingerprint ≠ []) (nanos : Int64) :
    (Refused (admitFactorEvidence json (run (Plane.step json) .new steps).ts asOfNanos factor
        experimentFingerprint nanos).2 ↔ (run (Plane.step json) .new steps).gate.Latecomer factor) ↔
      ¬ (run (Plane.step json) .new steps).gate.Overtaken factor := by
  rcases Plane.run_linked json steps proper few with ⟨calls, short, stored, linked⟩
  rw [stored, ← Gate.latecomer_iff, ← linked.findSuspectDuplicate_iff (by omega) unbounded factor]
  have decided : Refused (admitFactorEvidence json (storeAfter calls) asOfNanos factor
      experimentFingerprint nanos).2 ↔
        (findSuspectDuplicate json (storeAfter calls) factor asOfNanos).isSome = true := by
    rw [admitFactorEvidence, if_neg named, if_neg tested]
    cases findSuspectDuplicate json (storeAfter calls) factor asOfNanos with
    | none | some => simp [Refused]
  rw [decided]

end

/-- The numbers -1, 0 and 1 have a text, and 1 alone is greater than 0.7. -/
def wholeNumbers : Arithmetic Int where
  ofNat n := n
  add := (· + ·)
  sub := (· - ·)
  mul := (· * ·)
  div := (· / ·)
  sqrt x := Nat.sqrt x.toNat
  isZero x := x = 0
  greater x y := y < x
  finite x := x = -1 ∨ x = 0 ∨ x = 1
  similarityThreshold := 0

def edgeText (edge : SimilarityEdge Int) : Option Bytes :=
  if edge.correlation = -1 ∨ edge.correlation = 0 ∨ edge.correlation = 1 then
    some (UInt8.ofNat (edge.correlation + 1).toNat :: edge.suspectDuplicate.toUInt8 ::
      (delimit (Utf8.toValid edge.factorA) ++ delimit (Utf8.toValid edge.factorB)))
  else none

def readEdgeText : Bytes → Option (SimilarityEdge Int)
  | number :: flag :: names =>
    (readDelimitedPair names).map fun pair => ⟨pair.1, pair.2, number.toNat - 1, flag = 1⟩
  | _ => none

theorem readEdgeText_edgeText (edge : SimilarityEdge Int) (text : Bytes) (written : edgeText edge = some text) :
    readEdgeText text = some edge.stored := by
  rcases edge with ⟨factorA, factorB, correlation, suspectDuplicate⟩
  rw [edgeText] at written
  split_ifs at written with small
  cases written
  rw [readEdgeText, readDelimitedPair_append, map_some, SimilarityEdge.stored]
  have flag : decide (suspectDuplicate.toUInt8 = 1) = suspectDuplicate := by
    cases suspectDuplicate <;> rfl
  have number : ((UInt8.ofNat (correlation + 1).toNat).toNat : Int) - 1 = correlation := by
    rcases small with rfl | rfl | rfl <;> rfl
  simp only [flag, number]

def wholeTexts : PlaneJSON wholeNumbers where
  marshal := edgeText
  unmarshal := readEdgeText
  marshalMarker first second := delimit first ++ delimit second
  marshal_isSome edge := by
    rw [edgeText]
    split_ifs with small
    · exact (decide_eq_true small).symm
    · exact (decide_eq_false small).symm
  unmarshal_marshal := readEdgeText_edgeText
  unmarshal_nil := rfl

def alpha : Bytes := ascii "alpha".toList

def beta : Bytes := ascii "beta".toList

def sameReturns : PlaneStep Int := ⟨.recordSimilarity alpha beta [0, 2] [0, 2], 1⟩

def admission (factor : Bytes) : PlaneStep Int :=
  ⟨.admitFactorEvidence nowUnboundedAsOf factor (ascii "e1".toList), 1⟩

theorem gate_exact_iff_known_edge :
    let plane := run (Plane.step wholeTexts) .new [sameReturns, admission alpha]
    let answer := (admitFactorEvidence wholeTexts plane.ts nowUnboundedAsOf beta (ascii "e1".toList) 1).2
    Refused answer ∧ (Refused answer ↔ plane.gate.Latecomer beta) := by
  intro plane answer
  have refused : answer = .error (.suspectDuplicate beta alpha 1 0) := by decide +kernel
  have first : ProperName alpha := ⟨Utf8.valid_of_ascii _ (by decide +kernel), by decide, by decide⟩
  have second : ProperName beta := ⟨Utf8.valid_of_ascii _ (by decide +kernel), by decide, by decide⟩
  have compared : sameReturns.Proper wholeNumbers := by
    refine ⟨first, second, ?_⟩
    intro corr correlated
    have one : pearsonCorrelation wholeNumbers [0, 2] [0, 2] = .ok 1 := by decide +kernel
    cases one.symm.trans correlated
    rfl
  have proper : ∀ step ∈ [sameReturns, admission alpha], step.Proper wholeNumbers :=
    forall_mem_cons.mpr ⟨compared, forall_mem_singleton.mpr ⟨first, by decide, by decide⟩⟩
  have late : ¬ (run (Plane.step wholeTexts) .new [sameReturns, admission alpha]).gate.Overtaken beta := by
    have never : beta ∉ (run (Plane.step wholeTexts) .new [sameReturns, admission alpha]).gate.admissions := by
      decide +kernel
    exact fun overtaken => never overtaken.1
  exact ⟨⟨beta, alpha, 1, 0, refused⟩,
    (gate_exact_iff wholeTexts _ proper (by simp) nowUnboundedAsOf (by decide) beta (ascii "e1".toList)
      (by decide) (by decide) 1).mpr late⟩

/-- Both factors were admitted before their returns were compared. The first one is refused with its
next experiment. -/
theorem first_factor_refused :
    let plane := run (Plane.step wholeTexts) .new [admission alpha, admission beta, sameReturns]
    (admitFactorEvidence wholeTexts plane.ts nowUnboundedAsOf alpha (ascii "e2".toList) 1).2 =
        .error (.suspectDuplicate alpha beta 1 0) ∧
      plane.gate.admissions = [alpha, beta] ∧ ¬ plane.gate.Latecomer alpha := by
  intro plane
  have admitted : plane.gate.admissions = [alpha, beta] := by decide +kernel
  refine ⟨by decide +kernel, admitted, ?_⟩
  intro late
  rcases late with ⟨other, _, precedes⟩
  rw [Gate.Precedes, admitted] at precedes
  simp at precedes

end KairosFlux.Aiplane
