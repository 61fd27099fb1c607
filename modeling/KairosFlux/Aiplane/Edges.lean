import KairosFlux.Aiplane.Gate

/-! Recorded edges (`internal/aiplane/similarity.go`). Their keys join two names with a bar, which a name
may have in it. -/

namespace KairosFlux.Aiplane

open Lib Temporal Service List

structure SimilarityCall (Number : Type) where
  factorA : Bytes
  factorB : Bytes
  returnsA : List Number
  returnsB : List Number
  nanos : Int64

/-- The store, and the edges that the calls have returned. -/
structure Comparisons (Number : Type) where
  ts : TemporalStore
  edges : List (SimilarityEdge Number)

/-- A name in valid UTF-8 without a bar that does not end like the key of a current value. -/
structure EdgeName (name : Bytes) : Prop where
  valid : Utf8.Valid name
  bar : 124 ∉ name
  suffix : ¬ currentSuffix <:+ name

variable {Number : Type} {arith : Arithmetic Number} (json : PlaneJSON arith)

-- An edge that cannot be decoded is an error that names the key.
def lookupSimilarity (ts : TemporalStore) (factorA factorB : Bytes) (asOfNanos : Int64) :
    Except Bytes (Option (SimilarityEdge Number)) :=
  match getAsOf ts (similarityKey factorA factorB) asOfNanos with
  | none => .ok none
  | some raw =>
    match json.unmarshal raw with
    | none => .error (similarityKey factorA factorB)
    | some edge => .ok (some edge)

namespace Comparisons

def new : Comparisons Number := ⟨newTemporalStore KVServer.empty, []⟩

def step (s : Comparisons Number) (call : SimilarityCall Number) : Comparisons Number :=
  match recordSimilarity json s.ts call.factorA call.factorB call.returnsA call.returnsB call.nanos with
  | (ts, .ok edge) => ⟨ts, s.edges ++ [edge]⟩
  | (ts, .error _) => ⟨ts, s.edges⟩

def lastEdge (edges : List (SimilarityEdge Number)) (a b : Bytes) : Option (SimilarityEdge Number) :=
  (edges.filter fun edge => edge.factorA = min a b ∧ edge.factorB = max a b).getLast?

end Comparisons

open Comparisons

def SimilarityCall.Proper (arith : Arithmetic Number) (call : SimilarityCall Number) : Prop :=
  EdgeName call.factorA ∧ EdgeName call.factorB ∧ ∀ corr,
    pearsonCorrelation arith call.returnsA call.returnsB = .ok corr → arith.finite corr = true

/-- The store has the last edge of every pair. -/
structure HoldsEdges (puts : List PutCall) (edges : List (SimilarityEdge Number)) : Prop where
  shaped : ∀ put ∈ puts, ∃ a b payload nanos, EdgeName a ∧ EdgeName b ∧ a ≤ b ∧
    put = engineCall (similarityKey a b) payload nanos
  latest : ∀ a b, EdgeName a → EdgeName b → a ≤ b →
    (latestOn (similarityKey a b) puts).map (fun v => json.unmarshal v.payload) =
      (lastEdge edges a b).map some

theorem lastEdge_concat (edges : List (SimilarityEdge Number)) (edge : SimilarityEdge Number)
    (a b : Bytes) : lastEdge (edges ++ [edge]) a b =
      if edge.factorA = min a b ∧ edge.factorB = max a b then some edge else lastEdge edges a b := by
  rw [lastEdge, filter_append]
  split_ifs with pair
  · simp [pair]
  · simp [pair, lastEdge]

namespace HoldsEdges

variable {json} {puts : List PutCall} {edges : List (SimilarityEdge Number)} {a b : Bytes}
  (holds : HoldsEdges json puts edges) (first : EdgeName a) (second : EdgeName b)
include holds

theorem sources : ∀ put ∈ puts, put.source.length < 2 ^ 32 := by
  intro put member
  rcases holds.shaped put member with ⟨_, _, _, _, _, _, _, rfl⟩
  change engineSource.length < 2 ^ 32
  decide

include first

theorem sorted (few : puts.length < 2 ^ 64) (ordered : a ≤ b) :
    (onKey (similarityKey a b) (recordsOf puts)).Pairwise fun left right => left.seq < right.seq := by
  apply onKey_sorted _ _ (countOn_lt few _)
  apply seqs_from_one
  intro put member
  rcases holds.shaped put member with ⟨c, d, _, _, proper, properToo, otherOrdered, rfl⟩
  exact similarityKey_ne_current first.bar proper.bar properToo.suffix ordered otherOrdered

include second

theorem record (few : puts.length < 2 ^ 64) (ordered : a < b) {corr : Number}
    (finite : arith.finite corr = true) (nanos : Int64) :
    ∃ added, added.length ≤ 1 ∧ writeIfChanged (storeAfter puts) (similarityKey a b)
        (encodeSimilarityEdge json (newEdge arith a b corr)) nanos = storeAfter (puts ++ added) ∧
      HoldsEdges json (puts ++ added) (edges ++ [newEdge arith a b corr]) := by
  have decoded := @unmarshal_newEdge _ arith json a b first.valid second.valid ordered corr finite
  rcases writeIfChanged_latest holds.sources few (holds.sorted first few ordered.le)
    (encodeSimilarityEdge json (newEdge arith a b corr)) nanos with
    ⟨added, one, stored, similar, ⟨v, last, content⟩, others⟩
  refine ⟨added, one, stored, ?_, ?_⟩
  · refine forall_mem_append.mpr ⟨holds.shaped, fun put new => ?_⟩
    exact ⟨a, b, _, nanos, first, second, ordered.le, similar put new⟩
  · intro x y properX properY otherOrdered
    rw [lastEdge_concat, newEdge_of_lt ordered, min_eq_left otherOrdered, max_eq_right otherOrdered]
    by_cases same : similarityKey x y = similarityKey a b
    · rcases (similarityKey_inj properX.bar first.bar otherOrdered ordered.le).mp same with ⟨rfl, rfl⟩
      rw [last, Option.map_some, content, decoded, if_pos ⟨rfl, rfl⟩, Option.map_some]
    · have apart : ¬ (a = x ∧ b = y) := by
        rintro ⟨rfl, rfl⟩
        exact same rfl
      rw [others _ same, if_neg apart]
      exact holds.latest x y properX properY otherOrdered

theorem lookup (few : puts.length < 2 ^ 64) (ordered : a ≤ b) :
    lookupSimilarity json (storeAfter puts) a b nowUnboundedAsOf = .ok (lastEdge edges a b) := by
  have held := holds.latest a b first second ordered
  rcases getAsOf_unbounded holds.sources few (similarityKey a b) with ⟨absent, present⟩
  rw [lookupSimilarity]
  cases answer : getAsOf (storeAfter puts) (similarityKey a b) nowUnboundedAsOf with
  | none =>
    rw [latestOn, absent.mp answer] at held
    rw [Option.map_eq_none_iff.mp held.symm]
  | some raw =>
    rcases present raw answer with ⟨v, member, rfl, largest⟩
    rw [latestOn, getLast_of_largest (holds.sorted first few ordered) member largest] at held
    rcases Option.map_eq_some_iff.mp held.symm with ⟨edge, isLast, decoded⟩
    simp only [← decoded, isLast]

end HoldsEdges

theorem Comparisons.step_holds {json : PlaneJSON arith} {puts : List PutCall} {s : Comparisons Number}
    (stored : s.ts = storeAfter puts) (holds : HoldsEdges json puts s.edges) (few : puts.length < 2 ^ 64)
    (call : SimilarityCall Number) (proper : call.Proper arith) :
    ∃ added, added.length ≤ 1 ∧ (s.step json call).ts = storeAfter (puts ++ added) ∧
      HoldsEdges json (puts ++ added) (s.step json call).edges := by
  rcases proper with ⟨first, second, finite⟩
  have nothing : ∃ added : List PutCall, added.length ≤ 1 ∧ s.ts = storeAfter (puts ++ added) ∧
      HoldsEdges json (puts ++ added) s.edges :=
    ⟨[], by simp, by rw [append_nil, stored], by rwa [append_nil]⟩
  simp only [Comparisons.step, recordSimilarity]
  split_ifs with same
  · exact nothing
  · cases correlated : pearsonCorrelation arith call.returnsA call.returnsB with
    | error cause => exact nothing
    | ok corr =>
      simp only
      rw [stored]
      rcases lt_or_gt_of_ne same with less | greater
      · exact holds.record first second few less (finite corr correlated) call.nanos
      · rw [similarityKey_comm, newEdge_comm]
        exact holds.record second first few greater (finite corr correlated) call.nanos

theorem Comparisons.run_holds (json : PlaneJSON arith) (calls : List (SimilarityCall Number))
    (proper : ∀ call ∈ calls, call.Proper arith) (few : calls.length < 2 ^ 64) :
    ∃ puts, puts.length ≤ calls.length ∧
      (run (Comparisons.step json) .new calls).ts = storeAfter puts ∧
      HoldsEdges json puts (run (Comparisons.step json) .new calls).edges := by
  exact run_logged (fun puts (s : Comparisons Number) => s.ts = storeAfter puts ∧ HoldsEdges json puts s.edges)
    (fun _ _ call held few proper => step_holds held.1 held.2 few call proper)
    ⟨rfl, by simp, fun _ _ _ _ _ => rfl⟩ calls proper few

/-- With names that have no bar, the edge of the last call for a pair is found, in both orders. -/
theorem similarity_per_pair (json : PlaneJSON arith) (calls : List (SimilarityCall Number))
    (proper : ∀ call ∈ calls, call.Proper arith) (few : calls.length < 2 ^ 64) (a b : Bytes)
    (first : EdgeName a) (second : EdgeName b) :
    let s := run (Comparisons.step json) .new calls
    lookupSimilarity json s.ts a b nowUnboundedAsOf = .ok (lastEdge s.edges a b) ∧
      lookupSimilarity json s.ts b a nowUnboundedAsOf = .ok (lastEdge s.edges a b) := by
  intro s
  rcases Comparisons.run_holds json calls proper few with ⟨puts, short, stored, holds⟩
  have found : lookupSimilarity json s.ts a b nowUnboundedAsOf = .ok (lastEdge s.edges a b) := by
    rw [show s.ts = storeAfter puts from stored]
    rcases le_total a b with ordered | ordered
    · exact holds.lookup first second (by omega) ordered
    · rw [lookupSimilarity, similarityKey_comm, lastEdge, min_comm, max_comm]
      exact holds.lookup second first (by omega) ordered
  refine ⟨found, ?_⟩
  rw [lookupSimilarity, similarityKey_comm]
  exact found

def compared (factorA factorB : Bytes) : SimilarityCall Int := ⟨factorA, factorB, [0, 2], [0, 2], 1⟩

theorem similarity_per_pair_swapped :
    let s := run (Comparisons.step wholeTexts) .new [compared alpha beta]
    lookupSimilarity wholeTexts s.ts beta alpha nowUnboundedAsOf = .ok (some ⟨alpha, beta, 1, true⟩) := by
  intro s
  have first : EdgeName alpha := ⟨Utf8.valid_of_ascii _ (by decide +kernel), by decide, by decide⟩
  have second : EdgeName beta := ⟨Utf8.valid_of_ascii _ (by decide +kernel), by decide, by decide⟩
  have proper : (compared alpha beta).Proper wholeNumbers := by
    refine ⟨first, second, fun corr correlated => ?_⟩
    have one : pearsonCorrelation wholeNumbers [0, 2] [0, 2] = .ok 1 := by decide +kernel
    cases one.symm.trans correlated
    rfl
  have edge : lastEdge s.edges alpha beta = some ⟨alpha, beta, 1, true⟩ := by decide +kernel
  rw [(similarity_per_pair wholeTexts _ (forall_mem_singleton.mpr proper) (by simp) alpha beta first
    second).2]
  exact congrArg _ edge

/-- Both pairs have the key with `a|b|c`. -/
theorem edge_of_other_pair :
    let s := run (Comparisons.step wholeTexts) .new [compared (ascii ['a']) (ascii "b|c".toList)]
    lookupSimilarity wholeTexts s.ts (ascii "a|b".toList) (ascii ['c']) nowUnboundedAsOf =
        .ok (some ⟨ascii ['a'], ascii "b|c".toList, 1, true⟩) ∧
      lastEdge s.edges (ascii "a|b".toList) (ascii ['c']) = none := by
  decide +kernel

end KairosFlux.Aiplane
