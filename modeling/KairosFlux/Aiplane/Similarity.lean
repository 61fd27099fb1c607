import KairosFlux.Aiplane.Store
import KairosFlux.Lib.Utf8

/-! Similar factors (`internal/aiplane/similarity.go`) and the gate they have to pass
(`internal/aiplane/evidence.go`). -/

namespace KairosFlux.Aiplane

open Lib Proto Temporal Service

/-- The floating-point numbers of the returns. A number that is infinite or not a number is not
`finite`; `similarityThreshold` is 0.7. -/
structure Arithmetic (Number : Type) where
  ofNat : Nat → Number
  add : Number → Number → Number
  sub : Number → Number → Number
  mul : Number → Number → Number
  div : Number → Number → Number
  sqrt : Number → Number
  isZero : Number → Bool
  greater : Number → Number → Bool
  finite : Number → Bool
  similarityThreshold : Number

inductive CorrelationError
  | lengths (a b : Nat)
  | tooShort (length : Nat)
  | constant
  deriving DecidableEq

section

variable {Number : Type} (arith : Arithmetic Number)

def Arithmetic.sum (terms : List Number) : Number := terms.foldl arith.add (arith.ofNat 0)

def pearsonCorrelation (a b : List Number) : Except CorrelationError Number :=
  if a.length ≠ b.length then .error (.lengths a.length b.length)
  else if a.length < 2 then .error (.tooShort a.length)
  else
    let n := arith.ofNat a.length
    let meanA := arith.div (arith.sum a) n
    let meanB := arith.div (arith.sum b) n
    let da := a.map fun x => arith.sub x meanA
    let db := b.map fun x => arith.sub x meanB
    let cov := arith.sum (List.zipWith arith.mul da db)
    let varA := arith.sum (da.map fun d => arith.mul d d)
    let varB := arith.sum (db.map fun d => arith.mul d d)
    if arith.isZero varA ∨ arith.isZero varB then .error .constant
    else .ok (arith.div cov (arith.sqrt (arith.mul varA varB)))

end

structure SimilarityEdge (Number : Type) where
  factorA : Bytes
  factorB : Bytes
  correlation : Number
  suspectDuplicate : Bool
  deriving DecidableEq

/-- The edge as it comes back from JSON: invalid bytes of a name were replaced. -/
def SimilarityEdge.stored {Number : Type} (edge : SimilarityEdge Number) : SimilarityEdge Number :=
  { edge with factorA := Utf8.toValid edge.factorA, factorB := Utf8.toValid edge.factorB }

/-- The JSON texts of edges and of the markers in the evidence graph. An edge whose correlation is not
finite has none. -/
structure PlaneJSON {Number : Type} (arith : Arithmetic Number) where
  marshal : SimilarityEdge Number → Option Bytes
  unmarshal : Bytes → Option (SimilarityEdge Number)
  marshalMarker : Bytes → Bytes → Bytes
  marshal_isSome : ∀ edge, (marshal edge).isSome = arith.finite edge.correlation
  unmarshal_marshal : ∀ edge text, marshal edge = some text → unmarshal text = some edge.stored
  unmarshal_nil : unmarshal [] = none

def similarityPrefix : Bytes := ascii "factor:similarity:".toList

def similarityKey (factorA factorB : Bytes) : Bytes :=
  similarityPrefix ++ (min factorA factorB ++ 124 :: max factorA factorB)

def evidencePrefix : Bytes := ascii "evidence:factor:".toList

def evidenceFactorPrefix (factor : Bytes) : Bytes := evidencePrefix ++ (factor ++ [58])

def evidenceFactorKey (factor experimentFingerprint : Bytes) : Bytes :=
  evidenceFactorPrefix factor ++ experimentFingerprint

inductive SimilarityError
  | sameFactor (factor : Bytes)
  | correlation (cause : CorrelationError)

inductive AdmissionError (Number : Type)
  | emptyFactor
  | emptyExperiment
  | suspectDuplicate (factor conflictingFactor : Bytes) (correlation threshold : Number)
  deriving DecidableEq

section

variable {Number : Type} {arith : Arithmetic Number} (json : PlaneJSON arith)

-- Where there is no JSON text, nothing is written as the payload.
def encodeSimilarityEdge (edge : SimilarityEdge Number) : Bytes := (json.marshal edge).getD []

def newEdge (arith : Arithmetic Number) (factorA factorB : Bytes) (corr : Number) :
    SimilarityEdge Number :=
  ⟨min factorA factorB, max factorA factorB, corr, arith.greater corr arith.similarityThreshold⟩

def recordSimilarity (ts : TemporalStore) (factorA factorB : Bytes) (returnsA returnsB : List Number)
    (nanos : Int64) : TemporalStore × Except SimilarityError (SimilarityEdge Number) :=
  if factorA = factorB then (ts, .error (.sameFactor factorA))
  else
    match pearsonCorrelation arith returnsA returnsB with
    | .error cause => (ts, .error (.correlation cause))
    | .ok corr =>
      let edge := newEdge arith factorA factorB corr
      (writeIfChanged ts (similarityKey factorA factorB) (encodeSimilarityEdge json edge) nanos,
        .ok edge)

def isFactorAdmitted (ts : TemporalStore) (factor : Bytes) (asOfNanos : Int64) : Bool :=
  0 < (latestPerLogicalKey (listPrefix ts (evidenceFactorPrefix factor) asOfNanos)).length

def SimilarityEdge.other (edge : SimilarityEdge Number) (factor : Bytes) : Bytes :=
  if edge.factorA = factor then edge.factorB else edge.factorA

/-- What the loop over the edges makes of one of them. -/
def suspectEdge (ts : TemporalStore) (factor : Bytes) (asOfNanos : Int64) (entry : WriteEnvelopeView) :
    Option (SimilarityEdge Number) :=
  match json.unmarshal entry.payload with
  | none => none
  | some edge =>
    if edge.suspectDuplicate = false ∨ edge.factorA ≠ factor ∧ edge.factorB ≠ factor then none
    else if isFactorAdmitted ts (edge.other factor) asOfNanos then some edge
    else none

def findSuspectDuplicate (ts : TemporalStore) (factor : Bytes) (asOfNanos : Int64) :
    Option (SimilarityEdge Number) :=
  (latestPerLogicalKey (listPrefix ts similarityPrefix asOfNanos)).findSome?
    (suspectEdge json ts factor asOfNanos)

def admitFactorEvidence (ts : TemporalStore) (asOfNanos : Int64) (factor experimentFingerprint : Bytes)
    (nanos : Int64) : TemporalStore × Except (AdmissionError Number) Unit :=
  if factor = [] then (ts, .error .emptyFactor)
  else if experimentFingerprint = [] then (ts, .error .emptyExperiment)
  else
    match findSuspectDuplicate json ts factor asOfNanos with
    | some edge =>
      (ts, .error (.suspectDuplicate factor (edge.other factor) edge.correlation
        arith.similarityThreshold))
    | none =>
      (writeIfChanged ts (evidenceFactorKey factor experimentFingerprint)
        (json.marshalMarker factor experimentFingerprint) nanos, .ok ())

end

end KairosFlux.Aiplane
