import KairosFlux.Aiplane.Store
import KairosFlux.Jobctl.RegistryImport
import KairosFlux.Lib.SelfDelimiting

/-! The context of a research agent (`internal/aiplane/context.go`, `internal/aiplane/experiment.go`):
what the ledger held at a time, together with the contracts and the red lines of the risk control. -/

namespace KairosFlux.Aiplane

open Lib Proto Temporal Service List

structure ContextRequest where
  asOfNanos : Int64

structure DatasetContractInfo where
  typeID : Int64
  name : Bytes
  schemaVersion : Int64
  deriving DecidableEq

structure RiskRedline where
  id : Bytes
  description : Bytes
  appliesToPhase : Bytes
  deriving DecidableEq

/-- The fields of an experiment that reach the bundle. -/
structure ExperimentRecord where
  fingerprint : Bytes
  hypothesisSummary : Bytes
  asOf : Bytes
  testIndex : Int64
  level : Bytes
  deriving DecidableEq

structure FactorTestSummary where
  experimentFingerprint : Bytes
  hypothesisSummary : Bytes
  level : Bytes
  asOf : Bytes
  testIndex : Int64
  deriving DecidableEq

structure StrategyObject where
  name : Bytes
  phase : Bytes
  deriving DecidableEq

structure CanonicalBundle where
  asOfNanos : Int64
  datasetContracts : List DatasetContractInfo
  contractsDigest : Bytes
  factorsTested : List FactorTestSummary
  strategyStates : List StrategyObject
  riskRedlines : List RiskRedline
  riskRedlinesDigest : Bytes
  deriving DecidableEq

structure ContextBundle extends CanonicalBundle where
  contextFingerprint : Bytes
  deriving DecidableEq

/-- The JSON texts that are read, and those of bundles and strategies. A bundle has no field that
cannot be encoded. -/
structure ContextJSON where
  contract : Bytes → Option DatasetContractInfo
  redlines : Bytes → Option (List RiskRedline)
  experiment : Bytes → Option ExperimentRecord
  strategy : Bytes → Option StrategyObject
  marshal : CanonicalBundle → Option Bytes
  marshalStrategy : StrategyObject → Bytes
  marshal_isSome : ∀ canon, (marshal canon).isSome
  strategy_marshal : ∀ obj,
    strategy (marshalStrategy obj) = some ⟨Utf8.toValid obj.name, Utf8.toValid obj.phase⟩

/-- A sort that promises no order among elements of which none is less. -/
structure SliceSort where
  sort : {Element : Type} → (Element → Element → Bool) → List Element → List Element
  perm : ∀ {Element : Type} (less : Element → Element → Bool) (elements : List Element),
    (sort less elements).Perm elements

/-- The paths of the contracts with what is read there, `none` if the pattern of their paths is
malformed, and the file of the red lines. A file that cannot be read is `none`. -/
structure ContextFiles where
  contracts : Option (List (Bytes × Option Bytes))
  redlinesPath : Bytes
  redlines : Option Bytes

inductive ContextError
  | contractPaths
  | contractFile (path : Bytes)
  | contractText (path : Bytes)
  | redlinesFile (path : Bytes)
  | redlinesText (path : Bytes)
  | encoding
  deriving DecidableEq

def registryIndexPrefix : Bytes := Jobctl.registryFingerprintKey []

def strategyObjectKey (name : Bytes) : Bytes := ascii "strategy:obj:".toList ++ name

section

variable (json : ContextJSON) (slices : SliceSort)

/-- The contracts of the files in their order, and the bytes that are hashed on the way. -/
def readContracts : List (Bytes × Option Bytes) → Except ContextError (List DatasetContractInfo × Bytes)
  | [] => .ok ([], [])
  | (path, none) :: _ => .error (.contractFile path)
  | (path, some raw) :: rest =>
    match json.contract raw with
    | none => .error (.contractText path)
    | some info => (readContracts rest).map fun read => (info :: read.1, raw ++ 10 :: read.2)

def loadContracts (files : ContextFiles) : Except ContextError (List DatasetContractInfo × Bytes) :=
  match files.contracts with
  | none => .error .contractPaths
  | some paths =>
    (readContracts json (paths.insertionSort fun left right => left.1 ≤ right.1)).map fun read =>
      (slices.sort (fun left right => left.typeID < right.typeID) read.1, hexEncode (sha256 read.2))

def loadRiskRedlines (files : ContextFiles) : Except ContextError (List RiskRedline × Bytes) :=
  match files.redlines with
  | none => .error (.redlinesFile files.redlinesPath)
  | some raw =>
    match json.redlines raw with
    | none => .error (.redlinesText files.redlinesPath)
    | some lines =>
      .ok (slices.sort (fun left right => left.id < right.id) lines, hexEncode (sha256 raw))

def listExperiments (ts : TemporalStore) (asOfNanos : Int64) : List ExperimentRecord :=
  slices.sort (fun left right => left.fingerprint < right.fingerprint)
    ((latestPerLogicalKey (listPrefix ts registryIndexPrefix asOfNanos)).filterMap fun entry =>
      json.experiment entry.payload)

def listStrategyStates (ts : TemporalStore) (asOfNanos : Int64) : List StrategyObject :=
  slices.sort (fun left right => left.name < right.name)
    ((latestPerLogicalKey (listPrefix ts (strategyObjectKey []) asOfNanos)).filterMap fun entry =>
      json.strategy entry.payload)

def ExperimentRecord.summary (e : ExperimentRecord) : FactorTestSummary :=
  ⟨e.fingerprint, e.hypothesisSummary, e.level, e.asOf, e.testIndex⟩

def withFingerprint (canon : CanonicalBundle) : Except ContextError ContextBundle :=
  match json.marshal canon with
  | none => .error .encoding
  | some text => .ok ⟨canon, hexEncode (sha256 text)⟩

def buildContext (ts : TemporalStore) (req : ContextRequest) (files : ContextFiles) :
    Except ContextError ContextBundle := do
  let (contracts, contractsDigest) ← loadContracts json slices files
  let (redlines, redlinesDigest) ← loadRiskRedlines json slices files
  let experiments := listExperiments json slices ts req.asOfNanos
  let strategyStates := listStrategyStates json slices ts req.asOfNanos
  withFingerprint json
    ⟨req.asOfNanos, contracts, contractsDigest, experiments.map ExperimentRecord.summary, strategyStates,
      redlines, redlinesDigest⟩

structure ContextFiles.Readable (files : ContextFiles) : Prop where
  contracts : ∃ paths, files.contracts = some paths ∧
    ∀ file ∈ paths, ∃ raw, file.2 = some raw ∧ (json.contract raw).isSome
  redlines : ∃ raw, files.redlines = some raw ∧ (json.redlines raw).isSome

end

section

variable (json : ContextJSON) (slices : SliceSort)

theorem readContracts_isOk (paths : List (Bytes × Option Bytes)) :
    (readContracts json paths).isOk = true ↔
      ∀ file ∈ paths, ∃ raw, file.2 = some raw ∧ (json.contract raw).isSome := by
  induction paths with
  | nil => simp [readContracts, Except.isOk, Except.toBool]
  | cons file paths ih =>
    rcases file with ⟨path, _ | raw⟩
    · simp [readContracts, Except.isOk, Except.toBool]
    · cases parsed : json.contract raw with
      | none => simp [readContracts, parsed, Except.isOk, Except.toBool]
      | some info =>
        rw [readContracts, parsed, forall_mem_cons, ← ih]
        cases readContracts json paths with
        | error cause => simp [Except.isOk, Except.toBool, Except.map]
        | ok read => simp [Except.isOk, Except.toBool, Except.map, parsed]

theorem loadContracts_isOk (files : ContextFiles) :
    (loadContracts json slices files).isOk = true ↔ ∃ paths, files.contracts = some paths ∧
      ∀ file ∈ paths, ∃ raw, file.2 = some raw ∧ (json.contract raw).isSome := by
  rw [loadContracts]
  cases files.contracts with
  | none => simp [Except.isOk, Except.toBool]
  | some paths =>
    have sorted := readContracts_isOk json (paths.insertionSort fun left right => left.1 ≤ right.1)
    simp only [mem_insertionSort] at sorted
    simp only [Option.some.injEq, exists_eq_left', ← sorted]
    cases readContracts json (paths.insertionSort fun left right => left.1 ≤ right.1) with
    | error | ok => rfl

theorem loadRiskRedlines_isOk (files : ContextFiles) :
    (loadRiskRedlines json slices files).isOk = true ↔
      ∃ raw, files.redlines = some raw ∧ (json.redlines raw).isSome := by
  rw [loadRiskRedlines]
  cases files.redlines with
  | none => simp [Except.isOk, Except.toBool]
  | some raw => cases parsed : json.redlines raw <;> simp [parsed, Except.isOk, Except.toBool]

variable {json slices} {files : ContextFiles} {req : ContextRequest} {ts other : TemporalStore}

theorem buildContext_of_unreadable (unreadable : ¬ files.Readable json) :
    buildContext json slices ts req files = buildContext json slices other req files := by
  have contracts := loadContracts_isOk json slices files
  have redlines := loadRiskRedlines_isOk json slices files
  simp only [buildContext]
  cases loaded : loadContracts json slices files with
  | error cause => rfl
  | ok read =>
    cases lines : loadRiskRedlines json slices files with
    | error cause => rfl
    | ok red =>
      rw [loaded] at contracts
      rw [lines] at redlines
      exact absurd ⟨contracts.mp rfl, redlines.mp rfl⟩ unreadable

theorem withFingerprint_injective : Function.Injective (withFingerprint json) := by
  intro first second same
  rcases Option.isSome_iff_exists.mp (json.marshal_isSome first) with ⟨text, marshalled⟩
  rcases Option.isSome_iff_exists.mp (json.marshal_isSome second) with ⟨otherText, otherMarshalled⟩
  rw [withFingerprint, withFingerprint, marshalled, otherMarshalled, Except.ok.injEq] at same
  exact congrArg ContextBundle.toCanonicalBundle same

theorem strategyStates_of_same (readable : files.Readable json)
    (same : buildContext json slices ts req files = buildContext json slices other req files) :
    listStrategyStates json slices ts req.asOfNanos = listStrategyStates json slices other req.asOfNanos := by
  have contracts := (loadContracts_isOk json slices files).mpr readable.contracts
  have redlines := (loadRiskRedlines_isOk json slices files).mpr readable.redlines
  simp only [buildContext] at same
  cases loaded : loadContracts json slices files with
  | error cause => simp [loaded, Except.isOk, Except.toBool] at contracts
  | ok read =>
    cases lines : loadRiskRedlines json slices files with
    | error cause => simp [lines, Except.isOk, Except.toBool] at redlines
    | ok red =>
      rw [loaded, lines] at same
      exact congrArg CanonicalBundle.strategyStates (withFingerprint_injective same)

end

/-- A history with positive times, sources of less than 4 GiB and fewer than 2^64 writes. -/
structure LedgerHistory (calls : List PutCall) : Prop where
  times : ∀ call ∈ calls, 0 < call.writeNanos
  sources : ∀ call ∈ calls, call.source.length < 2 ^ 32
  few : calls.length < 2 ^ 64

def SameVisible (asOfNanos : Int64) (calls other : List PutCall) : Prop :=
  ∀ v : Version, v.writeNanos ≤ asOfNanos → (v ∈ recordsOf calls ↔ v ∈ recordsOf other)

theorem listPrefix_congr {asOfNanos : Int64} (positive : 0 < asOfNanos) {calls other : List PutCall}
    (ledger : LedgerHistory calls) (otherLedger : LedgerHistory other)
    (same : SameVisible asOfNanos calls other) (keyPrefix : Bytes) :
    listPrefix (storeAfter calls) keyPrefix asOfNanos =
      listPrefix (storeAfter other) keyPrefix asOfNanos := by
  apply (listPrefix_sorted _ _ _).eq_of_mem_iff (listPrefix_sorted _ _ _)
  intro entry
  rw [mem_listPrefix ledger.sources ledger.few, mem_listPrefix otherLedger.sources otherLedger.few]
  constructor
  · intro listed
    rcases listed with ⟨v, recorded, scanned, inTime, shown⟩
    exact ⟨v, (same v (inTime positive)).mp recorded, scanned, inTime, shown⟩
  · intro listed
    rcases listed with ⟨v, recorded, scanned, inTime, shown⟩
    exact ⟨v, (same v (inTime positive)).mpr recorded, scanned, inTime, shown⟩

section

variable (json : ContextJSON) (slices : SliceSort)

def registration (obj : StrategyObject) : PutCall :=
  engineCall (strategyObjectKey obj.name) (json.marshalStrategy obj) 1

theorem LedgerHistory.registered (obj : StrategyObject) : LedgerHistory [registration json obj] := by
  refine ⟨?_, ?_, by simp⟩
  · rw [forall_mem_singleton]
    exact (by decide : (0 : Int64) < 1)
  · rw [forall_mem_singleton]
    exact (by decide : engineSource.length < 2 ^ 32)

theorem listStrategyStates_registered (obj : StrategyObject) (low : obj.name.head? ≠ some 255)
    {asOfNanos : Int64} (unbounded : Unbounded asOfNanos) :
    listStrategyStates json slices (storeAfter [registration json obj]) asOfNanos ≠ [] := by
  have ledger := LedgerHistory.registered json obj
  have records : recordsOf [registration json obj] = [newVersion (registration json obj) 1] := by
    rfl
  have scanned : Scanned (strategyObjectKey []) (newVersion (registration json obj) 1) := by
    rw [scanned_iff]
    constructor
    · exact under_versionStorageKey (prefix_append _ obj.name)
    · intro high
      have next : [255] <+: obj.name := (prefix_append_right_inj _).mp high
      rcases next with ⟨rest, same⟩
      exact low (by rw [← same]; rfl)
  have latest := (mem_latest_listPrefix ledger.sources ledger.few (strategyObjectKey []) unbounded
    (writeOf (newVersion (registration json obj) 1)).view).mpr
      ⟨_, by rw [records]; exact mem_singleton_self _, scanned, rfl, by
        intro w member _
        rw [mem_onKey, records, mem_singleton] at member
        rw [member.1]⟩
  have shown : (⟨Utf8.toValid obj.name, Utf8.toValid obj.phase⟩ : StrategyObject) ∈
      listStrategyStates json slices (storeAfter [registration json obj]) asOfNanos :=
    (slices.perm _ _).mem_iff.mpr (mem_filterMap.mpr ⟨_, latest, json.strategy_marshal obj⟩)
  exact ne_nil_of_mem shown

end

/-- The bundle depends on the versions up to the time only, and later writes leave it as it is. -/
structure SeesNoFuture (json : ContextJSON) (slices : SliceSort) (files : ContextFiles)
    (calls : List PutCall) (asOfNanos : Int64) : Prop where
  visible : ∀ other, LedgerHistory other → SameVisible asOfNanos calls other →
    buildContext json slices (storeAfter other) ⟨asOfNanos⟩ files =
      buildContext json slices (storeAfter calls) ⟨asOfNanos⟩ files
  later : ∀ later, LedgerHistory (calls ++ later) → (∀ call ∈ later, asOfNanos < call.writeNanos) →
    buildContext json slices (storeAfter (calls ++ later)) ⟨asOfNanos⟩ files =
      buildContext json slices (storeAfter calls) ⟨asOfNanos⟩ files

theorem sameVisible_append {asOfNanos : Int64} (calls : List PutCall) {later : List PutCall}
    (future : ∀ call ∈ later, asOfNanos < call.writeNanos) :
    SameVisible asOfNanos calls (calls ++ later) := by
  intro v seen
  have before := visible_before calls later v.logicalKey asOfNanos future v seen
  simp only [mem_onKey, and_true] at before
  exact before.symm

theorem sameVisible_of_nonpositive {asOfNanos : Int64} (nonpositive : asOfNanos ≤ 0)
    {calls other : List PutCall} (ledger : LedgerHistory calls) (otherLedger : LedgerHistory other) :
    SameVisible asOfNanos calls other := by
  have absent : ∀ history, LedgerHistory history → ∀ v : Version, v.writeNanos ≤ asOfNanos →
      v ∉ recordsOf history := by
    intro history positive v seen recorded
    rcases mem_written _ history v recorded with ⟨call, made, shape⟩
    have time : v.writeNanos = call.writeNanos := by rw [shape]; rfl
    have late := positive.times call made
    rw [← time] at late
    exact Int64.lt_irrefl (Int64.lt_of_lt_of_le late (Int64.le_trans seen nonpositive))
  intro v seen
  exact iff_of_false (absent calls ledger v seen) (absent other otherLedger v seen)

theorem context_sees_no_future_iff (json : ContextJSON) (slices : SliceSort) (files : ContextFiles)
    (calls : List PutCall) (ledger : LedgerHistory calls) (asOfNanos : Int64) :
    SeesNoFuture json slices files calls asOfNanos ↔ 0 < asOfNanos ∨ ¬ files.Readable json := by
  constructor
  · intro blind
    by_contra sighted
    rw [not_or, not_not, Int64.not_lt] at sighted
    rcases sighted with ⟨nonpositive, readable⟩
    -- An empty ledger and one with a strategy have nothing visible, so they give the same bundle.
    have one := LedgerHistory.registered json ⟨[], []⟩
    have fresh : LedgerHistory [] := ⟨by simp, by simp, by simp⟩
    have bundles := (blind.visible _ one (sameVisible_of_nonpositive nonpositive ledger one)).trans
      (blind.visible _ fresh (sameVisible_of_nonpositive nonpositive ledger fresh)).symm
    have strategies := strategyStates_of_same readable bundles
    rw [show listStrategyStates json slices (storeAfter []) asOfNanos = [] from
      perm_nil.mp (slices.perm _ _)] at strategies
    exact listStrategyStates_registered json slices ⟨[], []⟩ nofun (.inl nonpositive) strategies
  · intro condition
    have unchanged : ∀ other, LedgerHistory other → SameVisible asOfNanos calls other →
        buildContext json slices (storeAfter other) ⟨asOfNanos⟩ files =
          buildContext json slices (storeAfter calls) ⟨asOfNanos⟩ files := by
      intro other otherLedger same
      rcases condition with positive | unreadable
      · have listed keyPrefix := (listPrefix_congr positive ledger otherLedger same keyPrefix).symm
        simp only [buildContext, listExperiments, listStrategyStates, listed]
      · exact buildContext_of_unreadable unreadable
    exact ⟨unchanged, fun later extended future =>
      unchanged _ extended (sameVisible_append calls future)⟩

def stableSort : SliceSort where
  sort less elements := elements.insertionSort fun left right => less right left = false
  perm _ elements := List.perm_insertionSort _ elements

/-- Strategies alone have a text here. -/
def plainTexts : ContextJSON where
  contract _ := none
  redlines _ := some []
  experiment _ := none
  strategy text := (readDelimitedPair text).map fun pair => ⟨pair.1, pair.2⟩
  marshal canon := some (canon.strategyStates.flatMap fun obj => delimit obj.name ++ delimit obj.phase)
  marshalStrategy obj := delimit (Utf8.toValid obj.name) ++ delimit (Utf8.toValid obj.phase)
  marshal_isSome _ := rfl
  strategy_marshal obj := by rw [readDelimitedPair_append, Option.map_some]

def plainFiles : ContextFiles := ⟨some [], [], some []⟩

def momentum : StrategyObject := ⟨ascii "momentum".toList, ascii "paper".toList⟩

theorem context_sees_no_future_iff_positive :
    SeesNoFuture plainTexts stableSort plainFiles [registration plainTexts momentum] 1 :=
  (context_sees_no_future_iff plainTexts stableSort plainFiles _ (.registered plainTexts momentum) 1).mpr
    (.inl (by decide))

/-- A strategy that is registered at the time 1 stands in the bundle of the time 0. -/
theorem context_sees_future :
    let bundle := fun calls => buildContext plainTexts stableSort (storeAfter calls) ⟨0⟩ plainFiles
    let strategies := fun calls => (bundle calls).map fun b => b.strategyStates
    (registration plainTexts momentum).writeNanos = 1 ∧ strategies [] = .ok [] ∧
      strategies [registration plainTexts momentum] = .ok [momentum] ∧
      (bundle []).map ContextBundle.contextFingerprint ≠
        (bundle [registration plainTexts momentum]).map ContextBundle.contextFingerprint := by
  decide +kernel

end KairosFlux.Aiplane
