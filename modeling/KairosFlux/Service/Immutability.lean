import KairosFlux.Lib.Runs
import KairosFlux.Service.Ledger

/-! Versioned puts while writes fail and the process stops and restarts
(`service/temporal_store.go`).

A put makes two writes. When only the first takes effect the put is torn: its version is stored,
but neither the pointer nor the cache knows its number. -/

namespace KairosFlux.Service

open Lib Temporal List KVServer TemporalStore

inductive FaultStep where
  | put (call : PutCall) (versionOk currentOk : Bool)
  | stopBetween (call : PutCall)
  | restart
  deriving DecidableEq

/-- `stopBetween` ends the process after the version write of a put and before its pointer write.
A process that starts again has an empty cache over the same store. -/
def faultStep (ts : TemporalStore) : FaultStep → TemporalStore
  | .put call versionOk currentOk => (ts.putVersioned call versionOk currentOk).1
  | .stopBetween call => newTemporalStore (ts.putVersioned call true false).1.store
  | .restart => newTemporalStore ts.store

def storedKey : FaultStep → Option Bytes
  | .put call versionOk _ => if versionOk then some call.logical else none
  | .stopBetween call => some call.logical
  | .restart => none

def tornKey : FaultStep → Option Bytes
  | .put call versionOk currentOk => if versionOk && !currentOk then some call.logical else none
  | .stopBetween call => some call.logical
  | .restart => none

/-- Once a put of a logical key is torn, no later step stores a version of that key. -/
def NoPutAfterTear (steps : List FaultStep) : Prop :=
  steps.Pairwise fun earlier later => tornKey earlier = none ∨ tornKey earlier ≠ storedKey later
deriving Decidable

def storedCount (logical : Bytes) (steps : List FaultStep) : Nat :=
  steps.countP fun step => storedKey step = some logical

def storedBy (ts : TemporalStore) : FaultStep → List Version
  | .put call versionOk _ =>
    if versionOk then [newVersion call (ts.nextSeq call.logical)] else []
  | .stopBetween call => [newVersion call (ts.nextSeq call.logical)]
  | .restart => []

def pointedBy (ts : TemporalStore) : FaultStep → List Version
  | .put call versionOk currentOk =>
    if versionOk && currentOk then [newVersion call (ts.nextSeq call.logical)] else []
  | .stopBetween _ => []
  | .restart => []

variable {ts : TemporalStore} {stored pointed : List Version}

theorem Traced.faultStep (traced : Traced ts stored pointed) (step : FaultStep)
    (settled : ∀ logical, storedKey step = some logical →
      onKey logical stored = onKey logical pointed) :
    Traced (faultStep ts step) (stored ++ storedBy ts step) (pointed ++ pointedBy ts step) := by
  cases step with
  | put call versionOk currentOk =>
    cases versionOk with
    | false => simpa [Service.faultStep, putVersioned, storedBy, pointedBy] using traced
    | true =>
      have ready := settled call.logical rfl
      cases currentOk with
      | false =>
        simpa [Service.faultStep, putVersioned, storedBy, pointedBy]
          using traced.storeVersion call ready
      | true => exact traced.put call ready
  | stopBetween call =>
    have torn := (traced.storeVersion call (settled call.logical rfl)).restart
    simpa [Service.faultStep, putVersioned, storedBy, pointedBy] using torn
  | restart => simpa [Service.faultStep, storedBy, pointedBy] using traced.restart

theorem onKey_storedBy (ts : TemporalStore) (step : FaultStep) (logical : Bytes) :
    (onKey logical (storedBy ts step)).length = if storedKey step = some logical then 1 else 0 := by
  cases step with
  | put call versionOk currentOk =>
    cases versionOk with
    | false => simp [storedBy, storedKey, onKey]
    | true =>
      by_cases same : call.logical = logical
      · simp [storedBy, storedKey, onKey, newVersion, same]
      · simp [storedBy, storedKey, onKey, newVersion, same]
  | stopBetween call =>
    by_cases same : call.logical = logical
    · simp [storedBy, storedKey, onKey, newVersion, same]
    · simp [storedBy, storedKey, onKey, newVersion, same]
  | restart => simp [storedBy, storedKey, onKey]

theorem onKey_storedBy_untorn (ts : TemporalStore) (step : FaultStep) (logical : Bytes)
    (untorn : tornKey step ≠ some logical) :
    onKey logical (storedBy ts step) = onKey logical (pointedBy ts step) := by
  cases step with
  | put call versionOk currentOk =>
    cases versionOk with
    | false => rfl
    | true =>
      cases currentOk with
      | false =>
        have different : call.logical ≠ logical := by simpa [tornKey] using untorn
        simp [storedBy, pointedBy, onKey, newVersion, different]
      | true => rfl
  | stopBetween call =>
    have different : call.logical ≠ logical := by simpa [tornKey] using untorn
    simp [storedBy, pointedBy, onKey, newVersion, different]
  | restart => rfl

/-- The histories of a run, tied to the steps it took. -/
structure FaultTrace (steps : List FaultStep) (ts : TemporalStore) (stored pointed : List Version) :
    Prop where
  traced : Traced ts stored pointed
  counted : ∀ logical, (onKey logical stored).length = storedCount logical steps
  settled : ∀ logical, (∀ step ∈ steps, tornKey step ≠ some logical) →
    onKey logical stored = onKey logical pointed

theorem FaultTrace.next (steps : List FaultStep) (step : FaultStep)
    (trace : FaultTrace steps ts stored pointed)
    (allowed : ∀ earlier ∈ steps, tornKey earlier = none ∨ tornKey earlier ≠ storedKey step) :
    FaultTrace (steps ++ [step]) (faultStep ts step) (stored ++ storedBy ts step)
      (pointed ++ pointedBy ts step) where
  traced := by
    apply trace.traced.faultStep
    intro logical stores
    apply trace.settled
    intro earlier member torn
    rcases allowed earlier member with none | different
    · exact absurd (torn.symm.trans none) (by simp)
    · exact different (torn.trans stores.symm)
  counted logical := by
    rw [onKey_append, length_append, trace.counted, onKey_storedBy, storedCount, storedCount,
      countP_append]
    simp [countP_cons]
  settled logical untorn := by
    have before := trace.settled logical fun earlier member =>
      untorn earlier (mem_append_left _ member)
    have now := onKey_storedBy_untorn ts step logical (untorn step (by simp))
    rw [onKey_append, onKey_append, before, now]

def VersionsKept (early late : TemporalStore) : Prop :=
  ∀ logical seq raw, early.store.storage.lookup (versionStorageKey logical seq) = some raw →
    late.store.storage.lookup (versionStorageKey logical seq) = some raw

theorem FaultTrace.kept (steps : List FaultStep) (step : FaultStep)
    (trace : FaultTrace steps ts stored pointed)
    (after : FaultTrace (steps ++ [step]) (faultStep ts step) (stored ++ storedBy ts step)
      (pointed ++ pointedBy ts step))
    (bounded : ∀ logical, storedCount logical (steps ++ [step]) ≤ 2 ^ 64) :
    VersionsKept ts (faultStep ts step) := by
  intro logical seq raw present
  rw [trace.traced.holds.version, Option.map_eq_some_iff] at present
  obtain ⟨w, last, encoded⟩ := present
  have distinct : ∀ key, (seqsOf key (stored ++ storedBy ts step)).Nodup := by
    intro key
    refine (after.traced.numbered key).nodup _ ?_
    rw [seqsOf_length, after.counted]
    exact bounded key
  have kept : lastStored logical seq (stored ++ storedBy ts step) = some w := by
    cases added : storedBy ts step with
    | nil => rw [append_nil, last]
    | cons v rest =>
      have single : rest = [] := by
        cases step with
        | put call versionOk currentOk => cases versionOk <;> simp_all [storedBy]
        | stopBetween | restart => simp_all [storedBy]
      subst single
      rw [added] at distinct
      exact lastStored_snoc_of_distinct stored v w logical seq (distinct v.logicalKey) last
  rw [after.traced.holds.version, kept, Option.map_some, encoded]

theorem VersionsKept.trans {first second third : TemporalStore} (left : VersionsKept first second)
    (right : VersionsKept second third) : VersionsKept first third :=
  fun logical seq raw present => right logical seq raw (left logical seq raw present)

-- By induction on the steps still to come; the trace carries the steps already taken.
theorem FaultTrace.run (before after : List FaultStep)
    (trace : FaultTrace before ts stored pointed) (allowed : NoPutAfterTear (before ++ after))
    (bounded : ∀ logical, storedCount logical (before ++ after) ≤ 2 ^ 64) :
    (∃ stored pointed, FaultTrace (before ++ after) (run Service.faultStep ts after) stored pointed) ∧
      VersionsKept ts (run Service.faultStep ts after) := by
  induction after generalizing before ts stored pointed with
  | nil =>
    rw [append_nil]
    exact ⟨⟨stored, pointed, trace⟩, fun _ _ _ present => present⟩
  | cons step rest ih =>
    have regroup : before ++ step :: rest = before ++ [step] ++ rest := by simp
    rw [regroup] at allowed bounded ⊢
    have ready : ∀ earlier ∈ before, tornKey earlier = none ∨ tornKey earlier ≠ storedKey step := by
      intro earlier member
      have front := (pairwise_append.mp allowed).1
      exact (pairwise_append.mp front).2.2 earlier member step (by simp)
    have countNow : ∀ logical, storedCount logical (before ++ [step]) ≤ 2 ^ 64 := by
      intro logical
      have total := bounded logical
      rw [storedCount, countP_append] at total
      exact le_trans (Nat.le_add_right _ _) total
    have next := trace.next before step ready
    obtain ⟨reached, keptLater⟩ := ih (before ++ [step]) next allowed bounded
    exact ⟨reached, (trace.kept before step next countNow).trans keptLater⟩

theorem FaultTrace.fresh : FaultTrace [] (newTemporalStore empty) [] [] where
  traced := Traced.fresh
  counted _ := rfl
  settled _ _ := rfl

theorem listVersions_kept (early late : TemporalStore) (kept : VersionsKept early late)
    (logical : Bytes) (v : Version) (listed : v ∈ early.listVersions logical) :
    v ∈ late.listVersions logical := by
  obtain ⟨raw, present, read⟩ := (early.mem_listVersions logical v).mp listed
  exact (late.mem_listVersions logical v).mpr ⟨raw, kept logical v.seq raw present, read⟩

/-- In a run that never stores a version of a key after a torn put of that key, a stored version
stays as it is: the bytes under its key, its entry in every listing and every as-of answer. -/
theorem version_immutable (before after : List FaultStep)
    (allowed : NoPutAfterTear (before ++ after))
    (bounded : ∀ logical, storedCount logical (before ++ after) ≤ 2 ^ 64) :
    let early := run faultStep (newTemporalStore empty) before
    let late := run faultStep (newTemporalStore empty) (before ++ after)
    (∀ logical seq raw, early.store.storage.lookup (versionStorageKey logical seq) = some raw →
        late.store.storage.lookup (versionStorageKey logical seq) = some raw) ∧
      (∀ logical v, v ∈ early.listVersions logical → v ∈ late.listVersions logical) ∧
      ∀ logical asOfNanos v, early.getAsOf logical asOfNanos = some v →
        v ∈ late.listVersions logical := by
  intro early late
  have front : NoPutAfterTear before := (pairwise_append.mp allowed).1
  have frontBound : ∀ logical, storedCount logical before ≤ 2 ^ 64 := by
    intro logical
    have total := bounded logical
    rw [storedCount, countP_append] at total
    exact le_trans (Nat.le_add_right _ _) total
  obtain ⟨⟨stored, pointed, trace⟩, _⟩ := FaultTrace.fresh.run [] before front frontBound
  have kept : VersionsKept early late := by
    have rest := (trace.run before after allowed bounded).2
    rwa [← run_append] at rest
  refine ⟨kept, listVersions_kept early late kept, ?_⟩
  intro logical asOfNanos v answered
  exact listVersions_kept early late kept logical v (asOf_newest _ _ v answered).1

theorem version_immutable_two_keys :
    let torn : FaultStep := .put ⟨ascii ['k'], ascii ['a'], 1, [], 0⟩ true false
    let other : FaultStep := .put ⟨ascii ['j'], ascii ['b'], 2, [], 0⟩ true true
    ∀ v ∈ (run faultStep (newTemporalStore empty) [torn]).listVersions (ascii ['k']),
      v ∈ (run faultStep (newTemporalStore empty)
        ([torn] ++ [other, .restart])).listVersions (ascii ['k']) := by
  intro torn other v
  refine (version_immutable [torn] [other, .restart] (by decide) ?_).2.1 (ascii ['k']) v
  intro logical
  exact le_trans countP_le_length (by decide)

/-- A torn put leaves its number free for the next put of the key, which replaces the version. -/
theorem torn_put_overwritten : let first : PutCall := ⟨ascii ['k'], ascii ['a'], 1, [], 0⟩
    let second : PutCall := ⟨ascii ['k'], ascii ['b'], 2, [], 0⟩
    let early := run faultStep (newTemporalStore empty) [.put first true false]
    let late := run faultStep (newTemporalStore empty)
      ([.put first true false] ++ [.put second true true])
    early.listVersions (ascii ['k']) = [newVersion first 1] ∧
      early.getAsOf (ascii ['k']) 1 = some (newVersion first 1) ∧
      late.listVersions (ascii ['k']) = [newVersion second 1] ∧
      late.getAsOf (ascii ['k']) 1 = none := by
  decide +kernel

end KairosFlux.Service
