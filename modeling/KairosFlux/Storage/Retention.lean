import KairosFlux.Storage.Recency

/-! Dropping whole files below a key (`ReclaimUpTo` of `storage/engine.go`). -/

namespace KairosFlux.Storage

open Lib List Layer StoredTable Machine

/-- The file is known to end below the bound. -/
def FileMeta.endsBelow (bound : Bytes) (info : FileMeta) : Bool :=
  info.maxKey.any fun maxKey => maxKey < bound

def StoredTable.endsBelow (bound : Bytes) (t : StoredTable) : Bool := lastKey t.table.entries < bound

theorem StoredTable.info_endsBelow (bound : Bytes) (t : StoredTable) :
    t.info.endsBelow bound = t.endsBelow bound := rfl

namespace Stored

variable {choice : BloomChoice} {tables : List StoredTable} {s : Store}

section

variable (stored : Stored choice s.metas s.disk tables)
include stored

theorem reclaimFile
    (exact : s.metas = tables.map info) (bound : Bytes) (info : FileMeta) :
    Stored choice (s.reclaimFile bound info).metas (s.reclaimFile bound info).disk
        (tables.filter fun t => ¬(info.endsBelow bound = true ∧ t.ts = info.ts)) ∧
      (s.reclaimFile bound info).metas =
        (tables.filter fun t => ¬(info.endsBelow bound = true ∧ t.ts = info.ts)).map
          StoredTable.info := by
  cases below : info.endsBelow bound with
  | false =>
    have same : s.reclaimFile bound info = s := by
      rw [Store.reclaimFile, if_neg]
      exact fun goes => Bool.false_ne_true (below.symm.trans goes)
    simpa [same] using And.intro stored exact
  | true =>
    have gone : s.reclaimFile bound info = (s.deleteSSTable info.ts).removeMeta info.ts := by
      rw [Store.reclaimFile, if_pos]
      exact below
    simp only [gone, true_and]
    constructor
    · apply Stored.removeMeta (stored.delete info.ts)
      exact (SortedMap.lookup_erase _ _ _).trans (if_pos rfl)
    · change s.metas.filter _ = _
      rw [exact, filter_map]
      rfl

theorem reclaimFiles (bound : Bytes) (infos : List FileMeta) (exact : s.metas = tables.map info) :
    let after := infos.foldl (fun store info => store.reclaimFile bound info) s
    let left := tables.filter fun t => infos.all fun info =>
      ¬(info.endsBelow bound = true ∧ t.ts = info.ts)
    Stored choice after.metas after.disk left ∧ after.metas = left.map info := by
  induction infos generalizing s tables with
  | nil => simpa using And.intro stored exact
  | cons info infos ih =>
    obtain ⟨storedNext, exactNext⟩ := stored.reclaimFile exact bound info
    have rest := ih storedNext exactNext
    simp only [filter_filter] at rest
    simpa only [foldl_cons, all_cons, Bool.and_comm] using rest

theorem reclaimUpTo
    (exact : s.metas = tables.map info) (bound : Bytes) (nonempty : bound ≠ []) :
    Stored choice (s.reclaimUpTo bound).metas (s.reclaimUpTo bound).disk
        (tables.filter fun t => !t.endsBelow bound) ∧
      (s.reclaimUpTo bound).metas =
        (tables.filter fun t => !t.endsBelow bound).map info := by
  have left : (tables.filter fun t => s.metas.all fun info =>
      ¬(info.endsBelow bound = true ∧ t.ts = info.ts)) =
        tables.filter fun t => !t.endsBelow bound := by
    apply filter_congr
    intro t member
    rw [exact, all_map, Bool.eq_iff_iff, all_eq_true, Bool.not_eq_true']
    constructor
    · intro all
      have own := all t member
      rw [Function.comp_apply, decide_eq_true_eq, t.info_endsBelow] at own
      exact Bool.eq_false_iff.mpr fun below => own ⟨below, rfl⟩
    · intro stays other inside
      rw [Function.comp_apply, decide_eq_true_eq, other.info_endsBelow]
      rintro ⟨below, same⟩
      rw [stored.ts_inj member inside same, below] at stays
      cases stays
  have folded := stored.reclaimFiles bound s.metas exact
  simp only [left] at folded
  rw [Store.reclaimUpTo, if_neg nonempty]
  exact folded

end

end Stored

theorem Store.reclaimUpTo_nil (s : Store) : s.reclaimUpTo [] = s := if_pos rfl

theorem Store.reclaimUpTo_memory (s : Store) (bound : Bytes) :
    (s.reclaimUpTo bound).active = s.active ∧ (s.reclaimUpTo bound).dirty = s.dirty := by
  rw [Store.reclaimUpTo]
  split_ifs with none
  · exact ⟨rfl, rfl⟩
  · generalize s.metas = infos
    induction infos generalizing s with
    | nil => exact ⟨rfl, rfl⟩
    | cons info infos ih =>
      have step : (s.reclaimFile bound info).active = s.active ∧
          (s.reclaimFile bound info).dirty = s.dirty := by
        rw [Store.reclaimFile]
        split_ifs <;> exact ⟨rfl, rfl⟩
      exact ⟨(ih _).1.trans step.1, (ih _).2.trans step.2⟩

/-- No file that goes holds a key of an older file that stays. -/
def Store.Separate (s : Store) (bound : Bytes) : Prop :=
  s.metas.Pairwise fun older newer => newer.endsBelow bound = true → older.endsBelow bound = false →
    ∀ key, s.readFile key older = none ∨ s.readFile key newer = none

namespace Stored

variable {choice : BloomChoice} {tables : List StoredTable} {s : Store}

theorem get_reclaimUpTo (stored : Stored choice s.metas s.disk tables)
    (exact : s.metas = tables.map info) (bound : Bytes) (nonempty : bound ≠ [])
    (key : Bytes) :
    (s.reclaimUpTo bound).get key =
      (above s.memLayer (tablesLayer (tables.filter fun t => !t.endsBelow bound)) key).join := by
  have memory : (s.reclaimUpTo bound).memLayer = s.memLayer := by
    obtain ⟨active, dirty⟩ := s.reclaimUpTo_memory bound
    rw [Store.memLayer, active, dirty]
    rfl
  rw [(stored.reclaimUpTo exact bound nonempty).1.get_layer key, memory]

theorem get_of_le (stored : Stored choice s.metas s.disk tables)
    (exact : s.metas = tables.map info) (bound key : Bytes) (upper : bound ≤ key) :
    (s.reclaimUpTo bound).get key = s.get key := by
  by_cases empty : bound = []
  · rw [empty, s.reclaimUpTo_nil]
  · have files : tablesLayer (tables.filter fun t => !t.endsBelow bound) key = tablesLayer tables key := by
      apply stack_filter
      intro t _ goes
      rw [Bool.not_eq_false'] at goes
      exact lookup_eq_none_of_lastKey_lt _ _ (lt_of_lt_of_le (of_decide_eq_true goes) upper)
    rw [stored.get_reclaimUpTo exact bound empty, stored.get_layer]
    simp only [above, files]

theorem get_or_none (stored : Stored choice s.metas s.disk tables)
    (exact : s.metas = tables.map info) (bound : Bytes) (separate : s.Separate bound)
    (key : Bytes) :
    (s.reclaimUpTo bound).get key = s.get key ∨ (s.reclaimUpTo bound).get key = none := by
  by_cases empty : bound = []
  · rw [empty, s.reclaimUpTo_nil]
    exact .inl rfl
  · have apart : tables.Pairwise fun older newer => (!older.endsBelow bound) = true →
        (!newer.endsBelow bound) = false →
          older.table.lookup key = none ∨ newer.table.lookup key = none := by
      rw [Store.Separate, exact, pairwise_map] at separate
      apply separate.imp_of_mem
      intro older newer olderIn newerIn disjoint stays goes
      rw [Bool.not_eq_true'] at stays
      rw [Bool.not_eq_false'] at goes
      rw [← stored.readFile_info older olderIn key, ← stored.readFile_info newer newerIn key]
      exact disjoint goes stays key
    rw [stored.get_reclaimUpTo exact bound empty, stored.get_layer]
    cases said : s.memLayer key with
    | some value => simp only [above, said, Option.some_or, true_or]
    | none =>
      simp only [above, said, Option.none_or]
      rcases stack_filter_or_silent tables _ _ key apart with same | silent
      · exact .inl (congrArg Option.join same)
      · exact .inr (congrArg Option.join silent)

end Stored

inductive RetentionInput
  | worker (input : Input)
  | reclaim (bound : Bytes)

def retentionStep (choice : BloomChoice) (threshold : Nat) (m : Machine) : RetentionInput → Machine
  | .worker input => workerStep choice threshold m input
  | .reclaim bound => { m with store := m.store.reclaimUpTo bound }

/-- One operation after the other. -/
def RetentionSequential (m : Machine) : RetentionInput → Prop
  | .worker input => Sequential m input ∧ Timely m input ∧ Roomy m input
  | .reclaim _ => m.flush = .idle ∧ m.compact = .idle

instance (m : Machine) (input : RetentionInput) : Decidable (RetentionSequential m input) := by
  cases input <;> dsimp only [RetentionSequential] <;> infer_instance

namespace Kept

variable {choice : BloomChoice} {threshold : Nat} {m : Machine} {tables : List StoredTable}

theorem reclaim (kept : Kept choice m tables) (idle : m.compact = .idle) (bound : Bytes)
    (nonempty : bound ≠ []) :
    Kept choice { m with store := m.store.reclaimUpTo bound }
      (tables.filter fun t => !t.endsBelow bound) := by
  obtain ⟨stored, exact⟩ :=
    kept.stored.reclaimUpTo (kept.metas_eq (by rw [idle]; rfl)) bound nonempty
  obtain ⟨active, dirty⟩ := m.store.reclaimUpTo_memory bound
  have fewer : ∀ info ∈ (m.store.reclaimUpTo bound).metas, info ∈ m.store.metas := by
    intro info member
    rw [exact] at member
    obtain ⟨t, inside, rfl⟩ := mem_map.mp member
    exact kept.stored.info_mem t (mem_filter.mp inside).1
  constructor
  case stored => exact stored
  case ordered => exact kept.ordered.filter _
  case present =>
    intro info member absent
    rw [exact] at member
    obtain ⟨t, inside, rfl⟩ := mem_map.mp member
    exact absurd ((stored.lookup t inside).symm.trans absent) nofun
  case gone =>
    intro ts member
    rw [idle] at member
    cases member
  case clocked => exact fun info member => kept.clocked info (fewer info member)
  case named =>
    intro ts member
    obtain ⟨clocked, later⟩ := kept.named ts member
    exact ⟨clocked, fun info inside => later info (fewer info inside)⟩
  case mergeNamed => exact kept.mergeNamed
  case prepared =>
    rw [idle]
    trivial
  case apart => exact kept.apart
  case memory =>
    rw [Store.dirtyEntries, active, dirty]
    exact kept.memory
  case filled =>
    rw [dirty]
    exact kept.filled

theorem retention (kept : Kept choice m tables) (input : RetentionInput)
    (sequential : RetentionSequential m input) :
    ∃ after, Kept choice (retentionStep choice threshold m input) after := by
  cases input with
  | worker input =>
    obtain ⟨sequential, timely, roomy⟩ := sequential
    exact kept.step input ⟨timely, roomy, sequential.apart threshold⟩
  | reclaim bound =>
    by_cases empty : bound = []
    · rw [retentionStep, empty, Store.reclaimUpTo_nil]
      exact ⟨tables, kept⟩
    · exact ⟨_, kept.reclaim sequential.2 bound empty⟩

theorem retention_run (inputs : List RetentionInput)
    (sequential : Guarded (retentionStep choice threshold) RetentionSequential Machine.new inputs) :
    ∃ tables, Kept choice (Lib.run (retentionStep choice threshold) Machine.new inputs) tables :=
  @Guarded.invariant _ _ (retentionStep choice threshold) RetentionSequential
    (fun m => ∃ tables, Kept choice m tables)
    (fun _ input kept condition => kept.elim fun _ inner => inner.retention input condition)
    Machine.new inputs ⟨[], new⟩ sequential

end Kept

/-- In every state that a sequential run reaches between two operations, a reclaim that separates
the files leaves the keys from the bound on as they are and hides others at most. -/
theorem reclaim_hides_at_most (choice : BloomChoice) (threshold : Nat) (inputs : List RetentionInput)
    (sequential : Guarded (retentionStep choice threshold) RetentionSequential new inputs)
    (bound : Bytes) :
    let m := run (retentionStep choice threshold) new inputs
    RetentionSequential m (.reclaim bound) → m.store.Separate bound → ∀ key,
      (bound ≤ key → (m.store.reclaimUpTo bound).get key = m.store.get key) ∧
      (key < bound → (m.store.reclaimUpTo bound).get key = m.store.get key ∨
        (m.store.reclaimUpTo bound).get key = none) := by
  intro m between separate key
  obtain ⟨tables, kept⟩ := Kept.retention_run inputs sequential
  have exact := kept.metas_eq (by rw [show _ = CompactState.idle from between.2]; rfl)
  constructor
  · exact kept.stored.get_of_le exact bound key
  · intro _
    exact kept.stored.get_or_none exact bound separate key

/-- The file with `a` goes, the newer one with `z` stays. -/
theorem reclaim_hides_delivered :
    let inputs := ([Input.put (ascii ['a']) [1]] ++ flushSteps 1 ++ [Input.put (ascii ['z']) [2]] ++
      flushSteps 2).map RetentionInput.worker
    let s := (run (retentionStep plainBloom 2) new inputs).store
    (s.reclaimUpTo (ascii ['b'])).get (ascii ['z']) = s.get (ascii ['z']) ∧
      ((s.reclaimUpTo (ascii ['b'])).get (ascii ['a']) = s.get (ascii ['a']) ∨
        (s.reclaimUpTo (ascii ['b'])).get (ascii ['a']) = none) := by
  intro inputs s
  have newerStay : s.metas.Pairwise fun _ newer => newer.endsBelow (ascii ['b']) = false := by
    decide +kernel
  have separate : s.Separate (ascii ['b']) :=
    newerStay.imp fun stays goes => absurd goes (by rw [stays]; exact Bool.false_ne_true)
  have hides := reclaim_hides_at_most plainBloom 2 inputs (by decide +kernel) (ascii ['b'])
    (by decide +kernel) separate
  exact ⟨(hides _).1 (by decide), (hides _).2 (by decide)⟩

/-- The newer file with `a` goes, and the older one, which reaches to `z`, shows its value again. -/
theorem reclaim_revives_old_value :
    let inputs := ([Input.put (ascii ['a']) [1], Input.put (ascii ['z']) [1]] ++ flushSteps 1 ++
      [Input.put (ascii ['a']) [2]] ++ flushSteps 2).map RetentionInput.worker
    let m := run (retentionStep plainBloom 2) new inputs
    Guarded (retentionStep plainBloom 2) RetentionSequential new
        (inputs ++ [.reclaim (ascii ['b'])]) ∧
      m.store.get (ascii ['a']) = some [2] ∧
      (m.store.reclaimUpTo (ascii ['b'])).get (ascii ['a']) = some [1] := by
  decide +kernel

end KairosFlux.Storage
