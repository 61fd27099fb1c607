import KairosFlux.Storage.Workers

/-! Which version of a key is the newest.

A lookup takes the version in the file that is listed last. Files are listed as they are written,
so this is the newest version only as long as the levels lie over each other in the same way: what
a level says must not be hidden by a deeper one. -/

namespace KairosFlux.Storage

open Lib List Layer StoredTable Machine

/-- From every level on, the files in the order of the list say what the level says over the deeper
ones. -/
def Levelled (tables : List StoredTable) : Prop :=
  ∀ n, tablesLayer (tables.filter fun t => n ≤ t.level) =
    above (tablesLayer (tables.filter fun t => t.level = n))
      (tablesLayer (tables.filter fun t => n < t.level))

theorem tablesLayer_append (older newer : List StoredTable) :
    tablesLayer (older ++ newer) = above (tablesLayer newer) (tablesLayer older) := by
  rw [tablesLayer, map_append]
  exact stack_append _ _

theorem tablesLayer_middle (older newer : List StoredTable) (t : StoredTable) :
    tablesLayer (older ++ t :: newer) =
      above (tablesLayer newer) (above t.table.lookup (tablesLayer older)) := by
  rw [← singleton_append, ← append_assoc, tablesLayer_append, tablesLayer_snoc]

theorem filter_snoc_of_pos (tables : List StoredTable) (t : StoredTable) (test : StoredTable → Bool)
    (kept : test t = true) : (tables ++ [t]).filter test = tables.filter test ++ [t] := by
  rw [filter_append, filter_cons_of_pos kept, filter_nil]

theorem filter_snoc_of_neg (tables : List StoredTable) (t : StoredTable) (test : StoredTable → Bool)
    (refused : test t = false) : (tables ++ [t]).filter test = tables.filter test := by
  rw [filter_append, filter_cons_of_neg (by simp [refused]), filter_nil, append_nil]

namespace Levelled

variable {tables : List StoredTable}

theorem nil : Levelled [] := fun _ => rfl

theorem flush (levelled : Levelled tables) (t : StoredTable) (first : t.level = 0) :
    Levelled (tables ++ [t]) := by
  intro n
  rw [filter_snoc_of_neg tables t (fun t => n < t.level) (by simp [first])]
  cases n with
  | zero =>
    rw [filter_snoc_of_pos tables t _ (by simp), filter_snoc_of_pos tables t _ (by simp [first]),
      tablesLayer_snoc, tablesLayer_snoc, levelled 0, above_assoc]
  | succ n =>
    rw [filter_snoc_of_neg tables t _ (by simp [first]),
      filter_snoc_of_neg tables t _ (by simp [first]), levelled (n + 1)]

theorem filter_lowest (n : Nat) (lowest : ∀ t ∈ tables, n ≤ t.level) :
    (tables.filter fun t => n ≤ t.level) = tables :=
  filter_eq_self.mpr fun t member => decide_eq_true (lowest t member)

theorem merge (levelled : Levelled tables) (n : Nat) (lowest : ∀ t ∈ tables, n ≤ t.level)
    (merged : StoredTable) (target : merged.level = n + 1)
    (holds : merged.table.lookup = tablesLayer (tables.filter fun t => t.level = n)) :
    Levelled (tables ++ [merged]) := by
  intro k
  rcases lt_trichotomy k n with below | rfl | above
  · have all : ∀ t ∈ tables ++ [merged], k < t.level := by
      intro t member
      rcases mem_append.mp member with old | here
      · exact below.trans_le (lowest t old)
      · rw [mem_singleton.mp here, target]
        omega
    have none : ((tables ++ [merged]).filter fun t => t.level = k) = [] := by
      apply filter_eq_nil_iff.mpr
      intro t member same
      exact (all t member).ne' (of_decide_eq_true same)
    have strict : ((tables ++ [merged]).filter fun t => k < t.level) = tables ++ [merged] :=
      filter_eq_self.mpr fun t member => decide_eq_true (all t member)
    rw [none, strict, filter_lowest k fun t member => (all t member).le]
    rfl
  · have whole := levelled k
    rw [filter_lowest k lowest] at whole
    rw [filter_snoc_of_pos tables merged (fun t => k ≤ t.level) (by simp [target]),
      filter_snoc_of_neg tables merged (fun t => t.level = k) (by simp [target]),
      filter_snoc_of_pos tables merged (fun t => k < t.level) (by simp [target]),
      filter_lowest k lowest, tablesLayer_snoc, tablesLayer_snoc, whole, holds]
  · have strict : ((tables ++ [merged]).filter fun t => k < t.level) =
        tables.filter fun t => k < t.level :=
      filter_snoc_of_neg tables merged _ (by simp [target]; omega)
    rw [strict]
    by_cases next : k = n + 1
    · rw [filter_snoc_of_pos tables merged (fun t => k ≤ t.level) (by simp [target, next]),
        filter_snoc_of_pos tables merged (fun t => t.level = k) (by simp [target, next]),
        tablesLayer_snoc, tablesLayer_snoc, levelled k, above_assoc]
    · rw [filter_snoc_of_neg tables merged (fun t => k ≤ t.level) (by simp [target]; omega),
        filter_snoc_of_neg tables merged (fun t => t.level = k) (by simp [target]; omega),
        levelled k]

end Levelled

/-- The sources of a merged file that are still there lie in front of it, in the order of the list,
and behind it lie new files of the first level only. -/
structure Draining (tables : List StoredTable) (level : Nat) (sources older : List StoredTable)
    (merged : StoredTable) (newer : List StoredTable) : Prop where
  split : tables = older ++ merged :: newer
  target : merged.level = level + 1
  left : (older.filter fun t => t.level = level) = sources
  flushed : ∀ t ∈ newer, t.level = 0
  agrees : Layer.Agrees (tablesLayer sources) merged.table.lookup

namespace Draining

variable {tables : List StoredTable} {level : Nat} {source : StoredTable}
  {rest older newer : List StoredTable} {merged : StoredTable}

theorem flush (draining : Draining tables level rest older merged newer) (t : StoredTable)
    (first : t.level = 0) : Draining (tables ++ [t]) level rest older merged (newer ++ [t]) where
  __ := draining
  split := by rw [draining.split, append_assoc, cons_append]
  flushed := forall_mem_append.mpr ⟨draining.flushed, forall_mem_singleton.mpr first⟩

section Delete

variable (draining : Draining tables level (source :: rest) older merged newer)
  (distinct : (tables.map ts).Nodup)

include draining

theorem source_mem : source ∈ tables ∧ source.level = level := by
  have member : source ∈ older.filter fun t => t.level = level := by
    rw [draining.left]
    exact .head _
  obtain ⟨inside, level⟩ := mem_filter.mp member
  refine ⟨?_, of_decide_eq_true level⟩
  rw [draining.split]
  exact mem_append_left _ inside

theorem source_silent (key : Bytes) (silent : merged.table.lookup key = none) :
    source.table.lookup key = none := by
  by_contra speaks
  have loud : tablesLayer (source :: rest) key ≠ none :=
    stack_ne_none _ source.table.lookup (.head _) key speaks
  obtain ⟨value, said⟩ := Option.ne_none_iff_exists'.mp loud
  have repeated := draining.agrees key value said
  rw [silent] at repeated
  cases repeated

include distinct

theorem eq_source (t : StoredTable) (member : t ∈ tables) (same : t.ts = source.ts) : t = source :=
  inj_on_of_nodup_map distinct member draining.source_mem.1 same

theorem filter_older : (tables.filter fun t => t.ts ≠ source.ts) =
    (older.filter fun t => t.ts ≠ source.ts) ++ merged :: newer := by
  have kept : ∀ t ∈ merged :: newer, decide (t.ts ≠ source.ts) = true := by
    intro t member
    rw [decide_eq_true_eq]
    intro same
    have names := distinct
    rw [draining.split, map_append] at names
    have inOlder : source ∈ older := by
      have member : source ∈ older.filter fun t => t.level = level := by
        rw [draining.left]
        exact .head _
      exact (mem_filter.mp member).1
    exact disjoint_of_nodup_append names (mem_map_of_mem inOlder)
      (same ▸ mem_map_of_mem member)
  rw [draining.split, filter_append, filter_eq_self.mpr kept]

theorem unseen (test : StoredTable → Bool) (kept : test merged = true) :
    tablesLayer ((tables.filter fun t => t.ts ≠ source.ts).filter test) =
      tablesLayer (tables.filter test) := by
  rw [draining.filter_older distinct, draining.split, filter_append, filter_append,
    filter_cons_of_pos kept, tablesLayer_middle, tablesLayer_middle]
  congr 1
  funext key
  cases said : merged.table.lookup key with
  | some value => rw [above, above, said, Option.some_or, Option.some_or]
  | none =>
    have silent := draining.source_silent key said
    rw [above, above, said, Option.none_or, Option.none_or, filter_comm]
    apply stack_filter
    intro t member removed
    have inside : t ∈ tables := by
      rw [draining.split]
      exact mem_append_left _ (mem_filter.mp member).1
    rw [draining.eq_source distinct t inside (by simpa using removed)]
    exact silent

theorem unchanged (test : StoredTable → Bool) (refused : test source = false) :
    (tables.filter fun t => t.ts ≠ source.ts).filter test = tables.filter test := by
  rw [filter_filter]
  apply filter_congr
  intro t member
  cases passes : test t with
  | false => rfl
  | true =>
    rw [Bool.true_and, decide_eq_true_eq]
    intro same
    rw [draining.eq_source distinct t member same, refused] at passes
    cases passes

theorem delete : Draining (tables.filter fun t => t.ts ≠ source.ts) level rest
    (older.filter fun t => t.ts ≠ source.ts) merged newer where
  __ := draining
  split := draining.filter_older distinct
  left := by
    have names : ((source :: rest).map ts).Nodup := by
      rw [← draining.left]
      apply List.Nodup.sublist _ distinct
      apply List.Sublist.map
      rw [draining.split]
      exact filter_sublist.trans (sublist_append_left _ _)
    rw [filter_comm, draining.left, filter_cons_of_neg (by simp)]
    apply filter_eq_self.mpr
    intro t member
    rw [decide_eq_true_eq]
    intro same
    exact (nodup_cons.mp names).1 (mem_map.mpr ⟨t, member, same⟩)
  agrees := by
    intro key value said
    exact draining.agrees key value (stack_agrees [source.table.lookup] _ key value said)

omit distinct in
/-- The level that loses a source says the same over the deeper ones. -/
theorem level_unseen (sources : List StoredTable) (agrees : Layer.Agrees (tablesLayer sources)
    merged.table.lookup) (selected : List StoredTable)
    (shape : selected = sources ++ newer.filter fun t => t.level = level) :
    above (tablesLayer selected) (tablesLayer (tables.filter fun t => level < t.level)) =
      above (tablesLayer (newer.filter fun t => t.level = level))
        (tablesLayer (tables.filter fun t => level < t.level)) := by
  have deeper : (tables.filter fun t => level < t.level) =
      (older.filter fun t => level < t.level) ++ [merged] := by
    have none : (newer.filter fun t => level < t.level) = [] := by
      apply filter_eq_nil_iff.mpr
      intro t member
      simp [draining.flushed t member]
    rw [draining.split, filter_append, filter_cons_of_pos (by simp [draining.target]), none]
  rw [shape, tablesLayer_append, above_assoc, deeper, tablesLayer_snoc, (agrees.above _).unseen]

theorem levelled (levels : Levelled tables) :
    Levelled (tables.filter fun t => t.ts ≠ source.ts) := by
  have sourceLevel := draining.source_mem.2
  have target := draining.target
  intro n
  rcases lt_trichotomy n level with below | rfl | above
  · rw [draining.unseen distinct (fun t => n ≤ t.level) (by simp [target]; omega),
      draining.unseen distinct (fun t => n < t.level) (by simp [target]; omega),
      draining.unchanged distinct (fun t => t.level = n) (by simp [sourceLevel]; omega), levels n]
  · have before : (tables.filter fun t => t.level = n) =
        (source :: rest) ++ newer.filter fun t => t.level = n := by
      rw [draining.split, filter_append, draining.left, filter_cons_of_neg (by simp [target])]
    have after : ((tables.filter fun t => t.ts ≠ source.ts).filter fun t => t.level = n) =
        rest ++ newer.filter fun t => t.level = n := by
      rw [(draining.delete distinct).split, filter_append, (draining.delete distinct).left,
        filter_cons_of_neg (by simp [target])]
    rw [draining.unseen distinct (fun t => n ≤ t.level) (by simp [target]),
      draining.unchanged distinct (fun t => n < t.level) (by simp [sourceLevel]), levels n,
      draining.level_unseen _ draining.agrees _ before,
      draining.level_unseen _ (draining.delete distinct).agrees _ after]
  · rw [draining.unchanged distinct (fun t => n ≤ t.level) (by simp [sourceLevel]; omega),
      draining.unchanged distinct (fun t => n < t.level) (by simp [sourceLevel]; omega),
      draining.unchanged distinct (fun t => t.level = n) (by simp [sourceLevel]; omega), levels n]

end Delete

end Draining

/-- What the last write of every key was. -/
def written (history : Layer Bytes (Option Bytes)) : Input → Layer Bytes (Option Bytes)
  | .put key value => above (single key (some value)) history
  | .delete key => above (single key none) history
  | _ => history

/-- The value of the last put of the key, or none behind a deletion or without a put. -/
def lastValue (key : Bytes) (inputs : List Input) : Option Bytes :=
  inputs.foldl (fun last input =>
    match input with
    | .put k value => if k = key then some value else last
    | .delete k => if k = key then none else last
    | _ => last) none

theorem lastValue_eq (key : Bytes) (inputs : List Input) :
    lastValue key inputs = (inputs.foldl written Layer.empty key).join := by
  rw [lastValue]
  induction inputs using List.reverseRecOn with
  | nil => rfl
  | append_singleton inputs input ih =>
    rw [foldl_append, foldl_append, foldl_cons, foldl_cons, foldl_nil, foldl_nil, ih]
    cases input with
    | put k value | delete k =>
      by_cases same : k = key
      · subst same
        simp only [written, above_single_self, if_true, Option.join_some]
      · simp only [written, above_single_of_ne _ _ _ _ (Ne.symm same), if_neg same]
    | flushStep | compactStart | compactStep | restart => rfl

/-- How far a compaction has got with the level it replaces. -/
def Replacing (tables : List StoredTable) : CompactState → Prop
  | .listed level _ => ∀ t ∈ tables, level ≤ t.level
  | .merged level _ _ _ => ∀ t ∈ tables, level ≤ t.level
  | .deleting level files => ∃ sources older merged newer,
      files = sources.map info ∧ Draining tables level sources older merged newer
  | .removing level _ files => ∃ sources older merged newer,
      files = sources.map info ∧ Draining tables level sources older merged newer
  | _ => True

/-- A lookup finds the last write of every key. -/
structure Recent (m : Machine) (tables : List StoredTable) (history : Layer Bytes (Option Bytes)) :
    Prop where
  view : above m.store.memLayer (tablesLayer tables) = history
  levelled : Levelled tables
  replacing : Replacing tables m.compact
  covered : m.flush = .installed → ∀ table, m.store.dirty = some table →
    above table.lookup (tablesLayer tables) = tablesLayer tables

/-- A full level is merged only when no file lies in a level before it. -/
def Lowest (threshold : Nat) (m : Machine) : Input → Prop
  | .compactStep _ => ∀ level ∈ m.compact.next,
      threshold ≤ (m.store.levelFiles level).length → ∀ info ∈ m.store.metas, level ≤ info.level
  | _ => True

/-- A restart finds nothing in memory that it could lose. -/
def Unhurt (m : Machine) : Input → Prop
  | .restart => m.store.active.entries = [] ∧ m.store.dirty = none
  | _ => True

instance (threshold : Nat) (m : Machine) : ∀ input, Decidable (Lowest threshold m input)
  | .compactStep _ => by dsimp only [Lowest]; infer_instance
  | .put .. | .delete _ | .flushStep _ | .compactStart | .restart => isTrue trivial

instance (m : Machine) : ∀ input, Decidable (Unhurt m input)
  | .restart => inferInstanceAs (Decidable (_ ∧ _))
  | .put .. | .delete _ | .flushStep _ | .compactStart | .compactStep _ => isTrue trivial

namespace Recent

variable {choice : BloomChoice} {threshold : Nat} {m : Machine} {tables : List StoredTable}
  {history : Layer Bytes (Option Bytes)}

theorem new : Recent new [] Layer.empty where
  view := rfl
  levelled := Levelled.nil
  replacing := trivial
  covered installed := by cases installed

theorem put (recent : Recent m tables history) (key : Bytes) (value : Option Bytes) :
    Recent { m with store := m.store.put key value } tables
      (above (single key value) history) where
  __ := recent
  view := by
    rw [← recent.view, ← above_assoc]
    rw [Store.memLayer, Store.memLayer, ← above_assoc, ← Engine.lookup_insert_layer]
    rfl

theorem memLayer_flushing {s : Store} {table : MemTable} (flushing : s.dirty = some table) :
    s.memLayer = above s.active.lookup table.lookup := by
  rw [Store.memLayer, flushing]
  rfl

theorem memLayer_swap (s : Store) : s.swap.memLayer = s.memLayer := by
  rw [Store.swap]
  split_ifs with ready
  · have idle : s.dirty = none := Option.isNone_iff_eq_none.mp ready.1
    funext key
    simp only [Store.memLayer, above, idle, Option.bind_none, Option.bind_some, Option.or_none]
    exact Option.none_or
  · rfl

section

variable (recent : Recent m tables history)
include recent

theorem flush (kept : Kept choice m tables) (now : Nat)
    (tidy : Kept.Tidy threshold m (.flushStep now)) :
    ∃ after, Kept choice (flushStep choice now m) after ∧
      Recent (flushStep choice now m) after history := by
  obtain ⟨timely, roomy, apart⟩ := tidy
  generalize next : flushStep choice now m = after
  cases next ▸ flushStep_move choice now m with
  | stay => exact ⟨tables, kept, recent⟩
  | swap idle =>
    refine ⟨tables, kept.swap, ?_, recent.levelled, recent.replacing, fun installed => ?_⟩
    · rw [memLayer_swap]
      exact recent.view
    · cases installed
  | retire =>
    exact ⟨tables, kept.retire, recent.view, recent.levelled, recent.replacing,
      nofun⟩
  | name table swapped flushing nonempty =>
    exact ⟨tables, kept.name now (timely swapped) (apart swapped), recent.view, recent.levelled,
      recent.replacing, nofun⟩
  | install ts table named flushing =>
    have alone : m.compact.merging = false :=
      kept.apart.resolve_left fun none => by rw [named] at none; cases none
    refine ⟨_, kept.installFlush ts table named (kept.dirty_fits table flushing roomy), ?_⟩
    have memory := memLayer_flushing flushing
    constructor
    case view =>
      change above m.store.memLayer _ = history
      rw [tablesLayer_snoc, memory, above_assoc, above_self, ← above_assoc, ← memory]
      exact recent.view
    case levelled => exact recent.levelled.flush _ rfl
    case replacing =>
      have replacing := recent.replacing
      cases shape : m.compact with
      | idle | looking => trivial
      | listed | merged => rw [shape] at alone; cases alone
      | deleting | removing =>
        rw [shape] at replacing
        obtain ⟨sources, older, merged, newer, same, draining⟩ := replacing
        exact ⟨sources, older, merged, _, same, draining.flush _ rfl⟩
    case covered =>
      intro _ other same
      obtain rfl := Option.some.inj (flushing.symm.trans same)
      rw [tablesLayer_snoc, above_self]
  | drop installed =>
    refine ⟨tables, kept.drop, ?_, recent.levelled, recent.replacing, nofun⟩
    cases flushing : m.store.dirty with
    | none =>
      rw [← recent.view, Store.memLayer, Store.memLayer, flushing]
    | some table =>
      have covered := recent.covered installed table flushing
      rw [← recent.view, memLayer_flushing flushing, above_assoc, covered]
      exact congrArg (fun layer => above layer (tablesLayer tables))
        (above_empty m.store.active.lookup)

theorem compact (kept : Kept choice m tables) (now : Nat)
    (tidy : Kept.Tidy threshold m (.compactStep now)) (lowest : Lowest threshold m (.compactStep now)) :
    ∃ after, Kept choice (compactStep choice threshold now m) after ∧
      Recent (compactStep choice threshold now m) after history := by
  obtain ⟨timely, roomy, apart⟩ := tidy
  have replacing := recent.replacing
  generalize next : compactStep choice threshold now m = after
  cases next ▸ compactStep_move choice threshold now m with
  | stay => exact ⟨tables, kept, recent⟩
  | finish settled =>
    exact ⟨tables, kept.settle _ settled rfl rfl trivial (.inr rfl), recent.view, recent.levelled,
      trivial, recent.covered⟩
  | look level settled =>
    exact ⟨tables, kept.look level settled, recent.view, recent.levelled, trivial, recent.covered⟩
  | list level looking full =>
    have here : level ∈ m.compact.next := by rw [looking]; rfl
    refine ⟨tables, kept.list level looking (apart level here full), recent.view, recent.levelled,
      fun t member => ?_, recent.covered⟩
    exact lowest level here full t.info (kept.stored.info_mem t member)
  | merge level files entries listed merged =>
    rw [listed] at replacing
    exact ⟨tables, kept.merge now level files entries listed merged
      (timely (by rw [listed]; rfl)) roomy, recent.view, recent.levelled, replacing, recent.covered⟩
  | install level files ts entries merged =>
    rw [merged] at replacing
    obtain ⟨table, _, holds, shape, after⟩ := kept.installMerged level files ts entries merged
    have unseen : tablesLayer (tables ++ [⟨level + 1, ts, table⟩]) = tablesLayer tables := by
      have whole := recent.levelled level
      rw [Levelled.filter_lowest level replacing] at whole
      rw [tablesLayer_snoc, holds, whole, above_self]
    refine ⟨_, after, ?_⟩
    constructor
    case view =>
      rw [unseen]
      exact recent.view
    case levelled => exact recent.levelled.merge level replacing _ rfl holds
    case replacing =>
      refine ⟨_, tables, ⟨level + 1, ts, table⟩, [], shape, rfl, rfl, rfl,
        nofun, fun key value said => ?_⟩
      rw [holds]
      exact said
    case covered =>
      rw [unseen]
      exact recent.covered
  | delete level file files deleting =>
    rw [deleting] at replacing
    obtain ⟨sources, older, merged, newer, shape, draining⟩ := replacing
    obtain ⟨source, rest, rfl, rfl, rfl⟩ := map_eq_cons_iff.mp shape.symm
    have distinct := kept.stored.names_nodup
    have unseen := draining.unseen distinct (fun _ => true) rfl
    rw [filter_true, filter_true] at unseen
    refine ⟨_, kept.delete level _ _ deleting, ?_⟩
    constructor
    case view => exact (congrArg (above m.store.memLayer) unseen).trans recent.view
    case levelled => exact draining.levelled distinct recent.levelled
    case replacing => exact ⟨rest, _, merged, newer, rfl, draining.delete distinct⟩
    case covered =>
      intro installed table flushing
      have covered := recent.covered installed table flushing
      rw [← unseen] at covered
      exact covered
  | remove level file files removing =>
    rw [removing] at replacing
    exact ⟨tables, kept.remove level file files removing, recent.view, recent.levelled, replacing,
      recent.covered⟩

theorem restart
    (unhurt : m.store.active.entries = [] ∧ m.store.dirty = none) :
    Recent { m with store := ⟨SortedMap.empty, none, m.store.loadMetas, m.store.disk⟩
                    flush := .idle, compact := .idle } tables history where
  view := by
    have silent : m.store.memLayer = Layer.empty := by
      funext key
      rw [Store.memLayer, above, unhurt.2, SortedMap.lookup, unhurt.1]
      rfl
    rw [← recent.view, silent]
    rfl
  levelled := recent.levelled
  replacing := trivial
  covered installed := by cases installed

/-- The steps under which the newest version is found. -/
def Orderly (threshold : Nat) (m : Machine) (input : Input) : Prop :=
  Kept.Tidy threshold m input ∧ Lowest threshold m input ∧ Unhurt m input
deriving Decidable

theorem step (kept : Kept choice m tables) (input : Input)
    (orderly : Orderly threshold m input) :
    ∃ after, Kept choice (workerStep choice threshold m input) after ∧
      Recent (workerStep choice threshold m input) after (written history input) := by
  obtain ⟨tidy, lowest, unhurt⟩ := orderly
  cases input with
  | put key value => exact ⟨tables, kept.put key (some value) tidy.2.1, recent.put key (some value)⟩
  | delete key => exact ⟨tables, kept.put key none tidy.2.1, recent.put key none⟩
  | flushStep now => exact recent.flush kept now tidy
  | compactStart =>
    rw [workerStep]
    split
    case h_1 idle =>
      exact ⟨tables, kept.look 0 (by rw [idle]; rfl), recent.view, recent.levelled, trivial,
        recent.covered⟩
    case h_2 => exact ⟨tables, kept, recent⟩
  | compactStep now => exact recent.compact kept now tidy lowest
  | restart => exact ⟨tables, kept.restart, recent.restart unhurt⟩

theorem run (inputs : List Input) (kept : Kept choice m tables)
    (orderly : Guarded (workerStep choice threshold) (Orderly threshold) m inputs) :
    ∃ after, Kept choice (run (workerStep choice threshold) m inputs) after ∧
      Recent (run (workerStep choice threshold) m inputs) after (inputs.foldl written history) := by
  induction inputs generalizing m tables history with
  | nil => exact ⟨tables, kept, recent⟩
  | cons input inputs ih =>
    obtain ⟨after, keptNext, recentNext⟩ := recent.step kept input orderly.1
    exact ih recentNext keptNext orderly.2

end

/-- Both orders of the files, that of the list and that of the names, give the last write. -/
theorem get_run (inputs : List Input)
    (orderly : Guarded (workerStep choice threshold) (Orderly threshold) Machine.new inputs)
    (key : Bytes) :
    (Lib.run (workerStep choice threshold) Machine.new inputs).store.get key = lastValue key inputs ∧
      (Lib.run (workerStep choice threshold) Machine.new inputs).store.reordered.get key =
        lastValue key inputs := by
  obtain ⟨tables, kept, recent⟩ := run Recent.new inputs (@Kept.new choice) orderly
  generalize Lib.run (workerStep choice threshold) Machine.new inputs = m at kept recent
  have reordered : Stored choice m.store.reordered.metas m.store.reordered.disk tables := by
    change Stored choice m.store.loadMetas m.store.disk tables
    rw [kept.stored.loadMetas kept.ordered]
    exact kept.stored.listed_all
  constructor
  · rw [kept.stored.get_layer, recent.view, lastValue_eq]
  · rw [reordered.get_layer]
    change (above m.store.memLayer (tablesLayer tables) key).join = _
    rw [recent.view, lastValue_eq]

end Recent

/-- No step falls into a flush or a compaction that is under way, but a stop, with empty tables in
memory, may fall into a compaction. -/
def Sequential (m : Machine) : Input → Prop
  | .put _ _ => m.flush = .idle ∧ m.compact = .idle
  | .delete _ => m.flush = .idle ∧ m.compact = .idle
  | .flushStep _ => m.compact = .idle
  | .compactStart => m.flush = .idle
  | .compactStep _ => m.flush = .idle
  | .restart => m.flush = .idle ∧ m.store.active.entries = [] ∧ m.store.dirty = none

instance (m : Machine) : ∀ input, Decidable (Sequential m input)
  | .put .. | .delete _ | .restart => inferInstanceAs (Decidable (_ ∧ _))
  | .flushStep _ | .compactStart | .compactStep _ => inferInstanceAs (Decidable (_ = _))

theorem Sequential.apart {m : Machine} {input : Input} (sequential : Sequential m input)
    (threshold : Nat) : Apart threshold m input := by
  cases input with
  | flushStep now =>
    intro _
    rw [show m.compact = .idle from sequential]
    rfl
  | compactStep now =>
    intro _ _ _
    rw [show m.flush = .idle from sequential]
    rfl
  | put | delete | compactStart | restart => trivial

def SequentialOrderly (threshold : Nat) (m : Machine) (input : Input) : Prop :=
  Sequential m input ∧ Timely m input ∧ Roomy m input ∧ Lowest threshold m input
deriving Decidable

theorem SequentialOrderly.orderly {threshold : Nat} {m : Machine} {input : Input}
    (orderly : SequentialOrderly threshold m input) : Recent.Orderly threshold m input := by
  obtain ⟨sequential, timely, roomy, lowest⟩ := orderly
  refine ⟨⟨timely, roomy, sequential.apart threshold⟩, lowest, ?_⟩
  cases input with
  | restart => exact sequential.2
  | put | delete | flushStep | compactStart | compactStep => trivial

/-- In a sequential run, stops of compactions included, a lookup finds the last write as long as a
full level is merged only when no file lies in a level before it. -/
theorem get_last_write_sequential (choice : BloomChoice) (threshold : Nat) (inputs : List Input)
    (orderly : Guarded (workerStep choice threshold) (SequentialOrderly threshold) new inputs)
    (key : Bytes) :
    (run (workerStep choice threshold) new inputs).store.get key = lastValue key inputs :=
  (Recent.get_run inputs (orderly.mono (fun _ _ => SequentialOrderly.orderly) _ _) key).1

/-- Filters of one word with one hash function, written in the order of the namespaces. -/
def plainBloom : BloomChoice where
  sizing := ⟨fun _ => 64, fun _ => 1, fun _ => by decide, fun _ => by decide, fun _ => by decide,
    fun n => Nat.le_add_right 64 (10 * n)⟩
  order _ parts := parts
  perm _ parts := List.Perm.refl parts

/-- The steps of a flush under one clock reading. -/
def flushSteps (now : Nat) : List Input := List.replicate 4 (Input.flushStep now)

theorem get_last_write_after_stop : let k := ascii ['k']
    let inputs := [Input.put k [1]] ++ flushSteps 1 ++ [Input.put k [2]] ++ flushSteps 2 ++
      Input.compactStart :: List.replicate 4 (Input.compactStep 3) ++ [Input.restart]
    (run (workerStep plainBloom 2) new inputs).store.get k = some [2] := by
  intro k inputs
  exact get_last_write_sequential plainBloom 2 inputs (by decide +kernel) k

/-- Two files of the second level are left behind by a stop. The next compaction merges them over
the newer file of the first level. -/
theorem stale_after_stopped_compaction : let k := ascii ['k']
    let pair := fun first : Nat => [Input.put k [UInt8.ofNat first]] ++ flushSteps (10 * first) ++
      [Input.put k [UInt8.ofNat (first + 1)]] ++ flushSteps (10 * first + 10)
    let merge := fun now : Nat => Input.compactStart :: List.replicate 8 (Input.compactStep now)
    let inputs := pair 1 ++ merge 25 ++ List.replicate 10 (Input.compactStep 26) ++ pair 3 ++
      merge 45 ++ [Input.restart, Input.put k [5]] ++ flushSteps 50 ++
      Input.compactStart :: List.replicate 20 (Input.compactStep 60)
    let m := run (workerStep plainBloom 2) new inputs
    Guarded (workerStep plainBloom 2) (fun m input => Sequential m input ∧ Timely m input ∧
      Roomy m input) new inputs ∧ m.compact = .idle ∧ m.store.get k = some [4] ∧
      lastValue k inputs = some [5] := by
  decide +kernel

/-- In every interleaving in which no flush is between its name and its file while a level is being
merged, and a full level is merged only when no file lies in a level before it, a lookup finds the
last write, before and after the files are put in the order of their names. -/
theorem get_last_write_interleaved (choice : BloomChoice) (threshold : Nat) (inputs : List Input)
    (orderly : Guarded (workerStep choice threshold) (Recent.Orderly threshold) new inputs)
    (key : Bytes) :
    let s := (run (workerStep choice threshold) new inputs).store
    s.get key = lastValue key inputs ∧ s.reordered.get key = lastValue key inputs :=
  Recent.get_run inputs orderly key

/-- A flush runs while the sources of a merged file are being deleted. -/
theorem get_last_write_while_deleting : let k := ascii ['k']
    let inputs := [Input.put k [1]] ++ flushSteps 1 ++ [Input.put k [2]] ++ flushSteps 2 ++
      Input.compactStart :: List.replicate 4 (Input.compactStep 3) ++ [Input.put k [3],
        Input.flushStep 4, Input.flushStep 4, Input.compactStep 5, Input.flushStep 4,
        Input.compactStep 5]
    let s := (run (workerStep plainBloom 2) new inputs).store
    s.get k = some [3] ∧ s.reordered.get k = some [3] := by
  intro k inputs
  exact get_last_write_interleaved plainBloom 2 inputs (by decide +kernel) k

/-- A flush between the list and the merged file is hidden by it at once, and one that took its name
before the merge and is registered behind it is hidden after a restart. -/
theorem stale_after_overlap : let k := ascii ['k']
    let listed := [Input.put k [1]] ++ flushSteps 1 ++ [Input.put k [2]] ++ flushSteps 2 ++
      [Input.compactStart, Input.compactStep 3, Input.put k [3]]
    let between := listed ++ flushSteps 4 ++ List.replicate 20 (Input.compactStep 5)
    let across := listed ++ [Input.flushStep 4, Input.flushStep 4, Input.compactStep 5,
      Input.compactStep 5, Input.flushStep 6, Input.flushStep 6] ++
      List.replicate 20 (Input.compactStep 7)
    let after := fun inputs => run (workerStep plainBloom 2) new inputs
    (∀ inputs ∈ [between, across],
      Guarded (workerStep plainBloom 2) (fun m input => Timely m input ∧ Roomy m input) new
          inputs ∧
        (after inputs).flush = .idle ∧ (after inputs).compact = .idle ∧
        lastValue k inputs = some [3]) ∧
      (after between).store.get k = some [2] ∧ (after across).store.get k = some [3] ∧
      (after across).store.reordered.get k = some [2] := by
  decide +kernel

end KairosFlux.Storage
