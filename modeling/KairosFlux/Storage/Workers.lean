import KairosFlux.Lib.Runs
import KairosFlux.Storage.Store

/-! The flush worker and the compaction worker (`Flush` and `CompactSSTable` in `storage/engine.go`)
as they take turns with the writers, one atomic step at a time. -/

namespace KairosFlux.Storage

open Lib List SortedMap StoredTable

/-- Where a flush stands: the tables are swapped, the file has a name, the file is registered. -/
inductive FlushState
  | idle
  | swapped
  | named (ts : Nat)
  | installed
  deriving DecidableEq

/-- Where a compaction stands. Behind `merged` each source is deleted and then taken off the list. -/
inductive CompactState
  | idle
  | looking (level : Nat)
  | listed (level : Nat) (files : List FileMeta)
  | merged (level : Nat) (files : List FileMeta) (ts : Nat) (entries : List LogEntry)
  | deleting (level : Nat) (files : List FileMeta)
  | removing (level : Nat) (file : FileMeta) (files : List FileMeta)
  deriving DecidableEq

def FlushState.name : FlushState → Option Nat
  | .named ts => some ts
  | _ => none

namespace CompactState

/-- The level that is about to be listed. -/
def next : CompactState → Option Nat
  | .looking level => some level
  | _ => none

/-- The next step gives a name to the merged file. -/
def naming : CompactState → Bool
  | .listed _ _ => true
  | _ => false

/-- Between the list of a level and the file that replaces it. -/
def merging : CompactState → Bool
  | .listed _ _ => true
  | .merged _ _ _ _ => true
  | _ => false

def name : CompactState → Option Nat
  | .merged _ _ ts _ => some ts
  | _ => none

/-- The file that is deleted and still listed. -/
def removed : CompactState → Option Nat
  | .removing _ file _ => some file.ts
  | _ => none

end CompactState

/-- `clock` is the latest timestamp that was given to a file. -/
structure Machine where
  store : Store
  flush : FlushState
  compact : CompactState
  clock : Nat

def Machine.new : Machine := ⟨Store.new, .idle, .idle, 0⟩

inductive Input
  | put (key value : Bytes)
  | delete (key : Bytes)
  | flushStep (now : Nat)
  | compactStart
  | compactStep (now : Nat)
  | restart

section Steps

variable (choice : BloomChoice) (threshold : Nat)

-- A table that is left from a failed flush is written without a swap.
def flushStep (now : Nat) (m : Machine) : Machine :=
  match m.flush with
  | .idle =>
    if m.store.dirty.isNone ∧ m.store.active.entries = [] then m
    else { m with store := m.store.swap, flush := .swapped }
  | .swapped =>
    match m.store.dirty with
    | none => { m with flush := .idle }
    | some table =>
      if table.entries = [] then { m with flush := .idle }
      else { m with flush := .named now, clock := now }
  | .named ts =>
    match m.store.dirty with
    | none => { m with flush := .idle }
    | some table =>
      { m with store := m.store.install choice 0 ts table.entries, flush := .installed }
  | .installed => { m with store := { m.store with dirty := none }, flush := .idle }

def maxLevel : Nat := 10

def compactStep (now : Nat) (m : Machine) : Machine :=
  match m.compact with
  | .idle => m
  | .looking level =>
    if maxLevel ≤ level then { m with compact := .idle }
    else if (m.store.levelFiles level).length < threshold then
      { m with compact := .looking (level + 1) }
    else { m with compact := .listed level (m.store.levelFiles level) }
  | .listed level files =>
    match m.store.mergeFiles files with
    | none => { m with compact := .looking (level + 1) }
    | some entries => { m with compact := .merged level files now entries, clock := now }
  | .merged level files ts entries =>
    { m with
      store := m.store.install choice (level + 1) ts entries
      compact := .deleting level files }
  | .deleting level [] => { m with compact := .looking (level + 1) }
  | .deleting level (file :: files) =>
    { m with
      store := m.store.deleteSSTable file.ts
      compact := .removing level file files }
  | .removing level file files =>
    { m with
      store := m.store.removeMeta file.ts
      compact := .deleting level files }

/-- A restart loses the tables in memory and lists the files that are on disk. -/
def workerStep (m : Machine) : Input → Machine
  | .put key value => { m with store := m.store.put key (some value) }
  | .delete key => { m with store := m.store.put key none }
  | .flushStep now => flushStep choice now m
  | .compactStart =>
    match m.compact with
    | .idle => { m with compact := .looking 0 }
    | _ => m
  | .compactStep now => compactStep choice threshold now m
  | .restart =>
    { m with
      store := ⟨SortedMap.empty, none, m.store.loadMetas, m.store.disk⟩
      flush := .idle
      compact := .idle }

inductive FlushMove (now : Nat) (m : Machine) : Machine → Prop
  | stay : FlushMove now m m
  | swap (idle : m.flush = .idle) :
      FlushMove now m { m with store := m.store.swap, flush := .swapped }
  | retire : FlushMove now m { m with flush := .idle }
  | name (table : MemTable) (swapped : m.flush = .swapped) (flushing : m.store.dirty = some table)
      (nonempty : table.entries ≠ []) :
      FlushMove now m { m with flush := .named now, clock := now }
  | install (ts : Nat) (table : MemTable) (named : m.flush = .named ts)
      (flushing : m.store.dirty = some table) :
      FlushMove now m
        { m with store := m.store.install choice 0 ts table.entries, flush := .installed }
  | drop (installed : m.flush = .installed) :
      FlushMove now m { m with store := { m.store with dirty := none }, flush := .idle }

theorem flushStep_move (now : Nat) (m : Machine) :
    FlushMove choice now m (flushStep choice now m) := by
  rw [flushStep]
  split
  case h_1 idle =>
    split_ifs
    · exact .stay
    · exact .swap idle
  case h_2 swapped =>
    split
    case h_1 => exact .retire
    case h_2 table flushing =>
      split_ifs with empty
      · exact .retire
      · exact .name table swapped flushing empty
  case h_3 ts named =>
    split
    case h_1 => exact .retire
    case h_2 table flushing => exact .install ts table named flushing
  case h_4 installed => exact .drop installed

inductive CompactMove (now : Nat) (m : Machine) : Machine → Prop
  | stay : CompactMove now m m
  | finish (settled : m.compact.removed = none) : CompactMove now m { m with compact := .idle }
  | look (level : Nat) (settled : m.compact.removed = none) :
      CompactMove now m { m with compact := .looking level }
  | list (level : Nat) (looking : m.compact = .looking level)
      (full : threshold ≤ (m.store.levelFiles level).length) :
      CompactMove now m { m with compact := .listed level (m.store.levelFiles level) }
  | merge (level : Nat) (files : List FileMeta) (entries : List LogEntry)
      (listed : m.compact = .listed level files) (merged : m.store.mergeFiles files = some entries) :
      CompactMove now m { m with compact := .merged level files now entries, clock := now }
  | install (level : Nat) (files : List FileMeta) (ts : Nat) (entries : List LogEntry)
      (merged : m.compact = .merged level files ts entries) :
      CompactMove now m
        { m with
          store := m.store.install choice (level + 1) ts entries
          compact := .deleting level files }
  | delete (level : Nat) (file : FileMeta) (files : List FileMeta)
      (deleting : m.compact = .deleting level (file :: files)) :
      CompactMove now m
        { m with
          store := m.store.deleteSSTable file.ts
          compact := .removing level file files }
  | remove (level : Nat) (file : FileMeta) (files : List FileMeta)
      (removing : m.compact = .removing level file files) :
      CompactMove now m
        { m with
          store := m.store.removeMeta file.ts
          compact := .deleting level files }

theorem compactStep_move (now : Nat) (m : Machine) :
    CompactMove choice threshold now m (compactStep choice threshold now m) := by
  rw [compactStep]
  split
  case h_1 => exact .stay
  case h_2 level looking =>
    have settled : m.compact.removed = none := by rw [looking]; rfl
    split_ifs with done few
    · exact .finish settled
    · exact .look _ settled
    · exact .list level looking (not_lt.mp few)
  case h_3 level files listed =>
    have settled : m.compact.removed = none := by rw [listed]; rfl
    split
    case h_1 => exact .look _ settled
    case h_2 entries merged => exact .merge level files entries listed merged
  case h_4 level files ts entries merged => exact .install level files ts entries merged
  case h_5 level deleting =>
    have settled : m.compact.removed = none := by rw [deleting]; rfl
    exact .look _ settled
  case h_6 level file files deleting => exact .delete level file files deleting
  case h_7 level file files removing => exact .remove level file files removing

end Steps

/-! What the runs below assume of a step, and under which condition the files stay in order. -/

/-- A file gets a later timestamp than all files before it. -/
def Timely (m : Machine) : Input → Prop
  | .flushStep now => m.flush = .swapped → m.clock < now
  | .compactStep now => m.compact.naming = true → m.clock < now
  | _ => True

/-- The lengths fit the fields of the formats, and the store is smaller than a tebibyte. -/
def Roomy (m : Machine) : Input → Prop
  | .put key value => EntryFits (key, some value)
  | .delete key => EntryFits (key, none)
  | _ => m.store.size < 2 ^ 40

/-- A flush takes no name while a level is being merged, and no full level is listed while a flush
has a name and no file. -/
def Apart (threshold : Nat) (m : Machine) : Input → Prop
  | .flushStep _ => m.flush = .swapped → m.compact.merging = false
  | .compactStep _ =>
    ∀ level ∈ m.compact.next, threshold ≤ (m.store.levelFiles level).length → m.flush.name = none
  | _ => True

instance (m : Machine) (input : Input) : Decidable (Timely m input) := by
  cases input <;> dsimp only [Timely] <;> infer_instance

instance (m : Machine) (input : Input) : Decidable (Roomy m input) := by
  cases input <;> dsimp only [Roomy] <;> infer_instance

instance (threshold : Nat) (m : Machine) (input : Input) : Decidable (Apart threshold m input) := by
  cases input <;> dsimp only [Apart] <;> infer_instance

/-- What a compaction has read of a level, and which files it still has to delete. -/
def Prepared (metas : List FileMeta) (tables : List StoredTable) : CompactState → Prop
  | .listed level files => files = (tables.filter fun t => t.level = level).map info
  | .merged level files ts entries =>
    files = (tables.filter fun t => t.level = level).map info ∧
      (∀ info ∈ metas, info.ts < ts) ∧ ∃ merged : MemTable, merged.entries = entries ∧
        merged.lookup = tablesLayer (tables.filter fun t => t.level = level) ∧
        TableFits merged.entries
  | .deleting _ files => ∃ sources : List StoredTable, files = sources.map info ∧
      sources.Sublist tables
  | .removing _ _ files => ∃ sources : List StoredTable, files = sources.map info ∧
      sources.Sublist tables
  | _ => True

/-- The files are complete, listed in the order of their names, and no name is given twice. -/
structure Kept (choice : BloomChoice) (m : Machine) (tables : List StoredTable) : Prop where
  stored : Stored choice m.store.metas m.store.disk tables
  ordered : Ordered tables
  present : ∀ info ∈ m.store.metas, m.store.disk.lookup info.ts = none →
    m.compact.removed = some info.ts
  gone : ∀ ts ∈ m.compact.removed, m.store.disk.lookup ts = none ∧ ∃ info ∈ m.store.metas, info.ts = ts
  clocked : ∀ info ∈ m.store.metas, info.ts ≤ m.clock
  named : ∀ ts ∈ m.flush.name, ts ≤ m.clock ∧ ∀ info ∈ m.store.metas, info.ts < ts
  mergeNamed : ∀ ts ∈ m.compact.name, ts ≤ m.clock
  prepared : Prepared m.store.metas tables m.compact
  apart : m.flush.name = none ∨ m.compact.merging = false
  memory : ∀ entry ∈ m.store.active.entries ++ m.store.dirtyEntries, EntryFits entry
  filled : ∀ table, m.store.dirty = some table → table.entries ≠ []

namespace Kept

variable {choice : BloomChoice} {threshold : Nat} {m : Machine} {tables : List StoredTable}

theorem new : Kept choice Machine.new [] where
  stored := Stored.empty
  ordered := List.Pairwise.nil
  present _ member := nomatch member
  gone _ member := by cases member
  clocked _ member := nomatch member
  named _ member := by cases member
  mergeNamed _ member := by cases member
  prepared := trivial
  apart := .inl rfl
  memory _ member := nomatch member
  filled _ flushing := by cases flushing

section

variable (kept : Kept choice m tables)
include kept

theorem metas_eq (settled : m.compact.removed = none) : m.store.metas = tables.map info := by
  rw [← kept.stored.listed]
  symm
  apply filter_eq_self.mpr
  intro info member
  rw [Option.isSome_iff_ne_none]
  intro absent
  have removed := kept.present info member absent
  rw [settled] at removed
  cases removed

theorem put (key : Bytes) (value : Option Bytes)
    (fits : EntryFits (key, value)) :
    Kept choice { m with store := m.store.put key value } tables where
  __ := kept
  memory := by
    intro entry member
    rcases mem_append.mp member with inActive | inDirty
    · rcases mem_insertIn key value _ entry inActive with rfl | old
      · exact fits
      · exact kept.memory entry (mem_append_left _ old)
    · exact kept.memory entry (mem_append_right _ inDirty)

theorem swap : Kept choice { m with store := m.store.swap, flush := .swapped } tables := by
  have same : m.store.swap.metas = m.store.metas ∧ m.store.swap.disk = m.store.disk := by
    rw [Store.swap]
    split_ifs <;> exact ⟨rfl, rfl⟩
  obtain ⟨metas, disk⟩ := same
  constructor
  case stored => rw [metas, disk]; exact kept.stored
  case ordered => exact kept.ordered
  case present => rw [metas, disk]; exact kept.present
  case gone => rw [metas, disk]; exact kept.gone
  case clocked => rw [metas]; exact kept.clocked
  case named => exact fun ts member => by cases member
  case mergeNamed => exact kept.mergeNamed
  case prepared => rw [metas]; exact kept.prepared
  case apart => exact .inl rfl
  case memory =>
    intro entry member
    rw [Store.swap] at member
    split_ifs at member with ready
    · exact kept.memory entry (mem_append_left _ member)
    · exact kept.memory entry member
  case filled =>
    intro table flushing
    rw [Store.swap] at flushing
    split_ifs at flushing with ready
    · obtain rfl := Option.some.inj flushing
      exact ready.2
    · exact kept.filled table flushing

theorem retire : Kept choice { m with flush := .idle } tables where
  __ := kept
  named _ member := by cases member
  apart := .inl rfl

theorem name (now : Nat) (timely : m.clock < now) (alone : m.compact.merging = false) :
    Kept choice { m with flush := .named now, clock := now } tables where
  __ := kept
  clocked info member := (kept.clocked info member).trans timely.le
  named ts member := by
    obtain rfl := Option.some.inj member
    exact ⟨le_rfl, fun info inside => (kept.clocked info inside).trans_lt timely⟩
  mergeNamed ts member := (kept.mergeNamed ts member).trans timely.le
  apart := .inr alone

theorem drop :
    Kept choice { m with store := { m.store with dirty := none }, flush := .idle } tables where
  __ := kept
  named _ member := by cases member
  apart := .inl rfl
  memory entry member := by
    rcases mem_append.mp member with inActive | none
    · exact kept.memory entry (mem_append_left _ inActive)
    · cases none
  filled _ flushing := by cases flushing

end

/-- A new file, of a flush or of a merge. -/
structure Fresh (choice : BloomChoice) (m : Machine) (tables : List StoredTable) (level ts : Nat)
    (table : MemTable) : Prop where
  stored : Stored choice (m.store.install choice level ts table.entries).metas
    (m.store.install choice level ts table.entries).disk (tables ++ [⟨level, ts, table⟩])
  ordered : Ordered (tables ++ [⟨level, ts, table⟩])
  present : ∀ info ∈ (m.store.install choice level ts table.entries).metas,
    (m.store.install choice level ts table.entries).disk.lookup info.ts = none →
      m.compact.removed = some info.ts
  gone : ∀ old ∈ m.compact.removed,
    (m.store.install choice level ts table.entries).disk.lookup old = none ∧
      ∃ info ∈ (m.store.install choice level ts table.entries).metas, info.ts = old
  clocked : ∀ info ∈ (m.store.install choice level ts table.entries).metas, info.ts ≤ m.clock

theorem fresh (kept : Kept choice m tables) (level ts : Nat) (table : MemTable)
    (fit : TableFits table.entries) (named : ts ≤ m.clock)
    (later : ∀ info ∈ m.store.metas, info.ts < ts) : Fresh choice m tables level ts table where
  stored := kept.stored.install level ts table fit (fun info member => (later info member).ne)
    fun t member => (later t.info (kept.stored.info_mem t member)).ne
  ordered := by
    apply pairwise_append.mpr
    refine ⟨kept.ordered, pairwise_singleton _ _, fun t member other here => ?_⟩
    rw [mem_singleton.mp here]
    exact later t.info (kept.stored.info_mem t member)
  present := by
    intro info member absent
    rcases mem_append.mp member with old | here
    · apply kept.present info old
      rw [← absent]
      exact (lookup_insert_of_ne _ _ _ _ (later info old).ne).symm
    · rw [mem_singleton.mp here] at absent
      exact absurd ((lookup_insert_self _ _ _).symm.trans absent) nofun
  gone := by
    intro old removed
    obtain ⟨absent, info, member, same⟩ := kept.gone old removed
    refine ⟨?_, info, mem_append_left _ member, same⟩
    rw [← absent]
    exact lookup_insert_of_ne _ _ _ _ (same ▸ (later info member).ne)
  clocked := forall_mem_append.mpr ⟨kept.clocked, forall_mem_singleton.mpr named⟩

theorem prepared_append {metas more : List FileMeta} {tables new : List StoredTable}
    {compact : CompactState} (prepared : Prepared metas tables compact)
    (settled : compact.merging = false) : Prepared (metas ++ more) (tables ++ new) compact := by
  cases compact with
  | idle | looking => trivial
  | listed | merged => cases settled
  | deleting | removing =>
    obtain ⟨sources, shape, inside⟩ := prepared
    exact ⟨sources, shape, inside.trans (sublist_append_left _ _)⟩

section

variable (kept : Kept choice m tables)
include kept

theorem dirty_fits (table : MemTable)
    (flushing : m.store.dirty = some table) (roomy : m.store.size < 2 ^ 40) : TableFits table.entries := by
  have shape : m.store.dirtyEntries = table.entries := by rw [Store.dirtyEntries, flushing]; rfl
  constructor
  case nonempty => exact kept.filled table flushing
  case fits =>
    intro entry member
    exact kept.memory entry (mem_append_right _ (shape ▸ member))
  case small =>
    rw [Store.size, shape] at roomy
    omega

theorem installFlush (ts : Nat) (table : MemTable)
    (named : m.flush = .named ts) (fit : TableFits table.entries) :
    Kept choice { m with store := m.store.install choice 0 ts table.entries, flush := .installed }
      (tables ++ [⟨0, ts, table⟩]) := by
  have name : ts ∈ m.flush.name := by rw [named]; rfl
  obtain ⟨clocked, later⟩ := kept.named ts name
  have alone : m.compact.merging = false :=
    kept.apart.resolve_left fun none => by rw [named] at none; cases none
  have fresh := kept.fresh 0 ts table fit clocked later
  exact { fresh, kept with
    named := fun _ member => by cases member
    prepared := prepared_append kept.prepared alone
    apart := .inl rfl }

theorem settle (compact : CompactState)
    (settled : m.compact.removed = none) (removed : compact.removed = none)
    (unnamed : compact.name = none) (prepared : Prepared m.store.metas tables compact)
    (apart : m.flush.name = none ∨ compact.merging = false) :
    Kept choice { m with compact := compact } tables where
  __ := kept
  present info member absent := by
    have pending := kept.present info member absent
    rw [settled] at pending
    cases pending
  gone ts member := by
    rw [removed] at member
    cases member
  mergeNamed ts member := by
    rw [unnamed] at member
    cases member
  prepared := prepared
  apart := apart

theorem list (level : Nat) (looking : m.compact = .looking level) (alone : m.flush.name = none) :
    Kept choice { m with compact := .listed level (m.store.levelFiles level) } tables := by
  have settled : m.compact.removed = none := by rw [looking]; rfl
  apply kept.settle _ settled rfl rfl
  · rw [Prepared, Store.levelFiles, kept.metas_eq settled, filter_map]
    rfl
  · exact .inl alone

theorem merge (now level : Nat) (files : List FileMeta)
    (entries : List LogEntry) (listed : m.compact = .listed level files)
    (merged : m.store.mergeFiles files = some entries) (timely : m.clock < now)
    (roomy : m.store.size < 2 ^ 40) :
    Kept choice { m with compact := .merged level files now entries, clock := now } tables := by
  have prepared := kept.prepared
  rw [listed] at prepared
  have later : ∀ info ∈ m.store.metas, info.ts < now :=
    fun info member => (kept.clocked info member).trans_lt timely
  have alone : m.flush.name = none :=
    kept.apart.resolve_right fun settled => by rw [listed] at settled; cases settled
  have table : ∃ merged : MemTable, merged.entries = entries ∧
      merged.lookup = tablesLayer (tables.filter fun t => t.level = level) ∧
        TableFits merged.entries := by
    rw [show files = _ from prepared] at merged
    exact kept.stored.mergeLevel roomy level entries merged
  exact { kept with
    present := by
      intro info member absent
      have pending := kept.present info member absent
      rw [listed] at pending
      cases pending
    gone := fun ts member => by cases member
    clocked := fun info member => (later info member).le
    named := by
      intro ts member
      rw [alone] at member
      cases member
    mergeNamed := by
      intro ts member
      obtain rfl := Option.some.inj member
      exact le_rfl
    prepared := ⟨prepared, later, table⟩
    apart := .inl alone }

theorem installMerged (level : Nat) (files : List FileMeta) (ts : Nat)
    (entries : List LogEntry) (merged : m.compact = .merged level files ts entries) :
    ∃ table : MemTable, table.entries = entries ∧
      table.lookup = tablesLayer (tables.filter fun t => t.level = level) ∧
      files = (tables.filter fun t => t.level = level).map info ∧
      Kept choice { m with store := m.store.install choice (level + 1) ts entries
                           compact := .deleting level files } (tables ++ [⟨level + 1, ts, table⟩]) := by
  have prepared := kept.prepared
  rw [merged] at prepared
  obtain ⟨shape, later, table, rfl, holds, fit⟩ := prepared
  have alone : m.flush.name = none :=
    kept.apart.resolve_right fun settled => by rw [merged] at settled; cases settled
  have name : ts ∈ m.compact.name := by rw [merged]; rfl
  have fresh := kept.fresh (level + 1) ts table fit (kept.mergeNamed ts name) later
  refine ⟨table, rfl, holds, shape, ?_⟩
  exact { fresh, kept with
    present := by
      intro info member absent
      have pending := fresh.present info member absent
      rw [merged] at pending
      cases pending
    gone := fun old member => by cases member
    named := by
      intro old member
      rw [alone] at member
      cases member
    mergeNamed := fun old member => by cases member
    prepared := ⟨_, shape, filter_sublist.trans (sublist_append_left _ _)⟩
    apart := .inl alone }

theorem delete (level : Nat) (file : FileMeta) (files : List FileMeta)
    (deleting : m.compact = .deleting level (file :: files)) :
    Kept choice { m with store := m.store.deleteSSTable file.ts
                         compact := .removing level file files } (tables.filter fun t => t.ts ≠ file.ts) := by
  have prepared := kept.prepared
  rw [deleting] at prepared
  obtain ⟨sources, shape, inside⟩ := prepared
  obtain ⟨source, rest, rfl, rfl, rfl⟩ := map_eq_cons_iff.mp shape.symm
  have listed : source.info ∈ m.store.metas :=
    kept.stored.info_mem source (inside.subset (.head _))
  have others : rest.Sublist (tables.filter fun t => t.ts ≠ source.info.ts) := by
    have names := (inside.map ts).nodup kept.stored.names_nodup
    have left : (source :: rest).filter (fun t => t.ts ≠ source.info.ts) = rest := by
      rw [filter_cons_of_neg (by simp [info, fileMeta])]
      apply filter_eq_self.mpr
      intro t member
      have different := (nodup_cons.mp names).1
      rw [decide_eq_true_eq]
      exact fun same => different (mem_map.mpr ⟨t, member, same⟩)
    rw [← left]
    exact inside.filter _
  exact { kept with
    stored := kept.stored.delete _
    ordered := kept.ordered.filter _
    present := by
      intro info member absent
      change (m.store.disk.erase source.info.ts).lookup info.ts = none at absent
      rw [lookup_erase] at absent
      split_ifs at absent with same
      · exact congrArg some same.symm
      · have pending := kept.present info member absent
        rw [deleting] at pending
        cases pending
    gone := by
      intro ts member
      obtain rfl := Option.some.inj member
      exact ⟨(lookup_erase _ _ _).trans (if_pos rfl), source.info, listed, rfl⟩
    mergeNamed := fun ts member => by cases member
    prepared := ⟨rest, rfl, others⟩
    apart := .inr rfl }

theorem remove (level : Nat) (file : FileMeta) (files : List FileMeta)
    (removing : m.compact = .removing level file files) :
    Kept choice { m with store := m.store.removeMeta file.ts
                         compact := .deleting level files } tables := by
  have removed : file.ts ∈ m.compact.removed := by rw [removing]; rfl
  have prepared := kept.prepared
  rw [removing] at prepared
  exact { kept with
    stored := kept.stored.removeMeta _ (kept.gone _ removed).1
    present := by
      intro info member absent
      obtain ⟨listed, different⟩ := mem_filter.mp member
      have pending := kept.present info listed absent
      rw [removing] at pending
      exact absurd (Option.some.inj pending).symm (of_decide_eq_true different)
    gone := fun ts member => by cases member
    clocked := fun info member => kept.clocked info (mem_filter.mp member).1
    named := by
      intro ts member
      obtain ⟨clocked, later⟩ := kept.named ts member
      exact ⟨clocked, fun info inside => later info (mem_filter.mp inside).1⟩
    mergeNamed := fun ts member => by cases member
    prepared := prepared
    apart := .inr rfl }

theorem restart : Kept choice { m with
        store := ⟨SortedMap.empty, none, m.store.loadMetas, m.store.disk⟩
        flush := .idle
        compact := .idle } tables := by
  have metas := kept.stored.loadMetas kept.ordered
  constructor
  case stored =>
    rw [metas]
    exact kept.stored.listed_all
  case ordered => exact kept.ordered
  case present =>
    intro info member absent
    rw [metas] at member
    obtain ⟨t, inside, rfl⟩ := mem_map.mp member
    exact absurd ((kept.stored.lookup t inside).symm.trans absent) nofun
  case gone => exact fun ts member => by cases member
  case clocked =>
    intro info member
    rw [metas] at member
    obtain ⟨t, inside, rfl⟩ := mem_map.mp member
    exact kept.clocked t.info (kept.stored.info_mem t inside)
  case named => exact fun ts member => by cases member
  case mergeNamed => exact fun ts member => by cases member
  case prepared => trivial
  case apart => exact .inl rfl
  case memory => exact nofun
  case filled => exact fun table flushing => by cases flushing

def Tidy (threshold : Nat) (m : Machine) (input : Input) : Prop :=
  Timely m input ∧ Roomy m input ∧ Apart threshold m input
deriving Decidable

theorem flush (now : Nat) (tidy : Tidy threshold m (.flushStep now)) :
    ∃ after, Kept choice (flushStep choice now m) after := by
  obtain ⟨timely, roomy, apart⟩ := tidy
  generalize next : flushStep choice now m = after
  cases next ▸ flushStep_move choice now m with
  | stay => exact ⟨tables, kept⟩
  | swap idle => exact ⟨tables, kept.swap⟩
  | retire => exact ⟨tables, kept.retire⟩
  | name table swapped flushing nonempty => exact ⟨tables, kept.name now (timely swapped) (apart swapped)⟩
  | install ts table named flushing =>
    exact ⟨_, kept.installFlush ts table named (kept.dirty_fits table flushing roomy)⟩
  | drop installed => exact ⟨tables, kept.drop⟩

theorem look (level : Nat) (settled : m.compact.removed = none) :
    Kept choice { m with compact := .looking level } tables :=
  kept.settle _ settled rfl rfl trivial (.inr rfl)

theorem compact (now : Nat) (tidy : Tidy threshold m (.compactStep now)) :
    ∃ after, Kept choice (compactStep choice threshold now m) after := by
  obtain ⟨timely, roomy, apart⟩ := tidy
  generalize next : compactStep choice threshold now m = after
  cases next ▸ compactStep_move choice threshold now m with
  | stay => exact ⟨tables, kept⟩
  | finish settled => exact ⟨tables, kept.settle _ settled rfl rfl trivial (.inr rfl)⟩
  | look level settled => exact ⟨tables, kept.look level settled⟩
  | list level looking full =>
    exact ⟨tables, kept.list level looking (apart level (by rw [looking]; rfl) full)⟩
  | merge level files entries listed merged =>
    exact ⟨tables, kept.merge now level files entries listed merged
      (timely (by rw [listed]; rfl)) roomy⟩
  | install level files ts entries merged =>
    obtain ⟨table, _, _, _, after⟩ := kept.installMerged level files ts entries merged
    exact ⟨_, after⟩
  | delete level file files deleting => exact ⟨_, kept.delete level file files deleting⟩
  | remove level file files removing => exact ⟨tables, kept.remove level file files removing⟩

theorem step (input : Input) (tidy : Tidy threshold m input) :
    ∃ after, Kept choice (workerStep choice threshold m input) after := by
  cases input with
  | put key value => exact ⟨tables, kept.put key (some value) tidy.2.1⟩
  | delete key => exact ⟨tables, kept.put key none tidy.2.1⟩
  | flushStep now => exact kept.flush now tidy
  | compactStart =>
    rw [workerStep]
    split
    case h_1 idle => exact ⟨tables, kept.look 0 (by rw [idle]; rfl)⟩
    case h_2 => exact ⟨tables, kept⟩
  | compactStep now => exact kept.compact now tidy
  | restart => exact ⟨tables, kept.restart⟩

end

theorem run (inputs : List Input)
    (tidy : Guarded (workerStep choice threshold) (Tidy threshold) Machine.new inputs) :
    ∃ tables, Kept choice (run (workerStep choice threshold) Machine.new inputs) tables :=
  @Guarded.invariant _ _ (workerStep choice threshold) (Tidy threshold)
    (fun m => ∃ tables, Kept choice m tables)
    (fun _ input kept condition => kept.elim fun _ inner => inner.step input condition)
    Machine.new inputs ⟨[], new⟩ tidy

end Kept

end KairosFlux.Storage
