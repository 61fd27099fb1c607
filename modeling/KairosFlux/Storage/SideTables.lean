import KairosFlux.Storage.Recency

/-! Tables that are written past the active one (`FlushToSSTable` in `storage/engine.go`), as the
replay of a snapshot does. -/

namespace KairosFlux.Storage

open Lib List Layer

/-- The skip list of `FlushToSSTable`. -/
def temporaryTable (entries : List LogEntry) : MemTable :=
  entries.foldl (fun table entry => table.insert entry.1 entry.2) SortedMap.empty

-- The table does not pass through the active one.
def Store.flushToSSTable (s : Store) (choice : BloomChoice) (ts : Nat) (entries : List LogEntry) :
    Store :=
  if entries = [] then s
  else
    let sorted := (temporaryTable entries).entries
    if sorted = [] then s else s.install choice 0 ts sorted

/-- What a list of writes leaves, the last one on top. -/
def writesLayer (entries : List LogEntry) : Layer Bytes (Option Bytes) :=
  stack (entries.map fun entry => single entry.1 entry.2)

theorem writesLayer_append (earlier later : List LogEntry) :
    writesLayer (earlier ++ later) = above (writesLayer later) (writesLayer earlier) := by
  rw [writesLayer, map_append, stack_append]
  rfl

variable (entries : List LogEntry)

theorem writesLayer_snoc (entry : LogEntry) : writesLayer (entries ++ [entry]) =
      above (single entry.1 entry.2) (writesLayer entries) := by
  rw [writesLayer, map_append]
  exact stack_snoc _ _

theorem writesLayer_ne_none (key : Bytes) :
    writesLayer entries key ≠ none ↔ ∃ entry ∈ entries, entry.1 = key := by
  constructor
  · intro speaks
    rcases Option.ne_none_iff_exists'.mp speaks with ⟨value, said⟩
    rcases exists_of_stack _ _ _ said with ⟨layer, member, here⟩
    rcases mem_map.mp member with ⟨entry, inside, rfl⟩
    refine ⟨entry, inside, ?_⟩
    by_contra different
    rw [single, if_neg (Ne.symm different)] at here
    cases here
  · rintro ⟨entry, inside, rfl⟩
    apply stack_ne_none _ _ (mem_map_of_mem inside)
    simp [single]

theorem lookup_temporaryTable : (temporaryTable entries).lookup = writesLayer entries := by
  induction entries using List.reverseRecOn with
  | nil => rfl
  | append_singleton entries entry ih =>
    rw [temporaryTable, foldl_append, foldl_cons, foldl_nil, ← temporaryTable,
      Engine.lookup_insert_layer, ih, writesLayer_snoc]

theorem Store.memLayer_put (s : Store) (key : Bytes) (value : Option Bytes) :
    (s.put key value).memLayer = above (single key value) s.memLayer := by
  rw [Store.memLayer, Store.memLayer, ← above_assoc, ← Engine.lookup_insert_layer]
  rfl

/-- The table that is written has room in its file. -/
def Sized (entries : List LogEntry) : Prop :=
  (∀ entry ∈ (temporaryTable entries).entries, EntryFits entry) ∧
    (entryFormat.encodeAll (temporaryTable entries).entries).length < 2 ^ 40
deriving Decidable

theorem Store.flushToSSTable_eq (s : Store) (choice : BloomChoice) (ts : Nat)
    (entries : List LogEntry) :
    s.flushToSSTable choice ts entries = if (temporaryTable entries).entries = [] then s
      else s.install choice 0 ts (temporaryTable entries).entries := by
  rw [Store.flushToSSTable]
  by_cases none : entries = []
  · subst none
    rfl
  · rw [if_neg none]

theorem get_flushToSSTable_new (choice : BloomChoice) (ts : Nat) (entries : List LogEntry)
    (sized : Sized entries) (key : Bytes) :
    (Store.new.flushToSSTable choice ts entries).get key = (writesLayer entries key).join := by
  rw [Store.flushToSSTable_eq, ← lookup_temporaryTable]
  split_ifs with nothing
  · have silent : (temporaryTable entries).lookup key = none := by
      rw [SortedMap.lookup, nothing]
      rfl
    rw [silent]
    rfl
  · have fit : TableFits (temporaryTable entries).entries := ⟨nothing, sized.1, sized.2⟩
    have empty : Stored choice [] SortedMap.empty [] := Stored.empty
    have stored := empty.install 0 ts (temporaryTable entries) fit
      (by simp) (by simp)
    have read : (Store.new.install choice 0 ts (temporaryTable entries).entries).get key = _ :=
      Stored.get_layer stored key
    rw [read, tablesLayer_snoc]
    exact congrArg Option.join (congrFun (above_empty (temporaryTable entries).lookup) key)

/-! Next to the flush worker. A table is built, gets the name of its file, and is registered; what is
written in between goes to the tables in memory. -/

inductive SideTable
  | waiting (entries : List LogEntry)
  | named (ts : Nat) (entries : List LogEntry)
  deriving DecidableEq

def SideTable.name : SideTable → Option Nat
  | .waiting _ => none
  | .named ts _ => some ts

structure SideMachine where
  machine : Machine
  side : List SideTable

namespace SideMachine

def new : SideMachine := ⟨Machine.new, []⟩

variable (choice : BloomChoice) (s : SideMachine)

def sideStep (place now : Nat) : SideMachine :=
  match s.side[place]? with
  | none => s
  | some (.waiting entries) =>
    if (temporaryTable entries).entries = [] then { s with side := s.side.eraseIdx place }
    else ⟨{ s.machine with clock := now }, s.side.set place (.named now entries)⟩
  | some (.named ts entries) =>
    ⟨{ s.machine with
        store := s.machine.store.install choice 0 ts (temporaryTable entries).entries },
      s.side.eraseIdx place⟩

/-- The names of the files that are there or will be. -/
def names : List Nat :=
  s.machine.store.metas.map FileMeta.ts ++ s.machine.flush.name.toList ++
    s.side.filterMap SideTable.name

variable {choice s}

/-- Without anything in between, a table is written as `FlushToSSTable` does it. -/
theorem sideStep_sideStep (place now : Nat) (entries : List LogEntry)
    (waiting : s.side[place]? = some (.waiting entries))
    (filled : (temporaryTable entries).entries ≠ []) :
    ((s.sideStep choice place now).sideStep choice place now).machine.store =
      s.machine.store.flushToSSTable choice now entries := by
  have inside : place < s.side.length := (List.getElem?_eq_some_iff.mp waiting).1
  have first : s.sideStep choice place now =
      ⟨{ s.machine with clock := now }, s.side.set place (.named now entries)⟩ := by
    rw [sideStep, waiting]
    exact if_neg filled
  have second : (s.side.set place (.named now entries))[place]? = some (.named now entries) :=
    List.getElem?_set_self inside
  rw [first, sideStep]
  simp only [second]
  rw [Store.flushToSSTable_eq, if_neg filled]

end SideMachine

open SideMachine

/-- The files are complete and have names of their own, and what is read are the values of the
`history`, also without the table that a flush has just written. -/
structure Shelved (choice : BloomChoice) (s : SideMachine) (tables : List StoredTable)
    (history : Layer Bytes (Option Bytes)) : Prop where
  stored : Stored choice s.machine.store.metas s.machine.store.disk tables
  listed : s.machine.store.metas = tables.map StoredTable.info
  distinct : s.names.Nodup
  clocked : ∀ ts ∈ s.names, ts ≤ s.machine.clock
  memory : ∀ entry ∈ s.machine.store.active.entries ++ s.machine.store.dirtyEntries, EntryFits entry
  filled : ∀ table, s.machine.store.dirty = some table → table.entries ≠ []
  built : ∀ ts entries, .named ts entries ∈ s.side → (temporaryTable entries).entries ≠ []
  view : Layer.SameReads (above s.machine.store.memLayer (tablesLayer tables)) history
  covered : s.machine.flush = .installed →
    Layer.SameReads (above s.machine.store.active.lookup (tablesLayer tables)) history

/-- A table that is registered now has for each key the value that is read, or the key is in a table
in memory that is not in a file yet. -/
def Unnoticed (m : Machine) (history : Layer Bytes (Option Bytes)) (entries : List LogEntry) : Prop :=
  ∀ entry ∈ (temporaryTable entries).entries,
    entry.2 = (history entry.1).join ∨ m.store.active.lookup entry.1 ≠ none ∨
      m.flush ≠ .installed ∧ (m.store.dirty.bind fun table => table.lookup entry.1) ≠ none

namespace Shelved

variable {choice : BloomChoice} {s : SideMachine} {tables : List StoredTable}
  {history : Layer Bytes (Option Bytes)}

theorem new : Shelved choice new [] Layer.empty where
  stored := Stored.empty
  listed := rfl
  distinct := nodup_nil
  clocked _ member := nomatch member
  memory _ member := nomatch member
  filled _ flushing := by cases flushing
  built _ _ member := nomatch member
  view _ := rfl
  covered installed := by cases installed

section

variable (shelved : Shelved choice s tables history)
include shelved

theorem get (key : Bytes) : s.machine.store.get key = (history key).join :=
  (shelved.stored.get_layer key).trans (shelved.view key)

theorem put (key : Bytes) (value : Option Bytes)
    (fits : EntryFits (key, value)) :
    Shelved choice { s with machine := { s.machine with store := s.machine.store.put key value } }
      tables (above (single key value) history) where
  __ := shelved
  memory entry member := by
    rcases mem_append.mp member with inActive | inDirty
    · rcases SortedMap.mem_insertIn key value _ entry inActive with rfl | old
      · exact fits
      · exact shelved.memory entry (mem_append_left _ old)
    · exact shelved.memory entry (mem_append_right _ inDirty)
  view := by
    rw [Store.memLayer_put, above_assoc]
    exact shelved.view.above_single key value
  covered installed := by
    have same := (shelved.covered installed).above_single key value
    rw [← above_assoc, ← Engine.lookup_insert_layer] at same
    exact same

theorem install (ts : Nat) (table : MemTable)
    (fit : TableFits table.entries) (fresh : ts ∉ s.machine.store.metas.map FileMeta.ts) :
    Stored choice (s.machine.store.install choice 0 ts table.entries).metas
        (s.machine.store.install choice 0 ts table.entries).disk (tables ++ [⟨0, ts, table⟩]) ∧
      (s.machine.store.install choice 0 ts table.entries).metas =
        List.map StoredTable.info (tables ++ [⟨0, ts, table⟩]) := by
  have other : ∀ info ∈ s.machine.store.metas, info.ts ≠ ts := by
    intro info member same
    exact fresh (same ▸ mem_map_of_mem member)
  refine ⟨shelved.stored.install 0 ts table fit other fun t member => ?_, ?_⟩
  · exact other t.info (shelved.listed ▸ mem_map_of_mem member)
  · rw [map_append, ← shelved.listed]
    rfl

end

variable {after : SideMachine}

section

variable (shelved : Shelved choice s tables history)
include shelved

theorem names_subperm
    (fewer : after.names.Subperm s.names) (clock : s.machine.clock = after.machine.clock) :
    after.names.Nodup ∧ ∀ ts ∈ after.names, ts ≤ after.machine.clock := by
  rcases fewer with ⟨kept, perm, sublist⟩
  exact ⟨perm.nodup_iff.mp (shelved.distinct.sublist sublist), fun ts member =>
    clock ▸ shelved.clocked ts (sublist.subset (perm.mem_iff.mpr member))⟩

theorem names_new {now : Nat}
    (later : s.machine.clock < now) (perm : after.names.Perm (now :: s.names))
    (clock : after.machine.clock = now) :
    after.names.Nodup ∧ ∀ ts ∈ after.names, ts ≤ after.machine.clock := by
  have fresh : now ∉ s.names := fun member => absurd (shelved.clocked now member) (by omega)
  refine ⟨perm.nodup_iff.mpr (nodup_cons.mpr ⟨fresh, shelved.distinct⟩), fun ts member => ?_⟩
  rw [clock]
  rcases mem_cons.mp (perm.mem_iff.mp member) with rfl | old
  · exact le_rfl
  · exact (shelved.clocked ts old).trans later.le

theorem memory_swap :
    (∀ entry ∈ s.machine.store.swap.active.entries ++ s.machine.store.swap.dirtyEntries,
      EntryFits entry) ∧
    ∀ table, s.machine.store.swap.dirty = some table → table.entries ≠ [] := by
  rw [Store.swap]
  split_ifs with ready
  · refine ⟨fun entry member => ?_, fun table flushing => ?_⟩
    · exact shelved.memory entry (mem_append_left _ member)
    · rw [← Option.some.inj flushing]
      exact ready.2
  · exact ⟨shelved.memory, shelved.filled⟩

end

theorem swap_files (store : Store) :
    store.swap.metas = store.metas ∧ store.swap.disk = store.disk := by
  rw [Store.swap]
  split_ifs <;> exact ⟨rfl, rfl⟩

theorem names_idle {m : Machine} {side : List SideTable} (after : Machine)
    (files : after.store.metas = m.store.metas) (idle : after.flush = .idle) :
    (names ⟨after, side⟩).Subperm (names ⟨m, side⟩) := by
  simp only [names, files, idle]
  exact (((Sublist.refl _).append (nil_sublist _)).append (Sublist.refl _)).subperm

theorem flush (shelved : Shelved choice s tables history) (now : Nat)
    (timely : Timely s.machine (.flushStep now)) (roomy : Roomy s.machine (.flushStep now)) :
    ∃ after, Shelved choice { s with machine := flushStep choice now s.machine } after history := by
  rcases s with ⟨m, side⟩
  generalize next : flushStep choice now m = moved
  cases next ▸ flushStep_move choice now m with
  | stay => exact ⟨tables, shelved⟩
  | swap idle =>
    rcases swap_files m.store with ⟨metas, disk⟩
    rcases shelved.memory_swap with ⟨memory, filled⟩
    have sameNames : names ⟨{ m with store := m.store.swap, flush := .swapped }, side⟩ =
        names ⟨m, side⟩ := by
      simp only [names, metas, idle, FlushState.name]
    rcases shelved.names_subperm (List.Perm.of_eq sameNames).subperm rfl with ⟨distinct, clocked⟩
    refine ⟨tables, ?_, metas.trans shelved.listed, distinct, clocked, memory, filled, shelved.built, ?_,
      by simp⟩
    · rw [metas, disk]
      exact shelved.stored
    · rw [Recent.memLayer_swap]
      exact shelved.view
  | retire =>
    have fewer := shelved.names_subperm (names_idle { m with flush := .idle } rfl rfl) rfl
    exact ⟨tables, { shelved with
      distinct := fewer.1, clocked := fewer.2, covered := by simp }⟩
  | name table swapped flushing nonempty =>
    have more : (names ⟨{ m with flush := .named now, clock := now }, side⟩).Perm
        (now :: names ⟨m, side⟩) := by
      simp [names, swapped, FlushState.name]
    rcases shelved.names_new (timely swapped) more rfl with ⟨distinct, clocked⟩
    exact ⟨tables, { shelved with
      distinct := distinct, clocked := clocked, covered := by simp }⟩
  | install ts table named flushing =>
    have dirty : m.store.dirtyEntries = table.entries := by
      rw [Store.dirtyEntries, flushing]
      rfl
    have fit : TableFits table.entries := by
      refine ⟨shelved.filled table flushing, fun entry member => ?_, ?_⟩
      · exact shelved.memory entry (mem_append_right _ (dirty ▸ member))
      · have size : m.store.size < 2 ^ 40 := roomy
        rw [Store.size, dirty] at size
        omega
    have fresh : ts ∉ m.store.metas.map FileMeta.ts := by
      have apart := shelved.distinct
      simp only [names, named, FlushState.name] at apart
      intro member
      exact (nodup_append.mp (nodup_append.mp apart).1).2.2 ts member ts (by simp) rfl
    rcases shelved.install ts table fit fresh with ⟨stored, listed⟩
    have moved : (names ⟨{ m with
        store := m.store.install choice 0 ts table.entries, flush := .installed }, side⟩).Perm
        (names ⟨m, side⟩) := by
      simp [names, named, FlushState.name, Store.install, fileMeta]
    rcases shelved.names_subperm moved.subperm rfl with ⟨distinct, clocked⟩
    have memory := Recent.memLayer_flushing flushing
    have view := shelved.view
    rw [memory] at view
    refine ⟨_, stored, listed, distinct, clocked, shelved.memory, shelved.filled, shelved.built, ?_,
      fun _ => ?_⟩
    · change Layer.SameReads (above m.store.memLayer _) history
      rw [tablesLayer_snoc, memory, above_assoc, above_self, ← above_assoc]
      exact view
    · rw [tablesLayer_snoc, ← above_assoc]
      exact view
  | drop installed =>
    have covered := shelved.covered installed
    have fewer := shelved.names_subperm
      (names_idle { m with store := { m.store with dirty := none }, flush := .idle } rfl rfl) rfl
    refine ⟨tables, shelved.stored, shelved.listed, fewer.1, fewer.2, fun entry member => ?_,
      by simp, shelved.built, ?_, by simp⟩
    · rcases mem_append.mp member with inActive | inDirty
      · exact shelved.memory entry (mem_append_left _ inActive)
      · cases inDirty
    · have memory : Store.memLayer { m.store with dirty := none } = m.store.active.lookup :=
        above_empty m.store.active.lookup
      rw [memory]
      exact covered

theorem side_split {side : List SideTable} {place : Nat} {table : SideTable}
    (found : side[place]? = some table) :
    ∃ front back, side = front ++ table :: back ∧ side.eraseIdx place = front ++ back ∧
      ∀ other, side.set place other = front ++ other :: back := by
  rcases List.getElem?_eq_some_iff.mp found with ⟨inside, here⟩
  refine ⟨side.take place, side.drop (place + 1), ?_, eraseIdx_eq_take_drop_succ ..,
    fun other => ?_⟩
  · rw [← here, ← drop_eq_getElem_cons inside, take_append_drop]
  · rw [set_eq_take_append_cons_drop, if_pos inside]

theorem side (shelved : Shelved choice s tables history) (place now : Nat)
    (timely : ∀ entries, s.side[place]? = some (.waiting entries) → s.machine.clock < now)
    (unnoticed : ∀ ts entries, s.side[place]? = some (.named ts entries) →
      Sized entries ∧ Unnoticed s.machine history entries) :
    ∃ after, Shelved choice (s.sideStep choice place now) after history := by
  rcases s with ⟨m, side⟩
  rw [sideStep]
  split
  case h_1 => exact ⟨tables, shelved⟩
  case h_2 entries found =>
    rcases side_split found with ⟨front, back, rfl, erased, changed⟩
    have later := timely entries found
    split_ifs with empty
    · have fewer : (names ⟨m, (front ++ .waiting entries :: back).eraseIdx place⟩).Sublist
          (names ⟨m, front ++ .waiting entries :: back⟩) :=
        (List.Sublist.refl _).append ((eraseIdx_sublist _ _).filterMap _)
      rcases shelved.names_subperm fewer.subperm rfl with ⟨distinct, clocked⟩
      refine ⟨tables, shelved.stored, shelved.listed, distinct, clocked, shelved.memory,
        shelved.filled, fun ts other member => ?_, shelved.view, shelved.covered⟩
      exact shelved.built ts other ((eraseIdx_sublist _ _).subset member)
    · simp only [changed]
      have more : (names
          ⟨{ m with clock := now }, front ++ .named now entries :: back⟩).Perm
          (now :: names ⟨m, front ++ .waiting entries :: back⟩) := by
        apply perm_iff_count.mpr
        intro name
        simp only [names, SideTable.name, filterMap_append, count_append,
          filterMap_cons, count_cons]
        omega
      rcases shelved.names_new later more rfl with ⟨distinct, clocked⟩
      refine ⟨tables, shelved.stored, shelved.listed, distinct, clocked, shelved.memory,
        shelved.filled, fun ts other member => ?_, shelved.view, shelved.covered⟩
      rcases mem_append.mp member with inFront | rest
      · exact shelved.built ts other (mem_append_left _ inFront)
      · rcases mem_cons.mp rest with same | inBack
        · cases same
          exact empty
        · exact shelved.built ts other (mem_append_right _ (.tail _ inBack))
  case h_3 ts entries found =>
    rcases side_split found with ⟨front, back, rfl, erased, _⟩
    rcases unnoticed ts entries found with ⟨sized, unseen⟩
    have filled := shelved.built ts entries (mem_append_right _ (.head _))
    have fresh : ts ∉ m.store.metas.map FileMeta.ts := by
      intro member
      exact (nodup_append.mp shelved.distinct).2.2 ts (mem_append_left _ member) ts
        (mem_filterMap.mpr ⟨_, mem_append_right _ (.head _), rfl⟩) rfl
    rcases shelved.install ts (temporaryTable entries) ⟨filled, sized.1, sized.2⟩ fresh with
      ⟨stored, listed⟩
    rw [erased]
    have moved : (names ⟨{ m with
        store := m.store.install choice 0 ts (temporaryTable entries).entries }, front ++ back⟩).Perm
        (names ⟨m, front ++ .named ts entries :: back⟩) := by
      apply perm_iff_count.mpr
      intro name
      simp only [names, SideTable.name, Store.install, fileMeta, map_append,
        map_cons, map_nil, filterMap_append, count_append, filterMap_cons,
        count_cons, count_nil]
      omega
    rcases shelved.names_subperm moved.subperm rfl with ⟨distinct, clocked⟩
    refine ⟨_, stored, listed, distinct, clocked, shelved.memory, shelved.filled,
      fun ts other member => ?_, ?_, fun installed => ?_⟩
    · exact shelved.built ts other (((sublist_cons_self _ back).append_left front).subset member)
    · rw [tablesLayer_snoc]
      refine shelved.view.insert fun key value new => ?_
      rcases unseen (key, value) ((SortedMap.mem_entries_iff _ _ _).mpr new) with read | active | dirty
      · exact .inr read
      · exact .inl fun silent => active ((above_eq_none _ _ key).mp silent).1
      · exact .inl fun silent => dirty.2 ((above_eq_none _ _ key).mp silent).2
    · rw [tablesLayer_snoc]
      refine (shelved.covered installed).insert fun key value new => ?_
      rcases unseen (key, value) ((SortedMap.mem_entries_iff _ _ _).mpr new) with read | active | dirty
      · exact .inr read
      · exact .inl active
      · exact absurd installed dirty.1

end Shelved

end KairosFlux.Storage
