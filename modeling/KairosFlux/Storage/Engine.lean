import KairosFlux.Lib.Overlay
import KairosFlux.Storage.SSTable

/-! The storage engine (`storage/engine.go`, `storage/sstable_meta.go`): the table that takes the
writes, the table being flushed and the files on disk. A skip list is the sorted map it keeps. -/

namespace KairosFlux.Storage

open Lib List Layer SortedMap

abbrev MemTable := SortedMap Bytes (Option Bytes)

structure SSTableFile where
  data : Bytes
  lastKey : Bytes

structure SSTableMeta where
  ts : Nat
  minKey : Bytes
  maxKey : Bytes
  deriving DecidableEq

/-- `metas` is in the order of `AddMeta`. A file is found under the timestamp in its name. -/
structure Engine where
  active : MemTable
  dirty : Option MemTable
  metas : List SSTableMeta
  disk : SortedMap Nat SSTableFile

def firstKey (entries : List LogEntry) : Bytes := (entries.head?.map Prod.fst).getD []

def lastKey (entries : List LogEntry) : Bytes := (entries.getLast?.map Prod.fst).getD []

def tableFile (entries : List LogEntry) : SSTableFile :=
  ⟨entryFormat.encodeAll entries, lastKey entries⟩

def tableMeta (ts : Nat) (entries : List LogEntry) : SSTableMeta :=
  ⟨ts, firstKey entries, lastKey entries⟩

/-- The key at the start of a data section, as `LoadSSTableMetaList` reads it. -/
def readMinKey (data : Bytes) : Option Bytes :=
  if data.length < 4 then none
  else
    let kLen := beValue (data.take 4)
    if (data.drop 4).length < kLen then none else some ((data.drop 4).take kLen)

-- The upper bound is the last key of the block index.
def loadMeta (file : Nat × SSTableFile) : Option SSTableMeta :=
  (readMinKey file.2.data).map fun minKey => ⟨file.1, minKey, file.2.lastKey⟩

namespace Engine

/-- `NewEngine` over the files of its directory, ordered by their timestamps. -/
def new (disk : SortedMap Nat SSTableFile) : Engine :=
  ⟨SortedMap.empty, none, disk.entries.filterMap loadMeta, disk⟩

variable (e : Engine)

def readMeta (key : Bytes) (info : SSTableMeta) : Option (Option Bytes) :=
  if key < info.minKey then none
  else if info.maxKey < key then none
  else (e.disk.lookup info.ts).bind fun file => readFromSSTable file.data key

-- From the newest to the oldest file.
def getFromSSTables (key : Bytes) : Option (Option Bytes) :=
  e.metas.reverse.findSome? (e.readMeta key)

/-- `none` stands for `ErrKeyNotFound`. -/
def get (key : Bytes) : Option Bytes :=
  match e.active.lookup key with
  | some value => value
  | none =>
    match e.dirty.bind (fun table => table.lookup key) with
    | some value => value
    | none =>
      match e.getFromSSTables key with
      | some value => value
      | none => none

-- The nil slice as a value is stored like a deletion.
def put (key : Bytes) (value : Option Bytes) : Engine :=
  { e with active := e.active.insert key value }

def delete (key : Bytes) : Engine := { e with active := e.active.insert key none }

/-- The first half of `Flush`, under the lock. -/
def swap : Engine :=
  if e.dirty.isNone ∧ e.active.entries ≠ [] then
    { e with active := SortedMap.empty, dirty := some e.active }
  else e

/-- The second half of `Flush`: the file is written, registered, and the table dropped. -/
def flushDirty (ts : Nat) : Engine :=
  match e.dirty with
  | none => e
  | some table =>
    if table.entries = [] then e
    else
      { e with
        dirty := none
        metas := e.metas ++ [tableMeta ts table.entries]
        disk := e.disk.insert ts (tableFile table.entries) }

/-- `append([]byte(nil), val...)` of an empty slice is the nil slice. -/
def copyValue : Option Bytes → Option Bytes
  | some [] => none
  | value => value

/-- The rounds of the merge loop until the entry `a` of the active table is taken. -/
def takeActive (a : LogEntry) (continued : List LogEntry → List LogEntry) :
    List LogEntry → List LogEntry
  | [] => a :: continued []
  | d :: rest =>
    if a.1 < d.1 then a :: continued (d :: rest)
    else if d.1 < a.1 then d :: takeActive a continued rest
    else a :: continued rest

def mergeLive : List LogEntry → List LogEntry → List LogEntry
  | [], dirty => dirty
  | a :: active, dirty => takeActive a (mergeLive active) dirty

def dirtyEntries : List LogEntry := (e.dirty.map SortedMap.entries).getD []

def snapshotLive : List LogEntry :=
  (mergeLive e.active.entries e.dirtyEntries).map fun entry => (entry.1, copyValue entry.2)

variable (active : List LogEntry) (key : Bytes) (dirty : List LogEntry) (value : Option Bytes) (entry : LogEntry)

theorem mem_mergeLive
    (member : entry ∈ mergeLive active dirty) : entry ∈ active ∨ entry ∈ dirty := by
  induction active generalizing dirty with
  | nil => exact .inr member
  | cons a active ih =>
    rw [mergeLive] at member
    induction dirty with
    | nil =>
      rcases mem_cons.mp member with rfl | later
      · exact .inl (.head _)
      · exact (ih [] later).imp_left (mem_cons_of_mem a)
    | cons d dirty inner =>
      rw [takeActive] at member
      split_ifs at member with before after
      · rcases mem_cons.mp member with rfl | later
        · exact .inl (.head _)
        · exact (ih (d :: dirty) later).imp_left (mem_cons_of_mem a)
      · rcases mem_cons.mp member with rfl | later
        · exact .inr (.head _)
        · exact (inner later).imp_right (mem_cons_of_mem d)
      · rcases mem_cons.mp member with rfl | later
        · exact .inl (.head _)
        · exact (ih dirty later).imp (mem_cons_of_mem a) (mem_cons_of_mem d)

theorem mergeLive_sorted (activeSorted : active.Pairwise KeyLt)
    (dirtySorted : dirty.Pairwise KeyLt) : (mergeLive active dirty).Pairwise KeyLt := by
  induction active generalizing dirty with
  | nil => exact dirtySorted
  | cons a active ih =>
    obtain ⟨aFirst, activeTail⟩ := pairwise_cons.mp activeSorted
    induction dirty with
    | nil =>
      apply pairwise_cons.mpr
      refine ⟨fun other member => ?_, ih [] activeTail List.Pairwise.nil⟩
      rcases mem_mergeLive active [] other member with inActive | inDirty
      · exact aFirst other inActive
      · cases inDirty
    | cons d dirty inner =>
      obtain ⟨dFirst, dirtyTail⟩ := pairwise_cons.mp dirtySorted
      rw [mergeLive, takeActive]
      split_ifs with before after
      · apply pairwise_cons.mpr
        refine ⟨fun other member => ?_, ih (d :: dirty) activeTail dirtySorted⟩
        rcases mem_mergeLive active (d :: dirty) other member with inActive | inDirty
        · exact aFirst other inActive
        · rcases mem_cons.mp inDirty with rfl | later
          · exact before
          · exact before.trans (dFirst other later)
      · apply pairwise_cons.mpr
        refine ⟨fun other member => ?_, inner dirtyTail⟩
        rcases mem_mergeLive (a :: active) dirty other member with inActive | inDirty
        · rcases mem_cons.mp inActive with rfl | later
          · exact after
          · exact after.trans (aFirst other later)
        · exact dFirst other inDirty
      · have same : a.1 = d.1 := le_antisymm (not_lt.mp after) (not_lt.mp before)
        apply pairwise_cons.mpr
        refine ⟨fun other member => ?_, ih dirty activeTail dirtyTail⟩
        rcases mem_mergeLive active dirty other member with inActive | inDirty
        · exact aFirst other inActive
        · exact same.trans_lt (dFirst other inDirty)

theorem ofEntries_mergeLive (activeSorted : active.Pairwise KeyLt) :
    ofEntries (mergeLive active dirty) =
      above (ofEntries active) (ofEntries dirty) := by
  induction active generalizing dirty with
  | nil => rfl
  | cons a active ih =>
    obtain ⟨aFirst, activeTail⟩ := pairwise_cons.mp activeSorted
    induction dirty with
    | nil =>
      rw [mergeLive, takeActive, ofEntries_cons, ih [] activeTail, ofEntries_cons, above_assoc]
    | cons d dirty inner =>
      rw [mergeLive, takeActive]
      split_ifs with before after
      · rw [ofEntries_cons, ih (d :: dirty) activeTail, ofEntries_cons a active,
          above_assoc]
      · have silent : ofEntries (a :: active) d.1 = none := by
          apply lookupIn_eq_none
          intro other member
          rcases mem_cons.mp member with rfl | later
          · exact after.ne'
          · exact (after.trans (aFirst other later)).ne'
        rw [mergeLive] at inner
        rw [ofEntries_cons, inner, ofEntries_cons d dirty]
        exact above_single_comm _ _ _ _ silent
      · have same : a.1 = d.1 := le_antisymm (not_lt.mp after) (not_lt.mp before)
        rw [ofEntries_cons, ih dirty activeTail, ofEntries_cons a active,
          ofEntries_cons d dirty, above_assoc, ← same]
        apply above_single_congr
        intro query different
        rw [above, above, above_single_of_ne _ _ _ _ different]

theorem flushDirty_cases (ts : Nat) :
    e.flushDirty ts = e ∨ ∃ table, e.dirty = some table ∧ table.entries ≠ [] ∧
      e.flushDirty ts = { e with
        dirty := none
        metas := e.metas ++ [tableMeta ts table.entries]
        disk := e.disk.insert ts (tableFile table.entries) } := by
  rw [flushDirty]
  cases e.dirty with
  | none => exact .inl rfl
  | some table =>
    by_cases empty : table.entries = []
    · exact .inl (if_pos empty)
    · exact .inr ⟨table, rfl, empty, if_neg empty⟩

def memEntries : List LogEntry := e.active.entries ++ e.dirtyEntries

theorem mem_memEntries_put (member : entry ∈ (e.put key value).memEntries) :
    entry = (key, value) ∨ entry ∈ e.memEntries := by
  rcases mem_append.mp member with inActive | inDirty
  · rcases mem_insertIn key value e.active.entries entry inActive with here | old
    · exact .inl here
    · exact .inr (mem_append_left _ old)
  · exact .inr (mem_append_right _ inDirty)

theorem mem_memEntries_swap (member : entry ∈ e.swap.memEntries) : entry ∈ e.memEntries := by
  rw [swap] at member
  split_ifs at member
  · exact mem_append_left _ member
  · exact member

theorem mem_memEntries_flushDirty (ts : Nat) (entry : LogEntry)
    (member : entry ∈ (e.flushDirty ts).memEntries) : entry ∈ e.memEntries := by
  rcases e.flushDirty_cases ts with same | ⟨table, _, _, next⟩
  · exact same ▸ member
  · rw [next] at member
    rcases mem_append.mp member with inActive | inDirty
    · exact mem_append_left _ inActive
    · cases inDirty

theorem dirty_subset_memEntries (table : MemTable) (flushing : e.dirty = some table) :
    ∀ entry ∈ table.entries, entry ∈ e.memEntries := by
  intro entry member
  apply mem_append_right
  rw [dirtyEntries, flushing]
  exact member

def dirtyLayer : Layer Bytes (Option Bytes) := fun key => e.dirty.bind fun table => table.lookup key

def memLayer : Layer Bytes (Option Bytes) := above e.active.lookup e.dirtyLayer

def diskLayer : Layer Bytes (Option Bytes) := e.getFromSSTables

def view : Layer Bytes (Option Bytes) := above e.memLayer e.diskLayer

theorem dirtyLayer_of_dirty {table : MemTable} (flushing : e.dirty = some table) :
    e.dirtyLayer = table.lookup := by
  funext key
  rw [dirtyLayer, flushing]
  rfl

theorem dirtyEntries_sorted : e.dirtyEntries.Pairwise KeyLt := by
  rw [dirtyEntries]
  cases e.dirty with
  | none => exact List.Pairwise.nil
  | some table => exact table.sorted

theorem ofEntries_dirtyEntries : ofEntries e.dirtyEntries = e.dirtyLayer := by
  funext key
  rw [dirtyEntries, dirtyLayer]
  cases e.dirty with
  | none | some => rfl

theorem get_eq : e.get key = (e.view key).join := by
  rw [get, view, memLayer, above_assoc]
  simp only [above, dirtyLayer, diskLayer]
  cases e.active.lookup key with
  | some value => rfl
  | none =>
    cases e.dirty.bind fun table => table.lookup key with
    | some value => rfl
    | none => cases e.getFromSSTables key <;> rfl

theorem lookup_insert_layer (table : MemTable) (key : Bytes) (value : Option Bytes) :
    (table.insert key value).lookup = above (single key value) table.lookup := by
  funext query
  rw [lookup_insert]
  by_cases same : query = key
  · rw [if_pos same, same, above_single_self]
  · rw [if_neg same, above_single_of_ne _ _ _ _ same]

theorem memLayer_put : (e.put key value).memLayer = above (single key value) e.memLayer := by
  rw [memLayer, memLayer, ← above_assoc, ← lookup_insert_layer]
  rfl

theorem view_put : (e.put key value).view = above (single key value) e.view := by
  rw [view, memLayer_put, above_assoc]
  rfl

@[simp] theorem diskLayer_put : (e.put key value).diskLayer = e.diskLayer := rfl

theorem memLayer_swap : e.swap.memLayer = e.memLayer := by
  rw [swap]
  split_ifs with ready
  · have idle : e.dirty = none := Option.isNone_iff_eq_none.mp ready.1
    have silent : e.dirtyLayer = Layer.empty := by
      funext key
      rw [dirtyLayer, idle]
      rfl
    have before : e.memLayer = e.active.lookup := by rw [memLayer, silent, above_empty]
    rw [before]
    rfl
  · rfl

@[simp] theorem diskLayer_swap : e.swap.diskLayer = e.diskLayer := by
  rw [swap]
  split_ifs <;> rfl

end Engine

theorem lookup_eq_none_of_lt_firstKey (table : MemTable) (key : Bytes)
    (below : key < firstKey table.entries) : table.lookup key = none := by
  apply lookupIn_eq_none
  intro entry member same
  have sorted := table.sorted
  cases shape : table.entries with
  | nil => simp [shape] at member
  | cons first rest =>
    rw [shape] at member below sorted
    rcases mem_cons.mp member with here | later
    · rw [← same, here] at below
      exact lt_irrefl _ below
    · have above : first.1 < entry.1 := (pairwise_cons.mp sorted).1 entry later
      rw [same] at above
      exact lt_irrefl _ (below.trans above)

theorem lookup_eq_none_of_lastKey_lt (table : MemTable) (key : Bytes)
    (above : lastKey table.entries < key) : table.lookup key = none := by
  apply lookupIn_eq_none
  intro entry member same
  have sorted := table.sorted
  rcases eq_nil_or_concat table.entries with empty | ⟨front, last, shape⟩
  · simp [empty] at member
  · rw [concat_eq_append] at shape
    rw [shape] at member above sorted
    have bound : last.1 < key := by simpa [lastKey] using above
    rcases mem_append.mp member with earlier | here
    · have below : entry.1 < last.1 :=
        (pairwise_append.mp sorted).2.2 entry earlier last (.head _)
      rw [same] at below
      exact lt_irrefl _ (below.trans bound)
    · rw [← same, mem_singleton.mp here] at bound
      exact lt_irrefl _ bound

theorem readMinKey_encodeAll (first : LogEntry) (rest : List LogEntry)
    (small : first.1.length < 2 ^ 32) :
    readMinKey (entryFormat.encodeAll (first :: rest)) = some first.1 := by
  have shape : entryFormat.encodeAll (first :: rest) = beBytes 4 first.1.length ++
      (first.1 ++ (encodeValue first.2 ++ entryFormat.encodeAll rest)) := by
    rw [entryFormat.encodeAll_cons, show entryFormat.encode first = encodeEntry first from rfl,
      encodeEntry, append_assoc, append_assoc]
  generalize encodeValue first.2 ++ entryFormat.encodeAll rest = behind at shape
  have front : (beBytes 4 first.1.length).length = 4 := beBytes_length 4 _
  have long : ¬ (beBytes 4 first.1.length ++ (first.1 ++ behind)).length < 4 := by
    rw [length_append, front]
    omega
  have inside : ¬ (first.1 ++ behind).length < first.1.length := by
    rw [length_append]
    omega
  rw [shape, readMinKey, if_neg long]
  simp only [take_left' front, drop_left' front, beValue_u32 _ small, if_neg inside, take_left]

theorem loadMeta_tableFile (ts : Nat) (entries : List LogEntry) (nonempty : entries ≠ [])
    (small : (firstKey entries).length < 2 ^ 32) :
    loadMeta (ts, tableFile entries) = some (tableMeta ts entries) := by
  obtain ⟨first, rest, rfl⟩ := exists_cons_of_ne_nil nonempty
  simp only [loadMeta, tableFile, readMinKey_encodeAll first rest small, Option.map_some]
  rfl

/-- The files of an engine are written tables, listed and named in the order of their timestamps. -/
structure OnDisk (e : Engine) (files : List (Nat × MemTable)) : Prop where
  metas : e.metas = files.map fun file => tableMeta file.1 file.2.entries
  disk : e.disk.entries = files.map fun file => (file.1, tableFile file.2.entries)
  written : ∀ file ∈ files, file.2.entries ≠ [] ∧ ∀ entry ∈ file.2.entries, EntryFits entry

namespace OnDisk

variable {e : Engine} {files : List (Nat × MemTable)}

theorem readMeta (onDisk : OnDisk e files) (file : Nat × MemTable) (member : file ∈ files)
    (key : Bytes) : e.readMeta key (tableMeta file.1 file.2.entries) = file.2.lookup key := by
  have found : e.disk.lookup file.1 = some (tableFile file.2.entries) := by
    rw [← mem_entries_iff, onDisk.disk]
    exact mem_map_of_mem member
  rw [Engine.readMeta]
  by_cases below : key < firstKey file.2.entries
  · rw [tableMeta, if_pos below, lookup_eq_none_of_lt_firstKey file.2 key below]
  · by_cases above : lastKey file.2.entries < key
    · rw [tableMeta, if_neg below, if_pos above, lookup_eq_none_of_lastKey_lt file.2 key above]
    · rw [tableMeta, if_neg below, if_neg above, found]
      exact readFromSSTable_encodeAll file.2 key (onDisk.written file member).2

theorem diskLayer (onDisk : OnDisk e files) :
    e.diskLayer = stack (files.map fun file => file.2.lookup) := by
  funext key
  have answers : ∀ file ∈ files.reverse,
      e.readMeta key (tableMeta file.1 file.2.entries) = file.2.lookup key :=
    fun file member => onDisk.readMeta file (mem_reverse.mp member) key
  calc
    e.diskLayer key =
        (files.reverse.map fun file => e.readMeta key (tableMeta file.1 file.2.entries)).findSome?
          id := by
      rw [Engine.diskLayer, Engine.getFromSSTables, onDisk.metas, ← map_reverse,
        List.findSome?_map, List.findSome?_map]
      rfl
    _ = (files.reverse.map fun file => file.2.lookup key).findSome? id := by
      rw [map_congr_left answers]
    _ = stack (files.map fun file => file.2.lookup) key := by
      rw [stack_eq_findSome, ← map_reverse, List.findSome?_map, List.findSome?_map]
      rfl

theorem new (onDisk : OnDisk e files) : OnDisk (Engine.new e.disk) files where
  __ := onDisk
  metas := by
    rw [Engine.new, onDisk.disk, filterMap_map, ← filterMap_eq_map]
    apply filterMap_congr
    intro file member
    obtain ⟨nonempty, fits⟩ := onDisk.written file member
    apply loadMeta_tableFile file.1 file.2.entries nonempty
    obtain ⟨first, rest, shape⟩ := exists_cons_of_ne_nil nonempty
    rw [shape]
    exact (fits first (shape ▸ (.head _))).1

theorem view_new (onDisk : OnDisk e files) : (Engine.new e.disk).view = e.diskLayer := by
  rw [onDisk.diskLayer, ← onDisk.new.diskLayer]
  rfl

theorem empty : OnDisk (Engine.new SortedMap.empty) [] where
  metas := rfl
  disk := rfl
  written _ member := nomatch member

theorem put (onDisk : OnDisk e files) (key : Bytes) (value : Option Bytes) :
    OnDisk (e.put key value) files :=
  ⟨onDisk.metas, onDisk.disk, onDisk.written⟩

theorem swap (onDisk : OnDisk e files) : OnDisk e.swap files := by
  rw [Engine.swap]
  split_ifs
  · exact ⟨onDisk.metas, onDisk.disk, onDisk.written⟩
  · exact onDisk

/-- A flush moves a layer from the memory to the files and changes nothing else. -/
theorem flushDirty (onDisk : OnDisk e files) (ts : Nat)
    (later : ∀ file ∈ e.disk.entries, file.1 < ts)
    (fits : ∀ table, e.dirty = some table → ∀ entry ∈ table.entries, EntryFits entry) :
    ∃ after moved, OnDisk (e.flushDirty ts) after ∧
      (e.flushDirty ts).diskLayer = above moved e.diskLayer ∧
      e.memLayer = above (e.flushDirty ts).memLayer moved := by
  rcases e.flushDirty_cases ts with same | ⟨table, flushing, nonempty, next⟩
  · rw [same]
    exact ⟨files, Layer.empty, onDisk, rfl, (above_empty e.memLayer).symm⟩
  · have after : OnDisk (e.flushDirty ts) (files ++ [(ts, table)]) := by
      rw [next]
      constructor
      case metas => simp only [onDisk.metas, map_append, map_cons, map_nil]
      case disk =>
        have last := insertIn_last ts (tableFile table.entries) _ later
        rw [onDisk.disk] at last
        simp only [SortedMap.insert, onDisk.disk, last, map_append, map_cons, map_nil]
      case written =>
        exact forall_mem_append.mpr
          ⟨onDisk.written, forall_mem_singleton.mpr ⟨nonempty, fits table flushing⟩⟩
    refine ⟨files ++ [(ts, table)], table.lookup, after, ?_, ?_⟩
    · rw [after.diskLayer, onDisk.diskLayer, map_append]
      exact stack_snoc _ _
    · have left : (e.flushDirty ts).memLayer = e.active.lookup := by
        rw [next]
        exact above_empty _
      rw [left, Engine.memLayer, e.dirtyLayer_of_dirty flushing]

end OnDisk

end KairosFlux.Storage
