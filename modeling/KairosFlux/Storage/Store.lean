import KairosFlux.Storage.TableFile

/-! The storage engine over whole files (`storage/engine.go`, `storage/sstable_meta.go`,
`storage/sstable_write.go`): tables of several levels, named by level and timestamp, listed in the
order in which they were registered. -/

namespace KairosFlux.Storage

open Lib List Layer SortedMap

/-- A file is found under the timestamp in its name; its level is the other part of the name. -/
structure DiskFile where
  level : Nat
  bytes : Bytes

/-- Without a readable block index the largest key is unknown. -/
structure FileMeta where
  level : Nat
  ts : Nat
  minKey : Bytes
  maxKey : Option Bytes
  deriving DecidableEq

structure Store where
  active : MemTable
  dirty : Option MemTable
  metas : List FileMeta
  disk : SortedMap Nat DiskFile

def fileMeta (level ts : Nat) (entries : List LogEntry) : FileMeta :=
  ⟨level, ts, firstKey entries, some (lastKey entries)⟩

def loadFileMeta (file : Nat × DiskFile) : Option FileMeta :=
  (readMinKey file.2.bytes).map fun minKey =>
    ⟨file.2.level, file.1, minKey,
      (loadBlockIndex file.2.bytes).bind fun bi => bi.entries.getLast?.map BlockIndexEntry.lastKey⟩

namespace Store

def new : Store := ⟨SortedMap.empty, none, [], SortedMap.empty⟩

variable (s : Store)

/-- `LoadSSTableMetaList`: the files of the directory in the order of their timestamps. -/
def loadMetas : List FileMeta := s.disk.entries.filterMap loadFileMeta

/-- The store after a restart that finds its tables in memory again in the log. -/
def reordered : Store := { s with metas := s.loadMetas }

-- A filter out of range, which no written file has, counts as a miss.
def readFile (key : Bytes) (info : FileMeta) : Option (Option Bytes) :=
  if key < info.minKey then none
  else if info.maxKey.any (fun maxKey => maxKey < key) then none
  else (s.disk.lookup info.ts).bind fun file => (readTable file.bytes key).getD none

def getFromFiles (key : Bytes) : Option (Option Bytes) :=
  s.metas.reverse.findSome? (s.readFile key)

/-- `none` stands for `ErrKeyNotFound`. -/
def get (key : Bytes) : Option Bytes :=
  match s.active.lookup key with
  | some value => value
  | none =>
    match s.dirty.bind (fun table => table.lookup key) with
    | some value => value
    | none =>
      match s.getFromFiles key with
      | some value => value
      | none => none

-- A file that cannot be opened is skipped.
def fileFeed (start stop : Bytes) (info : FileMeta) : Option (Feed Bytes (Option Bytes)) :=
  if start ≠ [] ∧ info.maxKey.any (fun maxKey => maxKey < start) then none
  else if stop ≠ [] ∧ info.minKey ≠ [] ∧ stop < info.minKey then none
  else (s.disk.lookup info.ts).map fun file => tableFeed start stop file.bytes

def scanFeeds (start stop : Bytes) : List (Feed Bytes (Option Bytes)) :=
  s.metas.filterMap (s.fileFeed start stop) ++
    (s.dirty.map fun table => memFeed table start stop).toList ++ [memFeed s.active start stop]

def scanRange (start stop : Bytes) : List (Bytes × Bytes) := visited (s.scanFeeds start stop)

def dirtyEntries : List LogEntry := (s.dirty.map SortedMap.entries).getD []

/-- The bytes of the files and of the records in memory. -/
def size : Nat :=
  (s.disk.entries.map fun file => file.2.bytes.length).sum +
    (entryFormat.encodeAll s.active.entries).length + (entryFormat.encodeAll s.dirtyEntries).length

def put (key : Bytes) (value : Option Bytes) : Store :=
  { s with active := s.active.insert key value }

def swap : Store :=
  if s.dirty.isNone ∧ s.active.entries ≠ [] then
    { s with active := SortedMap.empty, dirty := some s.active }
  else s

def install (choice : BloomChoice) (level ts : Nat) (entries : List LogEntry) : Store :=
  { s with
    metas := s.metas ++ [fileMeta level ts entries]
    disk := s.disk.insert ts ⟨level, tableBytes choice ts entries⟩ }

def levelFiles (level : Nat) : List FileMeta := s.metas.filter fun info => info.level = level

/-- The entries that `MergeSSTable` writes, the later file winning. A file that cannot be opened, an
error of an iterator and an empty result give none. -/
def mergeFiles (files : List FileMeta) : Option (List LogEntry) :=
  (files.mapM fun info => (s.disk.lookup info.ts).map fun file => iterateFrom file.bytes 0).bind
    fun feeds =>
      let merged := KWayMerge.merge feeds
      if merged.2 ∨ merged.1 = [] then none else some merged.1

def deleteSSTable (ts : Nat) : Store := { s with disk := s.disk.erase ts }

-- No two listed files have one name.
def removeMeta (ts : Nat) : Store := { s with metas := s.metas.filter fun info => info.ts ≠ ts }

def reclaimFile (bound : Bytes) (info : FileMeta) : Store :=
  if info.maxKey.any (fun maxKey => maxKey < bound) then (s.deleteSSTable info.ts).removeMeta info.ts
  else s

def reclaimUpTo (bound : Bytes) : Store :=
  if bound = [] then s else s.metas.foldl (fun store info => store.reclaimFile bound info) s

theorem get_put (key query : Bytes) (value : Option Bytes) :
    (s.put key value).get query = if query = key then value else s.get query := by
  rw [get, put, lookup_insert]
  split_ifs <;> rfl

end Store

open Store

theorem readMinKey_append (data tail key : Bytes) (read : readMinKey data = some key) :
    readMinKey (data ++ tail) = some key := by
  rw [readMinKey] at read
  split_ifs at read with short
  have long : 4 ≤ data.length := not_lt.mp short
  simp only at read
  split_ifs at read with cut
  rw [readMinKey, if_neg (by rw [length_append]; omega), take_append_of_le_length long,
    drop_append_of_le_length long]
  rw [if_neg (by rw [length_append]; omega), take_append_of_le_length (not_lt.mp cut)]
  exact read

theorem getLast_blockIndexOf (table : MemTable) (fit : TableFits table.entries) :
    (blockIndexOf table.entries).entries.getLast?.map BlockIndexEntry.lastKey =
      some (lastKey table.entries) := by
  have nonempty := tableBlocks_ne_nil table fit
  obtain ⟨front, last, split⟩ : ∃ front last, tableBlocks table.entries = front ++ [last] :=
    ⟨_, _, (dropLast_append_getLast nonempty).symm⟩
  have lastIn : last ∈ tableBlocks table.entries := by
    rw [split]
    exact mem_append_right _ (.head _)
  have whole : table.entries = front.flatten ++ last := by
    rw [← flatten_tableBlocks table.entries, split, flatten_append, flatten_singleton]
  obtain ⟨entry, ending⟩ := Option.ne_none_iff_exists'.mp
    (mt List.getLast?_eq_none_iff.mp (blocksOf_ne_nil _ _ last lastIn))
  have key : lastKey table.entries = lastKey last := by
    rw [lastKey, lastKey, whole, List.getLast?_append, ending, Option.some_or]
  rw [blockIndexOf, split, indexFrom_append, indexFrom, indexFrom, map_append, map_singleton,
    List.getLast?_concat, Option.map_some, key]

variable {Value Item : Type}

theorem findSome?_filter (test : Item → Bool) (pick : Item → Option Value)
    (items : List Item) (refused : ∀ item ∈ items, test item = false → pick item = none) :
    (items.filter test).findSome? pick = items.findSome? pick := by
  induction items with
  | nil => rfl
  | cons item items ih =>
    have rest := ih fun other member => refused other (.tail _ member)
    cases kept : test item with
    | true => rw [filter_cons_of_pos kept, List.findSome?_cons, List.findSome?_cons, rest]
    | false =>
      rw [filter_cons_of_neg (by simp [kept]), List.findSome?_cons,
        refused item (.head _) kept, rest]

theorem findSome?_congr (left right : Item → Option Value) (items : List Item)
    (same : ∀ item ∈ items, left item = right item) :
    items.findSome? left = items.findSome? right := by
  induction items with
  | nil => rfl
  | cons item items ih =>
    rw [List.findSome?_cons, List.findSome?_cons, same item (.head _),
      ih fun other member => same other (.tail _ member)]

theorem zipIdx_map_fst (items : List Item) (f : Item → Value) :
    items.map f = items.zipIdx.map fun numbered => f numbered.1 := by
  nth_rewrite 1 [← List.zipIdx_map_fst 0 items]
  rw [map_map]
  rfl

structure StoredTable where
  level : Nat
  ts : Nat
  table : MemTable

namespace StoredTable

def info (t : StoredTable) : FileMeta := fileMeta t.level t.ts t.table.entries

def file (choice : BloomChoice) (t : StoredTable) : Nat × DiskFile :=
  (t.ts, ⟨t.level, tableBytes choice t.ts t.table.entries⟩)

end StoredTable

open StoredTable

def Ordered (tables : List StoredTable) : Prop :=
  tables.Pairwise fun left right => left.ts < right.ts

/-- The files on disk are complete, and `tables` are those that are listed, in the order of the
list. -/
structure Stored (choice : BloomChoice) (metas : List FileMeta) (disk : SortedMap Nat DiskFile)
    (tables : List StoredTable) : Prop where
  files : disk.entries.Perm (tables.map (file choice))
  listed : metas.filter (fun info => (disk.lookup info.ts).isSome) = tables.map info
  fits : ∀ t ∈ tables, TableFits t.table.entries

namespace Stored

variable {choice : BloomChoice} {metas : List FileMeta} {disk : SortedMap Nat DiskFile}
  {tables : List StoredTable} {s : Store}

section

variable (stored : Stored choice metas disk tables)
include stored

theorem lookup (t : StoredTable) (member : t ∈ tables) :
    disk.lookup t.ts = some ⟨t.level, tableBytes choice t.ts t.table.entries⟩ := by
  rw [← mem_entries_iff, stored.files.mem_iff]
  exact mem_map_of_mem member

theorem mem_of_lookup (ts : Nat)
    (present : (disk.lookup ts).isSome = true) : ∃ t ∈ tables, t.ts = ts := by
  obtain ⟨file, found⟩ := Option.isSome_iff_exists.mp present
  rw [← mem_entries_iff, stored.files.mem_iff] at found
  obtain ⟨t, member, same⟩ := mem_map.mp found
  exact ⟨t, member, congrArg Prod.fst same⟩

theorem info_mem (t : StoredTable) (member : t ∈ tables) : t.info ∈ metas := by
  have listed : t.info ∈ tables.map info := mem_map_of_mem member
  rw [← stored.listed] at listed
  exact (mem_filter.mp listed).1

theorem names_nodup : (tables.map ts).Nodup := by
  have names : (disk.entries.map Prod.fst).Nodup := by
    rw [List.Nodup, pairwise_map]
    exact disk.sorted.imp fun less => less.ne
  have same := (stored.files.map Prod.fst).nodup_iff.mp names
  rw [map_map] at same
  exact same

theorem ts_inj {left right : StoredTable}
    (leftIn : left ∈ tables) (rightIn : right ∈ tables) (same : left.ts = right.ts) :
    left = right :=
  inj_on_of_nodup_map stored.names_nodup leftIn rightIn same

end

theorem loadFileMeta_file (t : StoredTable) (fit : TableFits t.table.entries) :
    loadFileMeta (t.file choice) = some t.info := by
  have minKey : readMinKey (tableBytes choice t.ts t.table.entries) =
      some (firstKey t.table.entries) := by
    obtain ⟨first, rest, shape⟩ := exists_cons_of_ne_nil fit.nonempty
    have front := readMinKey_encodeAll first rest (fit.fits first (shape ▸ (.head _))).1
    rw [tableBytes, shape]
    exact readMinKey_append _ _ _ front
  rw [loadFileMeta, file, minKey, loadBlockIndex_tableBytes choice t.ts t.table fit]
  simp only [Option.map_some, Option.bind_some, getLast_blockIndexOf t.table fit]
  rfl

/-- The same store without levels, index and filter, its files numbered in the order of the list. -/
def engine (_ : Stored choice s.metas s.disk tables) : Engine :=
  ⟨s.active, s.dirty, tables.zipIdx.map fun numbered => tableMeta numbered.2 numbered.1.table.entries,
    ⟨tables.zipIdx.map fun numbered => (numbered.2, tableFile numbered.1.table.entries), by
      have numbers : (tables.zipIdx.map Prod.snd).Pairwise (· < ·) := by
        rw [List.zipIdx_map_snd]
        exact List.pairwise_lt_range'
      rw [List.pairwise_map] at numbers ⊢
      exact numbers⟩⟩

variable (stored : Stored choice s.metas s.disk tables) (key : Bytes)

theorem onDisk :
    OnDisk stored.engine (tables.zipIdx.map fun numbered => (numbered.2, numbered.1.table)) where
  metas := by rw [engine, map_map]; rfl
  disk := by rw [engine, map_map]; rfl
  written := by
    intro file member
    obtain ⟨numbered, inside, rfl⟩ := mem_map.mp member
    have fit := stored.fits numbered.1 (fst_mem_of_mem_zipIdx inside)
    exact ⟨fit.nonempty, fit.fits⟩

theorem readFile_info (stored : Stored choice s.metas s.disk tables) (t : StoredTable)
    (member : t ∈ tables) (key : Bytes) : s.readFile key t.info = t.table.lookup key := by
  rw [readFile, info, fileMeta]
  split_ifs with below above
  · exact (lookup_eq_none_of_lt_firstKey t.table key below).symm
  · rw [Option.any_some, decide_eq_true_eq] at above
    exact (lookup_eq_none_of_lastKey_lt t.table key above).symm
  · rw [stored.lookup t member, Option.bind_some,
      readTable_tableBytes choice t.ts t.table (stored.fits t member) key, Option.getD_some]

theorem getFromFiles_eq : s.getFromFiles key = stored.engine.getFromSSTables key := by
  have absent : ∀ info ∈ s.metas.reverse, (s.disk.lookup info.ts).isSome = false →
      s.readFile key info = none := by
    intro info _ gone
    rw [readFile, Option.isSome_eq_false_iff.mp gone |> Option.isNone_iff_eq_none.mp,
      Option.bind_none, ite_self, ite_self]
  calc
    s.getFromFiles key
      = (s.metas.filter fun info => (s.disk.lookup info.ts).isSome).reverse.findSome?
          (s.readFile key) := by
        rw [getFromFiles, ← filter_reverse, findSome?_filter _ _ _ absent]
    _ = tables.zipIdx.reverse.findSome? fun numbered => s.readFile key numbered.1.info := by
        rw [stored.listed, zipIdx_map_fst tables info, ← map_reverse, List.findSome?_map]
        rfl
    _ = tables.zipIdx.reverse.findSome? fun numbered =>
          stored.engine.readMeta key (tableMeta numbered.2 numbered.1.table.entries) := by
        apply findSome?_congr
        intro numbered member
        have inside := mem_reverse.mp member
        exact (stored.readFile_info numbered.1 (fst_mem_of_mem_zipIdx inside) key).trans
          (stored.onDisk.readMeta (numbered.2, numbered.1.table)
            (mem_map_of_mem inside) key).symm
    _ = stored.engine.getFromSSTables key := by
        rw [Engine.getFromSSTables, engine, ← map_reverse, List.findSome?_map]
        rfl

theorem get_eq : s.get key = stored.engine.get key := by
  rw [Store.get, Engine.get, stored.getFromFiles_eq]
  rfl

theorem fileFeed_info (numbered : StoredTable × Nat)
    (member : numbered ∈ tables.zipIdx) (start stop : Bytes) :
    s.fileFeed start stop numbered.1.info =
      stored.engine.fileFeed start stop (tableMeta numbered.2 numbered.1.table.entries) := by
  obtain ⟨t, number⟩ := numbered
  have inside : t ∈ tables := fst_mem_of_mem_zipIdx member
  have engineFile : stored.engine.disk.lookup number = some (tableFile t.table.entries) := by
    rw [← mem_entries_iff]
    exact mem_map_of_mem member
  have feed : tableFeed start stop (tableBytes choice t.ts t.table.entries) =
      rangeFeed start stop false (entryFormat.records (tableFile t.table.entries).data) := by
    rw [tableFeed_tableBytes choice t.ts t.table (stored.fits t inside), tableFile,
      records_encodeAll_entries _ (stored.fits t inside).fits]
  rw [fileFeed, Engine.fileFeed, info, fileMeta, tableMeta, engineFile,
    stored.lookup t inside, Option.map_some, Option.map_some, feed, Option.any_some]
  simp only [decide_eq_true_eq]

theorem scanFeeds_eq (start stop : Bytes) :
    s.scanFeeds start stop = stored.engine.scanFeeds start stop := by
  have absent : ∀ info ∈ s.metas, (s.disk.lookup info.ts).isSome = false →
      s.fileFeed start stop info = none := by
    intro info _ gone
    rw [fileFeed, Option.isSome_eq_false_iff.mp gone |> Option.isNone_iff_eq_none.mp,
      Option.map_none, ite_self, ite_self]
  have files : s.metas.filterMap (s.fileFeed start stop) =
      stored.engine.metas.filterMap (stored.engine.fileFeed start stop) := by
    calc
      s.metas.filterMap (s.fileFeed start stop)
        = (s.metas.filter fun info => (s.disk.lookup info.ts).isSome).filterMap
            (s.fileFeed start stop) := by
          rw [filterMap_filter]
          apply filterMap_congr
          intro info member
          split_ifs with present
          · rfl
          · exact absent info member (Bool.not_eq_true _ ▸ present)
      _ = tables.zipIdx.filterMap fun numbered => s.fileFeed start stop numbered.1.info := by
          rw [stored.listed, zipIdx_map_fst tables info, filterMap_map]
          rfl
      _ = tables.zipIdx.filterMap fun numbered =>
            stored.engine.fileFeed start stop (tableMeta numbered.2 numbered.1.table.entries) :=
          filterMap_congr fun numbered member => stored.fileFeed_info numbered member start stop
      _ = stored.engine.metas.filterMap (stored.engine.fileFeed start stop) := by
          rw [engine, filterMap_map]
          rfl
  rw [scanFeeds, Engine.scanFeeds, files]
  rfl

end Stored

def Store.memLayer (s : Store) : Layer Bytes (Option Bytes) :=
  above s.active.lookup fun key => s.dirty.bind fun table => table.lookup key

def tablesLayer (tables : List StoredTable) : Layer Bytes (Option Bytes) :=
  stack (tables.map fun t => t.table.lookup)

theorem tablesLayer_snoc (tables : List StoredTable) (t : StoredTable) :
    tablesLayer (tables ++ [t]) = above t.table.lookup (tablesLayer tables) := by
  rw [tablesLayer, map_append]
  exact stack_snoc _ _

namespace Stored

variable {choice : BloomChoice} {metas : List FileMeta} {disk : SortedMap Nat DiskFile}
  {tables : List StoredTable} {s : Store}

theorem diskLayer (stored : Stored choice s.metas s.disk tables) :
    stored.engine.diskLayer = tablesLayer tables := by
  rw [stored.onDisk.diskLayer, map_map, tablesLayer, zipIdx_map_fst tables fun t => t.table.lookup]
  rfl

theorem get_layer (stored : Stored choice s.metas s.disk tables) (key : Bytes) :
    s.get key = (above s.memLayer (tablesLayer tables) key).join := by
  rw [stored.get_eq, Engine.get_eq, Engine.view, stored.diskLayer]
  rfl

theorem empty : Stored choice [] SortedMap.empty [] :=
  ⟨List.Perm.refl _, rfl, nofun⟩

theorem install (stored : Stored choice metas disk tables) (level ts : Nat) (table : MemTable)
    (fit : TableFits table.entries) (newName : ∀ info ∈ metas, info.ts ≠ ts)
    (newFile : ∀ t ∈ tables, t.ts ≠ ts) :
    Stored choice (metas ++ [fileMeta level ts table.entries])
      (disk.insert ts ⟨level, tableBytes choice ts table.entries⟩) (tables ++ [⟨level, ts, table⟩]) := by
  constructor
  case files =>
    have absent : ∀ file ∈ disk.entries, file.1 ≠ ts := by
      intro file member
      rw [stored.files.mem_iff] at member
      obtain ⟨t, inside, rfl⟩ := mem_map.mp member
      exact newFile t inside
    rw [map_append]
    exact (insertIn_perm _ _ _ absent).trans
      ((stored.files.cons _).trans (perm_append_singleton _ _).symm)
  case listed =>
    have old : metas.filter (fun info =>
        ((disk.insert ts ⟨level, tableBytes choice ts table.entries⟩).lookup info.ts).isSome) =
          metas.filter fun info => (disk.lookup info.ts).isSome := by
      apply filter_congr
      intro info member
      rw [lookup_insert_of_ne _ _ _ _ (newName info member)]
    rw [filter_append, old, stored.listed, map_append]
    simp [fileMeta, info]
  case fits => exact forall_mem_append.mpr ⟨stored.fits, forall_mem_singleton.mpr fit⟩

theorem delete (stored : Stored choice metas disk tables) (ts : Nat) :
    Stored choice metas (disk.erase ts) (tables.filter fun t => t.ts ≠ ts) := by
  constructor
  case files =>
    have filtered := stored.files.filter fun file => file.1 ≠ ts
    rw [filter_map] at filtered
    exact filtered
  case listed =>
    have present : metas.filter (fun info => ((disk.erase ts).lookup info.ts).isSome) =
        (metas.filter fun info => (disk.lookup info.ts).isSome).filter fun info => info.ts ≠ ts := by
      rw [filter_filter]
      apply filter_congr
      intro info _
      rw [lookup_erase]
      split_ifs with same <;> simp [same]
    rw [present, stored.listed, filter_map]
    rfl
  case fits => exact fun t member => stored.fits t (mem_filter.mp member).1

theorem removeMeta (stored : Stored choice metas disk tables) (ts : Nat)
    (gone : disk.lookup ts = none) :
    Stored choice (metas.filter fun info => info.ts ≠ ts) disk tables := by
  refine ⟨stored.files, ?_, stored.fits⟩
  rw [filter_filter, ← stored.listed]
  apply filter_congr
  intro info _
  by_cases same : info.ts = ts
  · simp [same, gone]
  · simp [same]

theorem loadMetas (stored : Stored choice s.metas s.disk tables) (ordered : Ordered tables) :
    s.loadMetas = tables.map info := by
  have same : s.disk.entries = tables.map (file choice) := by
    have sorted : (tables.map (file choice)).Pairwise KeyLt := by
      rw [pairwise_map]
      exact ordered
    exact stored.files.eq_of_pairwise
      (fun _ _ _ _ less more => absurd (lt_trans less more) (lt_irrefl _)) s.disk.sorted sorted
  rw [Store.loadMetas, same, filterMap_map, ← filterMap_eq_map]
  exact filterMap_congr fun t member => loadFileMeta_file t (stored.fits t member)

theorem listed_all (stored : Stored choice metas disk tables) :
    Stored choice (tables.map info) disk tables := by
  refine ⟨stored.files, ?_, stored.fits⟩
  apply filter_eq_self.mpr
  intro info member
  obtain ⟨t, inside, rfl⟩ := mem_map.mp member
  rw [info, fileMeta, stored.lookup t inside]
  rfl

theorem dataSize_le (stored : Stored choice metas disk tables) :
    (tables.map fun t => (entryFormat.encodeAll t.table.entries).length).sum ≤
      (disk.entries.map fun file => file.2.bytes.length).sum := by
  rw [(stored.files.map fun file => file.2.bytes.length).sum_eq, map_map]
  apply sum_le_sum
  intro t _
  simp only [Function.comp_apply, file, tableBytes, length_append]
  exact Nat.le_add_right _ _

section

variable (sources : List StoredTable) (fits : ∀ t ∈ sources, TableFits t.table.entries)
include sources fits

theorem mergeFeeds (onDisk : ∀ t ∈ sources, s.disk.lookup t.ts =
      some ⟨t.level, tableBytes choice t.ts t.table.entries⟩) :
    ((sources.map info).mapM fun info =>
      (s.disk.lookup info.ts).map fun file => iterateFrom file.bytes 0) =
        some (sources.map fun t => (⟨t.table.entries, false⟩ : Feed Bytes (Option Bytes))) := by
  induction sources with
  | nil => rfl
  | cons t sources ih =>
    have rest := ih (forall_mem_of_forall_mem_cons fits)
      (forall_mem_of_forall_mem_cons onDisk)
    have found : s.disk.lookup t.info.ts = _ := onDisk t (.head _)
    rw [map_cons, mapM_cons, rest, found, Option.map_some,
      iterateFrom_zero_tableBytes choice t.ts t.table (fits t (.head _))]
    rfl

omit fits in
theorem mem_of_tablesLayer (key : Bytes) (value : Option Bytes)
    (held : tablesLayer sources key = some value) :
    ∃ t ∈ sources, (key, value) ∈ t.table.entries := by
  obtain ⟨layer, member, here⟩ := exists_of_stack _ key value held
  obtain ⟨t, inside, rfl⟩ := mem_map.mp member
  exact ⟨t, inside, (t.table.mem_entries_iff key value).mpr here⟩

theorem fits_merged
    (small : (sources.map fun t => (entryFormat.encodeAll t.table.entries).length).sum < 2 ^ 40)
    (merged : MemTable) (holds : merged.lookup = tablesLayer sources) (filled : merged.entries ≠ []) :
    TableFits merged.entries := by
  have origin : ∀ entry ∈ merged.entries, ∃ t ∈ sources, entry ∈ t.table.entries := by
    intro entry member
    apply mem_of_tablesLayer sources entry.1 entry.2
    rw [← holds]
    exact (merged.mem_entries_iff entry.1 entry.2).mp member
  have size : (entryFormat.encodeAll merged.entries).length ≤
      (entryFormat.encodeAll (sources.flatMap fun t => t.table.entries)).length := by
    apply entryFormat.length_encodeAll_le_of_subset
    · exact merged.sorted.imp fun less same => absurd (same ▸ less) (lt_irrefl _)
    · exact fun entry member => mem_flatMap.mpr (origin entry member)
  have total : (entryFormat.encodeAll (sources.flatMap fun t => t.table.entries)).length =
      (sources.map fun t => (entryFormat.encodeAll t.table.entries).length).sum := by
    clear small holds origin size fits
    induction sources with
    | nil => rfl
    | cons t sources ih =>
      rw [flatMap_cons, entryFormat.encodeAll_append, length_append, ih, map_cons, sum_cons]
  refine ⟨filled, fun entry member => ?_, by omega⟩
  obtain ⟨t, inside, here⟩ := origin entry member
  exact (fits t inside).fits entry here

theorem mergeFiles (onDisk : ∀ t ∈ sources, s.disk.lookup t.ts =
      some ⟨t.level, tableBytes choice t.ts t.table.entries⟩) (nonempty : sources ≠ []) :
    ∃ merged : MemTable, s.mergeFiles (sources.map info) = some merged.entries ∧
      merged.lookup = tablesLayer sources ∧ merged.entries ≠ [] := by
  let feeds : List (Feed Bytes (Option Bytes)) := sources.map fun t => ⟨t.table.entries, false⟩
  have sound : ∀ feed ∈ feeds, feed.Sound := by
    intro feed member
    obtain ⟨t, _, rfl⟩ := mem_map.mp member
    exact ⟨t.table.sorted, rfl⟩
  obtain ⟨whole, sorted, layers⟩ := KWayMerge.merge_spec feeds sound
  have holds : ofEntries (KWayMerge.merge feeds).1 = tablesLayer sources := by
    rw [layers, tablesLayer, map_map]
    rfl
  have filled : (KWayMerge.merge feeds).1 ≠ [] := by
    intro none
    obtain ⟨t, rest, rfl⟩ := exists_cons_of_ne_nil nonempty
    obtain ⟨entry, more, shape⟩ :=
      exists_cons_of_ne_nil (fits t (.head _)).nonempty
    have speaks : t.table.lookup entry.1 ≠ Option.none := by
      rw [(t.table.mem_entries_iff entry.1 entry.2).mp (shape ▸ (.head _))]
      nofun
    have silent : tablesLayer (t :: rest) entry.1 = Option.none := by
      rw [← holds, none]
      rfl
    exact stack_ne_none _ t.table.lookup (.head _) entry.1 speaks silent
  refine ⟨⟨(KWayMerge.merge feeds).1, sorted⟩, ?_, holds, filled⟩
  have clean : ¬ ((KWayMerge.merge feeds).2 = true ∨ (KWayMerge.merge feeds).1 = []) := by
    rw [whole]
    simpa using filled
  rw [Store.mergeFiles, mergeFeeds sources fits onDisk, Option.bind_some]
  exact if_neg clean

end

theorem mergeLevel (stored : Stored choice s.metas s.disk tables) (roomy : s.size < 2 ^ 40)
    (level : Nat) (entries : List LogEntry)
    (merged : s.mergeFiles ((tables.filter fun t => t.level = level).map info) =
      some entries) :
    ∃ table : MemTable, table.entries = entries ∧
      table.lookup = tablesLayer (tables.filter fun t => t.level = level) ∧
      TableFits table.entries := by
  have nonempty : (tables.filter fun t => t.level = level) ≠ [] := by
    intro none
    rw [none] at merged
    cases merged
  have small : ((tables.filter fun t => t.level = level).map fun t =>
      (entryFormat.encodeAll t.table.entries).length).sum < 2 ^ 40 := by
    have part : ((tables.filter fun t => t.level = level).map fun t =>
        (entryFormat.encodeAll t.table.entries).length).sum ≤
          (tables.map fun t => (entryFormat.encodeAll t.table.entries).length).sum :=
      (filter_sublist.map _).sum_le_sum fun _ _ => Nat.zero_le _
    have whole := stored.dataSize_le
    rw [size] at roomy
    omega
  have inside : ∀ t ∈ tables.filter fun t => t.level = level, t ∈ tables :=
    fun t member => (mem_filter.mp member).1
  have fits := fun t member => stored.fits t (inside t member)
  obtain ⟨found, result, holds, filled⟩ := mergeFiles _ fits
    (fun t member => stored.lookup t (inside t member)) nonempty
  rw [result] at merged
  exact ⟨found, Option.some.inj merged, holds, fits_merged _ fits small found holds filled⟩

end Stored

end KairosFlux.Storage
