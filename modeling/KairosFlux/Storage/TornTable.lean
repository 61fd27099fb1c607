import KairosFlux.Storage.Recency

/-! A table file that a crash cut off while it was written, beside complete ones. Without a footer
the data has no known end, and a reader takes the file from its start as far as it goes. -/

namespace KairosFlux.Storage

open Lib List Layer SortedMap

/-- The last bytes are taken for no footer and for no filter. -/
structure Unforged (file : Bytes) : Prop where
  footer : readFooter file = none
  bloom : loadBloom file = none

theorem scanRecords_none (fuel pos : Nat) (rest : Bytes) :
    scanRecords none fuel pos rest = entryFormat.scan fuel rest := by
  induction fuel generalizing pos rest with
  | zero => rfl
  | succ fuel ih =>
    rw [scanRecords, Framing.scan, show entryFormat.read rest = readEntry rest from rfl]
    cases readEntry rest with
    | none => rfl
    | some found => simp [ih]

theorem rangeFeed_unbounded (failed : Bool) (entries : List LogEntry) :
    rangeFeed [] [] failed entries = ⟨entries, failed⟩ := by
  induction entries with
  | nil => rfl
  | cons entry rest ih =>
    have inside : ¬ entry.1 < [] := not_lt_nil _
    simp [rangeFeed, ih, inside]

namespace Unforged

variable {file : Bytes}

section

variable (unforged : Unforged file)
include unforged

theorem loadBlockIndex : loadBlockIndex file = none := by
  rw [Storage.loadBlockIndex, unforged.footer, Option.bind_none]

theorem dataEnd : sstableDataEnd file = none := by
  rw [sstableDataEnd, unforged.footer, Option.map_none]

theorem readTable (key : Bytes) :
    readTable file key = some (lookupIn key (entryFormat.records file)) := by
  rw [Storage.readTable, unforged.bloom, unforged.loadBlockIndex, Option.elim_none, Option.map_some,
    if_pos rfl]
  simp only [readFromSSTableFull, readAllFromSSTable, unforged.dataEnd, scanRecords_none]
  rfl

theorem tableFeed : tableFeed [] [] file =
      ⟨entryFormat.records file, decide (4 ≤ (entryFormat.tornTail file).length)⟩ := by
  have seek : seekTable file [] =
      ⟨entryFormat.records file, decide (4 ≤ (entryFormat.tornTail file).length)⟩ := by
    rw [seekTable, unforged.loadBlockIndex]
    simp only [iterateFrom, unforged.dataEnd, scanRecords_none, drop_zero]
    rfl
  rw [Storage.tableFeed, seek, rangeFeed_unbounded]

theorem of_records (whole : List LogEntry) (torn : Bytes)
    (fits : ∀ entry ∈ whole, EntryFits entry) (stops : readEntry torn = none)
    (shape : file = entryFormat.encodeAll whole ++ torn) :
    Storage.tableFeed [] [] file = ⟨whole, decide (4 ≤ torn.length)⟩ ∧
      ∀ key, Storage.readTable file key = some (lookupIn key whole) := by
  rcases entryFormat.records_encodeAll whole torn fits stops with ⟨records, tail⟩
  rw [← shape, show entryFormat.readBack = id from rfl, map_id] at records
  rw [← shape] at tail
  constructor
  · rw [unforged.tableFeed, records, tail]
  · intro key
    rw [unforged.readTable, records]

end

end Unforged

theorem readEntry_of_short (bytes : Bytes) (short : bytes.length < 4) : readEntry bytes = none :=
  if_pos short

theorem readEntry_key (key more : Bytes) (n : Nat) (small : key.length < 2 ^ 32) (long : 4 ≤ n)
    (entry : LogEntry) (rest : Bytes)
    (read : readEntry ((beBytes 4 key.length ++ (key ++ more)).take n) = some (entry, rest)) :
    entry.1 = key := by
  have front : (beBytes 4 key.length ++ (key ++ more)).take n =
      beBytes 4 key.length ++ (key ++ more).take (n - 4) := by
    rw [take_append, beBytes_length, take_of_length_le (by simpa using long)]
  rw [front, readEntry_header key.length _ small, readKey] at read
  split_ifs at read with short
  have whole : ((key ++ more).take (n - 4)).take key.length = key := by
    rw [length_take] at short
    rw [take_take, Nat.min_eq_left (by omega), take_left]
  rw [whole] at read
  rw [readValue] at read
  split_ifs at read
  · cases read
    rfl
  · cases read
    rfl

theorem readMinKey_take (key more : Bytes) (n : Nat) (small : key.length < 2 ^ 32) :
    readMinKey ((beBytes 4 key.length ++ (key ++ more)).take n) =
      if n < 4 + key.length then none else some key := by
  by_cases header : n < 4
  · rw [if_pos (by omega), readMinKey, if_pos]
    rw [length_take]
    omega
  · have front : (beBytes 4 key.length ++ (key ++ more)).take n =
        beBytes 4 key.length ++ (key ++ more).take (n - 4) := by
      rw [take_append, beBytes_length, take_of_length_le (by rw [beBytes_length]; omega)]
    have width : (beBytes 4 key.length).length = 4 := beBytes_length _ _
    rw [front, readMinKey, if_neg (by simp), take_left' width, drop_left' width,
      beValue_u32 _ small]
    simp only [length_take, length_append]
    by_cases cut : n < 4 + key.length
    · rw [if_pos cut, if_pos (by omega)]
    · rw [if_neg cut, if_neg (by omega), take_take, Nat.min_eq_left (by omega), take_left]

/-- The cut lies before the end of the first key, or less than four bytes behind a whole record. -/
def CleanCut (entries : List LogEntry) (n : Nat) : Prop :=
  n < 4 + (firstKey entries).length ∨ ∃ m, (entryFormat.encodeAll (entries.take m)).length ≤ n ∧
    n < (entryFormat.encodeAll (entries.take m)).length + 4

section Cut

variable (choice : BloomChoice) (ts : Nat) (table : MemTable) (fit : TableFits table.entries)

def tornBytes (n : Nat) : Bytes := (tableBytes choice ts table.entries).take n

theorem tornBytes_of_clean (m n : Nat)
    (reached : (entryFormat.encodeAll (table.entries.take m)).length ≤ n)
    (near : n < (entryFormat.encodeAll (table.entries.take m)).length + 4) :
    ∃ torn, tornBytes choice ts table n = entryFormat.encodeAll (table.entries.take m) ++ torn ∧
      torn.length < 4 := by
  rw [tornBytes, tableBytes]
  nth_rewrite 1 [← take_append_drop m table.entries]
  rw [entryFormat.encodeAll_append, append_assoc, take_append, take_of_length_le reached]
  refine ⟨_, rfl, ?_⟩
  rw [length_take]
  omega

theorem reads_of_clean (n m : Nat) (unforged : Unforged (tornBytes choice ts table n))
    (fits : ∀ entry ∈ table.entries, EntryFits entry)
    (reached : (entryFormat.encodeAll (table.entries.take m)).length ≤ n)
    (near : n < (entryFormat.encodeAll (table.entries.take m)).length + 4) :
    tableFeed [] [] (tornBytes choice ts table n) = ⟨table.entries.take m, false⟩ ∧
      ∀ key, readTable (tornBytes choice ts table n) key =
        some (lookupIn key (table.entries.take m)) := by
  rcases tornBytes_of_clean choice ts table m n reached near with ⟨torn, shape, short⟩
  have cut := unforged.of_records (table.entries.take m) torn
    (fun entry member => fits entry (mem_of_mem_take member)) (readEntry_of_short torn short) shape
  rw [decide_eq_false (by omega)] at cut
  exact cut

theorem lookupIn_take (m : Nat) (key : Bytes) :
    lookupIn key (table.entries.take m) = none ∨
      lookupIn key (table.entries.take m) = table.lookup key := by
  cases found : lookupIn key (table.entries.take m) with
  | none => exact .inl rfl
  | some value =>
    right
    have split : table.lookup key =
        lookupIn key (table.entries.take m ++ table.entries.drop m) := by
      rw [take_append_drop]
      rfl
    rw [split, lookupIn_append, found, Option.some_or]

include fit

theorem tableBytes_front : ∃ more, tableBytes choice ts table.entries =
    beBytes 4 (firstKey table.entries).length ++ (firstKey table.entries ++ more) ∧
      (firstKey table.entries).length < 2 ^ 32 := by
  rcases exists_cons_of_ne_nil fit.nonempty with ⟨first, rest, shape⟩
  have same : firstKey table.entries = first.1 := by rw [shape]; rfl
  have front : beBytes 4 first.1.length ++ first.1 <+: tableBytes choice ts table.entries := by
    calc
      beBytes 4 first.1.length ++ first.1
        <+: encodeEntry first := by
          exact prefix_append _ _
      _ <+: entryFormat.encodeAll table.entries := by
          rw [shape, entryFormat.encodeAll_cons]
          exact prefix_append _ _
      _ <+: tableBytes choice ts table.entries := prefix_append _ _
  rcases front with ⟨more, whole⟩
  rw [same, ← whole]
  exact ⟨more, append_assoc _ _ _, (fit.fits first (shape ▸ (.head _))).1⟩

theorem writeTail_front : ∃ key more, writeTail choice ts (indexFrom 0 (tableBlocks table.entries))
    (table.entries.map Prod.fst) (entryFormat.encodeAll table.entries).length =
      beBytes 4 key.length ++ (key ++ more) ∧ ∃ entry ∈ table.entries, entry.1 = key := by
  have nonempty := tableBlocks_ne_nil table fit
  rcases exists_cons_of_ne_nil nonempty with ⟨block, blocks, shape⟩
  have inside : block ∈ tableBlocks table.entries := shape ▸ (.head _)
  rcases (isLast_lastKey block (blocksOf_ne_nil _ _ block inside) (block_sorted table block inside)).1
    with ⟨entry, member, key⟩
  have front : beBytes 4 (lastKey block).length ++ lastKey block <+:
      writeTail choice ts (indexFrom 0 (tableBlocks table.entries)) (table.entries.map Prod.fst)
        (entryFormat.encodeAll table.entries).length := by
    calc
      beBytes 4 (lastKey block).length ++ lastKey block
        <+: encodeBlockMeta ⟨lastKey block, 0⟩ := by
          exact prefix_append _ _
      _ <+: ((indexFrom 0 (tableBlocks table.entries)).map encodeBlockMeta).flatten := by
          rw [shape, indexFrom, map_cons, flatten_cons]
          exact prefix_append _ _
      _ <+: writeTail choice ts (indexFrom 0 (tableBlocks table.entries))
          (table.entries.map Prod.fst) (entryFormat.encodeAll table.entries).length :=
          prefix_append _ _
  rcases front with ⟨more, whole⟩
  refine ⟨lastKey block, more, whole.symm.trans (append_assoc _ _ _), entry, ?_, key⟩
  rw [← flatten_tableBlocks table.entries]
  exact mem_flatten.mpr ⟨block, inside, member⟩

theorem le_lastKey : ∀ entry ∈ table.entries, entry.1 ≤ lastKey table.entries :=
  (isLast_lastKey table.entries fit.nonempty table.sorted).2

/-- A cut elsewhere makes the iterator break off behind the last whole record. -/
theorem breaks_of_not_clean (n : Nat) (unforged : Unforged (tornBytes choice ts table n))
    (short : n < (tableBytes choice ts table.entries).length) (unclean : ¬ CleanCut table.entries n)
    (bound : Bytes) (above : lastKey table.entries < bound) :
    KWayMerge.Breaks bound (tableFeed [] [] (tornBytes choice ts table n)).failed none
      (tableFeed [] [] (tornBytes choice ts table n)).items := by
  have below : ∀ entry ∈ table.entries, entry.1 < bound :=
    fun entry member => (le_lastKey table fit entry member).trans_lt above
  have far : ∀ m, (entryFormat.encodeAll (table.entries.take m)).length ≤ n →
      (entryFormat.encodeAll (table.entries.take m)).length + 4 ≤ n := by
    intro m reached
    by_contra near
    exact unclean (.inr ⟨m, reached, not_le.mp near⟩)
  have size : (tornBytes choice ts table n).length = n := by
    rw [tornBytes, length_take]
    omega
  -- a file that consists of whole records and at least four more bytes that are no record
  have cut : ∀ m torn, readEntry torn = none →
      tornBytes choice ts table n = entryFormat.encodeAll (table.entries.take m) ++ torn →
        KWayMerge.Breaks bound (tableFeed [] [] (tornBytes choice ts table n)).failed none
          (tableFeed [] [] (tornBytes choice ts table n)).items := by
    intro m torn stops shape
    have long : 4 ≤ torn.length := by
      have lengths := congrArg List.length shape
      rw [size, length_append] at lengths
      have more := far m (by omega)
      omega
    have feed := (unforged.of_records _ torn
      (fun entry member => fit.fits entry (mem_of_mem_take member)) stops shape).1
    rw [feed, decide_eq_true long]
    rw [← append_nil (table.entries.take m)]
    apply KWayMerge.breaks_of_sorted
    · exact fun entry member => below entry (mem_of_mem_take member)
    · rfl
  by_cases inData : n ≤ (entryFormat.encodeAll table.entries).length
  · rcases entryFormat.take_encodeAll table.entries n fit.fits with ⟨whole, torn, front, shape, stops⟩
    rw [prefix_iff_eq_take] at front
    rw [front] at shape
    apply cut whole.length torn stops
    rw [tornBytes, tableBytes, take_append_of_le_length inData, shape]
  · have shape : tornBytes choice ts table n = entryFormat.encodeAll table.entries ++
        (writeTail choice ts (indexFrom 0 (tableBlocks table.entries)) (table.entries.map Prod.fst)
          (entryFormat.encodeAll table.entries).length).take
            (n - (entryFormat.encodeAll table.entries).length) := by
      rw [tornBytes, tableBytes, take_append, take_of_length_le (by omega)]
    rcases writeTail_front choice ts table fit with ⟨key, more, front, held, inside, same⟩
    rw [front] at shape
    have long : (entryFormat.encodeAll table.entries).length + 4 ≤ n := by
      have reached := far table.entries.length
      rw [take_length] at reached
      exact reached (by omega)
    cases read : readEntry ((beBytes 4 key.length ++ (key ++ more)).take
        (n - (entryFormat.encodeAll table.entries).length)) with
    | none =>
      apply cut table.entries.length _ read
      rw [take_length]
      exact shape
    | some found =>
      rcases found with ⟨entry, rest⟩
      have small : key.length < 2 ^ 32 := same ▸ (fit.fits held inside).1
      have again : entry.1 = key := readEntry_key key more _ small (by omega) entry rest read
      rcases entryFormat.records_append table.entries _ rest entry fit.fits read with ⟨others, records⟩
      rw [← shape, show entryFormat.readBack = id from rfl, map_id] at records
      rw [unforged.tableFeed, records]
      apply KWayMerge.breaks_of_sorted _ _ _ _ below
      left
      rw [List.getLast?_eq_some_getLast fit.nonempty]
      have top : (table.entries.getLast fit.nonempty).1 = lastKey table.entries := by
        rw [lastKey, List.getLast?_eq_some_getLast fit.nonempty]
        rfl
      simp only [Option.map_some, Option.some_or, Option.any_some, decide_eq_true_eq, top]
      rw [again, ← same]
      exact le_lastKey table fit held inside

end Cut

def Store.opened (disk : SortedMap Nat DiskFile) : Store :=
  (⟨SortedMap.empty, none, [], disk⟩ : Store).reordered

/-- Complete files around one other, in the order of their names. -/
structure Beside (choice : BloomChoice) (disk : SortedMap Nat DiskFile) (older : List StoredTable)
    (file : Nat × DiskFile) (newer : List StoredTable) : Prop where
  files : disk.entries = older.map (StoredTable.file choice) ++
    file :: newer.map (StoredTable.file choice)
  fits : ∀ t ∈ older ++ newer, TableFits t.table.entries

/-- Reads of the file give entries of the table or nothing, and a scan of the whole store still
yields what the other files say about the keys that the table does not have. -/
def HarmsOnlyItself (choice : BloomChoice) (table : MemTable) (file : Nat × DiskFile) : Prop :=
  (∀ key, readTable file.2.bytes key = some none ∨
    readTable file.2.bytes key = some (table.lookup key)) ∧
  ∀ disk older newer, Beside choice disk older file newer →
    ∀ key value, tablesLayer (older ++ newer) key = some (some value) → table.lookup key = none →
      (key, value) ∈ (Store.opened disk).scanRange [] []

def listedFeed (file : Nat × DiskFile) : Option (Feed Bytes (Option Bytes)) :=
  (loadFileMeta file).map fun _ => tableFeed [] [] file.2.bytes

theorem opened_scanFeeds (disk : SortedMap Nat DiskFile) :
    (Store.opened disk).scanFeeds [] [] = disk.entries.filterMap listedFeed ++ [⟨[], false⟩] := by
  have feeds : (Store.opened disk).metas.filterMap ((Store.opened disk).fileFeed [] []) =
      disk.entries.filterMap listedFeed := by
    change (disk.entries.filterMap loadFileMeta).filterMap _ = _
    rw [filterMap_filterMap]
    apply filterMap_congr
    intro file member
    rw [listedFeed]
    cases loaded : loadFileMeta file with
    | none => rfl
    | some info =>
      have found : disk.lookup info.ts = some file.2 := by
        rcases Option.map_eq_some_iff.mp loaded with ⟨minKey, _, rfl⟩
        exact (disk.mem_entries_iff file.1 file.2).mp member
      change (Store.opened disk).fileFeed [] [] info = some (tableFeed [] [] file.2.bytes)
      change (disk.lookup info.ts).map _ = _
      rw [found, Option.map_some]
  rw [Store.scanFeeds, feeds]
  change _ ++ [] ++ [memFeed SortedMap.empty [] []] = _
  rw [append_nil]
  rfl

theorem listedFeed_file (choice : BloomChoice) (t : StoredTable) (fit : TableFits t.table.entries) :
    listedFeed (t.file choice) = some ⟨t.table.entries, false⟩ := by
  rw [listedFeed, Stored.loadFileMeta_file t fit, Option.map_some]
  congr 1
  exact (tableFeed_tableBytes choice t.ts t.table fit [] []).trans (rangeFeed_unbounded false _)

namespace Beside

variable {choice : BloomChoice} {disk : SortedMap Nat DiskFile} {older newer : List StoredTable}
  {file : Nat × DiskFile}

theorem scanFeeds (beside : Beside choice disk older file newer) :
    (Store.opened disk).scanFeeds [] [] =
      older.map (fun t => ⟨t.table.entries, false⟩) ++ ((listedFeed file).toList ++
        (newer.map (fun t => ⟨t.table.entries, false⟩) ++ [⟨[], false⟩])) := by
  have complete : ∀ tables : List StoredTable, (∀ t ∈ tables, TableFits t.table.entries) →
      (tables.map (StoredTable.file choice)).filterMap listedFeed =
        tables.map fun t => ⟨t.table.entries, false⟩ := by
    intro tables fits
    rw [filterMap_map, ← filterMap_eq_map]
    exact filterMap_congr fun t member => listedFeed_file choice t (fits t member)
  have middle : (file :: newer.map (StoredTable.file choice)).filterMap listedFeed =
      (listedFeed file).toList ++ (newer.map (StoredTable.file choice)).filterMap listedFeed := by
    rw [filterMap_cons]
    cases listedFeed file <;> rfl
  rw [opened_scanFeeds, beside.files, filterMap_append, middle,
    complete older fun t member => beside.fits t (mem_append_left _ member),
    complete newer fun t member => beside.fits t (mem_append_right _ member)]
  simp only [append_assoc]

theorem mem_scanRange (beside : Beside choice disk older file newer)
    (sound : ∀ feed ∈ (listedFeed file).toList, feed.Sound) (key value : Bytes)
    (silent : ∀ feed ∈ (listedFeed file).toList, feed.layer key = none)
    (newest : tablesLayer (older ++ newer) key = some (some value)) :
    (key, value) ∈ (Store.opened disk).scanRange [] [] := by
  have layers : ∀ tables : List StoredTable, stack
      ((tables.map fun t => (⟨t.table.entries, false⟩ : Feed Bytes (Option Bytes))).map Feed.layer) =
        tablesLayer tables := by
    intro tables
    rw [map_map]
    rfl
  have through : stack ((listedFeed file).toList.map Feed.layer) key = none := by
    cases listed : listedFeed file with
    | none => rfl
    | some feed => exact silent feed (by rw [listed]; exact mem_singleton_self _)
  have empty : stack ([⟨[], false⟩].map Feed.layer) key =
      (none : Option (Option Bytes)) := rfl
  have sounds : ∀ feed ∈ (Store.opened disk).scanFeeds [] [], feed.Sound := by
    have tables : ∀ t : StoredTable, Feed.Sound ⟨t.table.entries, false⟩ :=
      fun t => ⟨t.table.sorted, rfl⟩
    intro feed member
    rw [beside.scanFeeds] at member
    simp only [mem_append, mem_map, mem_singleton] at member
    rcases member with ⟨t, _, rfl⟩ | listed | ⟨t, _, rfl⟩ | rfl
    · exact tables t
    · exact sound feed listed
    · exact tables t
    · exact ⟨List.Pairwise.nil, rfl⟩
  rw [Store.scanRange, mem_visited _ sounds, beside.scanFeeds]
  simp only [map_append, stack_append, above, layers, through, empty,
    Option.none_or, Option.or_none]
  rw [tablesLayer, map_append, stack_append] at newest
  exact newest

end Beside

section Torn

variable (choice : BloomChoice) (level ts : Nat) (table : MemTable)

def tornFile (n : Nat) : Nat × DiskFile := (ts, ⟨level, tornBytes choice ts table n⟩)

section

variable (fit : TableFits table.entries)
include fit

theorem listedFeed_tornFile (n : Nat) : listedFeed (tornFile choice level ts table n) =
      if n < 4 + (firstKey table.entries).length then none
      else some (tableFeed [] [] (tornBytes choice ts table n)) := by
  rcases tableBytes_front choice ts table fit with ⟨more, shape, small⟩
  rw [listedFeed, loadFileMeta, tornFile, Option.map_map, tornBytes, shape, readMinKey_take _ more n small]
  split_ifs <;> rfl

theorem harmsOnlyItself_of_take (n m : Nat) (feed : ¬ n < 4 + (firstKey table.entries).length →
      tableFeed [] [] (tornBytes choice ts table n) = ⟨table.entries.take m, false⟩)
    (reads : ∀ key, readTable (tornBytes choice ts table n) key =
      some (lookupIn key (table.entries.take m))) :
    HarmsOnlyItself choice table (tornFile choice level ts table n) := by
  have only : ∀ other ∈ (listedFeed (tornFile choice level ts table n)).toList,
      other = ⟨table.entries.take m, false⟩ := by
    rw [listedFeed_tornFile choice level ts table fit]
    intro other member
    split_ifs at member with unlisted
    · cases member
    · rw [feed unlisted] at member
      exact mem_singleton.mp member
  constructor
  · intro key
    change readTable (tornBytes choice ts table n) key = _ ∨
      readTable (tornBytes choice ts table n) key = _
    rw [reads key]
    rcases lookupIn_take table m key with missed | found
    · exact .inl (congrArg some missed)
    · exact .inr (congrArg some found)
  · intro disk older newer beside key value newest absent
    apply beside.mem_scanRange _ key value _ newest
    · intro other member
      rw [only other member]
      exact ⟨table.sorted.take, rfl⟩
    · intro other member
      rw [only other member]
      rcases lookupIn_take table m key with missed | found
      · exact missed
      · exact found.trans absent

theorem harmsOnlyItself_complete (n : Nat)
    (whole : (tableBytes choice ts table.entries).length ≤ n) :
    HarmsOnlyItself choice table (tornFile choice level ts table n) := by
  have same : tornBytes choice ts table n = tableBytes choice ts table.entries :=
    take_of_length_le whole
  apply harmsOnlyItself_of_take choice level ts table fit n table.entries.length
  · intro _
    rw [same, take_length, tableFeed_tableBytes choice ts table fit, rangeFeed_unbounded]
  · intro key
    rw [same, take_length]
    exact readTable_tableBytes choice ts table fit key

theorem harmsOnlyItself_clean (n : Nat)
    (unforged : Unforged (tornBytes choice ts table n)) (clean : CleanCut table.entries n) :
    HarmsOnlyItself choice table (tornFile choice level ts table n) := by
  rcases clean with inKey | ⟨m, reached, near⟩
  · -- the first key is not whole, so the file is not listed and no record is read from it
    have nothing : readEntry (tornBytes choice ts table n) = none := by
      rcases tableBytes_front choice ts table fit with ⟨more, shape, small⟩
      rw [tornBytes, shape]
      by_cases header : n < 4
      · apply readEntry_of_short
        rw [length_take]
        omega
      · rw [take_append, beBytes_length, take_of_length_le (by rw [beBytes_length]; omega),
          readEntry_header _ _ small, readKey, if_pos]
        rw [length_take]
        omega
    have cut := unforged.of_records [] _ (by simp) nothing rfl
    apply harmsOnlyItself_of_take choice level ts table fit n 0
    · exact fun listed => absurd inKey listed
    · exact cut.2
  · have cut := reads_of_clean choice ts table n m unforged fit.fits reached near
    exact harmsOnlyItself_of_take choice level ts table fit n m (fun _ => cut.1) cut.2

/-- Beside a file that breaks off, a larger key of another file is not reached. -/
theorem not_harmsOnlyItself (n : Nat) (room : (lastKey table.entries).length + 1 < 2 ^ 32)
    (short : n < (tableBytes choice ts table.entries).length)
    (unforged : Unforged (tornBytes choice ts table n)) (unclean : ¬ CleanCut table.entries n) :
    ¬ HarmsOnlyItself choice table (tornFile choice level ts table n) := by
  intro harms
  let bound : Bytes := lastKey table.entries ++ [0]
  let other : StoredTable := ⟨0, ts + 1, ⟨[(bound, some [])], pairwise_singleton _ _⟩⟩
  let disk : SortedMap Nat DiskFile :=
    ⟨[tornFile choice level ts table n, other.file choice], by
      rw [pairwise_pair]
      exact Nat.lt_succ_self ts⟩
  have above : lastKey table.entries < bound := (lt_append_zero_iff _ _).mpr le_rfl
  have otherFits : TableFits other.table.entries := by
    have width : bound.length < 2 ^ 32 := by
      simp only [bound, length_append, length_singleton]
      exact room
    have fits : EntryFits (bound, some []) := ⟨width, fun value same => by
      cases same
      decide⟩
    refine ⟨cons_ne_nil _ _, fun entry member => ?_, ?_⟩
    · rw [mem_singleton.mp member]
      exact fits
    · have size : (encodeEntry (bound, some [])).length =
          4 + bound.length + (encodeValue (some [])).length := length_encodeEntry _
      rw [entryFormat.encodeAll_cons, length_append,
        show (entryFormat.encodeAll []).length = 0 from rfl]
      change (encodeEntry (bound, some [])).length + 0 < _
      have value : (encodeValue (some [])).length = 4 := by simp [encodeValue]
      omega
  have beside : Beside choice disk [] (tornFile choice level ts table n) [other] :=
    ⟨rfl, fun t member => by rw [mem_singleton.mp member]; exact otherFits⟩
  have absent : table.lookup bound = none := lookup_eq_none_of_lastKey_lt table bound above
  have newest : tablesLayer ([] ++ [other]) bound = some (some []) := by
    change (Layer.above Layer.empty other.table.lookup) bound = _
    simp [Layer.above, Layer.empty, other, SortedMap.lookup, lookupIn]
  have found := harms.2 disk [] [other] beside bound [] newest absent
  rcases mem_filterMap.mp found with ⟨entry, merged, shape⟩
  rcases Option.map_eq_some_iff.mp shape with ⟨value, _, same⟩
  have fed : tableFeed [] [] (tornBytes choice ts table n) ∈ (Store.opened disk).scanFeeds [] [] := by
    rw [beside.scanFeeds, listedFeed_tornFile choice level ts table fit,
      if_neg fun inKey => unclean (.inl inKey)]
    simp
  have less := KWayMerge.merge_breaks _ _ fed
    (breaks_of_not_clean choice ts table fit n unforged short unclean bound above) entry merged
  rw [show entry.1 = bound from congrArg Prod.fst same] at less
  exact lt_irrefl _ less

end

end Torn

/-- A prefix of a table file whose end is taken for no footer and no filter harms only itself, beside
any complete files, exactly if it is the whole file or ends within the first key or less than four
bytes behind a whole record. -/
theorem torn_file_harms_only_itself (choice : BloomChoice) (level ts n : Nat) (table : MemTable)
    (fit : TableFits table.entries)
    (unforged : n < (tableBytes choice ts table.entries).length →
      Unforged (tornBytes choice ts table n)) :
    ((tableBytes choice ts table.entries).length ≤ n ∨ CleanCut table.entries n →
      HarmsOnlyItself choice table (tornFile choice level ts table n)) ∧
    ((lastKey table.entries).length + 1 < 2 ^ 32 →
      HarmsOnlyItself choice table (tornFile choice level ts table n) →
        (tableBytes choice ts table.entries).length ≤ n ∨ CleanCut table.entries n) := by
  by_cases whole : (tableBytes choice ts table.entries).length ≤ n
  · exact ⟨fun _ => harmsOnlyItself_complete choice level ts table fit n whole, fun _ _ => .inl whole⟩
  · have short := not_le.mp whole
    constructor
    · intro cut
      exact harmsOnlyItself_clean choice level ts table fit n (unforged short)
        (cut.resolve_left whole)
    · intro room harms
      by_contra neither
      have unclean : ¬ CleanCut table.entries n := fun clean => neither (.inr clean)
      exact not_harmsOnlyItself choice level ts table fit n room short (unforged short) unclean harms

/-- Two bytes of the second record are left. -/
theorem torn_file_harmless :
    let table : MemTable := (SortedMap.empty.insert (ascii ['a']) (some [1])).insert (ascii ['b'])
      (some [2])
    HarmsOnlyItself plainBloom table (tornFile plainBloom 0 7 table 12) := by
  intro table
  have fit : TableFits table.entries := ⟨by decide, by decide, by decide +kernel⟩
  have unforged : Unforged (tornBytes plainBloom 7 table 12) := ⟨by decide +kernel, by decide +kernel⟩
  have clean : CleanCut table.entries 12 := .inr ⟨1, by decide +kernel, by decide +kernel⟩
  exact (torn_file_harms_only_itself plainBloom 0 7 12 table fit fun _ => unforged).1 (.inr clean)

/-- Half a record stops the scan of another file. Behind the data the index is read as records, and
its second entry, the last key of the second block, becomes the value of the empty key. -/
theorem torn_file_harms :
    let table : MemTable := (SortedMap.empty.insert (ascii ['a']) (some [1])).insert (ascii ['b'])
      (some [2])
    let other : StoredTable := ⟨0, 8, SortedMap.empty.insert (ascii ['z']) (some [9])⟩
    let torn := tornFile plainBloom 0 7 table 15
    let disk : SortedMap Nat DiskFile := (SortedMap.empty.insert torn.1 torn.2).insert
      (other.file plainBloom).1 (other.file plainBloom).2
    let blocks : MemTable := (List.range 65).foldr
      (fun i t => t.insert [UInt8.ofNat (i + 1)] (some [])) SortedMap.empty
    let n := (entryFormat.encodeAll blocks.entries).length + 18
    (Beside plainBloom disk [] torn [other] ∧ Unforged torn.2.bytes ∧
      tablesLayer [other] (ascii ['z']) = some (some [9]) ∧ table.lookup (ascii ['z']) = none ∧
      (Store.opened disk).scanRange [] [] = []) ∧
    TableFits blocks.entries ∧ Unforged (tornBytes plainBloom 7 blocks n) ∧
      blocks.lookup [] = none ∧
      readTable (tornBytes plainBloom 7 blocks n) [] = some (some (some [65])) := by
  refine ⟨⟨⟨rfl, ?_⟩, ⟨by decide +kernel, by decide +kernel⟩, by decide +kernel, by decide +kernel,
    by decide +kernel⟩, ⟨by decide +kernel, by decide +kernel, by decide +kernel⟩,
    ⟨by decide +kernel, by decide +kernel⟩, by decide +kernel, by decide +kernel⟩
  intro t member
  rw [mem_singleton.mp member]
  exact ⟨by decide, by decide, by decide +kernel⟩

end KairosFlux.Storage
