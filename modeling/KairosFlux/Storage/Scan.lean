import KairosFlux.Lib.KWayMerge
import KairosFlux.Storage.Engine

/-! Range scans (`ScanRange` in `storage/engine.go`, `storage/iterator.go`,
`storage/merge_iterator.go`): the tables in memory are copied, the files are read through range
iterators, and the merge keeps the newest version of every key. -/

namespace KairosFlux.Storage

open Lib List Layer SortedMap Function Engine

/-- Both ends are inclusive, and an empty bound leaves its side open. -/
def InRange (start stop key : Bytes) : Prop := start ≤ key ∧ (stop = [] ∨ key ≤ stop)
deriving Decidable

/-- `rangeIterator`: entries in front of the range are passed over, and the first one behind it ends
the feed before an error of the source is seen. -/
def rangeFeed (start stop : Bytes) (failed : Bool) :
    List LogEntry → Feed Bytes (Option Bytes)
  | [] => ⟨[], failed⟩
  | entry :: rest =>
    if entry.1 < start then rangeFeed start stop failed rest
    else if stop ≠ [] ∧ stop < entry.1 then ⟨[], false⟩
    else ⟨entry :: (rangeFeed start stop failed rest).items,
      (rangeFeed start stop failed rest).failed⟩

/-- `append([]byte(nil), key...)`: the copy of an empty key is the nil slice. -/
def copyKey : Bytes → Option Bytes
  | [] => none
  | key => some key

def collectRange (table : MemTable) (start stop : Bytes) : List (Option Bytes × Option Bytes) :=
  ((table.entries.dropWhile fun entry => entry.1 < start).takeWhile
    fun entry => stop = [] ∨ entry.1 ≤ stop).map
    fun entry => (copyKey entry.1, copyValue entry.2)

/-- What `pull` takes from a copied table: a nil key is to it the end of the source. -/
def sliceItems : List (Option Bytes × Option Bytes) → List LogEntry
  | (some key, value) :: rest => (key, value) :: sliceItems rest
  | _ => []

def memFeed (table : MemTable) (start stop : Bytes) : Feed Bytes (Option Bytes) :=
  ⟨sliceItems (collectRange table start stop), false⟩

/-- What a scan hands to its callback: tombstones are passed over. -/
def visited (feeds : List (Feed Bytes (Option Bytes))) : List (Bytes × Bytes) :=
  (KWayMerge.merge feeds).1.filterMap fun entry => entry.2.map fun value => (entry.1, value)

variable (start : Bytes) (table : MemTable) (entries : List LogEntry) (stop key : Bytes)

theorem rangeFeed_sorted (entries : List LogEntry) (sorted : entries.Pairwise KeyLt) :
    rangeFeed start stop false entries =
      ⟨entries.filter fun entry => InRange start stop entry.1, false⟩ := by
  induction entries with
  | nil => rfl
  | cons entry rest ih =>
    obtain ⟨heads, tails⟩ := pairwise_cons.mp sorted
    rw [rangeFeed, ih tails]
    by_cases before : entry.1 < start
    · have outside : ¬ InRange start stop entry.1 := fun inside => before.not_ge inside.1
      rw [if_pos before, filter_cons_of_neg (by simpa using outside)]
    · by_cases behind : stop ≠ [] ∧ stop < entry.1
      · have outside : ∀ other ∈ entry :: rest, ¬ InRange start stop other.1 := by
          intro other member inside
          have reached : stop < other.1 := by
            rcases mem_cons.mp member with rfl | later
            · exact behind.2
            · exact behind.2.trans (heads other later)
          exact inside.2.elim behind.1 reached.not_ge
        rw [if_neg before, if_pos behind, filter_eq_nil_iff.mpr (by simpa using outside)]
      · have inside : InRange start stop entry.1 := by
          refine ⟨not_lt.mp before, ?_⟩
          by_contra neither
          rw [not_or, not_le] at neither
          exact behind neither
        rw [if_neg before, if_neg behind, filter_cons_of_pos (by simpa using inside)]

theorem rangeFeed_append (failed : Bool) (front back : List LogEntry)
    (below : ∀ entry ∈ front, entry.1 < start) :
    rangeFeed start stop failed (front ++ back) = rangeFeed start stop failed back := by
  induction front with
  | nil => rfl
  | cons entry front ih =>
    rw [cons_append, rangeFeed, if_pos (below entry (.head _))]
    exact ih fun other member => below other (.tail _ member)

theorem lookupIn_filter (entries : List LogEntry) (inside : InRange start stop key) :
    lookupIn key (entries.filter fun entry => InRange start stop entry.1) =
      lookupIn key entries := by
  induction entries with
  | nil => rfl
  | cons entry rest ih =>
    by_cases here : entry.1 = key
    · subst here
      rw [filter_cons_of_pos (by simpa using inside), lookupIn, if_pos rfl, lookupIn, if_pos rfl]
    · rw [lookupIn, if_neg here, ← ih]
      by_cases kept : InRange start stop entry.1
      · rw [filter_cons_of_pos (by simpa using kept), lookupIn, if_neg here]
      · rw [filter_cons_of_neg (by simpa using kept)]

theorem rangeFeed_sound (table : MemTable) : (rangeFeed start stop false table.entries).Sound := by
  rw [rangeFeed_sorted start stop table.entries table.sorted]
  exact ⟨table.sorted.filter _, rfl⟩

theorem rangeFeed_layer (table : MemTable) (inside : InRange start stop key) :
    (rangeFeed start stop false table.entries).layer key = table.lookup key := by
  rw [rangeFeed_sorted start stop table.entries table.sorted]
  exact lookupIn_filter start stop key table.entries inside

theorem rangeFeed_layer_of_not (table : MemTable) (outside : ¬ InRange start stop key) :
    (rangeFeed start stop false table.entries).layer key = none := by
  rw [rangeFeed_sorted start stop table.entries table.sorted]
  apply lookupIn_eq_none
  intro entry member same
  have inside := of_decide_eq_true (mem_filter.mp member).2
  exact outside (same ▸ inside)

theorem collectRange_eq (start stop : Bytes) : collectRange table start stop =
      (table.entries.filter fun entry => InRange start stop entry.1).map
        fun entry => (copyKey entry.1, copyValue entry.2) := by
  have closed : ∀ lower upper : Bytes, lower < upper →
      decide (stop = [] ∨ upper ≤ stop) = true → decide (stop = [] ∨ lower ≤ stop) = true := by
    intro lower upper less kept
    rw [decide_eq_true_eq] at kept ⊢
    exact kept.imp_right less.le.trans
  have closedBelow : ∀ lower upper : Bytes, lower < upper → decide (upper < start) = true →
      decide (lower < start) = true := by
    intro lower upper less dropped
    rw [decide_eq_true_eq] at dropped ⊢
    exact less.trans dropped
  rw [collectRange, dropWhile_eq_filter (fun key => key < start) _ table.sorted closedBelow,
    takeWhile_eq_filter (fun key => stop = [] ∨ key ≤ stop) _ (table.sorted.filter _)
      closed, filter_filter]
  congr 2
  funext entry
  rw [Bool.eq_iff_iff, Bool.and_eq_true, decide_eq_true_eq, Bool.not_eq_true', decide_eq_false_iff_not,
    not_lt, decide_eq_true_eq, and_comm, InRange]

/-- A part of a table without empty keys and values is copied as it is. -/
def CopiesWhole (start stop : Bytes) (table : MemTable) : Prop :=
  ∀ entry ∈ table.entries, InRange start stop entry.1 → entry.1 ≠ [] ∧ entry.2 ≠ some []
deriving Decidable

theorem mem_sliceItems (entry : LogEntry)
    (member : entry ∈ sliceItems (entries.map fun e => (copyKey e.1, copyValue e.2))) :
    ∃ original ∈ entries, original.1 = entry.1 ∧ copyValue original.2 = entry.2 := by
  induction entries with
  | nil => cases member
  | cons first rest ih =>
    obtain ⟨key, value⟩ := first
    cases key with
    | nil => cases member
    | cons byte bytes =>
      rcases mem_cons.mp member with rfl | later
      · exact ⟨(byte :: bytes, value), .head _, rfl, rfl⟩
      · obtain ⟨original, inside, same⟩ := ih later
        exact ⟨original, .tail _ inside, same⟩

theorem sliceItems_sorted (sorted : entries.Pairwise KeyLt) :
    (sliceItems (entries.map fun e => (copyKey e.1, copyValue e.2))).Pairwise KeyLt := by
  induction entries with
  | nil => exact List.Pairwise.nil
  | cons first rest ih =>
    obtain ⟨heads, tails⟩ := pairwise_cons.mp sorted
    obtain ⟨key, value⟩ := first
    cases key with
    | nil => exact List.Pairwise.nil
    | cons byte bytes =>
      refine pairwise_cons.mpr ⟨fun entry member => ?_, ih tails⟩
      obtain ⟨original, inside, same, _⟩ := mem_sliceItems rest entry member
      have less := heads original inside
      rw [KeyLt, same] at less
      exact less

theorem sliceItems_copied (keys : ∀ entry ∈ entries, entry.1 ≠ [])
    (values : ∀ entry ∈ entries, entry.2 ≠ some []) :
    sliceItems (entries.map fun e => (copyKey e.1, copyValue e.2)) = entries := by
  induction entries with
  | nil => rfl
  | cons first rest ih =>
    obtain ⟨key, value⟩ := first
    have inner := ih (fun entry member => keys entry (.tail _ member))
      (fun entry member => values entry (.tail _ member))
    cases key with
    | nil => exact absurd rfl (keys _ (.head _))
    | cons byte bytes =>
      have same : copyValue value = value := by
        match value with
        | none => rfl
        | some [] => exact absurd rfl (values _ (.head _))
        | some (head :: tail) => rfl
      rw [map_cons, copyKey, sliceItems, inner, same]
      exact cons_ne_nil _ _

theorem memFeed_sound (start stop : Bytes) : (memFeed table start stop).Sound := by
  constructor
  · rw [memFeed, collectRange_eq]
    exact sliceItems_sorted _ (table.sorted.filter _)
  · rfl

theorem memFeed_layer_eq_none (start stop key : Bytes)
    (absent : table.lookup key = none) : (memFeed table start stop).layer key = none := by
  apply lookupIn_eq_none
  intro entry member same
  rw [memFeed, collectRange_eq] at member
  obtain ⟨original, inside, sameKey, _⟩ := mem_sliceItems _ entry member
  have held := (table.mem_entries_iff original.1 original.2).mp (mem_filter.mp inside).1
  rw [sameKey, same, absent] at held
  cases held

theorem memFeed_layer_of_not (start stop key : Bytes)
    (outside : ¬ InRange start stop key) : (memFeed table start stop).layer key = none := by
  apply lookupIn_eq_none
  intro entry member same
  rw [memFeed, collectRange_eq] at member
  obtain ⟨original, inside, sameKey, _⟩ := mem_sliceItems _ entry member
  have reached := of_decide_eq_true (mem_filter.mp inside).2
  rw [sameKey, same] at reached
  exact outside reached

theorem memFeed_items (start stop : Bytes) (copies : CopiesWhole start stop table) :
    (memFeed table start stop).items =
      table.entries.filter fun entry => InRange start stop entry.1 := by
  have inRange : ∀ entry ∈ table.entries.filter (fun entry => InRange start stop entry.1),
      entry.1 ≠ [] ∧ entry.2 ≠ some [] := by
    intro entry member
    obtain ⟨inside, reached⟩ := mem_filter.mp member
    exact copies entry inside (of_decide_eq_true reached)
  rw [memFeed, collectRange_eq]
  exact sliceItems_copied _ (fun entry member => (inRange entry member).1)
    (fun entry member => (inRange entry member).2)

theorem memFeed_layer (start stop key : Bytes)
    (copies : CopiesWhole start stop table) (inside : InRange start stop key) :
    (memFeed table start stop).layer key = table.lookup key := by
  rw [Feed.layer, memFeed_items table start stop copies]
  exact lookupIn_filter start stop key table.entries inside

theorem mem_visited (feeds : List (Feed Bytes (Option Bytes)))
    (sound : ∀ feed ∈ feeds, feed.Sound) (key value : Bytes) :
    (key, value) ∈ visited feeds ↔ stack (feeds.map Feed.layer) key = some (some value) := by
  obtain ⟨_, sorted, layers⟩ := KWayMerge.merge_spec feeds sound
  have merged := mem_iff_lookupIn _ sorted key (some value)
  rw [← layers, ofEntries, ← merged, visited, mem_filterMap]
  constructor
  · rintro ⟨⟨otherKey, otherValue⟩, member, shape⟩
    cases otherValue with
    | none => cases shape
    | some bytes =>
      obtain ⟨rfl, rfl⟩ := Prod.mk.inj (Option.some.inj shape)
      exact member
  · exact fun member => ⟨(key, some value), member, rfl⟩

theorem visited_sorted (feeds : List (Feed Bytes (Option Bytes)))
    (sound : ∀ feed ∈ feeds, feed.Sound) : (visited feeds).Pairwise KeyLt := by
  refine List.Pairwise.filterMap _ ?_ (KWayMerge.merge_spec feeds sound).2.1
  intro left right less first firstShape second secondShape
  obtain ⟨firstValue, _, rfl⟩ := Option.map_eq_some_iff.mp firstShape
  obtain ⟨secondValue, _, rfl⟩ := Option.map_eq_some_iff.mp secondShape
  exact less

namespace Engine

variable (e : Engine)

def fileFeed (start stop : Bytes) (info : SSTableMeta) : Option (Feed Bytes (Option Bytes)) :=
  if start ≠ [] ∧ info.maxKey < start then none
  else if stop ≠ [] ∧ info.minKey ≠ [] ∧ stop < info.minKey then none
  else (e.disk.lookup info.ts).map fun file =>
    rangeFeed start stop false (entryFormat.records file.data)

-- The later feed is the newer one.
def scanFeeds (start stop : Bytes) : List (Feed Bytes (Option Bytes)) :=
  e.metas.filterMap (e.fileFeed start stop) ++
    (e.dirty.map fun table => memFeed table start stop).toList ++ [memFeed e.active start stop]

def scanRange (start stop : Bytes) : List (Bytes × Bytes) := visited (e.scanFeeds start stop)

end Engine

theorem records_encodeAll_entries (entries : List LogEntry) (fits : ∀ entry ∈ entries, EntryFits entry) :
    entryFormat.records (entryFormat.encodeAll entries) = entries := by
  have whole := (entryFormat.records_encodeAll entries [] fits rfl).1
  rw [append_nil] at whole
  rw [whole, show entryFormat.readBack = id from rfl, map_id]

namespace OnDisk

variable {e : Engine} {files : List (Nat × MemTable)}

section

variable (onDisk : OnDisk e files)
include onDisk

theorem fileFeed_cases (file : Nat × MemTable) (member : file ∈ files) (start stop : Bytes) :
    (e.fileFeed start stop (tableMeta file.1 file.2.entries) = none ∧
        ∀ key, InRange start stop key → file.2.lookup key = none) ∨
      e.fileFeed start stop (tableMeta file.1 file.2.entries) =
        some (rangeFeed start stop false file.2.entries) := by
  have found : e.disk.lookup file.1 = some (tableFile file.2.entries) := by
    rw [← mem_entries_iff, onDisk.disk]
    exact mem_map_of_mem member
  rw [fileFeed, tableMeta]
  by_cases below : start ≠ [] ∧ lastKey file.2.entries < start
  · refine .inl ⟨if_pos below, fun key inside => ?_⟩
    exact lookup_eq_none_of_lastKey_lt file.2 key (below.2.trans_le inside.1)
  · by_cases above : stop ≠ [] ∧ firstKey file.2.entries ≠ [] ∧ stop < firstKey file.2.entries
    · refine .inl ⟨by rw [if_neg below, if_pos above], fun key inside => ?_⟩
      have reached : key ≤ stop := inside.2.resolve_left above.1
      exact lookup_eq_none_of_lt_firstKey file.2 key (reached.trans_lt above.2.2)
    · refine .inr ?_
      rw [if_neg below, if_neg above, found, Option.map_some, tableFile,
        records_encodeAll_entries _ (onDisk.written file member).2]

theorem mem_fileFeeds (start stop : Bytes)
    (feed : Feed Bytes (Option Bytes)) (member : feed ∈ e.metas.filterMap (e.fileFeed start stop)) :
    ∃ file ∈ files, feed = rangeFeed start stop false file.2.entries := by
  rw [onDisk.metas, filterMap_map] at member
  rcases mem_filterMap.mp member with ⟨file, inside, shape⟩
  rcases onDisk.fileFeed_cases file inside start stop with ⟨none, _⟩ | some
  · rw [comp_apply, none] at shape
    cases shape
  · rw [comp_apply, some] at shape
    exact ⟨file, inside, (Option.some.inj shape).symm⟩

theorem fileFeeds_sound (start stop : Bytes) :
    ∀ feed ∈ e.metas.filterMap (e.fileFeed start stop), feed.Sound := by
  intro feed member
  rcases onDisk.mem_fileFeeds start stop feed member with ⟨file, _, shape⟩
  rw [shape]
  exact rangeFeed_sound start stop file.2

theorem stack_fileFeeds (start stop key : Bytes) (inside : InRange start stop key) :
    stack ((e.metas.filterMap (e.fileFeed start stop)).map Feed.layer) key =
      e.diskLayer key := by
  rw [onDisk.diskLayer, onDisk.metas, filterMap_map, map_filterMap]
  apply stack_filterMap
  intro file member
  rcases onDisk.fileFeed_cases file member start stop with ⟨none, absent⟩ | some
  · rw [comp_apply, none, absent key inside]
    rfl
  · rw [comp_apply, some]
    exact rangeFeed_layer start stop key file.2 inside

theorem fileFeed_of_not (start stop key : Bytes) (outside : ¬ InRange start stop key) :
    ∀ feed ∈ e.metas.filterMap (e.fileFeed start stop), feed.layer key = none := by
  intro feed member
  rcases onDisk.mem_fileFeeds start stop feed member with ⟨file, _, shape⟩
  rw [shape]
  exact rangeFeed_layer_of_not start stop key file.2 outside

theorem scanFeeds_sound (start stop : Bytes) : ∀ feed ∈ e.scanFeeds start stop, feed.Sound := by
  refine forall_mem_append.mpr ⟨forall_mem_append.mpr
    ⟨onDisk.fileFeeds_sound start stop, ?_⟩, forall_mem_singleton.mpr (memFeed_sound _ _ _)⟩
  intro feed member
  obtain ⟨table, _, rfl⟩ := Option.map_eq_some_iff.mp (Option.mem_toList.mp member)
  exact memFeed_sound table start stop

theorem mem_scanRange (start stop key value : Bytes)
    (inside : InRange start stop key) (absent : e.memLayer key = none) :
    (key, value) ∈ e.scanRange start stop ↔ e.diskLayer key = some (some value) := by
  obtain ⟨inActive, inDirty⟩ := (above_eq_none _ _ key).mp absent
  have dirty : stack
      ((e.dirty.map fun table => memFeed table start stop).toList.map Feed.layer) key = none := by
    cases shape : e.dirty with
    | none => rfl
    | some table =>
      have missing : table.lookup key = none := by simpa [dirtyLayer, shape] using inDirty
      exact memFeed_layer_eq_none table start stop key missing
  rw [scanRange, mem_visited _ (onDisk.scanFeeds_sound start stop), scanFeeds,
    map_append, map_append, map_singleton, stack_snoc, stack_append]
  simp only [above, memFeed_layer_eq_none e.active start stop key inActive, dirty,
    Option.none_or, onDisk.stack_fileFeeds start stop key inside]

end

end OnDisk

end KairosFlux.Storage
