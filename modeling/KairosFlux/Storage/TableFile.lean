import KairosFlux.Lib.Blocks
import KairosFlux.Storage.Bloom
import KairosFlux.Storage.Scan

/-! The bytes of a table file (`storage/sstable_write.go`, `storage/sstable_read.go`,
`storage/iterator.go`): the records, one index entry for each block of them, the filter section and
the footer. A reader finds the sections from the end of the file. -/

namespace KairosFlux.Storage

open Lib List

def sstableBlockSize : Nat := 64

def indexFooterMagic : Nat := 0x49445846

def indexFooterSize : Nat := 16

def bloomTrailerMagic : Nat := 0x424c4d46

def bloomTrailerSize : Nat := 12

def maxBloomSectionBytes : Nat := 2 ^ 30

structure BlockMeta where
  lastKey : Bytes
  blockOffset : Nat

def indexFrom (offset : Nat) : List (List LogEntry) → List BlockMeta
  | [] => []
  | block :: rest =>
    ⟨lastKey block, offset⟩ :: indexFrom (offset + (entryFormat.encodeAll block).length) rest

def tableBlocks (entries : List LogEntry) : List (List LogEntry) :=
  blocksOf (sstableBlockSize - 1) entries

def encodeBlockMeta (b : BlockMeta) : Bytes :=
  beBytes 4 b.lastKey.length ++ (b.lastKey ++ beBytes 8 b.blockOffset)

def bloomSection (blob : Bytes) : Bytes :=
  blob ++ (beBytes 8 blob.length ++ beBytes 4 bloomTrailerMagic)

def indexFooter (blockCount indexOffset : Nat) : Bytes :=
  beBytes 4 blockCount ++ (beBytes 8 indexOffset ++ beBytes 4 indexFooterMagic)

def writeTail (choice : BloomChoice) (ts : Nat) (blocks : List BlockMeta) (keys : List Bytes)
    (indexStart : Nat) : Bytes :=
  (blocks.map encodeBlockMeta).flatten ++
    (bloomSection (choice.blob ts keys) ++ indexFooter blocks.length indexStart)

/-- The file that `WriteToSSTable` and `MergeSSTable` write under the timestamp `ts`. -/
def tableBytes (choice : BloomChoice) (ts : Nat) (entries : List LogEntry) : Bytes :=
  entryFormat.encodeAll entries ++
    writeTail choice ts (indexFrom 0 (tableBlocks entries)) (entries.map Prod.fst)
      (entryFormat.encodeAll entries).length

/-- The bits of a `uint64` as an `int64`. -/
def int64 (bits : Nat) : Int := if bits < 2 ^ 63 then bits else (bits : Int) - 2 ^ 64

structure BlockIndexEntry where
  lastKey : Bytes
  blockOffset : Int

structure BlockIndex where
  entries : List BlockIndexEntry
  dataEnd : Nat

/-- The number of blocks and the offset of the index, when the file ends in a footer. -/
def readFooter (file : Bytes) : Option (Nat × Nat) :=
  if file.length < indexFooterSize then none
  else
    let footer := file.drop (file.length - indexFooterSize)
    let blockCount := beValue (slice footer 0 4)
    let indexOffset := beValue (slice footer 4 12)
    if beValue (slice footer 12 16) = indexFooterMagic ∧ blockCount ≠ 0 ∧ 0 < int64 indexOffset then
      some (blockCount, indexOffset)
    else none

def sstableDataEnd (file : Bytes) : Option Nat := (readFooter file).map Prod.snd

def readIndexEntry (bytes : Bytes) : Option (BlockIndexEntry × Bytes) :=
  (readUint 4 bytes).bind fun keyLen =>
    (readExact keyLen.1 keyLen.2).bind fun key =>
      (readUint 8 key.2).map fun offset => (⟨key.1, int64 offset.1⟩, offset.2)

def loadBlockIndex (file : Bytes) : Option BlockIndex :=
  (readFooter file).bind fun footer =>
    (readMany readIndexEntry footer.1 (file.drop footer.2)).map fun read => ⟨read.1, footer.2⟩

def loadBloom (file : Bytes) : Option PartitionedBloom :=
  let behind := indexFooterSize + bloomTrailerSize
  if file.length < behind then none
  else
    let trailer := file.drop (file.length - behind)
    let bloomLen := beValue (slice trailer 0 8)
    if beValue (slice trailer 8 12) ≠ bloomTrailerMagic ∨ bloomLen = 0 ∨
        maxBloomSectionBytes < bloomLen then none
    else if file.length < behind + bloomLen then none
    else
      PartitionedBloom.decode
        (slice file (file.length - behind - bloomLen) (file.length - behind))

namespace BlockIndex

variable (bi : BlockIndex)

def lastKeyAt (i : Nat) : Bytes := (bi.entries[i]?.map BlockIndexEntry.lastKey).getD []

/-- The first block whose last key is not below the key, or the last block. -/
def search (key : Bytes) : Nat :=
  lowerBound (fun i => key ≤ bi.lastKeyAt i) bi.entries.length 0 (bi.entries.length - 1)

def blockEnd (i : Nat) : Int :=
  match bi.entries[i + 1]? with
  | some next => next.blockOffset
  | none => bi.dataEnd

end BlockIndex

-- `ReadAt` fails on a negative offset and when the file is too short.
def searchBlock (file : Bytes) (key : Bytes) (bi : BlockIndex) : Option (Option Bytes) :=
  bi.entries[bi.search key]?.bind fun block =>
    let start := block.blockOffset
    let stop := bi.blockEnd (bi.search key)
    if stop ≤ start ∨ start < 0 ∨ (file.length : Int) < stop then none
    else searchEntries key (entryFormat.records (slice file start.toNat stop.toNat))

/-- The records from `pos` on up to the end of the data, and what is left of the file where no
record can be read. -/
def scanRecords (dataEnd : Option Nat) : Nat → Nat → Bytes → List LogEntry × Bytes
  | 0, _, rest => ([], rest)
  | fuel + 1, pos, rest =>
    if dataEnd.any (fun stop => stop ≤ pos) then ([], [])
    else
      match readEntry rest with
      | none => ([], rest)
      | some (entry, behind) =>
        let next := scanRecords dataEnd fuel (pos + (rest.length - behind.length)) behind
        (entry :: next.1, next.2)

def readAllFromSSTable (file : Bytes) : List LogEntry :=
  (scanRecords (sstableDataEnd file) file.length 0 file).1

def readFromSSTableFull (file : Bytes) (key : Bytes) : Option (Option Bytes) :=
  SortedMap.lookupIn key (readAllFromSSTable file)

/-- `ReadFromSSTable` over a whole file. No answer stands for a filter that is out of range. -/
def readTable (file : Bytes) (key : Bytes) : Option (Option (Option Bytes)) :=
  ((loadBloom file).elim (some true) fun bloom => bloom.mayContain key).map fun may =>
    if may then
      match loadBlockIndex file with
      | some bi => searchBlock file key bi
      | none => readFromSSTableFull file key
    else none

/-- An iterator that starts at `pos`. It ends without an error where fewer than four bytes are
left, and with one where a record is cut behind them. -/
def iterateFrom (file : Bytes) (pos : Nat) : Feed Bytes (Option Bytes) :=
  let scanned := scanRecords (sstableDataEnd file) file.length pos (file.drop pos)
  ⟨scanned.1, 4 ≤ scanned.2.length⟩

/-- `newSSTableIteratorFrom`. Reading at a negative offset is an error. -/
def seekTable (file start : Bytes) : Feed Bytes (Option Bytes) :=
  match loadBlockIndex file with
  | none => iterateFrom file 0
  | some bi =>
    match bi.entries[bi.search start]? with
    | none => iterateFrom file 0
    | some block =>
      if start = [] then iterateFrom file 0
      else if block.lastKey < start then ⟨[], false⟩
      else if block.blockOffset < 0 then ⟨[], true⟩
      else iterateFrom file block.blockOffset.toNat

def tableFeed (start stop : Bytes) (file : Bytes) : Feed Bytes (Option Bytes) :=
  rangeFeed start stop (seekTable file start).failed (seekTable file start).items

/-- A table that the fields of the format have room for. -/
structure TableFits (entries : List LogEntry) : Prop where
  nonempty : entries ≠ []
  fits : ∀ entry ∈ entries, EntryFits entry
  small : (entryFormat.encodeAll entries).length < 2 ^ 40

theorem int64_of_lt (bits : Nat) (small : bits < 2 ^ 63) : int64 bits = bits := if_pos small

theorem readFooter_indexFooter (front : Bytes) (blockCount indexOffset : Nat) :
    readFooter (front ++ indexFooter blockCount indexOffset) =
      if blockCount % 2 ^ 32 ≠ 0 ∧ 0 < int64 (indexOffset % 2 ^ 64) then
        some (blockCount % 2 ^ 32, indexOffset % 2 ^ 64)
      else none := by
  have width : (indexFooter blockCount indexOffset).length = indexFooterSize := by
    simp [indexFooter, indexFooterSize]
  have long : ¬ (front ++ indexFooter blockCount indexOffset).length < indexFooterSize := by
    rw [length_append, width]
    omega
  have ending : (front ++ indexFooter blockCount indexOffset).drop
      ((front ++ indexFooter blockCount indexOffset).length - indexFooterSize) =
        indexFooter blockCount indexOffset := by
    apply drop_left'
    rw [length_append, width, Nat.add_sub_cancel]
  obtain ⟨count, left⟩ := slice_drop (show (indexFooter blockCount indexOffset).drop 0 = _ from rfl)
    (by simp : _ = 4)
  obtain ⟨offset, left⟩ := slice_drop left (by simp : _ = 12)
  have magic := slice_drop_last left (by simp : _ = 16)
  rw [readFooter, if_neg long]
  simp only [ending, count, offset, magic, beValue_beBytes, beValue_u32 indexFooterMagic (by decide),
    true_and]
  rfl

theorem readFooter_append (front : Bytes) (blockCount indexOffset : Nat) (some_ : blockCount ≠ 0)
    (few : blockCount < 2 ^ 32) (positive : 0 < indexOffset) (small : indexOffset < 2 ^ 63) :
    readFooter (front ++ indexFooter blockCount indexOffset) = some (blockCount, indexOffset) := by
  rw [readFooter_indexFooter, Nat.mod_eq_of_lt few, Nat.mod_eq_of_lt (by omega), int64_of_lt _ small]
  exact if_pos ⟨some_, by exact_mod_cast positive⟩

theorem readIndexEntry_encoded (b : BlockMeta) (rest : Bytes) (keyFits : b.lastKey.length < 2 ^ 32)
    (offsetFits : b.blockOffset < 2 ^ 63) :
    readIndexEntry (encodeBlockMeta b ++ rest) = some (⟨b.lastKey, b.blockOffset⟩, rest) := by
  rw [encodeBlockMeta, readIndexEntry]
  simp only [append_assoc]
  rw [readUint_append 4 _ _ (by omega), Option.bind_some, readExact_append, Option.bind_some,
    readUint_append 8 _ _ (by omega), Option.map_some, int64_of_lt _ offsetFits]

theorem indexFrom_append (offset : Nat) (before after : List (List LogEntry)) :
    indexFrom offset (before ++ after) = indexFrom offset before ++
        indexFrom (offset + (entryFormat.encodeAll before.flatten).length) after := by
  induction before generalizing offset with
  | nil => rfl
  | cons block before ih =>
    rw [cons_append, indexFrom, ih, flatten_cons, entryFormat.encodeAll_append,
      length_append, ← Nat.add_assoc]
    rfl

@[simp] theorem length_indexFrom (offset : Nat) (blocks : List (List LogEntry)) :
    (indexFrom offset blocks).length = blocks.length := by
  induction blocks generalizing offset with
  | nil => rfl
  | cons block blocks ih => rw [indexFrom, length_cons, length_cons, ih]

theorem mem_indexFrom (offset : Nat) (blocks : List (List LogEntry)) (b : BlockMeta)
    (member : b ∈ indexFrom offset blocks) :
    (∃ block ∈ blocks, b.lastKey = lastKey block) ∧
      b.blockOffset ≤ offset + (entryFormat.encodeAll blocks.flatten).length := by
  induction blocks generalizing offset with
  | nil => cases member
  | cons block blocks ih =>
    rw [flatten_cons, entryFormat.encodeAll_append, length_append]
    rcases mem_cons.mp member with rfl | later
    · exact ⟨⟨block, .head _, rfl⟩, Nat.le_add_right _ _⟩
    · obtain ⟨⟨found, inside, same⟩, bound⟩ := ih _ later
      exact ⟨⟨found, .tail _ inside, same⟩, by omega⟩

theorem length_encodeAll_ge (entries : List LogEntry) :
    8 * entries.length ≤ (entryFormat.encodeAll entries).length ∧
      (entries.map fun entry => 48 + entry.1.length).sum ≤
        6 * (entryFormat.encodeAll entries).length := by
  induction entries with
  | nil => exact ⟨le_rfl, le_rfl⟩
  | cons entry rest ih =>
    have width : 4 ≤ (encodeValue entry.2).length := by
      cases entry.2 <;> simp [encodeValue]
    have here := length_encodeEntry entry
    rw [entryFormat.encodeAll_cons, length_append, length_cons, map_cons,
      sum_cons, show entryFormat.encode entry = encodeEntry entry from rfl]
    omega

theorem isLast_lastKey (block : List LogEntry) (nonempty : block ≠ [])
    (sorted : block.Pairwise KeyLt) : IsLast block (lastKey block) := by
  obtain ⟨front, last, rfl⟩ : ∃ front last, block = front ++ [last] :=
    ⟨block.dropLast, block.getLast nonempty, (dropLast_append_getLast nonempty).symm⟩
  have key : lastKey (front ++ [last]) = last.1 := by simp [lastKey]
  refine ⟨⟨last, by simp, key.symm⟩, fun entry member => ?_⟩
  rw [key]
  rcases mem_append.mp member with earlier | here
  · exact ((pairwise_append.mp sorted).2.2 entry earlier last (.head _)).le
  · rw [mem_singleton.mp here]

theorem loadBloom_append (front blob footer : Bytes) (small : blob.length < 2 ^ 64)
    (width : footer.length = indexFooterSize) :
    loadBloom (front ++ (bloomSection blob ++ footer)) =
      if blob.length = 0 ∨ maxBloomSectionBytes < blob.length then none
      else PartitionedBloom.decode blob := by
  have shape : front ++ (bloomSection blob ++ footer) = (front ++ blob) ++
      (beBytes 8 blob.length ++ (beBytes 4 bloomTrailerMagic ++ footer)) := by
    simp [bloomSection]
  have total : (front ++ (bloomSection blob ++ footer)).length =
      front.length + blob.length + (indexFooterSize + bloomTrailerSize) := by
    rw [shape]
    simp only [length_append, beBytes_length, width, bloomTrailerSize]
    omega
  have ending : (front ++ (bloomSection blob ++ footer)).drop
      ((front ++ (bloomSection blob ++ footer)).length - (indexFooterSize + bloomTrailerSize)) =
        beBytes 8 blob.length ++ (beBytes 4 bloomTrailerMagic ++ footer) := by
    rw [total, shape]
    apply drop_left'
    rw [length_append]
    omega
  obtain ⟨length, left⟩ := slice_drop
    (show (beBytes 8 blob.length ++ (beBytes 4 bloomTrailerMagic ++ footer)).drop 0 = _ from rfl)
    (by simp : _ = 8)
  have magic := (slice_drop left (by simp : _ = 12)).1
  have middle : slice (front ++ (bloomSection blob ++ footer)) front.length
      (front.length + blob.length) = blob := by
    rw [bloomSection, append_assoc]
    exact slice_middle front blob _ _ _ rfl rfl
  have position : (front ++ (bloomSection blob ++ footer)).length -
      (indexFooterSize + bloomTrailerSize) = front.length + blob.length := by omega
  rw [loadBloom]
  simp only [ending, length, magic, beValue_u64 _ small, beValue_u32 bloomTrailerMagic (by decide),
    ne_eq, not_true_eq_false, false_or]
  rw [if_neg (by omega)]
  split_ifs with refused short
  · rfl
  · omega
  · rw [position, Nat.add_sub_cancel, middle]

section Complete

variable (choice : BloomChoice) (ts : Nat) (table : MemTable) (fit : TableFits table.entries)

def blockIndexOf (entries : List LogEntry) : BlockIndex :=
  ⟨(indexFrom 0 (tableBlocks entries)).map fun b => ⟨b.lastKey, b.blockOffset⟩,
    (entryFormat.encodeAll entries).length⟩

theorem flatten_tableBlocks (entries : List LogEntry) : (tableBlocks entries).flatten = entries :=
  flatten_blocksOf _ entries

theorem tableBlocks_sorted : (tableBlocks table.entries).flatten.Pairwise KeyLt := by
  rw [flatten_tableBlocks]
  exact table.sorted

theorem block_sorted (block : List LogEntry) (inside : block ∈ tableBlocks table.entries) :
    block.Pairwise KeyLt :=
  (pairwise_flatten.mp (tableBlocks_sorted table)).1 block inside

include fit

theorem tableBlocks_few : (tableBlocks table.entries).length ≠ 0 ∧
    (tableBlocks table.entries).length < 2 ^ 32 := by
  have count := length_blocksOf (sstableBlockSize - 1) table.entries
  have size := (length_encodeAll_ge table.entries).1
  have small := fit.small
  constructor
  · intro none
    apply fit.nonempty
    rw [← flatten_tableBlocks table.entries, eq_nil_of_length_eq_zero none]
    rfl
  · rw [tableBlocks]
    change _ * 64 ≤ _ + 63 at count
    omega

theorem tableBlocks_ne_nil : tableBlocks table.entries ≠ [] := by
  intro none
  exact (tableBlocks_few table fit).1 (by rw [none]; rfl)

theorem dataLength_pos : 0 < (entryFormat.encodeAll table.entries).length := by
  have size := (length_encodeAll_ge table.entries).1
  have positive := length_pos_of_ne_nil fit.nonempty
  omega

theorem readFooter_tableBytes : readFooter (tableBytes choice ts table.entries) =
    some ((tableBlocks table.entries).length, (entryFormat.encodeAll table.entries).length) := by
  have few := tableBlocks_few table fit
  have small := fit.small
  rw [tableBytes, writeTail, ← append_assoc, ← append_assoc, length_indexFrom]
  exact readFooter_append _ _ _ few.1 few.2 (dataLength_pos table fit) (by omega)

theorem loadBlockIndex_tableBytes :
    loadBlockIndex (tableBytes choice ts table.entries) = some (blockIndexOf table.entries) := by
  have reads : ∀ b ∈ indexFrom 0 (tableBlocks table.entries), ∀ rest,
      readIndexEntry (encodeBlockMeta b ++ rest) = some (⟨b.lastKey, b.blockOffset⟩, rest) := by
    intro b member rest
    obtain ⟨⟨block, inside, same⟩, bound⟩ := mem_indexFrom 0 _ b member
    rw [flatten_tableBlocks] at bound
    obtain ⟨⟨entry, entryIn, key⟩, _⟩ :=
      isLast_lastKey block (blocksOf_ne_nil _ _ block inside) (block_sorted table block inside)
    have keyFits : entry.1.length < 2 ^ 32 := by
      apply (fit.fits entry _).1
      rw [← flatten_tableBlocks table.entries]
      exact mem_flatten.mpr ⟨block, inside, entryIn⟩
    have small := fit.small
    exact readIndexEntry_encoded b rest (by rw [same, ← key]; exact keyFits) (by omega)
  have index := readMany_encoded readIndexEntry encodeBlockMeta
    (fun b => ⟨b.lastKey, b.blockOffset⟩) (indexFrom 0 (tableBlocks table.entries))
    (bloomSection (choice.blob ts (table.entries.map Prod.fst)) ++
      indexFooter (indexFrom 0 (tableBlocks table.entries)).length
        (entryFormat.encodeAll table.entries).length) reads
  rw [length_indexFrom] at index
  rw [loadBlockIndex, readFooter_tableBytes choice ts table fit, Option.bind_some, tableBytes,
    drop_left, writeTail, length_indexFrom, index]
  rfl

theorem blob_small : (choice.blob ts (table.entries.map Prod.fst)).length < 2 ^ 64 := by
  have bound := choice.length_blob_le ts (table.entries.map Prod.fst)
  have size := (length_encodeAll_ge table.entries).2
  have small := fit.small
  rw [map_map] at bound
  exact lt_of_le_of_lt (bound.trans (Nat.add_le_add_left size 5)) (by omega)

theorem loadBloom_tableBytes : loadBloom (tableBytes choice ts table.entries) = none ∨
    ∃ bloom, loadBloom (tableBytes choice ts table.entries) = some bloom ∧
      (∀ key, table.lookup key ≠ none → bloom.mayContain key = some true) ∧
      ∀ key, bloom.mayContain key ≠ none := by
  have blobSmall := blob_small choice ts table fit
  have shape : tableBytes choice ts table.entries = (entryFormat.encodeAll table.entries ++
      ((indexFrom 0 (tableBlocks table.entries)).map encodeBlockMeta).flatten) ++
        (bloomSection (choice.blob ts (table.entries.map Prod.fst)) ++
          indexFooter (indexFrom 0 (tableBlocks table.entries)).length
            (entryFormat.encodeAll table.entries).length) := by
    rw [tableBytes, writeTail, append_assoc]
  rw [shape, loadBloom_append _ _ _ blobSmall (by simp [indexFooter, indexFooterSize])]
  split_ifs with refused
  · exact .inl rfl
  · rw [not_or, not_lt] at refused
    obtain ⟨bloom, decoded, pass, answers⟩ := choice.decode_blob ts _ refused.2
    refine .inr ⟨bloom, decoded, fun key held => pass key ?_, answers⟩
    obtain ⟨value, found⟩ := Option.ne_none_iff_exists'.mp held
    exact mem_map_of_mem ((table.mem_entries_iff key value).mpr found)

omit fit in
theorem lastKeyAt_blockIndexOf (i : Nat) : (blockIndexOf table.entries).lastKeyAt i =
    ((tableBlocks table.entries)[i]?.map lastKey).getD [] := by
  have keys : ∀ (offset : Nat) (blocks : List (List LogEntry)) (i : Nat),
      (indexFrom offset blocks)[i]?.map BlockMeta.lastKey = blocks[i]?.map lastKey := by
    intro offset blocks
    induction blocks generalizing offset with
    | nil => exact fun i => rfl
    | cons block blocks ih =>
      intro i
      cases i with
      | zero => rfl
      | succ i => exact ih _ i
  rw [BlockIndex.lastKeyAt, blockIndexOf, List.getElem?_map, Option.map_map, ← keys 0]
  rfl

/-- The search of the index finds the block that can hold the key. -/
theorem located_search (key : Bytes) : ∃ before block after,
    Located (tableBlocks table.entries) key ((blockIndexOf table.entries).search key)
      before block after := by
  have nonempty := tableBlocks_ne_nil table fit
  have lasts : ∀ i block, (tableBlocks table.entries)[i]? = some block →
      IsLast block ((blockIndexOf table.entries).lastKeyAt i) := by
    intro i block found
    have inside := mem_of_getElem? found
    rw [lastKeyAt_blockIndexOf, found, Option.map_some, Option.getD_some]
    exact isLast_lastKey block (blocksOf_ne_nil _ _ block inside) (block_sorted table block inside)
  have count : (blockIndexOf table.entries).entries.length = (tableBlocks table.entries).length := by
    rw [blockIndexOf, length_map, length_indexFrom]
  rw [BlockIndex.search, count]
  exact located (tableBlocks_sorted table) nonempty lasts

omit fit in
theorem blockIndexOf_at (before after : List (List LogEntry)) (block : List LogEntry)
    (split : tableBlocks table.entries = before ++ block :: after) :
    (blockIndexOf table.entries).entries[before.length]? =
        some ⟨lastKey block, (entryFormat.encodeAll before.flatten).length⟩ ∧
      (blockIndexOf table.entries).blockEnd before.length =
        (entryFormat.encodeAll before.flatten).length + (entryFormat.encodeAll block).length := by
  have whole : table.entries = before.flatten ++ (block ++ after.flatten) := by
    rw [← flatten_tableBlocks table.entries, split, flatten_append, flatten_cons]
  have index : indexFrom 0 (tableBlocks table.entries) = indexFrom 0 before ++
      ⟨lastKey block, (entryFormat.encodeAll before.flatten).length⟩ ::
        indexFrom ((entryFormat.encodeAll before.flatten).length +
          (entryFormat.encodeAll block).length) after := by
    rw [split, indexFrom_append, indexFrom, Nat.zero_add]
  constructor
  · rw [blockIndexOf, index, map_append, map_cons]
    exact List.getElem?_append_right (by simp) |>.trans (by simp)
  · have next : (blockIndexOf table.entries).entries[before.length + 1]? =
        (indexFrom ((entryFormat.encodeAll before.flatten).length +
          (entryFormat.encodeAll block).length) after)[0]?.map
            fun b => ⟨b.lastKey, b.blockOffset⟩ := by
      rw [blockIndexOf, index, map_append, map_cons]
      exact List.getElem?_append_right (by simp) |>.trans (by simp)
    rw [BlockIndex.blockEnd, next]
    cases after with
    | nil =>
      have data : (blockIndexOf table.entries).dataEnd =
          (entryFormat.encodeAll before.flatten).length + (entryFormat.encodeAll block).length := by
        rw [blockIndexOf, whole, entryFormat.encodeAll_append, flatten_nil, append_nil,
          length_append]
      simp only [indexFrom, List.getElem?_nil, Option.map_none, data]
      rfl
    | cons more rest =>
      rfl

theorem searchBlock_tableBytes (key : Bytes) :
    searchBlock (tableBytes choice ts table.entries) key (blockIndexOf table.entries) =
      table.lookup key := by
  obtain ⟨before, block, after, located⟩ := located_search table fit key
  obtain ⟨entry, stop⟩ := blockIndexOf_at table before after block located.split
  have whole : table.entries = before.flatten ++ (block ++ after.flatten) := by
    rw [← flatten_tableBlocks table.entries, located.flatten]
  have blockIn : block ∈ tableBlocks table.entries := located.block_mem
  have positive : 0 < (entryFormat.encodeAll block).length := by
    have size := (length_encodeAll_ge block).1
    have some_ := length_pos_of_ne_nil (blocksOf_ne_nil _ _ block blockIn)
    omega
  obtain ⟨tail, file⟩ : ∃ tail, tableBytes choice ts table.entries =
      entryFormat.encodeAll before.flatten ++ (entryFormat.encodeAll block ++ tail) := by
    refine ⟨entryFormat.encodeAll after.flatten ++ writeTail choice ts
      (indexFrom 0 (tableBlocks table.entries)) (table.entries.map Prod.fst)
        (entryFormat.encodeAll table.entries).length, ?_⟩
    rw [tableBytes]
    nth_rewrite 1 [whole]
    rw [entryFormat.encodeAll_append, entryFormat.encodeAll_append]
    simp only [append_assoc]
  have cut : slice (tableBytes choice ts table.entries) (entryFormat.encodeAll before.flatten).length
      ((entryFormat.encodeAll before.flatten).length + (entryFormat.encodeAll block).length) =
        entryFormat.encodeAll block := by
    rw [file]
    exact slice_middle _ _ _ _ _ rfl rfl
  have fits : ∀ record ∈ block, EntryFits record := by
    intro record member
    apply fit.fits record
    rw [whole]
    exact mem_append_right _ (mem_append_left _ member)
  have inside : (entryFormat.encodeAll before.flatten).length + (entryFormat.encodeAll block).length ≤
      (tableBytes choice ts table.entries).length := by
    rw [file]
    simp only [length_append]
    omega
  have found : SortedMap.lookupIn key block = table.lookup key := by
    rw [← located.lookupIn, flatten_tableBlocks]
    rfl
  rw [searchBlock, ← located.position, entry, Option.bind_some, stop]
  simp only
  rw [if_neg (by omega), Int.toNat_natCast, ← Nat.cast_add, Int.toNat_natCast, cut,
    records_encodeAll_entries block fits, searchEntries_eq_lookupIn key block (block_sorted table block blockIn),
    found]

omit fit in
theorem filtered_lookup (bloom : PartitionedBloom) (key : Bytes)
    (pass : table.lookup key ≠ none → bloom.mayContain key = some true)
    (answers : bloom.mayContain key ≠ none) :
    ((bloom.mayContain key).map fun may => if may then table.lookup key else none) =
      some (table.lookup key) := by
  cases may : bloom.mayContain key with
  | none => exact absurd may answers
  | some may' =>
    cases may' with
    | true => rfl
    | false =>
      by_contra differs
      have held : table.lookup key ≠ none := fun missing => differs (by rw [missing]; rfl)
      cases (pass held).symm.trans may

theorem readTable_tableBytes (key : Bytes) :
    readTable (tableBytes choice ts table.entries) key = some (table.lookup key) := by
  rw [readTable, loadBlockIndex_tableBytes choice ts table fit]
  simp only [searchBlock_tableBytes choice ts table fit key]
  rcases loadBloom_tableBytes choice ts table fit with absent | ⟨bloom, loaded, pass, answers⟩
  · rw [absent, Option.elim_none, Option.map_some, if_pos rfl]
  · rw [loaded, Option.elim_some]
    exact filtered_lookup table bloom key (pass key) (answers key)

omit fit in
theorem scanRecords_encodeAll (entries : List LogEntry) (tail : Bytes) (stop fuel pos : Nat)
    (fits : ∀ entry ∈ entries, EntryFits entry)
    (ends : pos + (entryFormat.encodeAll entries).length = stop) (enough : entries.length < fuel) :
    scanRecords (some stop) fuel pos (entryFormat.encodeAll entries ++ tail) = (entries, []) := by
  induction entries generalizing fuel pos with
  | nil =>
    obtain ⟨less, rfl⟩ : ∃ less, fuel = less + 1 := ⟨fuel - 1, by simp at enough; omega⟩
    rw [show entryFormat.encodeAll [] = [] from rfl, length_nil, Nat.add_zero] at ends
    rw [scanRecords, ends, if_pos (by simp)]
  | cons entry entries ih =>
    obtain ⟨less, rfl⟩ : ∃ less, fuel = less + 1 := ⟨fuel - 1, by simp at enough; omega⟩
    have width := length_encodeEntry entry
    rw [entryFormat.encodeAll_cons, length_append] at ends
    change pos + ((encodeEntry entry).length + _) = stop at ends
    have running : ¬ (some stop).any (fun stop => decide (stop ≤ pos)) = true := by
      simp only [Option.any_some, decide_eq_true_eq, not_le]
      omega
    have read : readEntry (entryFormat.encodeAll (entry :: entries) ++ tail) =
        some (entry, entryFormat.encodeAll entries ++ tail) := by
      rw [entryFormat.encodeAll_cons, append_assoc]
      exact readEntry_encodeEntry entry _ (fits entry (.head _))
    have advanced : pos + ((entryFormat.encodeAll (entry :: entries) ++ tail).length -
        (entryFormat.encodeAll entries ++ tail).length) = pos + (encodeEntry entry).length := by
      rw [entryFormat.encodeAll_cons, append_assoc, length_append, Nat.add_sub_cancel]
      rfl
    have rest := ih less (pos + (encodeEntry entry).length)
      (fun other member => fits other (.tail _ member)) (by omega)
      (by simpa using enough)
    rw [scanRecords, if_neg running, read]
    simp only [advanced, rest]

theorem iterateFrom_tableBytes (front back : List LogEntry) (split : table.entries = front ++ back) :
    iterateFrom (tableBytes choice ts table.entries) (entryFormat.encodeAll front).length =
      ⟨back, false⟩ := by
  obtain ⟨tail, file, long⟩ : ∃ tail, tableBytes choice ts table.entries =
      entryFormat.encodeAll front ++ (entryFormat.encodeAll back ++ tail) ∧ 0 < tail.length := by
    refine ⟨writeTail choice ts (indexFrom 0 (tableBlocks table.entries))
      (table.entries.map Prod.fst) (entryFormat.encodeAll table.entries).length, ?_, ?_⟩
    · rw [tableBytes]
      nth_rewrite 1 [split]
      rw [entryFormat.encodeAll_append, append_assoc]
    · simp only [writeTail, bloomSection, indexFooter, length_append, beBytes_length]
      omega
  have ends : (entryFormat.encodeAll front).length + (entryFormat.encodeAll back).length =
      (entryFormat.encodeAll table.entries).length := by
    rw [split, entryFormat.encodeAll_append, length_append]
  have enough : back.length < (tableBytes choice ts table.entries).length := by
    have whole := entryFormat.length_le_encodeAll back
    rw [file]
    simp only [length_append]
    omega
  have scanned := scanRecords_encodeAll back tail _ _ _
    (fun entry member => fit.fits entry (by rw [split]; exact mem_append_right _ member))
    ends enough
  have rest : (tableBytes choice ts table.entries).drop (entryFormat.encodeAll front).length =
      entryFormat.encodeAll back ++ tail := by
    rw [file, drop_left]
  rw [iterateFrom, sstableDataEnd, readFooter_tableBytes choice ts table fit, Option.map_some, rest,
    scanned]
  rfl

theorem iterateFrom_zero_tableBytes :
    iterateFrom (tableBytes choice ts table.entries) 0 = ⟨table.entries, false⟩ :=
  iterateFrom_tableBytes choice ts table fit [] table.entries rfl

theorem seekTable_tableBytes (start : Bytes) : ∃ front back, table.entries = front ++ back ∧
    seekTable (tableBytes choice ts table.entries) start = ⟨back, false⟩ ∧
      ∀ entry ∈ front, entry.1 < start := by
  obtain ⟨before, block, after, located⟩ := located_search table fit start
  obtain ⟨entry, _⟩ := blockIndexOf_at table before after block located.split
  have whole : table.entries = before.flatten ++ (block ++ after.flatten) := by
    rw [← flatten_tableBlocks table.entries, located.flatten]
  have blockIn : block ∈ tableBlocks table.entries := located.block_mem
  have last := isLast_lastKey block (blocksOf_ne_nil _ _ block blockIn)
    (block_sorted table block blockIn)
  rw [seekTable, loadBlockIndex_tableBytes choice ts table fit]
  simp only
  rw [← located.position, entry]
  simp only
  by_cases unbounded : start = []
  · rw [if_pos unbounded]
    exact ⟨[], table.entries, rfl, iterateFrom_zero_tableBytes choice ts table fit, nofun⟩
  · rw [if_neg unbounded]
    by_cases passed : lastKey block < start
    · have ended : after = [] := by
        by_contra more
        obtain ⟨top, inside, reached⟩ := located.reached more
        exact passed.not_ge (reached.trans (last.2 top inside))
      rw [if_pos passed]
      refine ⟨table.entries, [], (append_nil _).symm, rfl, fun other member => ?_⟩
      rw [whole, ended, flatten_nil, append_nil] at member
      rcases mem_append.mp member with earlier | here
      · exact located.below other earlier
      · exact (last.2 other here).trans_lt passed
    · rw [if_neg passed, if_neg (Int.natCast_nonneg _).not_gt, Int.toNat_natCast]
      exact ⟨before.flatten, block ++ after.flatten, whole,
        iterateFrom_tableBytes choice ts table fit _ _ whole, located.below⟩

theorem tableFeed_tableBytes (start stop : Bytes) :
    tableFeed start stop (tableBytes choice ts table.entries) =
      rangeFeed start stop false table.entries := by
  obtain ⟨front, back, split, seek, below⟩ := seekTable_tableBytes choice ts table fit start
  rw [tableFeed, seek, split, rangeFeed_append start stop false front back below]

end Complete

end KairosFlux.Storage
