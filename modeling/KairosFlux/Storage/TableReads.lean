import KairosFlux.Lib.Decimal
import KairosFlux.Storage.TornTable

/-! What comes out of a table file again: by a key, over a range and in a merge
(`storage/sstable_read.go`, `storage/iterator.go`, `storage/sstable_write.go`).

The footer has four bytes for the number of blocks. A file of 2 ^ 32 blocks is taken for one without
an index, and then its index is read as records. -/

namespace KairosFlux.Storage

open Lib List

/-- `ReadFromSSTable` with a filter and an index from the caches. -/
def readTableWith (bloom : Option PartitionedBloom) (index : Option BlockIndex) (file key : Bytes) :
    Option (Option (Option Bytes)) :=
  (bloom.elim (some true) fun bloom => bloom.mayContain key).map fun may =>
    if may then
      match index with
      | some bi => searchBlock file key bi
      | none => readFromSSTableFull file key
    else none

def builtBloom (choice : BloomChoice) (entries : List LogEntry) : PartitionedBloom :=
  .build choice.sizing defaultNamespaceSep (entries.map Prod.fst)

/-- Keys and values shorter than the mark of a deleted key. -/
def Short (entries : List LogEntry) : Prop :=
  ∀ entry ∈ entries, EntryFits entry ∧ entry.1.length < 2 ^ 32 - 1

theorem scanRecords_none_encodeAll (entries : List LogEntry) (tail : Bytes) (fuel pos : Nat)
    (fits : ∀ entry ∈ entries, EntryFits entry) : ∃ more,
      (scanRecords none (entries.length + fuel) pos (entryFormat.encodeAll entries ++ tail)).1 =
        entries ++ more := by
  induction entries generalizing pos with
  | nil => exact ⟨_, rfl⟩
  | cons entry entries ih =>
    have read : readEntry (entryFormat.encodeAll (entry :: entries) ++ tail) =
        some (entry, entryFormat.encodeAll entries ++ tail) := by
      rw [entryFormat.encodeAll_cons, append_assoc]
      exact readEntry_encodeEntry entry _ (fits entry (.head _))
    rcases ih _ (forall_mem_of_forall_mem_cons fits) with ⟨more, rest⟩
    refine ⟨more, ?_⟩
    rw [length_cons, Nat.succ_add, scanRecords, read]
    simpa using rest

theorem readAll_wrapped (choice : BloomChoice) (ts : Nat) (entries : List LogEntry)
    (first second : List LogEntry) (rest : List (List LogEntry))
    (short : Short entries) (blocks : tableBlocks entries = first :: second :: rest)
    (wrapped : (tableBlocks entries).length % 2 ^ 32 = 0) :
    readFooter (tableBytes choice ts entries) = none ∧ ∃ more,
      readAllFromSSTable (tableBytes choice ts entries) =
        entries ++ (lastKey first, some []) :: ([], some (lastKey second)) :: more := by
  have missing : readFooter (tableBytes choice ts entries) = none := by
    rw [tableBytes, writeTail, ← append_assoc, ← append_assoc, length_indexFrom,
      readFooter_indexFooter, wrapped]
    rfl
  have within : ∀ block ∈ tableBlocks entries, (lastKey block).length < 2 ^ 32 - 1 := by
    intro block member
    rw [lastKey]
    cases last : block.getLast? with
    | none => decide
    | some entry =>
      refine (short entry ?_).2
      rw [← flatten_tableBlocks entries]
      exact mem_flatten.mpr ⟨block, member, mem_of_getLast? last⟩
  rw [blocks] at within
  let phantoms : List LogEntry := [(lastKey first, some []), ([], some (lastKey second))]
  obtain ⟨tail, file⟩ : ∃ tail, tableBytes choice ts entries =
      entryFormat.encodeAll (entries ++ phantoms) ++ tail := by
    have zero : beBytes 8 0 = beBytes 4 0 ++ beBytes 4 0 := rfl
    have both : entryFormat.encodeAll phantoms =
        encodeEntry (lastKey first, some []) ++ encodeEntry ([], some (lastKey second)) :=
      congrArg _ (append_nil _)
    rw [tableBytes, writeTail, blocks, entryFormat.encodeAll_append, both]
    simp only [indexFrom, map_cons, flatten_cons, encodeBlockMeta, encodeEntry, encodeValue,
      zero, append_assoc, length_nil, nil_append]
    exact ⟨_, rfl⟩
  have fit : ∀ entry ∈ entries ++ phantoms, EntryFits entry := by
    intro entry member
    rcases mem_append.mp member with old | new
    · exact (short entry old).1
    · have one := within first (by simp)
      have two := within second (by simp)
      simp only [phantoms, mem_cons, not_mem_nil, or_false] at new
      rcases new with rfl | rfl <;> simp [EntryFits] <;> omega
  have enough := entryFormat.length_le_encodeAll (entries ++ phantoms)
  obtain ⟨fuel, length⟩ : ∃ fuel, (tableBytes choice ts entries).length =
      (entries ++ phantoms).length + fuel := by
    refine Nat.exists_eq_add_of_le (enough.trans ?_)
    rw [file, length_append]
    exact Nat.le_add_right _ _
  rcases scanRecords_none_encodeAll (entries ++ phantoms) tail fuel 0 fit with ⟨more, scanned⟩
  refine ⟨missing, more, ?_⟩
  rw [readAllFromSSTable, sstableDataEnd, missing, length, file, Option.map_none, scanned,
    append_assoc]
  rfl

/-- Deleted keys, numbered on from `first`. -/
def numbered (first count : Nat) : List LogEntry :=
  (List.range' first count).map fun i => (decimalFixed 20 i, none)

theorem numbered_sorted (first count : Nat) (small : first + count ≤ 10 ^ 20) :
    (numbered first count).Pairwise KeyLt := by
  rw [numbered, pairwise_map]
  refine List.Pairwise.imp_of_mem (fun left right less => ?_) pairwise_lt_range'
  rw [mem_range'_1] at left right
  exact (decimalFixed_lt_iff 20 _ _ (by omega) (by omega)).mpr less

theorem numbered_succ (first count : Nat) :
    numbered first (count + 1) = (decimalFixed 20 first, none) :: numbered (first + 1) count := by
  rw [numbered, List.range'_succ]
  rfl

theorem exists_wrapped : ∃ table : MemTable, Short table.entries ∧
      (∃ rest, table.entries = (decimalFixed 20 0, none) :: (decimalFixed 20 1, none) :: rest) ∧
      readFooter (tableBytes plainBloom 7 table.entries) = none ∧
      ∃ key value more, readAllFromSSTable (tableBytes plainBloom 7 table.entries) =
        table.entries ++ (key, some []) :: ([], some value) :: more := by
  let table : MemTable := ⟨numbered 0 (2 ^ 38 - 2 + 1 + 1), numbered_sorted _ _ (by norm_num)⟩
  have count : (tableBlocks table.entries).length = 2 ^ 32 := by
    have length : table.entries.length = 2 ^ 38 - 2 + 1 + 1 :=
      (length_map _).trans length_range'
    have most := length_blocksOf (sstableBlockSize - 1) table.entries
    have least := le_length_cutBlocks (sstableBlockSize - 1) _ table.entries le_rfl
    rw [← blocksOf] at least
    rw [length, sstableBlockSize] at most least
    rw [tableBlocks, sstableBlockSize]
    omega
  have start : table.entries = _ := numbered_succ 0 (2 ^ 38 - 2 + 1)
  rw [numbered_succ] at start
  rcases blocks : tableBlocks table.entries with _ | ⟨first, _ | ⟨second, rest⟩⟩
  · simp [blocks] at count
  · simp [blocks] at count
  · have short : Short table.entries := by
      intro entry member
      rcases mem_map.mp member with ⟨i, _, rfl⟩
      simp [EntryFits]
    rcases readAll_wrapped plainBloom 7 table.entries first second rest short blocks
      (by rw [count, Nat.mod_self]) with ⟨missing, more, reads⟩
    exact ⟨table, short, ⟨_, start⟩, missing, _, _, more, reads⟩

theorem entries_eq_of_lookup (left right : MemTable) (same : ∀ key, left.lookup key = right.lookup key) :
    left.entries = right.entries := by
  have once : ∀ table : MemTable, table.entries.Nodup := fun table =>
    table.sorted.imp fun less same => absurd (same ▸ less) (lt_irrefl _)
  have members : ∀ entry, entry ∈ left.entries ↔ entry ∈ right.entries := by
    rintro ⟨key, value⟩
    rw [left.mem_entries_iff, right.mem_entries_iff, same]
  exact ((perm_ext_iff_of_nodup (once left) (once right)).mpr members).eq_of_pairwise
    (fun _ _ _ _ less more => absurd (lt_trans less more) (lt_irrefl _)) left.sorted right.sorted

end KairosFlux.Storage
