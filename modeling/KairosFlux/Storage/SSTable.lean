import KairosFlux.Lib.SortedMap
import KairosFlux.Lib.TornLog

/-! Sorted tables on disk (`storage/sstable_write.go`, `storage/sstable_read.go`).

A file is its data section and the last key of its block index. The index and the Bloom filter
behind the data only narrow a lookup down to one block, so a lookup reads the data section here. -/

namespace KairosFlux.Storage

open Lib List

/-- A key with its value; `none` is the nil slice and stands for a tombstone. -/
abbrev LogEntry := Bytes × Option Bytes

def tombstoneValLen : Nat := 0xFFFFFFFF

-- A tombstone has only the sentinel length and no value bytes.
def encodeValue : Option Bytes → Bytes
  | none => beBytes 4 tombstoneValLen
  | some value => beBytes 4 value.length ++ value

/-- `[klen u32][key][vlen u32][value]`, big-endian. -/
def encodeEntry (entry : LogEntry) : Bytes :=
  beBytes 4 entry.1.length ++ (entry.1 ++ encodeValue entry.2)

def readValue (key : Bytes) (vLen : Nat) (rest : Bytes) : Option (LogEntry × Bytes) :=
  if vLen = tombstoneValLen then some ((key, none), rest)
  else if rest.length < vLen then none
  else some ((key, some (rest.take vLen)), rest.drop vLen)

def readKey (kLen : Nat) (body : Bytes) : Option (LogEntry × Bytes) :=
  if body.length < kLen + 4 then none
  else readValue (body.take kLen) (beValue (slice body kLen (kLen + 4))) (body.drop (kLen + 4))

/-- One round of the scan in `searchBlock`. -/
def readEntry (bytes : Bytes) : Option (LogEntry × Bytes) :=
  if bytes.length < 4 then none
  else readKey (beValue (bytes.take 4)) (bytes.drop 4)

def EntryFits (entry : LogEntry) : Prop :=
  entry.1.length < 2 ^ 32 ∧ ∀ value, entry.2 = some value → value.length < 2 ^ 32 - 1
deriving Decidable

theorem readEntry_header (kLen : Nat) (body : Bytes) (small : kLen < 2 ^ 32) :
    readEntry (beBytes 4 kLen ++ body) = readKey kLen body := by
  have long : ¬ (beBytes 4 kLen ++ body).length < 4 := by
    rw [length_append, beBytes_length]
    omega
  have front : (beBytes 4 kLen).length = 4 := beBytes_length 4 kLen
  rw [readEntry, if_neg long, take_left' front, drop_left' front, beValue_u32 kLen small]

theorem readKey_value (key : Bytes) (vLen : Nat) (rest : Bytes) (small : vLen < 2 ^ 32) :
    readKey key.length (key ++ (beBytes 4 vLen ++ rest)) = readValue key vLen rest := by
  have long : ¬ (key ++ (beBytes 4 vLen ++ rest)).length < key.length + 4 := by
    simp only [length_append, beBytes_length]
    omega
  obtain ⟨atValue, after⟩ := slice_drop (show (key ++ _).drop key.length = beBytes 4 vLen ++ rest from drop_left) (by simp : _ = key.length + 4)
  rw [readKey, if_neg long, take_left, atValue, after, beValue_u32 vLen small]

theorem readEntry_encodeEntry (entry : LogEntry) (rest : Bytes) (fits : EntryFits entry) :
    readEntry (encodeEntry entry ++ rest) = some (entry, rest) := by
  obtain ⟨key, value⟩ := entry
  have header : readEntry (encodeEntry (key, value) ++ rest) =
      readKey key.length (key ++ (encodeValue value ++ rest)) := by
    rw [encodeEntry, append_assoc, append_assoc]
    exact readEntry_header key.length _ fits.1
  rw [header]
  cases value with
  | none =>
    rw [encodeValue, readKey_value key tombstoneValLen rest (by decide), readValue, if_pos rfl]
  | some value =>
    have small : value.length < 2 ^ 32 - 1 := fits.2 value rfl
    have plain : value.length ≠ tombstoneValLen := by
      rw [tombstoneValLen]
      omega
    have inside : ¬ (value ++ rest).length < value.length := by
      rw [length_append]
      omega
    rw [encodeValue, append_assoc, readKey_value key value.length _ (by omega), readValue,
      if_neg plain, if_neg inside, take_left, drop_left]

theorem length_encodeEntry (entry : LogEntry) :
    (encodeEntry entry).length = 4 + entry.1.length + (encodeValue entry.2).length := by
  rw [encodeEntry, length_append, length_append, beBytes_length, Nat.add_assoc]

-- The cut falls into the key length, into the key or the value length, or into the value.
theorem readEntry_cut (entry : LogEntry) (n : Nat) (fits : EntryFits entry)
    (cut : n < (encodeEntry entry).length) : readEntry ((encodeEntry entry).take n) = none := by
  obtain ⟨key, value⟩ := entry
  rw [length_encodeEntry] at cut
  change n < 4 + key.length + (encodeValue value).length at cut
  by_cases inHeader : n < 4
  · rw [readEntry, if_pos]
    rw [length_take]
    omega
  · have header : readEntry ((encodeEntry (key, value)).take n) =
        readKey key.length ((key ++ encodeValue value).take (n - 4)) := by
      rw [encodeEntry, take_append, beBytes_length,
        take_of_length_le (by rw [beBytes_length]; omega)]
      exact readEntry_header key.length _ fits.1
    rw [header]
    by_cases inKey : n - 4 < key.length + 4
    · rw [readKey, if_pos]
      rw [length_take]
      omega
    · cases value with
      | none =>
        rw [encodeValue, beBytes_length] at cut
        omega
      | some value =>
        have small : value.length < 2 ^ 32 - 1 := fits.2 value rfl
        rw [encodeValue, length_append, beBytes_length] at cut
        have body : (key ++ encodeValue (some value)).take (n - 4) =
            key ++ (beBytes 4 value.length ++ value.take (n - 8 - key.length)) := by
          rw [encodeValue, take_append, take_append, beBytes_length, take_of_length_le (by omega),
            take_of_length_le (by rw [beBytes_length]; omega)]
          congr 3
          omega
        have plain : value.length ≠ tombstoneValLen := by
          rw [tombstoneValLen]
          omega
        rw [body, readKey_value key value.length _ (by omega), readValue, if_neg plain, if_pos]
        rw [length_take]
        omega

def entryFormat : Framing LogEntry where
  encode := encodeEntry
  read := readEntry
  fits := EntryFits
  readBack := id
  encode_pos entry := by rw [length_encodeEntry]; omega
  read_nil := rfl
  read_encode := readEntry_encodeEntry
  read_cut := readEntry_cut

/-- The scan stops at the first larger key. -/
def searchEntries (key : Bytes) : List LogEntry → Option (Option Bytes)
  | [] => none
  | entry :: rest =>
    if entry.1 = key then some entry.2
    else if key < entry.1 then none
    else searchEntries key rest

def readFromSSTable (data : Bytes) (key : Bytes) : Option (Option Bytes) :=
  searchEntries key (entryFormat.records data)

theorem searchEntries_eq_lookupIn (key : Bytes) (entries : List LogEntry)
    (sorted : entries.Pairwise KeyLt) :
    searchEntries key entries = SortedMap.lookupIn key entries := by
  induction entries with
  | nil => rfl
  | cons entry rest ih =>
    obtain ⟨heads, tails⟩ := pairwise_cons.mp sorted
    rw [searchEntries, SortedMap.lookupIn, ih tails]
    by_cases here : entry.1 = key
    · rw [if_pos here, if_pos here]
    · rw [if_neg here, if_neg here]
      by_cases passed : key < entry.1
      · rw [if_pos passed]
        symm
        apply SortedMap.lookupIn_eq_none
        intro other member same
        exact lt_irrefl key (passed.trans (same ▸ heads other member))
      · rw [if_neg passed]

/-- A value as long as the tombstone mark is read as a tombstone. -/
theorem readFromSSTable_markLength (key value : Bytes) (small : key.length < 2 ^ 32)
    (long : value.length = tombstoneValLen) :
    readFromSSTable (entryFormat.encodeAll [(key, some value)]) key = some none := by
  have read : readEntry (entryFormat.encodeAll [(key, some value)]) = some ((key, none), value) := by
    rw [entryFormat.encodeAll_cons, show entryFormat.encodeAll [] = [] from rfl, append_nil,
      show entryFormat.encode (key, some value) = encodeEntry (key, some value) from rfl,
      encodeEntry, readEntry_header key.length _ small, encodeValue,
      readKey_value key value.length value (by rw [long]; decide), readValue, if_pos long]
  obtain ⟨more, records⟩ := entryFormat.records_cons (entryFormat.encodeAll [(key, some value)])
    (key, none) value read
  rw [readFromSSTable, records, searchEntries, if_pos rfl]

theorem readFromSSTable_encodeAll (table : SortedMap Bytes (Option Bytes)) (key : Bytes)
    (fits : ∀ entry ∈ table.entries, EntryFits entry) :
    readFromSSTable (entryFormat.encodeAll table.entries) key = table.lookup key := by
  have whole := (entryFormat.records_encodeAll table.entries [] fits rfl).1
  rw [append_nil] at whole
  rw [readFromSSTable, whole, show entryFormat.readBack = id from rfl, map_id]
  exact searchEntries_eq_lookupIn key table.entries table.sorted

end KairosFlux.Storage
