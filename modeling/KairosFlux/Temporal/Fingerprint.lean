import KairosFlux.Temporal.Keys
import KairosFlux.Temporal.Record
import Mathlib.Data.List.Sort
import Mathlib.Data.Prod.Lex

/-! The state fingerprint (`Fingerprint` of `internal/temporal/temporal.go`).

Each entry is written as `key|seq|length|payload` and a line feed. The length guards the payload;
nothing guards the key. -/

namespace KairosFlux.Temporal

open Lib List

structure Entry where
  logicalKey : Bytes
  seq : UInt64
  payload : Bytes
  deriving DecidableEq

/-- The order of logical key and then number, in which every listing of records is returned. -/
def keySeqLe (left right : Bytes × UInt64) : Prop :=
  left.1 < right.1 ∨ left.1 = right.1 ∧ left.2 ≤ right.2
deriving Decidable

def Entry.place (e : Entry) : Bytes × UInt64 := (e.logicalKey, e.seq)

def entryHeader (e : Entry) : Bytes :=
  e.logicalKey ++ 124 :: (decimal e.seq.toNat ++ 124 :: (decimal e.payload.length ++ [124]))

def entryBytes (e : Entry) : Bytes := entryHeader e ++ (e.payload ++ [10])

def sortEntries (entries : List Entry) : List Entry :=
  entries.insertionSort fun left right => keySeqLe left.place right.place

/-- The bytes fed to SHA-256. -/
def fingerprintStream (entries : List Entry) : Bytes :=
  ((sortEntries entries).map entryBytes).flatten

def fingerprint (entries : List Entry) : Bytes := hexEncode (sha256 (fingerprintStream entries))

theorem keySeqLe_iff (left right : Bytes × UInt64) :
    keySeqLe left right ↔ toLex left ≤ toLex right := by
  rw [keySeqLe, Prod.Lex.toLex_le_toLex]

instance keySeqLe_total : Std.Total keySeqLe :=
  ⟨fun left right => by rw [keySeqLe_iff, keySeqLe_iff]; exact le_total _ _⟩

instance keySeqLe_trans : IsTrans (Bytes × UInt64) keySeqLe :=
  ⟨fun first second third less more => by
    rw [keySeqLe_iff] at less more ⊢
    exact le_trans less more⟩

theorem sortEntries_sorted (entries : List Entry) (distinct : (entries.map Entry.place).Nodup) :
    (sortEntries entries).Pairwise fun left right => toLex left.place < toLex right.place := by
  have sorted := pairwise_insertionSort
    (fun left right : Entry => keySeqLe left.place right.place) entries
  have places : ((sortEntries entries).map Entry.place).Nodup :=
    ((perm_insertionSort _ entries).map Entry.place).nodup_iff.mpr distinct
  rw [List.Nodup, pairwise_map] at places
  refine (sorted.and places).imp ?_
  intro left right both
  exact lt_of_le_of_ne ((keySeqLe_iff _ _).mp both.1) fun same => both.2 (toLex.injective same)

theorem sortEntries_eq_of_perm (left right : List Entry) (same : left.Perm right)
    (distinct : (left.map Entry.place).Nodup) : sortEntries left = sortEntries right := by
  have otherDistinct := (same.map Entry.place).nodup_iff.mp distinct
  refine (sortEntries_sorted left distinct).eq_of_mem_iff (sortEntries_sorted right otherDistinct) ?_
  intro e
  rw [sortEntries, sortEntries, mem_insertionSort, mem_insertionSort, same.mem_iff]

theorem bar_not_mem_decimal (value : Nat) : (124 : UInt8) ∉ decimal value := by
  intro member
  exact absurd (decimal_digits value 124 member) (by decide)

theorem entryHeader_inj (left right : Entry) (same : entryHeader left = entryHeader right) :
    left.logicalKey = right.logicalKey ∧ left.seq = right.seq ∧
      left.payload.length = right.payload.length := by
  have reversed := congrArg List.reverse same
  simp only [entryHeader, reverse_append, reverse_cons, append_assoc,
    reverse_nil, nil_append, cons_append, List.cons.injEq, true_and] at reversed
  have free : ∀ value, (124 : UInt8) ∉ (decimal value).reverse := fun value member =>
    bar_not_mem_decimal value (mem_reverse.mp member)
  obtain ⟨lengths, rest⟩ := append_separator_inj 124 _ _ _ _ (free _) (free _) reversed
  obtain ⟨numbers, keys⟩ := append_separator_inj 124 _ _ _ _ (free _) (free _) rest
  refine ⟨reverse_inj.mp keys, ?_, decimal_injective _ _ (reverse_inj.mp lengths)⟩
  exact UInt64.toNat_inj.mp (decimal_injective _ _ (reverse_inj.mp numbers))

theorem entryHeader_eq_of_begins (left right : Entry) (sameKey : left.logicalKey = right.logicalKey)
    (begins : entryHeader left <+: entryHeader right) : entryHeader left = entryHeader right := by
  obtain ⟨tail, whole⟩ := begins
  rw [entryHeader, entryHeader, sameKey, append_assoc, append_cancel_left_eq] at whole
  simp only [cons_append, append_assoc, nil_append, List.cons.injEq, true_and] at whole
  obtain ⟨numbers, rest⟩ := append_separator_inj 124 _ _ _ _ (bar_not_mem_decimal _)
    (bar_not_mem_decimal _) whole
  obtain ⟨lengths, _⟩ := append_separator_inj 124 _ _ _ _ (bar_not_mem_decimal _)
    (bar_not_mem_decimal _) rest
  rw [entryHeader, entryHeader, sameKey, numbers, lengths]

/-- No header of an entry of one list begins a header of an entry of the other with another key. -/
def HeadersApart (left right : List Entry) : Prop :=
  ∀ a ∈ left, ∀ b ∈ right, entryHeader a <+: entryHeader b ∨ entryHeader b <+: entryHeader a →
    a.logicalKey = b.logicalKey
deriving Decidable

-- The two streams are read entry by entry; equal headers fix the lengths of the payloads.
theorem eq_of_stream_eq (left right : List Entry) (apart : HeadersApart left right)
    (same : (left.map entryBytes).flatten = (right.map entryBytes).flatten) : left = right := by
  induction left generalizing right with
  | nil =>
    cases right with
    | nil => rfl
    | cons b right => simp [entryBytes, entryHeader] at same
  | cons a left ih =>
    cases right with
    | nil => simp [entryBytes, entryHeader] at same
    | cons b right =>
      simp only [map_cons, flatten_cons, entryBytes, append_assoc] at same
      have begins := prefix_or_prefix_of_prefix (prefix_append (entryHeader a) _)
        (same ▸ prefix_append (entryHeader b) _)
      have sameKey := apart a (.head _) b (.head _) begins
      have headers : entryHeader a = entryHeader b := by
        rcases begins with begins | begins
        · exact entryHeader_eq_of_begins a b sameKey begins
        · exact (entryHeader_eq_of_begins b a sameKey.symm begins).symm
      obtain ⟨_, sameSeq, sameLength⟩ := entryHeader_inj a b headers
      rw [headers, append_cancel_left_eq] at same
      obtain ⟨payloads, rest⟩ := append_inj same sameLength
      have heads : a = b := by
        cases a
        cases b
        simp_all
      rw [append_cancel_left_eq] at rest
      have tails := ih right (fun x xIn y yIn =>
        apart x (.tail _ xIn) y (.tail _ yIn)) rest
      rw [heads, tails]

theorem headersApart_of_no_bar (left right : List Entry)
    (leftFree : ∀ a ∈ left, (124 : UInt8) ∉ a.logicalKey)
    (rightFree : ∀ b ∈ right, (124 : UInt8) ∉ b.logicalKey) : HeadersApart left right := by
  have sameKey : ∀ a b : Entry, (124 : UInt8) ∉ a.logicalKey → (124 : UInt8) ∉ b.logicalKey →
      entryHeader a <+: entryHeader b → a.logicalKey = b.logicalKey := by
    intro a b aFree bFree begins
    obtain ⟨tail, whole⟩ := begins
    rw [entryHeader, entryHeader, append_assoc] at whole
    exact (append_separator_inj 124 _ _ _ _ aFree bFree whole).1
  intro a aIn b bIn begins
  rcases begins with begins | begins
  · exact sameKey a b (leftFree a aIn) (rightFree b bIn) begins
  · exact (sameKey b a (rightFree b bIn) (leftFree a aIn) begins).symm

/-- The stream identifies the entries, in any order, as long as their headers cannot be confused;
and the same entries always give the same stream. -/
theorem fingerprintStream_eq_iff (left right : List Entry)
    (distinct : (left.map Entry.place).Nodup) :
    (left.Perm right → fingerprintStream left = fingerprintStream right) ∧
      (HeadersApart left right →
        (fingerprintStream left = fingerprintStream right ↔ left.Perm right)) := by
  have forward : left.Perm right → fingerprintStream left = fingerprintStream right := by
    intro same
    rw [fingerprintStream, fingerprintStream, sortEntries_eq_of_perm left right same distinct]
  refine ⟨forward, fun apart => ⟨?_, forward⟩⟩
  intro same
  have sortedApart : HeadersApart (sortEntries left) (sortEntries right) := by
    intro a aIn b bIn
    exact apart a ((mem_insertionSort _).mp aIn) b ((mem_insertionSort _).mp bIn)
  have sorted := eq_of_stream_eq _ _ sortedApart same
  have leftPerm : (sortEntries left).Perm left := perm_insertionSort _ left
  rw [sorted] at leftPerm
  exact leftPerm.symm.trans (perm_insertionSort _ right)

theorem fingerprintStream_eq_iff_two_keys :
    fingerprintStream [⟨ascii ['a'], 1, ascii ['|']⟩, ⟨ascii ['b'], 2, []⟩] ≠
      fingerprintStream [⟨ascii ['a'], 1, ascii ['|']⟩, ⟨ascii ['b'], 3, []⟩] := by
  intro same
  have apart := headersApart_of_no_bar [⟨ascii ['a'], 1, ascii ['|']⟩, ⟨ascii ['b'], 2, []⟩]
    [⟨ascii ['a'], 1, ascii ['|']⟩, ⟨ascii ['b'], 3, []⟩] (by decide) (by decide)
  have perm := ((fingerprintStream_eq_iff _ _ (by decide)).2 apart).mp same
  exact absurd perm (by decide)

/-- One entry whose key contains the whole record of another entry. -/
theorem fingerprintStream_collision :
    let left : List Entry := [⟨ascii ['a'], 1, []⟩, ⟨ascii ['b'], 2, []⟩]
    let right : List Entry := [⟨ascii ['a', '|', '1', '|', '0', '|', '\n', 'b'], 2, []⟩]
    (left.map Entry.place).Nodup ∧ (right.map Entry.place).Nodup ∧
      fingerprintStream left = fingerprintStream right ∧ ¬ left.Perm right := by
  decide +kernel

end KairosFlux.Temporal
