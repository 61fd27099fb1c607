import Mathlib.Data.List.Sort
import Mathlib.Tactic

/-! Finite maps kept as strictly sorted association lists.

The sorted list is the observable order of a scan, so a map is determined by its lookups and every
scan is a filter of the entries. -/

namespace KairosFlux.Lib

open List

variable {K V : Type} [LinearOrder K]

def KeyLt (left right : K × V) : Prop := left.1 < right.1

structure SortedMap (K V : Type) [LinearOrder K] where
  entries : List (K × V)
  sorted : entries.Pairwise KeyLt

namespace SortedMap

def lookupIn (key : K) : List (K × V) → Option V
  | [] => none
  | entry :: rest => if entry.1 = key then some entry.2 else lookupIn key rest

def insertIn (key : K) (value : V) : List (K × V) → List (K × V)
  | [] => [(key, value)]
  | entry :: rest =>
    if key < entry.1 then (key, value) :: entry :: rest
    else if entry.1 = key then (key, value) :: rest
    else entry :: insertIn key value rest

variable (key : K) (value : V) (entries : List (K × V))

theorem lookupIn_insertIn (query : K) (value : V) (entries : List (K × V)) :
    lookupIn query (insertIn key value entries) =
      if query = key then some value else lookupIn query entries := by
  induction entries with
  | nil => simp [insertIn, lookupIn, eq_comm]
  | cons entry rest ih =>
    by_cases before : key < entry.1
    · by_cases same : query = key
      · simp [insertIn, before, lookupIn, same]
      · simp [insertIn, before, lookupIn, same, Ne.symm same]
    · by_cases here : entry.1 = key
      · by_cases same : query = key
        · simp [insertIn, lookupIn, here, same]
        · simp [insertIn, lookupIn, here, same, Ne.symm same]
      · by_cases same : query = key
        · subst same
          simp [insertIn, before, lookupIn, here, ih]
        · simp [insertIn, before, lookupIn, here, same, ih]

theorem mem_insertIn (entry : K × V)
    (member : entry ∈ insertIn key value entries) : entry = (key, value) ∨ entry ∈ entries := by
  induction entries with
  | nil => simpa [insertIn] using member
  | cons head rest ih =>
    rw [insertIn] at member
    split_ifs at member
    · simpa using member
    · rw [mem_cons] at member
      exact member.imp_right (mem_cons_of_mem _)
    · rw [mem_cons] at member
      rcases member with rfl | member
      · exact .inr (.head _)
      · exact (ih member).imp_right (mem_cons_of_mem _)

theorem insertIn_sorted
    (sorted : entries.Pairwise KeyLt) : (insertIn key value entries).Pairwise KeyLt := by
  induction entries with
  | nil => simp [insertIn]
  | cons entry rest ih =>
    obtain ⟨heads, tails⟩ := pairwise_cons.mp sorted
    rw [insertIn]
    split_ifs with before here
    · refine pairwise_cons.mpr ⟨fun other member => ?_, sorted⟩
      rcases mem_cons.mp member with rfl | member
      · exact before
      · exact lt_trans before (heads other member)
    · exact pairwise_cons.mpr ⟨fun other member => here ▸ heads other member, tails⟩
    · refine pairwise_cons.mpr ⟨fun other member => ?_, ih tails⟩
      rcases mem_insertIn key value rest other member with rfl | member
      · exact lt_of_le_of_ne (not_lt.mp before) here
      · exact heads other member

theorem mem_iff_lookupIn (sorted : entries.Pairwise KeyLt)
    (key : K) (value : V) : (key, value) ∈ entries ↔ lookupIn key entries = some value := by
  induction entries with
  | nil => simp [lookupIn]
  | cons entry rest ih =>
    obtain ⟨heads, tails⟩ := pairwise_cons.mp sorted
    rw [mem_cons, lookupIn, ih tails]
    split_ifs with same
    · subst same
      constructor
      · rintro (here | found)
        · exact congrArg some (congrArg Prod.snd here).symm
        · exact absurd (heads _ ((ih tails).mpr found)) (lt_irrefl entry.1)
      · intro found
        exact .inl (Prod.ext rfl (Option.some.inj found).symm)
    · constructor
      · rintro (rfl | found)
        · exact absurd rfl same
        · exact found
      · exact .inr

theorem lookupIn_eq_none
    (absent : ∀ entry ∈ entries, entry.1 ≠ key) : lookupIn key entries = none := by
  induction entries with
  | nil => rfl
  | cons entry rest ih =>
    rw [lookupIn, if_neg (absent entry (.head _))]
    exact ih fun other member => absent other (.tail _ member)

theorem lookupIn_append (first second : List (K × V)) :
    lookupIn key (first ++ second) = (lookupIn key first).or (lookupIn key second) := by
  induction first with
  | nil => rfl
  | cons entry rest ih =>
    rw [cons_append, lookupIn, lookupIn, ih]
    split_ifs <;> rfl

theorem insertIn_last (last : ∀ entry ∈ entries, entry.1 < key) :
    insertIn key value entries = entries ++ [(key, value)] := by
  induction entries with
  | nil => rfl
  | cons entry rest ih =>
    have below := last entry (.head _)
    rw [insertIn, if_neg below.not_gt, if_neg below.ne,
      ih fun other member => last other (.tail _ member)]
    rfl

theorem insertIn_perm (absent : ∀ entry ∈ entries, entry.1 ≠ key) :
    (insertIn key value entries).Perm ((key, value) :: entries) := by
  induction entries with
  | nil => exact List.Perm.refl _
  | cons entry rest ih =>
    rw [insertIn, if_neg (absent entry (.head _))]
    split_ifs
    · exact List.Perm.refl _
    · have inner := ih fun other member => absent other (.tail _ member)
      exact (inner.cons entry).trans (List.Perm.swap _ _ _)

/-- The entries before the first one that a downward closed test refuses, and those from there on,
are filters of a sorted list. -/
theorem dropWhile_eq_filter (test : K → Bool) (entries : List (K × V))
    (sorted : entries.Pairwise KeyLt)
    (closed : ∀ lower upper, lower < upper → test upper = true → test lower = true) :
    entries.dropWhile (fun entry => test entry.1) = entries.filter fun entry => !test entry.1 := by
  induction entries with
  | nil => rfl
  | cons entry rest ih =>
    obtain ⟨heads, tails⟩ := pairwise_cons.mp sorted
    by_cases dropped : test entry.1 = true
    · rw [dropWhile_cons_of_pos (by exact dropped), ih tails,
        filter_cons_of_neg (by simpa using dropped)]
    · have kept : ∀ other ∈ entry :: rest, ¬ test other.1 = true := by
        refine forall_mem_cons.mpr ⟨dropped, fun other member passes => ?_⟩
        exact dropped (closed _ _ (heads other member) passes)
      rw [dropWhile_cons_of_neg (by exact dropped), filter_eq_self.mpr (by simpa using kept)]

theorem takeWhile_eq_filter (test : K → Bool) (entries : List (K × V))
    (sorted : entries.Pairwise KeyLt)
    (closed : ∀ lower upper, lower < upper → test upper = true → test lower = true) :
    entries.takeWhile (fun entry => test entry.1) = entries.filter fun entry => test entry.1 := by
  induction entries with
  | nil => rfl
  | cons entry rest ih =>
    obtain ⟨heads, tails⟩ := pairwise_cons.mp sorted
    by_cases kept : test entry.1 = true
    · rw [takeWhile_cons_of_pos (by exact kept), ih tails,
        filter_cons_of_pos (by exact kept)]
    · have refused : ∀ other ∈ rest, ¬ test other.1 = true :=
        fun other member passes => kept (closed _ _ (heads other member) passes)
      rw [takeWhile_cons_of_neg (by exact kept), filter_cons_of_neg (by exact kept),
        filter_eq_nil_iff.mpr refused]

def empty : SortedMap K V := ⟨[], List.Pairwise.nil⟩

def lookup (m : SortedMap K V) (key : K) : Option V := lookupIn key m.entries

def insert (m : SortedMap K V) (key : K) (value : V) : SortedMap K V :=
  ⟨insertIn key value m.entries, insertIn_sorted key value m.entries m.sorted⟩

def erase (m : SortedMap K V) (key : K) : SortedMap K V :=
  ⟨m.entries.filter (fun entry => entry.1 ≠ key), m.sorted.filter _⟩

variable (m : SortedMap K V)

variable (key query : K) (value : V)

theorem insertIn_insertIn (first second : V) (entries : List (K × V)) :
    insertIn key second (insertIn key first entries) = insertIn key second entries := by
  induction entries with
  | nil => simp [insertIn]
  | cons entry rest ih =>
    by_cases before : key < entry.1
    · simp [insertIn, before]
    · by_cases here : entry.1 = key
      · simp [insertIn, here]
      · simp [insertIn, before, here, ih]

theorem insert_insert (first second : V) :
    (m.insert key first).insert key second = m.insert key second := by
  simp only [insert, insertIn_insertIn]

@[simp] theorem lookup_empty : (empty : SortedMap K V).lookup key = none := rfl

theorem lookup_insert :
    (m.insert key value).lookup query = if query = key then some value else m.lookup query :=
  lookupIn_insertIn key query value m.entries

@[simp] theorem lookup_insert_self : (m.insert key value).lookup key = some value := by
  rw [lookup_insert, if_pos rfl]

theorem lookup_insert_of_ne (different : query ≠ key) :
    (m.insert key value).lookup query = m.lookup query := by
  rw [lookup_insert, if_neg different]

theorem mem_entries_iff : (key, value) ∈ m.entries ↔ m.lookup key = some value :=
  mem_iff_lookupIn m.entries m.sorted key value

theorem lookup_erase :
    (m.erase key).lookup query = if query = key then none else m.lookup query := by
  ext value
  rw [← mem_entries_iff, erase, mem_filter, mem_entries_iff]
  split_ifs with same <;> simp [same]

end SortedMap

end KairosFlux.Lib
