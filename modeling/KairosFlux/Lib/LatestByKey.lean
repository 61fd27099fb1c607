import Mathlib.Data.List.Sort
import Mathlib.Data.List.Dedup
import Mathlib.Tactic

/-! Entries folded to the latest one of each key. -/

namespace KairosFlux.Lib

open List Function

variable {Entry Key Rank : Type} [LinearOrder Key] [LinearOrder Rank] (key : Entry → Key)
  (rank : Entry → Rank)

/-- An entry takes the place of one with its key only if its rank is larger. -/
def keepLater (best : Key → Option Entry) (entry : Entry) : Key → Option Entry :=
  match best (key entry) with
  | none => update best (key entry) (some entry)
  | some current =>
    if rank current < rank entry then update best (key entry) (some entry) else best

def bestByKey (entries : List Entry) : Key → Option Entry :=
  entries.foldl (keepLater key rank) fun _ => none

def latestByKey (entries : List Entry) : List Entry :=
  ((entries.map key).dedup.insertionSort fun left right => left ≤ right).filterMap
    (bestByKey key rank entries)

def IsLatest (entries : List Entry) (entry : Entry) : Prop :=
  entry ∈ entries ∧ ∀ other ∈ entries, key other = key entry → rank other ≤ rank entry

variable {key rank}

theorem keepLater_of_ne (best : Key → Option Entry) (entry : Entry) {k : Key} (other : k ≠ key entry) :
    keepLater key rank best entry k = best k := by
  rw [keepLater]
  cases best (key entry) with
  | none => exact update_of_ne other _ _
  | some current =>
    simp only
    split_ifs
    · exact update_of_ne other _ _
    · rfl

theorem keepLater_self (best : Key → Option Entry) (entry : Entry) :
    keepLater key rank best entry (key entry) = match best (key entry) with
      | none => some entry
      | some current => if rank current < rank entry then some entry else some current := by
  rw [keepLater]
  cases found : best (key entry) with
  | none => exact update_self _ _ _
  | some current =>
    simp only
    split_ifs
    · exact update_self _ _ _
    · exact found

omit [LinearOrder Key] in
theorem IsLatest.snoc {entries : List Entry} {entry : Entry} (latest : IsLatest key rank entries entry)
    (last : Entry) (lower : key last = key entry → rank last ≤ rank entry) :
    IsLatest key rank (entries ++ [last]) entry := by
  refine ⟨mem_append_left _ latest.1, ?_⟩
  intro other member same
  rcases mem_append.mp member with early | isLast
  · exact latest.2 other early same
  · rw [mem_singleton.mp isLast] at same ⊢
    exact lower same

omit [LinearOrder Key] in
theorem IsLatest.last {entries : List Entry} {last : Entry}
    (highest : ∀ other ∈ entries, key other = key last → rank other ≤ rank last) :
    IsLatest key rank (entries ++ [last]) last := by
  refine ⟨by simp, ?_⟩
  intro other member same
  rcases mem_append.mp member with early | isLast
  · exact highest other early same
  · rw [mem_singleton.mp isLast]

theorem bestByKey_snoc (entries : List Entry) (entry : Entry) :
    bestByKey key rank (entries ++ [entry]) = keepLater key rank (bestByKey key rank entries) entry := by
  rw [bestByKey, foldl_append]
  rfl

-- By induction on the entries from the right; an entry changes what is kept for its own key only.
theorem bestByKey_spec (entries : List Entry) (k : Key) :
    (bestByKey key rank entries k = none → ∀ entry ∈ entries, key entry ≠ k) ∧
      ∀ entry, bestByKey key rank entries k = some entry →
        key entry = k ∧ IsLatest key rank entries entry := by
  induction entries using List.reverseRecOn with
  | nil => exact ⟨fun _ _ absent => absurd absent not_mem_nil, nofun⟩
  | append_singleton entries last ih =>
    rw [bestByKey_snoc]
    by_cases here : k = key last
    · subst here
      rw [keepLater_self]
      cases found : bestByKey key rank entries (key last) with
      | none =>
        refine ⟨nofun, ?_⟩
        intro entry same
        obtain rfl := Option.some.inj same
        exact ⟨rfl, .last fun other early sameKey => absurd sameKey (ih.1 found other early)⟩
      | some current =>
        rcases ih.2 current found with ⟨sameKey, latest⟩
        simp only
        split_ifs with later
        · refine ⟨nofun, ?_⟩
          intro entry same
          obtain rfl := Option.some.inj same
          refine ⟨rfl, .last fun other early ofKey => ?_⟩
          exact le_of_lt (lt_of_le_of_lt (latest.2 other early (ofKey.trans sameKey.symm)) later)
        · refine ⟨nofun, ?_⟩
          intro entry same
          obtain rfl := Option.some.inj same
          exact ⟨sameKey, latest.snoc last fun _ => not_lt.mp later⟩
    · rw [keepLater_of_ne _ _ here]
      constructor
      · intro absent
        exact forall_mem_append.mpr
          ⟨ih.1 absent, forall_mem_singleton.mpr (Ne.symm here)⟩
      · intro entry found
        rcases ih.2 entry found with ⟨same, latest⟩
        exact ⟨same, latest.snoc last fun ofKey => absurd (ofKey.trans same).symm here⟩

theorem latestByKey_eq_nil (entries : List Entry) :
    latestByKey key rank entries = [] ↔ entries = [] := by
  constructor
  · intro empty
    rw [latestByKey, filterMap_eq_nil_iff] at empty
    rw [eq_nil_iff_forall_not_mem]
    intro entry member
    have listed : key entry ∈ (entries.map key).dedup.insertionSort fun left right => left ≤ right := by
      rw [mem_insertionSort, mem_dedup]
      exact mem_map_of_mem member
    exact (bestByKey_spec entries (key entry)).1 (empty _ listed) entry member rfl
  · rintro rfl
    rfl

/-- Where the rank tells the entries of a key apart, exactly the latest ones are kept. -/
theorem mem_latestByKey (entries : List Entry) (entry : Entry)
    (apart : ∀ left ∈ entries, ∀ right ∈ entries, key left = key right → rank left = rank right →
      left = right) :
    entry ∈ latestByKey key rank entries ↔ IsLatest key rank entries entry := by
  rw [latestByKey, mem_filterMap]
  constructor
  · intro kept
    rcases kept with ⟨k, _, found⟩
    exact ((bestByKey_spec entries k).2 entry found).2
  · intro latest
    refine ⟨key entry, ?_, ?_⟩
    · rw [mem_insertionSort, mem_dedup]
      exact mem_map_of_mem latest.1
    · have spec := @bestByKey_spec _ _ _ _ _ key rank entries (key entry)
      cases found : bestByKey key rank entries (key entry) with
      | none => exact absurd rfl (spec.1 found entry latest.1)
      | some best =>
        rcases spec.2 best found with ⟨same, member, largest⟩
        have rankLe := largest entry latest.1 same.symm
        have rankGe := latest.2 best member same
        rw [apart best member entry latest.1 same (le_antisymm rankGe rankLe)]

end KairosFlux.Lib
