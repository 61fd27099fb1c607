import Mathlib.Data.List.Nodup
import Mathlib.Tactic

/-! Numbers handed out by a wrapping 64-bit counter. -/

namespace KairosFlux.Lib

open List

def countFrom (base : UInt64) (count : Nat) : List UInt64 :=
  (List.range count).map fun i => base + UInt64.ofNat i

/-- Each number is the one before it plus one, modulo 2^64. -/
def Consecutive (numbers : List UInt64) : Prop :=
  ∃ base, numbers = countFrom base numbers.length

theorem countFrom_succ (base : UInt64) (count : Nat) :
    countFrom base (count + 1) = countFrom base count ++ [base + UInt64.ofNat count] := by
  rw [countFrom, range_succ, map_append]
  rfl

theorem countFrom_nodup (base : UInt64) (count : Nat) (bound : count ≤ 2 ^ 64) :
    (countFrom base count).Nodup := by
  refine List.Nodup.map_on ?_ nodup_range
  intro left leftIn right rightIn same
  have offsets := congrArg UInt64.toNat ((UInt64.add_right_inj base).mp same)
  rw [UInt64.toNat_ofNat', UInt64.toNat_ofNat'] at offsets
  rw [mem_range] at leftIn rightIn
  rwa [Nat.mod_eq_of_lt (by omega), Nat.mod_eq_of_lt (by omega)] at offsets

theorem countFrom_snoc (base next : UInt64) (count : Nat)
    (follows : ∀ last, (countFrom base count).getLast? = some last → next = last + 1)
    (starts : count = 0 → next = base) : countFrom base count ++ [next] = countFrom base (count + 1) := by
  rw [countFrom_succ]
  cases count with
  | zero =>
    rw [starts rfl]
    simp
  | succ count =>
    have last : (countFrom base (count + 1)).getLast? = some (base + UInt64.ofNat count) := by
      rw [countFrom_succ, List.getLast?_concat]
    rw [follows _ last, UInt64.ofNat_add, UInt64.add_assoc]
    rfl

theorem Consecutive.nil : Consecutive [] := ⟨0, rfl⟩

theorem Consecutive.snoc (numbers : List UInt64) (next : UInt64) (consecutive : Consecutive numbers)
    (follows : ∀ last, numbers.getLast? = some last → next = last + 1) :
    Consecutive (numbers ++ [next]) := by
  obtain ⟨base, shape⟩ := consecutive
  rcases eq_nil_or_concat numbers with empty | nonempty
  · refine ⟨next, ?_⟩
    simp [empty, countFrom]
  · refine ⟨base, ?_⟩
    rw [length_append, length_singleton, ← countFrom_snoc base next numbers.length]
    · rw [← shape]
    · rwa [← shape]
    · intro zero
      obtain ⟨front, last, same⟩ := nonempty
      rw [same] at zero
      simp at zero

theorem Consecutive.nodup (numbers : List UInt64) (consecutive : Consecutive numbers)
    (bound : numbers.length ≤ 2 ^ 64) : numbers.Nodup := by
  obtain ⟨base, shape⟩ := consecutive
  rw [shape]
  exact countFrom_nodup base _ bound

theorem countFrom_sorted (base count : Nat) (bound : base + count ≤ 2 ^ 64) :
    (countFrom (UInt64.ofNat base) count).Pairwise (· < ·) := by
  rw [countFrom, pairwise_map]
  refine pairwise_lt_range.imp_of_mem ?_
  intro left right leftIn rightIn less
  rw [mem_range] at leftIn rightIn
  rw [UInt64.lt_iff_toNat_lt, ← UInt64.ofNat_add, ← UInt64.ofNat_add, UInt64.toNat_ofNat',
    UInt64.toNat_ofNat', Nat.mod_eq_of_lt (by omega), Nat.mod_eq_of_lt (by omega)]
  omega

end KairosFlux.Lib
