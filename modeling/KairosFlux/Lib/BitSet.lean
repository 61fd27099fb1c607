import Mathlib.Data.List.Basic
import Mathlib.Tactic

/-! Sets of bit positions in 64-bit words. -/

namespace KairosFlux.Lib

def setBit (bits : List UInt64) (pos : UInt64) : List UInt64 :=
  bits.modify (pos / 64).toNat fun word => word ||| (1 <<< (pos % 64))

/-- No answer stands for a position outside the words. -/
def testBit (bits : List UInt64) (pos : UInt64) : Option Bool :=
  bits[(pos / 64).toNat]?.map fun word => decide (word &&& (1 <<< (pos % 64)) ≠ 0)

variable (bits positions : List UInt64) (pos : UInt64)

@[simp] theorem length_setBit : (setBit bits pos).length = bits.length := by
  rw [setBit, List.length_modify]

theorem or_and_self (word mask : UInt64) : (word ||| mask) &&& mask = mask := by
  apply UInt64.toBitVec_inj.mp
  rw [UInt64.toBitVec_and, UInt64.toBitVec_or]
  ext i inside
  simp only [BitVec.getElem_and, BitVec.getElem_or]
  cases mask.toBitVec[i] <;> simp

theorem or_and_ne_zero (word added mask : UInt64) (held : word &&& mask ≠ 0) :
    (word ||| added) &&& mask ≠ 0 := by
  have absorbed : word &&& mask = word &&& ((word ||| added) &&& mask) := by
    apply UInt64.toBitVec_inj.mp
    rw [UInt64.toBitVec_and, UInt64.toBitVec_and, UInt64.toBitVec_and, UInt64.toBitVec_or]
    ext i inside
    simp only [BitVec.getElem_and, BitVec.getElem_or]
    cases word.toBitVec[i] <;> simp
  intro zero
  rw [absorbed, zero, UInt64.and_zero] at held
  exact held rfl

theorem mask_ne_zero : (1 : UInt64) <<< (pos % 64) ≠ 0 := by
  intro zero
  have value := congrArg UInt64.toNat zero
  have small : pos.toNat % 64 % 64 < 64 := Nat.mod_lt _ (by decide)
  have power : 1 <<< (pos.toNat % 64 % 64) < 2 ^ 64 := by
    rw [Nat.one_shiftLeft]
    exact Nat.pow_lt_pow_right (by decide) small
  have positive : 0 < 1 <<< (pos.toNat % 64 % 64) := by
    rw [Nat.one_shiftLeft]
    exact Nat.two_pow_pos _
  change 1 <<< (pos.toNat % 64 % 64) % 2 ^ 64 = 0 at value
  omega

theorem testBit_setBit_self
    (inside : (pos / 64).toNat < bits.length) : testBit (setBit bits pos) pos = some true := by
  rw [testBit, setBit, List.getElem?_modify, List.getElem?_eq_getElem inside]
  simp only [if_true, Option.map_eq_map, Option.map_some, or_and_self]
  simp [mask_ne_zero pos]

theorem testBit_setBit (added pos : UInt64)
    (held : testBit bits pos = some true) : testBit (setBit bits added) pos = some true := by
  obtain ⟨word, found, bit⟩ := Option.map_eq_some_iff.mp held
  have set : word &&& (1 <<< (pos % 64)) ≠ 0 := of_decide_eq_true bit
  rw [testBit, setBit, List.getElem?_modify, found]
  simp only [Option.map_eq_map, Option.map_some]
  split_ifs with same
  · rw [decide_eq_true (or_and_ne_zero _ _ _ set)]
  · rw [decide_eq_true set]

/-- The first position that is missing decides. -/
def testAll (bits : List UInt64) : List UInt64 → Option Bool
  | [] => some true
  | pos :: rest =>
    match testBit bits pos with
    | some true => testAll bits rest
    | other => other

def setAll (bits : List UInt64) (positions : List UInt64) : List UInt64 := positions.foldl setBit bits

@[simp] theorem length_setAll : (setAll bits positions).length = bits.length := by
  induction positions generalizing bits with
  | nil => rfl
  | cons pos rest ih => exact (ih (setBit bits pos)).trans (length_setBit bits pos)

theorem testAll_eq_true :
    testAll bits positions = some true ↔ ∀ pos ∈ positions, testBit bits pos = some true := by
  induction positions with
  | nil => simp [testAll]
  | cons pos rest ih =>
    rw [testAll, List.forall_mem_cons, ← ih]
    split <;> simp_all

theorem testBit_setAll
    (held : testBit bits pos = some true) : testBit (setAll bits positions) pos = some true := by
  induction positions generalizing bits with
  | nil => exact held
  | cons first rest ih => exact ih (setBit bits first) (testBit_setBit bits first pos held)

theorem testAll_setAll_self (inside : ∀ pos ∈ positions, (pos / 64).toNat < bits.length) :
    testAll (setAll bits positions) positions = some true := by
  rw [testAll_eq_true]
  induction positions generalizing bits with
  | nil => exact nofun
  | cons first rest ih =>
    refine List.forall_mem_cons.mpr ⟨?_, ?_⟩
    · exact testBit_setAll _ rest first
        (testBit_setBit_self bits first (inside first (.head _)))
    · apply ih (setBit bits first)
      intro pos member
      rw [length_setBit]
      exact inside pos (.tail _ member)

theorem testAll_ne_none
    (inside : ∀ pos ∈ positions, (pos / 64).toNat < bits.length) : testAll bits positions ≠ none := by
  induction positions with
  | nil => exact Option.some_ne_none true
  | cons first rest ih =>
    have found : testBit bits first ≠ none := by
      rw [testBit, List.getElem?_eq_getElem (inside first (.head _))]
      nofun
    rw [testAll]
    split
    · exact ih fun pos member => inside pos (.tail _ member)
    · exact found

end KairosFlux.Lib
