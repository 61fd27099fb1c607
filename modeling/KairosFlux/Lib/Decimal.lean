import Mathlib.Data.Nat.Log
import KairosFlux.Lib.Bytes

/-! Decimal numerals as byte strings: zero-padded to a width, without padding, and read back. -/

namespace KairosFlux.Lib

def digit (value : Nat) : UInt8 := UInt8.ofNat (48 + value)

def IsDigit (byte : UInt8) : Prop := 48 ≤ byte ∧ byte ≤ 57
deriving Decidable

/-- The last `width` decimal digits, most significant first. -/
def decimalFixed : Nat → Nat → Bytes
  | 0, _ => []
  | width + 1, value => digit (value / 10 ^ width) :: decimalFixed width (value % 10 ^ width)

def decimal (value : Nat) : Bytes := decimalFixed (Nat.log 10 value + 1) value

/-- Reads a run of digits onto an accumulator and refuses every other byte. -/
def decimalValue : Nat → Bytes → Option Nat
  | acc, [] => some acc
  | acc, byte :: rest =>
    if IsDigit byte then decimalValue (acc * 10 + (byte.toNat - 48)) rest else none

/-- A signed number of 64 bits: a sign, if there is one, and at least one digit. -/
def parseInt64 (text : Bytes) : Option Int64 :=
  let negative := text.head? = some 45
  let digits := if negative ∨ text.head? = some 43 then text.tail else text
  if digits = [] then none
  else
    match decimalValue 0 digits with
    | none => none
    | some value =>
      if negative then if value ≤ 2 ^ 63 then some (Int64.ofInt (-value)) else none
      else if value < 2 ^ 63 then some (Int64.ofInt value) else none

variable (width value : Nat)

theorem digit_toNat (small : value < 10) : (digit value).toNat = 48 + value := by
  rw [digit, UInt8.toNat_ofNat']
  omega

theorem isDigit_iff (byte : UInt8) : IsDigit byte ↔ 48 ≤ byte.toNat ∧ byte.toNat ≤ 57 := by
  rfl

theorem isDigit_digit (small : value < 10) : IsDigit (digit value) := by
  rw [isDigit_iff, digit_toNat value small]
  omega

theorem leading_digit_lt (bound : value < 10 ^ (width + 1)) : value / 10 ^ width < 10 := by
  rw [Nat.div_lt_iff_lt_mul (by positivity)]
  rwa [Nat.pow_succ'] at bound

@[simp] theorem decimalFixed_length : (decimalFixed width value).length = width := by
  induction width generalizing value with
  | zero => rfl
  | succ width ih => rw [decimalFixed, List.length_cons, ih]

theorem decimalFixed_digits (bound : value < 10 ^ width) :
    ∀ byte ∈ decimalFixed width value, IsDigit byte := by
  induction width generalizing value with
  | zero => simp [decimalFixed]
  | succ width ih =>
    intro byte member
    rw [decimalFixed, List.mem_cons] at member
    rcases member with rfl | member
    · exact isDigit_digit _ (leading_digit_lt width value bound)
    · exact ih _ (Nat.mod_lt _ (by positivity)) byte member

theorem decimalValue_decimalFixed (acc width value : Nat) (bound : value < 10 ^ width) :
    decimalValue acc (decimalFixed width value) = some (acc * 10 ^ width + value) := by
  induction width generalizing acc value with
  | zero =>
    have zero : value = 0 := by simpa using bound
    simp [decimalFixed, decimalValue, zero]
  | succ width ih =>
    have leading := leading_digit_lt width value bound
    rw [decimalFixed, decimalValue, if_pos (isDigit_digit _ leading),
      ih _ _ (Nat.mod_lt _ (by positivity)), digit_toNat _ leading]
    have split := Nat.div_add_mod value (10 ^ width)
    congr 1
    calc
      (acc * 10 + (48 + value / 10 ^ width - 48)) * 10 ^ width + value % 10 ^ width =
          acc * 10 ^ (width + 1) +
            (10 ^ width * (value / 10 ^ width) + value % 10 ^ width) := by
        rw [Nat.add_sub_cancel_left, Nat.pow_succ]
        ring
      _ = acc * 10 ^ (width + 1) + value := by rw [split]

/-- Every accepted digit string is the zero-padded numeral of the value read from it. -/
theorem eq_decimalFixed_of_decimalValue (acc result : Nat) (text : Bytes)
    (accepted : decimalValue acc text = some result) :
    ∃ value < 10 ^ text.length, result = acc * 10 ^ text.length + value ∧
      text = decimalFixed text.length value := by
  induction text generalizing acc with
  | nil =>
    rw [decimalValue, Option.some.injEq] at accepted
    exact ⟨0, by simp, by simp [accepted], rfl⟩
  | cons byte rest ih =>
    rw [decimalValue] at accepted
    split at accepted
    case isFalse => exact absurd accepted (by simp)
    case isTrue isDigit =>
      rw [isDigit_iff] at isDigit
      obtain ⟨value, small, total, shape⟩ := ih _ accepted
      have positive : 0 < 10 ^ rest.length := by positivity
      have leading : (10 ^ rest.length * (byte.toNat - 48) + value) / 10 ^ rest.length =
          byte.toNat - 48 := by
        rw [Nat.mul_add_div positive, Nat.div_eq_of_lt small, Nat.add_zero]
      have trailing : (10 ^ rest.length * (byte.toNat - 48) + value) % 10 ^ rest.length =
          value := by
        rw [Nat.mul_add_mod, Nat.mod_eq_of_lt small]
      refine ⟨10 ^ rest.length * (byte.toNat - 48) + value, ?_, ?_, ?_⟩
      · calc
          10 ^ rest.length * (byte.toNat - 48) + value <
              10 ^ rest.length * (byte.toNat - 48) + 10 ^ rest.length := by omega
          _ = 10 ^ rest.length * (byte.toNat - 48 + 1) := by ring
          _ ≤ 10 ^ rest.length * 10 := Nat.mul_le_mul_left _ (by omega)
          _ = 10 ^ (byte :: rest).length := by rw [List.length_cons, Nat.pow_succ]
      · rw [total, List.length_cons, Nat.pow_succ]
        ring
      · rw [List.length_cons, decimalFixed, leading, trailing, ← shape, digit]
        congr 1
        apply UInt8.toNat_inj.mp
        rw [UInt8.toNat_ofNat']
        omega

theorem decimalFixed_lt_iff (left right : Nat) (leftBound : left < 10 ^ width)
    (rightBound : right < 10 ^ width) :
    decimalFixed width left < decimalFixed width right ↔ left < right := by
  induction width generalizing left right with
  | zero => simp_all
  | succ width ih =>
    have positive : 0 < 10 ^ width := by positivity
    have inner := ih (left % 10 ^ width) (right % 10 ^ width) (Nat.mod_lt _ positive)
      (Nat.mod_lt _ positive)
    have leftDigit := digit_toNat _ (leading_digit_lt width left leftBound)
    have rightDigit := digit_toNat _ (leading_digit_lt width right rightBound)
    have leftSplit := Nat.div_add_mod left (10 ^ width)
    have rightSplit := Nat.div_add_mod right (10 ^ width)
    rw [decimalFixed, decimalFixed, List.cons_lt_cons_iff, inner, UInt8.lt_iff_toNat_lt,
      ← UInt8.toNat_inj, leftDigit, rightDigit]
    generalize left / 10 ^ width = a at *
    generalize right / 10 ^ width = b at *
    constructor
    · rintro (less | ⟨same, less⟩)
      · have step : 10 ^ width * (a + 1) ≤ 10 ^ width * b :=
          Nat.mul_le_mul_left _ (by omega)
        rw [Nat.mul_add, Nat.mul_one] at step
        omega
      · have equal : a = b := by omega
        subst equal
        omega
    · intro less
      rcases Nat.lt_trichotomy a b with lower | equal | higher
      · exact .inl (by omega)
      · subst equal
        exact .inr ⟨rfl, by omega⟩
      · have step : 10 ^ width * (b + 1) ≤ 10 ^ width * a :=
          Nat.mul_le_mul_left _ (by omega)
        rw [Nat.mul_add, Nat.mul_one] at step
        omega

theorem lt_pow_decimal_length : value < 10 ^ (Nat.log 10 value + 1) :=
  Nat.lt_pow_succ_log_self (by norm_num) value

theorem decimal_digits : ∀ byte ∈ decimal value, IsDigit byte :=
  decimalFixed_digits _ _ (lt_pow_decimal_length value)

theorem decimal_injective (left right : Nat) (same : decimal left = decimal right) :
    left = right := by
  have leftValue := decimalValue_decimalFixed 0 _ left (lt_pow_decimal_length left)
  have rightValue := decimalValue_decimalFixed 0 _ right (lt_pow_decimal_length right)
  rw [← decimal] at leftValue rightValue
  rw [same, rightValue] at leftValue
  simpa using leftValue.symm

end KairosFlux.Lib
