import Mathlib.Tactic
import Mathlib.Data.Int.DivMod

/-! Time slots of a job (`internal/jobctl/clock.go`). An instant is its distance from 1970 in
nanoseconds. The arithmetic is on 64 bits and wraps around; a division by zero stops the process. -/

namespace KairosFlux.Jobctl

def nanosPerSecond : Int64 := 1000000000

def secondsPerDay : Int := 86400

/-- `UnixNano`, which keeps the low 64 bits. -/
def unixNano (t : Int) : Int64 := Int64.ofInt t

/-- A time zone by the offset in seconds that is in effect at each Unix second. -/
structure Location where
  offset : Int → Int

namespace Location

variable (loc : Location)

/-- The local date of an instant, as days since 1970. -/
def day (t : Int) : Int := (t / 1000000000 + loc.offset (t / 1000000000)) / secondsPerDay

/-- `time.Date` for a local hour and minute of a day. The offset is first looked up as if the local
time were the Unix time, and then at the instant that this offset gives. -/
def date (day hour min : Int) : Int :=
  let unix := day * secondsPerDay + hour * 3600 + min * 60
  let offset := loc.offset unix
  if offset = 0 then unix * 1000000000
  else (unix - loc.offset (unix - offset)) * 1000000000

end Location

def intervalNanos (intervalSeconds : Int64) : Int64 :=
  (if intervalSeconds ≤ 0 then 1 else intervalSeconds) * nanosPerSecond

def slot (now : Int) (intervalSeconds : Int64) : Option Int64 :=
  if intervalNanos intervalSeconds = 0 then none
  else some (unixNano now / intervalNanos intervalSeconds)

def floorDiv (a b : Int64) : Option Int64 :=
  if b = 0 then none
  else
    let q := a / b
    some (if a % b ≠ 0 ∧ decide (a < 0) ≠ decide (b < 0) then q - 1 else q)

def anchoredSlot (now : Int) (intervalSeconds : Int64) (loc : Location) (hour min : Int) :
    Option Int64 :=
  let anchor := loc.date (loc.day now) hour min
  let ref := loc.date 0 hour min
  (floorDiv (unixNano now - unixNano anchor) (intervalNanos intervalSeconds)).bind fun sinceAnchor =>
    (floorDiv (unixNano anchor - unixNano ref) (intervalNanos intervalSeconds)).map fun sinceRef =>
      sinceAnchor + sinceRef

theorem toInt_unixNano {t : Int} (low : -2 ^ 63 ≤ t) (high : t < 2 ^ 63) : (unixNano t).toInt = t :=
  Int64.toInt_ofInt_of_le low high

theorem intervalNanos_large (intervalSeconds : Int64) (nonzero : intervalNanos intervalSeconds ≠ 0) :
    512 ≤ (intervalNanos intervalSeconds).toInt.natAbs := by
  have different : (intervalNanos intervalSeconds).toInt ≠ 0 :=
    fun zero => nonzero (Int64.toInt_inj.mp zero)
  have divides : (512 : Int) ∣ (intervalNanos intervalSeconds).toInt := by
    have factor : nanosPerSecond.toInt = 1000000000 := by decide
    rw [intervalNanos, Int64.toInt_mul, factor, Int.bmod_def]
    split_ifs <;> omega
  omega

theorem tdiv_small {a b : Int} (low : -2 ^ 63 ≤ a) (high : a < 2 ^ 63) (large : 4 ≤ b.natAbs) :
    (a.tdiv b).natAbs ≤ 2 ^ 61 := by
  have quotient : (a.tdiv b).natAbs = a.natAbs / b.natAbs := Int.natAbs_tdiv a b
  have half : a.natAbs / b.natAbs ≤ a.natAbs / 4 := Nat.div_le_div_left large (by decide)
  omega

theorem toInt_div_exact (a b : Int64) (large : 4 ≤ b.toInt.natAbs) :
    (a / b).toInt = a.toInt.tdiv b.toInt := by
  have small := tdiv_small a.le_toInt a.toInt_lt large
  rw [Int64.toInt_div, Int.bmod_eq_of_le (by omega) (by omega)]

theorem fdiv_eq_tdiv_sub (a b : Int) (nonzero : b ≠ 0) :
    a.fdiv b = a.tdiv b - if a.tmod b ≠ 0 ∧ (a < 0 ↔ 0 < b) then 1 else 0 := by
  have remainder : a.tmod b = 0 ↔ b ∣ a := Int.dvd_iff_tmod_eq_zero.symm
  rw [Int.fdiv_eq_tdiv]
  rcases lt_or_gt_of_ne nonzero with neg | pos
  · simp only [ne_eq, remainder, Int.sign_eq_neg_one_of_neg neg, not_le.mpr neg, not_lt.mpr neg.le,
      if_false, iff_false, not_lt]
    split_ifs <;> tauto
  · simp only [ne_eq, remainder, Int.sign_eq_one_of_pos pos, pos.le, pos, if_true, iff_true]
    split_ifs <;> first | rfl | omega

theorem toInt_floorDiv (a b : Int64) (large : 4 ≤ b.toInt.natAbs) :
    ∃ q, floorDiv a b = some q ∧ q.toInt = a.toInt.fdiv b.toInt ∧ q.toInt.natAbs ≤ 2 ^ 61 + 1 := by
  have nonzero : b.toInt ≠ 0 := by omega
  have different : b ≠ 0 := fun zero => nonzero (by rw [zero, Int64.toInt_zero])
  have small := tdiv_small a.le_toInt a.toInt_lt large
  have rounds : (a % b ≠ 0 ∧ decide (a < 0) ≠ decide (b < 0)) ↔
      a.toInt.tmod b.toInt ≠ 0 ∧ (a.toInt < 0 ↔ 0 < b.toInt) := by
    rw [ne_eq, ne_eq, ne_eq, ← Int64.toInt_inj, Int64.toInt_mod, Int64.toInt_zero, decide_eq_decide,
      Int64.lt_iff_toInt_lt, Int64.lt_iff_toInt_lt, Int64.toInt_zero]
    apply and_congr_right
    intro _
    omega
  rw [floorDiv, if_neg different, fdiv_eq_tdiv_sub _ _ nonzero]
  refine ⟨_, rfl, ?_⟩
  simp only [rounds]
  split_ifs with down
  · have less : (a / b - 1).toInt = a.toInt.tdiv b.toInt - 1 := by
      rw [Int64.toInt_sub, toInt_div_exact a b large, Int64.toInt_one,
        Int.bmod_eq_of_le (by omega) (by omega)]
    rw [less]
    exact ⟨rfl, by omega⟩
  · rw [toInt_div_exact a b large]
    exact ⟨by omega, by omega⟩

theorem slot_eq (now : Int) (intervalSeconds : Int64) (low : -2 ^ 63 ≤ now) (high : now < 2 ^ 63)
    (nonzero : intervalNanos intervalSeconds ≠ 0) :
    ∃ s, slot now intervalSeconds = some s ∧
      s.toInt = now.tdiv (intervalNanos intervalSeconds).toInt := by
  have large := intervalNanos_large intervalSeconds nonzero
  refine ⟨_, if_neg nonzero, ?_⟩
  rw [toInt_div_exact _ _ (by omega), toInt_unixNano low high]

/-- The time since the anchor of the day, and of that anchor since the one of 1970, as 64-bit
differences. -/
def sinceAnchor (loc : Location) (hour min : Int) (now : Int) : Int :=
  (unixNano now - unixNano (loc.date (loc.day now) hour min)).toInt

def sinceRef (loc : Location) (hour min : Int) (now : Int) : Int :=
  (unixNano (loc.date (loc.day now) hour min) - unixNano (loc.date 0 hour min)).toInt

theorem anchoredSlot_eq (now : Int) (intervalSeconds : Int64) (loc : Location) (hour min : Int)
    (nonzero : intervalNanos intervalSeconds ≠ 0) :
    ∃ s, anchoredSlot now intervalSeconds loc hour min = some s ∧
      s.toInt = (sinceAnchor loc hour min now).fdiv (intervalNanos intervalSeconds).toInt +
        (sinceRef loc hour min now).fdiv (intervalNanos intervalSeconds).toInt := by
  have large := intervalNanos_large intervalSeconds nonzero
  rcases toInt_floorDiv (unixNano now - unixNano (loc.date (loc.day now) hour min))
    (intervalNanos intervalSeconds) (by omega) with ⟨today, todayIs, todayValue, todaySmall⟩
  rcases toInt_floorDiv (unixNano (loc.date (loc.day now) hour min) - unixNano (loc.date 0 hour min))
    (intervalNanos intervalSeconds) (by omega) with ⟨days, daysIs, daysValue, daysSmall⟩
  refine ⟨today + days, ?_, ?_⟩
  · rw [anchoredSlot, todayIs, Option.bind_some, daysIs, Option.map_some]
  · rw [Int64.toInt_add, Int.bmod_eq_of_le (by omega) (by omega), todayValue, daysValue, sinceAnchor,
      sinceRef]

end KairosFlux.Jobctl
