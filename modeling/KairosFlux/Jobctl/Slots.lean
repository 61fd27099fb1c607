import KairosFlux.Jobctl.Spec

/-! When the slots of a job move forward, and when they change at the anchors. -/

namespace KairosFlux.Jobctl

open Lib

def JobSpec.step (spec : JobSpec) : Int := (intervalNanos spec.scheduleIntervalSeconds).toInt

/-- The slots of two instants exist and do not go back, and those of a daily schedule differ exactly
when the zone has an anchor behind the first instant and not behind the second. -/
def SlotsAdvance (zones : Zones) (spec : JobSpec) (t₁ t₂ : Int) : Prop :=
  ∃ s₁ s₂, spec.slot zones t₁ = some s₁ ∧ spec.slot zones t₂ = some s₂ ∧ s₁ ≤ s₂ ∧
    ∀ hour min loc, spec.anchor zones = some (hour, min, loc) → spec.scheduleIntervalSeconds = 86400 →
      (s₁ = s₂ ↔ ¬∃ day, t₁ < loc.date day hour min ∧ loc.date day hour min ≤ t₂)

section Boundaries

variable (step : Int) (loc : Location) (hour min : Int)

/-- The time since the anchor of 1970; it runs backwards for a negative step. -/
def elapsed (t : Int) : Int := step.sign * (sinceAnchor loc hour min t + sinceRef loc hour min t)

/-- How far the anchor of the day lies behind a whole number of steps from the anchor of 1970. -/
def phase (t : Int) : Int := step.sign * sinceRef loc hour min t % step.natAbs

/-- The boundaries of a day are whole numbers of steps from the anchor of 1970, each later by the
phase of the day. -/
def Passed (k : Int) (t : Int) : Prop :=
  k * step.natAbs + phase step loc hour min t ≤ elapsed step loc hour min t

end Boundaries

/-- No whole number of steps, zero apart, is reached from the side of zero between the instants. -/
def Unbroken (step : Int) (t₁ t₂ : Int) : Prop :=
  ∀ k : Int, 0 < k → ¬(t₁ < k * step.natAbs ∧ k * step.natAbs ≤ t₂) ∧
    ¬(t₁ ≤ -(k * step.natAbs) ∧ -(k * step.natAbs) < t₂)

/-- Without an anchor, a negative step lets the slots fall at each multiple of its size. With one, a
boundary that the first instant has passed on its day may lie ahead of the second instant on its own
day. -/
def BoundariesKept (zones : Zones) (spec : JobSpec) (t₁ t₂ : Int) : Prop :=
  spec.step ≠ 0 ∧
    (spec.anchor zones = none → 0 < spec.step ∨ Unbroken spec.step t₁ t₂) ∧
    ∀ hour min loc, spec.anchor zones = some (hour, min, loc) →
      (∀ k, Passed spec.step loc hour min k t₁ → Passed spec.step loc hour min k t₂) ∧
        (spec.scheduleIntervalSeconds = 86400 →
          ((∃ k, ¬Passed spec.step loc hour min k t₁ ∧ Passed spec.step loc hour min k t₂) ↔
            ∃ day, t₁ < loc.date day hour min ∧ loc.date day hour min ≤ t₂))

theorem fdiv_eq_ediv_natAbs (a step : Int) (nonzero : step ≠ 0) :
    a.fdiv step = step.sign * a / step.natAbs := by
  rcases lt_or_gt_of_ne nonzero with negative | positive
  · rw [Int.sign_eq_neg_one_of_neg negative, Int.ofNat_natAbs_of_nonpos negative.le, neg_one_mul,
      ← Int.fdiv_eq_ediv_of_nonneg _ (by omega), Int.neg_fdiv_neg]
  · rw [Int.sign_eq_one_of_pos positive, Int.natAbs_of_nonneg positive.le, one_mul,
      Int.fdiv_eq_ediv_of_nonneg _ positive.le]

theorem le_fdiv_add_iff {step : Int} (nonzero : step ≠ 0) (loc : Location) (hour min : Int)
    (t : Int) (k : Int) :
    k ≤ (sinceAnchor loc hour min t).fdiv step + (sinceRef loc hour min t).fdiv step ↔
      Passed step loc hour min k t := by
  have size : (0 : Int) < step.natAbs := by omega
  have whole := Int.mul_ediv_add_emod (step.sign * sinceRef loc hour min t) step.natAbs
  calc k ≤ (sinceAnchor loc hour min t).fdiv step + (sinceRef loc hour min t).fdiv step
      ↔ k - step.sign * sinceRef loc hour min t / step.natAbs
          ≤ step.sign * sinceAnchor loc hour min t / step.natAbs := by
        rw [fdiv_eq_ediv_natAbs _ _ nonzero, fdiv_eq_ediv_natAbs _ _ nonzero]
        omega
    _ ↔ (k - step.sign * sinceRef loc hour min t / step.natAbs) * step.natAbs
          ≤ step.sign * sinceAnchor loc hour min t := Int.le_ediv_iff_mul_le size
    _ ↔ Passed step loc hour min k t := by
        rw [Passed, phase, elapsed, mul_add, sub_mul, mul_comm (_ / _) (_ : Int)]
        omega

theorem le_tdiv_iff {size k : Int} (positive : 0 < size) (above : 0 < k) (t : Int) :
    k ≤ t.tdiv size ↔ k * size ≤ t := by
  rcases le_or_gt 0 t with nonneg | negative
  · rw [Int.tdiv_eq_ediv_of_nonneg nonneg]
    exact Int.le_ediv_iff_mul_le positive
  · have quotient : t.tdiv size ≤ (0 : Int).tdiv size := Int.tdiv_le_tdiv positive negative.le
    rw [Int.zero_tdiv] at quotient
    have product : 0 < k * size := mul_pos above positive
    omega

theorem tdiv_le_neg_iff {size k : Int} (positive : 0 < size) (above : 0 < k) (t : Int) :
    t.tdiv size ≤ -k ↔ t ≤ -(k * size) := by
  have mirrored := le_tdiv_iff positive above (-t)
  rw [Int.neg_tdiv] at mirrored
  omega

theorem tdiv_falls_iff {step : Int} (nonzero : step ≠ 0) (t₁ t₂ : Int) :
    t₂.tdiv step.natAbs ≤ t₁.tdiv step.natAbs ↔ Unbroken step t₁ t₂ := by
  have positive : (0 : Int) < step.natAbs := by omega
  constructor
  · intro falls k above
    have first := le_tdiv_iff positive above
    have second := tdiv_le_neg_iff positive above
    constructor
    · rintro ⟨ahead, behind⟩
      exact ahead.not_ge ((first t₁).mp (((first t₂).mpr behind).trans falls))
    · rintro ⟨behind, ahead⟩
      exact ahead.not_ge ((second t₂).mp (falls.trans ((second t₁).mpr behind)))
  · intro unbroken
    by_contra rises
    rcases lt_or_ge 0 (t₂.tdiv step.natAbs) with above | below
    · -- the last multiple above zero that the second instant has reached
      have ahead : ¬t₂.tdiv step.natAbs * step.natAbs ≤ t₁ := fun reached =>
        rises ((le_tdiv_iff positive above t₁).mpr reached)
      exact (unbroken _ above).1 ⟨not_le.mp ahead, (le_tdiv_iff positive above t₂).mp le_rfl⟩
    · have under : 0 < -t₁.tdiv step.natAbs := by omega
      have ahead : ¬t₂ ≤ -(-t₁.tdiv step.natAbs * step.natAbs) := fun reached =>
        rises (by simpa using (tdiv_le_neg_iff positive under t₂).mpr reached)
      exact (unbroken _ under).2 ⟨(tdiv_le_neg_iff positive under t₁).mp (by simp), not_le.mp ahead⟩

variable {spec : JobSpec} {zones : Zones} {t₂ t₁ : Int}

theorem tdiv_le_tdiv_iff {step : Int} (nonzero : step ≠ 0) (ordered : t₁ ≤ t₂) :
    t₁.tdiv step ≤ t₂.tdiv step ↔ 0 < step ∨ Unbroken step t₁ t₂ := by
  rcases lt_or_gt_of_ne nonzero with negative | positive
  · have mirrored : ∀ t : Int, t.tdiv step = -t.tdiv step.natAbs := fun t => by
      rw [Int.ofNat_natAbs_of_nonpos negative.le, Int.tdiv_neg, neg_neg]
    rw [mirrored, mirrored, neg_le_neg_iff, tdiv_falls_iff nonzero]
    exact (or_iff_right (not_lt.mpr negative.le)).symm
  · exact iff_of_true (Int.tdiv_le_tdiv positive ordered) (.inl positive)

theorem JobSpec.slot_eq_none (zero : spec.step = 0) (now : Int) : spec.slot zones now = none := by
  have wrapped : intervalNanos spec.scheduleIntervalSeconds = 0 := Int64.toInt_inj.mp zero
  rw [slot]
  split <;> simp [anchoredSlot, Jobctl.slot, floorDiv, wrapped]

theorem JobSpec.slot_unanchored (none : spec.anchor zones = none)
    (nonzero : spec.step ≠ 0) (now : Int) (low : -2 ^ 63 ≤ now) (high : now < 2 ^ 63) :
    ∃ s, spec.slot zones now = some s ∧ s.toInt = now.tdiv spec.step := by
  have length : intervalNanos spec.scheduleIntervalSeconds ≠ 0 := fun zero => nonzero (by simp [step, zero])
  simpa only [slot, none, step] using slot_eq now spec.scheduleIntervalSeconds low high length

theorem JobSpec.slot_anchored {hour min : Int} {loc : Location}
    (anchored : spec.anchor zones = some (hour, min, loc)) (nonzero : spec.step ≠ 0) (now : Int) :
    ∃ s, spec.slot zones now = some s ∧ ∀ k, k ≤ s.toInt ↔ Passed spec.step loc hour min k now := by
  have length : intervalNanos spec.scheduleIntervalSeconds ≠ 0 := fun zero => nonzero (by simp [step, zero])
  rcases anchoredSlot_eq now spec.scheduleIntervalSeconds loc hour min length with ⟨s, found, value⟩
  refine ⟨s, by simpa only [slot, anchored] using found, fun k => ?_⟩
  rw [value]
  exact le_fdiv_add_iff nonzero loc hour min now k

theorem slotsAdvance_iff_of_slots {s₁ s₂ : Int64}
    (first : spec.slot zones t₁ = some s₁) (second : spec.slot zones t₂ = some s₂) :
    SlotsAdvance zones spec t₁ t₂ ↔ s₁ ≤ s₂ ∧
      ∀ hour min loc, spec.anchor zones = some (hour, min, loc) →
        spec.scheduleIntervalSeconds = 86400 →
        (s₁ = s₂ ↔ ¬∃ day, t₁ < loc.date day hour min ∧ loc.date day hour min ≤ t₂) := by
  constructor
  · rintro ⟨_, _, is₁, is₂, rest⟩
    rwa [Option.some.inj (first.symm.trans is₁), Option.some.inj (second.symm.trans is₂)]
  · intro rest
    exact ⟨s₁, s₂, first, second, rest⟩

theorem eq_iff_of_le_iff {s₁ s₂ : Int64} {passed₁ passed₂ : Int → Prop}
    (value₁ : ∀ k, k ≤ s₁.toInt ↔ passed₁ k) (value₂ : ∀ k, k ≤ s₂.toInt ↔ passed₂ k)
    (forward : s₁ ≤ s₂) : s₁ = s₂ ↔ ¬∃ k, ¬passed₁ k ∧ passed₂ k := by
  rw [Int64.le_iff_toInt_le] at forward
  rw [← Int64.toInt_inj]
  constructor
  · rintro same ⟨k, ahead, behind⟩
    exact ahead ((value₁ k).mp (same ▸ (value₂ k).mpr behind))
  · intro none
    refine le_antisymm forward (not_lt.mp fun more => none ⟨s₂.toInt, ?_, (value₂ _).mp le_rfl⟩)
    rw [← value₁]
    exact not_le.mpr more

def fixedZone (offset : Int) : Location := ⟨fun _ => offset⟩

theorem fixedZone_date (offset day hour min : Int) : (fixedZone offset).date day hour min =
      (day * 86400 + hour * 3600 + min * 60 - offset) * 1000000000 := by
  by_cases zero : offset = 0 <;> simp [Location.date, fixedZone, secondsPerDay, zero]

theorem toInt_unixNano_sub (left right : Int) (low : -2 ^ 63 ≤ left - right)
    (high : left - right < 2 ^ 63) : (unixNano left - unixNano right).toInt = left - right := by
  rw [unixNano, unixNano, ← Int64.ofInt_sub]
  exact toInt_unixNano low high

theorem passed_fixedZone (offset hour min k : Int) (t : Int) (zone : offset.natAbs ≤ 86400)
    (hours : 0 ≤ hour ∧ hour ≤ 23) (minutes : 0 ≤ min ∧ min ≤ 59) (early : -2 ^ 62 ≤ t)
    (late : t ≤ 2 ^ 62) :
    Passed 86400000000000 (fixedZone offset) hour min k t ↔ (fixedZone offset).date k hour min ≤ t := by
  have dayIs : (fixedZone offset).day t = (t / 1000000000 + offset) / 86400 := rfl
  have anchor := fixedZone_date offset ((fixedZone offset).day t) hour min
  have ref := fixedZone_date offset 0 hour min
  have boundary := fixedZone_date offset k hour min
  -- neither difference leaves the 64 bits
  have today : sinceAnchor (fixedZone offset) hour min t =
      t - (fixedZone offset).date ((fixedZone offset).day t) hour min :=
    toInt_unixNano_sub _ _ (by omega) (by omega)
  have days : sinceRef (fixedZone offset) hour min t = 86400000000000 * (fixedZone offset).day t := by
    rw [sinceRef, toInt_unixNano_sub _ _ (by omega) (by omega)]
    omega
  have inPhase : phase 86400000000000 (fixedZone offset) hour min t = 0 := by
    rw [phase, days]
    exact Int.emod_eq_zero_of_dvd ⟨_, one_mul _⟩
  rw [Passed, inPhase, elapsed, today, days]
  change k * 86400000000000 + 0 ≤ 1 * _ ↔ _
  omega

theorem boundariesKept_of_fixedZone {offset hour min : Int}
    (anchored : spec.anchor zones = some (hour, min, fixedZone offset))
    (daily : spec.scheduleIntervalSeconds = 86400) (zone : offset.natAbs ≤ 86400)
    (hours : 0 ≤ hour ∧ hour ≤ 23) (minutes : 0 ≤ min ∧ min ≤ 59)
    (early : -2 ^ 62 ≤ t₁) (ordered : t₁ ≤ t₂) (late : t₂ ≤ 2 ^ 62) :
    BoundariesKept zones spec t₁ t₂ := by
  have step : spec.step = 86400000000000 := by
    rw [JobSpec.step, daily]
    decide
  have passed₁ := fun k =>
    passed_fixedZone offset hour min k t₁ zone hours minutes early (ordered.trans late)
  have passed₂ := fun k =>
    passed_fixedZone offset hour min k t₂ zone hours minutes (early.trans ordered) late
  refine ⟨by omega, fun none => by simp [anchored] at none, fun hour' min' loc same => ?_⟩
  cases anchored.symm.trans same
  simp only [step, passed₁, passed₂, not_le]
  exact ⟨fun k behind => behind.trans ordered, fun _ => trivial⟩

/-- A job every day at ten past four in the afternoon, in a zone of the table. -/
def afternoonSpec (zone : String) (interval : Int64) : JobSpec :=
  { name := ascii "scout".toList, command := [ascii "run".toList], dir := [], env := none,
    dependsOn := [], scheduleIntervalSeconds := interval,
    schedule := ascii ("daily@16:10 ".toList ++ zone.toList), maxRetries := 2,
    retryBackoffSeconds := 60 }

def zonesWith (loc : Location) : Zones := ⟨id, fun _ => .ok loc⟩

/-- The offset of New York around the spring and the autumn of 2024. -/
def newYork : Location :=
  ⟨fun second => if 1710054000 ≤ second ∧ second < 1730613600 then -14400 else -18000⟩

end KairosFlux.Jobctl
