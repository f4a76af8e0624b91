import NumericContract.Proofs.Decimal.Value

/-!
# Decimals and integers

The integer part, the floor and the nearest integer of a decimal are those of the number that it
stands for, and so is the nearest outcome.
-/

namespace NumericContract

open Magnitude

namespace Magnitude

theorem div_split (n : ℕ) {d : ℕ} (hd : 0 < d) :
    ∃ f : ℚ, (n : ℚ) / d = (n / d : ℕ) + f ∧ 0 ≤ f ∧ f < 1 ∧ f * d = (n % d : ℕ) := by
  have hd' : (0 : ℚ) < d := by exact_mod_cast hd
  have hn : (n : ℚ) = (n % d : ℕ) + d * (n / d : ℕ) := by exact_mod_cast (Nat.mod_add_div n d).symm
  have hlt : ((n % d : ℕ) : ℚ) < d := by exact_mod_cast Nat.mod_lt n hd
  refine ⟨(n % d : ℕ) / d, ?_, by positivity, (div_lt_one hd').mpr hlt, by field_simp⟩
  rw [hn]
  field_simp
  ring

theorem divHalfUp_eq_floor (n : ℕ) {d : ℕ} (hd : 0 < d) :
    (divHalfUp n d : ℤ) = ⌊(n : ℚ) / d + 1 / 2⌋ := by
  obtain ⟨f, hsplit, hf0, hf1, hfd⟩ := div_split n hd
  have hd' : (0 : ℚ) < d := by exact_mod_cast hd
  rw [hsplit, add_assoc, Int.floor_natCast_add]
  unfold divHalfUp
  split
  · next h =>
    have h' : (2 : ℚ) * (n % d : ℕ) < d := by exact_mod_cast h
    have hhalf : f + 1 / 2 < 1 := by nlinarith
    rw [Int.floor_eq_zero_iff.mpr ⟨by linarith, hhalf⟩, add_zero]
  · next h =>
    have h' : (d : ℚ) ≤ 2 * (n % d : ℕ) := by exact_mod_cast not_lt.mp h
    have hhalf : 1 ≤ f + 1 / 2 := by nlinarith
    have hone : ⌊f + 1 / 2⌋ = 1 :=
      Int.floor_eq_iff.mpr ⟨by push_cast; linarith, by push_cast; linarith⟩
    rw [hone]
    push_cast
    rfl

end Magnitude

namespace Decimal.Finite

theorem abs_value_eq_div {x : Finite} (h : x.exponent < 0) :
    |x.value| = (x.coefficient : ℚ) / ((10 ^ (-x.exponent).toNat : ℕ) : ℚ) := by
  have he : x.exponent = -((-x.exponent).toNat : ℤ) := by omega
  rw [abs_value]
  conv_lhs => rw [he, zpow_neg, zpow_natCast]
  push_cast
  rfl

theorem abs_value_eq_natCast {x : Finite} (h : 0 ≤ x.exponent) :
    |x.value| = ((x.coefficient * 10 ^ x.exponent.toNat : ℕ) : ℚ) := by
  have he : x.exponent = (x.exponent.toNat : ℤ) := by omega
  rw [abs_value]
  conv_lhs => rw [he, zpow_natCast]
  push_cast
  rfl

theorem truncate_eq (x : Finite) :
    x.truncate = if x.negative then -⌊|x.value|⌋ else ⌊|x.value|⌋ := by
  have hwhole : ((if 0 ≤ x.exponent then shiftUp x.coefficient x.exponent.toNat
      else shiftDown x.coefficient (-x.exponent).toNat : ℕ) : ℤ) = ⌊|x.value|⌋ := by
    split
    · next h => rw [abs_value_eq_natCast h, shiftUp_eq, tenPower_eq, Int.floor_natCast]
    · next h =>
      rw [abs_value_eq_div (not_le.mp h), shiftDown_eq, tenPower_eq, Rat.floor_natCast_div_natCast]
      norm_cast
  simp only [truncate, hwhole]

theorem truncate_of_nonneg {x : Finite} (h : 0 ≤ x.value) : x.truncate = ⌊x.value⌋ := by
  rw [truncate_eq]
  split
  · next hn =>
    have hz : x.value = 0 := le_antisymm (value_nonpos_of_negative hn) h
    simp [hz]
  · rw [abs_of_nonneg h]

theorem truncate_of_nonpos {x : Finite} (h : x.value ≤ 0) : x.truncate = ⌈x.value⌉ := by
  rw [truncate_eq]
  split
  · rw [abs_of_nonpos h, Int.floor_neg, neg_neg]
  · next hn =>
    have hz : x.value = 0 := le_antisymm h (value_nonneg_of_positive (by simpa using hn))
    simp [hz]

theorem floor_eq (x : Finite) : x.floor = ⌊x.value⌋ := by
  unfold floor
  rcases lt_or_ge x.value 0 with hneg | hpos
  · have hn : x.isNegative = true := (isNegative_iff x).mpr hneg
    rw [truncate_of_nonpos hneg.le]
    rcases lt_or_ge x.exponent 0 with he | he
    · have habs := abs_value_eq_div he
      rw [abs_of_neg hneg] at habs
      have hp : 0 < 10 ^ (-x.exponent).toNat := by positivity
      obtain ⟨f, hsplit, hf0, hf1, hfd⟩ := div_split x.coefficient hp
      have hv : x.value = -((x.coefficient / 10 ^ (-x.exponent).toNat : ℕ) : ℚ) - f := by linarith
      generalize x.coefficient / 10 ^ (-x.exponent).toNat = q at hv
      simp only [hn, he, decide_true, Bool.true_and, dropsDigits_eq]
      split
      · next hmod =>
        rw [decide_eq_true_eq, tenPower_eq] at hmod
        have hpos : 0 < f := by
          refine lt_of_le_of_ne hf0 fun h0 => hmod ?_
          rw [← h0, zero_mul] at hfd
          exact_mod_cast hfd.symm
        have hceil : ⌈x.value⌉ = -(q : ℤ) :=
          Int.ceil_eq_iff.mpr ⟨by push_cast; linarith, by push_cast; linarith⟩
        rw [hceil]
        exact (Int.floor_eq_iff.mpr ⟨by push_cast; linarith, by push_cast; linarith⟩).symm
      · next hmod =>
        rw [decide_eq_true_eq, not_not, tenPower_eq] at hmod
        have hzero : f = 0 := by
          rw [hmod] at hfd
          have hp' : ((10 ^ (-x.exponent).toNat : ℕ) : ℚ) ≠ 0 := by exact_mod_cast hp.ne'
          simpa [hp'] using hfd
        rw [show x.value = ((-(q : ℤ) : ℤ) : ℚ) by rw [hv, hzero]; push_cast; ring,
          Int.ceil_intCast, Int.floor_intCast]
    · simp only [hn, not_lt.mpr he, decide_false, Bool.and_false, Bool.false_and]
      have habs := abs_value_eq_natCast he
      rw [abs_of_neg hneg] at habs
      rw [show x.value = ((-((x.coefficient * 10 ^ x.exponent.toNat : ℕ) : ℤ) : ℤ) : ℚ) by
        push_cast at habs ⊢; linarith, Int.ceil_intCast, Int.floor_intCast]
      rfl
  · have hn : x.isNegative = false := by
      have := mt (isNegative_iff x).mp (not_lt.mpr hpos)
      simpa using this
    simp [hn, truncate_of_nonneg hpos]

theorem roundHalfUp_eq (x : Finite) :
    x.roundHalfUp = if x.negative then -⌊|x.value| + 1 / 2⌋ else ⌊|x.value| + 1 / 2⌋ := by
  have hwhole : ((if 0 ≤ x.exponent then shiftUp x.coefficient x.exponent.toNat
      else shiftHalfUp x.coefficient (-x.exponent).toNat : ℕ) : ℤ) = ⌊|x.value| + 1 / 2⌋ := by
    split
    · next h =>
      rw [abs_value_eq_natCast h, shiftUp_eq, tenPower_eq, add_comm, Int.floor_add_natCast]
      norm_num
    · next h =>
      rw [abs_value_eq_div (not_le.mp h), shiftHalfUp_eq, tenPower_eq,
        divHalfUp_eq_floor _ (by positivity)]
  simp only [roundHalfUp, hwhole]

theorem roundHalfUp_of_nonneg {x : Finite} (h : 0 ≤ x.value) : x.roundHalfUp = ⌊x.value + 1 / 2⌋ := by
  rw [roundHalfUp_eq, abs_of_nonneg h]
  split
  · next hneg =>
    rw [le_antisymm (value_nonpos_of_negative hneg) h]
    norm_num
  · rfl

/-- A negative number is limited to zero, whichever way its half is rounded. -/
theorem clampInt_roundHalfUp (x : Finite) (high : ℤ) :
    clampInt x.roundHalfUp 0 high = max 0 (min ⌊x.value + 1 / 2⌋ high) := by
  rcases le_or_gt 0 x.value with h | h
  · rw [roundHalfUp_of_nonneg h, clampInt]
  · have hfloor : ⌊x.value + 1 / 2⌋ < 1 := Int.floor_lt.mpr (by push_cast; linarith)
    have hround : x.roundHalfUp ≤ 0 := by
      rw [roundHalfUp_eq]
      split
      · exact neg_nonpos.mpr (Int.floor_nonneg.mpr (by positivity))
      · next hpos => exact absurd (value_nonneg_of_positive (by simpa using hpos)) (not_le.mpr h)
    rw [clampInt]
    omega

end Decimal.Finite

namespace Decimal

/-- An outcome is found unless the number is at most `-1/2`. -/
theorem nearestOutcome?_finite (x : Finite) :
    (finite x).nearestOutcome? = if -(1 / 2) < x.value then some ⌊x.value + 1 / 2⌋ else none := by
  simp only [nearestOutcome?]
  rw [Finite.roundHalfUp_eq]
  rcases hs : x.negative with _ | _
  · have hx := Finite.value_nonneg_of_positive hs
    have hfloor : 0 ≤ ⌊x.value + 1 / 2⌋ := Int.floor_nonneg.mpr (by linarith)
    simp only [Bool.false_eq_true, if_false, abs_of_nonneg hx]
    rw [if_pos hfloor, if_pos (by linarith)]
  · have hx := Finite.value_nonpos_of_negative hs
    simp only [if_true, abs_of_nonpos hx]
    by_cases h : -(1 / 2) < x.value
    · have hz : ⌊-x.value + 1 / 2⌋ = 0 := Int.floor_eq_iff.mpr ⟨by push_cast; linarith, by push_cast; linarith⟩
      have hz' : ⌊x.value + 1 / 2⌋ = 0 := Int.floor_eq_iff.mpr ⟨by push_cast; linarith, by push_cast; linarith⟩
      rw [hz, hz', if_pos h]
      simp
    · have hone : 1 ≤ ⌊-x.value + 1 / 2⌋ := Int.le_floor.mpr (by push_cast; linarith)
      rw [if_neg (by omega), if_neg h]

variable {x : Finite} {y : Decimal} {c : ℤ}

theorem nearestOutcome?_bounds (h : c ∈ (finite x).nearestOutcome?) :
    (c : ℚ) - 1 / 2 ≤ x.value ∧ x.value < c + 1 / 2 := by
  rw [nearestOutcome?_finite] at h
  split at h
  · have hle := Int.floor_le (x.value + 1 / 2)
    have hlt := Int.lt_floor_add_one (x.value + 1 / 2)
    rw [Option.some.inj h] at hle hlt
    constructor <;> linarith
  · cases h

theorem nonneg_of_nearestOutcome? (h : c ∈ y.nearestOutcome?) : 0 ≤ c := by
  cases y with
  | finite x =>
      simp only [nearestOutcome?] at h
      split at h
      · next hx =>
        cases h
        exact hx
      · cases h
  | infinity s => cases h
  | nan signaling s payload => cases h

end Decimal

end NumericContract
