import Mathlib
import NumericContract.Decimal.Integer

/-!
# Decimals as numbers

A finite decimal stands for a rational number. Comparison, the integer part and the nearest
integer depend on that number only, whatever the exponent it is written with.
-/

namespace NumericContract

open Magnitude

namespace Magnitude

theorem tenPower_eq (k : ℕ) : tenPower k = 10 ^ k := rfl

@[simp] theorem cast_tenPower (k : ℕ) : ((tenPower k : ℕ) : ℚ) = 10 ^ k := by
  simp [tenPower_eq]

theorem pow_mul_div_le {a b p q : ℕ} (ha : 0 < a) (hq : q ≠ 0) (h : a ^ p ≤ b ^ q) (n : ℕ) :
    a ^ (p * n / q) ≤ b ^ n := by
  have hscale : (a ^ (p * n / q)) ^ q ≤ (b ^ n) ^ q := by
    calc (a ^ (p * n / q)) ^ q
        = a ^ (p * n / q * q) := by rw [← pow_mul]
      _ ≤ a ^ (p * n) := Nat.pow_le_pow_right ha (Nat.div_mul_le_self _ _)
      _ = (a ^ p) ^ n := by rw [← pow_mul]
      _ ≤ (b ^ q) ^ n := Nat.pow_le_pow_left h _
      _ = (b ^ n) ^ q := pow_right_comm _ _ _
  exact (Nat.pow_le_pow_iff_left hq).mp hscale

/-- The climb to the digit count never starts above the answer. -/
theorem tenPower_start_le {n : ℕ} (hn : n ≠ 0) : tenPower (1233 * n.log2 / 4096) ≤ n :=
  le_trans (pow_mul_div_le (by decide) (by decide) (by decide +kernel) n.log2) (Nat.log2_self_le hn)

theorem tenPower_pred_digitCountFrom_le {n k : ℕ} (h : n < tenPower k → k = 0 ∨ tenPower (k - 1) ≤ n) :
    digitCountFrom n k = 0 ∨ tenPower (digitCountFrom n k - 1) ≤ n := by
  fun_induction digitCountFrom n k with
  | case1 k hk => exact h hk
  | case2 k hk ih => exact ih fun _ => Or.inr (by simpa using hk)

theorem tenPower_digitCount_le {n : ℕ} (hn : n ≠ 0) : 10 ^ (digitCount n - 1) ≤ n := by
  have h := tenPower_pred_digitCountFrom_le (n := n) (k := 1233 * n.log2 / 4096)
    fun hlt => absurd (tenPower_start_le hn) (by omega)
  rcases h with h | h
  · have hlt := lt_tenPower_digitCount n
    rw [digitCount, h] at hlt
    exact absurd hlt (by simp [tenPower_eq, hn])
  · exact h

theorem lt_pow_digitCount (n : ℕ) : n < 10 ^ digitCount n := lt_tenPower_digitCount n

theorem digitCount_le_iff {n k : ℕ} : digitCount n ≤ k ↔ n < 10 ^ k := by
  constructor
  · exact lt_tenPower_of_digitCount_le
  · intro h
    by_contra hk
    by_cases hn : n = 0
    · subst hn
      simp [digitCount, digitCountFrom, tenPower_eq] at hk
    · have hle := tenPower_digitCount_le hn
      have : 10 ^ k ≤ 10 ^ (digitCount n - 1) := Nat.pow_le_pow_right (by decide) (by omega)
      omega

@[simp] theorem digitCount_zero : digitCount 0 = 0 :=
  Nat.le_zero.mp (digitCount_le_iff.mpr (by decide))

theorem digitCount_pos {n : ℕ} (hn : n ≠ 0) : 0 < digitCount n := by
  by_contra h
  have := digitCount_le_iff.mp (show digitCount n ≤ 0 by omega)
  omega

end Magnitude

namespace Decimal

theorem ten_zpow_le {i j : ℤ} (h : i ≤ j) : (10 : ℚ) ^ i ≤ 10 ^ j :=
  zpow_le_zpow_right₀ (by norm_num) h

theorem ten_zpow_lt {i j : ℤ} (h : i < j) : (10 : ℚ) ^ i < 10 ^ j :=
  zpow_lt_zpow_right₀ (by norm_num) h

theorem ten_zpow_pos (i : ℤ) : (0 : ℚ) < 10 ^ i := by positivity

theorem ten_zpow_add (i j : ℤ) : (10 : ℚ) ^ (i + j) = 10 ^ i * 10 ^ j :=
  zpow_add₀ (by norm_num) i j

theorem lt_of_ten_zpow_lt {i j : ℤ} (h : (10 : ℚ) ^ i < 10 ^ j) : i < j :=
  (zpow_lt_zpow_iff_right₀ (by norm_num)).mp h

theorem ten_zpow_eq_natCast_mul {e f : ℤ} (h : f ≤ e) :
    (10 : ℚ) ^ e = ((10 ^ (e - f).toNat : ℕ) : ℚ) * 10 ^ f := by
  have hk : e = ((e - f).toNat : ℤ) + f := by omega
  conv_lhs => rw [hk, ten_zpow_add, zpow_natCast]
  push_cast
  rfl

theorem ten_zpow_sub (e extra : ℤ) : (10 : ℚ) ^ (e - extra) =
    10 ^ e * ((tenPower (-extra).toNat : ℕ) / (tenPower extra.toNat : ℕ)) := by
  have h : (10 : ℚ) ^ (e - extra) * 10 ^ extra.toNat = 10 ^ e * 10 ^ (-extra).toNat := by
    rw [← zpow_natCast, ← zpow_natCast, ← ten_zpow_add, ← ten_zpow_add]
    congr 1
    omega
  rw [cast_tenPower, cast_tenPower]
  field_simp
  linarith

namespace Finite

theorem abs_value (x : Finite) : |x.value| = x.coefficient * 10 ^ x.exponent := by
  have h : |(x.signed : ℚ)| = x.coefficient := by
    unfold signed
    split <;> simp
  rw [value, abs_mul, h, abs_of_pos (ten_zpow_pos x.exponent)]

theorem value_of_positive {x : Finite} (h : x.negative = false) :
    x.value = x.coefficient * 10 ^ x.exponent := by
  simp [value, signed, h]

theorem value_of_negative {x : Finite} (h : x.negative = true) :
    x.value = -(x.coefficient * 10 ^ x.exponent) := by
  simp [value, signed, h]

@[simp] theorem value_ofInt (n : ℤ) : (ofInt n).value = n := by
  rcases lt_or_ge n 0 with h | h
  · rw [value_of_negative (by simpa [ofInt] using h)]
    simp [ofInt, Nat.cast_natAbs, abs_of_neg h]
  · rw [value_of_positive (by simpa [ofInt] using h)]
    simp [ofInt, Nat.cast_natAbs, abs_of_nonneg h]

@[simp] theorem value_flip (x : Finite) :
    Finite.value { x with negative := !x.negative } = -x.value := by
  cases h : x.negative <;> simp [value, signed, h]

theorem isZero_iff (x : Finite) : x.isZero = true ↔ x.value = 0 := by
  have hp := ten_zpow_pos x.exponent
  rw [← abs_eq_zero, abs_value]
  simp [isZero, hp.ne']

theorem isZero_eq_false_iff (x : Finite) : x.isZero = false ↔ x.value ≠ 0 := by
  rw [ne_eq, ← isZero_iff, Bool.not_eq_true]

theorem coefficient_ne_zero {x : Finite} (h : x.isZero = false) : x.coefficient ≠ 0 := by
  simpa [isZero] using h

theorem isNegative_iff (x : Finite) : x.isNegative = true ↔ x.value < 0 := by
  have hp := ten_zpow_pos x.exponent
  cases h : x.negative with
  | false =>
      have hx : 0 ≤ x.value := by rw [value_of_positive h]; positivity
      simp [isNegative, h, hx]
  | true =>
      rw [value_of_negative h]
      simp [isNegative, h, hp, Nat.pos_iff_ne_zero]

theorem value_nonpos_of_negative {x : Finite} (h : x.negative = true) : x.value ≤ 0 := by
  have hp := ten_zpow_pos x.exponent
  rw [value_of_negative h, neg_nonpos]
  positivity

theorem value_nonneg_of_positive {x : Finite} (h : x.negative = false) : 0 ≤ x.value := by
  rw [value_of_positive h]
  positivity

theorem shiftUp_mul_zpow (c : ℕ) {e f : ℤ} (h : f ≤ e) :
    (shiftUp c (e - f).toNat : ℚ) * 10 ^ f = c * 10 ^ e := by
  rw [shiftUp_eq, ten_zpow_eq_natCast_mul h, tenPower_eq]
  push_cast
  ring

/-! ## Order -/

theorem zpow_adjusted_le {x : Finite} (h : x.isZero = false) : (10 : ℚ) ^ x.adjusted ≤ |x.value| := by
  have hc := coefficient_ne_zero h
  have hd := digitCount_pos hc
  have hle : ((10 ^ (digitCount x.coefficient - 1) : ℕ) : ℚ) ≤ x.coefficient := by
    exact_mod_cast tenPower_digitCount_le hc
  rw [abs_value]
  have he : x.adjusted = ((digitCount x.coefficient - 1 : ℕ) : ℤ) + x.exponent := by
    unfold adjusted
    omega
  rw [he, ten_zpow_add, zpow_natCast]
  push_cast at hle
  exact mul_le_mul_of_nonneg_right hle (ten_zpow_pos _).le

theorem abs_value_lt_zpow (x : Finite) : |x.value| < 10 ^ (x.exponent + digitCount x.coefficient) := by
  have hlt : ((x.coefficient : ℕ) : ℚ) < 10 ^ digitCount x.coefficient := by
    exact_mod_cast lt_pow_digitCount x.coefficient
  rw [abs_value, add_comm, ten_zpow_add, zpow_natCast]
  exact mul_lt_mul_of_pos_right hlt (ten_zpow_pos _)

theorem abs_value_lt_zpow_adjusted (x : Finite) : |x.value| < 10 ^ (x.adjusted + 1) := by
  refine lt_of_lt_of_le (abs_value_lt_zpow x) (ten_zpow_le ?_)
  unfold adjusted
  omega

theorem compareMagnitude_eq_cmp (x y : Finite) :
    compareMagnitude x y = cmp |x.value| |y.value| := by
  have hzero : ∀ z : Finite, z.isZero = true → z.coefficient = 0 ∧ |z.value| = 0 := fun z hz =>
    ⟨by simpa [isZero] using hz, by rw [(isZero_iff z).mp hz, abs_zero]⟩
  unfold compareMagnitude
  split
  · next h =>
    rw [Nat.compare_eq_ite_lt]
    rcases hx : x.isZero with _ | _
    · obtain ⟨hc, hv⟩ := hzero y (by simpa [hx] using h)
      have hpos : 0 < |x.value| := abs_pos.mpr ((isZero_eq_false_iff x).mp hx)
      have hcx := coefficient_ne_zero hx
      rw [hc, hv, (cmp_eq_gt_iff _ _).mpr hpos]
      simp [Nat.pos_of_ne_zero hcx]
    · obtain ⟨hc, hv⟩ := hzero x hx
      rw [hc, hv]
      rcases hy : y.isZero with _ | _
      · have hpos : 0 < |y.value| := abs_pos.mpr ((isZero_eq_false_iff y).mp hy)
        rw [(cmp_eq_lt_iff _ _).mpr hpos]
        simp [Nat.pos_of_ne_zero (coefficient_ne_zero hy)]
      · obtain ⟨hc', hv'⟩ := hzero y hy
        simp [hc', hv']
  · next h =>
    have hx : x.isZero = false := by simp_all
    have hy : y.isZero = false := by simp_all
    split
    · next hne =>
      rcases lt_or_gt_of_ne hne with hlt | hgt
      · have hv : |x.value| < |y.value| :=
          lt_of_lt_of_le (abs_value_lt_zpow_adjusted x)
            (le_trans (ten_zpow_le (by omega)) (zpow_adjusted_le hy))
        rw [(cmp_eq_lt_iff _ _).mpr hv, Int.compare_eq_lt.mpr hlt]
      · have hv : |y.value| < |x.value| :=
          lt_of_lt_of_le (abs_value_lt_zpow_adjusted y)
            (le_trans (ten_zpow_le (by omega)) (zpow_adjusted_le hx))
        rw [(cmp_eq_gt_iff _ _).mpr hv, Int.compare_eq_gt.mpr hgt]
    · simp only
      have hp := ten_zpow_pos (min x.exponent y.exponent)
      rw [abs_value, abs_value, ← shiftUp_mul_zpow x.coefficient (min_le_left _ y.exponent),
        ← shiftUp_mul_zpow y.coefficient (min_le_right x.exponent _)]
      rw [cmp_mul_pos_right hp, Nat.strictMono_cast.cmp_map_eq, cmp_eq_compare]

theorem compare_eq_cmp (x y : Finite) : x.compare y = cmp x.value y.value := by
  have hnonneg : ∀ z : Finite, z.isNegative = false → 0 ≤ z.value := fun z hz => by
    have := mt (isNegative_iff z).mpr (by simp [hz])
    exact not_lt.mp this
  unfold compare
  rcases hx : x.isNegative with _ | _ <;> rcases hy : y.isNegative with _ | _
  · simp only [compareMagnitude_eq_cmp, abs_of_nonneg (hnonneg x hx), abs_of_nonneg (hnonneg y hy)]
  · have hlt := lt_of_lt_of_le ((isNegative_iff y).mp hy) (hnonneg x hx)
    exact ((cmp_eq_gt_iff _ _).mpr hlt).symm
  · have hlt := lt_of_lt_of_le ((isNegative_iff x).mp hx) (hnonneg y hy)
    exact ((cmp_eq_lt_iff _ _).mpr hlt).symm
  · simp only [compareMagnitude_eq_cmp, abs_of_neg ((isNegative_iff x).mp hx),
      abs_of_neg ((isNegative_iff y).mp hy)]
    exact (StrictAnti.cmp_map_eq (f := fun q : ℚ => -q) (fun _ _ h => neg_lt_neg h) _ _).trans rfl

theorem compare_eq_lt_iff (x y : Finite) : x.compare y = .lt ↔ x.value < y.value := by
  rw [compare_eq_cmp, cmp_eq_lt_iff]

theorem compare_eq_gt_iff (x y : Finite) : x.compare y = .gt ↔ y.value < x.value := by
  rw [compare_eq_cmp, cmp_eq_gt_iff]

end Finite

theorem ge_finite (x y : Finite) :
    Decimal.ge (.finite x) (.finite y) = .ok (decide (y.value ≤ x.value)) := by
  have h : (x.compare y != .lt) = decide (y.value ≤ x.value) := by
    rw [Bool.eq_iff_iff, decide_eq_true_eq, bne_iff_ne, ne_eq, Finite.compare_eq_lt_iff, not_lt]
  rw [← h]
  rfl

theorem lt_finite (x y : Finite) :
    Decimal.lt (.finite x) (.finite y) = .ok (decide (x.value < y.value)) := by
  have h : (x.compare y == .lt) = decide (x.value < y.value) := by
    rw [Bool.eq_iff_iff, decide_eq_true_eq, beq_iff_eq, Finite.compare_eq_lt_iff]
  rw [← h]
  rfl

end Decimal

end NumericContract
