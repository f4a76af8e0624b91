import NumericContract.Proofs.Coefficient
import NumericContract.Proofs.Decimal.Integer

/-!
# Rounding to a coefficient

A number of at most 78 digits below `10 ^ 61` is encoded as if its absolute value was rounded once, to the
nearest multiple of `10 ^ -16`, a half going upward: nothing that the arithmetic loses on the way reaches
the sixteenth place. The sign is that of the number before it is rounded: a zero to which a negative number
is rounded keeps it, and loses it when it is decoded.
-/

namespace NumericContract

open Decimal Magnitude

namespace Decimal.Finite

variable {x m : Finite}

/-! ## Counting in units -/

theorem countIn_congr (e : ℤ) (h : |m.value| = |x.value|) : m.countIn e = x.countIn e := by
  rw [countIn, countIn, h]

theorem countIn_eq_zero_iff {e : ℤ} : x.countIn e = 0 ↔ |x.value| < 10 ^ e / 2 := by
  have hp := ten_zpow_pos e
  rw [countIn, Nat.floor_eq_zero, ← lt_sub_iff_add_lt, div_lt_iff₀ hp]
  ring_nf

theorem countIn_le (e : ℤ) (x : Finite) : (x.countIn e : ℚ) ≤ |x.value| / 10 ^ e + 1 / 2 :=
  Nat.floor_le (by have := ten_zpow_pos e; positivity)

theorem lt_countIn (e : ℤ) (x : Finite) : |x.value| / 10 ^ e + 1 / 2 < x.countIn e + 1 :=
  Nat.lt_floor_add_one _

/-- The count is off by at most half a unit. -/
theorem abs_countIn_sub_le (e : ℤ) (x : Finite) : |x.countIn e * 10 ^ e - (|x.value|)| ≤ 10 ^ e / 2 := by
  have hp := ten_zpow_pos e
  have hnear : |x.countIn e - |x.value| / 10 ^ e| ≤ 1 / 2 := by
    have hle := x.countIn_le e
    have hlt := x.lt_countIn e
    rw [abs_le]
    constructor <;> linarith
  have hsplit : x.countIn e * 10 ^ e - |x.value| = (x.countIn e - |x.value| / 10 ^ e) * 10 ^ e := by
    field_simp
  rw [hsplit, abs_mul, abs_of_pos hp]
  linarith [mul_le_mul_of_nonneg_right hnear hp.le]

end Decimal.Finite

namespace Coefficient

variable {ctx : Context} {x : Finite}

theorem div_unit (q : ℚ) : q / 10 ^ (-16 : ℤ) = q * 10 ^ 16 := by
  rw [zpow_neg, div_inv_eq_mul]
  norm_cast

theorem mul_unit (q : ℚ) : q * 10 ^ (-16 : ℤ) = q / 10 ^ 16 := by
  rw [zpow_neg, ← div_eq_mul_inv]
  norm_cast

/-- The numbers of at most 78 digits that need no more of them for their first sixteen decimals. -/
structure Encodable (x : Finite) : Prop where
  significant : ∃ c e : ℤ, |c| < 10 ^ 78 ∧ x.value = c * 10 ^ e
  fits : x.countIn (-16) < 10 ^ 78

namespace Encodable

theorem of_size (hdigits : ∃ c e : ℤ, |c| < 10 ^ 78 ∧ x.value = c * 10 ^ e) (hsize : |x.value| < 10 ^ 61) :
    Encodable x := by
  refine ⟨hdigits, ?_⟩
  have hle := x.countIn_le (-16)
  rw [div_unit] at hle
  have hlt : (x.countIn (-16) : ℚ) < 10 ^ 78 := by linarith
  exact_mod_cast hlt

theorem abs_value_le (h : Encodable x) : |x.value| ≤ 10 ^ 200 := by
  have hlt := x.lt_countIn (-16)
  have hfits : (x.countIn (-16) : ℚ) < 10 ^ 78 := by exact_mod_cast h.fits
  rw [div_unit] at hlt
  linarith

end Encodable

/-! ## Rounding once -/

def atSixteen (ctx : Context) (x : Finite) : Except Signal Finite := do
  (← x.abs ctx.widened).quantize ctx.widened (-16)

/-- What a number loses to the digits of the context is not counted. -/
theorem Encodable.countIn_eq (h : Encodable x) {m : Finite} (hround : ctx.widened.Rounds |x.value| m.value) :
    m.countIn (-16) = x.countIn (-16) := by
  obtain ⟨c, e, hc, hx⟩ := h.significant
  have hpow : (10 : ℤ) ^ 78 ≤ 10 ^ ctx.widened.precision := by exact_mod_cast pow_le_pow_precision ctx
  have hdigits := Context.Representable.of_digits (hc.trans_le hpow) e
  rw [← hx] at hdigits
  rcases hdigits with hrep | hsmall
  · exact Finite.countIn_congr _ (by rw [hround.eq_self hrep.abs, abs_abs])
  · -- a number that has no digit left is too small to be counted, before and after
    have htiny : (10 : ℚ) ^ minExponent < 10 ^ (-16 : ℤ) / 2 :=
      (ten_zpow_le (show minExponent ≤ -17 by decide)).trans_lt (by norm_num)
    have hleast : ctx.widened.leastExponent ≤ minExponent := by
      have hprec := Context.Representable.precision_pos ctx.widened
      unfold Context.leastExponent
      omega
    have hm := hround.abs_le_of_abs_le (Context.Representable.zpow hleast) (by rw [abs_abs]; exact hsmall.le)
    rw [Finite.countIn_eq_zero_iff.mpr (hm.trans_lt htiny),
      Finite.countIn_eq_zero_iff.mpr (hsmall.trans htiny)]

theorem atSixteen_eq (ctx : Context) (h : Encodable x) :
    atSixteen ctx x = .ok ⟨false, x.countIn (-16), -16⟩ := by
  obtain ⟨m, hm, hround⟩ := (Finite.abs_computes ctx.widened x).exists_rounds
    (by rw [abs_abs]; exact h.abs_value_le)
  unfold atSixteen
  rw [bind_of_ok hm, Finite.quantize_eq, h.countIn_eq hround,
    if_pos (h.fits.trans_le (pow_le_pow_precision ctx)), Context.negative_of_fit hm]

theorem units_of_atSixteen {r : Finite} (h : atSixteen ctx x = .ok r) : units ctx x = .ok r.coefficient := by
  obtain ⟨m, hm, hr⟩ := bind_eq_ok.mp h
  exact bind_eq_ok.mpr ⟨m, hm, bind_eq_ok.mpr ⟨r, hr, rfl⟩⟩

def ofCount (positive : Bool) (n : ℕ) : Coefficient :=
  ⟨positive, n / fractionScale, n % fractionScale, Nat.mod_lt _ fractionScale_pos⟩

@[simp] theorem ofCount_positive (positive : Bool) (n : ℕ) : (ofCount positive n).positive = positive := rfl

@[simp] theorem count_ofCount (positive : Bool) (n : ℕ) : (ofCount positive n).count = n :=
  Nat.div_add_mod' n fractionScale

theorem ofParts_self (c : Coefficient) : ofParts c.positive c.magnitude c.fraction = .ok c := by
  have hfraction : checkFraction c.fraction = .ok ⟨c.fraction, c.fraction_lt⟩ := by
    unfold checkFraction
    rw [if_neg (by omega), dif_pos (by simpa using c.fraction_lt)]
    rfl
  unfold ofParts
  rw [if_neg (by omega), hfraction]
  rfl

/-- The sign of a number with its absolute value, rounded to sixteen decimals. -/
def nearest (x : Finite) : Coefficient := ofCount (decide (0 ≤ x.value)) (x.countIn (-16))

theorem ofDecimal_eq (ctx : Context) (h : Encodable x) : ofDecimal ctx (.finite x) = .ok (nearest x) := by
  have hsign : (!x.isNegative) = decide (0 ≤ x.value) := by
    rw [Bool.eq_iff_iff, Bool.not_eq_true', decide_eq_true_eq, ← not_lt, ← Finite.isNegative_iff,
      Bool.not_eq_true]
  have hfinite : ofFinite ctx x = .ok (ofCount (!x.isNegative) (x.countIn (-16))) :=
    bind_of_ok (units_of_atSixteen (atSixteen_eq ctx h)) _
  rw [hsign] at hfinite
  exact Failure.ofArithmetic_eq_ok.mpr hfinite

theorem fractionOf_eq (ctx : Context) (h : Encodable x) :
    fractionOf ctx (.finite x) = .ok (x.countIn (-16) % fractionScale) := by
  have hunits := Failure.ofArithmetic_eq_ok.mpr (units_of_atSixteen (atSixteen_eq ctx h))
  exact bind_eq_ok.mpr ⟨_, hunits, rfl⟩

/-! ## Parts by arithmetic -/

/-- The first sixteen decimals, by a remainder that is moved sixteen places to the left. -/
def decimals (ctx : Context) (x : Finite) : Except Signal ℕ := do
  let fraction ← (← atSixteen ctx x).rem ctx.widened (.ofInt 1)
  return (← fraction.scale ctx.widened 16).truncate.toNat

/-- The whole number and the decimals, for which the rounded number is rounded anew. -/
def wholeAndDecimals (ctx : Context) (x : Finite) : Except Signal (ℕ × ℕ) := do
  let rounded ← atSixteen ctx x
  return (rounded.truncate.toNat, ← decimals ctx rounded)

theorem value_unit (n : ℕ) : Finite.value ⟨false, n, -16⟩ = n * 10 ^ (-16 : ℤ) := Finite.value_of_positive rfl

theorem truncate_unit (n : ℕ) : (Finite.truncate ⟨false, n, -16⟩).toNat = n / fractionScale := by
  have hquotient : (n : ℚ) * 10 ^ (-16 : ℤ) = n / fractionScale := by
    rw [mul_unit, fractionScale_eq]
    norm_cast
  rw [Finite.truncate_of_nonneg (by rw [value_unit]; positivity), value_unit, hquotient,
    Rat.floor_natCast_div_natCast]
  norm_cast

theorem value_ofInt_one : (Finite.ofInt 1).value = 1 := by
  rw [Finite.value_ofInt, Int.cast_one]

theorem exists_rem_one (ctx : Context) {n : ℕ} (hn : n < 10 ^ 78) : ∃ z : Finite,
    Finite.rem ctx.widened ⟨false, n, -16⟩ (.ofInt 1) = .ok z ∧
      z.value = (n % fractionScale : ℕ) * 10 ^ (-16 : ℤ) := by
  obtain ⟨hrep, hsize⟩ := representable_units ctx ((Nat.mod_le n fractionScale).trans_lt hn)
  have hscale : (1 : ℚ) = fractionScale * 10 ^ (-16 : ℤ) := by
    rw [fractionScale_eq]
    norm_num
  have hrem : cutRemainder (n * 10 ^ (-16 : ℤ)) 1 = (n % fractionScale : ℕ) * 10 ^ (-16 : ℤ) := by
    conv_lhs => rw [hscale]
    exact cutRemainder_scaled n (ten_zpow_pos _)
  have hone : 0 < (Finite.ofInt 1).value := by
    rw [value_ofInt_one]
    exact one_pos
  have hbound : |Finite.value ⟨false, n, -16⟩| < (Finite.ofInt 1).value * 10 ^ ctx.widened.precision := by
    have hn' : (n : ℚ) < 10 ^ ctx.widened.precision := by
      exact_mod_cast hn.trans_le (pow_le_pow_precision ctx)
    rw [value_ofInt_one, one_mul, value_unit, abs_of_nonneg (by positivity)]
    exact lt_of_le_of_lt (mul_le_of_le_one_right (Nat.cast_nonneg n) (by norm_num)) hn'
  have hcomputes := Finite.rem_computes hone hbound
  rw [value_ofInt_one, value_unit, hrem] at hcomputes
  exact hcomputes.exact hrep hsize

theorem exists_scale_sixteen (ctx : Context) {z : Finite} {n : ℕ} (hn : n < 10 ^ 78)
    (hz : z.value = n * 10 ^ (-16 : ℤ)) : ∃ w : Finite, z.scale ctx.widened 16 = .ok w ∧ w.value = n := by
  have hcomputes := Finite.scale_computes ctx.widened z 16
  have hvalue : z.value * 10 ^ (16 : ℤ) = n := by
    rw [hz, mul_assoc, ← ten_zpow_add]
    norm_num
  have hn' : (n : ℚ) < 10 ^ 78 := by exact_mod_cast hn
  rw [hvalue] at hcomputes
  refine hcomputes.exact ⟨n, 0, ?_, ?_, by simp⟩ ?_
  · rw [Nat.abs_cast]
    exact_mod_cast hn.trans_le (pow_le_pow_precision ctx)
  · have hleast := Context.Representable.leastExponent_le ctx.widened
    omega
  · rw [Nat.abs_cast]
    linarith

theorem decimals_eq (ctx : Context) (h : Encodable x) :
    decimals ctx x = .ok (x.countIn (-16) % fractionScale) := by
  have hmod := (Nat.mod_le (x.countIn (-16)) fractionScale).trans_lt h.fits
  obtain ⟨z, hz, hzv⟩ := exists_rem_one ctx h.fits
  obtain ⟨w, hw, hwv⟩ := exists_scale_sixteen ctx hmod hzv
  have htruncate : w.truncate.toNat = x.countIn (-16) % fractionScale := by
    rw [Finite.truncate_of_nonneg (by rw [hwv]; positivity), hwv, Int.floor_natCast, Int.toNat_natCast]
  unfold decimals
  rw [bind_of_ok (atSixteen_eq ctx h), bind_of_ok hz, bind_of_ok hw, htruncate]
  rfl

theorem encodable_unit {n : ℕ} (hn : n < 10 ^ 78) : Encodable ⟨false, n, -16⟩ ∧
    Finite.countIn (-16) ⟨false, n, -16⟩ = n := by
  have hcount : Finite.countIn (-16) ⟨false, n, -16⟩ = n := by
    apply Finite.countIn_of_eq
    rw [value_unit, abs_of_nonneg (by positivity)]
  refine ⟨⟨⟨n, -16, ?_, value_unit n⟩, by rwa [hcount]⟩, hcount⟩
  rw [Nat.abs_cast]
  exact_mod_cast hn

/-- Taking the parts one by one makes no difference. -/
theorem wholeAndDecimals_eq (ctx : Context) (h : Encodable x) : wholeAndDecimals ctx x =
    .ok (x.countIn (-16) / fractionScale, x.countIn (-16) % fractionScale) := by
  obtain ⟨hencodable, hcount⟩ := encodable_unit h.fits
  have hdecimals := decimals_eq ctx hencodable
  rw [hcount] at hdecimals
  unfold wholeAndDecimals
  rw [bind_of_ok (atSixteen_eq ctx h), bind_of_ok hdecimals, truncate_unit]
  rfl

/-! ## What is encoded -/

theorem value_eq (c : Coefficient) : c.value = (if c.positive then 1 else -1) * (c.count * 10 ^ (-16 : ℤ)) := by
  rw [value, count_mul]

theorem magnitude_nearest_lt (h : Encodable x) : (nearest x).magnitude < 10 ^ 62 :=
  Nat.div_lt_of_lt_mul (by rw [fractionScale_eq, ← pow_add]; exact h.fits)

theorem value_nearest (x : Finite) : (nearest x).value =
    (if 0 ≤ x.value then 1 else -1) * (x.countIn (-16) * 10 ^ (-16 : ℤ)) := by
  rw [value_eq, nearest, count_ofCount, ofCount_positive]
  simp only [decide_eq_true_eq]

theorem abs_value_nearest_sub_le (x : Finite) : |(nearest x).value - x.value| ≤ 10 ^ (-16 : ℤ) / 2 := by
  have hnear := x.abs_countIn_sub_le (-16)
  rw [value_nearest]
  rcases le_or_gt 0 x.value with hx | hx
  · rw [abs_of_nonneg hx] at hnear
    rwa [if_pos hx, one_mul]
  · rw [abs_of_neg hx, abs_sub_comm] at hnear
    have hopposite : -1 * (x.countIn (-16) * 10 ^ (-16 : ℤ)) - x.value =
        -x.value - x.countIn (-16) * 10 ^ (-16 : ℤ) := by ring
    rwa [if_neg hx.not_ge, hopposite]

/-- A number is rounded once, to the nearest multiple of `10 ^ -16` and of two to the one that is further
from zero, and what is carried goes into the magnitude. Taking the parts one by one gives the same parts,
and what they stand for has the sign of the number and is at most half a unit off. -/
theorem ofDecimal_rounds (ctx : Context) (hdigits : ∃ c e : ℤ, |c| < 10 ^ 78 ∧ x.value = c * 10 ^ e)
    (hsize : |x.value| < 10 ^ 61) :
    ∃ c, ofDecimal ctx (.finite x) = .ok c ∧
      c.positive = decide (0 ≤ x.value) ∧ c.fraction < 10 ^ 16 ∧
      c.magnitude * 10 ^ 16 + c.fraction = ⌊|x.value| * 10 ^ 16 + 1 / 2⌋₊ ∧
      fractionOf ctx (.finite x) = .ok c.fraction ∧
      wholeAndDecimals ctx x = .ok (c.magnitude, c.fraction) ∧ decimals ctx x = .ok c.fraction ∧
      ofParts c.positive c.magnitude c.fraction = .ok c ∧
      ∃ y, c.toFinite ctx = .ok y ∧
        y.value = (if 0 ≤ x.value then 1 else -1) * (⌊|x.value| * 10 ^ 16 + 1 / 2⌋₊ / 10 ^ 16) ∧
        |y.value - x.value| ≤ 5 / 10 ^ 17 := by
  have h := Encodable.of_size hdigits hsize
  have hcount : x.countIn (-16) = ⌊|x.value| * 10 ^ 16 + 1 / 2⌋₊ := by rw [Finite.countIn, div_unit]
  have hnear := abs_value_nearest_sub_le x
  obtain ⟨y, hy, hyv⟩ := exists_toFinite ctx (magnitude_nearest_lt h)
  refine ⟨nearest x, ofDecimal_eq ctx h, rfl, (nearest x).fraction_lt, ?_, fractionOf_eq ctx h,
    wholeAndDecimals_eq ctx h, decimals_eq ctx h, ofParts_self _, y, hy, ?_, ?_⟩
  · rw [← hcount]
    exact count_ofCount _ _
  · rw [hyv, value_nearest, hcount, mul_unit]
  · rw [hyv]
    exact hnear.trans (by norm_num)

/-- Seventeen decimals, of which the last is carried through all the others. -/
theorem ofDecimal_rounds_carry : ∃ c, ofDecimal .standard (.finite ⟨false, 99999999999999995, -17⟩) = .ok c ∧
    c.magnitude = 1 ∧ c.fraction = 0 := by
  have hvalue : Finite.value ⟨false, 99999999999999995, -17⟩ = 99999999999999995 / 10 ^ 17 := by
    norm_num [Finite.value, Finite.signed]
  have hsize : |Finite.value ⟨false, 99999999999999995, -17⟩| < 10 ^ 61 := by
    rw [hvalue]
    norm_num
  obtain ⟨c, hc, -, hlt, hcount, -⟩ := ofDecimal_rounds (x := ⟨false, 99999999999999995, -17⟩) .standard
    ⟨99999999999999995, -17, by norm_num, rfl⟩ hsize
  have hunits : c.magnitude * 10 ^ 16 + c.fraction = 10 ^ 16 := by
    rw [hcount, hvalue, Nat.floor_eq_iff (by positivity)]
    norm_num
  refine ⟨c, hc, ?_⟩
  omega

/-! ## Encoding what has been decoded -/

theorem value_normal (c : Coefficient) : c.normal.value = c.value := by
  by_cases hc : c.magnitude = 0 ∧ c.fraction = 0
  · simp [value, normal, hc]
  · simp [value, normal, hc]

/-- Coefficients that stand for one number are the same up to the sign of a zero. -/
theorem value_eq_iff {c d : Coefficient} : c.value = d.value ↔ c.normal = d.normal := by
  constructor
  · intro h
    have hcount : c.count = d.count := by
      have habs := c.abs_value_eq
      rw [h, abs_value_eq, mul_left_inj' (ten_zpow_pos _).ne'] at habs
      exact_mod_cast habs.symm
    have hpositive : c.normal.positive = d.normal.positive := by
      have hneg := value_neg_iff (c := d)
      rw [← h, value_neg_iff] at hneg
      rw [Bool.eq_iff_iff, ← not_iff_not, Bool.not_eq_true, Bool.not_eq_true]
      exact hneg
    have hmagnitude : c.magnitude = d.magnitude := by rw [← c.count_div, hcount, count_div]
    have hfraction : c.fraction = d.fraction := by rw [← c.count_mod, hcount, count_mod]
    calc c.normal = ⟨c.normal.positive, c.magnitude, c.fraction, c.fraction_lt⟩ := rfl
      _ = ⟨d.normal.positive, d.magnitude, d.fraction, d.fraction_lt⟩ := by
        simp only [hpositive, hmagnitude, hfraction]
      _ = d.normal := rfl
  · intro h
    rw [← value_normal c, h, value_normal]

theorem normal_eq_iff {c : Coefficient} : c.normal = c ↔ c.positive = true ∨ c.count ≠ 0 := by
  rw [Ne, count_eq_zero_iff]
  constructor
  · intro h
    have hpositive := congrArg positive h
    by_contra hnot
    rw [not_or, not_not] at hnot
    exact hnot.1 (hpositive ▸ by simp [normal, hnot.2])
  · rintro (hpositive | hcount)
    · exact normal_of_positive hpositive
    · cases c
      simp_all [normal]

/-- The numbers that are encoded as a negative zero. -/
theorem normal_nearest_eq_iff (x : Finite) :
    (nearest x).normal = nearest x ↔ ¬(x.value < 0 ∧ |x.value| < 5 / 10 ^ 17) := by
  have hunit : (10 : ℚ) ^ (-16 : ℤ) / 2 = 5 / 10 ^ 17 := by norm_num
  rw [normal_eq_iff, nearest, count_ofCount, ofCount_positive, Ne, Finite.countIn_eq_zero_iff, hunit,
    decide_eq_true_eq, not_and_or, not_lt, not_lt]

/-- Encoding what has been decoded changes nothing but the sign of a zero: that becomes positive. It was
negative exactly for the negative numbers that are rounded to zero. So two numbers are decoded to the same
number exactly if they were encoded alike up to the sign of a zero. -/
theorem ofDecimal_canonical (ctx : Context) {x w : Finite}
    (hx : (∃ c e : ℤ, |c| < 10 ^ 78 ∧ x.value = c * 10 ^ e) ∧ |x.value| < 10 ^ 61)
    (hw : (∃ c e : ℤ, |c| < 10 ^ 78 ∧ w.value = c * 10 ^ e) ∧ |w.value| < 10 ^ 61) :
    ∃ c d y z, ofDecimal ctx (.finite x) = .ok c ∧ c.toFinite ctx = .ok y ∧
      ofDecimal ctx (.finite w) = .ok d ∧ d.toFinite ctx = .ok z ∧
      ofDecimal ctx (.finite y) = .ok c.normal ∧
      (c.normal = c ↔ ¬(x.value < 0 ∧ |x.value| < 5 / 10 ^ 17)) ∧
      (y.value = z.value ↔ c.normal = d.normal) := by
  replace hx := Encodable.of_size hx.1 hx.2
  replace hw := Encodable.of_size hw.1 hw.2
  obtain ⟨y, hy, hyv⟩ := exists_toFinite ctx (magnitude_nearest_lt hx)
  obtain ⟨z, hz, hzv⟩ := exists_toFinite ctx (magnitude_nearest_lt hw)
  refine ⟨nearest x, nearest w, y, z, ofDecimal_eq ctx hx, hy, ofDecimal_eq ctx hw, hz, ?_,
    normal_nearest_eq_iff x, ?_⟩
  · exact Failure.ofArithmetic_eq_ok.mpr (ofFinite_of_value ctx (magnitude_nearest_lt hx) hyv)
  · rw [hyv, hzv, value_eq_iff]

/-- A number with a shorter coefficient is encoded alike again. -/
theorem ofDecimal_canonical_quarter : ∃ c y, ofDecimal .standard (.finite ⟨true, 25, -2⟩) = .ok c ∧
    c.toFinite .standard = .ok y ∧ ofDecimal .standard (.finite y) = .ok c := by
  have hvalue : Finite.value ⟨true, 25, -2⟩ = -1 / 4 := by norm_num [Finite.value, Finite.signed]
  have hx : (∃ c e : ℤ, |c| < 10 ^ 78 ∧ Finite.value ⟨true, 25, -2⟩ = c * 10 ^ e) ∧
      |Finite.value ⟨true, 25, -2⟩| < 10 ^ 61 := by
    refine ⟨⟨-25, -2, by norm_num, rfl⟩, ?_⟩
    rw [hvalue]
    norm_num
  obtain ⟨c, -, y, -, hc, hy, -, -, hagain, hnormal, -⟩ := ofDecimal_canonical .standard hx hx
  refine ⟨c, y, hc, hy, ?_⟩
  rwa [hnormal.mpr (by rw [hvalue]; norm_num)] at hagain

/-- A negative number that is too small for sixteen decimals is encoded as a negative zero, and that
is decoded to a number that is encoded as a positive one. -/
theorem ofDecimal_not_canonical :
    (∃ c e : ℤ, |c| < 10 ^ 78 ∧ Finite.value ⟨true, 1, -20⟩ = c * 10 ^ e) ∧
    |Finite.value ⟨true, 1, -20⟩| < 10 ^ 61 ∧
    ∃ c d y, ofDecimal .standard (.finite ⟨true, 1, -20⟩) = .ok c ∧ c.toFinite .standard = .ok y ∧
      ofDecimal .standard (.finite y) = .ok d ∧ d.toFinite .standard = .ok y ∧ d ≠ c := by
  refine ⟨⟨-1, -20, by norm_num, rfl⟩, ?_, ⟨false, 0, 0, by decide⟩, ⟨true, 0, 0, by decide⟩,
    ⟨false, 0, -16⟩, by decide +kernel, by decide +kernel, by decide +kernel, by decide +kernel, by decide⟩
  norm_num [Finite.value, Finite.signed]

end Coefficient

end NumericContract
