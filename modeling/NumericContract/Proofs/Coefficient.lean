import NumericContract.Coefficient
import NumericContract.Proofs.Decimal.Operations

/-!
# Sixteen decimals

Encoding a number counts its absolute value in units of the sixteenth place. A coefficient of few enough
digits is decoded without rounding, and encoding the number gives the same coefficient again, except
that a zero comes back positive.
-/

namespace NumericContract

open Decimal Magnitude

/-! ## Quantizing -/

namespace Decimal.Finite

variable {ctx : Context} {x : Finite}

/-- The absolute value counted in units of `10 ^ e`, a half going upward. -/
def countIn (e : ℤ) (x : Finite) : ℕ := ⌊|x.value| / 10 ^ e + 1 / 2⌋₊

theorem countIn_of_isZero (e : ℤ) (hx : x.isZero = true) : x.countIn e = 0 := by
  rw [countIn, (isZero_iff x).mp hx, Nat.floor_eq_zero]
  norm_num

theorem countIn_of_eq {e : ℤ} {n : ℕ} (h : |x.value| = n * 10 ^ e) : x.countIn e = n := by
  have hp := (ten_zpow_pos e).ne'
  rw [countIn, h, mul_div_cancel_right₀ _ hp, add_comm, Nat.floor_add_natCast (by norm_num)]
  norm_num

theorem shiftUp_eq_countIn {e : ℤ} (h : e ≤ x.exponent) :
    shiftUp x.coefficient (x.exponent - e).toNat = x.countIn e := by
  symm
  apply countIn_of_eq
  rw [shiftUp_mul_zpow x.coefficient h, abs_value]

theorem shiftHalfUp_eq_countIn {e : ℤ} (h : x.exponent < e) :
    shiftHalfUp x.coefficient (e - x.exponent).toNat = x.countIn e := by
  have hp := (ten_zpow_pos x.exponent).ne'
  have hten : 0 < 10 ^ (e - x.exponent).toNat := by positivity
  have hratio : |x.value| / 10 ^ e = (x.coefficient : ℚ) / (10 ^ (e - x.exponent).toNat : ℕ) := by
    rw [abs_value, ten_zpow_eq_natCast_mul h.le]
    field_simp
  have hfloor := divHalfUp_eq_floor x.coefficient hten
  rw [countIn, hratio, shiftHalfUp_eq, tenPower_eq, ← Int.floor_toNat, ← hfloor]
  rfl

/-- A number is brought to another exponent unless it has more digits there than the context keeps. -/
theorem quantize_eq (ctx : Context) (x : Finite) (e : ℤ) : x.quantize ctx e =
    if x.countIn e < 10 ^ ctx.precision then .ok ⟨x.negative, x.countIn e, e⟩
    else .error .invalidOperation := by
  unfold quantize
  by_cases hx : x.isZero = true
  · have hc : x.coefficient = 0 := by simpa [isZero] using hx
    simp [hx, countIn_of_isZero e hx, hc]
  · rw [if_neg hx]
    have hcount : (if x.exponent < e then shiftHalfUp x.coefficient (e - x.exponent).toNat
        else shiftUp x.coefficient (x.exponent - e).toNat) = x.countIn e := by
      split
      · next h => exact shiftHalfUp_eq_countIn h
      · next h => exact shiftUp_eq_countIn (not_lt.mp h)
    simp only [hcount, digitCount_le_iff]
    by_cases hlong : (ctx.precision : ℤ) < x.adjusted - e + 1
    · rw [if_pos hlong, if_neg]
      rw [not_lt, countIn]
      apply Nat.le_floor
      have hlow := zpow_adjusted_le (x := x) (by simpa using hx)
      have hle : (10 : ℚ) ^ (ctx.precision : ℤ) * 10 ^ e ≤ |x.value| := by
        rw [← ten_zpow_add]
        exact (ten_zpow_le (by omega)).trans hlow
      have hdiv := (le_div_iff₀ (ten_zpow_pos e)).mpr hle
      rw [zpow_natCast] at hdiv
      push_cast
      linarith
    · rw [if_neg hlong]

end Decimal.Finite

namespace Coefficient

variable {ctx : Context} {x : Finite}

theorem fractionScale_eq : fractionScale = 10 ^ 16 := rfl

/-! ## Units of the sixteenth place -/

/-- What is encoded is the absolute value in the context's digits. -/
theorem units_eq {m : Finite} (h : x.abs ctx.widened = .ok m) : units ctx x =
    if m.countIn (-16) < 10 ^ ctx.widened.precision then .ok (m.countIn (-16))
    else .error .invalidOperation := by
  unfold units
  rw [bind_of_ok h, Finite.quantize_eq]
  split <;> rfl

theorem pow_le_pow_precision (ctx : Context) : 10 ^ 78 ≤ 10 ^ ctx.widened.precision :=
  Nat.pow_le_pow_right (by decide) (le_max_left _ _)

theorem representable_units (ctx : Context) {n : ℕ} (hn : n < 10 ^ 78) :
    ctx.widened.Representable (n * 10 ^ (-16 : ℤ)) ∧ |(n : ℚ) * 10 ^ (-16 : ℤ)| ≤ 10 ^ 200 := by
  have hleast := Context.Representable.leastExponent_le ctx.widened
  have hlt : n < 10 ^ ctx.widened.precision := lt_of_lt_of_le hn (pow_le_pow_precision ctx)
  constructor
  · refine ⟨n, -16, ?_, by omega, by simp⟩
    rw [Nat.abs_cast]
    exact_mod_cast hlt
  · have hn' : (n : ℚ) < 10 ^ 78 := by exact_mod_cast hn
    rw [abs_of_nonneg (by positivity)]
    norm_num
    linarith

theorem units_of_eq (ctx : Context) {n : ℕ} (hn : n < 10 ^ 78) (h : |x.value| = n * 10 ^ (-16 : ℤ)) :
    units ctx x = .ok n := by
  obtain ⟨hrep, hsize⟩ := representable_units ctx hn
  rw [← h] at hrep hsize
  obtain ⟨m, hm, hv⟩ := (Finite.abs_computes ctx.widened x).exact hrep hsize
  have hcount : m.countIn (-16) = n := by
    apply Finite.countIn_of_eq
    rw [hv, abs_abs, h]
  rw [units_eq hm, hcount, if_pos (lt_of_lt_of_le hn (pow_le_pow_precision ctx))]

/-! ## Decoding and encoding -/

def value (c : Coefficient) : ℚ :=
  (if c.positive then 1 else -1) * (c.magnitude + c.fraction / 10 ^ 16)

def count (c : Coefficient) : ℕ := c.magnitude * fractionScale + c.fraction

/-- The form that encoding gives to a coefficient: a zero is positive. -/
def normal (c : Coefficient) : Coefficient :=
  { c with positive := c.positive || (c.magnitude = 0 ∧ c.fraction = 0) }

variable {c : Coefficient}

theorem count_eq_zero_iff : c.count = 0 ↔ c.magnitude = 0 ∧ c.fraction = 0 := by
  simp [count, fractionScale_eq]

theorem count_lt (h : c.magnitude < 10 ^ 62) : c.count < 10 ^ 78 := by
  have hf := c.fraction_lt
  rw [count, fractionScale_eq] at *
  omega

theorem count_div : c.count / fractionScale = c.magnitude := by
  rw [count, Nat.add_comm, Nat.add_mul_div_right _ _ fractionScale_pos, Nat.div_eq_of_lt c.fraction_lt,
    Nat.zero_add]

theorem count_mod : c.count % fractionScale = c.fraction := by
  rw [count, Nat.add_comm, Nat.add_mul_mod_self_right, Nat.mod_eq_of_lt c.fraction_lt]

theorem count_mul (c : Coefficient) :
    (c.count : ℚ) * 10 ^ (-16 : ℤ) = c.magnitude + c.fraction / 10 ^ 16 := by
  rw [count, fractionScale_eq]
  norm_num
  ring

theorem abs_value_eq (c : Coefficient) : |c.value| = c.count * 10 ^ (-16 : ℤ) := by
  have hnonneg : (0 : ℚ) ≤ c.magnitude + c.fraction / 10 ^ 16 := by positivity
  rw [value, count_mul, abs_mul, abs_of_nonneg hnonneg]
  split <;> simp

theorem value_neg_iff : c.value < 0 ↔ c.normal.positive = false := by
  have hzero := count_eq_zero_iff (c := c)
  rw [value, ← count_mul, normal]
  by_cases hc : c.count = 0
  · simp [hc, hzero.mp hc]
  · have hpos : 0 < (c.count : ℚ) * 10 ^ (-16 : ℤ) := by positivity
    cases c.positive with
    | true => simp
    | false =>
        rw [Bool.false_or, decide_eq_false (mt hzero.mpr hc)]
        simpa using hpos

theorem value_fractionValue (n : ℕ) : (fractionValue n).value = n / 10 ^ 16 := by
  rw [Finite.value_of_positive rfl, fractionValue]
  norm_num
  ring

theorem exists_toFinite (ctx : Context) (h : c.magnitude < 10 ^ 62) :
    ∃ x, c.toFinite ctx = .ok x ∧ x.value = c.value := by
  obtain ⟨hrep, hsize⟩ := representable_units ctx (count_lt h)
  rw [count_mul] at hrep hsize
  have hadd := Finite.add_computes ctx.widened (.ofInt c.magnitude) (fractionValue c.fraction)
  rw [Finite.value_ofInt, value_fractionValue, Int.cast_natCast] at hadd
  obtain ⟨sum, hsum, hv⟩ := hadd.exact hrep hsize
  unfold toFinite
  rw [bind_of_ok hsum, value]
  cases c.positive with
  | true => exact ⟨sum, rfl, by simpa using hv⟩
  | false =>
      have hneg := Finite.neg_computes ctx.widened sum
      rw [hv] at hneg
      obtain ⟨opposite, ho, hov⟩ := hneg.exact hrep.neg (by rwa [abs_neg])
      exact ⟨opposite, ho, by simpa using hov⟩

theorem ofFinite_of_value (ctx : Context) (h : c.magnitude < 10 ^ 62) (hx : x.value = c.value) :
    ofFinite ctx x = .ok c.normal := by
  have hunits := units_of_eq ctx (count_lt h) (by rw [hx, abs_value_eq])
  have hsign : (!x.isNegative) = c.normal.positive := by
    have hneg := Finite.isNegative_iff x
    rw [hx, value_neg_iff] at hneg
    cases hn : x.isNegative with
    | true => simp [hneg.mp hn]
    | false =>
        rw [hn] at hneg
        simpa using hneg
  unfold ofFinite
  rw [bind_of_ok hunits]
  simp only [count_div, count_mod, hsign]
  rfl

theorem normal_of_positive (h : c.positive = true) : c.normal = c := by
  cases c
  simp_all [normal]

end Coefficient

end NumericContract
