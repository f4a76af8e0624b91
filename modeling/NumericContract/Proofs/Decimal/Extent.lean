import NumericContract.Proofs.Decimal.Root

/-!
# Numbers of limited extent

A number whose digits lie between two places that are far from the ends of the exponent range has
sums, products, quotients and roots with such numbers, and the places of the digits of these are
known. A quiet NaN among the operands makes the result one.
-/

namespace NumericContract.Decimal

open Magnitude

/-- A multiple of `10 ^ low` that is at most `10 ^ high`. -/
def Within (low high : ℤ) (q : ℚ) : Prop := (∃ k : ℤ, q = k * 10 ^ low) ∧ |q| ≤ 10 ^ high

/-- Places of digits that every context has room for. -/
def Roomy (low high : ℤ) : Prop := -1000000 ≤ low ∧ 0 ≤ high ∧ high < maxExponent

instance (low high : ℤ) : Decidable (Roomy low high) := inferInstanceAs (Decidable (_ ∧ _ ∧ _))

theorem Roomy.leastExponent_le {low high : ℤ} (h : Roomy low high) (ctx : Context) :
    ctx.leastExponent ≤ low := by
  have hleast := Context.Representable.leastExponent_le ctx
  have hlow := h.1
  omega

namespace Within

variable {low high low' high' : ℤ} {p q : ℚ}

theorem intCast {n : ℤ} (h : |(n : ℚ)| ≤ 10 ^ high) : Within 0 high n := ⟨⟨n, by simp⟩, h⟩

theorem mono (h : Within low high q) (hlow : low' ≤ low) (hhigh : high ≤ high') :
    Within low' high' q := by
  obtain ⟨⟨k, hk⟩, hle⟩ := h
  refine ⟨⟨k * (10 ^ (low - low').toNat : ℕ), ?_⟩, hle.trans (ten_zpow_le hhigh)⟩
  rw [hk, ten_zpow_eq_natCast_mul hlow]
  push_cast
  ring

theorem neg (h : Within low high q) : Within low high (-q) := by
  obtain ⟨⟨k, hk⟩, hle⟩ := h
  exact ⟨⟨-k, by rw [hk]; push_cast; ring⟩, by rwa [abs_neg]⟩

theorem add (hp : Within low high p) (hq : Within low' high' q) :
    Within (min low low') (max high high' + 1) (p + q) := by
  obtain ⟨⟨k, hk⟩, hple⟩ := hp.mono (min_le_left low low') (le_max_left high high')
  obtain ⟨⟨j, hj⟩, hqle⟩ := hq.mono (min_le_right low low') (le_max_right high high')
  refine ⟨⟨k + j, by rw [hk, hj]; push_cast; ring⟩, ?_⟩
  have hpos := ten_zpow_pos (max high high')
  rw [ten_zpow_add, zpow_one]
  linarith [abs_add_le p q]

theorem mul (hp : Within low high p) (hq : Within low' high' q) :
    Within (low + low') (high + high') (p * q) := by
  obtain ⟨⟨k, hk⟩, hple⟩ := hp
  obtain ⟨⟨j, hj⟩, hqle⟩ := hq
  refine ⟨⟨k * j, by rw [hk, hj, ten_zpow_add]; push_cast; ring⟩, ?_⟩
  rw [abs_mul, ten_zpow_add]
  exact mul_le_mul hple hqle (abs_nonneg q) (ten_zpow_pos high).le

theorem le_abs (h : Within low high q) (hq : q ≠ 0) : 10 ^ low ≤ |q| := by
  obtain ⟨⟨k, hk⟩, -⟩ := h
  have hk0 : k ≠ 0 := by
    intro h0
    simp [hk, h0] at hq
  have hone : (1 : ℚ) ≤ |(k : ℚ)| := by exact_mod_cast Int.one_le_abs hk0
  rw [hk, abs_mul, abs_of_pos (ten_zpow_pos low)]
  exact le_mul_of_one_le_left (ten_zpow_pos low).le hone

end Within

namespace Context

variable {ctx : Context} {low high : ℤ} {q y : ℚ} {result : Except Signal Finite}

/-- A representable number ends at most as many places below its leading digit as digits are kept. -/
theorem Representable.within (hy : ctx.Representable y) (hlow : y = 0 ∨ 10 ^ low ≤ |y|)
    (hhigh : |y| ≤ 10 ^ high) : Within (low - ctx.precision) high y := by
  refine ⟨?_, hhigh⟩
  obtain ⟨c, e, hc, -, hce⟩ := hy
  rcases hlow with hzero | hlow
  · exact ⟨0, by simpa using hzero⟩
  have hc' : |(c : ℚ)| < 10 ^ ctx.precision := by exact_mod_cast hc
  have hlt : (10 : ℚ) ^ low < 10 ^ (ctx.precision + e) := by
    calc (10 : ℚ) ^ low ≤ |y| := hlow
      _ = |(c : ℚ)| * 10 ^ e := by rw [hce, abs_mul, abs_of_pos (ten_zpow_pos e)]
      _ < 10 ^ ctx.precision * 10 ^ e := mul_lt_mul_of_pos_right hc' (ten_zpow_pos e)
      _ = 10 ^ (ctx.precision + e) := by rw [ten_zpow_add, zpow_natCast]
  have hplace : low - ctx.precision ≤ e := by
    have := lt_of_ten_zpow_lt hlt
    omega
  refine ⟨c * (10 ^ (e - (low - ctx.precision)).toNat : ℕ), ?_⟩
  rw [hce, ten_zpow_eq_natCast_mul hplace]
  push_cast
  ring

namespace Rounds

/-- Rounding does not cross a power of ten upward. -/
theorem abs_le_pow (h : ctx.Rounds q y) (hhigh : ctx.leastExponent ≤ high) (hq : |q| ≤ 10 ^ high) :
    |y| ≤ 10 ^ high :=
  h.abs_le_of_abs_le (Representable.zpow hhigh) hq

theorem pow_le_abs (h : ctx.Rounds q y) (hlow : ctx.leastExponent ≤ low) (hq : 10 ^ low ≤ |q|) :
    10 ^ low ≤ |y| := by
  have hpower : ctx.Representable ((10 : ℚ) ^ low) := Representable.zpow hlow
  rcases le_abs.mp hq with hside | hside
  · exact (h.ge_of_ge hpower hside).trans (le_abs_self y)
  · have hle := h.le_of_le hpower.neg (show q ≤ -10 ^ low by linarith)
    exact le_trans (by linarith) (neg_le_abs y)

theorem eq_zero_or_pow_le (h : ctx.Rounds q y) (hlow : ctx.leastExponent ≤ low)
    (hq : q = 0 ∨ 10 ^ low ≤ |q|) : y = 0 ∨ 10 ^ low ≤ |y| := by
  rcases hq with rfl | hq
  · exact Or.inl (h.eq_self (Representable.zero ctx))
  · exact Or.inr (h.pow_le_abs hlow hq)

/-- Rounding opens no new places. -/
theorem within (h : ctx.Rounds q y) (hq : Within low high q) (hroom : Roomy low high) :
    Within low high y := by
  have hleast := hroom.leastExponent_le ctx
  have hhigh := hroom.2.1
  have hy := h.abs_le_pow (by have := Representable.leastExponent_le ctx; omega) hq.2
  by_cases hshort : |q| < 10 ^ (ctx.precision + low)
  · obtain ⟨⟨k, rfl⟩, -⟩ := hq
    rw [abs_mul, abs_of_pos (ten_zpow_pos low), ten_zpow_add, zpow_natCast] at hshort
    have hk : |(k : ℚ)| < 10 ^ ctx.precision := lt_of_mul_lt_mul_right hshort (ten_zpow_pos low).le
    have hrep : ctx.Representable (k * 10 ^ low) := ⟨k, low, by exact_mod_cast hk, hleast, rfl⟩
    rw [h.eq_self hrep] at hy ⊢
    exact ⟨⟨k, rfl⟩, hy⟩
  · have hlong := h.pow_le_abs (by omega) (not_lt.mp hshort)
    simpa using h.representable.within (Or.inr hlong) hy

theorem ne_zero (h : ctx.Rounds q y) (hq : Within low high q) (hroom : Roomy low high) (h0 : q ≠ 0) :
    y ≠ 0 := by
  have hlast := h.pow_le_abs (hroom.leastExponent_le ctx) (hq.le_abs h0)
  exact abs_pos.mp (lt_of_lt_of_le (ten_zpow_pos low) hlast)

end Rounds

namespace Computes

theorem within (h : ctx.Computes result q) (hq : Within low high q) (hroom : Roomy low high) :
    ∃ z, result = .ok z ∧ Within low high z.value := by
  obtain ⟨z, hz⟩ := h.succeeds (lt_of_le_of_lt hq.2 (ten_zpow_lt hroom.2.2))
  exact ⟨z, hz, (h.rounds z hz).within hq hroom⟩

/-- A result the size of which is known ends as many places below it as digits are kept. -/
theorem within_of_size (h : ctx.Computes result q) (hlow : q = 0 ∨ 10 ^ low ≤ |q|)
    (hhigh : |q| ≤ 10 ^ high) (hroom : Roomy low high) :
    ∃ z, result = .ok z ∧ Within (low - ctx.precision) high z.value := by
  have hleast := hroom.leastExponent_le ctx
  obtain ⟨z, hz⟩ := h.succeeds (lt_of_le_of_lt hhigh (ten_zpow_lt hroom.2.2))
  have hround := h.rounds z hz
  have hsize := hround.abs_le_pow (by
    have := Representable.leastExponent_le ctx
    have := hroom.2.1
    omega) hhigh
  exact ⟨z, hz, hround.representable.within (hround.eq_zero_or_pow_le hleast hlow) hsize⟩

end Computes

end Context

/-! ## Operations on numbers -/

namespace Finite

variable {x y : Finite} {l₁ h₁ l₂ h₂ : ℤ}

theorem add_within (ctx : Context) (low high : ℤ) (hx : Within l₁ h₁ x.value) (hy : Within l₂ h₂ y.value)
    (hlow : low ≤ l₁ ∧ low ≤ l₂) (hhigh : h₁ < high ∧ h₂ < high) (hroom : Roomy low high) :
    ∃ z, x.add ctx y = .ok z ∧ Within low high z.value :=
  (add_computes ctx x y).within ((hx.add hy).mono (by omega) (by omega)) hroom

theorem sub_within (ctx : Context) (low high : ℤ) (hx : Within l₁ h₁ x.value) (hy : Within l₂ h₂ y.value)
    (hlow : low ≤ l₁ ∧ low ≤ l₂) (hhigh : h₁ < high ∧ h₂ < high) (hroom : Roomy low high) :
    ∃ z, x.sub ctx y = .ok z ∧ Within low high z.value := by
  have hsub := sub_computes ctx x y
  rw [sub_eq_add_neg] at hsub
  exact hsub.within ((hx.add hy.neg).mono (by omega) (by omega)) hroom

theorem mul_within (ctx : Context) (low high : ℤ) (hx : Within l₁ h₁ x.value) (hy : Within l₂ h₂ y.value)
    (hlow : low ≤ l₁ + l₂) (hhigh : h₁ + h₂ ≤ high) (hroom : Roomy low high) :
    ∃ z, x.mul ctx y = .ok z ∧ Within low high z.value :=
  (mul_computes ctx x y).within ((hx.mul hy).mono hlow hhigh) hroom

theorem mul_isZero {ctx : Context} {z : Finite} (hx : Within l₁ h₁ x.value) (hy : Within l₂ h₂ y.value)
    (hroom : Roomy (l₁ + l₂) (h₁ + h₂)) (hxz : x.isZero = false) (hyz : y.isZero = false)
    (h : x.mul ctx y = .ok z) : z.isZero = false := by
  rw [isZero_eq_false_iff] at hxz hyz ⊢
  exact ((mul_computes ctx x y).rounds z h).ne_zero (hx.mul hy) hroom (mul_ne_zero hxz hyz)

theorem neg_within (ctx : Context) {low high : ℤ} (hx : Within low high x.value)
    (hroom : Roomy low high) :
    ∃ z, x.neg ctx = .ok z ∧ Within low high z.value :=
  (neg_computes ctx x).within hx.neg hroom

/-- A quotient is at least the last place of the one number over the size of the other, if it is not
zero, and ends as many places below that as digits are kept. -/
theorem div_within (ctx : Context) (low high : ℤ) (hx : Within l₁ h₁ x.value) (hy : Within l₂ h₂ y.value)
    (hyz : y.isZero = false) (hlow : low ≤ l₁ - h₂ - ctx.precision) (hhigh : h₁ - l₂ ≤ high)
    (hroom : Roomy low high) : ∃ z, x.div ctx y = .ok z ∧ Within low high z.value := by
  have hy0 : y.value ≠ 0 := (isZero_eq_false_iff y).mp hyz
  have hlast := hy.le_abs hy0
  have hpos : 0 < |y.value| := abs_pos.mpr hy0
  have hsize : |x.value / y.value| ≤ 10 ^ high := by
    rw [abs_div, div_le_iff₀ hpos]
    calc |x.value| ≤ 10 ^ h₁ := hx.2
      _ ≤ 10 ^ (high + l₂) := ten_zpow_le (by omega)
      _ = 10 ^ high * 10 ^ l₂ := ten_zpow_add high l₂
      _ ≤ 10 ^ high * |y.value| := mul_le_mul_of_nonneg_left hlast (ten_zpow_pos high).le
  have hleast : x.value / y.value = 0 ∨ 10 ^ (low + ctx.precision) ≤ |x.value / y.value| := by
    by_cases hx0 : x.value = 0
    · simp [hx0]
    right
    rw [abs_div, le_div_iff₀ hpos]
    calc (10 : ℚ) ^ (low + ctx.precision) * |y.value| ≤ 10 ^ (l₁ - h₂) * 10 ^ h₂ :=
          mul_le_mul (ten_zpow_le (by omega)) hy.2 (abs_nonneg _) (ten_zpow_pos _).le
      _ = 10 ^ l₁ := by rw [← ten_zpow_add, sub_add_cancel]
      _ ≤ |x.value| := hx.le_abs hx0
  have hroom' : Roomy (low + ctx.precision) high := by
    have h1 := hroom.1
    exact ⟨by omega, hroom.2⟩
  obtain ⟨z, hz, hzw⟩ := (div_computes ctx x hyz).within_of_size hleast hsize hroom'
  rw [add_sub_cancel_right] at hzw
  exact ⟨z, hz, hzw⟩

/-- The root of a number that is not negative has half its places. -/
theorem sqrt_within (ctx : Context) (low high : ℤ) (h0 : 0 ≤ x.value) (hx : Within l₁ h₁ x.value)
    (hlow : 2 * (low + ctx.precision) < l₁) (hhigh : h₁ < 2 * high) (hroom : Roomy low high) :
    ∃ z, x.sqrt ctx = .ok z ∧ Within low high z.value := by
  obtain ⟨s, hs, hs0, hnear⟩ := sqrt_near ctx h0
  obtain ⟨hsq, hsq'⟩ := sqrt_square_bounds h0 hnear
  have hsize : |s.value| ≤ 10 ^ high := by
    rw [abs_of_nonneg hs0]
    by_contra hlt
    rw [not_le] at hlt
    have hgap := mul_self_lt_mul_self (ten_zpow_pos high).le hlt
    have hbound : 4 * x.value ≤ 10 ^ high * 10 ^ high := by
      calc 4 * x.value ≤ 10 * 10 ^ h₁ := by
            have := hx.2
            rw [abs_of_nonneg h0] at this
            linarith [ten_zpow_pos h₁]
        _ = 10 ^ (1 + h₁) := by rw [ten_zpow_add, zpow_one]
        _ ≤ 10 ^ (high + high) := ten_zpow_le (by omega)
        _ = 10 ^ high * 10 ^ high := ten_zpow_add high high
    linarith
  have hleast : s.value = 0 ∨ 10 ^ (low + ctx.precision) ≤ |s.value| := by
    by_cases hx0 : x.value = 0
    · left
      rw [hx0, mul_zero] at hsq'
      exact mul_self_eq_zero.mp (le_antisymm hsq' (mul_self_nonneg _))
    right
    rw [abs_of_nonneg hs0]
    by_contra hlt
    rw [not_le] at hlt
    have hgap := mul_self_lt_mul_self hs0 hlt
    have hlast := hx.le_abs hx0
    rw [abs_of_nonneg h0] at hlast
    have hbound : 10 * ((10 : ℚ) ^ (low + ctx.precision) * 10 ^ (low + ctx.precision)) ≤ 10 ^ l₁ := by
      rw [← ten_zpow_add]
      calc 10 * (10 : ℚ) ^ (low + ctx.precision + (low + ctx.precision))
          = 10 ^ (1 + (low + ctx.precision + (low + ctx.precision))) := by
            rw [ten_zpow_add 1, zpow_one]
        _ ≤ 10 ^ l₁ := ten_zpow_le (by omega)
    linarith [mul_pos (ten_zpow_pos (low + ctx.precision)) (ten_zpow_pos (low + ctx.precision))]
  have hroom' : Roomy (low + ctx.precision) high := by
    have h1 := hroom.1
    exact ⟨by omega, hroom.2⟩
  obtain ⟨z, hz, hzw⟩ := (Context.fit_computes ctx s).within_of_size hleast hsize hroom'
  rw [add_sub_cancel_right] at hzw
  exact ⟨z, hs.trans hz, hzw⟩

end Finite

end NumericContract.Decimal
