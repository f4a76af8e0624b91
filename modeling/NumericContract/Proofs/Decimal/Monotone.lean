import NumericContract.Proofs.Decimal.Operations

/-!
# Rounding keeps the order

What an operation makes of its exact result depends on that number only, not on how the operands
are written nor on a stand-in that is used. Since it is a nearest number, a greater exact result is
never rounded to a smaller number.
-/

namespace NumericContract

open Magnitude

theorem Magnitude.divHalfEven_mul_right (n d : ℕ) {k : ℕ} (hk : 0 < k) :
    divHalfEven (n * k) (d * k) = divHalfEven n d := by
  unfold divHalfEven
  rw [Nat.mul_div_mul_right n d hk, Nat.mul_mod_mul_right]
  have hlt : 2 * (n % d * k) < d * k ↔ 2 * (n % d) < d := by
    rw [← Nat.mul_assoc, Nat.mul_lt_mul_right hk]
  have hgt : d * k < 2 * (n % d * k) ↔ d < 2 * (n % d) := by
    rw [← Nat.mul_assoc, Nat.mul_lt_mul_right hk]
  simp only [hlt, hgt]

namespace Decimal

/-! ## The number alone decides -/

namespace Finite

variable {x y : Finite}

theorem isZero_congr (h : x.value = y.value) : x.isZero = y.isZero := by
  rw [Bool.eq_iff_iff, isZero_iff, isZero_iff, h]

theorem adjusted_congr (h : x.value = y.value) (hx : x.isZero = false) :
    x.adjusted = y.adjusted := by
  have hy : y.isZero = false := isZero_congr h ▸ hx
  have h1 := zpow_adjusted_le hx
  have h2 := zpow_adjusted_le hy
  have h3 := abs_value_lt_zpow_adjusted x
  have h4 := abs_value_lt_zpow_adjusted y
  rw [h] at h1 h3
  have h5 := lt_of_ten_zpow_lt (lt_of_le_of_lt h1 h4)
  have h6 := lt_of_ten_zpow_lt (lt_of_le_of_lt h2 h3)
  omega

theorem isNegative_eq_negative (hx : x.isZero = false) : x.isNegative = x.negative := by
  simp [isNegative, coefficient_ne_zero hx]

theorem negative_congr (h : x.value = y.value) (hx : x.isZero = false) : x.negative = y.negative := by
  rw [← isNegative_eq_negative hx, ← isNegative_eq_negative (isZero_congr h ▸ hx), Bool.eq_iff_iff,
    isNegative_iff, isNegative_iff, h]

theorem coefficient_eq_mul {k : ℕ} (h : x.value = y.value) (hk : y.exponent = x.exponent + k) :
    x.coefficient = y.coefficient * 10 ^ k := by
  have hp := ten_zpow_pos x.exponent
  have habs : (x.coefficient : ℚ) * 10 ^ x.exponent = y.coefficient * 10 ^ k * 10 ^ x.exponent := by
    rw [← abs_value, h, abs_value, hk, add_comm, ten_zpow_add, zpow_natCast, mul_assoc]
  exact_mod_cast mul_right_cancel₀ hp.ne' habs

end Finite

namespace Context

variable {ctx : Context} {x y s s' : Finite} {q q' v v' : ℚ}

theorem cutExponent_congr (ctx : Context) (h : x.value = y.value) (hx : x.isZero = false) :
    ctx.cutExponent x = ctx.cutExponent y := by
  have hy : y.isZero = false := Finite.isZero_congr h ▸ hx
  have hadjusted := Finite.adjusted_congr h hx
  have h1 := digitCount_pos (Finite.coefficient_ne_zero hx)
  have h2 := digitCount_pos (Finite.coefficient_ne_zero hy)
  unfold Finite.adjusted at hadjusted
  unfold cutExponent
  congr 1
  omega

theorem rounded_congr_of_le (ctx : Context) (h : x.value = y.value) (hle : x.exponent ≤ y.exponent) :
    (ctx.rounded x).value = (ctx.rounded y).value := by
  cases hx : x.isZero with
  | true =>
      have hy : y.isZero = true := Finite.isZero_congr h ▸ hx
      rw [rounded_zero hx, rounded_zero hy]
  | false =>
      have hy : y.isZero = false := Finite.isZero_congr h ▸ hx
      have hcut := cutExponent_congr ctx h hx
      by_cases hfits : ctx.cutExponent y ≤ y.exponent
      · have hrep := (rounded_rounds ctx y).representable
        rw [rounded_of_fits hy hfits] at hrep ⊢
        rw [← h] at hrep ⊢
        exact (rounded_rounds ctx x).eq_self hrep
      · obtain ⟨drop, hdrop⟩ : ∃ drop : ℕ, ctx.cutExponent y = y.exponent + drop :=
          ⟨(ctx.cutExponent y - y.exponent).toNat, by omega⟩
        obtain ⟨k, hk⟩ : ∃ k : ℕ, y.exponent = x.exponent + k :=
          ⟨(y.exponent - x.exponent).toNat, by omega⟩
        have hdrop' : ctx.cutExponent x = x.exponent + (drop + k : ℕ) := by omega
        rw [value_rounded_of_cut hx hdrop' (by omega),
          value_rounded_of_cut hy hdrop (by omega), hcut, Finite.negative_congr h hx,
          Finite.coefficient_eq_mul h hk, pow_add, divHalfEven_mul_right _ _ (by positivity)]

/-- Numbers that are equal are rounded to the same number, however they are written. -/
theorem rounded_congr (ctx : Context) (h : x.value = y.value) :
    (ctx.rounded x).value = (ctx.rounded y).value := by
  rcases le_total x.exponent y.exponent with hle | hle
  · exact rounded_congr_of_le ctx h hle
  · exact (rounded_congr_of_le ctx h.symm hle).symm

/-- A number with a stand-in lies on no midpoint, so that only one representable number is nearest. -/
theorem StandsIn.eq_of_rounds (h : ctx.StandsIn s q) (hv : ctx.Rounds q v) :
    v = (ctx.rounded s).value := by
  obtain ⟨k, hk, hbound, hnear, hfull⟩ := h.near
  have hleast := leastExponent_le_cutExponent ctx s
  rw [hk]
  generalize ctx.cutExponent s = e at hnear hfull hleast ⊢
  have hclose : |v - q| < 10 ^ e / 2 :=
    lt_of_le_of_lt (hv.nearest _ (Representable.of_le hbound hleast)) hnear
  obtain ⟨c, f, hc, hf, rfl⟩ := hv.representable
  rcases le_or_gt e f with hef | hef
  · -- two multiples of the power less than half of it away are the same
    rw [ten_zpow_eq_natCast_mul hef, ← mul_assoc, ← Int.cast_natCast, ← Int.cast_mul] at hclose ⊢
    generalize c * ((10 ^ (f - e).toNat : ℕ) : ℤ) = j at hclose ⊢
    by_contra hne
    have hgap := ten_zpow_le_abs_sub (show j ≠ k from fun heq => hne (by rw [heq])) e
    have htri := abs_sub_le ((j : ℚ) * 10 ^ e) q ((k : ℚ) * 10 ^ e)
    rw [abs_sub_comm q] at htri
    linarith
  · -- a number with a digit below the power is farther from `q` than the least that fills the digits
    have hfull := hfull.resolve_left (by omega)
    have hprec := Representable.precision_pos ctx
    have hpower : ctx.Representable ((10 : ℚ) ^ (ctx.precision - 1 + e)) := Representable.zpow (by omega)
    have hsmall := Representable.abs_mul_zpow_lt hc hef
    rcases abs_bound_sub_le ((c : ℚ) * 10 ^ f) hfull with hcloser | hcloser
    · have := hv.nearest _ hpower
      linarith
    · have := hv.nearest _ hpower.neg
      linarith

/-! ## Order -/

/-- The context makes `v` of the exact result `q`. -/
def Settles (ctx : Context) (q v : ℚ) : Prop :=
  ∃ s, ctx.Represents s q ∧ (ctx.rounded s).value = v

theorem Represents.settles {y : Finite} (h : ctx.Represents s q) (hy : ctx.fit s = .ok y) :
    ctx.Settles q y.value := by
  rw [fit_eq] at hy
  rw [checkOverflow_eq_ok hy]
  exact ⟨s, h, rfl⟩

namespace Settles

theorem rounds (h : ctx.Settles q v) : ctx.Rounds q v := by
  obtain ⟨s, hs, rfl⟩ := h
  exact hs.rounds

theorem unique (h : ctx.Settles q v) (h' : ctx.Settles q v') : v = v' := by
  obtain ⟨s, hs, hv⟩ := h
  obtain ⟨s', hs', hv'⟩ := h'
  rcases hs with hs | hs
  · rcases hs' with hs' | hs'
    · rw [← hv, ← hv']
      exact rounded_congr ctx (hs.trans hs'.symm)
    · rw [← hv']
      exact hs'.eq_of_rounds (Settles.rounds ⟨s, Or.inl hs, hv⟩)
  · rw [← hv]
    exact (hs.eq_of_rounds (Settles.rounds ⟨s', hs', hv'⟩)).symm

theorem mono (h : ctx.Settles q v) (h' : ctx.Settles q' v') (hle : q ≤ q') : v ≤ v' := by
  rcases hle.eq_or_lt with rfl | hlt
  · exact (h.unique h').le
  · by_contra hgt
    rw [not_le] at hgt
    have hbelow := h.rounds.middle_le h'.rounds.representable hgt
    have habove := h'.rounds.le_middle h.rounds.representable hgt
    rw [add_comm v v'] at habove
    linarith

end Settles

end Context

/-! ## Operations -/

namespace Finite

variable {ctx : Context} {x y z : Finite}

theorem mul_settles (h : x.mul ctx y = .ok z) : ctx.Settles (x.value * y.value) z.value := by
  rw [← value_mul]
  exact Context.Represents.settles (Or.inl rfl) h

theorem add_settles (h : x.add ctx y = .ok z) : ctx.Settles (x.value + y.value) z.value := by
  obtain ⟨s, hs, hrep⟩ := add_represents ctx x y
  exact hrep.settles (hs ▸ h)

theorem sub_settles (h : x.sub ctx y = .ok z) : ctx.Settles (x.value - y.value) z.value := by
  obtain ⟨s, hs, hrep⟩ := sub_represents ctx x y
  exact hrep.settles (hs ▸ h)

theorem div_settles (hy : y.isZero = false) (h : x.div ctx y = .ok z) :
    ctx.Settles (x.value / y.value) z.value := by
  obtain ⟨s, hs, hrep⟩ := div_represents ctx x hy
  exact hrep.settles (hs ▸ h)

end Finite

end Decimal

end NumericContract
