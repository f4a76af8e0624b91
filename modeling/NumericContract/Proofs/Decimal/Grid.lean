import NumericContract.Proofs.Decimal.Monotone

/-!
# The grid that a result is kept on

What a context makes of an exact result is a multiple of some power of ten, the lowest that there are
digits for. A half of that power is no tie between equals: the even multiple is kept. So an even multiple
that is at most a half of the power away from the exact result is what it is rounded to.
-/

namespace NumericContract

open Magnitude

theorem Magnitude.divHalfEven_eq_of_even {n d : ℕ} {t : ℤ} (hd : 0 < d) (ht : Even t)
    (hnear : |2 * (t * d - n)| ≤ d) : (divHalfEven n d : ℤ) = t := by
  have hsplit : ((n / d : ℕ) : ℤ) * d + (n % d : ℕ) = n := by exact_mod_cast Nat.div_add_mod' n d
  have hrest : ((n % d : ℕ) : ℤ) < d := by exact_mod_cast Nat.mod_lt n hd
  have hd' : (0 : ℤ) < d := by exact_mod_cast hd
  obtain ⟨half, rfl⟩ := ht
  obtain ⟨hlow, hhigh⟩ := abs_le.mp hnear
  rw [← hsplit] at hlow hhigh
  have h1 : ((n / d : ℕ) : ℤ) < half + half + 1 := by nlinarith
  have h2 : half + half < ((n / d : ℕ) : ℤ) + 2 := by nlinarith
  unfold divHalfEven
  obtain heq | heq : half + half = (n / d : ℕ) ∨ half + half = (n / d : ℕ) + 1 := by omega
  · rw [heq] at hlow hhigh ⊢
    have hle : 2 * ((n % d : ℕ) : ℤ) ≤ d := by nlinarith
    split_ifs <;> omega
  · rw [heq] at hlow hhigh ⊢
    have hge : (d : ℤ) ≤ 2 * ((n % d : ℕ) : ℤ) := by nlinarith
    split_ifs <;> omega

namespace Decimal.Context

variable {ctx : Context} {s : Finite} {q v : ℚ} {e : ℤ}

/-- What is kept of `q` is the multiple `v` of `10 ^ e`: there are digits for the power and for `q` above
it, and of two multiples the even one is kept. -/
structure KeptOn (ctx : Context) (q v : ℚ) (e : ℤ) : Prop where
  least : ctx.leastExponent ≤ e
  size : |q| < 10 ^ (ctx.precision + e) + 10 ^ e / 2
  multiple : ∃ k : ℤ, v = k * 10 ^ e
  even : ∀ t : ℤ, Even t → |t * 10 ^ e - q| ≤ 10 ^ e / 2 → v = t * 10 ^ e

namespace KeptOn

theorem of_near {k : ℤ} (he : ctx.leastExponent ≤ e) (hk : |k| ≤ 10 ^ ctx.precision)
    (hnear : |k * 10 ^ e - q| < 10 ^ e / 2) : ctx.KeptOn q (k * 10 ^ e) e := by
  have hp := ten_zpow_pos e
  refine ⟨he, ?_, ⟨k, rfl⟩, fun t _ ht => ?_⟩
  · have hk' : |(k : ℚ)| ≤ 10 ^ ctx.precision := by exact_mod_cast hk
    have hfar := abs_sub_abs_le_abs_sub q (k * 10 ^ e)
    rw [abs_sub_comm, abs_mul, abs_of_pos hp] at hfar
    rw [ten_zpow_add, zpow_natCast]
    nlinarith
  · by_contra hne
    have hgap := ten_zpow_le_abs_sub (show k ≠ t from fun heq => hne (by rw [heq])) e
    have htri := abs_sub_le ((k : ℚ) * 10 ^ e) q (t * 10 ^ e)
    rw [abs_sub_comm q] at htri
    linarith

theorem abs_two_mul_sub_le {t n : ℤ} {d : ℕ} {unit : ℚ} (hunit : 0 < unit)
    (h : |t * (d * unit) - n * unit| ≤ d * unit / 2) : |2 * (t * d - n)| ≤ (d : ℤ) := by
  have hscaled : |((2 * (t * d - n) : ℤ) : ℚ)| * unit ≤ d * unit := by
    rw [← abs_of_pos hunit, ← abs_mul, abs_of_pos hunit]
    push_cast
    rw [show (2 : ℚ) * (t * d - n) * unit = 2 * (t * (d * unit) - n * unit) by ring, abs_mul, abs_two]
    linarith
  exact_mod_cast le_of_mul_le_mul_right hscaled hunit

/-- A number that is cut is kept at the power where it is cut. -/
theorem of_cut (hs : s.isZero = false) (hcut : s.exponent < ctx.cutExponent s) :
    ctx.KeptOn s.value (ctx.rounded s).value (ctx.cutExponent s) := by
  obtain ⟨drop, hdrop⟩ : ∃ drop : ℕ, ctx.cutExponent s = s.exponent + drop :=
    ⟨(ctx.cutExponent s - s.exponent).toNat, by omega⟩
  obtain ⟨k, hk, -⟩ := rounded_of_cut hs hcut
  refine ⟨leastExponent_le_cutExponent ctx s, ?_, ⟨k, hk⟩, fun t ht hnear => ?_⟩
  · have hdigits := digitCount_le_of_cut hdrop
    have hle : (10 : ℚ) ^ (s.exponent + digitCount s.coefficient) ≤
        10 ^ (ctx.precision + ctx.cutExponent s) := ten_zpow_le (by omega)
    linarith [Finite.abs_value_lt_zpow s, ten_zpow_pos (ctx.cutExponent s)]
  · have hp := ten_zpow_pos s.exponent
    have hten : (10 : ℚ) ^ ctx.cutExponent s = (10 ^ drop : ℕ) * 10 ^ s.exponent := by
      rw [hdrop, add_comm, ten_zpow_add, zpow_natCast]
      push_cast
      rfl
    rw [hten, Finite.value] at hnear
    have hunits := abs_two_mul_sub_le hp hnear
    have hpos : 0 < 10 ^ drop := by positivity
    rw [value_rounded_of_cut hs hdrop (by omega)]
    unfold Finite.signed at hunits
    cases hneg : s.negative with
    | false =>
        simp only [hneg, Bool.false_eq_true, if_false] at hunits ⊢
        have heven := divHalfEven_eq_of_even hpos ht hunits
        rw [← heven]
        norm_cast
    | true =>
        simp only [hneg, if_true] at hunits ⊢
        have heven := divHalfEven_eq_of_even (n := s.coefficient) hpos ht.neg (by
          rw [← abs_neg]
          convert hunits using 2
          ring)
        have hcast : ((divHalfEven s.coefficient (10 ^ drop) : ℕ) : ℚ) = -t := by exact_mod_cast heven
        rw [hcast, neg_neg]

end KeptOn

/-- Whatever the operation, its result is kept on some grid. -/
theorem Settles.exists_keptOn (h : ctx.Settles q v) : ∃ e, ctx.KeptOn q v e := by
  obtain ⟨s, rfl | hs, rfl⟩ := h
  · cases hs : s.isZero with
    | true =>
        have hzero : (ctx.rounded s).value = (0 : ℤ) * 10 ^ (0 : ℤ) := by simp [rounded_zero hs]
        rw [hzero, (Finite.isZero_iff s).mp hs]
        have hleast := Representable.leastExponent_le ctx
        exact ⟨0, .of_near (by omega) (by simp) (by norm_num)⟩
    | false =>
        rcases le_or_gt (ctx.cutExponent s) s.exponent with hfits | hcut
        · rw [rounded_of_fits hs hfits]
          refine ⟨s.exponent, .of_near ((leastExponent_le_cutExponent ctx s).trans hfits)
            (abs_signed_lt_of_fits hfits).le ?_⟩
          rw [Finite.value, sub_self, abs_zero]
          exact half_pos (ten_zpow_pos s.exponent)
        · exact ⟨_, .of_cut hs hcut⟩
  · obtain ⟨k, hk, hbound, hnear, -⟩ := hs.near
    rw [hk]
    exact ⟨_, .of_near (leastExponent_le_cutExponent ctx s) hbound hnear⟩

end Decimal.Context

end NumericContract
