import NumericContract.Proofs.Curve.RectangularInverse

/-!
# Inverses where `b` is not zero

The quotient that an inverse computes then has a numerator with terms of either sign, up to the size of
`a · d²` and `b · y²`, while its denominator is exact. What the terms lose together is less than an outcome as
long as the product of `d` and the distance of the payout from the asymptote is not tiny.
-/

namespace NumericContract

open Decimal

/-! ## Sums of rounded terms -/

section sums

variable {x y : Decimal.Finite} {p q u v e f m : ℚ}

/-- A result loses what its exact result had lost and what it is rounded by. -/
theorem Decimal.Context.Rounds.close {ctx : Context} (hr : ctx.widened.Rounds u v) (hu : |u - p| ≤ e)
    (hm : |p| + e ≤ m) : |v - p| ≤ e + (m / 10 ^ 77 + 1 / 10 ^ 200) := by
  have herror := hr.error (le_max_left _ _)
  have hsize := abs_add_le (u - p) p
  rw [sub_add_cancel] at hsize
  linarith [abs_sub_le v u p]

theorem Decimal.add_close (ctx : Context) (hx : |x.value - p| ≤ e) (hy : |y.value - q| ≤ f)
    (hm : |p + q| + (e + f) ≤ m) (hsize : m ≤ 10 ^ 200) :
    ∃ s : Decimal.Finite, Decimal.add ctx.widened (.finite x) (.finite y) = .ok (.finite s) ∧
      |s.value - (p + q)| ≤ e + f + (m / 10 ^ 77 + 1 / 10 ^ 200) := by
  have hterms : |x.value + y.value - (p + q)| ≤ e + f := by
    rw [add_sub_add_comm]
    exact (abs_add_le _ _).trans (add_le_add hx hy)
  have htotal := abs_add_le (x.value + y.value - (p + q)) (p + q)
  rw [sub_add_cancel] at htotal
  obtain ⟨s, hs, hr⟩ := add_rounds ctx.widened x y (by linarith)
  exact ⟨s, hs, hr.close hterms hm⟩

theorem Decimal.sub_close (ctx : Context) (hx : |x.value - p| ≤ e) (hy : |y.value - q| ≤ f)
    (hm : |p - q| + (e + f) ≤ m) (hsize : m ≤ 10 ^ 200) :
    ∃ s : Decimal.Finite, Decimal.sub ctx.widened (.finite x) (.finite y) = .ok (.finite s) ∧
      |s.value - (p - q)| ≤ e + f + (m / 10 ^ 77 + 1 / 10 ^ 200) := by
  have hterms : |x.value - y.value - (p - q)| ≤ e + f := by
    rw [sub_sub_sub_comm]
    exact (abs_sub _ _).trans (add_le_add hx hy)
  have htotal := abs_add_le (x.value - y.value - (p - q)) (p - q)
  rw [sub_add_cancel] at htotal
  obtain ⟨s, hs, hr⟩ := sub_rounds ctx.widened x y (by linarith)
  exact ⟨s, hs, hr.close hterms hm⟩

end sums

namespace Hyperbola

variable {h : Hyperbola} {ctx : Context}

/-! ## The exact place -/

def place (h : Hyperbola) (y : ℚ) : ℚ := h.root y + h.b.value * (y - h.asymptote) / h.d.value

def exactNumerator (h : Hyperbola) (y : ℚ) : ℚ :=
  -h.factor * h.d.value - h.b.value * h.asymptote * h.asymptote + 2 * h.b.value * h.asymptote * y -
    h.b.value * y * y + h.d.value * h.pole * h.asymptote - h.d.value * h.pole * y

theorem place_mul {y : ℚ} (hd : h.d.value ≠ 0) (hy : h.asymptote - y ≠ 0) :
    h.place y * (h.d.value * (h.asymptote - y)) = h.exactNumerator y := by
  have hroot := h.root_mul hy
  have hterm : h.b.value * (y - h.asymptote) / h.d.value * h.d.value = h.b.value * (y - h.asymptote) :=
    div_mul_cancel₀ _ hd
  unfold place exactNumerator
  linear_combination h.d.value * hroot + (h.asymptote - y) * hterm

/-! ## The numerator -/

theorem product_close (ctx : Context) {x y z : Decimal.Finite} {r s : ℚ} (hx : OnGrid 16 x.value)
    (hxb : |x.value| ≤ 2 * 10 ^ 18) (hy : OnGrid 16 y.value) (hyb : |y.value| ≤ 2 * 10 ^ 18)
    (hxy : |x.value * y.value| ≤ r) (hzs : |z.value| ≤ s) (hzb : s ≤ 2 * 10 ^ 18) :
    ∃ t : Decimal.Finite, product ctx.widened (.finite x) [.finite y, .finite z] = .ok (.finite t) ∧
      |t.value - x.value * y.value * z.value| ≤ r * s / 10 ^ 77 + 1 / 10 ^ 200 ∧
      |x.value * y.value * z.value| ≤ r * s := by
  obtain ⟨t, ht, hr⟩ := product_onGrid ctx hx hxb hy hyb (z := z) (by linarith)
  have hsize : |x.value * y.value * z.value| ≤ r * s := by
    rw [abs_mul]
    exact mul_le_mul hxy hzs (abs_nonneg _) ((abs_nonneg _).trans hxy)
  have herror := hr.error (le_max_left _ _)
  exact ⟨t, ht, by linarith, hsize⟩

theorem products_of_b (hs : h.Scaled) (ctx : Context) {y : Decimal.Finite} (hy : IsHalfInteger y.value)
    (hyb : |y.value| ≤ 2 * 10 ^ 18) :
    ∃ t₂ t₃ t₄ : Decimal.Finite,
      product ctx.widened (.finite h.b) [.finite h.translatePayout, .finite h.translatePayout] =
        .ok (.finite t₂) ∧
      product ctx.widened (ofInt 2) [.finite h.b, .finite h.translatePayout, .finite y] = .ok (.finite t₃) ∧
      product ctx.widened (.finite h.b) [.finite y, .finite y] = .ok (.finite t₄) ∧
      (|t₂.value - h.b.value * h.asymptote * h.asymptote| ≤ 2 / 10 ^ 23 ∧
        |h.b.value * h.asymptote * h.asymptote| ≤ 10 ^ 54) ∧
      (|t₃.value - 2 * h.b.value * h.asymptote * y.value| ≤ 5 / 10 ^ 23 ∧
        |2 * h.b.value * h.asymptote * y.value| ≤ 4 * 10 ^ 54) ∧
      (|t₄.value - h.b.value * y.value * y.value| ≤ 5 / 10 ^ 23 ∧
        |h.b.value * y.value * y.value| ≤ 4 * 10 ^ 54) := by
  have hB := hs.b.abs_lt
  have hF : |h.translatePayout.value| < 10 ^ 18 := hs.asymptote.abs_lt
  have hBF : |h.b.value * h.translatePayout.value| ≤ 10 ^ 36 := by
    rw [abs_mul]
    exact (mul_le_mul hB.le hF.le (abs_nonneg _) (by norm_num)).trans (by norm_num)
  have hBy : |h.b.value * y.value| ≤ 2 * 10 ^ 36 := by
    rw [abs_mul]
    exact (mul_le_mul hB.le hyb (abs_nonneg _) (by norm_num)).trans (by norm_num)
  have h2B : |2 * h.b.value| ≤ 2 * 10 ^ 18 := by
    rw [abs_mul, abs_two]
    linarith
  have h2BF : |2 * h.b.value * h.translatePayout.value| ≤ 2 * 10 ^ 36 := by
    rw [mul_assoc, abs_mul, abs_two]
    linarith
  have hgrid : OnGrid 16 (2 * h.b.value) := (OnGrid.intCast 0 2).mul hs.b.onGrid
  obtain ⟨p, hp, hpr⟩ := mul_rounds ctx.widened (.ofInt 2) h.b (by
    rw [Finite.value_ofInt]
    push_cast
    linarith)
  rw [Finite.value_ofInt, Int.cast_ofNat] at hpr
  have hpv := hpr.eq_self (hgrid.representable ctx (by norm_num) (by linarith))
  obtain ⟨t₂, ht₂, he₂, hb₂⟩ := product_close ctx hs.b.onGrid (by linarith) hs.asymptote.onGrid (by linarith)
    hBF hF.le (by norm_num)
  obtain ⟨t₃, ht₃, he₃, hb₃⟩ := product_close ctx (hpv ▸ hgrid) (hpv ▸ h2B) hs.asymptote.onGrid (by linarith)
    (hpv ▸ h2BF) hyb le_rfl
  obtain ⟨t₄, ht₄, he₄, hb₄⟩ := product_close ctx hs.b.onGrid (by linarith) hy.onGrid hyb hBy hyb le_rfl
  rw [hpv] at he₃ hb₃
  refine ⟨t₂, t₃, t₄, ht₂, bind_eq_ok.mpr ⟨.finite p, hp, ht₃⟩, ht₄, ⟨?_, ?_⟩, ⟨?_, ?_⟩, ?_, ?_⟩
  · exact he₂.trans (by norm_num)
  · exact hb₂.trans (by norm_num)
  · exact he₃.trans (by norm_num)
  · exact hb₃.trans (by norm_num)
  · exact he₄.trans (by norm_num)
  · exact hb₄.trans (by norm_num)

theorem products_of_d (hs : h.Scaled) (ctx : Context) {y : Decimal.Finite} (hyb : |y.value| ≤ 2 * 10 ^ 18) :
    ∃ opposite t₁ t₅ t₆ : Decimal.Finite, h.a.neg ctx.widened = .ok opposite ∧
      product ctx.widened (.finite opposite) [.finite h.d, .finite h.d] = .ok (.finite t₁) ∧
      product ctx.widened (.finite h.d) [.finite h.translateOutcome, .finite h.translatePayout] =
        .ok (.finite t₅) ∧
      product ctx.widened (.finite h.d) [.finite h.translateOutcome, .finite y] = .ok (.finite t₆) ∧
      (|t₁.value - -h.factor * h.d.value| ≤ 2 / 10 ^ 23 ∧ |-h.factor * h.d.value| ≤ 10 ^ 54) ∧
      (|t₅.value - h.d.value * h.pole * h.asymptote| ≤ 2 / 10 ^ 23 ∧
        |h.d.value * h.pole * h.asymptote| ≤ 10 ^ 54) ∧
      (|t₆.value - h.d.value * h.pole * y.value| ≤ 3 / 10 ^ 23 ∧
        |h.d.value * h.pole * y.value| ≤ 2 * 10 ^ 54) := by
  have hD := hs.d.abs_lt
  have hP : |h.translateOutcome.value| < 10 ^ 18 := hs.pole.abs_lt
  have hF : |h.translatePayout.value| < 10 ^ 18 := hs.asymptote.abs_lt
  have hDP : |h.d.value * h.translateOutcome.value| ≤ 10 ^ 36 := by
    rw [abs_mul]
    exact (mul_le_mul hD.le hP.le (abs_nonneg _) (by norm_num)).trans (by norm_num)
  obtain ⟨opposite, t₁, ho, ht₁, hr₁, hb₁⟩ := opposite_product hs ctx
  have he₁ := hr₁.error (le_max_left _ _)
  obtain ⟨t₅, ht₅, he₅, hb₅⟩ := product_close ctx hs.d.onGrid (by linarith) hs.pole.onGrid (by linarith)
    hDP hF.le (by norm_num)
  obtain ⟨t₆, ht₆, he₆, hb₆⟩ := product_close ctx hs.d.onGrid (by linarith) hs.pole.onGrid (by linarith)
    hDP hyb le_rfl
  refine ⟨opposite, t₁, t₅, t₆, ho, ht₁, ht₅, ht₆, ⟨?_, ?_⟩, ⟨?_, ?_⟩, ?_, ?_⟩
  · linarith
  · linarith
  · exact he₅.trans (by norm_num)
  · exact hb₅.trans (by norm_num)
  · exact he₆.trans (by norm_num)
  · exact hb₆.trans (by norm_num)

/-- What the eleven operations of a numerator lose together. -/
theorem numerator_close (hs : h.Scaled) (ctx : Context) {y : Decimal.Finite} (hy : IsHalfInteger y.value)
    (hyb : |y.value| ≤ 2 * 10 ^ 18) :
    ∃ total : Decimal.Finite, h.numerator ctx.widened (.finite y) = .ok (.finite total) ∧
      |total.value - h.exactNumerator y.value| ≤ 7 / 10 ^ 22 ∧ |total.value| ≤ 14 * 10 ^ 54 := by
  obtain ⟨opposite, t₁, t₅, t₆, ho, ht₁, ht₅, ht₆, ⟨he₁, hb₁⟩, ⟨he₅, hb₅⟩, he₆, hb₆⟩ :=
    products_of_d hs ctx hyb
  obtain ⟨t₂, t₃, t₄, ht₂, ht₃, ht₄, ⟨he₂, hb₂⟩, ⟨he₃, hb₃⟩, he₄, hb₄⟩ := products_of_b hs ctx hy hyb
  have hexact : h.exactNumerator y.value = -h.factor * h.d.value - h.b.value * h.asymptote * h.asymptote +
    2 * h.b.value * h.asymptote * y.value - h.b.value * y.value * y.value +
    h.d.value * h.pole * h.asymptote - h.d.value * h.pole * y.value := rfl
  generalize -h.factor * h.d.value = q₁ at *
  generalize h.b.value * h.asymptote * h.asymptote = q₂ at *
  generalize 2 * h.b.value * h.asymptote * y.value = q₃ at *
  generalize h.b.value * y.value * y.value = q₄ at *
  generalize h.d.value * h.pole * h.asymptote = q₅ at *
  generalize h.d.value * h.pole * y.value = q₆ at *
  have hb₁₂ := abs_sub q₁ q₂
  have hb₁₃ := abs_add_le (q₁ - q₂) q₃
  have hb₁₄ := abs_sub (q₁ - q₂ + q₃) q₄
  have hb₁₅ := abs_add_le (q₁ - q₂ + q₃ - q₄) q₅
  have hb₁₆ := abs_sub (q₁ - q₂ + q₃ - q₄ + q₅) q₆
  obtain ⟨s₂, hs₂, hc₂⟩ := Decimal.sub_close ctx he₁ he₂ (m := 3 * 10 ^ 54) (by linarith) (by norm_num)
  obtain ⟨s₃, hs₃, hc₃⟩ := Decimal.add_close ctx hc₂ he₃ (m := 7 * 10 ^ 54) (by linarith) (by norm_num)
  obtain ⟨s₄, hs₄, hc₄⟩ := Decimal.sub_close ctx hc₃ he₄ (m := 11 * 10 ^ 54) (by linarith) (by norm_num)
  obtain ⟨s₅, hs₅, hc₅⟩ := Decimal.add_close ctx hc₄ he₅ (m := 12 * 10 ^ 54) (by linarith) (by norm_num)
  obtain ⟨s₆, hs₆, hc₆⟩ := Decimal.sub_close ctx hc₅ he₆ (m := 14 * 10 ^ 54) (by linarith) (by norm_num)
  have hsize := abs_add_le (s₆.value - (q₁ - q₂ + q₃ - q₄ + q₅ - q₆)) (q₁ - q₂ + q₃ - q₄ + q₅ - q₆)
  rw [sub_add_cancel] at hsize
  refine ⟨s₆, ?_, ?_, by linarith⟩
  · refine bind_eq_ok.mpr ⟨opposite, ho, bind_eq_ok.mpr ⟨.finite t₁, ht₁, ?_⟩⟩
    refine bind_eq_ok.mpr ⟨.finite t₂, ht₂, bind_eq_ok.mpr ⟨.finite s₂, hs₂, ?_⟩⟩
    refine bind_eq_ok.mpr ⟨.finite t₃, ht₃, bind_eq_ok.mpr ⟨.finite s₃, hs₃, ?_⟩⟩
    refine bind_eq_ok.mpr ⟨.finite t₄, ht₄, bind_eq_ok.mpr ⟨.finite s₄, hs₄, ?_⟩⟩
    refine bind_eq_ok.mpr ⟨.finite t₅, ht₅, bind_eq_ok.mpr ⟨.finite s₅, hs₅, ?_⟩⟩
    exact bind_eq_ok.mpr ⟨.finite t₆, ht₆, hs₆⟩
  · rw [hexact]
    linarith

/-! ## Inverses -/

theorem denominator_exact (hs : h.Scaled) (ctx : Context) {y : Decimal.Finite} (hy : IsHalfInteger y.value)
    (hyb : |y.value| ≤ 2 * 10 ^ 18) :
    ∃ gap denominator : Decimal.Finite,
      (Decimal.finite h.translatePayout).sub ctx.widened (.finite y) = .ok (.finite gap) ∧
      (Decimal.finite h.d).mul ctx.widened (.finite gap) = .ok (.finite denominator) ∧
      denominator.value = h.d.value * (h.asymptote - y.value) ∧ |denominator.value| ≤ 3 * 10 ^ 36 := by
  have hD := hs.d.abs_lt
  have hF := hs.asymptote.abs_lt
  have hgrid : OnGrid 16 (h.asymptote - y.value) := hs.asymptote.onGrid.sub hy.onGrid
  have hsize : |h.asymptote - y.value| ≤ 3 * 10 ^ 18 := (abs_sub _ _).trans (by linarith)
  obtain ⟨gap, hg, hgr⟩ := sub_rounds ctx.widened h.translatePayout y (hsize.trans (by norm_num))
  have hgv : gap.value = h.asymptote - y.value :=
    hgr.eq_self (hgrid.representable ctx (by norm_num) (by linarith))
  have hproduct : |h.d.value * gap.value| ≤ 3 * 10 ^ 36 := by
    rw [hgv, abs_mul]
    exact (mul_le_mul hD.le hsize (abs_nonneg _) (by norm_num)).trans (by norm_num)
  have hgrid' : OnGrid 32 (h.d.value * gap.value) := hs.d.onGrid.mul (hgv ▸ hgrid)
  obtain ⟨denominator, hd, hdr⟩ := mul_rounds ctx.widened h.d gap (by linarith)
  have hdv := hdr.eq_self (hgrid'.representable ctx (by norm_num) (by linarith))
  exact ⟨gap, denominator, hg, hd, by rw [hdv, hgv], hdv ▸ hproduct⟩

/-- An inverse is the outcome nearest to a number that is close to the exact place. -/
theorem invert_place (hs : h.Scaled) (hc : h.c.isZero = true) (ctx : Context) {y : Decimal.Finite}
    (hy : IsHalfInteger y.value) (hyb : |y.value| ≤ 2 * 10 ^ 18)
    (hne : h.d.value * (h.asymptote - y.value) ≠ 0) :
    ∃ x' : Decimal.Finite, h.invert ctx (.finite y) = .ok (finite x').nearestOutcome? ∧
      |x'.value - h.place y.value| * |h.d.value * (h.asymptote - y.value)| ≤ 9 / 10 ^ 22 := by
  obtain ⟨gap, denominator, hg, hd, hdv, hdb⟩ := denominator_exact hs ctx hy hyb
  obtain ⟨total, ht, hterr, htb⟩ := numerator_close hs ctx hy hyb
  have hexact := place_mul (left_ne_zero_of_mul hne) (right_ne_zero_of_mul hne)
  have hlow := (hs.d.onGrid.mul (hs.asymptote.onGrid.sub hy.onGrid)).le_abs hne
  rw [← hexact] at hterr
  rw [← hdv] at hne hlow hterr ⊢
  have hquot : |total.value / denominator.value| * |denominator.value| ≤ 14 * 10 ^ 54 := by
    rw [← abs_mul, div_mul_cancel₀ _ hne]
    exact htb
  have hquot' : |total.value / denominator.value| ≤ 10 ^ 200 := by
    have := mul_le_mul_of_nonneg_left hlow (abs_nonneg (total.value / denominator.value))
    linarith
  obtain ⟨x', hx', hxr⟩ := div_rounds ctx.widened total denominator hne hquot'
  refine ⟨x', ?_, ?_⟩
  · refine invert_of_inverse? hc (some (.finite x')) ?_
    refine bind_eq_ok.mpr ⟨.finite gap, hg, bind_eq_ok.mpr ⟨.finite denominator, hd, ?_⟩⟩
    refine bind_eq_ok.mpr ⟨false, congrArg Except.ok ((Finite.isZero_eq_false_iff _).mpr hne), ?_⟩
    exact bind_eq_ok.mpr ⟨.finite total, ht, bind_eq_ok.mpr ⟨.finite x', hx', rfl⟩⟩
  · have hxerr := hxr.error_mul (le_max_left _ _) (hdb.trans (by norm_num))
    rw [div_mul_cancel₀ _ hne] at hxerr
    have htri := abs_sub_le (x'.value * denominator.value) total.value
      (h.place y.value * denominator.value)
    rw [← abs_mul, sub_mul]
    linarith

end Hyperbola

end NumericContract
