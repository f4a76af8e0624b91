import NumericContract.Proofs.Curve.Rectangular

/-!
# Inverses of rectangular hyperbolas

An inverse is the quotient of two products in which several terms are rounded. Errors are scaled by the
distance of the payout from the asymptote: the closer the payout is to it, the farther out the root lies
and the more is lost, though still far less than an outcome.
-/

namespace NumericContract

open Decimal

namespace Hyperbola

variable {h : Hyperbola} {ctx : Context}

theorem product_eq_zero (ctx : Context) (factors : List Decimal.Finite) :
    ∀ x : Decimal.Finite, x.value = 0 →
      ∃ z : Decimal.Finite, product ctx (.finite x) (factors.map .finite) = .ok (.finite z) ∧ z.value = 0 := by
  induction factors with
  | nil => exact fun x hx => ⟨x, rfl, hx⟩
  | cons y factors ih =>
      intro x hx
      have hxy : x.value * y.value = 0 := by rw [hx, zero_mul]
      obtain ⟨p, hp, hpr⟩ := mul_rounds ctx x y (by rw [hxy]; norm_num)
      rw [hxy] at hpr
      obtain ⟨z, hz, hzv⟩ := ih p (hpr.eq_self (Context.Representable.zero ctx))
      exact ⟨z, bind_eq_ok.mpr ⟨.finite p, hp, hz⟩, hzv⟩

theorem product_rounds (ctx : Context) (x y z : Decimal.Finite) (hxy : |x.value * y.value| ≤ 10 ^ 100)
    (hz : |z.value| ≤ 10 ^ 90) (hexact : ctx.Representable (x.value * y.value)) :
    ∃ p : Decimal.Finite, product ctx (.finite x) [.finite y, .finite z] = .ok (.finite p) ∧
      ctx.Rounds (x.value * y.value * z.value) p.value := by
  obtain ⟨q, hq, hqr⟩ := mul_rounds ctx x y (hxy.trans (by norm_num))
  have hqv := hqr.eq_self hexact
  have hqz : |q.value * z.value| ≤ 10 ^ 200 := by
    rw [hqv, abs_mul]
    exact (mul_le_mul hxy hz (abs_nonneg _) (by norm_num)).trans (by norm_num)
  obtain ⟨p, hp, hpr⟩ := mul_rounds ctx q z hqz
  rw [hqv] at hpr
  exact ⟨p, bind_eq_ok.mpr ⟨.finite q, hq, bind_eq_ok.mpr ⟨.finite p, hp, rfl⟩⟩, hpr⟩

theorem add_zero_exact {x z : Decimal.Finite} (hz : z.value = 0) (hx : ctx.Representable x.value)
    (hb : |x.value| ≤ 10 ^ 200) :
    ∃ s : Decimal.Finite, Decimal.add ctx (.finite x) (.finite z) = .ok (.finite s) ∧ s.value = x.value := by
  obtain ⟨s, hs, hr⟩ := add_rounds ctx x z (by rwa [hz, add_zero])
  rw [hz, add_zero] at hr
  exact ⟨s, hs, hr.eq_self hx⟩

theorem sub_zero_exact {x z : Decimal.Finite} (hz : z.value = 0) (hx : ctx.Representable x.value)
    (hb : |x.value| ≤ 10 ^ 200) :
    ∃ s : Decimal.Finite, Decimal.sub ctx (.finite x) (.finite z) = .ok (.finite s) ∧ s.value = x.value := by
  obtain ⟨s, hs, hr⟩ := sub_rounds ctx x z (by rwa [hz, sub_zero])
  rw [hz, sub_zero] at hr
  exact ⟨s, hs, hr.eq_self hx⟩

/-- The product of two coefficients is exact, so that its product with a third number is rounded once. -/
theorem product_onGrid (ctx : Context) {x y z : Decimal.Finite} (hx : OnGrid 16 x.value)
    (hxb : |x.value| ≤ 2 * 10 ^ 18) (hy : OnGrid 16 y.value) (hyb : |y.value| ≤ 2 * 10 ^ 18)
    (hz : |z.value| ≤ 10 ^ 70) :
    ∃ t : Decimal.Finite, product ctx.widened (.finite x) [.finite y, .finite z] = .ok (.finite t) ∧
      ctx.widened.Rounds (x.value * y.value * z.value) t.value := by
  have hxy : |x.value * y.value| ≤ 4 * 10 ^ 36 := by
    rw [abs_mul]
    exact (mul_le_mul hxb hyb (abs_nonneg _) (by norm_num)).trans (by norm_num)
  have hgrid : OnGrid 32 (x.value * y.value) := hx.mul hy
  exact product_rounds ctx.widened x y z (by linarith) (by linarith)
    (hgrid.representable ctx (by norm_num) (by linarith))

theorem opposite_product (hs : h.Scaled) (ctx : Context) :
    ∃ opposite t : Decimal.Finite, h.a.neg ctx.widened = .ok opposite ∧
      product ctx.widened (.finite opposite) [.finite h.d, .finite h.d] = .ok (.finite t) ∧
      ctx.widened.Rounds (-h.factor * h.d.value) t.value ∧
      |-h.factor * h.d.value| ≤ |h.d.value| * 10 ^ 36 := by
  have hA := hs.a.abs_lt
  have hD := hs.d.abs_lt
  obtain ⟨opposite, ho, hov⟩ := (Finite.neg_computes ctx.widened h.a).exact
    (hs.a.onGrid.neg.representable ctx (by norm_num) (by rw [abs_neg]; linarith))
    (by rw [abs_neg]; linarith)
  obtain ⟨t, ht, hr⟩ := product_onGrid ctx (hov ▸ hs.a.onGrid.neg) (by rw [hov, abs_neg]; linarith)
    hs.d.onGrid (by linarith) (z := h.d) (by linarith)
  rw [hov, neg_mul] at hr
  refine ⟨opposite, t, ho, ht, hr, ?_⟩
  rw [abs_mul, abs_neg, mul_comm]
  exact mul_le_mul_of_nonneg_left hs.abs_factor_le (abs_nonneg _)

theorem pole_product (hs : h.Scaled) (ctx : Context) {z : Decimal.Finite} (hz : |z.value| ≤ 10 ^ 70) :
    ∃ t : Decimal.Finite,
      product ctx.widened (.finite h.d) [.finite h.translateOutcome, .finite z] = .ok (.finite t) ∧
      ctx.widened.Rounds (h.d.value * h.pole * z.value) t.value ∧
      |h.d.value * h.pole * z.value| ≤ |h.d.value| * (10 ^ 18 * |z.value|) := by
  have hD := hs.d.abs_lt
  have hP : |h.translateOutcome.value| < 10 ^ 18 := hs.pole.abs_lt
  obtain ⟨t, ht, hr⟩ := product_onGrid ctx hs.d.onGrid (by linarith) hs.pole.onGrid (by linarith) hz
  refine ⟨t, ht, hr, ?_⟩
  rw [mul_assoc, abs_mul, abs_mul]
  exact mul_le_mul_of_nonneg_left (mul_le_mul_of_nonneg_right hP.le (abs_nonneg _)) (abs_nonneg _)

/-- The terms with `b` are zero and change no sum. -/
theorem add_terms_of_b (hb : h.b.value = 0) {t : Decimal.Finite} (y : Decimal.Finite)
    (ht : ctx.Representable t.value) (hbound : |t.value| ≤ 10 ^ 200) :
    ∃ s : Decimal.Finite, s.value = t.value ∧ ∀ rest : Decimal → Except Signal Decimal,
      (do
        let total ← (Decimal.finite t).sub ctx
          (← product ctx (.finite h.b) [.finite h.translatePayout, .finite h.translatePayout])
        let total ← total.add ctx
          (← product ctx (ofInt 2) [.finite h.b, .finite h.translatePayout, .finite y])
        let total ← total.sub ctx (← product ctx (.finite h.b) [.finite y, .finite y])
        rest total) = rest (.finite s) := by
  obtain ⟨z₁, hz₁, hzv₁⟩ := product_eq_zero ctx [h.translatePayout, h.translatePayout] h.b hb
  have h2b : (Decimal.Finite.ofInt 2).value * h.b.value = 0 := by rw [hb, mul_zero]
  obtain ⟨p, hp, hpr⟩ := mul_rounds ctx (.ofInt 2) h.b (by rw [h2b]; norm_num)
  rw [h2b] at hpr
  obtain ⟨z₂, hz₂, hzv₂⟩ := product_eq_zero ctx [h.translatePayout, y] p
    (hpr.eq_self (Context.Representable.zero _))
  have hz₂ : product ctx (ofInt 2) [.finite h.b, .finite h.translatePayout, .finite y] = .ok (.finite z₂) :=
    bind_eq_ok.mpr ⟨.finite p, hp, hz₂⟩
  obtain ⟨z₃, hz₃, hzv₃⟩ := product_eq_zero ctx [y, y] h.b hb
  obtain ⟨s₁, hs₁, hsv₁⟩ := sub_zero_exact hzv₁ ht hbound
  obtain ⟨s₂, hs₂, hsv₂⟩ := add_zero_exact hzv₂ (hsv₁ ▸ ht) (by rwa [hsv₁])
  rw [hsv₁] at hsv₂
  obtain ⟨s₃, hs₃, hsv₃⟩ := sub_zero_exact hzv₃ (hsv₂ ▸ ht) (by rwa [hsv₂])
  refine ⟨s₃, hsv₃.trans hsv₂, fun rest => ?_⟩
  refine (bind_of_ok hz₁ _).trans ((bind_of_ok hs₁ _).trans ?_)
  refine (bind_of_ok hz₂ _).trans ((bind_of_ok hs₂ _).trans ?_)
  exact (bind_of_ok hz₃ _).trans (bind_of_ok hs₃ _)

/-- What the terms of the numerator lose is small beside `d` and the payout. -/
theorem numerator_near (ha : h.AtScale) (ctx : Context) (hd : h.d.value ≠ 0) {y : Decimal.Finite}
    (hy : |y.value| ≤ 10 ^ 70) :
    ∃ total : Decimal.Finite, h.numerator ctx.widened (.finite y) = .ok (.finite total) ∧
      |total.value - h.d.value * (h.pole * (h.asymptote - y.value) - h.factor)| ≤
        |h.d.value| * (2 * 10 ^ 18 + |y.value|) / 10 ^ 58 ∧
      |total.value| ≤ |h.d.value| * (2 * 10 ^ 18 + |y.value|) * 10 ^ 19 := by
  have hwide : 78 ≤ ctx.widened.precision := le_max_left _ _
  have hD := ha.d.abs_lt
  have hF : |h.translatePayout.value| < 10 ^ 18 := ha.asymptote.abs_lt
  have hDge := ha.d.onGrid.le_abs hd
  obtain ⟨opposite, t₁, ho, ht₁, hr₁, hb₁⟩ := opposite_product ha.scaled ctx
  obtain ⟨t₂, ht₂, hr₂, hb₂⟩ := pole_product ha.scaled ctx (z := h.translatePayout) (by linarith)
  obtain ⟨t₃, ht₃, hr₃, hb₃⟩ := pole_product ha.scaled ctx hy
  have hDF := mul_le_mul_of_nonneg_left hF.le (abs_nonneg h.d.value)
  have hDy := mul_le_mul hD.le hy (abs_nonneg _) (by norm_num)
  have hDy0 := mul_nonneg (abs_nonneg h.d.value) (abs_nonneg y.value)
  have hb₁' := hr₁.abs_le_two_mul
  have hb₂' := hr₂.abs_le_two_mul
  have hb₃' := hr₃.abs_le_two_mul
  obtain ⟨s, hs, hrest⟩ := add_terms_of_b ha.b_eq y hr₁.representable (by linarith)
  have hsum := abs_add_le t₁.value t₂.value
  obtain ⟨s₄, hs₄, hr₄⟩ := add_rounds ctx.widened s t₂ (by rw [hs]; linarith)
  rw [hs] at hr₄
  have hb₄ := hr₄.abs_le_two_mul
  have hdiff := abs_sub s₄.value t₃.value
  obtain ⟨total, ht, hr₅⟩ := sub_rounds ctx.widened s₄ t₃ (by linarith)
  have hb₅ := hr₅.abs_le_two_mul
  refine ⟨total, ?_, ?_, by linarith⟩
  · refine bind_eq_ok.mpr ⟨opposite, ho, bind_eq_ok.mpr ⟨.finite t₁, ht₁, (hrest _).trans ?_⟩⟩
    refine bind_eq_ok.mpr ⟨.finite t₂, ht₂, bind_eq_ok.mpr ⟨.finite s₄, hs₄, ?_⟩⟩
    exact bind_eq_ok.mpr ⟨.finite t₃, ht₃, ht⟩
  · have he₁ := hr₁.error hwide
    have he₂ := hr₂.error hwide
    have he₃ := hr₃.error hwide
    have he₄ := hr₄.error hwide
    have he₅ := hr₅.error hwide
    have hform : total.value - h.d.value * (h.pole * (h.asymptote - y.value) - h.factor) =
        (t₁.value - -h.factor * h.d.value) + (t₂.value - h.d.value * h.pole * h.translatePayout.value) -
          (t₃.value - h.d.value * h.pole * y.value) + (s₄.value - (t₁.value + t₂.value)) +
          (total.value - (s₄.value - t₃.value)) := by
      rw [asymptote]
      ring
    rw [hform]
    rw [abs_le] at he₁ he₂ he₃ he₄ he₅ ⊢
    constructor <;> linarith

/-- What is divided by in an inverse is nearly the product of `d` and the distance from the asymptote,
and zero only with it. -/
theorem denominator_near (ha : h.AtScale) (ctx : Context) {y : Decimal.Finite} (hy : |y.value| ≤ 10 ^ 70) :
    ∃ gap denominator : Decimal.Finite,
      (Decimal.finite h.translatePayout).sub ctx.widened (.finite y) = .ok (.finite gap) ∧
      (Decimal.finite h.d).mul ctx.widened (.finite gap) = .ok (.finite denominator) ∧
      (h.d.value * (h.asymptote - y.value) = 0 → denominator.value = 0) ∧
      |denominator.value - h.d.value * (h.asymptote - y.value)| ≤
        3 * |h.d.value * (h.asymptote - y.value)| / 10 ^ 77 + 1 / 10 ^ 139 := by
  have hwide : 78 ≤ ctx.widened.precision := le_max_left _ _
  have hF : |h.asymptote| < 10 ^ 18 := ha.asymptote.abs_lt
  have hD := ha.d.abs_lt
  have hgap : |h.asymptote - y.value| ≤ 2 * 10 ^ 70 := (abs_sub _ _).trans (by linarith)
  obtain ⟨gap, hg, hgr⟩ := sub_rounds ctx.widened h.translatePayout y (hgap.trans (by norm_num))
  have hgr : ctx.widened.Rounds (h.asymptote - y.value) gap.value := hgr
  have hsize := hgr.abs_mul_le_two_mul h.d.value
  have herr := hgr.error_mul hwide (hD.le.trans (by norm_num))
  have hprod : |(h.asymptote - y.value) * h.d.value| ≤ 2 * 10 ^ 70 * 10 ^ 18 := by
    rw [abs_mul]
    exact mul_le_mul hgap hD.le (abs_nonneg _) (by norm_num)
  rw [mul_comm gap.value] at hsize herr
  rw [mul_comm _ h.d.value] at hsize herr hprod
  obtain ⟨denominator, hd, hdr⟩ := mul_rounds ctx.widened h.d gap (by linarith)
  have herr' := hdr.error hwide
  refine ⟨gap, denominator, hg, hd, fun hzero => ?_, ?_⟩
  · rw [hzero, abs_zero, mul_zero] at hsize
    rw [abs_nonpos_iff.mp hsize] at hdr
    exact hdr.eq_self (Context.Representable.zero _)
  · rw [abs_le] at herr herr' ⊢
    constructor <;> linarith

/-- The asymptote, and every other payout of a constant curve, has no inverse. -/
theorem invert_eq_none (ha : h.AtScale) (ctx : Context) {y : Decimal.Finite} (hy : |y.value| ≤ 10 ^ 70)
    (hzero : h.factor * (h.asymptote - y.value) = 0) : h.invert ctx (.finite y) = .ok none := by
  obtain ⟨gap, denominator, hg, hd, hdz, -⟩ := denominator_near ha ctx hy
  have ha0 := h.a_value_ne_zero
  have hz : denominator.isZero = true := by
    rw [factor, mul_assoc] at hzero
    exact (Finite.isZero_iff _).mpr (hdz ((mul_eq_zero.mp hzero).resolve_left ha0))
  refine invert_of_inverse? ha.c_isZero none ?_
  refine bind_eq_ok.mpr ⟨.finite gap, hg, bind_eq_ok.mpr ⟨.finite denominator, hd, ?_⟩⟩
  exact bind_eq_ok.mpr ⟨true, congrArg Except.ok hz, rfl⟩

theorem root_mul (h : Hyperbola) {y : ℚ} (hy : h.asymptote - y ≠ 0) :
    h.root y * (h.asymptote - y) = h.pole * (h.asymptote - y) - h.factor := by
  rw [root, ← neg_sub h.asymptote y]
  field_simp
  ring

theorem le_two_mul_of_near {denominator q : ℚ} (h : |denominator - q| ≤ |q| / 10 ^ 76) :
    |q| ≤ 2 * |denominator| := by
  have hsum := abs_sub denominator (denominator - q)
  rw [sub_sub_cancel] at hsum
  linarith [abs_nonneg q]

theorem abs_div_mul_le {denominator d g n c : ℚ} (hne : denominator ≠ 0)
    (hnear : |denominator - d * g| ≤ |d * g| / 10 ^ 76) (hc : 0 ≤ c) (hn : |n| ≤ |d| * c) :
    |n / denominator| * |g| ≤ 2 * c := by
  rw [abs_div, div_mul_eq_mul_div, div_le_iff₀ (abs_pos.mpr hne)]
  calc |n| * |g| ≤ |d| * c * |g| := mul_le_mul_of_nonneg_right hn (abs_nonneg g)
    _ = |d * g| * c := by rw [abs_mul]; ring
    _ ≤ 2 * |denominator| * c := mul_le_mul_of_nonneg_right (le_two_mul_of_near hnear) hc
    _ = 2 * c * |denominator| := by ring

/-- A quotient of nearly `d * (r * g)` by nearly `d * g` is nearly `r`. -/
theorem abs_quotient_sub_mul_le {denominator d g n c r : ℚ} (hne : denominator ≠ 0)
    (hnear : |denominator - d * g| ≤ |d * g| / 10 ^ 76) (hc : 0 ≤ c)
    (hn : |n - d * (r * g)| ≤ |d| * c) :
    |n / denominator - r| * |g| ≤ 2 * c + 2 * (|r * g| / 10 ^ 76) := by
  have hform : n / denominator - r =
      (n - d * (r * g)) / denominator - r * (denominator - d * g) / denominator := by
    field_simp
    ring
  have hnumerator := abs_div_mul_le hne hnear hc hn
  have hdenominator : |r * (denominator - d * g) / denominator| * |g| ≤ 2 * (|r * g| / 10 ^ 76) := by
    apply abs_div_mul_le hne hnear (by positivity)
    calc |r * (denominator - d * g)| ≤ |r| * (|d * g| / 10 ^ 76) := by
          rw [abs_mul]
          exact mul_le_mul_of_nonneg_left hnear (abs_nonneg r)
      _ = |d| * (|r * g| / 10 ^ 76) := by
          rw [abs_mul, abs_mul]
          ring
  have hsum := mul_le_mul_of_nonneg_right (abs_sub ((n - d * (r * g)) / denominator)
    (r * (denominator - d * g) / denominator)) (abs_nonneg g)
  rw [hform]
  linarith

/-- Any other inverse is the outcome nearest to a number that is close to the exact root. -/
theorem invert_close (ha : h.AtScale) (ctx : Context) (hK : h.factor ≠ 0) {y : Decimal.Finite}
    (hlow : 1 / 10 ^ 40 ≤ |h.asymptote - y.value|) (hhigh : |h.asymptote - y.value| ≤ 10 ^ 60) :
    ∃ x' : Decimal.Finite, h.invert ctx (.finite y) = .ok (finite x').nearestOutcome? ∧
      |x'.value - h.root y.value| * |h.asymptote - y.value| ≤
        (2 * 10 ^ 19 + 7 * |h.asymptote - y.value|) / 10 ^ 58 := by
  have hwide : 78 ≤ ctx.widened.precision := le_max_left _ _
  have hF := ha.asymptote.abs_lt
  have hy : |y.value| ≤ 10 ^ 18 + |h.asymptote - y.value| := by
    have := abs_sub h.asymptote (h.asymptote - y.value)
    rw [sub_sub_cancel] at this
    linarith
  have hdne : h.d.value ≠ 0 := right_ne_zero_of_mul hK
  obtain ⟨gap, denominator, hg, hd, -, hderr⟩ := denominator_near ha ctx (y := y) (by linarith)
  obtain ⟨total, ht, hterr, htb⟩ := numerator_near ha ctx hdne (y := y) (by linarith)
  have hroot := h.root_mul (abs_pos.mp (lt_of_lt_of_le (by norm_num) hlow))
  have hrootb : |h.root y.value * (h.asymptote - y.value)| ≤
      10 ^ 18 * |h.asymptote - y.value| + 10 ^ 36 := by
    rw [hroot]
    refine (abs_sub _ _).trans (add_le_add ?_ ha.abs_factor_le)
    rw [abs_mul]
    exact mul_le_mul_of_nonneg_right ha.pole.abs_lt.le (abs_nonneg _)
  have hprod : 1 / 10 ^ 56 ≤ |h.d.value * (h.asymptote - y.value)| := by
    rw [abs_mul]
    exact le_trans (by norm_num) (mul_le_mul (ha.d.onGrid.le_abs hdne) hlow (by norm_num) (abs_nonneg _))
  rw [← hroot] at hterr
  generalize h.asymptote - y.value = g at *
  -- the product is not so small that the least exponent of the arithmetic would count
  have hnear : |denominator.value - h.d.value * g| ≤ |h.d.value * g| / 10 ^ 76 := by linarith
  have hdne' : denominator.value ≠ 0 := by
    intro hzero
    have hsize := le_two_mul_of_near hnear
    rw [hzero, abs_zero] at hsize
    linarith
  have hquot := abs_div_mul_le hdne' hnear (by positivity) (htb.trans_eq (mul_assoc _ _ _))
  have hquot' : |total.value / denominator.value| ≤ 10 ^ 200 := by
    have := mul_le_mul_of_nonneg_left hlow (abs_nonneg (total.value / denominator.value))
    linarith
  obtain ⟨x', hx', hxr⟩ := div_rounds ctx.widened total denominator hdne' hquot'
  refine ⟨x', ?_, ?_⟩
  · refine invert_of_inverse? ha.c_isZero (some (.finite x')) ?_
    refine bind_eq_ok.mpr ⟨.finite gap, hg, bind_eq_ok.mpr ⟨.finite denominator, hd, ?_⟩⟩
    refine bind_eq_ok.mpr ⟨false, congrArg Except.ok ((Finite.isZero_eq_false_iff _).mpr hdne'), ?_⟩
    exact bind_eq_ok.mpr ⟨.finite total, ht, bind_eq_ok.mpr ⟨.finite x', hx', rfl⟩⟩
  · have hxerr := hxr.error_mul hwide hhigh
    have hqerr := abs_quotient_sub_mul_le hdne' hnear (by positivity) (hterr.trans_eq (mul_div_assoc _ _ _))
    rw [← sub_mul, abs_mul, abs_mul (total.value / denominator.value)] at hxerr
    have hsum := mul_le_mul_of_nonneg_right
      (abs_sub_le x'.value (total.value / denominator.value) (h.root y.value)) (abs_nonneg g)
    linarith

theorem invert_eq (ha : h.AtScale) (ctx : Context) {y : Decimal.Finite} (hy : IsHalfInteger y.value)
    (hne : h.factor * (h.asymptote - y.value) ≠ 0) :
    ∃ x' : Decimal.Finite, h.invert ctx (.finite y) = .ok (finite x').nearestOutcome? ∧
      |x'.value - h.root y.value| * |h.asymptote - y.value| ≤ 1 / 10 ^ 37 := by
  have hlow := (ha.asymptote.onGrid.sub hy.onGrid).le_abs (right_ne_zero_of_mul hne)
  have hhigh : |h.asymptote - y.value| ≤ 6 * 10 ^ 19 :=
    (abs_sub _ _).trans (by linarith [ha.asymptote.abs_lt, hy.abs_le])
  obtain ⟨x', hx', herr⟩ := invert_close ha ctx (left_ne_zero_of_mul hne) (y := y) (by linarith) (by linarith)
  exact ⟨x', hx', herr.trans (by linarith)⟩

/-- Inverses are accurate to far less than an outcome, and of moderate size. -/
theorem invert_near (ha : h.AtScale) (ctx : Context) {y : Decimal.Finite} (hy : IsHalfInteger y.value)
    (hne : h.factor * (h.asymptote - y.value) ≠ 0) :
    ∃ x' : Decimal.Finite, h.invert ctx (.finite y) = .ok (finite x').nearestOutcome? ∧
      |x'.value - h.root y.value| ≤ 1 / 10 ^ 20 ∧ x'.value ≤ 10 ^ 54 := by
  obtain ⟨x', hx', herr⟩ := invert_eq ha ctx hy hne
  have hgne : h.asymptote - y.value ≠ 0 := right_ne_zero_of_mul hne
  have hge := (ha.asymptote.onGrid.sub hy.onGrid).le_abs hgne
  have hP := abs_lt.mp ha.pole.abs_lt
  have hK := ha.abs_factor_le
  have hnear : |x'.value - h.root y.value| ≤ 1 / 10 ^ 20 := by
    have := mul_le_mul_of_nonneg_left hge (abs_nonneg (x'.value - h.root y.value))
    linarith
  have hdist : |h.factor / (y.value - h.asymptote)| ≤ 10 ^ 52 := by
    rw [abs_div, abs_sub_comm, div_le_iff₀ (abs_pos.mpr hgne)]
    linarith
  refine ⟨x', hx', hnear, ?_⟩
  have h1 := (abs_le.mp hnear).2
  have h2 := (abs_le.mp hdist).2
  unfold root at h1
  linarith

end Hyperbola

end NumericContract
