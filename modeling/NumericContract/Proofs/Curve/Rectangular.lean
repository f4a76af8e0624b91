import NumericContract.Proofs.Curve.Scale
import NumericContract.Proofs.Decimal.Root

/-!
# Rectangular hyperbolas at the design scale

Where `b` is zero the number under the root is a square and its root is exact: `u` is twice the distance to
the right of the pole, and zero elsewhere. Where `c` is zero too, only a quotient and a sum are rounded on
the way to a payout.
-/

namespace NumericContract

open Decimal PayoutRange Segment

namespace Hyperbola

def pole (h : Hyperbola) : ℚ := h.translateOutcome.value

def asymptote (h : Hyperbola) : ℚ := h.translatePayout.value

def factor (h : Hyperbola) : ℚ := h.a.value * h.d.value

/-- The payout of a rectangular hyperbola right of its pole, without rounding. -/
def exact (h : Hyperbola) (x : ℤ) : ℚ := h.factor / (x - h.pole) + h.asymptote

/-- The place of a payout, on the left branch or the right one. -/
def root (h : Hyperbola) (y : ℚ) : ℚ := h.pole + h.factor / (y - h.asymptote)

structure AtScale (h : Hyperbola) : Prop where
  rectangular : h.isRectangular = true
  a : NumericContract.AtScale h.a.value
  d : NumericContract.AtScale h.d.value
  pole : NumericContract.AtScale h.pole
  asymptote : NumericContract.AtScale h.asymptote

variable {h : Hyperbola} {ctx : Context} {x : ℤ}

namespace Scaled

theorem a (hs : h.Scaled) : NumericContract.AtScale h.a.value := hs ("a", h.a) (by simp [coefficients])

theorem b (hs : h.Scaled) : NumericContract.AtScale h.b.value := hs ("b", h.b) (by simp [coefficients])

theorem c (hs : h.Scaled) : NumericContract.AtScale h.c.value := hs ("c", h.c) (by simp [coefficients])

theorem d (hs : h.Scaled) : NumericContract.AtScale h.d.value := hs ("d", h.d) (by simp [coefficients])

theorem pole (hs : h.Scaled) : NumericContract.AtScale h.pole :=
  hs ("translate_outcome", h.translateOutcome) (by simp [coefficients])

theorem asymptote (hs : h.Scaled) : NumericContract.AtScale h.asymptote :=
  hs ("translate_payout", h.translatePayout) (by simp [coefficients])

theorem factor_onGrid (hs : h.Scaled) : OnGrid 32 h.factor := hs.a.onGrid.mul hs.d.onGrid

theorem abs_factor_le (hs : h.Scaled) : |h.factor| ≤ 10 ^ 36 := by
  rw [factor, abs_mul]
  exact (mul_le_mul hs.a.abs_lt.le hs.d.abs_lt.le (abs_nonneg _) (by norm_num)).trans (by norm_num)

theorem distance_onGrid (hs : h.Scaled) (x : ℤ) : OnGrid 16 (x - h.pole) :=
  (OnGrid.intCast 16 x).sub hs.pole.onGrid

theorem abs_distance_le_add (hs : h.Scaled) {q : ℚ} (x : ℤ) (hx : |(x : ℚ)| ≤ q) :
    |x - h.pole| ≤ q + 10 ^ 18 :=
  (abs_sub _ _).trans (add_le_add hx hs.pole.abs_lt.le)

theorem abs_distance_le (hs : h.Scaled) (h0 : 0 ≤ x) (h1 : x < 10 ^ 18) : |x - h.pole| ≤ 2 * 10 ^ 18 := by
  have hx : |(x : ℚ)| ≤ 10 ^ 18 := by
    rw [abs_of_nonneg (by exact_mod_cast h0)]
    exact_mod_cast h1.le
  exact (hs.abs_distance_le_add x hx).trans_eq (by norm_num)

theorem le_distance (hs : h.Scaled) (hx : h.pole < x) : 1 / 10 ^ 16 ≤ (x : ℚ) - h.pole := by
  have hle := (hs.distance_onGrid x).le_abs (sub_ne_zero.mpr hx.ne')
  rwa [abs_of_pos (sub_pos.mpr hx)] at hle

end Scaled

namespace AtScale

theorem b_eq (ha : h.AtScale) : h.b.value = 0 := by
  have := ha.rectangular
  simp only [isRectangular, Bool.and_eq_true] at this
  exact (Finite.isZero_iff _).mp this.1

theorem c_eq (ha : h.AtScale) : h.c.value = 0 := by
  have := ha.rectangular
  simp only [isRectangular, Bool.and_eq_true] at this
  exact (Finite.isZero_iff _).mp this.2

theorem c_isZero (ha : h.AtScale) : h.c.isZero = true := (Finite.isZero_iff _).mpr ha.c_eq

theorem scaled (ha : h.AtScale) : h.Scaled := by
  have hzero : NumericContract.AtScale 0 := ⟨0, by norm_num, by norm_num⟩
  intro c hc
  simp only [coefficients, List.mem_cons, List.not_mem_nil, or_false] at hc
  rcases hc with rfl | rfl | rfl | rfl | rfl | rfl
  · exact ha.a
  · exact ha.b_eq ▸ hzero
  · exact ha.c_eq ▸ hzero
  · exact ha.d
  · exact ha.pole
  · exact ha.asymptote

theorem factor_onGrid (ha : h.AtScale) : OnGrid 32 h.factor := ha.scaled.factor_onGrid

theorem abs_factor_le (ha : h.AtScale) : |h.factor| ≤ 10 ^ 36 := ha.scaled.abs_factor_le

theorem le_distance (ha : h.AtScale) (hx : h.pole < x) : 1 / 10 ^ 16 ≤ (x : ℚ) - h.pole :=
  ha.scaled.le_distance hx

end AtScale

theorem firstAfterPole_eq (h : Hyperbola) : h.firstAfterPole = ⌊h.pole⌋ + 1 := by
  rw [firstAfterPole, Finite.floor_eq]
  rfl

theorem firstAfterPole_le_iff : h.firstAfterPole ≤ x ↔ h.pole < x := by
  rw [firstAfterPole_eq, Int.add_one_le_iff, Int.floor_lt]

def firstRightOf (h : Hyperbola) (lower upper : ℤ) : Option ℤ :=
  if max lower h.firstAfterPole ≤ upper then some (max lower h.firstAfterPole) else none

theorem firstDefined_eq (hb : h.b.isZero = true) (ctx : Context) (lower upper steps : ℤ) :
    (Curve.hyperbola h).firstDefined ctx lower upper steps = .ok (h.firstRightOf lower upper) := by
  simp only [Curve.firstDefined, hb, if_true]
  rfl

/-! ## Payouts -/

theorem product_of_zero {y z : Decimal.Finite} (ctx : Context) (x : Decimal.Finite) (hz : z.value = 0)
    (hxy : |x.value * y.value| ≤ 10 ^ 200) :
    ∃ p, Finite.product ctx x [y, z] = .ok p ∧ p.value = 0 := by
  obtain ⟨p, hp, -⟩ := (Finite.mul_computes ctx x y).exists_rounds hxy
  have hmul := Finite.mul_computes ctx p z
  rw [hz, mul_zero] at hmul
  obtain ⟨r, hr, hrv⟩ := hmul.exact (Context.Representable.zero ctx) (by norm_num)
  exact ⟨r, bind_eq_ok.mpr ⟨p, hp, bind_eq_ok.mpr ⟨r, hr, rfl⟩⟩, hrv⟩

theorem radical?_eq (hs : h.Scaled) (hb : h.b.value = 0) (ctx : Context) (hx : |x| ≤ 10 ^ 60) :
    ∃ discriminant root u : Decimal.Finite, h.radical? ctx.widened x = .ok (some u) ∧
      ctx.widened.Rounds ((x - h.pole) * (x - h.pole)) discriminant.value ∧
      ctx.widened.IsRoot discriminant.value root.value ∧
      ctx.widened.Rounds (x - h.pole + root.value) u.value := by
  have hx' : |(x : ℚ)| ≤ 10 ^ 60 := by exact_mod_cast hx
  have hd := hs.abs_distance_le_add x hx'
  have hsub := Finite.sub_computes ctx.widened (.ofInt x) h.translateOutcome
  rw [Finite.value_ofInt] at hsub
  obtain ⟨shifted, hshifted, hsv⟩ := hsub.exact ((hs.distance_onGrid x).representable ctx (by norm_num)
    (lt_of_le_of_lt (mul_le_mul_of_nonneg_right hd (by norm_num)) (by norm_num)))
    (hd.trans (by norm_num))
  have hsv : shifted.value = x - h.pole := hsv
  have hsq : |(x - h.pole) * (x - h.pole)| ≤ 10 ^ 122 := by
    rw [abs_mul]
    exact (mul_le_mul hd hd (abs_nonneg _) (by norm_num)).trans (by norm_num)
  have hmul := Finite.mul_computes ctx.widened shifted shifted
  rw [hsv] at hmul
  obtain ⟨square, hq, hqr⟩ := hmul.exists_rounds (hsq.trans (by norm_num))
  obtain ⟨p, hp, hpv⟩ := product_of_zero ctx.widened (.ofInt 4) (y := h.a) hb (by
    have := hs.a.abs_lt
    rw [Finite.value_ofInt, abs_mul]
    norm_num
    linarith)
  have hq2 := hqr.abs_le_two_mul
  have hdisc := Finite.sub_computes ctx.widened square p
  rw [hpv, sub_zero] at hdisc
  obtain ⟨discriminant, hdi, hdiv⟩ := hdisc.exact hqr.representable (by linarith)
  have hnonneg : 0 ≤ discriminant.value := by
    rw [hdiv]
    exact hqr.nonneg (mul_self_nonneg _)
  rw [← hdiv] at hqr hq2
  rw [abs_of_nonneg hnonneg] at hq2
  obtain ⟨root, hr, hr0, hrsq⟩ := Finite.sqrt_succeeds ctx.widened hnonneg (by linarith)
  have hrb : root.value ≤ 10 ^ 70 := by
    by_contra hlt
    rw [not_le] at hlt
    have := mul_self_le_mul_self (by norm_num) hlt.le
    linarith
  have hadd := Finite.add_computes ctx.widened shifted root
  rw [hsv] at hadd
  obtain ⟨u, hu, hur⟩ := hadd.exists_rounds ((abs_add_le _ _).trans (by
    rw [abs_of_nonneg hr0]
    linarith))
  refine ⟨discriminant, root, u, ?_, hqr, Finite.sqrt_isRoot hnonneg hr, hur⟩
  have hneg : discriminant.isNegative = false := by
    cases hn : discriminant.isNegative with
    | false => rfl
    | true => exact absurd ((Finite.isNegative_iff _).mp hn) (not_lt.mpr hnonneg)
  refine bind_eq_ok.mpr ⟨shifted, hshifted, bind_eq_ok.mpr ⟨square, hq, bind_eq_ok.mpr ⟨p, hp,
    bind_eq_ok.mpr ⟨discriminant, hdi, ?_⟩⟩⟩⟩
  rw [hneg]
  exact bind_eq_ok.mpr ⟨root, hr, bind_eq_ok.mpr ⟨u, hu, rfl⟩⟩

/-- Near the pole `u` is exact: it is twice the distance to the right of the pole, and zero elsewhere. -/
theorem radical?_exact (hs : h.Scaled) (hb : h.b.value = 0) (ctx : Context) (hx : |x - h.pole| ≤ 2 * 10 ^ 18) :
    ∃ u : Decimal.Finite, h.radical? ctx.widened x = .ok (some u) ∧
      u.value = x - h.pole + |x - h.pole| := by
  have hgrid := hs.distance_onGrid x
  have hxb : |x| ≤ 10 ^ 60 := by
    have h1 := abs_add_le (x - h.pole) h.pole
    have h2 := hs.pole.abs_lt
    rw [sub_add_cancel] at h1
    have : |(x : ℚ)| ≤ 10 ^ 60 := by linarith
    exact_mod_cast this
  obtain ⟨discriminant, root, u, hu, hdr, hroot, hur⟩ := radical?_eq hs hb ctx hxb
  have hsq : |(x - h.pole) * (x - h.pole)| ≤ 4 * 10 ^ 36 := by
    rw [abs_mul]
    exact (mul_le_mul hx hx (abs_nonneg _) (by norm_num)).trans (by norm_num)
  have hdv := hdr.eq_self ((hgrid.mul hgrid).representable ctx (by norm_num)
    (lt_of_le_of_lt (mul_le_mul_of_nonneg_right hsq (by norm_num)) (by norm_num)))
  rw [← abs_mul_abs_self] at hdv
  have hdistance := hgrid.abs.representable ctx (by norm_num) (by rw [abs_abs]; linarith)
  rw [hroot.eq_of_sq hdistance (abs_nonneg _) hdv] at hur
  refine ⟨u, hu, hur.eq_self ((hgrid.add hgrid.abs).representable ctx (by norm_num) ?_)⟩
  have := abs_add_le (x - h.pole) |x - h.pole|
  rw [abs_abs] at this
  linarith

theorem exists_twice (hs : h.Scaled) (ctx : Context) :
    ∃ twice product : Decimal.Finite, (Decimal.Finite.ofInt 2).mul ctx.widened h.a = .ok twice ∧
      twice.value = 2 * h.a.value ∧ twice.mul ctx.widened h.d = .ok product ∧ product.value = 2 * h.factor := by
  have hA := hs.a.abs_lt
  have hK := hs.abs_factor_le
  have h2 : (Decimal.Finite.ofInt 2).value = 2 := Finite.value_ofInt 2
  have hmul := Finite.mul_computes ctx.widened (.ofInt 2) h.a
  rw [h2] at hmul
  have h2a : |2 * h.a.value| ≤ 2 * 10 ^ 18 := by
    rw [abs_mul]
    norm_num
    linarith
  obtain ⟨twice, ht, htv⟩ := hmul.exact (((OnGrid.intCast 0 2).mul hs.a.onGrid).representable ctx
    (by norm_num) (lt_of_le_of_lt (mul_le_mul_of_nonneg_right h2a (by norm_num)) (by norm_num)))
    (h2a.trans (by norm_num))
  have hprod := Finite.mul_computes ctx.widened twice h.d
  rw [htv, mul_assoc] at hprod
  have h2K : |2 * h.factor| ≤ 2 * 10 ^ 36 := by
    rw [abs_mul]
    norm_num
    linarith
  obtain ⟨product, hp, hpv⟩ := hprod.exact (((OnGrid.intCast 0 2).mul hs.factor_onGrid).representable ctx
    (by norm_num) (lt_of_le_of_lt (mul_le_mul_of_nonneg_right h2K (by norm_num)) (by norm_num)))
    (h2K.trans (by norm_num))
  exact ⟨twice, product, ht, htv, hp, hpv⟩

theorem a_value_ne_zero (h : Hyperbola) : h.a.value ≠ 0 := (Finite.isZero_eq_false_iff h.a).mp h.a_ne_zero

/-- The numbers met on the way to the payout at a given `u` that is not small. -/
theorem payoutAt_rounds (hs : h.Scaled) (ctx : Context) {u : Decimal.Finite} (hu : 1 / 10 ^ 16 ≤ u.value)
    (hcu : |h.c.value * u.value| ≤ 10 ^ 100) :
    ∃ cu linear inverse sum z : Decimal.Finite, h.payoutAt ctx.widened u = .ok (.finite z) ∧
      ctx.widened.Rounds (h.c.value * u.value) cu.value ∧
      ctx.widened.Rounds (cu.value / (2 * h.a.value)) linear.value ∧
      ctx.widened.Rounds (2 * h.factor / u.value) inverse.value ∧
      ctx.widened.Rounds (linear.value + inverse.value) sum.value ∧
      ctx.widened.Rounds (sum.value + h.asymptote) z.value := by
  have hpos : 0 < u.value := lt_of_lt_of_le (by norm_num) hu
  have huz : u.isZero = false := (Finite.isZero_eq_false_iff u).mpr hpos.ne'
  have hK := hs.abs_factor_le
  have hF : |h.translatePayout.value| < 10 ^ 18 := hs.asymptote.abs_lt
  have hane := h.a_value_ne_zero
  have hage := hs.a.onGrid.le_abs hane
  obtain ⟨twice, product, ht, htv, hp, hpv⟩ := exists_twice hs ctx
  have htz : twice.isZero = false := by
    rw [Finite.isZero_eq_false_iff, htv]
    exact mul_ne_zero two_ne_zero hane
  obtain ⟨cu, hcue, hcur⟩ := (Finite.mul_computes ctx.widened h.c u).exists_rounds
    (hcu.trans (by norm_num))
  have hcub := hcur.abs_le_two_mul
  have hlinear : |cu.value / (2 * h.a.value)| ≤ 10 ^ 120 := by
    rw [abs_div, abs_mul, abs_of_pos (show (0 : ℚ) < 2 by norm_num), div_le_iff₀ (by linarith)]
    linarith
  have hdiv := Finite.div_computes ctx.widened cu htz
  rw [htv] at hdiv
  obtain ⟨linear, hl, hlr⟩ := hdiv.exists_rounds (hlinear.trans (by norm_num))
  have hlb := hlr.abs_le_two_mul
  have hquot : |2 * h.factor / u.value| ≤ 2 * 10 ^ 52 := by
    rw [abs_div, abs_of_pos hpos, div_le_iff₀ hpos, abs_mul, abs_of_pos (show (0 : ℚ) < 2 by norm_num)]
    linarith
  have hdiv' := Finite.div_computes ctx.widened product huz
  rw [hpv] at hdiv'
  obtain ⟨inverse, hi, hir⟩ := hdiv'.exists_rounds (hquot.trans (by norm_num))
  have hib := hir.abs_le_two_mul
  obtain ⟨sum, hsum, hsr⟩ := (Finite.add_computes ctx.widened linear inverse).exists_rounds
    ((abs_add_le _ _).trans (by linarith))
  have hsb := hsr.abs_le_two_mul
  have habs := abs_add_le linear.value inverse.value
  obtain ⟨z, hz, hzr⟩ := (Finite.add_computes ctx.widened sum h.translatePayout).exists_rounds
    ((abs_add_le _ _).trans (by linarith))
  refine ⟨cu, linear, inverse, sum, z, ?_, hcur, hlr, hir, hsr, hzr⟩
  unfold payoutAt
  rw [huz]
  refine bind_eq_ok.mpr ⟨cu, hcue, bind_eq_ok.mpr ⟨twice, ht, bind_eq_ok.mpr ⟨linear, hl,
    bind_eq_ok.mpr ⟨product, ?_, bind_eq_ok.mpr ⟨inverse, hi, bind_eq_ok.mpr ⟨sum, hsum,
      bind_eq_ok.mpr ⟨z, hz, rfl⟩⟩⟩⟩⟩⟩⟩
  exact bind_eq_ok.mpr ⟨twice, ht, bind_eq_ok.mpr ⟨product, hp, rfl⟩⟩

/-- Where `c` is zero the linear part is too, and the inverse part is the rounded quotient of an exact
product. -/
theorem payoutAt_eq (ha : h.AtScale) (ctx : Context) {u : Decimal.Finite} (hu : 1 / 10 ^ 16 ≤ u.value) :
    ∃ inverse z : Decimal.Finite, h.payoutAt ctx.widened u = .ok (.finite z) ∧
      ctx.widened.Rounds (2 * h.factor / u.value) inverse.value ∧
      ctx.widened.Rounds (inverse.value + h.asymptote) z.value := by
  have hzero := Context.Representable.zero ctx.widened
  obtain ⟨cu, linear, inverse, sum, z, hz, hcur, hlr, hir, hsr, hzr⟩ := payoutAt_rounds ha.scaled ctx hu (by
    rw [ha.c_eq, zero_mul, abs_zero]
    norm_num)
  rw [ha.c_eq, zero_mul] at hcur
  rw [hcur.eq_self hzero, zero_div] at hlr
  rw [hlr.eq_self hzero, zero_add] at hsr
  rw [hsr.eq_self hir.representable] at hzr
  exact ⟨inverse, z, hz, hir, hzr⟩

theorem evaluate_left (ha : h.AtScale) (hK : h.factor ≠ 0) (ctx : Context) (h0 : 0 ≤ x)
    (hx : (x : ℚ) ≤ h.pole) : h.evaluate ctx x = .ok (.infinity (decide (h.factor < 0))) := by
  have h0' : (0 : ℚ) ≤ x := by exact_mod_cast h0
  have hpole := abs_lt.mp ha.pole.abs_lt
  have habs : |x - h.pole| = h.pole - x := by rw [abs_of_nonpos (by linarith), neg_sub]
  obtain ⟨u, hu, huv⟩ := radical?_exact ha.scaled ha.b_eq ctx (x := x) (by rw [habs]; linarith)
  have huz : u.isZero = true := by
    rw [Finite.isZero_iff, huv, habs]
    ring
  have hK' := ha.abs_factor_le
  obtain ⟨numerator, hn, hnv⟩ := (Finite.mul_computes ctx.widened h.a h.d).exact
    (ha.factor_onGrid.representable ctx (by norm_num)
      (lt_of_le_of_lt (mul_le_mul_of_nonneg_right hK' (by norm_num)) (by norm_num)))
    (hK'.trans (by norm_num))
  have hnv : numerator.value = h.factor := hnv
  have hnz : numerator.isZero = false := by rwa [Finite.isZero_eq_false_iff, hnv]
  have hsign : numerator.isNegative = decide (h.factor < 0) := by
    rw [Bool.eq_iff_iff, Finite.isNegative_iff, hnv, decide_eq_true_eq]
  refine bind_eq_ok.mpr ⟨some u, hu, ?_⟩
  dsimp only
  unfold payoutAt
  rw [huz]
  refine bind_eq_ok.mpr ⟨numerator, hn, ?_⟩
  rw [hnz, hsign]
  rfl

/-- Right of the pole the payout is finite, and near to it `u` is exact. -/
theorem evaluate_right (ha : h.AtScale) (ctx : Context) (hx : h.pole < x) (hxb : |x| ≤ 10 ^ 60) :
    ∃ u inverse z : Decimal.Finite, h.evaluate ctx x = .ok (.finite z) ∧
      (x - h.pole ≤ 2 * 10 ^ 18 → u.value = 2 * (x - h.pole)) ∧
      ctx.widened.Rounds (2 * h.factor / u.value) inverse.value ∧
      ctx.widened.Rounds (inverse.value + h.asymptote) z.value := by
  have hd := ha.le_distance hx
  have hd0 : 0 < (x : ℚ) - h.pole := by linarith
  have hxb' : |(x : ℚ)| ≤ 10 ^ 60 := by exact_mod_cast hxb
  have hdb := ha.scaled.abs_distance_le_add x hxb'
  obtain ⟨discriminant, root, u, hu, -, hroot, hur⟩ := radical?_eq ha.scaled ha.b_eq ctx hxb
  have hle : (x : ℚ) - h.pole ≤ u.value := by
    refine hur.ge_of_ge ((ha.scaled.distance_onGrid x).representable ctx (by norm_num) ?_)
      (by linarith [hroot.nonneg])
    exact lt_of_le_of_lt (mul_le_mul_of_nonneg_right hdb (by norm_num)) (by norm_num)
  obtain ⟨inverse, z, hz, hir, hzr⟩ := payoutAt_eq ha ctx (hd.trans hle)
  refine ⟨u, inverse, z, bind_eq_ok.mpr ⟨some u, hu, hz⟩, fun hnear => ?_, hir, hzr⟩
  obtain ⟨u', hu', huv⟩ := radical?_exact ha.scaled ha.b_eq ctx (x := x) (by rwa [abs_of_pos hd0])
  rw [hu] at hu'
  cases hu'
  rw [huv, abs_of_pos hd0]
  ring

/-- A payout exists at every outcome, though left of the pole it is not finite. -/
theorem evaluate_succeeds (ha : h.AtScale) (hK : h.factor ≠ 0) (ctx : Context) (h0 : 0 ≤ x)
    (hx : x ≤ 10 ^ 60) : ∃ value, h.evaluate ctx x = .ok value ∧ value.isNaN = false := by
  rcases le_or_gt (x : ℚ) h.pole with hle | hgt
  · exact ⟨_, evaluate_left ha hK ctx h0 hle, rfl⟩
  · obtain ⟨-, -, z, hz, -⟩ := evaluate_right ha ctx hgt (by rwa [abs_of_nonneg h0])
    exact ⟨.finite z, hz, rfl⟩

/-- A payout that is no half of an integer is a fair distance away from every one. -/
theorem gap_of_ne (ha : h.AtScale) (hpole : h.pole < x) {j : ℤ} (hne : h.exact x ≠ j / 2) :
    1 / 10 ^ 32 / (x - h.pole) ≤ |h.exact x - j / 2| := by
  have ht : 0 < (x : ℚ) - h.pole := sub_pos.mpr hpole
  have hmul : |(h.exact x - j / 2) * (x - h.pole)| = |h.exact x - j / 2| * (x - h.pole) := by
    rw [abs_mul, abs_of_pos ht]
  have hhalf : OnGrid 16 ((j : ℚ) / 2) := ⟨5 * 10 ^ 15 * j, by push_cast; ring⟩
  have hform : (h.exact x - j / 2) * (x - h.pole) = h.factor + (h.asymptote - j / 2) * (x - h.pole) := by
    rw [exact]
    field_simp
    ring
  rw [div_le_iff₀ ht, ← hmul]
  refine OnGrid.le_abs (j := 32) ?_ (mul_ne_zero (sub_ne_zero.mpr hne) ht.ne')
  rw [hform]
  exact ha.factor_onGrid.add ((ha.asymptote.onGrid.sub hhalf).mul (ha.scaled.distance_onGrid x))

theorem evaluate_sharp (ha : h.AtScale) (ctx : Context) (hpole : h.pole < x) (h0 : 0 ≤ x)
    (h1 : x ≤ 10 ^ 18) :
    ∃ z : Decimal.Finite, h.evaluate ctx x = .ok (.finite z) ∧ Sharp z.value (h.exact x) ∧
      |z.value - h.exact x| * (x - h.pole) ≤ 1 / 10 ^ 40 ∧ |z.value| ≤ 10 ^ 70 := by
  have h0' : (0 : ℚ) ≤ x := by exact_mod_cast h0
  have h1' : (x : ℚ) ≤ 10 ^ 18 := by exact_mod_cast h1
  have hp := abs_lt.mp ha.pole.abs_lt
  have hd := ha.le_distance hpole
  obtain ⟨u, inverse, z, hz, hu, hir, hzr⟩ := evaluate_right ha ctx hpole (by
    rw [abs_of_nonneg h0]
    omega)
  rw [hu (by linarith), mul_div_mul_left _ _ (two_ne_zero)] at hir
  have hsum : QuotientSum ctx _ _ inverse.value z.value := ⟨ha.asymptote, hir, hzr⟩
  have herr := hsum.error
  have hsize := hsum.abs_le
  have hsharp := hsum.sharp (1 / 10 ^ 32 / (x - h.pole))
  have ht : 0 < (x : ℚ) - h.pole := sub_pos.mpr hpole
  have hK := ha.abs_factor_le
  have hquot : |h.factor / (x - h.pole)| * (x - h.pole) ≤ 10 ^ 36 := by
    rw [abs_div, abs_of_pos ht, div_mul_cancel₀ _ ht.ne']
    exact hK
  have herr' : |z.value - h.exact x| * (x - h.pole) ≤ 1 / 10 ^ 40 := by
    refine (mul_le_mul_of_nonneg_right herr ht.le).trans ?_
    linarith
  refine ⟨z, hz, hsharp ?_ fun j => gap_of_ne ha hpole, herr', ?_⟩
  · rw [lt_div_iff₀ ht]
    exact lt_of_le_of_lt herr' (by norm_num)
  · have : |h.factor / (x - h.pole)| ≤ 10 ^ 52 := by
      rw [abs_div, abs_of_pos ht, div_le_iff₀ ht]
      linarith
    linarith

end Hyperbola

end NumericContract
