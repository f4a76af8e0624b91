import NumericContract.Proofs.Curve.Line
import NumericContract.Proofs.Curve.RectangularInverse
import NumericContract.Proofs.Curve.Totality

/-!
# Inverses of computed payouts

What is lost in the computation of a payout is far less than what the curve gains over an outcome, so
that the place of the computed payout is next to the outcome. The inverse is computed with an error of
its own, which is as small, and is brought back to that outcome. The two computations need not have the
same precision.
-/

namespace NumericContract

open Decimal

variable {x : ℤ}

theorem nearestOutcome?_of_near {x' : Decimal.Finite} (h0 : 0 ≤ x) (h : |x'.value - x| ≤ 1 / 4) :
    (finite x').nearestOutcome? = some x := by
  have h0' : (0 : ℚ) ≤ x := by exact_mod_cast h0
  have h := abs_le.mp h
  rw [nearestOutcome?_finite, if_pos (by linarith), Option.some.injEq, Int.floor_eq_iff]
  constructor <;> linarith

namespace Line.Parts

variable {l : Line} (p : l.Parts)

theorem gain_ne_zero (h : l.left.payout.number ≠ l.right.payout.number) : p.gain ≠ 0 := by
  intro hg
  apply h
  rw [p.left_eq, p.right_eq, number, number, p.base_eq, p.other_eq, hg, Int.cast_zero, add_zero]

/-- However small the slope is, a nearly exact payout has its place next to the outcome. -/
theorem abs_root_sub_le_of_near (hg : p.gain ≠ 0) {y : ℚ} (hy : |y - l.exact x| ≤ 1 / 10 ^ 38) :
    |p.root y - x| ≤ 1 / 10 ^ 4 := by
  have hslope := p.abs_slope_ge hg
  have hform : |p.slope| * |p.root y - x| = |y - l.exact x| := by
    rw [abs_sub_comm y, p.exact_sub hg, abs_mul, abs_sub_comm]
  have hle := mul_le_mul_of_nonneg_right hslope (abs_nonneg (p.root y - x))
  linarith

/-- On a line that is not flat a computed payout leads back to its outcome. -/
theorem invert_computed (hg : p.gain ≠ 0) (ctx ctx' : Context) (h0 : 0 ≤ x) (h1 : x ≤ 10 ^ 18) :
    ∃ z : Decimal.Finite, l.evaluate ctx x = .ok (.finite z) ∧
      l.invert ctx' (.finite z) = .ok (some x) := by
  obtain ⟨z, hz, -, herr, -⟩ := p.evaluate_sharp ctx h0 h1
  have hroot := p.abs_root_sub_le_of_near hg herr
  have hx : |(x : ℚ)| ≤ 10 ^ 18 := by
    rw [abs_of_nonneg (by exact_mod_cast h0)]
    exact_mod_cast h1
  -- what the inverse adds to the left outcome stays small, however flat the line is
  have hdist : |(z.value - p.units / 10 ^ 16) * (p.run / (p.gain / 10 ^ 16))| ≤ 10 ^ 54 := by
    have hform : (z.value - p.units / 10 ^ 16) * (p.run / (p.gain / 10 ^ 16)) =
        (p.root z.value - x) + (x - l.left.outcome) := by
      rw [root, mul_div_assoc]
      ring
    rw [hform]
    have hsum := abs_add_le (p.root z.value - x) (x - l.left.outcome)
    have hdiff := abs_sub (x : ℚ) l.left.outcome
    have hleft := p.abs_left_le
    linarith
  obtain ⟨x', hx', hxerr, -⟩ := p.invert_near hg ctx' hdist
  refine ⟨z, hz, hx'.trans (congrArg Except.ok (nearestOutcome?_of_near h0 ?_))⟩
  have hsum := abs_sub_le x'.value (p.root z.value) x
  linarith

end Line.Parts

namespace Hyperbola

variable {h : Hyperbola}

theorem root_sub_mul (hpole : h.pole < x) {y : ℚ} (hy : h.asymptote - y ≠ 0) :
    (h.root y - x) * (h.asymptote - y) = (y - h.exact x) * (x - h.pole) := by
  have ht : (x : ℚ) - h.pole ≠ 0 := sub_ne_zero.mpr hpole.ne'
  rw [sub_mul, h.root_mul hy, exact]
  field_simp
  ring

/-- A nearly exact payout is neither extremely close to the asymptote nor extremely far from it. -/
theorem AtScale.gap_bounds (ha : h.AtScale) (hK : 1 ≤ |h.factor|) (hpole : h.pole < x)
    (h1 : x ≤ 10 ^ 18) {y : ℚ} (hy : |y - h.exact x| * (x - h.pole) ≤ 1 / 10 ^ 40) :
    1 / (4 * 10 ^ 18) ≤ |h.asymptote - y| ∧ |h.asymptote - y| ≤ 10 ^ 60 := by
  have hd := ha.le_distance hpole
  have hdb : (x : ℚ) - h.pole ≤ 2 * 10 ^ 18 := by
    have hx : (x : ℚ) ≤ 10 ^ 18 := by exact_mod_cast h1
    have hp := abs_lt.mp ha.pole.abs_lt
    linarith
  have hexact : (h.exact x - h.asymptote) * (x - h.pole) = h.factor := by
    rw [exact, add_sub_cancel_right, div_mul_cancel₀ _ (sub_pos.mpr hpole).ne']
  have hKb := ha.abs_factor_le
  generalize (x : ℚ) - h.pole = t at *
  have ht : 0 < t := lt_of_lt_of_le (by norm_num) hd
  have hsum : |(h.asymptote - y) * t + h.factor| ≤ 1 / 10 ^ 40 := by
    rw [← hexact, ← add_mul, abs_mul, abs_of_pos ht, add_comm, sub_add_sub_cancel, abs_sub_comm]
    exact hy
  have hlow := abs_sub ((h.asymptote - y) * t + h.factor) ((h.asymptote - y) * t)
  have hhigh := abs_sub ((h.asymptote - y) * t + h.factor) h.factor
  rw [add_sub_cancel_left] at hlow
  rw [add_sub_cancel_right] at hhigh
  rw [abs_mul, abs_of_pos ht] at hlow hhigh
  have hle := mul_le_mul_of_nonneg_left hdb (abs_nonneg (h.asymptote - y))
  have hge := mul_le_mul_of_nonneg_left hd (abs_nonneg (h.asymptote - y))
  constructor <;> linarith

/-- Right of the pole of a rectangular hyperbola a computed payout leads back to its outcome. -/
theorem AtScale.invert_computed (ha : h.AtScale) (hK : 1 ≤ |h.factor|) (ctx ctx' : Context)
    (hpole : h.pole < x) (h0 : 0 ≤ x) (h1 : x ≤ 10 ^ 18) :
    ∃ z : Decimal.Finite, h.evaluate ctx x = .ok (.finite z) ∧
      h.invert ctx' (.finite z) = .ok (some x) := by
  obtain ⟨z, hz, -, herr, -⟩ := evaluate_sharp ha ctx hpole h0 h1
  obtain ⟨hlow, hhigh⟩ := ha.gap_bounds hK hpole h1 herr
  have hg0 : 0 < |h.asymptote - z.value| := lt_of_lt_of_le (by norm_num) hlow
  have hK0 : h.factor ≠ 0 := abs_pos.mp (lt_of_lt_of_le one_pos hK)
  obtain ⟨x', hx', hxerr⟩ := invert_close ha ctx' hK0 (y := z) (by linarith) hhigh
  -- both errors are known only as products with the distance from the asymptote, which is not tiny
  have hroot : |h.root z.value - x| * |h.asymptote - z.value| ≤ 1 / 10 ^ 40 := by
    rw [← abs_mul, root_sub_mul hpole (abs_pos.mp hg0), abs_mul, abs_of_pos (sub_pos.mpr hpole)]
    exact herr
  refine ⟨z, hz, hx'.trans (congrArg Except.ok (nearestOutcome?_of_near h0 ?_))⟩
  have hsum := mul_le_mul_of_nonneg_right (abs_sub_le x'.value (h.root z.value) x) hg0.le
  rw [add_mul] at hsum
  apply le_of_mul_le_mul_right _ hg0
  linarith

end Hyperbola

namespace Curve

/-- A curve of the design scale and an outcome that its payout tells: on a line any, unless the line is
flat, and on a rectangular hyperbola any right of the pole, unless `ad` is smaller than one. -/
def InvertibleAt (x : ℤ) : Curve → Prop
  | .line l => l.AtScale ∧ l.left.payout.number ≠ l.right.payout.number
  | .hyperbola h => h.AtScale ∧ 1 ≤ |h.factor| ∧ h.pole < x

/-- A computed payout leads back to its outcome, whatever the precisions of the two computations are. -/
theorem invert_evaluate {curve : Curve} (hcurve : curve.InvertibleAt x) (h0 : 0 ≤ x)
    (h1 : x < 10 ^ 18) (ctx ctx' : Context) :
    ∃ payout, curve.evaluate ctx x = .ok payout ∧ payout.isFinite = true ∧
      curve.invert ctx' payout = .ok (some x) := by
  cases curve with
  | line l =>
      obtain ⟨hl, hne⟩ := hcurve
      obtain ⟨p⟩ := hl.parts
      obtain ⟨z, hz, hinv⟩ := p.invert_computed (p.gain_ne_zero hne) ctx ctx' h0 h1.le
      exact ⟨.finite z, hz, rfl, Failure.ofArithmetic_eq_ok.mpr hinv⟩
  | hyperbola h =>
      obtain ⟨ha, hK, hpole⟩ := hcurve
      obtain ⟨z, hz, hinv⟩ := ha.invert_computed hK ctx ctx' hpole h0 h1.le
      exact ⟨.finite z, hz, rfl, hinv⟩

def thirds : Line := ⟨⟨0, .ofInt 1⟩, ⟨3, .ofInt 0⟩, by decide⟩

theorem invertibleAt_thirds (x : ℤ) : (line thirds).InvertibleAt x := by
  refine ⟨⟨by decide, by decide, ⟨rfl, ?_⟩, ⟨rfl, ?_⟩⟩, ?_⟩
  · exact atScale_value (by decide) (by decide) (by decide)
  · exact atScale_value (by decide) (by decide) (by decide)
  · norm_num [thirds, number, ofInt, Finite.value_ofInt]

theorem invertibleAt_reciprocal (h : 0 < x) : (hyperbola reciprocal).InvertibleAt x := by
  have hone : (Finite.ofInt 1).value = 1 := by exact_mod_cast Finite.value_ofInt 1
  have hpole : reciprocal.pole = 0 := by exact_mod_cast Finite.value_ofInt 0
  refine ⟨⟨by decide, ?_, ?_, ?_, ?_⟩, ?_, ?_⟩
  iterate 4 exact atScale_value (by decide) (by decide) (by decide)
  · norm_num [Hyperbola.factor, reciprocal, hone]
  · rw [hpole]
    exact_mod_cast h

/-- Neither two thirds nor one third is a payout that can be computed exactly. -/
theorem invert_evaluate_inexact :
    (∃ payout, (line thirds).evaluate .standard 1 = .ok payout ∧ payout.isFinite = true ∧
      (line thirds).invert .standard payout = .ok (some 1)) ∧
    ∃ payout, (hyperbola reciprocal).evaluate .standard 3 = .ok payout ∧ payout.isFinite = true ∧
      (hyperbola reciprocal).invert .standard payout = .ok (some 3) :=
  ⟨invert_evaluate (invertibleAt_thirds 1) (by decide) (by decide) _ _,
    invert_evaluate (invertibleAt_reciprocal (by decide)) (by decide) (by decide) _ _⟩

end Curve

end NumericContract
