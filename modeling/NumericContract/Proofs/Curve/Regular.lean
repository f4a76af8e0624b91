import NumericContract.Proofs.Curve.Radical
import NumericContract.Proofs.Curve.Uninvertible

/-!
# Curves that neither break off nor turn back

A walk relies on payouts that never turn back, from some outcome on and without a gap. The computed
payouts of lines are of this kind, and those of hyperbolas with `c · d ≤ 0` wherever `u` grows, because
every rounded operation on the way keeps the order. Where `0 < a · b` a hyperbola has a gap before its
vertical translation.
-/

namespace NumericContract

open Decimal

def Curve.Stays (ctx : Context) (curve : Curve) (outcomes : Set ℤ) : Prop :=
  ∀ x ∈ outcomes, ∀ y ∈ outcomes, x ≤ y →
    curve.isDefinedAt ctx x = .ok true → curve.isDefinedAt ctx y = .ok true

def Curve.Ordered (ctx : Context) (curve : Curve) (outcomes : Set ℤ) : Prop :=
  ∃ ascending, ∀ x ∈ outcomes, ∀ y ∈ outcomes, x ≤ y → ∀ u v : Finite,
    curve.evaluate ctx x = .ok (.finite u) → curve.evaluate ctx y = .ok (.finite v) →
      Ahead ascending u.value v.value

theorem Curve.isDefinedAt_iff {ctx : Context} {curve : Curve} {x : ℤ} :
    curve.isDefinedAt ctx x = .ok true ↔ ∃ z : Finite, curve.evaluate ctx x = .ok (.finite z) := by
  unfold isDefinedAt
  rw [bind_eq_ok]
  constructor
  · rintro ⟨v, hv, hfinite⟩
    cases v with
    | finite z => exact ⟨z, hv⟩
    | infinity s => cases hfinite
    | nan signaling s payload => cases hfinite
  · rintro ⟨z, hz⟩
    exact ⟨_, hz, rfl⟩

/-! ## Order through operations -/

section order

variable {ctx : Context} {ascending : Bool} {p q v w k d : ℚ}

theorem Ahead.add (h : Ahead ascending p q) (h' : Ahead ascending v w) :
    Ahead ascending (p + v) (q + w) := by
  cases ascending with
  | true => exact add_le_add (show p ≤ q from h) (show v ≤ w from h')
  | false => exact add_le_add (show q ≤ p from h) (show w ≤ v from h')

theorem Decimal.Context.Settles.ahead (h : ctx.Settles p v) (h' : ctx.Settles q w)
    (hahead : Ahead ascending p q) : Ahead ascending v w := by
  cases ascending with
  | true => exact h.mono h' hahead
  | false => exact h'.mono h hahead

theorem Decimal.Context.Settles.mul_div {r r' : ℚ} (hle : p ≤ q) (hv : ctx.Settles (k * p) v)
    (hw : ctx.Settles (k * q) w) (hr : ctx.Settles (v / d) r) (hr' : ctx.Settles (w / d) r') :
    (0 ≤ k * d⁻¹ → Ahead true r r') ∧ (k * d⁻¹ ≤ 0 → Ahead false r r') := by
  rw [div_eq_mul_inv] at hr hr'
  constructor
  · intro hsign
    rcases mul_nonneg_iff.mp hsign with ⟨hk, hd⟩ | ⟨hk, hd⟩
    · have hvw := hv.mono hw (mul_le_mul_of_nonneg_left hle hk)
      exact hr.mono hr' (mul_le_mul_of_nonneg_right hvw hd)
    · have hwv := hw.mono hv (mul_le_mul_of_nonpos_left hle hk)
      exact hr.mono hr' (mul_le_mul_of_nonpos_right hwv hd)
  · intro hsign
    rcases mul_nonpos_iff.mp hsign with ⟨hk, hd⟩ | ⟨hk, hd⟩
    · have hvw := hv.mono hw (mul_le_mul_of_nonneg_left hle hk)
      exact hr'.mono hr (mul_le_mul_of_nonpos_right hvw hd)
    · have hwv := hw.mono hv (mul_le_mul_of_nonpos_left hle hk)
      exact hr'.mono hr (mul_le_mul_of_nonneg_right hwv hd)

end order

variable {ctx : Context} {x y : ℤ}

/-! ## Lines -/

namespace Line

variable {l : Line}

theorem isDefinedAt (hp : ctx.precision ≤ 10000) (hm : l.Moderate) (h0 : 0 ≤ x) (h1 : x < 10 ^ 18) :
    (Curve.line l).isDefinedAt ctx x = .ok true := by
  obtain ⟨_, _, hsteps⟩ := evaluate_steps hp hm
  obtain ⟨_, _, z, -, -, -, -, hz⟩ := hsteps x h0 h1
  exact Curve.isDefinedAt_iff.mpr ⟨z, hz⟩

/-- The payouts of a line are in one order, since each of the three operations keeps one. -/
theorem exists_ascending (hp : ctx.precision ≤ 10000) (hm : l.Moderate) :
    ∃ ascending, ∀ x y, 0 ≤ x → x ≤ y → y < 10 ^ 18 → ∀ u v : Finite,
      l.evaluate ctx x = .ok (.finite u) → l.evaluate ctx y = .ok (.finite v) →
        Ahead ascending u.value v.value := by
  obtain ⟨base, rise, hsteps⟩ := evaluate_steps hp hm
  set run : ℚ := (Finite.ofInt (l.right.outcome - l.left.outcome)).value with hrun
  refine ⟨decide (0 ≤ rise.value * run⁻¹), fun x y h0 hxy h1 u v hu hv => ?_⟩
  obtain ⟨gained, quotient, z, hg, hq, hz, -, hx⟩ := hsteps x h0 (lt_of_le_of_lt hxy h1)
  obtain ⟨gained', quotient', z', hg', hq', hz', -, hy⟩ := hsteps y (h0.trans hxy) h1
  obtain rfl : z = u := by simpa [hx] using hu
  obtain rfl : z' = v := by simpa [hy] using hv
  have hdistance :
      (Finite.ofInt (x - l.left.outcome)).value ≤ (Finite.ofInt (y - l.left.outcome)).value := by
    rw [Finite.value_ofInt, Finite.value_ofInt]
    exact_mod_cast sub_le_sub_right hxy l.left.outcome
  have hquotients := Context.Settles.mul_div hdistance (Finite.mul_settles hg) (Finite.mul_settles hg')
    (Finite.div_settles l.run_isZero hq) (Finite.div_settles l.run_isZero hq')
  rw [← hrun] at hquotients
  apply (Finite.add_settles hz).ahead (Finite.add_settles hz')
  apply (Ahead.refl _ base.value).add
  by_cases hsign : 0 ≤ rise.value * run⁻¹
  · rw [decide_eq_true hsign]
    exact hquotients.1 hsign
  · rw [decide_eq_false hsign]
    exact hquotients.2 (not_le.mp hsign).le

end Line

/-! ## Hyperbolas -/

namespace Hyperbola

variable {h : Hyperbola}

theorem evaluate_of_none (hu : h.radical? ctx.widened x = .ok none) :
    h.evaluate ctx x = .ok (.nan false false 0) := by
  unfold evaluate
  rw [bind_of_ok hu]
  rfl

theorem evaluate_of_some {u : Finite} (hu : h.radical? ctx.widened x = .ok (some u)) :
    h.evaluate ctx x = h.payoutAt ctx.widened u := by
  unfold evaluate
  rw [bind_of_ok hu]

theorem within_of_radical? (hp : ctx.precision ≤ 10000) (hm : h.Moderate) (h0 : 0 ≤ x) (h1 : x < 10 ^ 18)
    {u : Finite} (hu : h.radical? ctx.widened x = .ok (some u)) : Within (-20001) 21 u.value := by
  obtain ⟨u?, hu', hwithin⟩ := radical?_within hp hm h0 h1
  obtain rfl : some u = u? := Except.ok.inj (hu.symm.trans hu')
  exact hwithin u rfl

theorem isDefinedAt_iff (hp : ctx.precision ≤ 10000) (hm : h.Moderate) (h0 : 0 ≤ x) (h1 : x < 10 ^ 18) :
    (Curve.hyperbola h).isDefinedAt ctx x = .ok true ↔
      ∃ u, h.radical? ctx.widened x = .ok (some u) ∧ u.isZero = false := by
  rw [Curve.isDefinedAt_iff]
  show (∃ z : Finite, h.evaluate ctx x = .ok (.finite z)) ↔ _
  obtain ⟨u?, hu, huw⟩ := radical?_within hp hm h0 h1
  cases u? with
  | none => simp [evaluate_of_none hu, hu]
  | some u =>
      rw [evaluate_of_some hu]
      cases hz : u.isZero with
      | true =>
          obtain ⟨v, hv, -, hinfinite⟩ := payoutAt_of_isZero ctx.widened hm hz
          have hfinite : ∀ z, v ≠ .finite z := by
            rintro z rfl
            cases hinfinite
          simp [hv, hu, hz, hfinite]
      | false =>
          obtain ⟨_, _, -, -, -, hsteps⟩ := payoutAt_steps hp hm
          obtain ⟨_, _, _, _, z, -, -, -, -, -, -, hpay⟩ := hsteps u hz (huw u rfl)
          simp [hpay, hu, hz]

/-! ### Payouts -/

theorem div_ahead {n p q v w : ℚ} {ctx : Context} (hp : 0 < p) (hle : p ≤ q) (hv : ctx.Settles (n / p) v)
    (hw : ctx.Settles (n / q) w) : (n ≤ 0 → Ahead true v w) ∧ (0 ≤ n → Ahead false v w) := by
  have hinv : q⁻¹ ≤ p⁻¹ := inv_anti₀ hp hle
  rw [div_eq_mul_inv] at hv hw
  constructor
  · intro hn
    exact hv.mono hw (mul_le_mul_of_nonpos_left hinv hn)
  · intro hn
    exact hw.mono hv (mul_le_mul_of_nonneg_left hinv hn)

/-- Where `c · d ≤ 0` the linear part and the inverse one go the same way. -/
theorem signs_of_balanced (hbalanced : h.c.value * h.d.value ≤ 0) {twice product : Finite}
    (htz : twice.isZero = false) (hproduct : twice.mul ctx h.d = .ok product) :
    (0 ≤ h.c.value * twice.value⁻¹ ∧ product.value ≤ 0) ∨
      (h.c.value * twice.value⁻¹ ≤ 0 ∧ 0 ≤ product.value) := by
  have hrounds := (Finite.mul_settles hproduct).rounds
  have ht := (Finite.isZero_eq_false_iff _).mp htz
  have hcancel : h.c.value * twice.value⁻¹ * (twice.value * h.d.value) = h.c.value * h.d.value := by
    field_simp
  rw [← hcancel] at hbalanced
  rcases mul_nonpos_iff.mp hbalanced with ⟨hlinear, hinverse⟩ | ⟨hlinear, hinverse⟩
  · exact Or.inl ⟨hlinear, hrounds.nonpos hinverse⟩
  · exact Or.inr ⟨hlinear, hrounds.nonneg hinverse⟩

/-- Where `c · d ≤ 0` payouts are in one order as `u` grows. -/
theorem exists_ascending (hp : ctx.precision ≤ 10000) (hm : h.Moderate)
    (hbalanced : h.c.value * h.d.value ≤ 0) :
    ∃ ascending, ∀ u v z w : Finite, 0 < u.value → u.value ≤ v.value → Within (-20001) 21 u.value →
      Within (-20001) 21 v.value → h.payoutAt ctx.widened u = .ok (.finite z) →
      h.payoutAt ctx.widened v = .ok (.finite w) → Ahead ascending z.value w.value := by
  obtain ⟨twice, product, -, htz, hproduct, hsteps⟩ := payoutAt_steps hp hm
  have hsigns := signs_of_balanced hbalanced htz hproduct
  refine ⟨decide (0 ≤ h.c.value * twice.value⁻¹ ∧ product.value ≤ 0), ?_⟩
  intro u v z w hu huv huw hvw hz hw
  have huz : u.isZero = false := (Finite.isZero_eq_false_iff u).mpr hu.ne'
  have hvz : v.isZero = false := (Finite.isZero_eq_false_iff v).mpr (by linarith)
  obtain ⟨cu, linear, inverse, sum, z₀, hcu, hl, hi, hsum, hadd, -, hz₀⟩ := hsteps u huz huw
  obtain ⟨cv, linear', inverse', sum', w₀, hcv, hl', hi', hsum', hadd', -, hw₀⟩ := hsteps v hvz hvw
  obtain rfl : z₀ = z := by simpa [hz₀] using hz
  obtain rfl : w₀ = w := by simpa [hw₀] using hw
  have hlinear := Context.Settles.mul_div huv (Finite.mul_settles hcu) (Finite.mul_settles hcv)
    (Finite.div_settles htz hl) (Finite.div_settles htz hl')
  have hinverse := div_ahead hu huv (Finite.div_settles huz hi) (Finite.div_settles hvz hi')
  apply (Finite.add_settles hadd).ahead (Finite.add_settles hadd')
  refine Ahead.add ?_ (Ahead.refl _ _)
  apply (Finite.add_settles hsum).ahead (Finite.add_settles hsum')
  by_cases hup : 0 ≤ h.c.value * twice.value⁻¹ ∧ product.value ≤ 0
  · rw [decide_eq_true hup]
    exact (hlinear.1 hup.1).add (hinverse.1 hup.2)
  · rw [decide_eq_false hup]
    have hdown := hsigns.resolve_left hup
    exact (hlinear.2 hdown.1).add (hinverse.2 hdown.2)

end Hyperbola

/-! ## Where curves are regular -/

namespace Curve

/-- Hyperbolas whose linear and inverse parts go the same way, and all lines. -/
def Balanced : Curve → Prop
  | .line _ => True
  | .hyperbola h => h.c.value * h.d.value ≤ 0

/-- Curves of the design scale, with lines through points at any outcome of moderate size. -/
def Scaled : Curve → Prop
  | .line l => l.Moderate
  | .hyperbola h => h.Scaled

/-- The outcomes from the vertical translation on; where `a · b ≤ 0`, and on a line, all outcomes. -/
def Clear : Curve → ℤ → Prop
  | .line _, _ => True
  | .hyperbola h, x => h.a.value * h.b.value ≤ 0 ∨ h.translateOutcome.value ≤ x

end Curve

namespace Hyperbola

variable {h : Hyperbola}

/-- Two clear outcomes at the first of which the hyperbola is defined. -/
theorem exists_radicals (hp : ctx.precision ≤ 10000) (hs : h.Scaled) (h0 : 0 ≤ x) (hxy : x ≤ y)
    (h1 : y < 10 ^ 18) (hclear : (Curve.hyperbola h).Clear x)
    (hdefined : (Curve.hyperbola h).isDefinedAt ctx x = .ok true) :
    ∃ u v : Finite, h.radical? ctx.widened x = .ok (some u) ∧ h.radical? ctx.widened y = .ok (some v) ∧
      0 < u.value ∧ u.value ≤ v.value := by
  obtain ⟨u, hu, huz⟩ := (isDefinedAt_iff hp hs.moderate h0 (hxy.trans_lt h1)).mp hdefined
  obtain ⟨v, hv, hpos, huv⟩ :=
    radical?_grows hp hs h0 hxy h1 hclear hu ((Finite.isZero_eq_false_iff u).mp huz)
  exact ⟨u, v, hu, hv, hpos, huv⟩

end Hyperbola

namespace Curve

variable {curve : Curve}

def clearOutcomes (curve : Curve) : Set ℤ := {x | 0 ≤ x ∧ x < 10 ^ 18 ∧ curve.Clear x}

theorem stays_of_scaled (hp : ctx.precision ≤ 10000) (hs : curve.Scaled) :
    curve.Stays ctx curve.clearOutcomes := by
  rintro x ⟨h0, -, hclear⟩ y ⟨hy0, h1, -⟩ hxy hdefined
  cases curve with
  | line l => exact Line.isDefinedAt hp hs hy0 h1
  | hyperbola h =>
      obtain ⟨u, v, -, hv, hpos, hle⟩ := h.exists_radicals hp hs h0 hxy h1 hclear hdefined
      have hvz : v.isZero = false := (Finite.isZero_eq_false_iff v).mpr (hpos.trans_le hle).ne'
      exact (Hyperbola.isDefinedAt_iff hp hs.moderate hy0 h1).mpr ⟨v, hv, hvz⟩

theorem ordered_of_balanced (hp : ctx.precision ≤ 10000) (hs : curve.Scaled)
    (hbalanced : curve.Balanced) : curve.Ordered ctx curve.clearOutcomes := by
  cases curve with
  | line l =>
      obtain ⟨ascending, hordered⟩ := Line.exists_ascending hp hs
      refine ⟨ascending, ?_⟩
      rintro x ⟨h0, -⟩ y ⟨-, h1, -⟩ hxy u v hu hv
      exact hordered x y h0 hxy h1 u v hu hv
  | hyperbola h =>
      obtain ⟨ascending, hordered⟩ := h.exists_ascending hp hs.moderate hbalanced
      refine ⟨ascending, ?_⟩
      rintro x ⟨h0, hx1, hclear⟩ y ⟨hy0, h1, -⟩ hxy z w hz hw
      obtain ⟨u, v, hu, hv, hpos, hle⟩ :=
        h.exists_radicals hp hs h0 hxy h1 hclear (isDefinedAt_iff.mpr ⟨z, hz⟩)
      have hpays : h.payoutAt ctx.widened u = .ok (.finite z) := by
        rw [← Hyperbola.evaluate_of_some hu]
        exact hz
      have hpays' : h.payoutAt ctx.widened v = .ok (.finite w) := by
        rw [← Hyperbola.evaluate_of_some hv]
        exact hw
      have hwithin := h.within_of_radical? hp hs.moderate h0 hx1 hu
      have hwithin' := h.within_of_radical? hp hs.moderate hy0 h1 hv
      exact hordered u v z w hpos hle hwithin hwithin' hpays hpays'

/-- Everywhere, or on a hyperbola with `0 < a · b` from its vertical translation on, curves do not break
off; nor do their payouts turn back, except on hyperbolas with `0 < c · d`. -/
theorem regular_of_scaled (hp : ctx.precision ≤ 10000) (hs : curve.Scaled) :
    curve.Stays ctx curve.clearOutcomes ∧
      (curve.Balanced → curve.Ordered ctx curve.clearOutcomes) :=
  ⟨stays_of_scaled hp hs, ordered_of_balanced hp hs⟩

/-- The hyperbola `x - 2 + √((x - 2)² + 4) + 3`, with a linear and an inverse part. -/
def slope : Hyperbola :=
  ⟨.ofInt 1, .ofInt (-1), .ofInt 1, .ofInt (-1), .ofInt 2, .ofInt 3, true, Finite.isZero_one⟩

theorem regular_of_scaled_slope :
    (hyperbola slope).Stays .standard (hyperbola slope).clearOutcomes ∧
      (hyperbola slope).Ordered .standard (hyperbola slope).clearOutcomes := by
  have hscaled : slope.Scaled := Hyperbola.scaled_of_digits (by decide)
  have hbalanced : (hyperbola slope).Balanced := by
    show slope.c.value * slope.d.value ≤ 0
    simp [slope, Finite.value_ofInt]
  have hprecision : Context.standard.precision ≤ 10000 := by decide
  obtain ⟨hstays, hordered⟩ := regular_of_scaled hprecision (show (hyperbola slope).Scaled from hscaled)
  exact ⟨hstays, hordered hbalanced⟩

/-- A hyperbola that is not defined around its translation, at five. -/
def gap : Hyperbola :=
  ⟨.ofInt 1, .ofInt 1, .ofInt 0, .ofInt 1, .ofInt 5, .ofInt 0, true, Finite.isZero_one⟩

/-- With `0 < a · b` a curve may break off left of its translation, and with `0 < c · d` its payouts may turn
back. -/
theorem not_regular_of_scaled :
    gap.Scaled ∧ ¬ (hyperbola gap).Stays .standard {x | 0 ≤ x ∧ x < 10 ^ 18} ∧
      Span.dip.Scaled ∧ ¬ (hyperbola Span.dip).Ordered .standard {x | 0 ≤ x ∧ x < 10 ^ 18} := by
  have hgap : gap.Scaled := Hyperbola.scaled_of_digits (by decide)
  have hdip : Span.dip.Scaled := Hyperbola.scaled_of_digits (by decide)
  have hsmall : ∀ x : ℤ, 0 ≤ x → x ≤ 4 → x ∈ {x : ℤ | 0 ≤ x ∧ x < 10 ^ 18} := by
    intro x h0 h4
    exact ⟨h0, lt_of_le_of_lt h4 (by norm_num)⟩
  refine ⟨hgap, fun hstays => ?_, hdip, fun hordered => ?_⟩
  · have hbroken := hstays 0 (hsmall 0 (by decide) (by decide)) 4 (hsmall 4 (by decide) (by decide))
      (by decide) (by decide +kernel)
    have hundefined : (hyperbola gap).isDefinedAt .standard 4 = .ok false := by decide +kernel
    rw [hundefined] at hbroken
    cases hbroken
  · obtain ⟨ascending, hordered⟩ := hordered
    have hone : (hyperbola Span.dip).evaluate .standard 1 = .ok (.finite ⟨false, 5, 0⟩) := by decide +kernel
    have htwo : (hyperbola Span.dip).evaluate .standard 2 = .ok (.finite ⟨false, 4, 0⟩) := by decide +kernel
    have hfour : (hyperbola Span.dip).evaluate .standard 4 = .ok (.finite ⟨false, 5, 0⟩) := by decide +kernel
    have hfall := hordered 1 (hsmall 1 (by decide) (by decide)) 2 (hsmall 2 (by decide) (by decide))
      (by decide) _ _ hone htwo
    have hrise := hordered 2 (hsmall 2 (by decide) (by decide)) 4 (hsmall 4 (by decide) (by decide))
      (by decide) _ _ htwo hfour
    cases ascending with
    | true => norm_num [Ahead, Finite.value, Finite.signed] at hfall
    | false => norm_num [Ahead, Finite.value, Finite.signed] at hrise

end Curve

end NumericContract
