import NumericContract.Proofs.Curve.Scale

/-!
# Lines at the design scale

The products on the way to a payout of a line have few enough digits to be exact, so that only a
quotient and a sum are rounded. Their errors are far smaller than the distance from the line to any
half that it does not meet.
-/

namespace NumericContract

open Decimal PayoutRange Segment

namespace Line

def exact (l : Line) (x : ℤ) : ℚ :=
  l.left.payout.number +
    (l.right.payout.number - l.left.payout.number) * (x - l.left.outcome) /
      (l.right.outcome - l.left.outcome)

structure AtScale (l : Line) : Prop where
  left_outcome : 0 ≤ l.left.outcome ∧ l.left.outcome < 10 ^ 18
  right_outcome : 0 ≤ l.right.outcome ∧ l.right.outcome < 10 ^ 18
  left_payout : l.left.payout.AtScale
  right_payout : l.right.payout.AtScale

/-- A line in numbers: the payout at its left outcome and what it gains in units of `10 ^ -16` over
`run` outcomes. -/
structure Parts (l : Line) where
  base : Decimal.Finite
  other : Decimal.Finite
  units : ℤ
  gain : ℤ
  left_eq : l.left.payout = .finite base
  right_eq : l.right.payout = .finite other
  base_eq : base.value = units / 10 ^ 16
  other_eq : other.value = (units + gain) / 10 ^ 16
  units_lt : |units| < 10 ^ 34
  gain_lt : |gain| < 2 * 10 ^ 34
  left_nonneg : 0 ≤ l.left.outcome
  left_lt : l.left.outcome < 10 ^ 18
  run_ne : l.right.outcome - l.left.outcome ≠ 0
  run_lt : |l.right.outcome - l.left.outcome| < 10 ^ 18

theorem AtScale.parts {l : Line} (h : l.AtScale) : Nonempty l.Parts := by
  obtain ⟨hl0, hl1⟩ := h.left_outcome
  obtain ⟨hr0, hr1⟩ := h.right_outcome
  obtain ⟨y₀, hy₀, ⟨k₀, hk₀, hv₀⟩, -⟩ := h.left_payout.exists_finite
  obtain ⟨y₁, hy₁, ⟨k₁, hk₁, hv₁⟩, -⟩ := h.right_payout.exists_finite
  have hne := l.outcomes_ne
  refine ⟨⟨y₀, y₁, k₀, k₁ - k₀, hy₀, hy₁, hv₀, ?_, hk₀, ?_, hl0, hl1, by omega, ?_⟩⟩
  · rw [hv₁]
    push_cast
    ring
  · rw [abs_lt] at hk₀ hk₁ ⊢
    omega
  · rw [abs_lt]
    omega

variable {l : Line} {ctx : Context} {x : ℤ}

theorem representable_units (ctx : Context) {k : ℤ} (hk : |k| < 10 ^ 78) :
    ctx.widened.Representable (k / 10 ^ 16) :=
  Context.Representable.div_pow (by norm_num)
    (lt_of_lt_of_le hk (pow_le_pow_right₀ (by norm_num) (le_max_left _ _)))

namespace Parts

variable (p : l.Parts)

def run (_ : l.Parts) : ℤ := l.right.outcome - l.left.outcome

theorem exact_eq (x : ℤ) :
    l.exact x = p.units / 10 ^ 16 + p.gain / 10 ^ 16 * (x - l.left.outcome) / p.run := by
  have hl : l.left.payout.number = p.base.value := by rw [p.left_eq]; rfl
  have hr : l.right.payout.number = p.other.value := by rw [p.right_eq]; rfl
  unfold exact run
  rw [hl, hr, p.base_eq, p.other_eq]
  push_cast
  ring

theorem rise_eq (ctx : Context) :
    ∃ r : Decimal.Finite, l.rise ctx.widened = .ok (.finite r) ∧ r.value = p.gain / 10 ^ 16 := by
  have hsub := Decimal.Finite.sub_computes ctx.widened p.other p.base
  rw [p.base_eq, p.other_eq, show ((p.units : ℚ) + p.gain) / 10 ^ 16 - p.units / 10 ^ 16 =
    p.gain / 10 ^ 16 by ring] at hsub
  have hgain : |(p.gain : ℚ)| < 2 * 10 ^ 34 := by exact_mod_cast p.gain_lt
  obtain ⟨r, hr, hv⟩ := hsub.exact (representable_units ctx (p.gain_lt.trans (by norm_num))) (by
    rw [abs_div, abs_of_pos (show (0 : ℚ) < 10 ^ 16 by norm_num)]
    linarith)
  refine ⟨r, ?_, hv⟩
  unfold rise
  rw [p.left_eq, p.right_eq, sub_finite, hr]
  rfl

theorem run_isZero : (Decimal.Finite.ofInt p.run).isZero = false := by
  rw [Decimal.Finite.isZero_eq_false_iff, Decimal.Finite.value_ofInt]
  exact_mod_cast p.run_ne

theorem abs_run_ge : (1 : ℚ) ≤ |(p.run : ℚ)| := by
  exact_mod_cast Int.one_le_abs p.run_ne

theorem abs_units_le : |(p.units : ℚ) / 10 ^ 16| ≤ 10 ^ 18 := by
  have : |(p.units : ℚ)| < 10 ^ 34 := by exact_mod_cast p.units_lt
  rw [abs_div, abs_of_pos (show (0 : ℚ) < 10 ^ 16 by norm_num), div_le_iff₀ (by norm_num)]
  linarith

theorem abs_run_le : |(p.run : ℚ)| ≤ 10 ^ 18 := by
  exact_mod_cast p.run_lt.le

theorem abs_gain_le : |(p.gain : ℚ) / 10 ^ 16| ≤ 2 * 10 ^ 18 := by
  have : |(p.gain : ℚ)| < 2 * 10 ^ 34 := by exact_mod_cast p.gain_lt
  rw [abs_div, abs_of_pos (show (0 : ℚ) < 10 ^ 16 by norm_num), div_le_iff₀ (by norm_num)]
  linarith

theorem abs_gain_ge (hg : p.gain ≠ 0) : 1 / 10 ^ 16 ≤ |(p.gain : ℚ) / 10 ^ 16| := by
  have : (1 : ℚ) ≤ |(p.gain : ℚ)| := by exact_mod_cast Int.one_le_abs hg
  rw [abs_div, abs_of_pos (show (0 : ℚ) < 10 ^ 16 by norm_num)]
  gcongr

theorem abs_div_run_le (q : ℚ) : |q / p.run| ≤ |q| := by
  rw [abs_div, div_le_iff₀ (lt_of_lt_of_le one_pos p.abs_run_ge)]
  exact le_mul_of_one_le_right (abs_nonneg q) p.abs_run_ge

theorem abs_left_le (p : l.Parts) : |(l.left.outcome : ℚ)| ≤ 10 ^ 18 := by
  have h0 : (0 : ℚ) ≤ l.left.outcome := by exact_mod_cast p.left_nonneg
  have h1 : (l.left.outcome : ℚ) < 10 ^ 18 := by exact_mod_cast p.left_lt
  rw [abs_of_nonneg h0]
  exact h1.le

theorem evaluate_eq (ctx : Context) (hx : |x| ≤ 10 ^ 60) :
    ∃ gained quotient z : Decimal.Finite, l.evaluate ctx x = .ok (.finite z) ∧
      ctx.widened.Rounds (p.gain / 10 ^ 16 * (x - l.left.outcome)) gained.value ∧
      ctx.widened.Rounds (gained.value / p.run) quotient.value ∧
      ctx.widened.Rounds (p.units / 10 ^ 16 + quotient.value) z.value := by
  have hx' : |(x : ℚ)| ≤ 10 ^ 60 := by exact_mod_cast hx
  have hleft := p.abs_left_le
  have hgain := p.abs_gain_le
  have hunits := p.abs_units_le
  obtain ⟨r, hr, hrv⟩ := p.rise_eq ctx
  have hdist : |(x : ℚ) - l.left.outcome| ≤ 2 * 10 ^ 60 := (abs_sub _ _).trans (by linarith)
  have hmul := Decimal.Finite.mul_computes ctx.widened r (.ofInt (x - l.left.outcome))
  rw [hrv, Decimal.Finite.value_ofInt, Int.cast_sub] at hmul
  have hprod : |(p.gain : ℚ) / 10 ^ 16 * (x - l.left.outcome)| ≤ 4 * 10 ^ 78 := by
    rw [abs_mul]
    exact (mul_le_mul hgain hdist (abs_nonneg _) (by norm_num)).trans (by norm_num)
  obtain ⟨gained, hg, hgr⟩ := hmul.exists_rounds (by linarith)
  have hgb := hgr.abs_le_two_mul
  have hdiv := Decimal.Finite.div_computes ctx.widened gained p.run_isZero
  rw [Decimal.Finite.value_ofInt] at hdiv
  have hquot := p.abs_div_run_le gained.value
  obtain ⟨quotient, hq, hqr⟩ := hdiv.exists_rounds (by linarith)
  have hqb := hqr.abs_le_two_mul
  have hadd := Decimal.Finite.add_computes ctx.widened p.base quotient
  rw [p.base_eq] at hadd
  obtain ⟨z, hz, hzr⟩ := hadd.exists_rounds ((abs_add_le _ _).trans (by linarith))
  refine ⟨gained, quotient, z, ?_, hgr, hqr, hzr⟩
  refine bind_eq_ok.mpr ⟨_, hr, bind_eq_ok.mpr ⟨.finite gained, ?_, bind_eq_ok.mpr ⟨.finite quotient, ?_, ?_⟩⟩⟩
  · rw [ofInt, mul_finite, hg]
    rfl
  · unfold Line.run
    rw [ofInt, div_finite]
    unfold run at hq
    rw [hq]
    rfl
  · rw [p.left_eq, add_finite, hz]
    rfl

theorem representable_gained (ctx : Context) (h0 : 0 ≤ x) (h1 : x ≤ 10 ^ 18) :
    ctx.widened.Representable (p.gain / 10 ^ 16 * (x - l.left.outcome)) ∧
      |(p.gain : ℚ) / 10 ^ 16 * (x - l.left.outcome)| ≤ 2 * 10 ^ 36 := by
  have hleft := p.left_nonneg
  have hleft' := p.left_lt
  have hdist : |x - l.left.outcome| ≤ 10 ^ 18 := by
    rw [abs_le]
    omega
  have hdist' : |(x : ℚ) - l.left.outcome| ≤ 10 ^ 18 := by exact_mod_cast hdist
  constructor
  · have := representable_units ctx (k := p.gain * (x - l.left.outcome)) (by
      rw [abs_mul]
      exact lt_of_le_of_lt (mul_le_mul p.gain_lt.le hdist (abs_nonneg _) (by norm_num)) (by norm_num))
    rwa [show ((p.gain * (x - l.left.outcome) : ℤ) : ℚ) / 10 ^ 16 =
      p.gain / 10 ^ 16 * (x - l.left.outcome) by push_cast; ring] at this
  · rw [abs_mul]
    exact (mul_le_mul p.abs_gain_le hdist' (abs_nonneg _) (by norm_num)).trans (by norm_num)

/-- A line is a fair distance away from every half that it does not meet. -/
theorem gap_of_ne (p : l.Parts) {j : ℤ} (hne : l.exact x ≠ j / 2) : 1 / (2 * 10 ^ 34) ≤ |l.exact x - j / 2| := by
  have hrun : (p.run : ℚ) ≠ 0 := by exact_mod_cast p.run_ne
  have hsize : |((2 * 10 ^ 16 * p.run : ℤ) : ℚ)| ≤ 2 * 10 ^ 34 := by
    have := p.abs_run_le
    rw [Int.cast_mul, abs_mul]
    norm_num
    linarith
  refine one_div_le_abs (n := 2 * p.units * p.run + 2 * p.gain * (x - l.left.outcome) - j * 10 ^ 16 * p.run)
    ?_ (sub_ne_zero.mpr hne) (mul_ne_zero (by norm_num) (show p.run ≠ 0 from p.run_ne)) hsize
  rw [p.exact_eq x]
  push_cast
  field_simp
  ring

/-- The payout at an outcome of the design scale is nearly exact, and compares like the exact one. -/
theorem evaluate_sharp (p : l.Parts) (ctx : Context) (h0 : 0 ≤ x) (h1 : x ≤ 10 ^ 18) :
    ∃ z : Decimal.Finite, l.evaluate ctx x = .ok (.finite z) ∧ Sharp z.value (l.exact x) ∧
      |z.value - l.exact x| ≤ 1 / 10 ^ 38 ∧ |z.value| ≤ 10 ^ 70 := by
  obtain ⟨gained, quotient, z, hz, hg, hq, hzr⟩ := p.evaluate_eq ctx (x := x) (by
    rw [abs_of_nonneg h0]
    omega)
  obtain ⟨hrep, hbound⟩ := p.representable_gained ctx h0 h1
  rw [hg.eq_self hrep] at hq
  rw [add_comm] at hzr
  have hquot := (p.abs_div_run_le (p.gain / 10 ^ 16 * (x - l.left.outcome))).trans hbound
  have hsum : QuotientSum ctx _ _ quotient.value z.value := ⟨⟨p.units, p.units_lt, rfl⟩, hq, hzr⟩
  have herr := hsum.error
  have hsize := hsum.abs_le
  have hsharp := hsum.sharp (1 / (2 * 10 ^ 34))
  rw [add_comm _ ((p.units : ℚ) / 10 ^ 16), ← p.exact_eq x] at herr hsharp
  have herr : |z.value - l.exact x| ≤ 1 / 10 ^ 38 := by linarith
  exact ⟨z, hz, hsharp (lt_of_le_of_lt herr (by norm_num)) fun _ => p.gap_of_ne, herr, by linarith⟩

/-! ## Inverses -/

def slope : ℚ := p.gain / 10 ^ 16 / p.run

def root (y : ℚ) : ℚ := l.left.outcome + (y - p.units / 10 ^ 16) * p.run / (p.gain / 10 ^ 16)

theorem run_cast_ne : (p.run : ℚ) ≠ 0 := by exact_mod_cast p.run_ne

theorem gain_div_ne (hg : p.gain ≠ 0) : (p.gain : ℚ) / 10 ^ 16 ≠ 0 :=
  div_ne_zero (by exact_mod_cast hg) (by norm_num)

theorem slope_ne_zero (hg : p.gain ≠ 0) : p.slope ≠ 0 :=
  div_ne_zero (p.gain_div_ne hg) p.run_cast_ne

theorem abs_slope_ge (hg : p.gain ≠ 0) : 1 / 10 ^ 34 ≤ |p.slope| := by
  have hrun : 0 < |(p.run : ℚ)| := abs_pos.mpr p.run_cast_ne
  rw [slope, abs_div, le_div_iff₀ hrun]
  exact (mul_le_mul_of_nonneg_left p.abs_run_le (by norm_num)).trans
    ((by norm_num : (1 / 10 ^ 34 * 10 ^ 18 : ℚ) ≤ 1 / 10 ^ 16).trans (p.abs_gain_ge hg))

theorem exact_sub (hg : p.gain ≠ 0) (x : ℤ) (y : ℚ) :
    l.exact x - y = p.slope * ((x : ℚ) - p.root y) := by
  have h1 := p.run_cast_ne
  have h2 : (p.gain : ℚ) ≠ 0 := by exact_mod_cast hg
  rw [p.exact_eq, slope, root]
  field_simp
  ring

theorem exact_sub_exact (x x' : ℤ) : l.exact x' - l.exact x = p.slope * ((x' : ℚ) - x) := by
  rw [p.exact_eq, p.exact_eq, slope]
  ring

theorem invert_flat (hg : p.gain = 0) (ctx : Context) (y : Decimal) : l.invert ctx y = .ok none := by
  obtain ⟨r, hr, hv⟩ := p.rise_eq ctx
  rw [hg, Int.cast_zero, zero_div] at hv
  refine bind_eq_ok.mpr ⟨_, hr, bind_eq_ok.mpr ⟨true, ?_, rfl⟩⟩
  exact congrArg Except.ok ((Decimal.Finite.isZero_iff r).mpr hv)

theorem abs_run_div_le (hg : p.gain ≠ 0) : |p.run / (p.gain / 10 ^ 16 : ℚ)| ≤ 10 ^ 34 := by
  have hgain := p.abs_gain_ge hg
  have hrun := p.abs_run_le
  rw [abs_div, div_le_iff₀ (by linarith)]
  linarith

theorem abs_one_div_le (hg : p.gain ≠ 0) : |1 / (p.gain / 10 ^ 16 : ℚ)| ≤ 10 ^ 16 := by
  have hgain := p.abs_gain_ge hg
  rw [abs_div, abs_one, div_le_iff₀ (by linarith)]
  linarith

theorem abs_root_sub_le (hg : p.gain ≠ 0) {y : ℚ} (hy : |y| ≤ 5 * 10 ^ 19) :
    |(y - p.units / 10 ^ 16) * (p.run / (p.gain / 10 ^ 16))| ≤ 6 * 10 ^ 53 := by
  rw [abs_mul]
  exact (mul_le_mul ((abs_sub _ _).trans (add_le_add hy p.abs_units_le)) (p.abs_run_div_le hg)
    (abs_nonneg _) (by norm_num)).trans (by norm_num)

theorem invert_eq (hg : p.gain ≠ 0) (ctx : Context) {y : Decimal.Finite}
    (hy : |(y.value - p.units / 10 ^ 16) * (p.run / (p.gain / 10 ^ 16))| ≤ 10 ^ 54) :
    ∃ diff product distance x' : Decimal.Finite,
      l.invert ctx (.finite y) = .ok (finite x').nearestOutcome? ∧
      ctx.widened.Rounds (y.value - p.units / 10 ^ 16) diff.value ∧
      ctx.widened.Rounds (diff.value * p.run) product.value ∧
      ctx.widened.Rounds (product.value / (p.gain / 10 ^ 16)) distance.value ∧
      ctx.widened.Rounds (l.left.outcome + distance.value) x'.value := by
  have hleft := p.abs_left_le
  have hgain := p.abs_gain_le
  have hgne := p.gain_div_ne hg
  have hrun : (Decimal.Finite.ofInt p.run).value = p.run := Decimal.Finite.value_ofInt _
  have hprod : |(y.value - p.units / 10 ^ 16) * p.run| ≤ 2 * 10 ^ 72 := by
    rw [← mul_div_assoc, abs_div, div_le_iff₀ (abs_pos.mpr hgne)] at hy
    linarith
  have hsub : |y.value - p.units / 10 ^ 16| ≤ 2 * 10 ^ 72 := by
    rw [abs_mul] at hprod
    exact (le_mul_of_one_le_right (abs_nonneg _) p.abs_run_ge).trans hprod
  obtain ⟨r, hr, hrv⟩ := p.rise_eq ctx
  have hrz : r.isZero = false := (Decimal.Finite.isZero_eq_false_iff r).mpr (by rwa [hrv])
  obtain ⟨diff, hd, hdr⟩ := sub_rounds ctx.widened y p.base (by rw [p.base_eq]; linarith)
  rw [p.base_eq] at hdr
  have hprod' := hdr.abs_mul_le_two_mul p.run
  obtain ⟨product, hp, hpr⟩ := mul_rounds ctx.widened diff (.ofInt p.run) (by rw [hrun]; linarith)
  rw [hrun] at hpr
  have hquot := hdr.abs_mul_le_two_mul (p.run / (p.gain / 10 ^ 16))
  have hquot' := hpr.abs_mul_le_two_mul (1 / (p.gain / 10 ^ 16))
  rw [mul_one_div, mul_one_div, mul_div_assoc] at hquot'
  obtain ⟨distance, hq, hqr⟩ := div_rounds ctx.widened product r (by rwa [hrv])
    (by rw [hrv]; linarith)
  rw [hrv] at hqr
  have hdist := hqr.abs_le_two_mul
  obtain ⟨x', hx, hxr⟩ := add_rounds ctx.widened (.ofInt l.left.outcome) distance (by
    rw [Decimal.Finite.value_ofInt]
    exact (abs_add_le _ _).trans (by linarith))
  rw [Decimal.Finite.value_ofInt] at hxr
  refine ⟨diff, product, distance, x', ?_, hdr, hpr, hqr, hxr⟩
  rw [← p.left_eq] at hd
  exact bind_eq_ok.mpr ⟨.finite r, hr, bind_eq_ok.mpr ⟨false, congrArg Except.ok hrz, bind_eq_ok.mpr
    ⟨_, hd, bind_eq_ok.mpr ⟨_, hp, bind_eq_ok.mpr ⟨_, hq, bind_eq_ok.mpr ⟨_, hx, rfl⟩⟩⟩⟩⟩⟩

/-- An inverse is the outcome nearest to a number that is close to the exact root. -/
theorem invert_near (hg : p.gain ≠ 0) (ctx : Context) {y : Decimal.Finite}
    (hy : |(y.value - p.units / 10 ^ 16) * (p.run / (p.gain / 10 ^ 16))| ≤ 10 ^ 54) :
    ∃ x' : Decimal.Finite, l.invert ctx (.finite y) = .ok (finite x').nearestOutcome? ∧
      |x'.value - p.root y.value| ≤ 1 / 10 ^ 20 ∧ |x'.value| ≤ 10 ^ 55 := by
  have hwide : 78 ≤ ctx.widened.precision := le_max_left _ _
  have hleft := p.abs_left_le
  obtain ⟨diff, product, distance, x', hx, hdr, hpr, hqr, hxr⟩ := p.invert_eq hg ctx hy
  have hderr := hdr.error_mul_div hwide ((p.abs_run_div_le hg).trans (by norm_num))
    ((p.abs_one_div_le hg).trans (by norm_num)) hpr hqr
  have hdist : |distance.value| ≤ 2 * 10 ^ 54 := by
    have := abs_add_le (distance.value - (y.value - p.units / 10 ^ 16) * (p.run / (p.gain / 10 ^ 16)))
      ((y.value - p.units / 10 ^ 16) * (p.run / (p.gain / 10 ^ 16)))
    rw [sub_add_cancel] at this
    linarith
  have hsum := abs_add_le (l.left.outcome : ℚ) distance.value
  have hxerr := hxr.error hwide
  have hxb := hxr.abs_le_two_mul
  refine ⟨x', hx, ?_, by linarith⟩
  have hform : x'.value - p.root y.value = (x'.value - (l.left.outcome + distance.value)) +
      (distance.value - (y.value - p.units / 10 ^ 16) * (p.run / (p.gain / 10 ^ 16))) := by
    rw [root, mul_div_assoc]
    ring
  rw [hform]
  exact (abs_add_le _ _).trans (by linarith)

/-! ## Following a line -/

theorem near_iff_root (hg : p.gain ≠ 0) (x : ℤ) (y : ℚ) :
    Near (decide (0 < p.slope)) y (l.exact x) ↔
      if decide (0 < p.slope) then (x : ℚ) < p.root y else (x : ℚ) ≤ p.root y := by
  have hsub := p.exact_sub hg x y
  by_cases hpos : 0 < p.slope
  · rw [decide_eq_true hpos]
    show l.exact x < y ↔ (x : ℚ) < p.root y
    constructor <;> intro h <;> nlinarith
  · rw [decide_eq_false hpos]
    have hneg := lt_of_le_of_ne (not_lt.mp hpos) (p.slope_ne_zero hg)
    show y ≤ l.exact x ↔ (x : ℚ) ≤ p.root y
    constructor <;> intro h <;> nlinarith

theorem exact_ahead {x x' : ℤ} (hx : x ≤ x') :
    Ahead (decide (0 < p.slope)) (l.exact x) (l.exact x') := by
  have hsub := p.exact_sub_exact x x'
  have hx' : (0 : ℚ) ≤ x' - x := by
    have : (x : ℚ) ≤ x' := by exact_mod_cast hx
    linarith
  by_cases hpos : 0 < p.slope
  · rw [decide_eq_true hpos]
    show l.exact x ≤ l.exact x'
    nlinarith
  · rw [decide_eq_false hpos]
    show l.exact x' ≤ l.exact x
    nlinarith

theorem follows (ctx : Context) {s : Segment} {first : ℤ} (hcurve : s.curve = .line l)
    (h0 : 0 ≤ first) (hstop : s.stop ≤ 10 ^ 18) :
    s.Follows ctx (decide (0 < p.slope)) l.exact first := by
  have heval : ∀ x, s.curve.evaluate ctx x = l.evaluate ctx x := fun x => by rw [hcurve]; rfl
  refine ⟨⟨fun x hx hxs => ?_, fun x x' _ hx _ => p.exact_ahead hx⟩, fun y current hcur hlt hy hnear => ?_⟩
  · obtain ⟨z, hz, hsharp, -, hsize⟩ := p.evaluate_sharp ctx (h0.trans hx) (hxs.trans hstop)
    exact ⟨z, (heval x).trans hz, hsharp, hsize⟩
  · have hinv : ∀ c?, l.invert ctx (.finite y) = .ok c? →
        s.curve.invert ctx (.finite y) = .ok c? := by
      intro c? h
      rw [hcurve]
      exact Failure.ofArithmetic_eq_ok.mpr h
    by_cases hg : p.gain = 0
    · refine ⟨none, hinv _ (p.invert_flat hg ctx _), fun x hx _ => ?_, by simp⟩
      have hslope : p.slope = 0 := by rw [slope, hg]; simp
      have hsub := p.exact_sub_exact current x
      rw [hslope, zero_mul, sub_eq_zero] at hsub
      rwa [hsub]
    · obtain ⟨x', hx', herr, hbound⟩ := p.invert_near hg ctx
        ((p.abs_root_sub_le hg hy.abs_le).trans (by norm_num))
      refine ⟨_, hinv _ hx', ?_, fun c hc => ?_⟩
      · exact places_of_root (h0.trans hcur) hlt (herr.trans (by norm_num))
          (fun x _ _ => p.near_iff_root hg x y.value) hnear
      · obtain ⟨hlow, hhigh⟩ := nearestOutcome?_bounds hc
        have hsize : |c| ≤ 10 ^ 60 := by
          rw [abs_le] at hbound
          have : |(c : ℚ)| ≤ 10 ^ 60 := abs_le.mpr ⟨by linarith, by linarith⟩
          exact_mod_cast this
        obtain ⟨-, -, z, hz, -⟩ := p.evaluate_eq ctx hsize
        exact ⟨.finite z, (heval c).trans hz, rfl⟩

theorem evaluate_flat (hg : p.gain = 0) (ctx : Context) (h0 : 0 ≤ x) (h1 : x ≤ 10 ^ 18) {z : Decimal}
    (hz : l.evaluate ctx x = .ok z) :
    ∃ z' : Decimal.Finite, z = .finite z' ∧ z'.value = p.units / 10 ^ 16 := by
  obtain ⟨gained, quotient, z', hz', hgr, hqr, hzr⟩ := p.evaluate_eq ctx (x := x) (by
    rw [abs_of_nonneg h0]
    omega)
  rw [hz'] at hz
  rw [hg, Int.cast_zero, zero_div, zero_mul] at hgr
  rw [hgr.eq_self (Context.Representable.zero _), zero_div] at hqr
  rw [hqr.eq_self (Context.Representable.zero _), add_zero] at hzr
  exact ⟨z', (Except.ok.inj hz).symm,
    hzr.eq_self (representable_units ctx (p.units_lt.trans (by norm_num)))⟩

theorem lt_eq (ctx : Context) {x' : ℤ} (h0 : 0 ≤ x) (hlt : x < x') (h1 : x' ≤ 10 ^ 18) {z z' : Decimal}
    (hz : l.evaluate ctx x = .ok z) (hz' : l.evaluate ctx x' = .ok z') :
    z.lt z' = .ok (decide (0 < p.slope)) := by
  by_cases hg : p.gain = 0
  · obtain ⟨w, rfl, hw⟩ := p.evaluate_flat hg ctx h0 (by omega) hz
    obtain ⟨w', rfl, hw'⟩ := p.evaluate_flat hg ctx (by omega) h1 hz'
    have hslope : p.slope = 0 := by rw [slope, hg]; simp
    rw [lt_finite, hw, hw', hslope]
    simp
  · obtain ⟨w, hw, -, herr, -⟩ := p.evaluate_sharp ctx h0 (x := x) (by omega)
    obtain ⟨w', hw', -, herr', -⟩ := p.evaluate_sharp ctx (x := x') (by omega) h1
    rw [hz] at hw
    rw [hz'] at hw'
    rw [Except.ok.inj hw, Except.ok.inj hw', lt_finite]
    have hsub := p.exact_sub_exact x x'
    have hx' : (1 : ℚ) ≤ x' - x := by
      have : (x : ℚ) + 1 ≤ x' := by exact_mod_cast hlt
      linarith
    have hslope := p.abs_slope_ge hg
    congr 1
    rw [decide_eq_decide]
    rw [abs_le] at herr herr'
    constructor
    · intro hww
      by_contra hneg
      rw [abs_of_nonpos (not_lt.mp hneg)] at hslope
      nlinarith
    · intro hpos
      rw [abs_of_pos hpos] at hslope
      nlinarith

end Parts

end Line

namespace Span

variable {span : Span} {collateral : ℤ} {l : Line} {intervals : List RoundingInterval}
  {settings : Settings} {ctx : Context}

/-- Whether a line lies above the collateral or below zero at both ends of the inside of a span. -/
def LineBlocked (span : Span) (collateral : ℤ) (l : Line) : Prop :=
  1 < span.last - span.first ∧ Blocked collateral (l.exact (span.first + 1)) (l.exact (span.last - 1))

theorem firstDefined_line (p : l.Parts) (ctx : Context) {first last steps : ℤ} (h0 : 0 ≤ first)
    (hle : first ≤ last) (hlast : last ≤ 10 ^ 18) (hsteps : 1 ≤ steps) :
    (Curve.line l).firstDefined ctx first last steps = .ok (some first) := by
  obtain ⟨n, hn⟩ : ∃ n, (min (last - first + 1) steps).toNat = n + 1 :=
    ⟨(min (last - first + 1) steps).toNat - 1, by omega⟩
  obtain ⟨z, hz, -⟩ := p.evaluate_sharp ctx h0 (by omega)
  show (Curve.line l).scan ctx first (min (last - first + 1) steps).toNat = _
  rw [hn]
  refine bind_eq_ok.mpr ⟨true, bind_eq_ok.mpr ⟨_, hz, rfl⟩, rfl⟩

/-- Where the walk along a line begins, and why it may not. -/
theorem findStart_line (p : l.Parts) (hscale : span.AtScale collateral intervals)
    (hne : intervals ≠ []) (settings : Settings) (ctx : Context) (hwide : 1 < span.last - span.first) :
    let s := span.stretch collateral (.line l) (.ofNonempty intervals hne) settings
    (Blocked collateral (l.exact (span.first + 1)) (l.exact (span.last - 1)) →
      s.findStart ctx (span.first + 1) =
        .error (.coverage (.neverPayable (span.first + 1) (span.last - 1) collateral))) ∧
    (¬Blocked collateral (l.exact (span.first + 1)) (l.exact (span.last - 1)) →
      s.findStart ctx (span.first + 1) = .ok (span.first + 1)) := by
  intro s
  have h0 := hscale.first_nonneg
  have hlast := hscale.last_lt
  have hsteps := settings.scanSteps_pos
  obtain ⟨z, hz, hsharp, -⟩ := p.evaluate_sharp ctx (x := span.first + 1) (by omega) (by omega)
  obtain ⟨z', hz', hsharp', -⟩ := p.evaluate_sharp ctx (x := span.last - 1) (by omega) (by omega)
  have hdefined : (Curve.line l).firstDefined ctx (span.first + 1) (span.last - 1) settings.scanSteps =
      .ok (some (span.first + 1)) :=
    firstDefined_line p ctx (by omega) (by omega) (by omega) (by omega)
  exact Stretch.findStart_of_sharp (s := s) (hscale.sized (.line l) settings hne) hdefined hz hz'
    hsharp hsharp'

theorem follows_segmentAt (p : l.Parts) (hscale : span.AtScale collateral intervals) (policy : RoundingPolicy)
    (settings : Settings) (ctx : Context) {x : ℤ} (hx : span.first < x) :
    ((span.stretch collateral (.line l) policy settings).segmentAt x).Follows ctx
      (decide (0 < p.slope)) l.exact x := by
  have h0 := hscale.first_nonneg
  have hend := policy.segmentEnd_le x span.last
  exact p.follows ctx rfl (by omega) (hend.trans hscale.last_lt.le)

theorem segmentsPay_line (p : l.Parts) (hscale : span.AtScale collateral intervals)
    (hne : intervals ≠ []) (settings : Settings) (ctx : Context) :
    (span.stretch collateral (.line l) (.ofNonempty intervals hne) settings).SegmentsPay ctx
      ((span.stretch collateral (.line l) (.ofNonempty intervals hne) settings).payout l.exact)
      (span.first + 1) := by
  refine Stretch.segmentsPay_of_forall fun x hx hxl => ?_
  have h0 := hscale.first_nonneg
  have hlt := RoundingPolicy.lt_segmentEnd (.ofNonempty intervals hne) hxl
  have hend := RoundingPolicy.segmentEnd_le (.ofNonempty intervals hne) x span.last
  refine Stretch.split_of_follows (hscale.sized (.line l) settings hne) hxl
    (follows_segmentAt p hscale _ settings ctx (by omega)) (fun z z' hz hz' => ?_) fun y _ _ => Sharp.refl _
  exact p.lt_eq ctx (by omega) hlt (hend.trans hscale.last_lt.le) hz hz'

/-- With any context a span along a line is split into the exact payouts, unless it is blocked. -/
theorem splitByIntervals_line_of_context (p : l.Parts) (hscale : span.AtScale collateral intervals)
    (hne : intervals ≠ []) (hctx : settings.context = .ok ctx) :
    (span.LineBlocked collateral l → span.splitByIntervals collateral (.line l) intervals settings =
      .error (.coverage (.neverPayable (span.first + 1) (span.last - 1) collateral))) ∧
    (¬span.LineBlocked collateral l → ∃ ranges,
      span.splitByIntervals collateral (.line l) intervals settings = .ok ranges ∧
        ∀ x, span.first < x → x < span.last → payoutAt? ranges x =
          some (clampInt (nearestMultiple ((RoundingPolicy.ofNonempty intervals hne).modulusAt x)
            (l.exact x)) 0 collateral)) := by
  have hpolicy := RoundingPolicy.ofList_eq_ok.mpr ⟨hne, rfl⟩
  have hs := hscale.sized (.line l) settings hne
  constructor
  · rintro ⟨hwide, hblocked⟩
    refine splitByIntervals_of_fault hscale.check hpolicy hctx hwide ?_
    exact (findStart_line p hscale hne settings ctx hwide).1 hblocked
  · intro hfree
    by_cases hwide : 1 < span.last - span.first
    · have hstart := (findStart_line p hscale hne settings ctx hwide).2
        fun hblocked => hfree ⟨hwide, hblocked⟩
      have hend := RoundingPolicy.lt_segmentEnd (.ofNonempty intervals hne)
        (show span.first + 1 < span.last by omega)
      obtain ⟨ranges, hranges, hpays⟩ := splitByIntervals_of_segmentsPay hscale.check hpolicy hctx hs hwide
        hstart (segmentsPay_line p hscale hne settings ctx)
        ((follows_segmentAt p hscale _ settings ctx (by omega)).levelAt (hs.segmentAt _) le_rfl hend.le)
        (Stretch.payout_eq hs le_rfl hend).symm
      refine ⟨ranges, hranges, fun x hx hxl => ?_⟩
      rw [hpays x hx hxl, max_eq_right (by omega)]
      rfl
    · refine ⟨_, splitByIntervals_of_narrow hscale.check hpolicy hctx (by omega), fun x hx hxl => ?_⟩
      omega

theorem splitByIntervals_line_of_settings (p : l.Parts) (hscale : span.AtScale collateral intervals)
    (hne : intervals ≠ []) (hprec : settings.precision ≤ 10 ^ 6) :
    (span.LineBlocked collateral l → span.splitByIntervals collateral (.line l) intervals settings =
      .error (.coverage (.neverPayable (span.first + 1) (span.last - 1) collateral))) ∧
    (¬span.LineBlocked collateral l → ∃ ranges,
      span.splitByIntervals collateral (.line l) intervals settings = .ok ranges ∧
        ∀ x, span.first < x → x < span.last → payoutAt? ranges x =
          some (clampInt (nearestMultiple ((RoundingPolicy.ofNonempty intervals hne).modulusAt x)
            (l.exact x)) 0 collateral)) := by
  obtain ⟨ctx, hctx⟩ := Settings.context_succeeds hprec
  exact splitByIntervals_line_of_context p hscale hne hctx

/-- Along a line the answer is the same for all settings: the exact payouts of the line, rounded to
the nearest multiples and limited to what the collateral covers, unless the line lies on one side of
what can be paid at both ends. -/
theorem splitByIntervals_line {policy : RoundingPolicy} (hscale : span.AtScale collateral intervals)
    (hl : l.AtScale) (hpolicy : RoundingPolicy.ofList intervals = .ok policy) :
    ∃ answer : Except Failure (List PayoutRange),
      (∀ settings : Settings, settings.precision ≤ 10 ^ 6 →
        span.splitByIntervals collateral (.line l) intervals settings = answer) ∧
      (∀ failure, answer = .error failure ↔ span.LineBlocked collateral l ∧
        failure = .coverage (.neverPayable (span.first + 1) (span.last - 1) collateral)) ∧
      (¬span.LineBlocked collateral l → ∃ ranges, answer = .ok ranges ∧
        ∀ x, span.first < x → x < span.last → payoutAt? ranges x =
          some (clampInt (nearestMultiple (policy.modulusAt x) (l.exact x)) 0 collateral)) := by
  obtain ⟨p⟩ := hl.parts
  obtain ⟨hne, rfl⟩ := RoundingPolicy.ofList_eq_ok.mp hpolicy
  refine exists_answer hscale.collateral_lt hscale.modulus_lt fun settings hprec => ?_
  exact splitByIntervals_line_of_settings p hscale hne hprec

/-- A line that rises to the collateral in steps of five. -/
theorem splitByIntervals_line_rising : ∃ ranges,
    splitByIntervals ⟨0, 10, 0, 10⟩ 10 (.line ⟨⟨0, .ofInt 0⟩, ⟨10, .ofInt 10⟩, by decide⟩)
      [⟨0, 5, by decide, by decide⟩] Settings.standard = .ok ranges ∧ payoutAt? ranges 4 = some 5 := by
  have hscale : Span.AtScale ⟨0, 10, 0, 10⟩ 10 [⟨0, 5, by decide, by decide⟩] :=
    ⟨by decide, by decide, by decide, by decide, by decide, by decide, by decide, by simp⟩
  have hl : Line.AtScale ⟨⟨0, .ofInt 0⟩, ⟨10, .ofInt 10⟩, by decide⟩ := by
    refine ⟨by decide, by decide, ⟨rfl, 0, by norm_num, ?_⟩, ⟨rfl, 10 ^ 17, by norm_num, ?_⟩⟩
    · exact (Decimal.Finite.value_ofInt 0).trans (by norm_num)
    · exact (Decimal.Finite.value_ofInt 10).trans (by norm_num)
  obtain ⟨answer, hanswer, -, hfree⟩ := splitByIntervals_line hscale hl rfl
  have hexact : ∀ x : ℤ, Line.exact ⟨⟨0, .ofInt 0⟩, ⟨10, .ofInt 10⟩, by decide⟩ x = x := by
    intro x
    have h0 := Decimal.Finite.value_ofInt 0
    have h10 := Decimal.Finite.value_ofInt 10
    simp only [Line.exact, Decimal.ofInt, Decimal.number, h0, h10]
    push_cast
    ring
  obtain ⟨ranges, hranges, hpays⟩ := hfree (by
    rintro ⟨-, hblocked⟩
    rw [hexact, hexact] at hblocked
    norm_num [Blocked] at hblocked)
  refine ⟨ranges, (hanswer _ (by decide)).trans hranges, ?_⟩
  rw [hpays 4 (by decide) (by decide), hexact]
  decide +kernel

end Span

end NumericContract
