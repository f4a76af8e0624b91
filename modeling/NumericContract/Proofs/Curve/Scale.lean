import NumericContract.Proofs.Staircase.Following

/-!
# The design scale

Outcomes, moduli and the collateral are integers below `10 ^ 18`, coefficients and payouts
multiples of `10 ^ -16` below it. At this scale the payouts of a curve that a walk compares with
levels and midpoints are computed so precisely that no comparison comes out differently.
-/

namespace NumericContract

open Decimal PayoutRange Segment

/-- A number with at most `j` decimal places. -/
def OnGrid (j : ℕ) (q : ℚ) : Prop := ∃ k : ℤ, q = k / 10 ^ j

namespace OnGrid

variable {i j : ℕ} {p q : ℚ}

theorem intCast (j : ℕ) (n : ℤ) : OnGrid j n :=
  ⟨n * 10 ^ j, by push_cast; field_simp⟩

theorem neg (h : OnGrid j q) : OnGrid j (-q) := by
  obtain ⟨k, rfl⟩ := h
  exact ⟨-k, by push_cast; ring⟩

theorem add (h : OnGrid j p) (h' : OnGrid j q) : OnGrid j (p + q) := by
  obtain ⟨k, rfl⟩ := h
  obtain ⟨k', rfl⟩ := h'
  exact ⟨k + k', by push_cast; ring⟩

theorem sub (h : OnGrid j p) (h' : OnGrid j q) : OnGrid j (p - q) := by
  rw [sub_eq_add_neg]
  exact h.add h'.neg

theorem mul (h : OnGrid i p) (h' : OnGrid j q) : OnGrid (i + j) (p * q) := by
  obtain ⟨k, rfl⟩ := h
  obtain ⟨k', rfl⟩ := h'
  exact ⟨k * k', by push_cast; rw [pow_add]; field_simp⟩

theorem abs (h : OnGrid j q) : OnGrid j |q| := by
  rcases abs_choice q with hq | hq <;> rw [hq]
  · exact h
  · exact h.neg

theorem mono (h : OnGrid i q) (hij : i ≤ j) : OnGrid j q := by
  obtain ⟨k, rfl⟩ := h
  refine ⟨k * 10 ^ (j - i), ?_⟩
  rw [← Nat.sub_add_cancel hij, pow_add, Nat.add_sub_cancel]
  push_cast
  field_simp

theorem zpow {k : ℤ} (hk : -j ≤ k) : OnGrid j (10 ^ k) := by
  refine ⟨10 ^ (k + j).toNat, ?_⟩
  rw [eq_div_iff (by positivity), ← zpow_natCast, ← ten_zpow_add]
  push_cast
  rw [← zpow_natCast, Int.toNat_of_nonneg (by omega)]

theorem le_abs (h : OnGrid j q) (h0 : q ≠ 0) : 1 / 10 ^ j ≤ |q| := by
  obtain ⟨k, rfl⟩ := h
  have hk : k ≠ 0 := by
    rintro rfl
    simp at h0
  have hk1 : (1 : ℚ) ≤ |(k : ℚ)| := by exact_mod_cast Int.one_le_abs hk
  rw [abs_div, abs_of_pos (show (0 : ℚ) < 10 ^ j by positivity)]
  gcongr

theorem representable (h : OnGrid j q) (ctx : Context) (hj : j ≤ 1000) (hq : |q| * 10 ^ j < 10 ^ 78) :
    ctx.widened.Representable q := by
  obtain ⟨k, rfl⟩ := h
  refine Context.Representable.div_pow hj ?_
  have hk : |(k : ℚ)| < 10 ^ 78 := by
    rwa [abs_div, abs_of_pos (show (0 : ℚ) < 10 ^ j by positivity), div_mul_cancel₀ _ (by positivity)] at hq
  exact lt_of_lt_of_le (by exact_mod_cast hk) (pow_le_pow_right₀ (by norm_num) (le_max_left _ _))

end OnGrid

theorem IsHalfInteger.onGrid {q : ℚ} (h : IsHalfInteger q) : OnGrid 16 q := by
  obtain ⟨k, -, rfl⟩ := h
  exact ⟨5 * 10 ^ 15 * k, by push_cast; ring⟩

theorem IsHalfInteger.abs_le {q : ℚ} (h : IsHalfInteger q) : |q| ≤ 5 * 10 ^ 19 := by
  obtain ⟨k, hk, rfl⟩ := h
  have hk' : |(k : ℚ)| ≤ 10 ^ 20 := by exact_mod_cast hk
  rw [abs_div, abs_of_pos (show (0 : ℚ) < 2 by norm_num)]
  linarith

/-- A multiple of `10 ^ -16` whose absolute value is below `10 ^ 18`. -/
def AtScale (q : ℚ) : Prop := ∃ k : ℤ, |k| < 10 ^ 34 ∧ q = k / 10 ^ 16

theorem AtScale.abs_lt {q : ℚ} (h : AtScale q) : |q| < 10 ^ 18 := by
  obtain ⟨k, hk, rfl⟩ := h
  have hk' : |(k : ℚ)| < 10 ^ 34 := by exact_mod_cast hk
  rw [abs_div, abs_of_pos (show (0 : ℚ) < 10 ^ 16 by norm_num), div_lt_iff₀ (by norm_num)]
  linarith

theorem AtScale.onGrid {q : ℚ} (h : AtScale q) : OnGrid 16 q := by
  obtain ⟨k, -, hq⟩ := h
  exact ⟨k, hq⟩

/-- The number that a datum stands for, zero if there is none. -/
def Decimal.number : Decimal → ℚ
  | .finite x => x.value
  | _ => 0

def Decimal.AtScale (y : Decimal) : Prop := y.isFinite = true ∧ NumericContract.AtScale y.number

theorem Decimal.AtScale.exists_finite {y : Decimal} (h : y.AtScale) :
    ∃ x : Decimal.Finite, y = .finite x ∧ NumericContract.AtScale x.value ∧ y.number = x.value := by
  cases y with
  | finite x => exact ⟨x, rfl, h.2, rfl⟩
  | infinity => cases h.1
  | nan => cases h.1

theorem atScale_value {x : Decimal.Finite} (hc : x.coefficient < 10 ^ 18) (hlow : -16 ≤ x.exponent)
    (hhigh : x.exponent ≤ 0) : AtScale x.value := by
  obtain ⟨j, hj⟩ : ∃ j : ℕ, x.exponent = j - 16 := ⟨(x.exponent + 16).toNat, by omega⟩
  have hsigned : |x.signed| = x.coefficient := by
    unfold Finite.signed
    split <;> simp
  have hpow : (10 : ℤ) ^ j ≤ 10 ^ 16 := pow_le_pow_right₀ (by norm_num) (by omega)
  refine ⟨x.signed * 10 ^ j, ?_, ?_⟩
  · rw [abs_mul, hsigned, abs_of_pos (show (0 : ℤ) < 10 ^ j by positivity)]
    calc (x.coefficient : ℤ) * 10 ^ j < 10 ^ 18 * 10 ^ j := by gcongr; exact_mod_cast hc
      _ ≤ 10 ^ 18 * 10 ^ 16 := by gcongr
      _ = 10 ^ 34 := by norm_num
  · rw [Finite.value, hj, zpow_sub₀ (by norm_num), zpow_natCast]
    push_cast
    rw [← mul_div_assoc]
    norm_cast

theorem Decimal.Finite.isZero_one : (Finite.ofInt 1).isZero = false := by decide

def Hyperbola.Scaled (h : Hyperbola) : Prop :=
  ∀ c ∈ h.coefficients, NumericContract.AtScale c.2.value

theorem Hyperbola.scaled_of_digits {h : Hyperbola} (hdigits : ∀ c ∈ h.coefficients,
    c.2.coefficient < 10 ^ 18 ∧ -16 ≤ c.2.exponent ∧ c.2.exponent ≤ 0) : h.Scaled :=
  fun c hc => atScale_value (hdigits c hc).1 (hdigits c hc).2.1 (hdigits c hc).2.2

/-- A span of the design scale, with payouts that the collateral covers at both ends. -/
structure Span.AtScale (span : Span) (collateral : ℤ) (intervals : List RoundingInterval) : Prop where
  first_nonneg : 0 ≤ span.first
  first_lt_last : span.first < span.last
  last_lt : span.last < 10 ^ 18
  collateral_nonneg : 0 ≤ collateral
  collateral_lt : collateral < 10 ^ 18
  firstPayout_bounds : 0 ≤ span.firstPayout ∧ span.firstPayout ≤ collateral
  lastPayout_bounds : 0 ≤ span.lastPayout ∧ span.lastPayout ≤ collateral
  modulus_lt : ∀ interval ∈ intervals, interval.modulus < 10 ^ 18

namespace Span.AtScale

variable {span : Span} {collateral : ℤ} {intervals : List RoundingInterval}

theorem check (h : span.AtScale collateral intervals) : span.check collateral = .ok () :=
  check_eq_ok_iff.mpr ⟨h.first_lt_last, h.first_nonneg, h.collateral_nonneg, h.firstPayout_bounds,
    h.lastPayout_bounds⟩

theorem sized (h : span.AtScale collateral intervals) (curve : Curve) (settings : Settings)
    (hne : intervals ≠ []) :
    (span.stretch collateral curve (.ofNonempty intervals hne) settings).Sized :=
  ⟨fun interval hmem => h.modulus_lt interval (List.mem_mergeSort.mp hmem), h.collateral_nonneg,
    h.collateral_lt⟩

end Span.AtScale

/-- The modulus one for every outcome: what is paid is a whole number and nothing else is asked. -/
def RoundingInterval.unit : RoundingInterval := .always 1 (by decide)

@[simp] theorem RoundingInterval.unit_modulus : unit.modulus = 1 := rfl

def RoundingPolicy.unit : RoundingPolicy := .ofNonempty [.unit] (by simp)

theorem Settings.context_succeeds {settings : Settings} (h : settings.precision ≤ 10 ^ 6) :
    ∃ ctx, settings.context = .ok ctx := by
  unfold context
  rw [if_pos (h.trans (by decide))]
  exact ⟨_, rfl⟩

theorem one_div_le_abs {q b : ℚ} {n d : ℤ} (hq : q * d = n) (h0 : q ≠ 0) (hd : d ≠ 0)
    (hdb : |(d : ℚ)| ≤ b) : 1 / b ≤ |q| := by
  have hd1 : (1 : ℚ) ≤ |(d : ℚ)| := by exact_mod_cast Int.one_le_abs hd
  have hn0 : n ≠ 0 := by
    intro hn
    rw [hn, Int.cast_zero] at hq
    rcases mul_eq_zero.mp hq with h | h
    · exact h0 h
    · exact hd (by exact_mod_cast h)
  have hn1 : (1 : ℚ) ≤ |(n : ℚ)| := by exact_mod_cast Int.one_le_abs hn0
  rw [← hq, abs_mul] at hn1
  rw [div_le_iff₀ (by linarith)]
  exact hn1.trans (mul_le_mul_of_nonneg_left hdb (abs_nonneg q))

/-! ## Payouts and inverses -/

/-- Whether two payouts lie both above the collateral or both below zero. -/
def Blocked (collateral : ℤ) (p q : ℚ) : Prop :=
  (collateral < p ∧ collateral < q) ∨ (p < 0 ∧ q < 0)

/-- Where a walk begins, and why it may not, is decided by the exact payouts. -/
theorem Stretch.findStart_of_sharp {ctx : Context} {s : Stretch} (hs : s.Sized) {first start : ℤ}
    {z z' : Decimal.Finite} {p q : ℚ}
    (hdefined : s.curve.firstDefined ctx first (s.stop - 1) s.scanSteps = .ok (some start))
    (hz : s.curve.evaluate ctx start = .ok (.finite z))
    (hz' : s.curve.evaluate ctx (s.stop - 1) = .ok (.finite z')) (hp : Sharp z.value p)
    (hq : Sharp z'.value q) :
    (Blocked s.collateral p q → s.findStart ctx first =
      .error (.coverage (.neverPayable start (s.stop - 1) s.collateral))) ∧
    (¬Blocked s.collateral p q → s.findStart ctx first = .ok start) := by
  have hc0 := hs.collateral_nonneg
  have hc := hs.collateral_lt
  have hcb : |s.collateral| ≤ 10 ^ 18 := abs_le.mpr ⟨by omega, by omega⟩
  have h1 := (hp.intCast_lt_iff hcb).1
  have h2 := (hq.intCast_lt_iff hcb).1
  have h3 := (hp.intCast_lt_iff (k := 0) (by norm_num)).2
  have h4 := (hq.intCast_lt_iff (k := 0) (by norm_num)).2
  rw [Int.cast_zero] at h3 h4
  rw [findStart_eq hdefined, checkPayable_eq hz hz']
  have hiff : (s.collateral < z.value ∧ s.collateral < z'.value) ∨ (z.value < 0 ∧ z'.value < 0) ↔
      Blocked s.collateral p q := by
    rw [h1, h2, h3, h4, Blocked]
  constructor
  · intro h
    rw [if_pos (hiff.mpr h)]
    rfl
  · intro h
    rw [if_neg (mt hiff.mp h)]
    rfl

/-- How a payout is computed at last: a rounded quotient, a number `base` of the design scale, and their
rounded sum. -/
structure QuotientSum (ctx : Context) (q base quotient z : ℚ) : Prop where
  base_atScale : AtScale base
  quotient_rounds : ctx.widened.Rounds q quotient
  sum_rounds : ctx.widened.Rounds (quotient + base) z

namespace QuotientSum

variable {ctx : Context} {q base quotient z : ℚ}

theorem error (h : QuotientSum ctx q base quotient z) :
    |z - (q + base)| ≤ (3 * |q| + 10 ^ 18) / 10 ^ 77 + 2 / 10 ^ 200 := by
  have hwide : 78 ≤ ctx.widened.precision := le_max_left _ _
  have hbase := h.base_atScale.abs_lt
  have hq := h.quotient_rounds.error hwide
  have hq2 := h.quotient_rounds.abs_le_two_mul
  have hz := h.sum_rounds.error hwide
  have hsum := abs_add_le quotient base
  rw [abs_le] at hq hz ⊢
  constructor <;> linarith

theorem abs_le (h : QuotientSum ctx q base quotient z) : |z| ≤ 4 * |q| + 2 * 10 ^ 18 := by
  have hbase := h.base_atScale.abs_lt
  have hq2 := h.quotient_rounds.abs_le_two_mul
  have hz2 := h.sum_rounds.abs_le_two_mul
  have hsum := abs_add_le quotient base
  linarith

/-- A payout that is half of an integer is exact: so is the quotient then, which has the decimals of `base`. -/
theorem eq_of_half (h : QuotientSum ctx q base quotient z) (hhalf : IsHalfInteger (q + base)) :
    z = q + base := by
  have hsize := hhalf.abs_le
  have hbase := h.base_atScale.abs_lt
  have hq : OnGrid 16 q := by
    have hdiff := hhalf.onGrid.sub h.base_atScale.onGrid
    rwa [add_sub_cancel_right] at hdiff
  have hqb : |q| ≤ 10 ^ 20 := by
    have hdiff := abs_sub (q + base) base
    rw [add_sub_cancel_right] at hdiff
    linarith
  have hsum := h.sum_rounds
  rw [h.quotient_rounds.eq_self (hq.representable ctx (by norm_num) (by linarith))] at hsum
  exact hsum.eq_self (hhalf.onGrid.representable ctx (by norm_num) (by linarith))

/-- A payout whose error is smaller than its distance from the halves that it does not meet compares like the
exact one. -/
theorem sharp (h : QuotientSum ctx q base quotient z) (gap : ℚ) (herr : |z - (q + base)| < gap)
    (hgap : ∀ j : ℤ, q + base ≠ j / 2 → gap ≤ |q + base - j / 2|) : Sharp z (q + base) :=
  sharp_of_gap gap herr (fun j _ hne => hgap j hne) fun j hj heq => h.eq_of_half ⟨j, hj, heq⟩

end QuotientSum

theorem Hyperbola.invert_of_c_ne_zero {h : Hyperbola} (hc : h.c.isZero = false) (ctx : Context)
    (y : Decimal) : h.invert ctx y = .error .unsupportedInversion := by
  unfold invert
  rw [hc]
  rfl

/-- Where `c` is zero an inversion looks for the place of the payout and for the outcome nearest to it. -/
theorem Hyperbola.invert_of_c_zero {h : Hyperbola} (hc : h.c.isZero = true) (ctx : Context)
    (y : Decimal) : h.invert ctx y =
      (Failure.ofArithmetic (h.inverse? ctx.widened y)).map (·.bind nearestOutcome?) := by
  unfold invert
  rw [hc]
  change (Failure.ofArithmetic (h.inverse? ctx.widened y) >>= _) = _
  cases h.inverse? ctx.widened y with
  | error signal => rfl
  | ok place? => cases place? <;> rfl

theorem Hyperbola.invert_of_inverse? {h : Hyperbola} {ctx : Context} {y : Decimal} (hc : h.c.isZero = true)
    (place? : Option Decimal) (hplace : h.inverse? ctx.widened y = .ok place?) :
    h.invert ctx y = .ok (place?.bind nearestOutcome?) := by
  rw [invert_of_c_zero hc, hplace]
  rfl

/-- An inverse that is computed to within a third of an outcome is placed right, even if the place itself is
told apart from outcomes only to within a tenth. -/
theorem places_of_near {ascending : Bool} {w : ℤ → ℚ} {y place : ℚ} {current stop : ℤ}
    {x' : Decimal.Finite} (h0 : 0 ≤ current) (hlt : current < stop) (herr : |x'.value - place| ≤ 1 / 3)
    (hbefore : ∀ x : ℤ, current ≤ x → x < stop → Near ascending y (w x) → (x : ℚ) ≤ place + 1 / 10)
    (hafter : ∀ x : ℤ, current ≤ x → x < stop → ¬Near ascending y (w x) → place ≤ x + 1 / 10)
    (hnear : Near ascending y (w current)) :
    ∃ c, (Decimal.finite x').nearestOutcome? = some c ∧ current ≤ c ∧
      Places ascending w y current stop (some c) := by
  have herr := abs_le.mp herr
  have hcur := hbefore current le_rfl hlt hnear
  have h0' : (0 : ℚ) ≤ current := by exact_mod_cast h0
  rw [nearestOutcome?_finite, if_pos (by linarith)]
  have h1 := Int.floor_le (x'.value + 1 / 2)
  have h2 := Int.lt_floor_add_one (x'.value + 1 / 2)
  generalize ⌊x'.value + 1 / 2⌋ = c at h1 h2
  have hc : current ≤ c := by
    have : (current : ℚ) < c + 1 := by linarith
    exact Int.lt_add_one_iff.mp (by exact_mod_cast this)
  refine ⟨c, rfl, hc, fun x hx hxs => ⟨fun hxc => ?_, fun _ hxc hxn => ?_⟩⟩
  · by_contra hfar
    have hstep : (x : ℚ) + 1 ≤ c := by exact_mod_cast (show x + 1 ≤ c by omega)
    linarith [hafter x hx hxs hfar]
  · have hstep : (c : ℚ) + 1 ≤ x := by exact_mod_cast hxc
    linarith [hbefore x hx hxs hxn]

theorem places_of_root {ascending : Bool} {w : ℤ → ℚ} {y root : ℚ} {current stop : ℤ}
    {x' : Decimal.Finite} (h0 : 0 ≤ current) (hlt : current < stop) (herr : |x'.value - root| ≤ 1 / 4)
    (hroot : ∀ x : ℤ, current ≤ x → x < stop →
      (Near ascending y (w x) ↔ if ascending then (x : ℚ) < root else (x : ℚ) ≤ root))
    (hnear : Near ascending y (w current)) :
    Places ascending w y current stop (Decimal.finite x').nearestOutcome? := by
  have hbefore : ∀ x : ℤ, current ≤ x → x < stop → Near ascending y (w x) → (x : ℚ) ≤ root + 1 / 10 := by
    intro x hx hxs hxn
    have := (hroot x hx hxs).mp hxn
    split at this <;> linarith
  have hafter : ∀ x : ℤ, current ≤ x → x < stop → ¬Near ascending y (w x) → root ≤ x + 1 / 10 := by
    intro x hx hxs hxn
    rw [hroot x hx hxs] at hxn
    split at hxn <;> linarith
  obtain ⟨c, hc, -, hplaces⟩ := places_of_near h0 hlt (herr.trans (by norm_num)) hbefore hafter hnear
  rwa [hc]

end NumericContract
