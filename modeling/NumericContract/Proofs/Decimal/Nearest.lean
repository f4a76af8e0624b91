import NumericContract.Proofs.Decimal.Integer
import NumericContract.Decimal.Arithmetic

/-!
# Rounding to a context

The form that a context gives to an exact result is a representable number nearest to it. From
this follows all that is used of rounded arithmetic: representable results are exact, rounding
does not cross a representable number, and its error is small beside the number.
-/

namespace NumericContract

open Magnitude

namespace Magnitude

theorem abs_divHalfEven_sub_le (n : ℕ) {d : ℕ} (hd : 0 < d) :
    |(divHalfEven n d : ℚ) - n / d| ≤ 1 / 2 := by
  obtain ⟨f, hsplit, hf0, hf1, hfd⟩ := div_split n hd
  have hd' : (0 : ℚ) < d := by exact_mod_cast hd
  rw [hsplit]
  unfold divHalfEven
  split
  · next h =>
    have h' : (2 : ℚ) * (n % d : ℕ) < d := by exact_mod_cast h
    rw [abs_le]
    constructor <;> nlinarith
  · split
    · next h =>
      have h' : (d : ℚ) < 2 * (n % d : ℕ) := by exact_mod_cast h
      push_cast
      rw [abs_le]
      constructor <;> nlinarith
    · next h₁ h₂ =>
      have h' : (d : ℚ) = 2 * (n % d : ℕ) := by exact_mod_cast (show d = 2 * (n % d) by omega)
      have hhalf : f = 1 / 2 := by nlinarith
      rcases Nat.mod_two_eq_zero_or_one (n / d) with hp | hp <;> rw [hp, hhalf] <;> norm_num

/-- What is left of a number after digits are dropped exceeds the digits that are kept at most by
having been rounded up to the next power of ten. -/
theorem divHalfEven_le_pow {c drop p : ℕ} (h : digitCount c ≤ p + drop) :
    divHalfEven c (10 ^ drop) ≤ 10 ^ p := by
  have hten : 0 < 10 ^ drop := by positivity
  have hquot : (c : ℚ) / (10 ^ drop : ℕ) < 10 ^ p := by
    rw [div_lt_iff₀ (by exact_mod_cast hten)]
    have := digitCount_le_iff.mp h
    rw [pow_add] at this
    exact_mod_cast this
  have herr := (abs_le.mp (abs_divHalfEven_sub_le c hten)).2
  have hlt : (divHalfEven c (10 ^ drop) : ℚ) < 10 ^ p + 1 := by linarith
  have : divHalfEven c (10 ^ drop) < 10 ^ p + 1 := by exact_mod_cast hlt
  omega

end Magnitude

namespace Decimal.Context

theorem ten_zpow_le_abs_sub {i j : ℤ} (hne : i ≠ j) (e : ℤ) : (10 : ℚ) ^ e ≤ |(i : ℚ) * 10 ^ e - j * 10 ^ e| := by
  have hp := ten_zpow_pos e
  have hone : (1 : ℚ) ≤ |(i : ℚ) - j| := by
    exact_mod_cast Int.one_le_abs (sub_ne_zero.mpr hne)
  rw [← sub_mul, abs_mul, abs_of_pos hp]
  exact le_mul_of_one_le_left hp.le hone

/-- Of a bound and its negative, which `q` reaches, one is nearer to `q` than what lies within the bound. -/
theorem abs_bound_sub_le {bound q : ℚ} (z : ℚ) (h : bound ≤ |q|) :
    |bound - q| + (bound - |z|) ≤ |z - q| ∨ |-bound - q| + (bound - |z|) ≤ |z - q| := by
  have htri := abs_sub_abs_le_abs_sub q z
  rw [abs_sub_comm q] at htri
  rcases le_total 0 q with hq | hq
  · left
    rw [abs_of_nonneg hq] at h htri
    rw [abs_of_nonpos (by linarith : bound - q ≤ 0)]
    linarith
  · right
    rw [abs_of_nonpos hq] at h htri
    rw [abs_of_nonneg (by linarith : 0 ≤ -bound - q)]
    linarith

/-! ## Representable numbers -/

/-- A number with at most `precision` digits, none of them below the least exponent. -/
def Representable (ctx : Context) (q : ℚ) : Prop :=
  ∃ c e : ℤ, |c| < 10 ^ ctx.precision ∧ ctx.leastExponent ≤ e ∧ q = c * 10 ^ e

namespace Representable

variable {ctx : Context}

theorem precision_pos (ctx : Context) : 0 < ctx.precision :=
  lt_of_lt_of_le (by decide) ctx.precision_wide

theorem ten_zpow_precision (ctx : Context) (e : ℤ) :
    (10 : ℚ) ^ (ctx.precision - 1 + e) = ((10 ^ (ctx.precision - 1) : ℤ) : ℚ) * 10 ^ e := by
  have := precision_pos ctx
  rw [show ((ctx.precision : ℤ) - 1 + e) = ((ctx.precision - 1 : ℕ) : ℤ) + e by omega, ten_zpow_add,
    zpow_natCast]
  push_cast
  rfl

theorem abs_mul_zpow_lt {c e f : ℤ} (hc : |c| < 10 ^ ctx.precision) (hfe : f < e) :
    |(c : ℚ) * 10 ^ f| < 10 ^ (ctx.precision - 1 + e) := by
  have hc' : |(c : ℚ)| < 10 ^ ctx.precision := by exact_mod_cast hc
  calc |(c : ℚ) * 10 ^ f| = |(c : ℚ)| * 10 ^ f := by rw [abs_mul, abs_of_pos (ten_zpow_pos f)]
    _ < 10 ^ ctx.precision * 10 ^ f := mul_lt_mul_of_pos_right hc' (ten_zpow_pos f)
    _ = 10 ^ (ctx.precision + f) := by rw [ten_zpow_add, zpow_natCast]
    _ ≤ 10 ^ (ctx.precision - 1 + e) := ten_zpow_le (by omega)

theorem leastExponent_le (ctx : Context) : ctx.leastExponent ≤ -1000000 + 1 - 27 := by
  have := ctx.precision_wide
  unfold leastExponent minExponent
  omega

theorem neg {q : ℚ} (h : ctx.Representable q) : ctx.Representable (-q) := by
  obtain ⟨c, e, hc, he, rfl⟩ := h
  exact ⟨-c, e, by rwa [abs_neg], he, by push_cast; ring⟩

theorem abs {q : ℚ} (h : ctx.Representable q) : ctx.Representable |q| := by
  rcases abs_choice q with hq | hq <;> rw [hq]
  · exact h
  · exact h.neg

theorem zero (ctx : Context) : ctx.Representable 0 :=
  ⟨0, 0, by simp, by have := leastExponent_le ctx; omega, by simp⟩

theorem zpow {e : ℤ} (he : ctx.leastExponent ≤ e) : ctx.Representable (10 ^ e) :=
  ⟨1, e, by
    have : (10 : ℤ) ^ 1 ≤ 10 ^ ctx.precision := pow_le_pow_right₀ (by norm_num) (precision_pos ctx)
    norm_num at this ⊢
    omega, he, by simp⟩

/-- One digit more than there is room for is no harm if the coefficient is a power of ten. -/
theorem of_le {c e : ℤ} (hc : |c| ≤ 10 ^ ctx.precision) (he : ctx.leastExponent ≤ e) :
    ctx.Representable (c * 10 ^ e) := by
  rcases lt_or_eq_of_le hc with hlt | heq
  · exact ⟨c, e, hlt, he, rfl⟩
  have htop : ctx.Representable ((10 : ℚ) ^ (ctx.precision + e)) := zpow (by omega)
  rw [ten_zpow_add, zpow_natCast] at htop
  rcases abs_choice c with h | h <;> rw [h] at heq
  · rw [heq]
    push_cast
    exact htop
  · rw [show (c : ℚ) * 10 ^ e = -(((-c : ℤ) : ℚ) * 10 ^ e) by push_cast; ring, heq]
    push_cast
    exact htop.neg

theorem of_digits {c : ℤ} (hc : |c| < 10 ^ ctx.precision) (e : ℤ) :
    ctx.Representable (c * 10 ^ e) ∨ |(c : ℚ) * 10 ^ e| < 10 ^ minExponent := by
  rcases le_or_gt ctx.leastExponent e with he | he
  · exact Or.inl ⟨c, e, hc, he, rfl⟩
  · right
    have hp := ten_zpow_pos e
    have hc' : |(c : ℚ)| < 10 ^ (ctx.precision : ℤ) := by
      rw [zpow_natCast]
      exact_mod_cast hc
    have hle : (10 : ℚ) ^ (ctx.precision + e : ℤ) ≤ 10 ^ minExponent := by
      refine ten_zpow_le ?_
      unfold leastExponent at he
      omega
    rw [abs_mul, abs_of_pos hp]
    calc |(c : ℚ)| * 10 ^ e < 10 ^ (ctx.precision : ℤ) * 10 ^ e := mul_lt_mul_of_pos_right hc' hp
      _ = 10 ^ (ctx.precision + e : ℤ) := (ten_zpow_add _ _).symm
      _ ≤ 10 ^ minExponent := hle

end Representable

/-! ## Nearest representable numbers -/

/-- `y` is a representable number nearest to `q`. -/
structure Rounds (ctx : Context) (q y : ℚ) : Prop where
  representable : ctx.Representable y
  nearest : ∀ z, ctx.Representable z → |y - q| ≤ |z - q|

namespace Rounds

variable {ctx : Context} {q y z : ℚ}

theorem eq_self (h : ctx.Rounds q y) (hq : ctx.Representable q) : y = q := by
  have := h.nearest q hq
  rw [sub_self, abs_zero] at this
  exact sub_eq_zero.mp (abs_eq_zero.mp (le_antisymm this (abs_nonneg _)))

theorem self (hq : ctx.Representable q) : ctx.Rounds q q :=
  ⟨hq, fun z _ => by simp⟩

theorem neg (h : ctx.Rounds q y) : ctx.Rounds (-q) (-y) := by
  refine ⟨h.representable.neg, fun z hz => ?_⟩
  have := h.nearest (-z) hz.neg
  rw [show -y - -q = -(y - q) by ring, show z - -q = -(-z - q) by ring, abs_neg, abs_neg]
  exact this

theorem le_of_le (h : ctx.Rounds q y) (hz : ctx.Representable z) (hle : q ≤ z) : y ≤ z := by
  by_contra hlt
  rw [not_le] at hlt
  have := h.nearest z hz
  rw [abs_of_pos (by linarith), abs_of_nonneg (by linarith)] at this
  linarith

theorem ge_of_ge (h : ctx.Rounds q y) (hz : ctx.Representable z) (hle : z ≤ q) : z ≤ y := by
  have := h.neg.le_of_le hz.neg (neg_le_neg hle)
  linarith

theorem nonneg (h : ctx.Rounds q y) (hq : 0 ≤ q) : 0 ≤ y :=
  h.ge_of_ge (Representable.zero ctx) hq

theorem nonpos (h : ctx.Rounds q y) (hq : q ≤ 0) : y ≤ 0 :=
  h.le_of_le (Representable.zero ctx) hq

theorem abs_le_of_abs_le (h : ctx.Rounds q y) (hz : ctx.Representable z) (hle : |q| ≤ z) : |y| ≤ z := by
  obtain ⟨hlow, hhigh⟩ := abs_le.mp hle
  exact abs_le.mpr ⟨h.ge_of_ge hz.neg hlow, h.le_of_le hz hhigh⟩

/-- The middle between a nearest number and a smaller one is not above `q`. -/
theorem middle_le (h : ctx.Rounds q y) (hz : ctx.Representable z) (hlt : z < y) : (z + y) / 2 ≤ q := by
  by_contra hq
  have hnear := abs_le.mp (h.nearest z hz)
  rcases le_total z q with hle | hle
  · rw [abs_of_nonpos (show z - q ≤ 0 by linarith)] at hnear
    linarith
  · rw [abs_of_nonneg (show 0 ≤ z - q by linarith)] at hnear
    linarith

theorem le_middle (h : ctx.Rounds q y) (hz : ctx.Representable z) (hlt : y < z) : q ≤ (z + y) / 2 := by
  have hopposite := h.neg.middle_le hz.neg (neg_lt_neg hlt)
  linarith

/-- Rounding at most doubles the distance from a representable number. -/
theorem abs_sub_le_two_mul (h : ctx.Rounds q y) (hz : ctx.Representable z) : |y - z| ≤ 2 * |q - z| := by
  have hnear := h.nearest z hz
  rw [abs_sub_comm z] at hnear
  linarith [abs_sub_le y q z]

theorem abs_le_two_mul (h : ctx.Rounds q y) : |y| ≤ 2 * |q| := by
  simpa using h.abs_sub_le_two_mul (Representable.zero ctx)

/-- A multiple of `10 ^ e` at most half of it away is a nearest number, if nothing below `10 ^ e`
can be kept: because it is the least power or because `q` fills the digits. -/
theorem of_grid {e k : ℤ} (he : ctx.leastExponent ≤ e) (hk : |k| ≤ 10 ^ ctx.precision)
    (hfull : e = ctx.leastExponent ∨ (10 : ℚ) ^ (ctx.precision - 1 + e) ≤ |q|)
    (hnear : |k * 10 ^ e - q| ≤ 10 ^ e / 2) : ctx.Rounds q (k * 10 ^ e) := by
  -- other multiples of `10 ^ e` are at least half of it away
  have hgrid : ∀ j : ℤ, |k * 10 ^ e - q| ≤ |(j : ℚ) * 10 ^ e - q| := by
    intro j
    by_cases hj : j = k
    · rw [hj]
    have hgap := ten_zpow_le_abs_sub hj e
    have htri := abs_sub_le ((j : ℚ) * 10 ^ e) q (k * 10 ^ e)
    rw [abs_sub_comm q] at htri
    linarith
  refine ⟨Representable.of_le hk he, ?_⟩
  rintro z ⟨c, f, hc, hf, rfl⟩
  rcases le_or_gt e f with hef | hef
  · rw [ten_zpow_eq_natCast_mul hef, ← mul_assoc]
    exact_mod_cast hgrid (c * (10 ^ (f - e).toNat : ℕ))
  -- a number with a digit below `10 ^ e` is smaller than `q`
  have hfull' := hfull.resolve_left (by omega)
  have hz := Representable.abs_mul_zpow_lt hc hef
  rw [Representable.ten_zpow_precision] at hz hfull'
  rcases abs_bound_sub_le ((c : ℚ) * 10 ^ f) hfull' with hcloser | hcloser
  · have := hgrid (10 ^ (ctx.precision - 1))
    linarith
  · have := hgrid (-10 ^ (ctx.precision - 1))
    push_cast at this hz hcloser
    rw [neg_mul] at this
    linarith

theorem abs_round_mul_sub_le (q : ℚ) (e : ℤ) :
    |((round (q / 10 ^ e) : ℤ) : ℚ) * 10 ^ e - q| ≤ 10 ^ e / 2 := by
  have hp := ten_zpow_pos e
  have hround := abs_sub_round (q / 10 ^ e)
  have hscaled : ((round (q / 10 ^ e) : ℤ) : ℚ) * 10 ^ e - q = -(q / 10 ^ e - round (q / 10 ^ e)) * 10 ^ e := by
    field_simp
    ring
  rw [hscaled, abs_mul, abs_neg, abs_of_pos hp]
  nlinarith

theorem representable_round {e : ℤ} (he : ctx.leastExponent ≤ e)
    (hq : |q| < 10 ^ (ctx.precision + e) + 10 ^ e / 2) :
    ctx.Representable (((round (q / 10 ^ e) : ℤ) : ℚ) * 10 ^ e) := by
  have hp := ten_zpow_pos e
  rw [ten_zpow_add, zpow_natCast] at hq
  have hclose := abs_sub_abs_le_abs_sub (((round (q / 10 ^ e) : ℤ) : ℚ) * 10 ^ e) q
  rw [abs_mul, abs_of_pos hp] at hclose
  have hscaled : |((round (q / 10 ^ e) : ℤ) : ℚ)| * 10 ^ e < (10 ^ ctx.precision + 1) * 10 ^ e := by
    linarith [abs_round_mul_sub_le q e]
  have hfew : |round (q / 10 ^ e)| < 10 ^ ctx.precision + 1 := by
    exact_mod_cast lt_of_mul_lt_mul_right hscaled hp.le
  exact Representable.of_le (Int.lt_add_one_iff.mp hfew) he

theorem error_le_half {e : ℤ} (h : ctx.Rounds q y) (he : ctx.leastExponent ≤ e)
    (hq : |q| < 10 ^ (ctx.precision + e) + 10 ^ e / 2) : |y - q| ≤ 10 ^ e / 2 :=
  (h.nearest _ (representable_round he hq)).trans (abs_round_mul_sub_le q e)

theorem exists_representable_near (ctx : Context) (q : ℚ) :
    ∃ z, ctx.Representable z ∧
      |z - q| ≤ |q| * 10 ^ (1 - ctx.precision : ℤ) / 2 + 10 ^ ctx.leastExponent / 2 := by
  have hrhs : 0 ≤ |q| * 10 ^ (1 - ctx.precision : ℤ) / 2 + 10 ^ ctx.leastExponent / 2 := by positivity
  rcases eq_or_ne q 0 with rfl | hq
  · exact ⟨0, Representable.zero ctx, by simpa using hrhs⟩
  have hpos : 0 < |q| := abs_pos.mpr hq
  set e := max (Int.log 10 |q| + 1 - ctx.precision) ctx.leastExponent with he
  have hp := ten_zpow_pos e
  have hlog : (10 : ℚ) ^ Int.log 10 |q| ≤ |q| := by
    exact_mod_cast Int.zpow_log_le_self (b := 10) (by decide) hpos
  have hlt : |q| < 10 ^ (Int.log 10 |q| + 1) := by
    exact_mod_cast Int.lt_zpow_succ_log_self (b := 10) (by decide) |q|
  have hfew : |q| < 10 ^ (ctx.precision + e) + 10 ^ e / 2 := by
    have hle : (10 : ℚ) ^ (Int.log 10 |q| + 1) ≤ 10 ^ (ctx.precision + e) := ten_zpow_le (by omega)
    linarith
  refine ⟨_, representable_round (le_max_right _ _) hfew, (abs_round_mul_sub_le q e).trans ?_⟩
  have h1 : (10 : ℚ) ^ (Int.log 10 |q| + 1 - ctx.precision) ≤ |q| * 10 ^ (1 - ctx.precision : ℤ) := by
    rw [add_sub_assoc, ten_zpow_add]
    exact mul_le_mul_of_nonneg_right hlog (ten_zpow_pos _).le
  have h2 := ten_zpow_pos ctx.leastExponent
  have h3 := ten_zpow_pos (Int.log 10 |q| + 1 - ctx.precision)
  rcases le_total (Int.log 10 |q| + 1 - ctx.precision : ℤ) ctx.leastExponent with h | h
  · rw [he, max_eq_right h]
    linarith
  · rw [he, max_eq_left h]
    linarith

/-- With 78 digits it is nearer than a part in `10 ^ 77`, and nearer than `10 ^ -200` to numbers so small that
the least exponent counts. -/
theorem exists_representable_close (hp : 78 ≤ ctx.precision) (q : ℚ) :
    ∃ z, ctx.Representable z ∧ |z - q| ≤ |q| / 10 ^ 77 + 1 / 10 ^ 200 := by
  obtain ⟨z, hz, hnear⟩ := exists_representable_near ctx q
  refine ⟨z, hz, hnear.trans ?_⟩
  have h1 : (10 : ℚ) ^ (1 - ctx.precision : ℤ) ≤ 1 / 10 ^ 77 := by
    have := ten_zpow_le (show (1 - ctx.precision : ℤ) ≤ -77 by omega)
    norm_num at this ⊢
    exact this
  have h2 : (10 : ℚ) ^ ctx.leastExponent ≤ 1 / 10 ^ 200 := by
    have hl := Representable.leastExponent_le ctx
    have := ten_zpow_le (show ctx.leastExponent ≤ -200 by omega)
    norm_num at this ⊢
    exact this
  have h3 := mul_le_mul_of_nonneg_left h1 (abs_nonneg q)
  have h4 := ten_zpow_pos ctx.leastExponent
  have h5 := mul_nonneg (abs_nonneg q) (ten_zpow_pos (1 - ctx.precision : ℤ)).le
  rw [mul_one_div] at h3
  linarith

theorem error (hp : 78 ≤ ctx.precision) (h : ctx.Rounds q y) :
    |y - q| ≤ |q| / 10 ^ 77 + 1 / 10 ^ 200 := by
  obtain ⟨z, hz, hnear⟩ := exists_representable_close hp q
  exact (h.nearest z hz).trans hnear

theorem error_mul (hp : 78 ≤ ctx.precision) (h : ctx.Rounds q y) {s : ℚ} (hs : |s| ≤ 10 ^ 60) :
    |y * s - q * s| ≤ |q * s| / 10 ^ 77 + 1 / 10 ^ 140 := by
  have herr := mul_le_mul_of_nonneg_right (h.error hp) (abs_nonneg s)
  rw [← sub_mul, abs_mul, abs_mul]
  linarith

theorem abs_mul_le_two_mul (h : ctx.Rounds q y) (s : ℚ) : |y * s| ≤ 2 * |q * s| := by
  rw [abs_mul, abs_mul, ← mul_assoc]
  exact mul_le_mul_of_nonneg_right h.abs_le_two_mul (abs_nonneg s)

/-- A number that is rounded, multiplied and divided, with a rounding after each operation: what the
first two lose is only scaled by what follows. -/
theorem error_mul_div (hp : 78 ≤ ctx.precision) {n g product quotient : ℚ} (hs : |n / g| ≤ 10 ^ 60)
    (hg : |1 / g| ≤ 10 ^ 60) (h : ctx.Rounds q y) (hproduct : ctx.Rounds (y * n) product)
    (hquotient : ctx.Rounds (product / g) quotient) :
    |quotient - q * (n / g)| ≤ |q * (n / g)| / 10 ^ 76 + 1 / 10 ^ 139 := by
  have herr := h.error_mul hp hs
  have hsize := h.abs_mul_le_two_mul (n / g)
  have herr' := hproduct.error_mul hp hg
  have hsize' := hproduct.abs_mul_le_two_mul (1 / g)
  have herr'' := hquotient.error hp
  rw [mul_one_div, mul_one_div, mul_div_assoc] at herr' hsize'
  rw [abs_le] at herr herr' herr'' ⊢
  constructor <;> linarith

end Rounds

/-! ## The form that a context gives to a result -/

/-- The form that a context gives to a result, whatever its exponent. -/
def rounded (ctx : Context) (x : Finite) : Finite :=
  if x.isZero then { x with exponent := max ctx.leastExponent (min x.exponent maxExponent) }
  else
    let drop := (max (digitCount x.coefficient - ctx.precision : Int)
      (ctx.leastExponent - x.exponent)).toNat
    if drop = 0 then x
    else
      let kept := shiftHalfEven x.coefficient drop
      if digitCount kept ≤ ctx.precision then
        { x with coefficient := kept, exponent := x.exponent + drop }
      else { x with coefficient := kept / 10, exponent := x.exponent + drop + 1 }

theorem leastExponent_le_maxExponent (ctx : Context) : ctx.leastExponent ≤ maxExponent := by
  have := Representable.leastExponent_le ctx
  unfold maxExponent
  omega

theorem fit_eq (ctx : Context) (x : Finite) : ctx.fit x = checkOverflow (ctx.rounded x) := by
  unfold fit rounded
  split
  · next h =>
    have hc : x.coefficient = 0 := by simpa [Finite.isZero] using h
    have hm := leastExponent_le_maxExponent ctx
    unfold checkOverflow
    rw [if_neg]
    simp only [Finite.adjusted, hc, digitCount_zero]
    omega
  · simp only
    split
    · rfl
    · split <;> rfl

variable {ctx : Context} {x : Finite} {q : ℚ}

theorem rounded_negative (ctx : Context) (x : Finite) : (ctx.rounded x).negative = x.negative := by
  unfold rounded
  split
  · rfl
  · simp only
    split
    · rfl
    · split <;> rfl

theorem rounded_zero (h : x.isZero = true) : (ctx.rounded x).value = 0 := by
  unfold rounded
  rw [if_pos h]
  exact (Finite.isZero_iff _).mp h

def cutExponent (ctx : Context) (x : Finite) : ℤ :=
  max (x.exponent + digitCount x.coefficient - ctx.precision) ctx.leastExponent

theorem rounded_of_fits (hx : x.isZero = false) (h : ctx.cutExponent x ≤ x.exponent) :
    ctx.rounded x = x := by
  unfold rounded
  unfold cutExponent at h
  rw [if_neg (by simp [hx])]
  simp only
  rw [if_pos (by omega)]

theorem abs_signed_lt_of_fits (h : ctx.cutExponent x ≤ x.exponent) : |x.signed| < 10 ^ ctx.precision := by
  have hdigits : digitCount x.coefficient ≤ ctx.precision := by
    unfold cutExponent at h
    omega
  have habs : |x.signed| = x.coefficient := by
    unfold Finite.signed
    split <;> simp
  rw [habs]
  exact_mod_cast digitCount_le_iff.mp hdigits

theorem value_mk_signed (x : Finite) (c : ℕ) (e : ℤ) :
    Finite.value { x with coefficient := c, exponent := e } =
      (if x.negative then -(c : ℚ) else c) * 10 ^ e := by
  cases x.negative <;> simp [Finite.value, Finite.signed]

theorem digitCount_le_of_cut {drop : ℕ} (hdrop : ctx.cutExponent x = x.exponent + drop) :
    digitCount x.coefficient ≤ ctx.precision + drop := by
  unfold cutExponent at hdrop
  omega

theorem value_rounded_of_cut (hx : x.isZero = false) {drop : ℕ}
    (hdrop : ctx.cutExponent x = x.exponent + drop) (hpos : 0 < drop) :
    (ctx.rounded x).value = (if x.negative then -(divHalfEven x.coefficient (10 ^ drop) : ℚ)
      else divHalfEven x.coefficient (10 ^ drop)) * 10 ^ ctx.cutExponent x := by
  have hdropped : (max (digitCount x.coefficient - ctx.precision : Int)
      (ctx.leastExponent - x.exponent)).toNat = drop := by
    unfold cutExponent at hdrop
    omega
  have hbound := divHalfEven_le_pow (digitCount_le_of_cut hdrop)
  unfold rounded
  rw [if_neg (by simp [hx])]
  simp only [hdropped]
  rw [if_neg (by omega), shiftHalfEven_eq, tenPower_eq]
  generalize divHalfEven x.coefficient (10 ^ drop) = kept at hbound ⊢
  split
  · rw [value_mk_signed, ← hdrop]
  · next hlong =>
    -- rounding up to the next power of ten moves one digit
    have htop : kept = 10 ^ ctx.precision := by
      rw [digitCount_le_iff] at hlong
      omega
    have hdvd : 10 * (kept / 10) = kept := by
      refine Nat.mul_div_cancel' ?_
      rw [htop]
      exact dvd_pow_self 10 (Representable.precision_pos ctx).ne'
    have hcast : (10 : ℚ) * ((kept / 10 : ℕ) : ℚ) = kept := by exact_mod_cast hdvd
    rw [value_mk_signed, ← hdrop, ten_zpow_add, ← hcast]
    split <;> ring

theorem abs_kept_sub_le {drop : ℕ} (hdrop : ctx.cutExponent x = x.exponent + drop) :
    |(divHalfEven x.coefficient (10 ^ drop) : ℚ) * 10 ^ ctx.cutExponent x -
      x.coefficient * 10 ^ x.exponent| ≤ 10 ^ ctx.cutExponent x / 2 := by
  have hten : 0 < 10 ^ drop := by positivity
  have hten' : ((10 ^ drop : ℕ) : ℚ) * 10 ^ x.exponent = 10 ^ ctx.cutExponent x := by
    rw [hdrop, add_comm, ten_zpow_add, zpow_natCast]
    push_cast
    rfl
  have hp := ten_zpow_pos (ctx.cutExponent x)
  have herr := abs_divHalfEven_sub_le x.coefficient hten
  have hform : (divHalfEven x.coefficient (10 ^ drop) : ℚ) * 10 ^ ctx.cutExponent x -
      x.coefficient * 10 ^ x.exponent =
      (divHalfEven x.coefficient (10 ^ drop) - x.coefficient / (10 ^ drop : ℕ)) *
        10 ^ ctx.cutExponent x := by
    rw [← hten']
    field_simp
  rw [hform, abs_mul, abs_of_pos hp]
  nlinarith

/-- What is kept of a number that is cut: a multiple of the power at which it is cut, at most half
of it away. -/
theorem rounded_of_cut (hx : x.isZero = false) (h : x.exponent < ctx.cutExponent x) :
    ∃ k : ℤ, (ctx.rounded x).value = k * 10 ^ ctx.cutExponent x ∧ |k| ≤ 10 ^ ctx.precision ∧
      |k * 10 ^ ctx.cutExponent x - x.value| ≤ 10 ^ ctx.cutExponent x / 2 := by
  obtain ⟨drop, hdrop⟩ : ∃ drop : ℕ, ctx.cutExponent x = x.exponent + drop :=
    ⟨(ctx.cutExponent x - x.exponent).toNat, by omega⟩
  have hvalue := value_rounded_of_cut hx hdrop (by omega)
  have hnear := abs_kept_sub_le hdrop
  have hbound : |((divHalfEven x.coefficient (10 ^ drop) : ℕ) : ℤ)| ≤ 10 ^ ctx.precision := by
    rw [Nat.abs_cast]
    exact_mod_cast divHalfEven_le_pow (digitCount_le_of_cut hdrop)
  cases hs : x.negative with
  | false =>
      refine ⟨divHalfEven x.coefficient (10 ^ drop), ?_, hbound, ?_⟩
      · rw [hvalue, hs]
        simp
      · rw [Finite.value_of_positive hs]
        exact hnear
  | true =>
      refine ⟨-divHalfEven x.coefficient (10 ^ drop), ?_, by rwa [abs_neg], ?_⟩
      · rw [hvalue, hs]
        simp
      · rw [Finite.value_of_negative hs, Int.cast_neg, neg_mul, neg_sub_neg, abs_sub_comm]
        exact hnear

theorem leastExponent_le_cutExponent (ctx : Context) (x : Finite) :
    ctx.leastExponent ≤ ctx.cutExponent x := le_max_right _ _

/-- A number that is cut fills the digits that are kept, unless it is cut at the least exponent. -/
theorem cutExponent_full (ctx : Context) {x : Finite} (hx : x.isZero = false) :
    ctx.cutExponent x = ctx.leastExponent ∨
      (10 : ℚ) ^ (ctx.precision - 1 + ctx.cutExponent x) ≤ |x.value| := by
  rcases le_total (x.exponent + digitCount x.coefficient - ctx.precision) ctx.leastExponent with h | h
  · exact Or.inl (max_eq_right h)
  · right
    rw [cutExponent, max_eq_left h]
    refine le_trans (ten_zpow_le ?_) (Finite.zpow_adjusted_le hx)
    have := digitCount_pos (Finite.coefficient_ne_zero hx)
    unfold Finite.adjusted
    omega

theorem rounded_rounds (ctx : Context) (x : Finite) : ctx.Rounds x.value (ctx.rounded x).value := by
  cases hx : x.isZero with
  | true =>
      rw [rounded_zero hx, (Finite.isZero_iff x).mp hx]
      exact Rounds.self (Representable.zero ctx)
  | false =>
      rcases le_or_gt (ctx.cutExponent x) x.exponent with h | h
      · rw [rounded_of_fits hx h]
        exact Rounds.self ⟨x.signed, x.exponent, abs_signed_lt_of_fits h, le_trans (le_max_right _ _) h, rfl⟩
      · obtain ⟨k, hk, hbound, hnear⟩ := rounded_of_cut hx h
        rw [hk]
        exact Rounds.of_grid (leastExponent_le_cutExponent ctx x) hbound (cutExponent_full ctx hx) hnear

/-! ## Stand-ins -/

/-- A stand-in for `q`: on a grid that has the midpoints of what is kept, both lie strictly between the
same two neighbours. -/
structure StandsIn (ctx : Context) (s : Finite) (q : ℚ) : Prop where
  ne_zero : s.isZero = false
  cut : s.exponent < ctx.cutExponent s
  between : ∃ (w : ℚ) (n j : ℤ), (10 : ℚ) ^ ctx.cutExponent s / 2 = j * w ∧
    (n * w < s.value ∧ s.value < (n + 1) * w) ∧ n * w < q ∧ q < (n + 1) * w

theorem lt_of_between {w a b : ℚ} {n i : ℤ} (ha : a < (n + 1) * w) (hb : n * w < b)
    (hi : i * w ≤ a) (hw : 0 < w) : i * w < b := by
  have h1 : (i : ℚ) < n + 1 := lt_of_mul_lt_mul_right (lt_of_le_of_lt hi ha) hw.le
  have h2 : (i : ℚ) ≤ n := by exact_mod_cast Int.lt_add_one_iff.mp (by exact_mod_cast h1)
  nlinarith

/-- What is kept of a stand-in is less than half the power at which it is cut away from `q`, and `q` fills
the digits that are kept, unless they end at the least exponent. -/
theorem StandsIn.near {s : Finite} (h : ctx.StandsIn s q) :
    ∃ k : ℤ, (ctx.rounded s).value = k * 10 ^ ctx.cutExponent s ∧ |k| ≤ 10 ^ ctx.precision ∧
      |k * 10 ^ ctx.cutExponent s - q| < 10 ^ ctx.cutExponent s / 2 ∧
      (ctx.cutExponent s = ctx.leastExponent ∨
        (10 : ℚ) ^ (ctx.precision - 1 + ctx.cutExponent s) ≤ |q|) := by
  obtain ⟨k, hk, hbound, hnear⟩ := rounded_of_cut h.ne_zero h.cut
  obtain ⟨w, n, j, hj, ⟨hsn, hsn'⟩, hqn, hqn'⟩ := h.between
  have hw : 0 < w := by linarith
  -- a grid point lies on the same side of both numbers
  have hbelow : ∀ i : ℤ, i * w ≤ s.value → i * w < q := fun i hi => lt_of_between hsn' hqn hi hw
  have habove : ∀ i : ℤ, s.value ≤ i * w → q < i * w := fun i hi => by
    have hflip := lt_of_between (n := -n - 1) (i := -i) (a := -s.value) (b := -q) (w := w)
      (by push_cast; linarith) (by push_cast; linarith) (by push_cast; linarith) hw
    push_cast at hflip
    linarith
  refine ⟨k, hk, hbound, ?_, ?_⟩
  · rw [abs_le] at hnear
    rw [abs_lt]
    have hlow : ((2 * k - 1) * j : ℤ) * w ≤ s.value := by
      push_cast
      linear_combination hnear.2 - (2 * (k : ℚ) - 1) * hj
    have hhigh : s.value ≤ ((2 * k + 1) * j : ℤ) * w := by
      push_cast
      linear_combination hnear.1 + (2 * (k : ℚ) + 1) * hj
    have h1 := hbelow _ hlow
    have h2 := habove _ hhigh
    push_cast at h1 h2
    constructor
    · linear_combination h2 - (2 * (k : ℚ) + 1) * hj
    · linear_combination h1 + (2 * (k : ℚ) - 1) * hj
  · rcases cutExponent_full ctx h.ne_zero with hleast | hfull
    · exact Or.inl hleast
    right
    obtain ⟨m, hm⟩ : ∃ m : ℤ, (10 : ℚ) ^ (ctx.precision - 1 + ctx.cutExponent s) = m * w := by
      refine ⟨10 ^ (ctx.precision - 1) * 2 * j, ?_⟩
      rw [Representable.ten_zpow_precision]
      push_cast
      linear_combination 2 * (10 : ℚ) ^ (ctx.precision - 1) * hj
    rw [hm] at hfull ⊢
    rcases le_abs.mp hfull with hside | hside
    · exact le_trans (hbelow m hside).le (le_abs_self q)
    · have h1 : s.value ≤ ((-m : ℤ) : ℚ) * w := by push_cast; linarith
      have h2 := habove (-m) h1
      push_cast at h2
      exact le_trans (by linarith) (neg_le_abs q)

/-- A stand-in rounds as the exact number does. -/
theorem StandsIn.rounds {s : Finite} (h : ctx.StandsIn s q) : ctx.Rounds q (ctx.rounded s).value := by
  obtain ⟨k, hk, hbound, hnear, hfull⟩ := h.near
  rw [hk]
  exact Rounds.of_grid (leastExponent_le_cutExponent ctx s) hbound hfull hnear.le

/-- What is computed in place of `q`: a number equal to it or a stand-in. -/
def Represents (ctx : Context) (s : Finite) (q : ℚ) : Prop := s.value = q ∨ ctx.StandsIn s q

theorem Represents.rounds {s : Finite} (h : ctx.Represents s q) :
    ctx.Rounds q (ctx.rounded s).value := by
  rcases h with rfl | h
  · exact rounded_rounds ctx s
  · exact h.rounds

/-! ## Results of operations -/

/-- An operation computes `q`: a result is `q` rounded, and there is one unless `q` is so large
that it overflows. -/
structure Computes (ctx : Context) (result : Except Signal Finite) (q : ℚ) : Prop where
  rounds : ∀ y, result = .ok y → ctx.Rounds q y.value
  succeeds : |q| < 10 ^ maxExponent → ∃ y, result = .ok y

theorem checkOverflow_eq_ok {x y : Finite} (h : checkOverflow x = .ok y) : y = x := by
  unfold checkOverflow at h
  split at h
  · contradiction
  · exact (Except.ok.inj h).symm

theorem negative_of_fit {y : Finite} (h : ctx.fit x = .ok y) : y.negative = x.negative := by
  rw [fit_eq] at h
  rw [checkOverflow_eq_ok h, rounded_negative]

theorem Rounds.lt_of_zero (h : ctx.Rounds q 0) : |q| < 10 ^ ctx.leastExponent := by
  by_contra hge
  rw [not_lt] at hge
  have hp := ten_zpow_pos ctx.leastExponent
  have hrep : ctx.Representable ((10 : ℚ) ^ ctx.leastExponent) := Representable.zpow le_rfl
  rcases le_abs.mp hge with hq | hq
  · linarith [h.ge_of_ge hrep hq]
  · linarith [h.neg.ge_of_ge hrep hq]

theorem exponent_le_of_rounded_isZero (h : (ctx.rounded x).isZero = true) :
    (ctx.rounded x).exponent ≤ maxExponent := by
  have hm := leastExponent_le_maxExponent ctx
  cases hx : x.isZero with
  | true =>
      unfold rounded
      rw [if_pos hx]
      simp only
      omega
  | false =>
      have hround := rounded_rounds ctx x
      rw [(Finite.isZero_iff _).mp h] at hround
      have hsmall := lt_of_ten_zpow_lt (lt_of_le_of_lt (Finite.zpow_adjusted_le hx) hround.lt_of_zero)
      have hdigits := digitCount_pos (Finite.coefficient_ne_zero hx)
      have hl := Representable.leastExponent_le ctx
      have hprec := Representable.precision_pos ctx
      unfold Finite.adjusted at hsmall
      unfold maxExponent at hm ⊢
      unfold rounded
      rw [if_neg (by simp [hx])]
      simp only
      split
      · omega
      · split
        · simp only
          omega
        · simp only
          omega

def overflowBound : ℚ := 10 ^ (maxExponent + 1)

theorem fit_cases (ctx : Context) (x : Finite) : ctx.fit x = .ok (ctx.rounded x) ∨
    (ctx.fit x = .error .overflow ∧ overflowBound ≤ |(ctx.rounded x).value|) := by
  rw [fit_eq]
  unfold checkOverflow
  split
  · next hbig =>
    refine Or.inr ⟨rfl, ?_⟩
    cases hz : (ctx.rounded x).isZero with
    | true =>
        have hexp := exponent_le_of_rounded_isZero hz
        have hc : (ctx.rounded x).coefficient = 0 := by simpa [Finite.isZero] using hz
        simp only [Finite.adjusted, hc, digitCount_zero] at hbig
        omega
    | false => exact (ten_zpow_le (by omega)).trans (Finite.zpow_adjusted_le hz)
  · exact Or.inl rfl

theorem abs_lt_of_fit {y : Finite} (h : ctx.fit x = .ok y) : |y.value| < overflowBound := by
  rw [fit_eq] at h
  have hsame := checkOverflow_eq_ok h
  unfold checkOverflow at h
  split at h
  · cases h
  · next hsmall =>
    rw [hsame]
    exact (Finite.abs_value_lt_zpow_adjusted _).trans_le (ten_zpow_le (by omega))

theorem computes_of_rounds (h : ctx.Rounds q (ctx.rounded x).value) :
    ctx.Computes (ctx.fit x) q := by
  refine ⟨fun y hy => ?_, fun hq => ?_⟩
  · rw [fit_eq] at hy
    exact checkOverflow_eq_ok hy ▸ h
  · obtain hok | ⟨-, hbig⟩ := fit_cases ctx x
    · exact ⟨_, hok⟩
    · have htop : ctx.Representable ((10 : ℚ) ^ maxExponent) :=
        Representable.zpow (leastExponent_le_maxExponent ctx)
      have hle := h.abs_le_of_abs_le htop hq.le
      have hlt : (10 : ℚ) ^ maxExponent < overflowBound := ten_zpow_lt (by omega)
      linarith

theorem Represents.computes {s : Finite} (h : ctx.Represents s q) : ctx.Computes (ctx.fit s) q :=
  computes_of_rounds h.rounds

theorem fit_computes (ctx : Context) (x : Finite) : ctx.Computes (ctx.fit x) x.value :=
  Represents.computes (Or.inl rfl)

theorem lt_overflow {q : ℚ} (h : q ≤ 10 ^ 200) : q < 10 ^ maxExponent := by
  refine lt_of_le_of_lt h ?_
  have := ten_zpow_lt (show (200 : ℤ) < maxExponent by decide)
  exact_mod_cast this

namespace Computes

variable {result : Except Signal Finite}

theorem exists_rounds (h : ctx.Computes result q) (hq : |q| ≤ 10 ^ 200) :
    ∃ y, result = .ok y ∧ ctx.Rounds q y.value := by
  obtain ⟨y, hy⟩ := h.succeeds (lt_overflow hq)
  exact ⟨y, hy, h.rounds y hy⟩

theorem exact (h : ctx.Computes result q) (hr : ctx.Representable q) (hq : |q| ≤ 10 ^ 200) :
    ∃ y, result = .ok y ∧ y.value = q := by
  obtain ⟨y, hy, hround⟩ := h.exists_rounds hq
  exact ⟨y, hy, hround.eq_self hr⟩

end Computes

end Decimal.Context

end NumericContract
