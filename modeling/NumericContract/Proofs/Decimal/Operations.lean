import NumericContract.Proofs.Decimal.Nearest

/-!
# Operations on decimals

Each operation computes what its name says of the numbers: its result is the exact result,
rounded to the context. A stand-in for a small operand, or for the rest of a quotient that does
not end, never changes the rounding.
-/

namespace NumericContract

namespace Decimal

open Magnitude

/-- What is left of `a` after taking away `b` as often as the quotient, cut toward zero, says. -/
def cutRemainder (a b : ℚ) : ℚ :=
  a - b * (if 0 ≤ a then ⌊a / b⌋ else ⌈a / b⌉ : ℤ)

theorem cutRemainder_neg {a b : ℚ} : cutRemainder (-a) b = -cutRemainder a b := by
  unfold cutRemainder
  rcases lt_trichotomy a 0 with h | rfl | h
  · rw [if_pos (by linarith), if_neg (by linarith), neg_div, Int.floor_neg]
    push_cast
    ring
  · simp
  · rw [if_neg (by linarith), if_pos h.le, neg_div, Int.ceil_neg]
    push_cast
    ring

theorem cutRemainder_of_lt {q b : ℚ} (h0 : 0 ≤ q) (hlt : q < b) : cutRemainder q b = q := by
  have hb : 0 < b := lt_of_le_of_lt h0 hlt
  rw [cutRemainder, if_pos h0, Int.floor_eq_zero_iff.mpr ⟨by positivity, (div_lt_one hb).mpr hlt⟩]
  simp

theorem cutRemainder_scaled (n : ℕ) {d : ℕ} {w : ℚ} (hw : 0 < w) :
    cutRemainder (n * w) (d * w) = (n % d : ℕ) * w := by
  have hfloor : ⌊n * w / (d * w)⌋ = ((n / d : ℕ) : ℤ) := by
    rw [mul_div_mul_right _ _ hw.ne', Rat.floor_natCast_div_natCast]
    norm_cast
  have hsplit : (n : ℚ) = (n % d : ℕ) + d * (n / d : ℕ) := by exact_mod_cast (Nat.mod_add_div n d).symm
  rw [cutRemainder, if_pos (by positivity), hfloor, Int.cast_natCast]
  linear_combination w * hsplit

namespace Finite

variable {ctx : Context} {x y z : Finite}

/-! ## Products and signs -/

theorem value_mul (x y : Finite) :
    Finite.value ⟨x.negative ^^ y.negative, x.coefficient * y.coefficient, x.exponent + y.exponent⟩ =
      x.value * y.value := by
  have hsign : (if (x.negative ^^ y.negative) then -((x.coefficient * y.coefficient : ℕ) : ℤ)
      else ((x.coefficient * y.coefficient : ℕ) : ℤ)) = x.signed * y.signed := by
    unfold signed
    push_cast
    cases x.negative <;> cases y.negative <;> simp
  rw [value, value, value, signed, hsign, ten_zpow_add]
  push_cast
  ring

theorem mul_computes (ctx : Context) (x y : Finite) :
    ctx.Computes (x.mul ctx y) (x.value * y.value) := by
  rw [← value_mul]
  exact Context.fit_computes ctx _

theorem neg_computes (ctx : Context) (x : Finite) : ctx.Computes (x.neg ctx) (-x.value) := by
  have hv : Finite.value { x with negative := !x.isZero && !x.negative } = -x.value := by
    cases hz : x.isZero with
    | true =>
        have hc : x.coefficient = 0 := by simpa [isZero] using hz
        simp [value, signed, hc]
    | false =>
        simp only [Bool.not_false, Bool.true_and]
        exact value_flip x
  rw [← hv]
  exact Context.fit_computes ctx _

theorem abs_computes (ctx : Context) (x : Finite) : ctx.Computes (x.abs ctx) |x.value| := by
  have hv : Finite.value { x with negative := false } = |x.value| := by
    rw [abs_value, value_of_positive rfl]
  rw [← hv]
  exact Context.fit_computes ctx _

theorem scale_computes (ctx : Context) (x : Finite) (places : ℤ) :
    ctx.Computes (x.scale ctx places) (x.value * 10 ^ places) := by
  have hv : Finite.value { x with exponent := x.exponent + places } = x.value * 10 ^ places := by
    rw [value, value, ten_zpow_add, mul_assoc]
    rfl
  rw [← hv]
  exact Context.fit_computes ctx _

/-! ## Sums -/

theorem value_exactSum (x y : Finite) : (exactSum x y).value = x.value + y.value := by
  set e := min x.exponent y.exponent with he
  obtain ⟨total, htotal⟩ : ∃ total : ℤ, total =
      (if x.negative then -(shiftUp x.coefficient (x.exponent - e).toNat : ℤ)
        else (shiftUp x.coefficient (x.exponent - e).toNat : ℤ)) +
      (if y.negative then -(shiftUp y.coefficient (y.exponent - e).toNat : ℤ)
        else (shiftUp y.coefficient (y.exponent - e).toNat : ℤ)) := ⟨_, rfl⟩
  have hsum : (exactSum x y).value = total * 10 ^ e := by
    have hform : exactSum x y =
        ⟨if total = 0 then x.negative && y.negative else total < 0, total.natAbs, e⟩ := by
      rw [htotal]
      rfl
    rw [hform]
    rcases lt_trichotomy total 0 with h | h | h
    · simp [value, signed, h, h.ne, Nat.cast_natAbs, abs_of_neg h]
    · simp [value, signed, h]
    · simp [value, signed, h.ne', not_lt.mpr h.le, Nat.cast_natAbs, abs_of_pos h]
  have hx := shiftUp_mul_zpow x.coefficient (min_le_left x.exponent y.exponent)
  have hy := shiftUp_mul_zpow y.coefficient (min_le_right x.exponent y.exponent)
  rw [← he] at hx hy
  rw [hsum, htotal]
  cases hnx : x.negative <;> cases hny : y.negative <;>
    simp only [value, signed, hnx, hny, if_true, if_false, Bool.false_eq_true] <;> push_cast <;>
    linarith

theorem exponent_exactSum (x y : Finite) : (exactSum x y).exponent = min x.exponent y.exponent := rfl

theorem exists_half_ten_zpow {e k : ℤ} (h : k < e) : ∃ j : ℤ, (10 : ℚ) ^ e / 2 = j * (5 * 10 ^ k) := by
  refine ⟨10 ^ (e - (k + 1)).toNat, ?_⟩
  rw [ten_zpow_eq_natCast_mul (show k + 1 ≤ e by omega), ten_zpow_add]
  push_cast
  ring

/-- A sum with a stand-in keeps all but one of the digits of the high operand, so that it is cut above
the stand-in. -/
theorem reach_lt_cutExponent {high s : Finite} {reach : ℤ} {q : ℚ}
    (hreach : reach = high.exponent + min (-1) (digitCount high.coefficient - ctx.precision - 2 : ℤ))
    (hhigh : high.isZero = false) (hv : s.value = high.value + q) (hq : |q| = 10 ^ reach)
    (hexp : s.exponent = reach) : s.isZero = false ∧ reach < ctx.cutExponent s := by
  have hdigits := digitCount_pos (coefficient_ne_zero hhigh)
  have hp := ten_zpow_pos (high.adjusted - 1)
  have hbig : (10 : ℚ) ^ (high.adjusted - 1) ≤ |s.value| := by
    have h1 := zpow_adjusted_le hhigh
    have h2 : (10 : ℚ) ^ reach ≤ 10 ^ (high.adjusted - 1) := ten_zpow_le (by
      unfold adjusted
      omega)
    have h3 : (10 : ℚ) ^ high.adjusted = 10 * 10 ^ (high.adjusted - 1) := by
      conv_lhs => rw [show high.adjusted = 1 + (high.adjusted - 1) by ring, ten_zpow_add]
      norm_num
    have h4 := abs_sub_abs_le_abs_sub high.value (-q)
    rw [abs_neg, hq, sub_neg_eq_add, ← hv] at h4
    linarith
  have hlong : high.adjusted - 1 < s.exponent + digitCount s.coefficient :=
    lt_of_ten_zpow_lt (lt_of_le_of_lt hbig (abs_value_lt_zpow s))
  constructor
  · rw [isZero_eq_false_iff]
    exact abs_pos.mp (lt_of_lt_of_le hp hbig)
  · refine lt_of_lt_of_le ?_ (le_max_left _ _)
    unfold adjusted at hlong
    omega

theorem represents_of_absorb {high low s : Finite}
    (hv : s.value = high.value + (ctx.absorb high low).value)
    (he : s.exponent = min high.exponent (ctx.absorb high low).exponent) :
    ctx.Represents s (high.value + low.value) := by
  unfold Context.absorb at hv he
  simp only at hv he
  set reach : ℤ := high.exponent + min (-1) (digitCount high.coefficient - ctx.precision - 2 : ℤ)
    with hreach
  split at hv
  · exact Or.inl hv
  next h =>
  rw [if_neg h] at he
  cases hlow : low.isZero with
  | true =>
      simp only [hlow, if_true] at hv
      have hzero : Finite.value { low with coefficient := 0, exponent := reach } = 0 := by
        simp [value, signed]
      rw [(isZero_iff low).mp hlow, ← hzero]
      exact Or.inl hv
  | false =>
      simp only [hlow, Bool.false_eq_true, if_false] at hv he
      simp only [Bool.or_eq_true, decide_eq_true_eq, not_or, Bool.not_eq_true] at h
      obtain ⟨hhigh, hfar⟩ := h
      have hlt : |low.value| < 10 ^ reach :=
        lt_of_lt_of_le (abs_value_lt_zpow_adjusted low) (ten_zpow_le (by omega))
      have habs : |Finite.value { low with coefficient := 1, exponent := reach }| = 10 ^ reach := by
        rw [abs_value]
        simp
      have hexp : s.exponent = reach := by omega
      obtain ⟨hs, hcut⟩ := reach_lt_cutExponent hreach hhigh hv habs hexp
      obtain ⟨j, hj⟩ := exists_half_ten_zpow hcut
      -- both sums lie beside the high operand, which is on the grid
      obtain ⟨i, hi⟩ := exists_half_ten_zpow (show reach < high.exponent by omega)
      have hm : high.value = ((2 * high.signed * i : ℤ) : ℚ) * (5 * 10 ^ reach) := by
        rw [value]
        push_cast
        linear_combination 2 * (high.signed : ℚ) * hi
      generalize 2 * high.signed * i = m at hm
      have hr := ten_zpow_pos reach
      rw [abs_lt] at hlt
      cases hneg : low.negative with
      | false =>
          have hl := value_nonneg_of_positive hneg
          have hl' : 0 < low.value := lt_of_le_of_ne hl (Ne.symm ((isZero_eq_false_iff low).mp hlow))
          rw [Context.value_mk_signed low 1 reach, hneg] at hv
          simp only [Bool.false_eq_true, if_false, Nat.cast_one, one_mul] at hv
          refine Or.inr ⟨hs, by omega, _, m, j, hj, ⟨?_, ?_⟩, ?_, ?_⟩ <;> linarith
      | true =>
          have hl := value_nonpos_of_negative hneg
          have hl' : low.value < 0 := lt_of_le_of_ne hl ((isZero_eq_false_iff low).mp hlow)
          rw [Context.value_mk_signed low 1 reach, hneg] at hv
          simp only [if_true, Nat.cast_one, neg_one_mul] at hv
          refine Or.inr ⟨hs, by omega, _, m - 1, j, hj, ⟨?_, ?_⟩, ?_, ?_⟩ <;> push_cast <;>
            linarith

theorem add_represents (ctx : Context) (x y : Finite) :
    ∃ s, x.add ctx y = ctx.fit s ∧ ctx.Represents s (x.value + y.value) := by
  unfold add
  split
  · exact ⟨_, rfl, represents_of_absorb (value_exactSum _ _) (exponent_exactSum _ _)⟩
  · refine ⟨_, rfl, ?_⟩
    rw [add_comm]
    apply represents_of_absorb
    · rw [value_exactSum, add_comm]
    · rw [exponent_exactSum, min_comm]

theorem sub_represents (ctx : Context) (x y : Finite) :
    ∃ s, x.sub ctx y = ctx.fit s ∧ ctx.Represents s (x.value - y.value) := by
  rw [sub_eq_add_neg, ← value_flip]
  exact add_represents ctx x _

theorem add_computes (ctx : Context) (x y : Finite) :
    ctx.Computes (x.add ctx y) (x.value + y.value) := by
  obtain ⟨s, hs, hrep⟩ := add_represents ctx x y
  rw [hs]
  exact hrep.computes

theorem sub_computes (ctx : Context) (x y : Finite) :
    ctx.Computes (x.sub ctx y) (x.value - y.value) := by
  obtain ⟨s, hs, hrep⟩ := sub_represents ctx x y
  rw [hs]
  exact hrep.computes

theorem add_lt_overflowBound (h : x.add ctx y = .ok z) : |z.value| < Context.overflowBound := by
  obtain ⟨s, hs, -⟩ := add_represents ctx x y
  exact Context.abs_lt_of_fit (hs ▸ h)

theorem sub_lt_overflowBound (h : x.sub ctx y = .ok z) : |z.value| < Context.overflowBound :=
  add_lt_overflowBound h

/-! ## Quotients -/

theorem value_ofQuotient {negative : Bool} {n d : ℕ} {e : ℤ} {spare : ℕ} (hd : 0 < d)
    (h : n % d = 0) : (ofQuotient negative n d e spare).value =
      (if negative then -1 else 1) * ((n : ℚ) / d * 10 ^ e) := by
  obtain ⟨k, -, hc, he⟩ := stripZeros_eq (n / d) e spare (spare.log2 + 1)
  have hd' : (d : ℚ) ≠ 0 := by exact_mod_cast hd.ne'
  have hdiv : ((n / d : ℕ) : ℚ) = n / d := by
    rw [eq_div_iff hd']
    exact_mod_cast Nat.div_mul_cancel (Nat.dvd_of_mod_eq_zero h)
  unfold ofQuotient
  rw [if_neg (not_not.mpr h)]
  generalize stripZeros (n / d) e spare (spare.log2 + 1) = stripped at hc he
  have hstrip : (stripped.1 : ℚ) * 10 ^ stripped.2 = (n : ℚ) / d * 10 ^ e := by
    rw [he, add_comm, ten_zpow_add, zpow_natCast, ← hdiv, hc, tenPower_eq]
    push_cast
    exact (mul_assoc _ _ _).symm
  cases negative with
  | false => simp [value, signed, hstrip]
  | true => simp [value, signed, ← hstrip]

/-- The digits of a number, more than the context keeps, stand in for it with one more digit `1` after them. -/
theorem standsIn_marked (ctx : Context) (negative : Bool) {m : ℕ} {e : ℤ} {q : ℚ}
    (hlong : 10 ^ ctx.precision ≤ m) (hlow : m * 10 ^ e < q) (hhigh : q < (m + 1) * 10 ^ e) :
    ctx.StandsIn ⟨negative, 10 * m + 1, e - 1⟩ ((if negative then -1 else 1) * q) := by
  have hp := ten_zpow_pos e
  have hpre : (10 : ℚ) ^ (e - 1) = 10 ^ e / 10 := by
    rw [zpow_sub₀ (by norm_num), zpow_one]
  have hdigits : ctx.precision + 2 ≤ digitCount (10 * m + 1) := by
    by_contra hlt
    have := digitCount_le_iff.mp (show digitCount (10 * m + 1) ≤ ctx.precision + 1 by omega)
    rw [pow_succ] at this
    omega
  set s : Finite := ⟨negative, 10 * m + 1, e - 1⟩ with hs
  have hcut : e < ctx.cutExponent s := by
    refine lt_of_lt_of_le ?_ (le_max_left _ _)
    simp only [hs]
    omega
  obtain ⟨j, hj⟩ : ∃ j : ℤ, (10 : ℚ) ^ ctx.cutExponent s / 2 = j * 10 ^ e := by
    obtain ⟨j, hj⟩ := exists_half_ten_zpow hcut
    exact ⟨5 * j, by rw [hj]; push_cast; ring⟩
  have hzero : s.isZero = false := by simp [isZero, hs]
  have hse : s.exponent < ctx.cutExponent s := (show e - 1 < e by omega).trans hcut
  cases negative with
  | false =>
      have hv : s.value = (10 * m + 1) * (10 ^ e / 10) := by
        rw [value_of_positive rfl, hs, ← hpre]
        push_cast
        rfl
      simp only [Bool.false_eq_true, if_false, one_mul]
      refine ⟨hzero, hse, _, m, j, hj, ⟨?_, ?_⟩, ?_, ?_⟩ <;> push_cast <;> linarith
  | true =>
      have hv : s.value = -((10 * m + 1) * (10 ^ e / 10)) := by
        rw [value_of_negative rfl, hs, ← hpre]
        push_cast
        rfl
      simp only [if_true]
      refine ⟨hzero, hse, _, -m - 1, j, hj, ⟨?_, ?_⟩, ?_, ?_⟩ <;> push_cast <;> linarith

/-- A quotient with more digits than the context keeps is represented, whether it ends or not. -/
theorem represents_ofQuotient (ctx : Context) (negative : Bool) {n d : ℕ} (e : ℤ) (spare : ℕ)
    (hd : 0 < d) (hlong : 10 ^ ctx.precision * d ≤ n) :
    ctx.Represents (ofQuotient negative n d e spare)
      ((if negative then -1 else 1) * ((n : ℚ) / d * 10 ^ e)) := by
  by_cases hmod : n % d = 0
  · exact Or.inl (value_ofQuotient hd hmod)
  right
  have hform : ofQuotient negative n d e spare = ⟨negative, 10 * (n / d) + 1, e - 1⟩ := by
    unfold ofQuotient
    rw [if_pos hmod]
  obtain ⟨f, hsplit, hf0, hf1, hfd⟩ := div_split n hd
  have hf : 0 < f := by
    refine lt_of_le_of_ne hf0 fun h => hmod ?_
    rw [← h, zero_mul] at hfd
    exact_mod_cast hfd.symm
  have hp := ten_zpow_pos e
  have hquot : 10 ^ ctx.precision ≤ n / d := (Nat.le_div_iff_mul_le hd).mpr hlong
  rw [hform, hsplit]
  apply standsIn_marked ctx negative hquot <;> nlinarith

theorem sign_mul_abs_div (x y : Finite) :
    (if x.negative ^^ y.negative then -1 else 1) * (|x.value| / |y.value|) = x.value / y.value := by
  cases hx : x.negative <;> cases hy : y.negative
  · simp [abs_of_nonneg (value_nonneg_of_positive hx), abs_of_nonneg (value_nonneg_of_positive hy)]
  · simp [abs_of_nonneg (value_nonneg_of_positive hx), abs_of_nonpos (value_nonpos_of_negative hy),
      div_neg]
  · simp [abs_of_nonpos (value_nonpos_of_negative hx), abs_of_nonneg (value_nonneg_of_positive hy),
      neg_div]
  · simp [abs_of_nonpos (value_nonpos_of_negative hx), abs_of_nonpos (value_nonpos_of_negative hy)]

theorem pow_precision_mul_le (ctx : Context) {n : ℕ} (d : ℕ) (hn : n ≠ 0) {extra : ℤ}
    (hextra : extra = digitCount d - digitCount n + ctx.precision + 1) :
    10 ^ ctx.precision * (d * tenPower (-extra).toNat) ≤ n * tenPower extra.toNat := by
  have h1 := tenPower_digitCount_le hn
  have h2 := lt_pow_digitCount d
  have h3 := digitCount_pos hn
  rw [tenPower_eq, tenPower_eq]
  calc 10 ^ ctx.precision * (d * 10 ^ (-extra).toNat)
      ≤ 10 ^ ctx.precision * (10 ^ digitCount d * 10 ^ (-extra).toNat) := by gcongr
    _ = 10 ^ (digitCount n - 1) * 10 ^ extra.toNat := by
        rw [← pow_add, ← pow_add, ← pow_add]
        congr 1
        omega
    _ ≤ n * 10 ^ extra.toNat := by gcongr

theorem scaled_quotient (x : Finite) (hy : y.isZero = false) (extra : ℤ) :
    ((x.coefficient * tenPower extra.toNat : ℕ) : ℚ) / (y.coefficient * tenPower (-extra).toNat : ℕ) *
      10 ^ (x.exponent - y.exponent - extra) = |x.value| / |y.value| := by
  have hy' : (y.coefficient : ℚ) ≠ 0 := by exact_mod_cast coefficient_ne_zero hy
  have hp := (ten_zpow_pos y.exponent).ne'
  have hup : (tenPower extra.toNat : ℚ) ≠ 0 := by exact_mod_cast (tenPower_pos _).ne'
  have hdown : (tenPower (-extra).toNat : ℚ) ≠ 0 := by exact_mod_cast (tenPower_pos _).ne'
  rw [abs_value, abs_value, ten_zpow_sub, zpow_sub₀ (by norm_num)]
  push_cast
  field_simp

theorem div_represents (ctx : Context) (x : Finite) (hy : y.isZero = false) :
    ∃ s, x.div ctx y = ctx.fit s ∧ ctx.Represents s (x.value / y.value) := by
  have hcy := coefficient_ne_zero hy
  unfold div
  simp only [hy, Bool.false_eq_true, if_false]
  cases hx : x.isZero with
  | true =>
      have hz : Finite.value ⟨x.negative ^^ y.negative, 0, x.exponent - y.exponent⟩ =
          x.value / y.value := by
        rw [(isZero_iff x).mp hx, zero_div]
        simp [value, signed]
      simp only [if_true]
      exact ⟨_, rfl, Or.inl hz⟩
  | false =>
      simp only [Bool.false_eq_true, if_false]
      set extra : ℤ := digitCount y.coefficient - digitCount x.coefficient + ctx.precision + 1
        with hextra
      have hpy : 0 < y.coefficient * tenPower (-extra).toNat := by
        rw [tenPower_eq]
        positivity
      have hlong := pow_precision_mul_le ctx y.coefficient (coefficient_ne_zero hx) hextra
      have hrep := represents_ofQuotient ctx (x.negative ^^ y.negative)
        (x.exponent - y.exponent - extra) extra.toNat hpy hlong
      rw [scaled_quotient x hy, sign_mul_abs_div] at hrep
      exact ⟨_, rfl, hrep⟩

theorem div_computes (ctx : Context) (x : Finite) (hy : y.isZero = false) :
    ctx.Computes (x.div ctx y) (x.value / y.value) := by
  obtain ⟨s, hs, hrep⟩ := div_represents ctx x hy
  rw [hs]
  exact hrep.computes

/-! ## Remainders -/

theorem value_signed_shift (x : Finite) (m : ℕ) (e : ℤ) :
    Finite.value ⟨x.negative, m, e⟩ = (if x.negative then -1 else 1) * (m * 10 ^ e) := by
  cases h : x.negative <;> simp [value, signed]

theorem eq_sign_mul_abs (x : Finite) : x.value = (if x.negative then -1 else 1) * |x.value| := by
  cases h : x.negative with
  | false => simp [abs_of_nonneg (value_nonneg_of_positive h)]
  | true => simp [abs_of_nonpos (value_nonpos_of_negative h)]

theorem cutRemainder_eq_sign_mul (x : Finite) (b : ℚ) :
    cutRemainder x.value b = (if x.negative then -1 else 1) * cutRemainder |x.value| b := by
  conv_lhs => rw [eq_sign_mul_abs x]
  cases x.negative with
  | false => simp
  | true => simp [cutRemainder_neg]

/-- A number whose leading digit is far above another's is as many powers of ten as large. -/
theorem mul_pow_le_of_adjusted {p : ℕ} (hx : x.isZero = false) (h : p < x.adjusted - y.adjusted) :
    |y.value| * 10 ^ p ≤ |x.value| :=
  calc |y.value| * 10 ^ p ≤ 10 ^ (y.adjusted + 1) * 10 ^ p := by
        gcongr
        exact (abs_value_lt_zpow_adjusted y).le
    _ = 10 ^ (y.adjusted + 1 + p) := by rw [ten_zpow_add _ (p : ℤ), zpow_natCast]
    _ ≤ 10 ^ x.adjusted := ten_zpow_le (by omega)
    _ ≤ |x.value| := zpow_adjusted_le hx

/-- A remainder is the exact one in the form of the context, unless the quotient is too long. -/
theorem rem_eq (ctx : Context) (x : Finite) (hy : 0 < y.value) :
    (∃ s : Finite, s.value = cutRemainder x.value y.value ∧ x.rem ctx y = ctx.fit s) ∨
      (x.rem ctx y = .error .divisionImpossible ∧ y.value * 10 ^ ctx.precision ≤ |x.value|) := by
  have hyz : y.isZero = false := (isZero_eq_false_iff y).mpr hy.ne'
  have hyabs := abs_of_pos hy
  unfold rem
  simp only [hyz, Bool.false_eq_true, if_false]
  set e := min x.exponent y.exponent with he
  have hx := shiftUp_mul_zpow x.coefficient (min_le_left x.exponent y.exponent)
  have hyv := shiftUp_mul_zpow y.coefficient (min_le_right x.exponent y.exponent)
  rw [← he, ← abs_value] at hx hyv
  cases hxz : x.isZero with
  | true =>
      left
      refine ⟨{ x with exponent := e }, ?_, by simp⟩
      rw [(isZero_iff x).mp hxz,
        (isZero_iff _).mp (show Finite.isZero { x with exponent := e } = true from hxz)]
      simp [cutRemainder]
  | false =>
      simp only [Bool.false_eq_true, if_false]
      split
      · next hsmall =>
        left
        refine ⟨_, ?_, rfl⟩
        have hlt : |x.value| < y.value := by
          rw [← hyabs]
          exact lt_of_lt_of_le (abs_value_lt_zpow_adjusted x)
            (le_trans (ten_zpow_le (by omega)) (zpow_adjusted_le hyz))
        rw [value_signed_shift, hx, cutRemainder_eq_sign_mul, cutRemainder_of_lt (abs_nonneg _) hlt]
      · split
        · next hfar =>
          right
          rw [← hyabs]
          exact ⟨rfl, mul_pow_le_of_adjusted hxz hfar⟩
        · rw [hyabs] at hyv
          generalize shiftUp x.coefficient (x.exponent - e).toNat = n at hx ⊢
          generalize shiftUp y.coefficient (y.exponent - e).toNat = d at hyv ⊢
          have hp := ten_zpow_pos e
          split
          · left
            refine ⟨_, ?_, rfl⟩
            rw [value_signed_shift, cutRemainder_eq_sign_mul, ← hx, ← hyv, cutRemainder_scaled n hp]
          · next hlong =>
            right
            refine ⟨rfl, ?_⟩
            have h1 : 10 ^ ctx.precision ≤ n / d := by
              rw [digitCount_le_iff] at hlong
              omega
            have h2 : ((10 ^ ctx.precision * d : ℕ) : ℚ) ≤ n := by
              exact_mod_cast Nat.mul_le_of_le_div d _ n h1
            push_cast at h2
            rw [← hx, ← hyv]
            nlinarith

theorem rem_rounds (hy : 0 < y.value) (h : x.rem ctx y = .ok z) :
    ctx.Rounds (cutRemainder x.value y.value) z.value := by
  rcases rem_eq ctx x hy with ⟨s, hs, hfit⟩ | ⟨herr, -⟩
  · rw [← hs]
    exact (Context.fit_computes ctx s).rounds z (hfit ▸ h)
  · rw [herr] at h
    contradiction

theorem rem_computes (hy : 0 < y.value) (hq : |x.value| < y.value * 10 ^ ctx.precision) :
    ctx.Computes (x.rem ctx y) (cutRemainder x.value y.value) := by
  rcases rem_eq ctx x hy with ⟨s, hs, hfit⟩ | ⟨-, hle⟩
  · rw [← hs, hfit]
    exact Context.fit_computes ctx s
  · linarith

end Finite

/-! ## Operations on data -/

section data

variable {ctx : Context} {x y : Decimal} {u v z : Finite}

@[simp] theorem add_finite : add ctx (.finite u) (.finite v) = (u.add ctx v).map .finite := rfl
@[simp] theorem sub_finite : sub ctx (.finite u) (.finite v) = (u.sub ctx v).map .finite := rfl
@[simp] theorem mul_finite : mul ctx (.finite u) (.finite v) = (u.mul ctx v).map .finite := rfl
@[simp] theorem div_finite : div ctx (.finite u) (.finite v) = (u.div ctx v).map .finite := rfl

theorem exists_finite_of_computes {result : Except Signal Finite} {q : ℚ}
    (h : ctx.Computes result q) (hq : |q| ≤ 10 ^ 200) :
    ∃ z : Finite, result.map Decimal.finite = .ok (.finite z) ∧ ctx.Rounds q z.value := by
  obtain ⟨z, rfl, hz⟩ := h.exists_rounds hq
  exact ⟨z, rfl, hz⟩

theorem add_rounds (ctx : Context) (u v : Finite) (hq : |u.value + v.value| ≤ 10 ^ 200) : ∃ z : Finite,
    add ctx (.finite u) (.finite v) = .ok (.finite z) ∧ ctx.Rounds (u.value + v.value) z.value :=
  exists_finite_of_computes (Finite.add_computes ctx u v) hq

theorem sub_rounds (ctx : Context) (u v : Finite) (hq : |u.value - v.value| ≤ 10 ^ 200) : ∃ z : Finite,
    sub ctx (.finite u) (.finite v) = .ok (.finite z) ∧ ctx.Rounds (u.value - v.value) z.value :=
  exists_finite_of_computes (Finite.sub_computes ctx u v) hq

theorem mul_rounds (ctx : Context) (u v : Finite) (hq : |u.value * v.value| ≤ 10 ^ 200) : ∃ z : Finite,
    mul ctx (.finite u) (.finite v) = .ok (.finite z) ∧ ctx.Rounds (u.value * v.value) z.value :=
  exists_finite_of_computes (Finite.mul_computes ctx u v) hq

theorem div_rounds (ctx : Context) (u v : Finite) (hv : v.value ≠ 0)
    (hq : |u.value / v.value| ≤ 10 ^ 200) : ∃ z : Finite,
    div ctx (.finite u) (.finite v) = .ok (.finite z) ∧ ctx.Rounds (u.value / v.value) z.value :=
  exists_finite_of_computes (Finite.div_computes ctx u ((Finite.isZero_eq_false_iff v).mpr hv)) hq

theorem representable_add (h : add ctx x y = .ok (.finite z)) : ctx.Representable z.value := by
  cases x with
  | finite u =>
      cases y with
      | finite v =>
          rw [add_finite] at h
          cases hs : u.add ctx v with
          | error e => rw [hs] at h; cases h
          | ok w =>
              rw [hs] at h
              cases h
              exact ((Finite.add_computes ctx u v).rounds z hs).representable
      | infinity t => cases h
      | nan signaling t payload => cases signaling <;> cases h
  | infinity s =>
      cases y with
      | finite v => cases h
      | infinity t => cases s <;> cases t <;> cases h
      | nan signaling t payload => cases signaling <;> cases h
  | nan signaling s payload =>
      cases y with
      | finite v => cases signaling <;> cases h
      | infinity t => cases signaling <;> cases h
      | nan signaling' t payload' => cases signaling <;> cases signaling' <;> cases h

end data

end Decimal

end NumericContract
