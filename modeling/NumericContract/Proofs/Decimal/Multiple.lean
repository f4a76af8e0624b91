import NumericContract.Proofs.Decimal.Grid
import NumericContract.Rounding

/-!
# The nearest multiple of a modulus

Rounding a payout to a modulus finds the nearest multiple, and of two the higher one. Of a number with few
enough digits before the point it does so whatever its sign: where a step on the way is not exact, what it
loses is made good by the next one or does not decide between the multiples. A number that is too long
stays large, so the level that a payout is clamped to is right in every case.
-/

namespace NumericContract

def nearestMultiple (m : ℤ) (q : ℚ) : ℤ := m * ⌊q / m + 1 / 2⌋

def multipleBelow (m : ℤ) (q : ℚ) : ℤ := m * ⌊q / m⌋

section nearestMultiple

variable {m : ℤ} {q : ℚ}

theorem nearestMultiple_le_iff (hm : 0 < m) (k : ℤ) :
    nearestMultiple m q ≤ m * k ↔ q < m * k + m / 2 := by
  have hm' : (0 : ℚ) < m := by exact_mod_cast hm
  unfold nearestMultiple
  rw [mul_le_mul_iff_right₀ hm, ← Int.lt_add_one_iff, Int.floor_lt]
  push_cast
  rw [← lt_sub_iff_add_lt, div_lt_iff₀ hm']
  constructor <;> intro h <;> linarith

theorem abs_sub_nearestMultiple_le (hm : 0 < m) (q : ℚ) : |q - nearestMultiple m q| ≤ m / 2 := by
  have hm' : (0 : ℚ) < m := by exact_mod_cast hm
  have h1 := Int.floor_le (q / m + 1 / 2)
  have h2 := Int.lt_floor_add_one (q / m + 1 / 2)
  have h3 : q / m * m = q := by field_simp
  unfold nearestMultiple
  push_cast
  rw [abs_le]
  constructor <;> nlinarith

/-- No multiple is nearer, and one that is as near is not higher. -/
theorem nearestMultiple_nearest (hm : 0 < m) (q : ℚ) (k : ℤ) :
    |q - nearestMultiple m q| < |q - (m * k : ℤ)| ∨
      |q - nearestMultiple m q| = |q - (m * k : ℤ)| ∧ m * k ≤ nearestMultiple m q := by
  have hm' : (0 : ℚ) < m := by exact_mod_cast hm
  have hnear := abs_le.mp (abs_sub_nearestMultiple_le hm q)
  rcases le_or_gt (m * k) (nearestMultiple m q) with hle | hgt
  · rcases eq_or_lt_of_le hle with heq | hlt
    · exact Or.inr ⟨by rw [heq], hle⟩
    have hstep : m * k + m ≤ nearestMultiple m q := by
      unfold nearestMultiple at hlt ⊢
      have := lt_of_mul_lt_mul_left hlt hm.le
      nlinarith
    have hstep' : ((m * k : ℤ) : ℚ) + m ≤ nearestMultiple m q := by exact_mod_cast hstep
    rw [abs_of_pos (show (0 : ℚ) < q - (m * k : ℤ) by linarith)]
    rcases eq_or_lt_of_le (abs_le.mpr ⟨by linarith, by linarith⟩ :
      |q - nearestMultiple m q| ≤ q - (m * k : ℤ)) with h | h
    · exact Or.inr ⟨h, hle⟩
    · exact Or.inl h
  · left
    have hstep : nearestMultiple m q + m ≤ m * k := by
      unfold nearestMultiple at hgt ⊢
      have := lt_of_mul_lt_mul_left hgt hm.le
      nlinarith
    have hstep' : (nearestMultiple m q : ℚ) + m ≤ (m * k : ℤ) := by exact_mod_cast hstep
    have hlow : q < nearestMultiple m q + m / 2 := by
      have := (nearestMultiple_le_iff (q := q) hm ⌊q / m + 1 / 2⌋).mp le_rfl
      simpa [nearestMultiple] using this
    rw [abs_of_neg (show q - (m * k : ℤ) < 0 by linarith)]
    rw [abs_lt]
    constructor <;> linarith

theorem nearestMultiple_nonpos (hm : 0 < m) (hq : q < 0) : nearestMultiple m q ≤ 0 := by
  have hm' : (0 : ℚ) < m := by exact_mod_cast hm
  have := (nearestMultiple_le_iff (q := q) hm 0).mpr (by push_cast; linarith)
  simpa using this

theorem multipleBelow_bounds (hm : 0 < m) (q : ℚ) :
    multipleBelow m q ≤ q ∧ q < multipleBelow m q + m := by
  have hm' : (0 : ℚ) < m := by exact_mod_cast hm
  have h1 := Int.floor_le (q / m)
  have h2 := Int.lt_floor_add_one (q / m)
  have h3 : q / m * m = q := by field_simp
  unfold multipleBelow
  push_cast
  constructor <;> nlinarith

theorem multipleBelow_eq {t : ℤ} (hm : 0 < m) (hle : (m * t : ℤ) ≤ q) (hlt : q < (m * t : ℤ) + m) :
    multipleBelow m q = m * t := by
  have hm' : (0 : ℚ) < m := by exact_mod_cast hm
  push_cast at hle hlt
  have hfloor : ⌊q / m⌋ = t := by
    rw [Int.floor_eq_iff, le_div_iff₀ hm', div_lt_iff₀ hm']
    constructor <;> linarith
  rw [multipleBelow, hfloor]

/-- The multiple below a number is its nearest one if the number is in the lower half above it. -/
theorem nearestMultiple_eq_multipleBelow (hm : 0 < m) (q : ℚ) : nearestMultiple m q =
    multipleBelow m q + if 2 * (q - multipleBelow m q) < m then 0 else m := by
  have hm' : (0 : ℚ) < m := by exact_mod_cast hm
  have hbounds := multipleBelow_bounds hm q
  have hscaled (a : ℤ) (ha : (m * a : ℤ) ≤ q + m / 2) (ha' : q + m / 2 < (m * a : ℤ) + m) :
      nearestMultiple m q = m * a := by
    rw [← multipleBelow_eq hm ha ha', nearestMultiple, multipleBelow, add_div, div_right_comm, div_self hm'.ne']
  unfold multipleBelow at hbounds ⊢
  split
  · next hlow => rw [hscaled ⌊q / m⌋ (by linarith) (by linarith), add_zero]
  · next hhigh =>
    rw [hscaled (⌊q / m⌋ + 1) (by push_cast at hbounds hhigh ⊢; linarith)
      (by push_cast at hbounds hhigh ⊢; linarith), mul_add, mul_one]

theorem multipleBelow_le_neg (hm : 0 < m) (hq : q < 0) : multipleBelow m q ≤ -m := by
  have hneg : (multipleBelow m q : ℚ) < (0 : ℤ) := by
    push_cast
    exact (multipleBelow_bounds hm q).1.trans_lt hq
  have hsteps : m * ⌊q / m⌋ < m * 0 := by
    rw [mul_zero]
    exact_mod_cast hneg
  have hstep := lt_of_mul_lt_mul_left hsteps hm.le
  unfold multipleBelow
  nlinarith

end nearestMultiple

namespace Decimal.Context.Representable

variable {ctx : Context}

theorem intCast {k : ℤ} (hk : |k| < 10 ^ ctx.precision) : ctx.Representable k :=
  ⟨k, 0, hk, by have := leastExponent_le ctx; omega, by simp⟩

theorem div_pow {k : ℤ} {j : ℕ} (hj : j ≤ 1000) (hk : |k| < 10 ^ ctx.precision) :
    ctx.Representable (k / 10 ^ j) :=
  ⟨k, -j, hk, by have := leastExponent_le ctx; omega, by rw [zpow_neg, zpow_natCast]; rfl⟩

variable {r : ℚ} {n : ℤ}

theorem intCast_of_lt (hn : 0 ≤ n) (hlt : (n : ℚ) < 10 ^ ctx.precision) : ctx.Representable n := by
  apply intCast
  rw [abs_of_nonneg hn]
  exact_mod_cast hlt

theorem exists_places (h : ctx.Representable r) : (∃ k : ℤ, r = k) ∨
    ∃ (c : ℤ) (j : ℕ), |c| < 10 ^ ctx.precision ∧ ctx.leastExponent ≤ -j ∧ r * 10 ^ j = c := by
  obtain ⟨c, e, hc, he, rfl⟩ := h
  rcases le_total 0 e with hpos | hneg
  · left
    obtain ⟨k, rfl⟩ := Int.eq_ofNat_of_zero_le hpos
    exact ⟨c * 10 ^ k, by push_cast; rfl⟩
  · right
    obtain ⟨j, hj⟩ := Int.exists_eq_neg_ofNat hneg
    refine ⟨c, j, hc, by omega, ?_⟩
    rw [hj, mul_assoc, zpow_neg, zpow_natCast, inv_mul_cancel₀ (by positivity), mul_one]

theorem of_mul_pow {c : ℤ} {j : ℕ} (hc : |c| < 10 ^ ctx.precision) (hj : ctx.leastExponent ≤ -j)
    (hr : r * 10 ^ j = c) : ctx.Representable r := by
  refine ⟨c, -j, hc, hj, ?_⟩
  rw [← hr, zpow_neg, zpow_natCast, mul_assoc, mul_inv_cancel₀ (by positivity), mul_one]

theorem sub_intCast (h : ctx.Representable r) (hr : r < 10 ^ ctx.precision) (hn : 0 ≤ n) (hle : n ≤ r) :
    ctx.Representable (r - n) := by
  have hn' : (0 : ℚ) ≤ n := by exact_mod_cast hn
  rcases h.exists_places with ⟨k, rfl⟩ | ⟨c, j, hc, hj, hr'⟩
  · rw [← Int.cast_sub]
    apply intCast_of_lt
    · exact sub_nonneg.mpr (by exact_mod_cast hle)
    · push_cast
      linarith
  · have hdifference : (r - n) * 10 ^ j = (c - n * 10 ^ j : ℤ) := by
      rw [sub_mul, hr']
      push_cast
      ring
    have hnonneg : 0 ≤ c - n * 10 ^ j := by
      have hmul : 0 ≤ (r - n) * 10 ^ j := mul_nonneg (sub_nonneg.mpr hle) (by positivity)
      rw [hdifference] at hmul
      exact_mod_cast hmul
    have hless : 0 ≤ n * 10 ^ j := mul_nonneg hn (by positivity)
    refine of_mul_pow ?_ hj hdifference
    rw [abs_of_nonneg hnonneg]
    rw [abs_lt] at hc
    omega

/-- If a whole number more has too many digits, a power of ten lies in between. -/
theorem exists_pow_between (h : ctx.Representable r) (hr0 : 0 ≤ r) (hn : 0 ≤ n)
    (hsum : r + n < 10 ^ ctx.precision) (hmore : ¬ ctx.Representable (r + n)) :
    ∃ k : ℤ, r < 10 ^ k ∧ 10 ^ k ≤ r + n := by
  have hn' : (0 : ℚ) ≤ n := by exact_mod_cast hn
  rcases h.exists_places with ⟨k, rfl⟩ | ⟨c, j, hc, hj, hr'⟩
  · refine absurd ?_ hmore
    rw [← Int.cast_add]
    apply intCast_of_lt
    · exact add_nonneg (by exact_mod_cast hr0) hn
    · push_cast
      exact hsum
  · have hp : (0 : ℚ) < 10 ^ j := by positivity
    have htotal : (r + n) * 10 ^ j = (c + n * 10 ^ j : ℤ) := by
      rw [add_mul, hr']
      push_cast
      ring
    have hnonneg : 0 ≤ c + n * 10 ^ j := by
      have hmul := mul_nonneg (add_nonneg hr0 hn') hp.le
      rw [htotal] at hmul
      exact_mod_cast hmul
    have hlong : 10 ^ ctx.precision ≤ c + n * 10 ^ j := by
      by_contra hlt
      refine hmore (of_mul_pow ?_ hj htotal)
      rw [abs_of_nonneg hnonneg]
      omega
    have hpower : (10 : ℚ) ^ (ctx.precision - j : ℤ) * 10 ^ j = 10 ^ ctx.precision := by
      rw [← zpow_natCast (10 : ℚ) j, ← ten_zpow_add, sub_add_cancel, zpow_natCast]
    refine ⟨ctx.precision - j, ?_, ?_⟩
    · have hc' : (c : ℚ) < 10 ^ ctx.precision := by exact_mod_cast (abs_lt.mp hc).2
      rw [← hr', ← hpower] at hc'
      exact lt_of_mul_lt_mul_right hc' hp.le
    · have hlong' : (10 : ℚ) ^ ctx.precision ≤ (c + n * 10 ^ j : ℤ) := by exact_mod_cast hlong
      rw [← htotal, ← hpower] at hlong'
      exact le_of_mul_le_mul_right hlong' hp

end Decimal.Context.Representable

namespace Decimal

theorem cutRemainder_of_nonneg {a b : ℚ} (ha : 0 ≤ a) : cutRemainder a b = a - b * ⌊a / b⌋ := by
  rw [cutRemainder, if_pos ha]

theorem cutRemainder_bounds {a b : ℚ} (hb : 0 < b) (ha : 0 ≤ a) :
    0 ≤ cutRemainder a b ∧ cutRemainder a b < b := by
  rw [cutRemainder_of_nonneg ha]
  have h1 := Int.floor_le (a / b)
  have h2 := Int.lt_floor_add_one (a / b)
  have h3 : a / b * b = a := by field_simp
  constructor <;> nlinarith

theorem cutRemainder_bounds_of_nonpos {a b : ℚ} (hb : 0 < b) (ha : a ≤ 0) :
    -b < cutRemainder a b ∧ cutRemainder a b ≤ 0 := by
  obtain ⟨h1, h2⟩ := cutRemainder_bounds hb (neg_nonneg.mpr ha)
  rw [cutRemainder_neg] at h1 h2
  constructor <;> linarith

theorem abs_cutRemainder_le {a b : ℚ} (hb : 0 < b) : |cutRemainder a b| ≤ b := by
  rw [abs_le]
  rcases le_total 0 a with ha | ha
  · constructor <;> linarith [cutRemainder_bounds hb ha]
  · constructor <;> linarith [cutRemainder_bounds_of_nonpos hb ha]

theorem cutRemainder_of_small {a b : ℚ} (hlow : -b < a) (ha : a ≤ 0) : cutRemainder a b = a := by
  have hneg := cutRemainder_of_lt (neg_nonneg.mpr ha) (neg_lt.mp hlow)
  rw [cutRemainder_neg] at hneg
  linarith

/-- What is left of a number, or for one below zero the modulus more, is its distance from the multiple below. -/
theorem cutRemainder_cases {m : ℤ} (hm : 0 < m) (q : ℚ) :
    (0 ≤ cutRemainder q m ∧ cutRemainder q m = q - multipleBelow m q) ∨
      (cutRemainder q m < 0 ∧ cutRemainder q m + m = q - multipleBelow m q) := by
  have hm' : (0 : ℚ) < m := by exact_mod_cast hm
  rcases le_or_gt 0 q with h0 | hneg
  · refine Or.inl ⟨(cutRemainder_bounds hm' h0).1, ?_⟩
    rw [cutRemainder_of_nonneg h0, multipleBelow]
    push_cast
    rfl
  · obtain ⟨hlow, hhigh⟩ := cutRemainder_bounds_of_nonpos hm' hneg.le
    have hcut : cutRemainder q m = q - (m * ⌈q / m⌉ : ℤ) := by
      rw [cutRemainder, if_neg hneg.not_ge]
      push_cast
      rfl
    rcases hhigh.lt_or_eq with hlt | hzero
    · refine Or.inr ⟨hlt, ?_⟩
      rw [multipleBelow_eq (t := ⌈q / m⌉ - 1) hm]
      · rw [hcut]
        push_cast
        ring
      · push_cast at hcut ⊢
        linarith
      · push_cast at hcut ⊢
        linarith
    · refine Or.inl ⟨hzero.ge, ?_⟩
      rw [multipleBelow_eq (t := ⌈q / m⌉) hm, hcut]
      · linarith
      · linarith

theorem representable_cutRemainder_of_nonneg {ctx : Context} {q : ℚ} {m : ℤ} (hq : ctx.Representable q)
    (h0 : 0 ≤ q) (hm : 0 < m) (hmp : m < 10 ^ ctx.precision) :
    ctx.Representable (cutRemainder q m) := by
  have hm' : (0 : ℚ) < m := by exact_mod_cast hm
  obtain ⟨hr0, hrm⟩ := cutRemainder_bounds hm' h0
  obtain ⟨c, e, hc, he, rfl⟩ := hq
  rw [cutRemainder_of_nonneg h0] at hr0 hrm ⊢
  set t := ⌊(c : ℚ) * 10 ^ e / m⌋ with ht
  rcases le_or_gt 0 e with hpos | hneg
  · -- an integer below the modulus
    have hint : (c : ℚ) * 10 ^ e - m * t = ((c * (10 ^ e.toNat : ℕ) - m * t : ℤ) : ℚ) := by
      rw [show e = (e.toNat : ℤ) by omega, zpow_natCast, Int.toNat_natCast]
      push_cast
      rfl
    rw [hint] at hr0 hrm ⊢
    have h1 : 0 ≤ c * (10 ^ e.toNat : ℕ) - m * t := by exact_mod_cast hr0
    have h2 : c * (10 ^ e.toNat : ℕ) - m * t < m := by exact_mod_cast hrm
    exact Context.Representable.intCast (by rw [abs_of_nonneg h1]; omega)
  · -- at the exponent of the number, with a coefficient that is not larger
    have hten := ten_zpow_eq_natCast_mul hneg.le
    have hp := ten_zpow_pos e
    rw [zpow_zero] at hten
    have hform : (c : ℚ) * 10 ^ e - m * t =
        ((c - m * t * (10 ^ (0 - e).toNat : ℕ) : ℤ) : ℚ) * 10 ^ e := by
      push_cast at hten ⊢
      linear_combination -(m : ℚ) * t * hten
    rw [hform] at hr0 ⊢
    have hc0 : 0 ≤ c - m * t * (10 ^ (0 - e).toNat : ℕ) := by
      have := nonneg_of_mul_nonneg_left hr0 hp
      exact_mod_cast this
    have ht0 : 0 ≤ t := Int.floor_nonneg.mpr (by positivity)
    have hle : 0 ≤ m * t * ((10 ^ (0 - e).toNat : ℕ) : ℤ) := by positivity
    refine ⟨_, e, ?_, he, rfl⟩
    rw [abs_of_nonneg hc0]
    exact lt_of_le_of_lt (by omega) (lt_of_le_of_lt (le_abs_self c) hc)

theorem representable_cutRemainder {ctx : Context} {q : ℚ} {m : ℤ} (hq : ctx.Representable q) (hm : 0 < m)
    (hmp : m < 10 ^ ctx.precision) :
    ctx.Representable (cutRemainder q m) := by
  rcases le_total 0 q with h0 | h0
  · exact representable_cutRemainder_of_nonneg hq h0 hm hmp
  · have hneg := representable_cutRemainder_of_nonneg hq.neg (neg_nonneg.mpr h0) hm hmp
    rw [cutRemainder_neg] at hneg
    simpa using hneg.neg

/-! ## Exact multiples -/

section exact

variable {ctx : Context} {m : ℤ} {q r above low d d' : ℚ}

theorem Context.ten_pow_precision (ctx : Context) : (10 : ℤ) ^ ctx.precision = 10 * 10 ^ (ctx.precision - 1) := by
  obtain ⟨p, hp⟩ := Nat.exists_eq_add_of_le' (Context.Representable.precision_pos ctx)
  rw [hp, Nat.add_sub_cancel, pow_succ']

theorem abs_multipleBelow_lt (hq : |q| < 10 ^ (ctx.precision - 1)) (hm : 0 < m)
    (hmp : m ≤ 10 ^ (ctx.precision - 1)) :
    |multipleBelow m q| < 10 ^ ctx.precision ∧ |multipleBelow m q + m| < 10 ^ ctx.precision := by
  obtain ⟨hle, hlt⟩ := multipleBelow_bounds hm q
  obtain ⟨hlow, hhigh⟩ := abs_lt.mp hq
  have hten := ctx.ten_pow_precision
  have h1 : multipleBelow m q < 10 ^ (ctx.precision - 1) := by
    have : (multipleBelow m q : ℚ) < (10 ^ (ctx.precision - 1) : ℤ) := by push_cast; linarith
    exact_mod_cast this
  have h2 : -10 ^ (ctx.precision - 1) < multipleBelow m q + m := by
    have : ((-10 ^ (ctx.precision - 1) : ℤ) : ℚ) < (multipleBelow m q + m : ℤ) := by push_cast; linarith
    exact_mod_cast this
  constructor <;> rw [abs_lt] <;> constructor <;> omega

theorem representable_multipleBelow (hq : |q| < 10 ^ (ctx.precision - 1)) (hm : 0 < m)
    (hmp : m ≤ 10 ^ (ctx.precision - 1)) :
    ctx.Representable (multipleBelow m q) ∧ ctx.Representable (multipleBelow m q + m : ℤ) := by
  obtain ⟨hlow, hhigh⟩ := abs_multipleBelow_lt hq hm hmp
  exact ⟨Context.Representable.intCast hlow, Context.Representable.intCast hhigh⟩

/-- A whole number is kept as it is on a grid that is finer than the whole numbers: its count is even. -/
theorem Context.KeptOn.eq_intCast {e n : ℤ} {v : ℚ} (h : ctx.KeptOn q v e) (he : e < 0)
    (hnear : |n - q| ≤ 10 ^ e / 2) : v = n := by
  obtain ⟨j, hj⟩ : ∃ j : ℕ, e = -(j + 1 : ℕ) := ⟨(-e).toNat - 1, by omega⟩
  have hcount : ((n * 10 ^ (j + 1) : ℤ) : ℚ) * 10 ^ e = n := by
    rw [hj, zpow_neg, zpow_natCast]
    push_cast
    field_simp
  have heven : Even (n * 10 ^ (j + 1)) := by
    rw [pow_succ]
    exact (Even.mul_left (by decide) _).mul_left _
  have hkept := h.even _ heven
  rw [hcount] at hkept
  exact hkept hnear

theorem Context.KeptOn.eq_intCast_of_lt {e n : ℤ} {v : ℚ} (h : ctx.KeptOn q v e) (he : 0 ≤ e)
    (hnear : |v - n| < 1) : v = n := by
  obtain ⟨k, rfl⟩ := h.multiple
  have hwhole : (k : ℚ) * 10 ^ e = (k * 10 ^ e.toNat : ℤ) := by
    rw [← Int.toNat_of_nonneg he, zpow_natCast, Int.toNat_natCast]
    push_cast
    rfl
  rw [hwhole] at hnear ⊢
  have hzero : |k * 10 ^ e.toNat - n| < 1 := by exact_mod_cast hnear
  rw [Int.abs_lt_one_iff] at hzero
  rw [sub_eq_zero.mp hzero]

/-- Even if the distance from the multiple below is rounded, taking it away leads to that multiple: what was
lost is at most half of the last digit that is kept of a number as large as the multiple, of which the
multiple is an even count. -/
theorem low_eq (hq : ctx.Representable q) (hlt : |q| < 10 ^ (ctx.precision - 1)) (hm : 0 < m)
    (hmp : m ≤ 10 ^ (ctx.precision - 1)) (hr : ctx.Rounds (cutRemainder q m) r)
    (ha : if r < 0 then ctx.Rounds (r + m) above else above = r) (hl : ctx.Settles (q - above) low) :
    low = multipleBelow m q := by
  have hm' : (0 : ℚ) < m := by exact_mod_cast hm
  have hten := ctx.ten_pow_precision
  have hbelow := (representable_multipleBelow hlt hm hmp).1
  have hr := hr.eq_self (representable_cutRemainder hq hm (by omega))
  rw [hr] at ha
  rcases cutRemainder_cases hm q with ⟨hnonneg, hcut⟩ | ⟨hneg, hcut⟩
  · rw [if_neg hnonneg.not_gt] at ha
    rw [ha, hcut, sub_sub_cancel] at hl
    exact hl.rounds.eq_self hbelow
  have hqneg : q < 0 := by
    by_contra hq0
    exact hneg.not_ge (cutRemainder_bounds hm' (not_lt.mp hq0)).1
  have hfar : (multipleBelow m q : ℚ) ≤ -m := by exact_mod_cast multipleBelow_le_neg hm hqneg
  obtain ⟨hle, hlt'⟩ := multipleBelow_bounds hm q
  rw [if_pos hneg, hcut] at ha
  -- the distance is no farther from its rounding than from the modulus
  have hnear := ha.nearest m (Context.Representable.intCast (by rw [abs_of_pos hm]; omega))
  rw [abs_of_pos (show 0 < m - (q - multipleBelow m q) by linarith)] at hnear
  have hsize : |q - multipleBelow m q| ≤ |q - above| := by
    have hlow := (abs_le.mp hnear).1
    rw [abs_of_nonneg (by linarith), abs_of_nonpos (by linarith)]
    linarith
  have herror : multipleBelow m q - (q - above) = above - (q - multipleBelow m q) := by ring
  obtain ⟨e, hkept⟩ := hl.exists_keptOn
  rcases lt_or_ge e 0 with he | he
  · refine hkept.eq_intCast he ?_
    rw [herror]
    exact ha.error_le_half hkept.least (hsize.trans_lt hkept.size)
  · refine hkept.eq_intCast_of_lt he ?_
    have hclose := hl.rounds.nearest _ hbelow
    have hleast := Context.Representable.leastExponent_le ctx
    have htenth : |above - (q - multipleBelow m q)| ≤ 10 ^ (-1 : ℤ) / 2 := by
      refine ha.error_le_half (by omega) ?_
      have hprec := Context.Representable.precision_pos ctx
      have hmp' : (m : ℚ) ≤ 10 ^ (ctx.precision + -1 : ℤ) := by
        rw [show (ctx.precision + -1 : ℤ) = ((ctx.precision - 1 : ℕ) : ℤ) by omega, zpow_natCast]
        exact_mod_cast hmp
      rw [abs_of_nonneg (by linarith)]
      linarith [ten_zpow_pos (-1)]
    rw [herror] at hclose
    have htri := abs_sub_le low (q - above) (multipleBelow m q)
    rw [abs_sub_comm (q - above), herror] at htri
    norm_num at htenth
    linarith

/-- Half of the modulus is representable and so is one of the two distances from the multiples around a
number: rounded, these compare as they do. -/
theorem distance_lt_iff {b : ℚ} (hm : 0 < m) (hmp : m ≤ 10 ^ (ctx.precision - 1))
    (hsum : r + b = m) (hd : ctx.Rounds r d) (hd' : ctx.Rounds b d')
    (hone : ctx.Representable r ∨ ctx.Representable b) : d < d' ↔ 2 * r < m := by
  have hhalf : ctx.Representable (m / 2) := by
    have hten := ctx.ten_pow_precision
    have hdiv := Context.Representable.div_pow (k := 5 * m) (j := 1) (by decide)
      (show |5 * m| < 10 ^ ctx.precision by rw [abs_of_pos (by omega)]; omega)
    rwa [show ((5 * m : ℤ) : ℚ) / 10 ^ 1 = m / 2 by push_cast; ring] at hdiv
  constructor
  · intro hlt
    by_contra hge
    have hlow := hd.ge_of_ge hhalf (by linarith)
    have hhigh := hd'.le_of_le hhalf (by linarith)
    linarith
  · intro hlt
    have hlow := hd.le_of_le hhalf (by linarith)
    have hhigh := hd'.ge_of_ge hhalf (by linarith)
    rcases hone with hone | hone
    · rw [hd.eq_self hone]
      linarith
    · rw [hd'.eq_self hone]
      linarith

end exact

namespace Finite

variable {ctx : Context} {x : Finite} {m k : ℤ}

/-- The numbers met on the way to a nearest multiple. -/
structure Leads (ctx : Context) (x : Finite) (m k : ℤ) (r above low high toHigh toLow : Finite) : Prop where
  remainder : ctx.Rounds (cutRemainder x.value m) r.value
  distance : if r.value < 0 then ctx.Rounds (r.value + m) above.value else above.value = r.value
  lower : ctx.Settles (x.value - above.value) low.value
  higher : ctx.Rounds (low.value + m) high.value
  toHigher : ctx.Rounds (x.value - high.value) toHigh.value
  toLower : ctx.Rounds (x.value - low.value) toLow.value
  nearer : k = (if |toLow.value| < |toHigh.value| then low else high).truncate
  fits : |low.value| < Context.overflowBound ∧ |high.value| < Context.overflowBound

theorem abs_eq_ok {y : Finite} (hx : ctx.Representable x.value) (h : x.abs ctx = .ok y) :
    y.value = |x.value| :=
  ((abs_computes ctx x).rounds y h).eq_self hx.abs

theorem rounds_above {r above : Finite}
    (h : (if r.isNegative then r.add ctx (ofInt m) else pure r) = .ok above) :
    if r.value < 0 then ctx.Rounds (r.value + m) above.value else above.value = r.value := by
  split
  · next hneg =>
    rw [if_pos ((isNegative_iff r).mpr hneg)] at h
    have hround := (add_computes ctx r (ofInt m)).rounds above h
    rwa [value_ofInt] at hround
  · next hneg =>
    rw [if_neg (mt (isNegative_iff r).mp hneg)] at h
    rw [← Except.ok.inj h]

theorem nearestMultiple_leads (hm : 0 < m) (h : x.nearestMultiple ctx m = .ok k) :
    ∃ r above low high toHigh toLow : Finite, Leads ctx x m k r above low high toHigh toLow := by
  have hm' : 0 < (ofInt m).value := by rw [value_ofInt]; exact_mod_cast hm
  unfold nearestMultiple at h
  obtain ⟨r, hr, h⟩ := bind_eq_ok.mp h
  obtain ⟨above, ha, h⟩ := ite_bind_eq_ok.mp h
  obtain ⟨low, hl, h⟩ := bind_eq_ok.mp h
  obtain ⟨high, hh, h⟩ := bind_eq_ok.mp h
  obtain ⟨toHigh, hth, h⟩ := bind_eq_ok.mp h
  obtain ⟨toHigh', hth', h⟩ := bind_eq_ok.mp h
  obtain ⟨toLow, htl, h⟩ := bind_eq_ok.mp h
  obtain ⟨toLow', htl', h⟩ := bind_eq_ok.mp h
  have hk := Except.ok.inj h
  have hround := rem_rounds hm' hr
  have hhigh := (add_computes ctx low (ofInt m)).rounds high hh
  have hfar := (sub_computes ctx x high).rounds toHigh hth
  have hnear := (sub_computes ctx x low).rounds toLow htl
  rw [value_ofInt] at hround hhigh
  refine ⟨r, above, low, high, toHigh, toLow, hround, rounds_above ha, sub_settles hl, hhigh, hfar, hnear, ?_,
    sub_lt_overflowBound hl, add_lt_overflowBound hh⟩
  rw [← hk]
  simp only [compare_eq_gt_iff, abs_eq_ok hfar.representable hth', abs_eq_ok hnear.representable htl']

theorem truncate_of_value_eq {n : ℤ} (h : x.value = n) : x.truncate = n := by
  rcases le_total 0 x.value with h0 | h0
  · rw [truncate_of_nonneg h0, h, Int.floor_intCast]
  · rw [truncate_of_nonpos h0, h, Int.ceil_intCast]

theorem nearestMultiple_exact (hx : ctx.Representable x.value) (hlt : |x.value| < 10 ^ (ctx.precision - 1))
    (hm : 0 < m) (hmp : m ≤ 10 ^ (ctx.precision - 1)) (h : x.nearestMultiple ctx m = .ok k) :
    k = NumericContract.nearestMultiple m x.value := by
  obtain ⟨r, above, low, high, toHigh, toLow, hr, ha, hl, hh, hth, htl, hk, -⟩ := nearestMultiple_leads hm h
  have hten := ctx.ten_pow_precision
  obtain ⟨hle, hlt'⟩ := multipleBelow_bounds hm x.value
  have hlow : low.value = multipleBelow m x.value := low_eq hx hlt hm hmp hr ha hl
  have hhigh : high.value = (multipleBelow m x.value + m : ℤ) := by
    rw [hlow, ← Int.cast_add] at hh
    exact hh.eq_self (representable_multipleBelow hlt hm hmp).2
  have hone : ctx.Representable (x.value - multipleBelow m x.value) ∨
      ctx.Representable (multipleBelow m x.value + m - x.value) := by
    have hrep := representable_cutRemainder hx hm (by omega)
    rcases cutRemainder_cases hm x.value with ⟨-, hcut⟩ | ⟨-, hcut⟩
    · exact Or.inl (hcut ▸ hrep)
    · right
      rw [show (multipleBelow m x.value + m - x.value : ℚ) = -cutRemainder x.value m by linarith]
      exact hrep.neg
  rw [hlow] at htl
  have hth := hth.neg
  rw [hhigh, neg_sub, Int.cast_add] at hth
  have hcmp := distance_lt_iff hm hmp (by ring) htl hth hone
  have habs : |toLow.value| < |toHigh.value| ↔ 2 * (x.value - multipleBelow m x.value) < m := by
    rw [abs_of_nonneg (htl.nonneg (by linarith)), ← abs_neg toHigh.value,
      abs_of_nonneg (hth.nonneg (by linarith)), hcmp]
  rw [hk, nearestMultiple_eq_multipleBelow hm]
  by_cases hnear : 2 * (x.value - multipleBelow m x.value) < m
  · rw [if_pos (habs.mpr hnear), if_pos hnear, truncate_of_value_eq hlow, add_zero]
  · rw [if_neg (mt habs.mp hnear), if_neg hnear, truncate_of_value_eq hhigh]

theorem nearestMultiple_of_large_neg (hx : ctx.Representable x.value) (hlarge : x.value ≤ -10 ^ 77) (hm : 0 < m)
    (hmb : m < 10 ^ 18) (h : x.nearestMultiple ctx m = .ok k) : k ≤ 0 := by
  have hm' : (0 : ℚ) < m := by exact_mod_cast hm
  have hmb' : (m : ℚ) < 10 ^ 18 := by exact_mod_cast hmb
  obtain ⟨r, above, low, high, toHigh, toLow, hr, ha, hl, hh, -, -, hk, -⟩ := nearestMultiple_leads hm h
  have hcut := cutRemainder_bounds_of_nonpos hm' (show x.value ≤ 0 by linarith)
  have hr := hr.eq_self (representable_cutRemainder hx hm
    (hmb.trans_le (pow_le_pow_right₀ (by norm_num) (by have := ctx.precision_wide; omega))))
  rw [hr] at ha
  have ha0 : 0 ≤ above.value := by
    split at ha
    · exact ha.nonneg (by linarith)
    · linarith
  have hlow : low.value ≤ x.value := hl.rounds.le_of_le hx (by linarith)
  have hhigh : high.value ≤ 0 := hh.nonpos (by linarith)
  have hchosen : (if |toLow.value| < |toHigh.value| then low else high).value ≤ 0 := by
    split <;> linarith
  rw [hk, truncate_of_nonpos hchosen]
  exact Int.ceil_le.mpr (by exact_mod_cast hchosen)

theorem nearestMultiple_of_large (hp : 78 ≤ ctx.precision) (hx : ctx.Representable x.value)
    (hlarge : 10 ^ 77 ≤ x.value) (hm : 0 < m) (hmb : m < 10 ^ 18)
    (h : x.nearestMultiple ctx m = .ok k) : 10 ^ 76 ≤ k := by
  have hm' : (0 : ℚ) < m := by exact_mod_cast hm
  have hmb' : (m : ℚ) < 10 ^ 18 := by exact_mod_cast hmb
  have h0 : 0 ≤ x.value := by linarith
  obtain ⟨r, above, low, high, toHigh, toLow, hr, ha, hl, hh, -, -, hk, -⟩ := nearestMultiple_leads hm h
  have hcut := cutRemainder_bounds hm' h0
  have hr := hr.eq_self (representable_cutRemainder hx hm
    (hmb.trans_le (pow_le_pow_right₀ (by norm_num) (by omega))))
  rw [hr, if_neg (not_lt.mpr hcut.1)] at ha
  have hten : ctx.Representable ((10 : ℚ) ^ 76) := by
    have : ctx.Representable ((10 ^ 76 : ℤ) : ℚ) := Context.Representable.intCast (by
      rw [abs_of_pos (by norm_num)]
      exact pow_lt_pow_right₀ (by norm_num) (by omega))
    exact_mod_cast this
  have hlow : 10 ^ 76 ≤ low.value := hl.rounds.ge_of_ge hten (by linarith)
  have hhigh : 10 ^ 76 ≤ high.value := hh.ge_of_ge hten (by linarith)
  have hchosen : 10 ^ 76 ≤ (if |toLow.value| < |toHigh.value| then low else high).value := by
    split <;> assumption
  rw [hk, truncate_of_nonneg (by linarith)]
  exact Int.le_floor.mpr (by exact_mod_cast hchosen)

/-- Limited to what is paid, the rounded payout is the nearest multiple of the payout. -/
theorem clamp_nearestMultiple {cap : ℤ} (hp : 78 ≤ ctx.precision) (hx : ctx.Representable x.value)
    (hm : 0 < m) (hmb : m < 10 ^ 18) (hcap : 0 ≤ cap) (hcapb : cap ≤ 10 ^ 70)
    (h : x.nearestMultiple ctx m = .ok k) :
    clampInt k 0 cap = clampInt (NumericContract.nearestMultiple m x.value) 0 cap := by
  have hmb' : (m : ℚ) < 10 ^ 18 := by exact_mod_cast hmb
  have hten : (10 : ℤ) ^ 77 ≤ 10 ^ (ctx.precision - 1) := pow_le_pow_right₀ (by norm_num) (by omega)
  have hten' : (10 : ℚ) ^ 77 ≤ 10 ^ (ctx.precision - 1) := by exact_mod_cast hten
  rcases lt_or_ge |x.value| (10 ^ 77) with hlt | hge
  · rw [nearestMultiple_exact hx (hlt.trans_le hten') hm (by omega) h]
  have hnear := abs_le.mp (abs_sub_nearestMultiple_le hm x.value)
  rcases le_abs'.mp hge with hneg | hpos
  · have h1 := nearestMultiple_of_large_neg hx hneg hm hmb h
    have h2 := nearestMultiple_nonpos (q := x.value) hm (by linarith)
    unfold clampInt
    omega
  · have h1 := nearestMultiple_of_large hp hx hpos hm hmb h
    have h2 : 10 ^ 76 ≤ NumericContract.nearestMultiple m x.value := by
      have h3 : (10 : ℚ) ^ 76 ≤ (NumericContract.nearestMultiple m x.value : ℚ) := by linarith [hnear.2]
      exact_mod_cast h3
    unfold clampInt
    omega

theorem nearestMultiple_succeeds (hp : 78 ≤ ctx.precision) (hx : |x.value| ≤ 10 ^ 70) (hm : 0 < m)
    (hmb : m < 10 ^ 18) : ∃ k, x.nearestMultiple ctx m = .ok k := by
  have hm' : (0 : ℚ) < m := by exact_mod_cast hm
  have hmb' : (m : ℚ) < 10 ^ 18 := by exact_mod_cast hmb
  have hten' : (10 : ℚ) ^ 78 ≤ 10 ^ ctx.precision := pow_le_pow_right₀ (by norm_num) hp
  have hone : (1 : ℚ) ≤ m := by exact_mod_cast hm
  have hcut := abs_cutRemainder_le hm' (a := x.value)
  have hrem : ctx.Computes (x.rem ctx (ofInt m)) (cutRemainder x.value m) := by
    have : ctx.Computes (x.rem ctx (ofInt m)) (cutRemainder x.value (ofInt m).value) :=
      rem_computes (by rwa [value_ofInt]) (by rw [value_ofInt]; nlinarith)
    rwa [value_ofInt] at this
  obtain ⟨r, hr, hround⟩ := hrem.exists_rounds (by linarith)
  have hrb := hround.abs_le_two_mul
  obtain ⟨above, ha, hab⟩ : ∃ above : Finite,
      (if r.isNegative then r.add ctx (ofInt m) else pure r) = .ok above ∧ |above.value| ≤ 10 ^ 30 := by
    split
    · have hsum := abs_add_le r.value m
      rw [abs_of_pos hm'] at hsum
      have hadd := add_computes ctx r (ofInt m)
      rw [value_ofInt] at hadd
      obtain ⟨above, ha, hround⟩ := hadd.exists_rounds (by linarith)
      exact ⟨above, ha, by linarith [hround.abs_le_two_mul]⟩
    · exact ⟨r, rfl, by linarith⟩
  have hsub := abs_sub x.value above.value
  obtain ⟨low, hl, hlr⟩ := (sub_computes ctx x above).exists_rounds (by linarith)
  have hlb := hlr.abs_le_two_mul
  have hsum := abs_add_le low.value m
  rw [abs_of_pos hm'] at hsum
  have hadd := add_computes ctx low (ofInt m)
  rw [value_ofInt] at hadd
  obtain ⟨high, hh, hhr⟩ := hadd.exists_rounds (by linarith)
  have hhb := hhr.abs_le_two_mul
  have hfar := abs_sub x.value high.value
  have hnear := abs_sub x.value low.value
  obtain ⟨toHigh, hth, hthr⟩ := (sub_computes ctx x high).exists_rounds (by linarith)
  obtain ⟨toLow, htl, htlr⟩ := (sub_computes ctx x low).exists_rounds (by linarith)
  have hthb := hthr.abs_le_two_mul
  have htlb := htlr.abs_le_two_mul
  obtain ⟨toHigh', hth', -⟩ := (abs_computes ctx toHigh).exists_rounds (by rw [abs_abs]; linarith)
  obtain ⟨toLow', htl', -⟩ := (abs_computes ctx toLow).exists_rounds (by rw [abs_abs]; linarith)
  refine ⟨_, bind_eq_ok.mpr ⟨r, hr, ite_bind_eq_ok.mpr ⟨above, ha, bind_eq_ok.mpr ⟨low, hl,
    bind_eq_ok.mpr ⟨high, hh, bind_eq_ok.mpr ⟨toHigh, hth, bind_eq_ok.mpr ⟨toHigh', hth',
      bind_eq_ok.mpr ⟨toLow, htl, bind_eq_ok.mpr ⟨toLow', htl', rfl⟩⟩⟩⟩⟩⟩⟩⟩⟩

end Finite

end Decimal

end NumericContract
