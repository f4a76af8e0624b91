import NumericContract.Decimal.Binary
import NumericContract.Proofs.Decimal.Nearest

/-!
# Nearest binary64 numbers

The number that is found for a decimal is a binary64 number, and none is closer to the decimal.
-/

namespace NumericContract.Binary64

open Decimal Magnitude

/-- A number with a significand of 53 binary digits and any exponent that is not too small. -/
def Representable (q : ℚ) : Prop := ∃ m e : ℤ, |m| < 2 ^ 53 ∧ -1074 ≤ e ∧ q = m * 2 ^ e

structure Rounds (q y : ℚ) : Prop where
  representable : Representable y
  nearest : ∀ z, Representable z → |y - q| ≤ |z - q|

def value (x : Binary64) : ℚ := x.significand * 2 ^ x.exponent

variable {q y t : ℚ} {n d m : ℕ} {e : ℤ}

theorem two_zpow_pos (e : ℤ) : (0 : ℚ) < 2 ^ e := zpow_pos (by norm_num) e

theorem two_zpow_add (e f : ℤ) : (2 : ℚ) ^ (e + f) = 2 ^ e * 2 ^ f := zpow_add₀ (by norm_num) e f

theorem two_zpow_le {e f : ℤ} (h : e ≤ f) : (2 : ℚ) ^ e ≤ 2 ^ f := zpow_le_zpow_right₀ (by norm_num) h

theorem Rounds.neg (h : Rounds q y) : Rounds (-q) (-y) := by
  have hneg {z : ℚ} (hz : Representable z) : Representable (-z) := by
    obtain ⟨m, e, hm, he, rfl⟩ := hz
    exact ⟨-m, e, by rwa [abs_neg], he, by push_cast; ring⟩
  refine ⟨hneg h.representable, fun z hz => ?_⟩
  have hle := h.nearest (-z) (hneg hz)
  rw [← abs_neg (-y - -q), ← abs_neg (z - -q)]
  convert hle using 2 <;> ring

/-! ## Rounding at an exponent -/

theorem twoPower_div (e : ℤ) : ((twoPower (-e).toNat : ℕ) : ℚ) / (twoPower e.toNat : ℕ) = 2 ^ (-e) := by
  have hpower (k : ℕ) : ((twoPower k : ℕ) : ℚ) = 2 ^ (k : ℤ) := by
    rw [zpow_natCast]
    exact_mod_cast (show twoPower k = 2 ^ k from rfl)
  rw [hpower, hpower, ← zpow_sub₀ (by norm_num)]
  congr 1
  omega

theorem ratio_eq (n d : ℕ) (e : ℤ) :
    ((n * twoPower (-e).toNat : ℕ) : ℚ) / (d * twoPower e.toNat : ℕ) = n / d / 2 ^ e := by
  push_cast
  rw [mul_div_mul_comm, twoPower_div, zpow_neg, div_eq_mul_inv ((n : ℚ) / d)]

theorem abs_sub_le_of_half (h : |(m : ℚ) - t| ≤ 1 / 2) (k : ℤ) : |(m : ℚ) - t| ≤ |(k : ℚ) - t| := by
  rcases eq_or_ne k m with rfl | hne
  · simp
  · have hone : (1 : ℚ) ≤ |(k : ℚ) - m| := by exact_mod_cast Int.one_le_abs (sub_ne_zero.mpr hne)
    have htri := abs_sub_le (k : ℚ) t m
    rw [abs_sub_comm t] at htri
    linarith

theorem abs_mul_sub_le (hm : |(m : ℚ) - q / 2 ^ e| ≤ 1 / 2) (k : ℤ) :
    |(m : ℚ) * 2 ^ e - q| ≤ |(k : ℚ) * 2 ^ e - q| := by
  have hpos := two_zpow_pos e
  have hscale (k : ℤ) : |(k : ℚ) * 2 ^ e - q| = |(k : ℚ) - q / 2 ^ e| * 2 ^ e := by
    rw [← abs_of_pos hpos, ← abs_mul, abs_of_pos hpos, sub_mul, div_mul_cancel₀ q hpos.ne']
  have hself := hscale m
  rw [Int.cast_natCast] at hself
  rw [hself, hscale]
  exact mul_le_mul_of_nonneg_right (abs_sub_le_of_half hm k) hpos.le

/-- One more than the greatest significand is the least one at the next exponent. -/
theorem representable_mul (hm : m ≤ 2 ^ 53) (hleast : -1074 ≤ e) : Representable (m * 2 ^ e) := by
  rcases hm.lt_or_eq with hlt | rfl
  · exact ⟨m, e, by rw [Nat.abs_cast]; exact_mod_cast hlt, hleast, by rw [Int.cast_natCast]⟩
  · refine ⟨2 ^ 52, e + 1, by norm_num, by omega, ?_⟩
    rw [two_zpow_add]
    push_cast
    ring

/-- A multiple of a power of two that is as close as can be is a nearest number if the significand fits
and fills its digits. -/
theorem rounds_of_half (hm : |(m : ℚ) - q / 2 ^ e| ≤ 1 / 2) (hhigh : q < 2 ^ (53 + e)) (hleast : -1074 ≤ e)
    (hlow : e = -1074 ∨ 2 ^ (52 + e) ≤ q) : Rounds q (m * 2 ^ e) := by
  constructor
  · have hquot : q / 2 ^ e < 2 ^ 53 := by
      rw [div_lt_iff₀ (two_zpow_pos e)]
      rwa [two_zpow_add] at hhigh
    have hlt : (m : ℚ) < 2 ^ 53 + 1 := by linarith [(abs_le.mp hm).2]
    exact representable_mul (Nat.lt_succ_iff.mp (by exact_mod_cast hlt)) hleast
  · rintro z ⟨k, f, hk, hf, rfl⟩
    rcases le_or_gt e f with hef | hfe
    · have heq : (k : ℚ) * 2 ^ f = ((k * 2 ^ (f - e).toNat : ℤ) : ℚ) * 2 ^ e := by
        push_cast
        rw [mul_assoc, ← zpow_natCast, ← two_zpow_add]
        congr 2
        omega
      rw [heq]
      exact abs_mul_sub_le hm _
    -- what has a smaller exponent stays below the least number that fills the digits
    · have hfills : (2 : ℚ) ^ (52 + e) ≤ q := hlow.resolve_left (by omega)
      have hk' : (k : ℚ) ≤ 2 ^ 53 := by exact_mod_cast (abs_lt.mp hk).2.le
      have hz : (k : ℚ) * 2 ^ f ≤ 2 ^ (52 + e) := by
        calc (k : ℚ) * 2 ^ f ≤ 2 ^ 53 * 2 ^ f := mul_le_mul_of_nonneg_right hk' (two_zpow_pos f).le
          _ = 2 ^ (53 + f) := by rw [two_zpow_add]; norm_num
          _ ≤ 2 ^ (52 + e) := two_zpow_le (by omega)
      have hleast := abs_mul_sub_le hm (2 ^ 52)
      rw [show ((2 ^ 52 : ℤ) : ℚ) * 2 ^ e = 2 ^ (52 + e) by rw [two_zpow_add]; norm_num] at hleast
      rw [abs_of_nonpos (by linarith : (2 : ℚ) ^ (52 + e) - q ≤ 0)] at hleast
      rw [abs_of_nonpos (by linarith : (k : ℚ) * 2 ^ f - q ≤ 0)]
      linarith

/-! ## The exponent of a ratio -/

theorem natCast_bounds (hn : 0 < n) : (2 : ℚ) ^ (n.log2 : ℤ) ≤ n ∧ (n : ℚ) < 2 ^ (n.log2 + 1 : ℤ) := by
  have hlow := Nat.log2_self_le hn.ne'
  have hhigh := Nat.lt_log2_self (n := n)
  constructor
  · rw [zpow_natCast]
    exact_mod_cast hlow
  · rw [← Nat.cast_succ, zpow_natCast]
    exact_mod_cast hhigh

theorem ratio_lt_iff (hd : 0 < d) (e : ℤ) :
    n * twoPower (-e).toNat < d * twoPower e.toNat * twoPower 53 ↔ (n : ℚ) / d < 2 ^ (53 + e) := by
  have hpos : 0 < d * twoPower e.toNat := Nat.mul_pos hd (Nat.two_pow_pos _)
  have hpow : ((twoPower 53 : ℕ) : ℚ) = 2 ^ (53 : ℤ) := by norm_num [twoPower]
  rw [two_zpow_add, ← div_lt_iff₀ (two_zpow_pos e), ← ratio_eq, div_lt_iff₀ (by exact_mod_cast hpos), ← hpow,
    mul_comm (twoPower 53 : ℚ)]
  norm_cast

/-- The exponent that is tried first is one too small at most. -/
theorem ratio_bounds (hn : 0 < n) (hd : 0 < d) {low : ℤ} (hlow : low = n.log2 - d.log2 - 53) :
    2 ^ (52 + low) ≤ (n : ℚ) / d ∧ (n : ℚ) / d < 2 ^ (54 + low) := by
  have hd' : (0 : ℚ) < d := by exact_mod_cast hd
  obtain ⟨hnlow, hnhigh⟩ := natCast_bounds hn
  obtain ⟨hdlow, hdhigh⟩ := natCast_bounds hd
  constructor
  · rw [le_div_iff₀ hd']
    calc (2 : ℚ) ^ (52 + low) * d ≤ 2 ^ (52 + low) * 2 ^ (d.log2 + 1 : ℤ) :=
          mul_le_mul_of_nonneg_left hdhigh.le (two_zpow_pos _).le
      _ = 2 ^ (n.log2 : ℤ) := by rw [← two_zpow_add]; congr 1; omega
      _ ≤ n := hnlow
  · rw [div_lt_iff₀ hd']
    calc (n : ℚ) < 2 ^ (n.log2 + 1 : ℤ) := hnhigh
      _ = 2 ^ (54 + low) * 2 ^ (d.log2 : ℤ) := by rw [← two_zpow_add]; congr 1; omega
      _ ≤ 2 ^ (54 + low) * d := mul_le_mul_of_nonneg_left hdlow (two_zpow_pos _).le

theorem ofRatio?_rounds {x : Binary64} (hn : 0 < n) (hd : 0 < d) (h : ofRatio? n d = some x) :
    Rounds (n / d) x.value := by
  unfold ofRatio? at h
  extract_lets atExponent low e₀ e m at h
  obtain ⟨hbelow, habove⟩ := ratio_bounds hn hd (show low = n.log2 - d.log2 - 53 from rfl)
  have he₀ : (n : ℚ) / d < 2 ^ (53 + e₀) ∧ 2 ^ (52 + e₀) ≤ (n : ℚ) / d := by
    by_cases htest : n * twoPower (-low).toNat < d * twoPower low.toNat * twoPower 53
    · rw [show e₀ = low from if_pos htest]
      exact ⟨(ratio_lt_iff hd low).mp htest, hbelow⟩
    · rw [show e₀ = low + 1 from if_neg htest, ← add_assoc, ← add_assoc, add_right_comm, add_right_comm 52]
      rw [ratio_lt_iff hd, not_lt] at htest
      exact ⟨habove, htest⟩
  have hhalf : |(m : ℚ) - n / d / 2 ^ e| ≤ 1 / 2 := by
    rw [← ratio_eq]
    exact abs_divHalfEven_sub_le _ (Nat.mul_pos hd (Nat.two_pow_pos _))
  have hhigh : (2 : ℚ) ^ (53 + e₀) ≤ 2 ^ (53 + e) := two_zpow_le (add_le_add_right (le_max_right _ _) 53)
  have hlow : e = -1074 ∨ 2 ^ (52 + e) ≤ (n : ℚ) / d := by
    rcases max_choice leastExponent e₀ with hmax | hmax
    · exact Or.inl hmax
    · exact Or.inr ((show e = e₀ from hmax) ▸ he₀.2)
  have hround := rounds_of_half hhalf (he₀.1.trans_le hhigh) (le_max_left _ _) hlow
  split at h
  · cases h
    exact hround
  · cases h

/-! ## Decimals -/

theorem rounds_zero (h : |q| ≤ 2 ^ (-1075 : ℤ)) : Rounds |q| 0 := by
  refine ⟨⟨0, 0, by norm_num, by norm_num, by simp⟩, ?_⟩
  rintro z ⟨k, e, -, he, rfl⟩
  rw [zero_sub, abs_neg, abs_abs]
  rcases eq_or_ne k 0 with rfl | hk
  · simp
  · have hone : (1 : ℚ) ≤ |(k : ℚ)| := by exact_mod_cast Int.one_le_abs hk
    have hz : (2 : ℚ) ^ (-1074 : ℤ) ≤ |(k : ℚ) * 2 ^ e| := by
      rw [abs_mul, abs_of_pos (two_zpow_pos e)]
      exact (two_zpow_le he).trans (le_mul_of_one_le_left (two_zpow_pos e).le hone)
    have htwice : (2 : ℚ) ^ (-1074 : ℤ) = 2 * 2 ^ (-1075 : ℤ) := zpow_one_add₀ (by norm_num) (-1075)
    have htri := abs_sub_abs_le_abs_sub ((k : ℚ) * 2 ^ e) |q|
    rw [abs_abs] at htri
    linarith

theorem ten_zpow_le_two_zpow : (10 : ℚ) ^ (-400 : ℤ) ≤ 2 ^ (-1075 : ℤ) := by
  rw [zpow_neg, zpow_neg]
  apply inv_anti₀ (two_zpow_pos 1075)
  calc (2 : ℚ) ^ (1075 : ℤ) ≤ 2 ^ (3 * 400 : ℤ) := two_zpow_le (by norm_num)
    _ = (2 ^ (3 : ℤ)) ^ (400 : ℤ) := zpow_mul 2 3 400
    _ ≤ 10 ^ (400 : ℤ) := zpow_le_zpow_left₀ (by norm_num) (by norm_num) (by norm_num)

theorem ofDecimal?_rounds {x : Finite} {b : Binary64} (h : ofDecimal? x = some b) : Rounds |x.value| b.value := by
  unfold ofDecimal? at h
  split at h
  · next hsmall =>
    cases h
    have hzero : value ⟨0, 0⟩ = 0 := by simp [value]
    rw [hzero]
    apply rounds_zero
    simp only [Bool.or_eq_true, decide_eq_true_eq] at hsmall
    rcases hsmall with hx | hx
    · rw [(x.isZero_iff).mp hx, abs_zero]
      exact (two_zpow_pos _).le
    · have hlt := x.abs_value_lt_zpow_adjusted
      have hle : (10 : ℚ) ^ (x.adjusted + 1) ≤ 10 ^ (-400 : ℤ) := ten_zpow_le (by omega)
      exact hlt.le.trans (hle.trans ten_zpow_le_two_zpow)
  · next hlarge =>
    split at h
    · cases h
    · have hcoefficient : 0 < x.coefficient := by
        have hzero : x.isZero = false := by simp_all
        exact Nat.pos_of_ne_zero (by simpa [Finite.isZero] using hzero)
      have hratio := ofRatio?_rounds (Nat.mul_pos hcoefficient (tenPower_pos _)) (tenPower_pos _) h
      have hscale := ten_zpow_sub 0 (-x.exponent)
      rw [zero_sub, neg_neg, zpow_zero, one_mul] at hscale
      rwa [Nat.cast_mul, mul_div_assoc, ← hscale, ← x.abs_value] at hratio

theorem value_of_toNat? {x : Binary64} (h : x.toNat? = some n) : x.value = n := by
  unfold toNat? at h
  split at h
  · next hdvd =>
    have hpos : 0 < twoPower (-x.exponent).toNat := Nat.two_pow_pos _
    have hratio := twoPower_div (-x.exponent)
    rw [neg_neg] at hratio
    cases h
    rw [Nat.cast_div (Dvd.dvd.mul_right (Nat.dvd_of_mod_eq_zero hdvd) _) (by exact_mod_cast hpos.ne'),
      Nat.cast_mul, mul_div_assoc, hratio, value]
  · cases h

end NumericContract.Binary64
