import NumericContract.Proofs.Coefficient
import NumericContract.Proofs.Decimal.Monotone
import NumericContract.Proofs.Descriptor.Checked

/-!
# Numbers without a coefficient

A number has no coefficient if it needs more digits for its sixteen decimals than the context keeps.
It is rounded twice on the way, to the digits of the context and to sixteen decimals, but which numbers
are refused is as if it was rounded once, a half going upward. Such a number ends a check.
-/

namespace NumericContract

open Decimal Descriptor Magnitude

namespace Decimal

/-! ## More digits than there is room for -/

namespace Context

variable {ctx : Context} {e : ℤ} {q v : ℚ}

/-- The middle between the last number of `p` digits and the next power of ten goes to the latter, since the
former is odd. -/
theorem divHalfEven_middle {p : ℕ} (hp : 0 < p) : divHalfEven (10 ^ (p + 1) - 5) 10 = 10 ^ p := by
  obtain ⟨k, rfl⟩ : ∃ k, p = k + 1 := ⟨p - 1, by omega⟩
  have hpos : 0 < 10 ^ k := by positivity
  unfold divHalfEven
  rw [pow_succ 10 (k + 1), pow_succ 10 k]
  split
  · omega
  · split <;> omega

def middle (ctx : Context) (e : ℤ) : Finite := ⟨false, 10 ^ (ctx.precision + 1) - 5, e - 1⟩

theorem digitCount_middle (p : ℕ) : digitCount (10 ^ (p + 1) - 5) = p + 1 := by
  have hpos : 0 < 10 ^ p := by positivity
  have hpow : 10 ^ (p + 1) = 10 * 10 ^ p := by ring
  have hle := digitCount_le_iff (n := 10 ^ (p + 1) - 5) (k := p + 1)
  have hle' := digitCount_le_iff (n := 10 ^ (p + 1) - 5) (k := p)
  omega

theorem value_middle (ctx : Context) (e : ℤ) :
    (ctx.middle e).value = 10 ^ (ctx.precision + e) - 10 ^ e / 2 := by
  have hfive : 5 ≤ 10 ^ (ctx.precision + 1) :=
    le_trans (by norm_num) (Nat.pow_le_pow_right (by norm_num) (show 1 ≤ ctx.precision + 1 by omega))
  have hten : (10 : ℚ) ^ e = 10 * 10 ^ (e - 1) := by
    rw [← zpow_one_add₀ (by norm_num), add_sub_cancel]
  rw [Finite.value_of_positive rfl, middle, Nat.cast_sub hfive, ten_zpow_add, zpow_natCast, hten]
  push_cast
  ring

theorem rounded_middle (he : ctx.leastExponent ≤ e) :
    (ctx.rounded (ctx.middle e)).value = 10 ^ (ctx.precision + e) := by
  have hdigits : digitCount (ctx.middle e).coefficient = ctx.precision + 1 := digitCount_middle _
  have hzero : (ctx.middle e).isZero = false := by
    rw [Finite.isZero_eq_false_iff, value_middle]
    have hpow : (10 : ℚ) ^ e ≤ 10 ^ (ctx.precision + e) := ten_zpow_le (by omega)
    have hpos := ten_zpow_pos e
    linarith
  have hcut : ctx.cutExponent (ctx.middle e) = e := by
    have hexponent : (ctx.middle e).exponent = e - 1 := rfl
    rw [cutExponent, hdigits, hexponent]
    omega
  have hdrop : ctx.cutExponent (ctx.middle e) = (ctx.middle e).exponent + (1 : ℕ) := by
    rw [hcut]
    exact (sub_add_cancel e 1).symm
  rw [value_rounded_of_cut hzero hdrop Nat.one_pos, hcut, ten_zpow_add, zpow_natCast]
  simp [middle, divHalfEven_middle (Representable.precision_pos ctx)]

/-- Rounding reaches the power of ten after the last multiple of `10 ^ e` that fits from the middle
between the two on. -/
theorem Settles.pow_le_iff (h : ctx.Settles q v) (he : ctx.leastExponent ≤ e) :
    10 ^ (ctx.precision + e) ≤ v ↔ 10 ^ (ctx.precision + e) - 10 ^ e / 2 ≤ q := by
  have hmiddle : ctx.Settles (10 ^ (ctx.precision + e) - 10 ^ e / 2) (10 ^ (ctx.precision + e)) :=
    ⟨ctx.middle e, Or.inl (value_middle ctx e), rounded_middle he⟩
  refine ⟨fun hv => ?_, hmiddle.mono h⟩
  by_contra hq
  rw [not_le] at hq
  -- the last multiple that fits is closer
  have hlast : ctx.Representable (10 ^ (ctx.precision + e) - 10 ^ e) := by
    refine ⟨10 ^ ctx.precision - 1, e, ?_, he, ?_⟩
    · have hone : (1 : ℤ) ≤ 10 ^ ctx.precision := one_le_pow₀ (by norm_num)
      rw [abs_of_nonneg (by omega)]
      omega
    · rw [ten_zpow_add, zpow_natCast]
      push_cast
      ring
  have hpos := ten_zpow_pos e
  rcases le_total q (10 ^ (ctx.precision + e) - 10 ^ e) with hle | hge
  · have hbelow := h.rounds.le_of_le hlast hle
    linarith
  · have hnear := h.rounds.nearest _ hlast
    rw [abs_of_nonneg (show 0 ≤ v - q by linarith),
      abs_of_nonpos (show (10 : ℚ) ^ (ctx.precision + e) - 10 ^ e - q ≤ 0 by linarith)] at hnear
    linarith

end Context

namespace Finite

variable {ctx : Context} {x m : Finite} {e : ℤ}

/-- The number has more digits than the context keeps, counted in units of `10 ^ e`. -/
def Overfills (ctx : Context) (e : ℤ) (x : Finite) : Prop := 10 ^ ctx.precision ≤ x.countIn e

instance : Decidable (x.Overfills ctx e) := inferInstanceAs (Decidable (_ ≤ _))

theorem overfills_iff :
    x.Overfills ctx e ↔ 10 ^ (ctx.precision + e) - 10 ^ e / 2 ≤ |x.value| := by
  have hp := ten_zpow_pos e
  rw [Overfills, countIn, Nat.le_floor_iff (by positivity), ten_zpow_add, zpow_natCast, ← sub_le_iff_le_add,
    le_div_iff₀ hp]
  push_cast
  rw [sub_mul, one_div_mul_eq_div]

theorem overfills_congr (h : ctx.Settles |x.value| m.value) (he : ctx.leastExponent ≤ e) :
    m.Overfills ctx e ↔ x.Overfills ctx e := by
  have hself : ctx.Settles m.value m.value :=
    ⟨m, Or.inl rfl, (Context.rounded_rounds ctx m).eq_self h.rounds.representable⟩
  rw [overfills_iff, overfills_iff, abs_of_nonneg (h.rounds.nonneg (abs_nonneg _)),
    ← h.pow_le_iff he, ← hself.pow_le_iff he]

theorem maxExponent_lt_adjusted_iff (hzero : m.isZero = true → m.exponent ≤ maxExponent) :
    maxExponent < m.adjusted ↔ 10 ^ (maxExponent + 1) ≤ |m.value| := by
  cases hm : m.isZero with
  | true =>
      have hc : m.coefficient = 0 := by simpa [isZero] using hm
      have hle := hzero hm
      have hpos := ten_zpow_pos (maxExponent + 1)
      have hadjusted : m.adjusted = m.exponent := by simp [adjusted, hc]
      rw [hadjusted, (isZero_iff m).mp hm, abs_zero]
      exact iff_of_false (by omega) (by linarith)
  | false =>
      constructor
      · intro hlt
        exact (ten_zpow_le (by omega)).trans (zpow_adjusted_le hm)
      · intro hle
        have hlt := lt_of_ten_zpow_lt (hle.trans_lt (abs_value_lt_zpow_adjusted m))
        omega

theorem abs_eq (ctx : Context) (x : Finite) : ∃ m : Finite, ctx.Settles |x.value| m.value ∧
    x.abs ctx = if x.Overfills ctx (maxExponent + 1 - ctx.precision) then .error .overflow else .ok m := by
  set y : Finite := { x with negative := false } with hy
  have hv : y.value = |x.value| := by rw [abs_value, value_of_positive rfl]
  have hsettles : ctx.Settles |x.value| (ctx.rounded y).value := ⟨y, Or.inl hv, rfl⟩
  have hleast : ctx.leastExponent ≤ maxExponent + 1 - ctx.precision := by
    unfold Context.leastExponent minExponent maxExponent
    omega
  have hlarge : maxExponent < (ctx.rounded y).adjusted ↔
      x.Overfills ctx (maxExponent + 1 - ctx.precision) := by
    rw [maxExponent_lt_adjusted_iff Context.exponent_le_of_rounded_isZero,
      abs_of_nonneg (hsettles.rounds.nonneg (abs_nonneg _)), overfills_iff, ← hsettles.pow_le_iff hleast,
      add_sub_cancel]
  refine ⟨ctx.rounded y, hsettles, ?_⟩
  unfold abs
  rw [Context.fit_eq, Context.checkOverflow, if_congr hlarge rfl rfl]

end Finite

end Decimal

/-! ## Encoding -/

theorem Json.toDecimal_eq_error {name : String} {v : Json} {f : Failure}
    (h : v.toDecimal name = .error f) : ∃ fault, f = .value fault := by
  unfold toDecimal at h
  split at h
  · cases h
  · split at h
    · cases h
    · exact ⟨_, (Except.error.inj h).symm⟩
  · exact ⟨_, (Except.error.inj h).symm⟩

namespace Coefficient

variable {ctx : Context} {x : Finite}

/-- The signal of the arithmetic in which a number is encoded, if it is too large. -/
def signal? (ctx : Context) (x : Finite) : Option Signal :=
  if x.Overfills ctx.widened (maxExponent + 1 - ctx.widened.precision) then some .overflow
  else if x.Overfills ctx.widened (-16) then some .invalidOperation
  else none

theorem units_eq_error_iff {s : Signal} : units ctx x = .error s ↔ signal? ctx x = some s := by
  obtain ⟨m, hsettles, habs⟩ := x.abs_eq ctx.widened
  have hleast := Context.Representable.leastExponent_le ctx.widened
  have hfills := Finite.overfills_congr (e := -16) hsettles (by omega)
  unfold signal?
  by_cases hlarge : x.Overfills ctx.widened (maxExponent + 1 - ctx.widened.precision)
  · rw [if_pos hlarge] at habs ⊢
    unfold units
    rw [habs]
    simp [bind, Except.bind]
  · rw [if_neg hlarge] at habs ⊢
    rw [units_eq habs]
    by_cases hm : m.Overfills ctx.widened (-16)
    · rw [if_neg (not_lt.mpr hm), if_pos (hfills.mp hm)]
      simp
    · rw [if_pos (not_le.mp hm), if_neg (mt hfills.mpr hm)]
      simp

theorem ofFinite_eq_error_iff {s : Signal} : ofFinite ctx x = .error s ↔ signal? ctx x = some s := by
  rw [← units_eq_error_iff]
  unfold ofFinite
  cases units ctx x <;> simp [bind, Except.bind, pure, Except.pure]

def escape? (ctx : Context) (v : Json) : Option Failure :=
  match v.toDecimal "coefficient" with
  | .ok (.finite x) => (signal? ctx x).map .arithmetic
  | _ => none

theorem ofDecimal_finite (ctx : Context) (x : Finite) :
    ofDecimal ctx (.finite x) = Failure.ofArithmetic (ofFinite ctx x) := rfl

theorem failure?_ofNumber (ctx : Context) (v : Json) : (ofNumber ctx v).failure? = escape? ctx v := by
  unfold ofNumber escape?
  cases hv : v.toDecimal "coefficient" with
  | error f =>
      obtain ⟨fault, rfl⟩ := Json.toDecimal_eq_error hv
      rfl
  | ok value =>
      cases value with
      | infinity s => rfl
      | nan signaling s payload => rfl
      | finite x =>
          show _ = (signal? ctx x).map Failure.arithmetic
          rw [bind_of_ok rfl, ofDecimal_finite]
          cases hx : ofFinite ctx x with
          | error s =>
              rw [ofFinite_eq_error_iff.mp hx]
              rfl
          | ok c =>
              have hsignal : signal? ctx x = none := by
                rw [Option.eq_none_iff_forall_ne_some]
                intro s hs
                rw [ofFinite_eq_error_iff.mpr hs] at hx
                cases hx
              rw [hsignal]
              rfl

theorem failure?_ofJson (ctx : Context) (v : Json) : (ofJson ctx v).failure? = escape? ctx v := by
  unfold ofJson
  split
  · exact failure?_ofFields _
  · exact failure?_ofNumber ctx v

end Coefficient

end NumericContract
