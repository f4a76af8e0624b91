import NumericContract.Proofs.Decimal.Multiple

/-!
# Rounding a payout to a multiple

A payout that the digits of the context can hold before the point is rounded to the nearest multiple of a
modulus that they can hold too, however many digits it has behind the point. Those of a number near zero
may be lost, and the sums on the way are then as near to the modulus or to zero as the number itself. What
may still happen is that a multiple next to the payout lies beyond the largest exponent.
-/

namespace NumericContract

open Decimal

/-! ## What an operation delivers -/

namespace Decimal.Context

variable {ctx : Context} {result : Except Signal Finite} {s : Finite} {q v : ℚ}

/-- What an operation makes of its exact result: what that settles to, or an overflow if it is too large. -/
def Delivers (ctx : Context) (result : Except Signal Finite) (q : ℚ) : Prop :=
  (∃ y, result = .ok y ∧ ctx.Settles q y.value) ∨
    (result = .error .overflow ∧ ∃ v, ctx.Settles q v ∧ overflowBound ≤ |v|)

theorem Represents.delivers (h : ctx.Represents s q) : ctx.Delivers (ctx.fit s) q := by
  obtain hok | ⟨herror, hbig⟩ := fit_cases ctx s
  · exact Or.inl ⟨_, hok, s, h, rfl⟩
  · exact Or.inr ⟨herror, _, ⟨s, h, rfl⟩, hbig⟩

namespace Delivers

theorem settles {y : Finite} (h : ctx.Delivers result q) (hy : result = .ok y) : ctx.Settles q y.value := by
  obtain ⟨y', hy', hsettles⟩ | ⟨herror, -⟩ := h
  · cases hy.symm.trans hy'
    exact hsettles
  · cases hy.symm.trans herror

/-- An operation fails only by overflow, and only if what its result settles to is too large. -/
theorem failsOnly {P : Prop} (h : ctx.Delivers result q)
    (hbig : ∀ v, ctx.Settles q v → overflowBound ≤ |v| → P) :
    FailsOnly (fun signal => signal = .overflow ∧ P) result := by
  obtain ⟨y, rfl, -⟩ | ⟨rfl, v, hv, hlarge⟩ := h
  · exact FailsOnly.ok y
  · exact FailsOnly.error ⟨rfl, hbig v hv hlarge⟩

end Delivers

end Decimal.Context

namespace Decimal.Finite

theorem add_delivers (ctx : Context) (x : Finite) (m : ℤ) : ctx.Delivers (x.add ctx (ofInt m)) (x.value + m) := by
  obtain ⟨s, hs, hrep⟩ := add_represents ctx x (ofInt m)
  rw [value_ofInt] at hrep
  rw [hs]
  exact hrep.delivers

theorem sub_delivers (ctx : Context) (x y : Finite) : ctx.Delivers (x.sub ctx y) (x.value - y.value) := by
  obtain ⟨s, hs, hrep⟩ := sub_represents ctx x y
  rw [hs]
  exact hrep.delivers

theorem abs_delivers (ctx : Context) (x : Finite) : ctx.Delivers (x.abs ctx) |x.value| := by
  refine Context.Represents.delivers (Or.inl ?_)
  rw [abs_value, value_of_positive rfl]

theorem rem_delivers (ctx : Context) (x : Finite) {m : ℤ} (hm : 0 < m)
    (hq : |x.value| < m * 10 ^ ctx.precision) : ctx.Delivers (x.rem ctx (ofInt m)) (cutRemainder x.value m) := by
  have hmodulus := value_ofInt m
  obtain ⟨s, hs, hfit⟩ | ⟨-, hle⟩ := rem_eq ctx x (y := ofInt m) (by rw [hmodulus]; exact_mod_cast hm)
  · rw [hfit]
    exact Context.Represents.delivers (Or.inl (by rw [hs, hmodulus]))
  · rw [hmodulus] at hle
    linarith

end Decimal.Finite

/-! ## Where the two multiples are found -/

section landing

variable {ctx : Context} {m : ℤ} {q r above low high v : ℚ}

/-- Where the lower multiple of a number is found: where it is or, for a number that is nearly zero, nearly at
zero or at the modulus below. -/
inductive LandsBelow (m : ℤ) (q low : ℚ) : Prop where
  | exactly (hlow : low = multipleBelow m q)
  | nearZero (hq : |q| ≤ 1 / 1000) (hlow : |low| ≤ 1 / 100)
  | nearModulus (hq : |q| ≤ 1 / 1000) (hlow : |low + m| ≤ 1 / 100)

/-- Where the two multiples around a number are found: the higher one is the modulus above the lower one. -/
inductive Lands (m : ℤ) (q low high : ℚ) : Prop where
  | exactly (hlow : low = multipleBelow m q) (hhigh : high = (multipleBelow m q + m : ℤ))
  | fromZero (hq : |q| ≤ 1 / 1000) (hlow : |low| ≤ 1 / 100) (hhigh : |high - m| ≤ 1 / 50)
  | toZero (hq : |q| ≤ 1 / 1000) (hlow : |low + m| ≤ 1 / 100) (hhigh : |high| ≤ 1 / 50)

/-- One of the two multiples around a number is too large. -/
def Huge (m : ℤ) (q : ℚ) : Prop :=
  Context.overflowBound ≤ |(multipleBelow m q : ℚ)| ∨ Context.overflowBound ≤ |((multipleBelow m q + m : ℤ) : ℚ)|

theorem modulus_le_multiple (hm : 0 < m) (q : ℚ) :
    m ≤ |multipleBelow m q| ∨ m ≤ |multipleBelow m q + m| := by
  unfold multipleBelow
  rcases lt_or_ge ⌊q / m⌋ 0 with h | h
  · left
    rw [abs_of_neg (by nlinarith)]
    nlinarith
  · right
    rw [abs_of_pos (by nlinarith)]
    nlinarith

theorem exists_overflowBound_eq : ∃ n : ℕ, Context.overflowBound = (10 ^ n : ℤ) := by
  obtain ⟨n, hn⟩ := Int.eq_ofNat_of_zero_le (show 0 ≤ maxExponent + 1 by decide)
  refine ⟨n, ?_⟩
  rw [Context.overflowBound, hn, zpow_natCast]
  push_cast
  rfl

/-- The bound is a whole number: what is too large and at most a half more than the modulus shows that the
modulus is too large itself. -/
theorem huge_of_abs_le (hm : 0 < m) (hv : |v| ≤ m + 1 / 2) (hbig : Context.overflowBound ≤ |v|) : Huge m q := by
  have hle : Context.overflowBound ≤ m := by
    have hbound := hbig.trans hv
    obtain ⟨n, hn⟩ := exists_overflowBound_eq
    rw [hn] at hbound ⊢
    have hlt : ((10 ^ n : ℤ) : ℚ) < (m + 1 : ℤ) := by
      push_cast at hbound ⊢
      linarith
    have hnext : (10 : ℤ) ^ n < m + 1 := by exact_mod_cast hlt
    exact_mod_cast Int.lt_add_one_iff.mp hnext
  rcases modulus_le_multiple hm q with hmultiple | hmultiple
  · exact Or.inl (hle.trans (by exact_mod_cast hmultiple))
  · exact Or.inr (hle.trans (by exact_mod_cast hmultiple))

theorem abs_le_of_abs_add_le (hm : 0 < m) (h : |v + m| ≤ 1 / 50) : |v| ≤ m + 1 / 2 := by
  have hm' : (0 : ℚ) < m := by exact_mod_cast hm
  have hfar := abs_sub_abs_le_abs_sub v (-m)
  rw [abs_neg, abs_of_pos hm', sub_neg_eq_add] at hfar
  linarith

theorem LandsBelow.huge (hm : 0 < m) (h : LandsBelow m q low) (hbig : Context.overflowBound ≤ |low|) :
    Huge m q := by
  have hm' : (0 : ℚ) < m := by exact_mod_cast hm
  cases h with
  | exactly hlow => exact Or.inl (hlow ▸ hbig)
  | nearZero _ hlow => exact huge_of_abs_le hm (by linarith) hbig
  | nearModulus _ hlow => exact huge_of_abs_le hm (abs_le_of_abs_add_le hm (by linarith)) hbig

theorem Lands.huge (hm : 0 < m) (h : Lands m q low high) (hbig : Context.overflowBound ≤ |high|) :
    Huge m q := by
  have hm' : (0 : ℚ) < m := by exact_mod_cast hm
  cases h with
  | exactly _ hhigh => exact Or.inr (hhigh ▸ hbig)
  | fromZero _ _ hhigh =>
      rw [← abs_neg, neg_sub, sub_eq_neg_add] at hhigh
      have hfar := abs_le_of_abs_add_le hm hhigh
      rw [abs_neg] at hfar
      exact huge_of_abs_le hm hfar hbig
  | toZero _ _ hhigh => exact huge_of_abs_le hm (by linarith) hbig

theorem cutRemainder_of_abs_lt (hq : |q| < m) : cutRemainder q m = q := by
  obtain ⟨hlow, hhigh⟩ := abs_lt.mp hq
  rcases le_total 0 q with h0 | h0
  · exact cutRemainder_of_lt h0 hhigh
  · exact cutRemainder_of_small hlow h0

section

variable (hm : 0 < m) (hmp : m ≤ 10 ^ (ctx.precision - 1))
include hm hmp

theorem representable_modulus : ctx.Representable m := by
  have hten := ctx.ten_pow_precision
  exact Context.Representable.intCast (by rw [abs_of_pos hm]; omega)

theorem abs_remainder_le (hr : ctx.Rounds (cutRemainder q m) r) : |r| ≤ m := by
  have hm' : (0 : ℚ) < m := by exact_mod_cast hm
  exact hr.abs_le_of_abs_le (representable_modulus hm hmp) (abs_cutRemainder_le hm')

theorem abs_distance_le (hr : |r| ≤ m) (hneg : r < 0) (ha : ctx.Rounds (r + m) above) : |above| ≤ m := by
  refine ha.abs_le_of_abs_le (representable_modulus hm hmp) (abs_le.mpr ?_)
  have := (abs_le.mp hr).1
  constructor <;> linarith

theorem low_near (hq : |q| ≤ 1 / 1000) (hr : ctx.Rounds (cutRemainder q m) r)
    (ha : if r < 0 then ctx.Rounds (r + m) above else above = r) (hl : ctx.Rounds (q - above) low) :
    |low| ≤ 1 / 100 ∨ |low + m| ≤ 1 / 100 := by
  have hone : (1 : ℚ) ≤ m := by exact_mod_cast hm
  have hmodulus := representable_modulus hm hmp
  rw [cutRemainder_of_abs_lt (by linarith)] at hr
  have hsmall := hr.abs_le_two_mul
  split at ha
  · right
    have hdistance := ha.abs_sub_le_two_mul hmodulus
    have hlow := hl.abs_sub_le_two_mul hmodulus.neg
    rw [add_sub_cancel_right] at hdistance
    rw [sub_neg_eq_add, show q - above - -m = q - (above - m) by ring] at hlow
    linarith [abs_sub q (above - m)]
  · left
    have hlow := hl.abs_le_two_mul
    rw [ha] at hlow
    linarith [abs_sub q r]

theorem landsBelow (hq : ctx.Representable q ∨ |q| ≤ 1 / 1000) (hlt : |q| < 10 ^ (ctx.precision - 1))
    (hr : ctx.Rounds (cutRemainder q m) r)
    (ha : if r < 0 then ctx.Rounds (r + m) above else above = r) (hl : ctx.Settles (q - above) low) :
    LandsBelow m q low := by
  rcases hq with hrep | hq
  · exact .exactly (low_eq hrep hlt hm hmp hr ha hl)
  · rcases low_near hm hmp hq hr ha hl.rounds with hlow | hlow
    · exact .nearZero hq hlow
    · exact .nearModulus hq hlow

theorem LandsBelow.lands (h : LandsBelow m q low) (hlt : |q| < 10 ^ (ctx.precision - 1))
    (hh : ctx.Rounds (low + m) high) : Lands m q low high := by
  cases h with
  | exactly hlow =>
      rw [hlow, ← Int.cast_add] at hh
      exact .exactly hlow (hh.eq_self (representable_multipleBelow hlt hm hmp).2)
  | nearZero hq hlow =>
      have hhigh := hh.abs_sub_le_two_mul (representable_modulus hm hmp)
      rw [add_sub_cancel_right] at hhigh
      exact .fromZero hq hlow (by linarith)
  | nearModulus hq hlow =>
      have hhigh := hh.abs_le_two_mul
      exact .toZero hq hlow (by linarith)

end

theorem abs_le_of_near {d z : ℚ} (hd : ctx.Rounds d v) (hz : ctx.Representable z) (hzm : |z| ≤ m)
    (hnear : |d - z| ≤ 1 / 4) : |v| ≤ m + 1 / 2 := by
  linarith [hd.abs_sub_le_two_mul hz, abs_sub_abs_le_abs_sub v z]

/-- No distance from one of the multiples is much larger than the modulus. -/
theorem abs_toMultiple_le (hm : 0 < m) (hmp : m ≤ 10 ^ (ctx.precision - 1)) (h : Lands m q low high) {p : ℚ}
    (hp : p = low ∨ p = high) (hd : ctx.Rounds (q - p) v) : |v| ≤ m + 1 / 2 := by
  have hmodulus := representable_modulus hm hmp
  have hm' : (0 : ℚ) < m := by exact_mod_cast hm
  have hzero := Context.Representable.zero ctx
  cases h with
  | exactly hlow hhigh =>
      obtain ⟨hle, hlt⟩ := multipleBelow_bounds hm q
      push_cast at hhigh
      have hv : |v| ≤ m := by
        refine hd.abs_le_of_abs_le hmodulus (abs_le.mpr ?_)
        rcases hp with rfl | rfl <;> constructor <;> linarith
      linarith
  | fromZero hq hlow hhigh =>
      rcases hp with rfl | rfl
      · refine abs_le_of_near hd hzero (by simpa using hm'.le) ?_
        rw [sub_zero]
        linarith [abs_sub q p]
      · refine abs_le_of_near hd hmodulus.neg (by rw [abs_neg, abs_of_pos hm']) ?_
        rw [show q - p - -m = q - (p - m) by ring]
        linarith [abs_sub q (p - m)]
  | toZero hq hlow hhigh =>
      rcases hp with rfl | rfl
      · refine abs_le_of_near hd hmodulus (by rw [abs_of_pos hm']) ?_
        rw [sub_sub]
        linarith [abs_sub q (p + m)]
      · refine abs_le_of_near hd hzero (by simpa using hm'.le) ?_
        rw [sub_zero]
        linarith [abs_sub q p]

end landing

/-! ## The multiple that is found -/

namespace Decimal.Finite

variable {ctx : Context} {x : Finite} {m k : ℤ}

theorem nearestMultiple_zero {q : ℚ} (hm : 0 < m) (hq : |q| ≤ 1 / 1000) :
    NumericContract.nearestMultiple m q = 0 := by
  have hone : (1 : ℚ) ≤ m := by exact_mod_cast hm
  obtain ⟨hlow, hhigh⟩ := abs_le.mp hq
  have hfloor : ⌊q / m + 1 / 2⌋ = 0 := by
    rw [Int.floor_eq_zero_iff]
    have hm' : (0 : ℚ) < m := by linarith
    have h1 : q / m < 1 / 2 := by rw [div_lt_iff₀ hm']; linarith
    have h2 : -(1 / 2) ≤ q / m := by rw [le_div_iff₀ hm']; linarith
    constructor <;> linarith
  rw [NumericContract.nearestMultiple, hfloor, mul_zero]

theorem truncate_of_abs_lt (h : |x.value| < 1) : x.truncate = 0 := by
  obtain ⟨hlow, hhigh⟩ := abs_lt.mp h
  rcases le_total 0 x.value with h0 | h0
  · rw [truncate_of_nonneg h0, Int.floor_eq_zero_iff]
    exact ⟨h0, hhigh⟩
  · rw [truncate_of_nonpos h0, Int.ceil_eq_zero_iff]
    exact ⟨hlow, h0⟩

/-- A number that is nearly zero is rounded to zero, whatever becomes of its digits. -/
theorem nearestMultiple_of_small (hq : |x.value| ≤ 1 / 1000) (hm : 0 < m)
    (hmp : m ≤ 10 ^ (ctx.precision - 1)) (h : x.nearestMultiple ctx m = .ok k) : k = 0 := by
  have hone : (1 : ℚ) ≤ m := by exact_mod_cast hm
  have hmodulus := representable_modulus hm hmp
  obtain ⟨r, above, low, high, toHigh, toLow, hr, ha, hl, hh, hth, htl, hk, -⟩ := nearestMultiple_leads hm h
  rw [hk]
  rcases low_near hm hmp hq hr ha hl.rounds with hlow | hlow
  · have hhigh := hh.abs_sub_le_two_mul hmodulus
    have hnear := htl.abs_le_two_mul
    have hfar := hth.abs_sub_le_two_mul hmodulus.neg
    rw [add_sub_cancel_right] at hhigh
    rw [show x.value - high.value - -m = x.value - (high.value - m) by ring] at hfar
    have hlarge := abs_sub_abs_le_abs_sub (-m : ℚ) toHigh.value
    rw [abs_neg, abs_of_pos (by linarith), abs_sub_comm] at hlarge
    have h1 := abs_sub x.value low.value
    have h2 := abs_sub x.value (high.value - m)
    rw [if_pos (by linarith), truncate_of_abs_lt (by linarith)]
  · have hhigh := hh.abs_le_two_mul
    have hnear := hth.abs_le_two_mul
    have hfar := htl.abs_sub_le_two_mul hmodulus
    rw [sub_sub] at hfar
    have hlarge := abs_sub_abs_le_abs_sub (m : ℚ) toLow.value
    rw [abs_of_pos (show (0 : ℚ) < m by linarith), abs_sub_comm] at hlarge
    have h1 := abs_sub x.value high.value
    have h2 := abs_sub x.value (low.value + m)
    rw [if_neg (by linarith), truncate_of_abs_lt (by linarith)]

theorem distance_failsOnly {α : Type} {p : Finite} {low high : ℚ} {f : Finite → Except Signal α} (hm : 0 < m)
    (hmp : m ≤ 10 ^ (ctx.precision - 1)) (h : Lands m x.value low high) (hp : p.value = low ∨ p.value = high)
    (hf : ∀ d, FailsOnly (fun signal => signal = .overflow ∧ Huge m x.value) (f d)) :
    FailsOnly (fun signal => signal = .overflow ∧ Huge m x.value) (x.sub ctx p >>= fun d => d.abs ctx >>= f) := by
  have hsub := sub_delivers ctx x p
  refine (hsub.failsOnly fun v hv => huge_of_abs_le hm ?_).bind fun d hd => ?_
  · exact abs_toMultiple_le hm hmp h hp hv.rounds
  have hd := (hsub.settles hd).rounds
  refine ((abs_delivers ctx d).failsOnly fun v hv => huge_of_abs_le hm ?_).bind fun d' _ => hf d'
  rw [hv.rounds.eq_self hd.representable.abs, abs_abs]
  exact abs_toMultiple_le hm hmp h hp hd

/-- All that can go wrong on the way to a multiple is that one of the two is too large. -/
theorem nearestMultiple_failsOnly (hq : ctx.Representable x.value ∨ |x.value| ≤ 1 / 1000)
    (hlt : |x.value| < 10 ^ (ctx.precision - 1)) (hm : 0 < m) (hmp : m ≤ 10 ^ (ctx.precision - 1)) :
    FailsOnly (fun signal => signal = .overflow ∧ Huge m x.value) (x.nearestMultiple ctx m) := by
  have hm' : (0 : ℚ) < m := by exact_mod_cast hm
  have hone : (1 : ℚ) ≤ m := by exact_mod_cast hm
  have hrange : |x.value| < m * 10 ^ ctx.precision := by
    have hten : (10 : ℚ) ^ (ctx.precision - 1) ≤ 10 ^ ctx.precision :=
      pow_le_pow_right₀ (by norm_num) (Nat.sub_le _ 1)
    have hmul : (10 : ℚ) ^ ctx.precision ≤ m * 10 ^ ctx.precision := le_mul_of_one_le_left (by positivity) hone
    linarith
  unfold nearestMultiple
  have hrem := rem_delivers ctx x hm hrange
  refine (hrem.failsOnly fun v hv => huge_of_abs_le hm ?_).bind fun r hr => ?_
  · linarith [abs_remainder_le hm hmp hv.rounds]
  have hr := (hrem.settles hr).rounds
  refine FailsOnly.ite_bind ?_ fun above ha => ?_
  · split
    · next hneg =>
      refine (add_delivers ctx r m).failsOnly fun v hv => huge_of_abs_le hm ?_
      linarith [abs_distance_le hm hmp (abs_remainder_le hm hmp hr) ((isNegative_iff r).mp hneg) hv.rounds]
    · exact FailsOnly.ok r
  have ha := rounds_above ha
  have hlow := sub_delivers ctx x above
  refine (hlow.failsOnly fun v hv => (landsBelow hm hmp hq hlt hr ha hv).huge hm).bind fun low hl => ?_
  have hbelow := landsBelow hm hmp hq hlt hr ha (hlow.settles hl)
  have hhigh := add_delivers ctx low m
  refine (hhigh.failsOnly fun v hv => (hbelow.lands hm hmp hlt hv.rounds).huge hm).bind fun high hh => ?_
  have hlands := hbelow.lands hm hmp hlt (hhigh.settles hh).rounds
  refine distance_failsOnly hm hmp hlands (Or.inr rfl) fun toHigh => ?_
  exact distance_failsOnly hm hmp hlands (Or.inl rfl) fun toLow => FailsOnly.ok _

theorem nearestMultiple_eq_overflow (hx : ctx.Representable x.value) (hlt : |x.value| < 10 ^ (ctx.precision - 1))
    (hm : 0 < m) (hmp : m ≤ 10 ^ (ctx.precision - 1)) (hhuge : Huge m x.value) :
    x.nearestMultiple ctx m = .error .overflow := by
  cases h : x.nearestMultiple ctx m with
  | error signal => rw [(nearestMultiple_failsOnly (Or.inl hx) hlt hm hmp signal h).1]
  | ok k =>
      obtain ⟨r, above, low, high, -, -, hr, ha, hl, hh, -, -, -, hlow, hhigh⟩ := nearestMultiple_leads hm h
      have hlow' := low_eq hx hlt hm hmp hr ha hl
      rw [hlow', ← Int.cast_add] at hh
      rw [hlow'] at hlow
      rw [hh.eq_self (representable_multipleBelow hlt hm hmp).2] at hhigh
      rcases hhuge with hbig | hbig
      · exact absurd hbig hlow.not_ge
      · exact absurd hbig hhigh.not_ge

end Decimal.Finite

/-! ## Payouts -/

namespace Decimal

/-- The payouts and moduli that `digits` digits are enough for: the payout has no more digits, and fewer
before the point, and the modulus is no longer. -/
structure Roundable (digits : ℕ) (x : Finite) (m : ℤ) : Prop where
  significant : ∃ c e : ℤ, |c| < 10 ^ digits ∧ x.value = c * 10 ^ e
  size : |x.value| < 10 ^ (digits - 1)
  one_le : 1 ≤ m
  modulus_le : m ≤ 10 ^ (digits - 1)

namespace Roundable

variable {ctx : Context} {x : Finite} {m : ℤ}

theorem representable_or (h : Roundable ctx.precision x m) :
    ctx.Representable x.value ∨ |x.value| ≤ 1 / 1000 := by
  obtain ⟨c, e, hc, hx⟩ := h.significant
  rw [hx]
  refine (Context.Representable.of_digits hc e).imp_right fun hsmall => hsmall.le.trans ?_
  have hle : (10 : ℚ) ^ minExponent ≤ 10 ^ (-3 : ℤ) := ten_zpow_le (by decide)
  exact hle.trans (by norm_num)

theorem nearestMultiple_eq (h : Roundable ctx.precision x m) {k : ℤ} (hk : x.nearestMultiple ctx m = .ok k) :
    k = NumericContract.nearestMultiple m x.value := by
  have hm := Int.lt_of_lt_of_le zero_lt_one h.one_le
  rcases h.representable_or with hrep | hsmall
  · exact Finite.nearestMultiple_exact hrep h.size hm h.modulus_le hk
  · rw [Finite.nearestMultiple_of_small hsmall hm h.modulus_le hk, Finite.nearestMultiple_zero hm hsmall]

/-- The multiples are too large only for a context whose digits go beyond the largest exponent. -/
theorem maxExponent_lt_of_huge (h : Roundable ctx.precision x m) (hhuge : Huge m x.value) :
    maxExponent + 1 < ctx.precision := by
  obtain ⟨hlow, hhigh⟩ := abs_multipleBelow_lt h.size (Int.lt_of_lt_of_le zero_lt_one h.one_le) h.modulus_le
  have hbound : Context.overflowBound < 10 ^ (ctx.precision : ℤ) := by
    rw [zpow_natCast]
    rcases hhuge with hbig | hbig
    · exact hbig.trans_lt (by exact_mod_cast hlow)
    · exact hbig.trans_lt (by exact_mod_cast hhigh)
  exact (zpow_lt_zpow_iff_right₀ (by norm_num)).mp hbound

end Roundable

/-- Rounding is to the nearest multiple and of two to the higher one, and it fails only if one of the
multiples next to the payout is beyond the largest exponent. A caller who works in fewer digits rounds in
the widened context all the same. -/
theorem roundToMultiple_nearest {caller : ℕ} {ctx : Context} {x : Finite} {m : ℤ}
    (hctx : ctx.widened.precision = max Context.wideDigits caller)
    (h : Roundable (max Context.wideDigits caller) x m) :
    (∃ k, roundToMultiple ctx (.finite x) m = .ok k ∧ m ∣ k ∧ ∀ j, m ∣ j →
      |x.value - k| < |x.value - j| ∨ |x.value - k| = |x.value - j| ∧ j ≤ k) ∨
    (roundToMultiple ctx (.finite x) m = .error (.arithmetic .overflow) ∧ Huge m x.value ∧
      10 ^ 6 < max Context.wideDigits caller) := by
  rw [← hctx] at h ⊢
  have hm := Int.lt_of_lt_of_le zero_lt_one h.one_le
  rw [roundToMultiple, if_neg hm.not_ge]
  cases hresult : x.nearestMultiple ctx.widened m with
  | ok k =>
      left
      refine ⟨k, rfl, ?_⟩
      rw [h.nearestMultiple_eq hresult]
      refine ⟨dvd_mul_right m _, ?_⟩
      rintro _ ⟨t, rfl⟩
      exact nearestMultiple_nearest hm x.value t
  | error signal =>
      right
      obtain ⟨rfl, hhuge⟩ := Finite.nearestMultiple_failsOnly h.representable_or h.size hm h.modulus_le
        signal hresult
      refine ⟨rfl, hhuge, ?_⟩
      have hdigits := h.maxExponent_lt_of_huge hhuge
      unfold maxExponent at hdigits
      omega

/-- A caller of nine digits rounds 37.5 below zero to a multiple of 25: of two the higher one. -/
theorem roundToMultiple_nearest_tie :
    roundToMultiple .standard (.finite ⟨true, 375, -1⟩) 25 = .ok (-25) ∧
      ∀ j : ℤ, 25 ∣ j → |(-375 / 10 : ℚ) - (-25 : ℤ)| < |(-375 / 10 : ℚ) - j| ∨
        |(-375 / 10 : ℚ) - (-25 : ℤ)| = |(-375 / 10 : ℚ) - j| ∧ j ≤ -25 := by
  have hvalue : (⟨true, 375, -1⟩ : Finite).value = -375 / 10 := by norm_num [Finite.value, Finite.signed]
  have hpaid : roundToMultiple .standard (.finite ⟨true, 375, -1⟩) 25 = .ok (-25) := by decide +kernel
  have hctx : Context.standard.widened.precision = max Context.wideDigits 9 := by decide
  have hround : Roundable (max Context.wideDigits 9) ⟨true, 375, -1⟩ 25 :=
    ⟨⟨-375, -1, by decide, by rw [hvalue]; norm_num⟩, by rw [hvalue]; norm_num [abs_lt, Context.wideDigits],
      by decide, by decide⟩
  obtain ⟨k, hk, -, hnearest⟩ | ⟨hover, -⟩ := roundToMultiple_nearest hctx hround
  · rw [hvalue] at hnearest
    cases hpaid.symm.trans hk
    exact ⟨hpaid, hnearest⟩
  · cases hpaid.symm.trans hover

def beyond : Finite := ⟨false, 1, maxExponent + 1⟩

theorem beyond_value : beyond.value = 10 ^ (maxExponent + 1) := by
  simp only [beyond, Finite.value, Finite.signed, Bool.false_eq_true, if_false, Nat.cast_one, Int.cast_one, one_mul]

theorem beyond_roundable {digits : ℕ} (h : maxExponent + 1 < (digits - 1 : ℕ)) : Roundable digits beyond 1 := by
  have hdigits : digits ≠ 0 := by
    unfold maxExponent at h
    omega
  refine ⟨⟨1, maxExponent + 1, ?_, ?_⟩, ?_, le_rfl, one_le_pow₀ (by norm_num)⟩
  · rw [abs_one]
    exact one_lt_pow₀ (by norm_num) hdigits
  · rw [beyond_value, Int.cast_one, one_mul]
  · rw [beyond_value, abs_of_pos (ten_zpow_pos _), ← zpow_natCast]
    exact zpow_lt_zpow_right₀ (by norm_num) h

theorem beyond_representable (ctx : Context) : ctx.Representable beyond.value := by
  rw [beyond_value]
  refine Context.Representable.zpow ?_
  have hleast := Context.Representable.leastExponent_le ctx
  unfold maxExponent
  omega

theorem beyond_huge : Huge 1 beyond.value := by
  obtain ⟨n, hn⟩ := exists_overflowBound_eq
  left
  rw [beyond_value, ← Context.overflowBound, hn, multipleBelow, Int.cast_one, div_one, Int.floor_intCast, one_mul]
  exact le_abs_self _

theorem beyond_not_rounded {ctx : Context} (h : Roundable ctx.widened.precision beyond 1) :
    roundToMultiple ctx (.finite beyond) 1 = .error (.arithmetic .overflow) := by
  have hover := Finite.nearestMultiple_eq_overflow (beyond_representable ctx.widened) h.size one_pos h.modulus_le
    beyond_huge
  rw [roundToMultiple, if_neg (by decide), hover]
  rfl

/-- Digits for a number are no help where its exponent is too large: a caller of two million digits cannot
round the payout to a multiple of one, which it is. -/
theorem roundToMultiple_beyond :
    (⟨2000000, by decide⟩ : Context).widened.precision = max Context.wideDigits 2000000 ∧
      Roundable (max Context.wideDigits 2000000) beyond 1 ∧
      roundToMultiple ⟨2000000, by decide⟩ (.finite beyond) 1 = .error (.arithmetic .overflow) := by
  have h : Roundable (max Context.wideDigits 2000000) beyond 1 := beyond_roundable (by decide)
  exact ⟨rfl, h, beyond_not_rounded h⟩

end Decimal

end NumericContract
