import NumericContract.Proofs.Curve.Scale
import NumericContract.Proofs.Decimal.Special

/-!
# What curves make of a datum

Evaluation has a result at every outcome, be it infinite or a NaN. An inversion has one for every
number and every quiet NaN; for an infinite payout it has one on lines, while on every hyperbola that
can be inverted the arithmetic is invalid.
-/

namespace NumericContract

open Decimal

/-! ## Moderate curves -/

/-- Payouts up to `10 ^ 18` with at most 10000 decimals, at outcomes up to `10 ^ 10000`. -/
structure Line.Moderate (l : Line) : Prop where
  left_outcome : |(l.left.outcome : ℚ)| ≤ 10 ^ (10000 : ℤ)
  right_outcome : |(l.right.outcome : ℚ)| ≤ 10 ^ (10000 : ℤ)
  left_payout : ∃ y : Finite, l.left.payout = .finite y ∧ Within (-10000) 18 y.value
  right_payout : ∃ y : Finite, l.right.payout = .finite y ∧ Within (-10000) 18 y.value

/-- Coefficients up to `10 ^ 18` with at most 10000 decimals. -/
def Hyperbola.Moderate (h : Hyperbola) : Prop :=
  ∀ c ∈ h.coefficients, Within (-10000) 18 c.2.value

def Curve.Moderate : Curve → Prop
  | .line l => l.Moderate
  | .hyperbola h => h.Moderate

/-- A number up to `10 ^ 50000` with at most 50000 decimals, an infinity or a quiet NaN. -/
def Decimal.Tame : Decimal → Prop
  | .finite x => Within (-50000) 50000 x.value
  | .infinity _ => True
  | .nan signaling _ _ => signaling = false

theorem Decimal.Tame.infinity_or_ordinary {y : Decimal} (h : y.Tame) :
    (∃ s, y = .infinity s) ∨ y.Ordinary (-50000) 50000 := by
  cases y with
  | finite x => exact Or.inr h
  | infinity s => exact Or.inl ⟨s, rfl⟩
  | nan signaling s payload => exact Or.inr h

theorem Decimal.Context.widened_precision_le {ctx : Context} (h : ctx.precision ≤ 10000) :
    (ctx.widened.precision : ℤ) ≤ 10000 := by
  have hmax : ctx.widened.precision = max 78 ctx.precision := rfl
  omega

theorem within_outcome {x : ℤ} (h0 : 0 ≤ x) (h1 : x < 10 ^ 18) : Within 0 18 (x : ℚ) := by
  apply Within.intCast
  rw [abs_of_nonneg (by exact_mod_cast h0)]
  exact_mod_cast h1.le

variable {ctx : Context} {x : ℤ}

/-! ## Lines -/

namespace Line

variable {l : Line}

theorem within_distance (hm : l.Moderate) (h0 : 0 ≤ x) (h1 : x < 10 ^ 18) :
    Within 0 10001 ((x - l.left.outcome : ℤ) : ℚ) := by
  have hdiff := ((within_outcome h0 h1).add (Within.intCast hm.left_outcome).neg).mono
    (show (0 : ℤ) ≤ min 0 0 by omega) (show max 18 10000 + 1 ≤ (10001 : ℤ) by omega)
  push_cast
  rwa [sub_eq_add_neg]

theorem within_run (hm : l.Moderate) : Within 0 10001 ((l.right.outcome - l.left.outcome : ℤ) : ℚ) := by
  have hdiff := ((Within.intCast hm.right_outcome).add (Within.intCast hm.left_outcome).neg).mono
    (show (0 : ℤ) ≤ min 0 0 by omega) (show max 10000 10000 + 1 ≤ (10001 : ℤ) by omega)
  push_cast
  rwa [sub_eq_add_neg]

theorem run_isZero (l : Line) : (Finite.ofInt (l.right.outcome - l.left.outcome)).isZero = false := by
  have hne := l.outcomes_ne
  rw [Finite.isZero_eq_false_iff, Finite.value_ofInt]
  exact_mod_cast sub_ne_zero.mpr (Ne.symm hne)

theorem evaluate_steps (hp : ctx.precision ≤ 10000) (hm : l.Moderate) :
    ∃ base rise : Finite, ∀ x, 0 ≤ x → x < 10 ^ 18 → ∃ gained quotient z : Finite,
      rise.mul ctx.widened (.ofInt (x - l.left.outcome)) = .ok gained ∧
      gained.div ctx.widened (.ofInt (l.right.outcome - l.left.outcome)) = .ok quotient ∧
      base.add ctx.widened quotient = .ok z ∧ Within (-50000) 50000 z.value ∧
      l.evaluate ctx x = .ok (.finite z) := by
  have hw := Context.widened_precision_le hp
  obtain ⟨base, hbase, hbw⟩ := hm.left_payout
  obtain ⟨other, hother, how⟩ := hm.right_payout
  obtain ⟨rise, hrise, hrw⟩ := Finite.sub_within ctx.widened (-10000) 19 how hbw (by omega)
    (by omega) (by decide)
  refine ⟨base, rise, fun x h0 h1 => ?_⟩
  have hdistance := within_distance hm h0 h1
  have hrun := within_run hm
  rw [← Finite.value_ofInt] at hdistance hrun
  obtain ⟨gained, hgained, hgw⟩ := Finite.mul_within ctx.widened (-10000) 10020 hrw hdistance
    (by omega) (by omega) (by decide)
  obtain ⟨quotient, hquotient, hqw⟩ := Finite.div_within ctx.widened (-40000) 10020 hgw hrun
    l.run_isZero (by omega) (by omega) (by decide)
  obtain ⟨z, hz, hzw⟩ := Finite.add_within ctx.widened (-50000) 50000 hbw hqw (by omega) (by omega)
    (by decide)
  refine ⟨gained, quotient, z, hgained, hquotient, hz, hzw, ?_⟩
  simp [evaluate, Line.rise, run, ofInt, hbase, hother, hrise, hgained, hquotient, hz, Except.map, bind,
    Except.bind]

theorem invert_ordinary (hp : ctx.precision ≤ 10000) (hm : l.Moderate) {y : Decimal}
    (hy : y.Ordinary (-50000) 50000) : ∃ n?, l.invert ctx y = .ok n? ∧ ∀ n ∈ n?, 0 ≤ n := by
  have hw := Context.widened_precision_le hp
  obtain ⟨base, hbase, hbw⟩ := hm.left_payout
  obtain ⟨other, hother, how⟩ := hm.right_payout
  have hrun := within_run hm
  rw [← Finite.value_ofInt] at hrun
  have hb : l.left.payout.Ordinary (-10000) 18 := hbase ▸ hbw
  have ho : l.right.payout.Ordinary (-10000) 18 := hother ▸ how
  have hr : l.run.Ordinary 0 10001 := hrun
  have hleft : (ofInt l.left.outcome).Ordinary 0 10000 := Ordinary.ofInt hm.left_outcome
  obtain ⟨rise, hrise, hrw⟩ := ho.sub ctx.widened (-10000) 19 hb (by omega) (by omega) (by decide)
  obtain ⟨flat, hflat⟩ := hrw.isZero_succeeds
  obtain ⟨above, habove, haw⟩ := hy.sub ctx.widened (-50000) 50001 hb (by omega) (by omega) (by decide)
  obtain ⟨area, harea, hareaw⟩ := haw.mul ctx.widened (-50000) 60002 hr (by omega) (by omega) (by decide)
  unfold invert
  dsimp only
  rw [bind_of_ok (show l.rise ctx.widened = .ok rise from hrise), bind_of_ok hflat]
  cases flat with
  | true => exact ⟨none, rfl, by simp⟩
  | false =>
      obtain ⟨distance, hdistance, hdw⟩ := hareaw.div ctx.widened (-100000) 70002 hrw hflat (by omega)
        (by omega) (by decide)
      obtain ⟨place, hplace, -⟩ := hleft.add ctx.widened (-100000) 70003 hdw (by omega) (by omega)
        (by decide)
      simp only [Bool.false_eq_true, if_false]
      rw [bind_of_ok habove, bind_of_ok harea, bind_of_ok hdistance, bind_of_ok hplace]
      exact ⟨_, rfl, fun n hn => nonneg_of_nearestOutcome? hn⟩

theorem invert_infinity (hp : ctx.precision ≤ 10000) (hm : l.Moderate) (s : Bool) :
    l.invert ctx (.infinity s) = .ok none := by
  have hw := Context.widened_precision_le hp
  obtain ⟨base, hbase, hbw⟩ := hm.left_payout
  obtain ⟨other, hother, how⟩ := hm.right_payout
  obtain ⟨rise, hrise, hrw⟩ := Finite.sub_within ctx.widened (-10000) 19 how hbw (by omega) (by omega)
    (by decide)
  have hrise' : l.rise ctx.widened = .ok (.finite rise) := by
    unfold Line.rise
    rw [hbase, hother, sub_finite, hrise]
    rfl
  unfold invert
  dsimp only
  rw [bind_of_ok hrise', bind_of_ok (show (Decimal.finite rise).isZero = .ok rise.isZero from rfl), hbase]
  cases hz : rise.isZero with
  | true => rfl
  | false =>
      simp only [Bool.false_eq_true, if_false]
      rw [bind_of_ok (sub_infinity_finite _ _ _), run, ofInt, bind_of_ok (mul_infinity_finite _ _ l.run_isZero),
        bind_of_ok (div_infinity_finite _ _ _), ofInt, bind_of_ok (add_finite_infinity _ _ _)]
      rfl

end Line

/-! ## Products -/

theorem Decimal.Finite.product_pair (ctx : Context) (x y z : Finite) :
    Finite.product ctx x [y, z] = x.mul ctx y >>= fun p => p.mul ctx z := by
  simp [Finite.product]

theorem Decimal.product_pair (ctx : Context) (x y z : Decimal) :
    product ctx x [y, z] = x.mul ctx y >>= fun p => p.mul ctx z := by
  simp [product]

theorem Decimal.product_triple (ctx : Context) (x y z w : Decimal) :
    product ctx x [y, z, w] = product ctx x [y, z] >>= fun p => p.mul ctx w := by
  simp [product]

theorem Decimal.Finite.product_within (ctx : Context) {x y z : Finite} {l₁ h₁ l₂ h₂ l₃ h₃ : ℤ}
    (hx : Within l₁ h₁ x.value) (hy : Within l₂ h₂ y.value) (hz : Within l₃ h₃ z.value)
    (hroom : Roomy (l₁ + l₂) (h₁ + h₂)) (hroom' : Roomy (l₁ + l₂ + l₃) (h₁ + h₂ + h₃)) :
    ∃ p, Finite.product ctx x [y, z] = .ok p ∧ Within (l₁ + l₂ + l₃) (h₁ + h₂ + h₃) p.value := by
  obtain ⟨q, hq, hqw⟩ := Finite.mul_within ctx _ _ hx hy le_rfl le_rfl hroom
  obtain ⟨p, hp, hpw⟩ := Finite.mul_within ctx _ _ hqw hz le_rfl le_rfl hroom'
  refine ⟨p, ?_, hpw⟩
  rw [Finite.product_pair, bind_of_ok hq, hp]

theorem Decimal.product_finite {ctx : Context} {x y z p : Finite}
    (h : Finite.product ctx x [y, z] = .ok p) :
    product ctx (.finite x) [.finite y, .finite z] = .ok (.finite p) := by
  rw [Finite.product_pair] at h
  obtain ⟨q, hq, hp⟩ := bind_eq_ok.mp h
  rw [product_pair, mul_finite, hq]
  simp [Except.map, bind, Except.bind, hp]

namespace Hyperbola

variable {h : Hyperbola}

namespace Moderate

theorem a (hm : h.Moderate) : Within (-10000) 18 h.a.value := hm ("a", h.a) (by simp [coefficients])

theorem b (hm : h.Moderate) : Within (-10000) 18 h.b.value := hm ("b", h.b) (by simp [coefficients])

theorem c (hm : h.Moderate) : Within (-10000) 18 h.c.value := hm ("c", h.c) (by simp [coefficients])

theorem d (hm : h.Moderate) : Within (-10000) 18 h.d.value := hm ("d", h.d) (by simp [coefficients])

theorem translateOutcome (hm : h.Moderate) : Within (-10000) 18 h.translateOutcome.value :=
  hm ("translate_outcome", h.translateOutcome) (by simp [coefficients])

theorem translatePayout (hm : h.Moderate) : Within (-10000) 18 h.translatePayout.value :=
  hm ("translate_payout", h.translatePayout) (by simp [coefficients])

end Moderate

/-! ## Evaluation -/

/-- The steps to `u`, the last of which are not taken where the discriminant is negative. -/
theorem radical?_steps (hp : ctx.precision ≤ 10000) (hm : h.Moderate) :
    ∃ product : Finite, Finite.product ctx.widened (.ofInt 4) [h.a, h.b] = .ok product ∧
      ∀ x, 0 ≤ x → x < 10 ^ 18 → ∃ shifted square discriminant : Finite,
        (Finite.ofInt x).sub ctx.widened h.translateOutcome = .ok shifted ∧
        shifted.mul ctx.widened shifted = .ok square ∧
        square.sub ctx.widened product = .ok discriminant ∧
        (discriminant.value < 0 → h.radical? ctx.widened x = .ok none) ∧
        (0 ≤ discriminant.value → ∃ root u : Finite, discriminant.sqrt ctx.widened = .ok root ∧
          shifted.add ctx.widened root = .ok u ∧ Within (-20001) 21 u.value ∧
          h.radical? ctx.widened x = .ok (some u)) := by
  have hw := Context.widened_precision_le hp
  have hfour : Within 0 1 (Finite.ofInt 4).value := by
    rw [Finite.value_ofInt]
    exact Within.intCast (by norm_num)
  obtain ⟨product, hpr, hpw⟩ := Finite.product_within ctx.widened hfour hm.a hm.b (by decide) (by decide)
  refine ⟨product, hpr, fun x h0 h1 => ?_⟩
  have hx := within_outcome h0 h1
  rw [← Finite.value_ofInt] at hx
  obtain ⟨shifted, hs, hsw⟩ := Finite.sub_within ctx.widened (-10000) 19 hx hm.translateOutcome
    (by omega) (by omega) (by decide)
  obtain ⟨square, hq, hqw⟩ := Finite.mul_within ctx.widened (-20000) 38 hsw hsw (by omega) (by omega)
    (by decide)
  obtain ⟨discriminant, hd, hdw⟩ := Finite.sub_within ctx.widened (-20000) 39 hqw hpw (by omega)
    (by omega) (by decide)
  refine ⟨shifted, square, discriminant, hs, hq, hd, ?_, ?_⟩
  · intro hneg
    have hn : discriminant.isNegative = true := (Finite.isNegative_iff _).mpr hneg
    unfold radical?
    rw [bind_of_ok hs, bind_of_ok hq, bind_of_ok hpr, bind_of_ok hd, hn]
    rfl
  · intro hnonneg
    have hn : discriminant.isNegative = false := by
      rw [← Bool.not_eq_true, Finite.isNegative_iff]
      exact not_lt.mpr hnonneg
    obtain ⟨root, hr, hrw⟩ := Finite.sqrt_within ctx.widened (-20001) 20 hnonneg hdw (by omega)
      (by omega) (by decide)
    obtain ⟨u, hu, huw⟩ := Finite.add_within ctx.widened (-20001) 21 hsw hrw (by omega) (by omega)
      (by decide)
    refine ⟨root, u, hr, hu, huw, ?_⟩
    unfold radical?
    rw [bind_of_ok hs, bind_of_ok hq, bind_of_ok hpr, bind_of_ok hd, hn]
    simp only [Bool.false_eq_true, if_false]
    rw [bind_of_ok hr, bind_of_ok hu]
    rfl

theorem radical?_within (hp : ctx.precision ≤ 10000) (hm : h.Moderate) (h0 : 0 ≤ x) (h1 : x < 10 ^ 18) :
    ∃ u?, h.radical? ctx.widened x = .ok u? ∧ ∀ u ∈ u?, Within (-20001) 21 u.value := by
  obtain ⟨product, -, hsteps⟩ := radical?_steps hp hm
  obtain ⟨_, _, discriminant, -, -, -, hnone, hsome⟩ := hsteps x h0 h1
  rcases lt_or_ge discriminant.value 0 with hneg | hnonneg
  · exact ⟨none, hnone hneg, by simp⟩
  · obtain ⟨_, u, -, -, huw, hu⟩ := hsome hnonneg
    exact ⟨some u, hu, by simpa using huw⟩

/-- Where `u` is zero the payout is infinite or a quiet NaN. -/
theorem payoutAt_of_isZero (ctx : Context) (hm : h.Moderate) {u : Finite} (hu : u.isZero = true) :
    ∃ v, h.payoutAt ctx u = .ok v ∧ v.Tame ∧ v.isFinite = false := by
  obtain ⟨numerator, hn, -⟩ := Finite.mul_within ctx (-20000) 36 hm.a hm.d (by omega) (by omega)
    (by decide)
  unfold payoutAt
  rw [if_pos hu, bind_of_ok hn]
  cases numerator.isZero with
  | true => exact ⟨_, rfl, rfl, rfl⟩
  | false => exact ⟨_, rfl, trivial, rfl⟩

theorem payoutAt_steps (hp : ctx.precision ≤ 10000) (hm : h.Moderate) :
    ∃ twice product : Finite, (Finite.ofInt 2).mul ctx.widened h.a = .ok twice ∧
      twice.isZero = false ∧ twice.mul ctx.widened h.d = .ok product ∧
      ∀ u : Finite, u.isZero = false → Within (-20001) 21 u.value →
        ∃ cu linear inverse sum z : Finite, h.c.mul ctx.widened u = .ok cu ∧
          cu.div ctx.widened twice = .ok linear ∧ product.div ctx.widened u = .ok inverse ∧
          linear.add ctx.widened inverse = .ok sum ∧ sum.add ctx.widened h.translatePayout = .ok z ∧
          Within (-50000) 50000 z.value ∧ h.payoutAt ctx.widened u = .ok (.finite z) := by
  have hw := Context.widened_precision_le hp
  have htwo : Within 0 1 (Finite.ofInt 2).value := by
    rw [Finite.value_ofInt]
    exact Within.intCast (by norm_num)
  obtain ⟨twice, ht, htw⟩ := Finite.mul_within ctx.widened (-10000) 19 htwo hm.a (by omega) (by omega)
    (by decide)
  have htz := Finite.mul_isZero htwo hm.a (by decide) (by decide) h.a_ne_zero ht
  obtain ⟨product, hpr, hpw⟩ := Finite.mul_within ctx.widened (-20000) 37 htw hm.d (by omega) (by omega)
    (by decide)
  refine ⟨twice, product, ht, htz, hpr, fun u hu huw => ?_⟩
  obtain ⟨cu, hcu, hcuw⟩ := Finite.mul_within ctx.widened (-30001) 39 hm.c huw (by omega) (by omega)
    (by decide)
  obtain ⟨linear, hl, hlw⟩ := Finite.div_within ctx.widened (-40020) 10039 hcuw htw htz (by omega)
    (by omega) (by decide)
  obtain ⟨inverse, hi, hiw⟩ := Finite.div_within ctx.widened (-40020) 20038 hpw huw hu (by omega)
    (by omega) (by decide)
  obtain ⟨sum, hsum, hsw⟩ := Finite.add_within ctx.widened (-40020) 20039 hlw hiw (by omega) (by omega)
    (by decide)
  obtain ⟨z, hz, hzw⟩ := Finite.add_within ctx.widened (-50000) 50000 hsw hm.translatePayout (by omega)
    (by omega) (by decide)
  refine ⟨cu, linear, inverse, sum, z, hcu, hl, hi, hsum, hz, hzw, ?_⟩
  unfold payoutAt
  rw [hu, bind_of_ok hcu, bind_of_ok ht, bind_of_ok hl, Finite.product_pair, bind_of_ok ht, bind_of_ok hpr,
    bind_of_ok hi, bind_of_ok hsum, bind_of_ok hz]
  rfl

theorem evaluate_tame (hp : ctx.precision ≤ 10000) (hm : h.Moderate) (h0 : 0 ≤ x) (h1 : x < 10 ^ 18) :
    ∃ v, h.evaluate ctx x = .ok v ∧ v.Tame := by
  obtain ⟨u?, hu, huw⟩ := radical?_within hp hm h0 h1
  unfold evaluate
  rw [bind_of_ok hu]
  cases u? with
  | none => exact ⟨_, rfl, rfl⟩
  | some u =>
      cases hz : u.isZero with
      | true =>
          obtain ⟨v, hv, hvt, -⟩ := payoutAt_of_isZero ctx.widened hm hz
          exact ⟨v, hv, hvt⟩
      | false =>
          obtain ⟨_, _, -, -, -, hsteps⟩ := payoutAt_steps hp hm
          obtain ⟨_, _, _, _, z, -, -, -, -, -, hzw, hpay⟩ := hsteps u hz (huw u rfl)
          exact ⟨.finite z, hpay, hzw⟩

/-! ## Inversion -/

theorem numerator_eq (ctx : Context) (hm : h.Moderate) : ∃ base twice tail pole : Finite,
    Within (-30000) 55 base.value ∧ Within (-20000) 37 twice.value ∧ Within (-30000) 54 tail.value ∧
    Within (-20000) 36 pole.value ∧ ∀ y, h.numerator ctx y = (do
      let total ← (Decimal.finite base).add ctx (← (Decimal.finite twice).mul ctx y)
      let total ← total.sub ctx (← product ctx (.finite h.b) [y, y])
      let total ← total.add ctx (.finite tail)
      total.sub ctx (← (Decimal.finite pole).mul ctx y)) := by
  have htwo : Within 0 1 (Finite.ofInt 2).value := by
    rw [Finite.value_ofInt]
    exact Within.intCast (by norm_num)
  obtain ⟨opposite, ho, how⟩ := Finite.neg_within ctx hm.a (by decide)
  obtain ⟨first, hf, hfw⟩ := Finite.product_within ctx how hm.d hm.d (by decide) (by decide)
  obtain ⟨second, hs, hsw⟩ := Finite.product_within ctx hm.b hm.translatePayout hm.translatePayout
    (by decide) (by decide)
  obtain ⟨base, hb, hbw⟩ := Finite.sub_within ctx (-30000) 55 hfw hsw (by omega) (by omega) (by decide)
  obtain ⟨twice, ht, htw⟩ := Finite.product_within ctx htwo hm.b hm.translatePayout (by decide) (by decide)
  obtain ⟨tail, hl, hlw⟩ := Finite.product_within ctx hm.d hm.translateOutcome hm.translatePayout
    (by decide) (by decide)
  obtain ⟨pole, hp, hpw⟩ := Finite.mul_within ctx (-20000) 36 hm.d hm.translateOutcome (by omega)
    (by omega) (by decide)
  refine ⟨base, twice, tail, pole, hbw, htw, hlw, hpw, fun y => ?_⟩
  have htwice : product ctx (ofInt 2) [.finite h.b, .finite h.translatePayout, y] =
      (Decimal.finite twice).mul ctx y := by
    rw [product_triple, ofInt, bind_of_ok (product_finite ht)]
  have hpole : product ctx (.finite h.d) [.finite h.translateOutcome, y] =
      (Decimal.finite pole).mul ctx y := by
    rw [Decimal.product_pair, mul_finite, hp]
    rfl
  have hbase : (Decimal.finite first).sub ctx (.finite second) = .ok (.finite base) := by
    rw [sub_finite, hb]
    rfl
  unfold numerator
  rw [bind_of_ok ho, bind_of_ok (product_finite hf), bind_of_ok (product_finite hs), bind_of_ok hbase]
  simp only [htwice, product_finite hl, hpole]
  rfl

theorem numerator_ordinary (ctx : Context) (hm : h.Moderate) {y : Decimal} (hy : y.Ordinary (-50000) 50000) :
    ∃ n, h.numerator ctx y = .ok n ∧ n.Ordinary (-110000) 100021 := by
  obtain ⟨base, twice, tail, pole, hbase, htwice, htail, hpole, hnumerator⟩ := numerator_eq ctx hm
  have hb : (Decimal.finite h.b).Ordinary (-10000) 18 := hm.b
  obtain ⟨linear, hl, hlw⟩ := (Ordinary.finite htwice).mul ctx (-70000) 50037 hy (by omega) (by omega)
    (by decide)
  obtain ⟨sum, hs, hsw⟩ := (Ordinary.finite hbase).add ctx (-70000) 50038 hlw (by omega) (by omega)
    (by decide)
  obtain ⟨once, ho, how⟩ := hb.mul ctx (-60000) 50018 hy (by omega) (by omega) (by decide)
  obtain ⟨square, hq, hqw⟩ := how.mul ctx (-110000) 100018 hy (by omega) (by omega) (by decide)
  obtain ⟨less, hle, hlew⟩ := hsw.sub ctx (-110000) 100019 hqw (by omega) (by omega) (by decide)
  obtain ⟨more, hmo, hmow⟩ := hlew.add ctx (-110000) 100020 (Ordinary.finite htail) (by omega) (by omega)
    (by decide)
  obtain ⟨far, hf, hfw⟩ := (Ordinary.finite hpole).mul ctx (-70000) 50036 hy (by omega) (by omega)
    (by decide)
  obtain ⟨n, hn, hnw⟩ := hmow.sub ctx (-110000) 100021 hfw (by omega) (by omega) (by decide)
  refine ⟨n, ?_, hnw⟩
  rw [hnumerator, bind_of_ok hl, bind_of_ok hs, product_pair, bind_of_ok ho, bind_of_ok hq, bind_of_ok hle,
    bind_of_ok hmo, bind_of_ok hf, hn]

theorem numerator_infinity (ctx : Context) (hm : h.Moderate) (s : Bool) :
    Diverges (h.numerator ctx (.infinity s)) := by
  obtain ⟨base, twice, tail, pole, -, -, -, -, hnumerator⟩ := numerator_eq ctx hm
  rw [hnumerator]
  apply (mul_finite_infinity ctx twice s).bind
  intro s₁
  rw [bind_of_ok (add_finite_infinity ctx base s₁), product_pair]
  apply Diverges.bind
  · apply (mul_finite_infinity ctx h.b s).bind
    intro s₂
    exact Or.inr ⟨_, mul_infinities ctx s₂ s⟩
  intro s₃
  apply (sub_infinities ctx s₁ s₃).bind
  intro s₄
  rw [bind_of_ok (add_infinity_finite ctx s₄ tail)]
  apply (mul_finite_infinity ctx pole s).bind
  intro s₅
  exact sub_infinities ctx s₄ s₅

/-- There is an inverse for every number and every quiet NaN, unless the denominator is zero. -/
theorem inverse?_ordinary (hp : ctx.precision ≤ 10000) (hm : h.Moderate) {y : Decimal}
    (hy : y.Ordinary (-50000) 50000) : ∃ place?, h.inverse? ctx.widened y = .ok place? := by
  have hw := Context.widened_precision_le hp
  have hd : (Decimal.finite h.d).Ordinary (-10000) 18 := hm.d
  have hf : (Decimal.finite h.translatePayout).Ordinary (-10000) 18 := hm.translatePayout
  obtain ⟨below, hbelow, hbelow'⟩ := hf.sub ctx.widened (-50000) 50001 hy (by omega) (by omega) (by decide)
  obtain ⟨denominator, hden, hdenw⟩ := hd.mul ctx.widened (-60000) 50019 hbelow' (by omega) (by omega)
    (by decide)
  obtain ⟨zero, hzero⟩ := hdenw.isZero_succeeds
  unfold inverse?
  rw [bind_of_ok hbelow, bind_of_ok hden, bind_of_ok hzero]
  cases zero with
  | true => exact ⟨none, rfl⟩
  | false =>
      obtain ⟨n, hn, hnw⟩ := numerator_ordinary ctx.widened hm hy
      obtain ⟨place, hplace, -⟩ := hnw.div ctx.widened (-200000) 200000 hdenw hzero (by omega) (by omega)
        (by decide)
      simp only [Bool.false_eq_true, if_false]
      rw [bind_of_ok hn, bind_of_ok hplace]
      exact ⟨some place, rfl⟩

/-- An infinite payout makes the arithmetic invalid, sooner or later. -/
theorem inverse?_infinity (hm : h.Moderate) (s : Bool) :
    h.inverse? ctx (.infinity s) = .error .invalidOperation := by
  unfold inverse?
  rw [bind_of_ok (sub_finite_infinity ctx h.translatePayout s)]
  rcases mul_finite_infinity ctx h.d (!s) with hmul | ⟨t, hmul⟩
  · rw [hmul]
    rfl
  · rw [bind_of_ok hmul, bind_of_ok (show (Decimal.infinity t).isZero = .ok false from rfl)]
    simp only [Bool.false_eq_true, if_false]
    rcases numerator_infinity ctx hm s with hn | ⟨u, hn⟩
    · rw [hn]
      rfl
    · rw [bind_of_ok hn, div_infinities]
      rfl

end Hyperbola

/-! ## Every datum -/

namespace Curve

/-- Why a curve cannot be inverted at a payout, if it cannot. -/
def invertFailure? : Curve → Decimal → Option Failure
  | .line _, _ => none
  | .hyperbola h, y =>
      if h.c.isZero then
        match y with
        | .infinity _ => some (.arithmetic .invalidOperation)
        | _ => none
      else some .unsupportedInversion

variable {curve : Curve} {y : Decimal}

theorem evaluate_tame (hp : ctx.precision ≤ 10000) (hcurve : curve.Moderate) (h0 : 0 ≤ x)
    (h1 : x < 10 ^ 18) : ∃ v, curve.evaluate ctx x = .ok v ∧ v.Tame := by
  cases curve with
  | line l =>
      obtain ⟨_, _, hsteps⟩ := Line.evaluate_steps hp hcurve
      obtain ⟨_, _, z, -, -, -, hzw, hz⟩ := hsteps x h0 h1
      exact ⟨.finite z, hz, hzw⟩
  | hyperbola h => exact Hyperbola.evaluate_tame hp hcurve h0 h1

theorem invert_of_inverse? {h : Hyperbola} (hc : h.c.isZero = true) {place? : Option Decimal}
    (hplace : h.inverse? ctx.widened y = .ok place?) :
    ∃ n?, h.invert ctx y = .ok n? ∧ ∀ n ∈ n?, 0 ≤ n := by
  refine ⟨_, Hyperbola.invert_of_inverse? hc place? hplace, fun n hn => ?_⟩
  obtain ⟨place, -, hnearest⟩ := Option.bind_eq_some_iff.mp hn
  exact nonneg_of_nearestOutcome? hnearest

theorem invertFailure?_of_ordinary {h : Hyperbola} {low high : ℤ} (hc : h.c.isZero = true)
    (hy : y.Ordinary low high) : invertFailure? (.hyperbola h) y = none := by
  cases y with
  | finite x => simp [invertFailure?, hc]
  | infinity s => exact hy.elim
  | nan signaling s payload => simp [invertFailure?, hc]

/-- An inversion fails for the reason that is known beforehand, or it has a result. -/
theorem invert_spec (hp : ctx.precision ≤ 10000) (hcurve : curve.Moderate) (hy : y.Tame) :
    (∃ f, curve.invertFailure? y = some f ∧ curve.invert ctx y = .error f) ∨
    (curve.invertFailure? y = none ∧ ∃ n?, curve.invert ctx y = .ok n? ∧ ∀ n ∈ n?, 0 ≤ n) := by
  cases curve with
  | line l =>
      right
      rcases hy.infinity_or_ordinary with ⟨s, rfl⟩ | hordinary
      · exact ⟨rfl, none, Failure.ofArithmetic_eq_ok.mpr (Line.invert_infinity hp hcurve s), by simp⟩
      · obtain ⟨n?, hn, hnonneg⟩ := Line.invert_ordinary hp hcurve hordinary
        exact ⟨rfl, n?, Failure.ofArithmetic_eq_ok.mpr hn, hnonneg⟩
  | hyperbola h =>
      cases hc : h.c.isZero with
      | false =>
          left
          exact ⟨.unsupportedInversion, by simp [invertFailure?, hc],
            Hyperbola.invert_of_c_ne_zero hc ctx y⟩
      | true =>
          rcases hy.infinity_or_ordinary with ⟨s, rfl⟩ | hordinary
          · refine Or.inl ⟨.arithmetic .invalidOperation, by simp [invertFailure?, hc], ?_⟩
            rw [invert, Hyperbola.invert_of_c_zero hc, Hyperbola.inverse?_infinity hcurve]
            rfl
          · obtain ⟨place?, hplace⟩ := Hyperbola.inverse?_ordinary hp hcurve hordinary
            exact Or.inr ⟨invertFailure?_of_ordinary hc hordinary, invert_of_inverse? hc hplace⟩

/-- Evaluation always has a result, and the inversion of any datum has one or fails for the reason that
is known beforehand; an outcome that it finds is never negative. -/
theorem evaluate_invert_total (hp : ctx.precision ≤ 10000) (hcurve : curve.Moderate) :
    (∀ x, 0 ≤ x → x < 10 ^ 18 → ∃ v, curve.evaluate ctx x = .ok v ∧ v.Tame) ∧
    ∀ y : Decimal, y.Tame →
      (∀ f, curve.invert ctx y = .error f ↔ curve.invertFailure? y = some f) ∧
      ∀ n, curve.invert ctx y = .ok (some n) → 0 ≤ n := by
  constructor
  · intro x h0 h1
    exact evaluate_tame hp hcurve h0 h1
  · intro y hy
    rcases invert_spec hp hcurve hy with ⟨g, hg, hinvert⟩ | ⟨hnone, n?, hinvert, hnonneg⟩
    · simp [hg, hinvert]
    · constructor
      · simp [hnone, hinvert]
      · intro n hn
        rw [hinvert] at hn
        exact hnonneg n (Except.ok.inj hn)

def reciprocal : Hyperbola :=
  ⟨.ofInt 1, .ofInt 0, .ofInt 0, .ofInt 1, .ofInt 0, .ofInt 0, true, Finite.isZero_one⟩

theorem moderate_reciprocal : (hyperbola reciprocal).Moderate := by
  intro c hc
  have hdigit : ∀ n : ℤ, |(n : ℚ)| ≤ 1 → Within (-10000) 18 (Finite.ofInt n).value := by
    intro n hn
    have hwithin : Within 0 0 (n : ℚ) := Within.intCast (by simpa using hn)
    rw [Finite.value_ofInt]
    exact hwithin.mono (by decide) (by decide)
  simp only [Hyperbola.coefficients, reciprocal, List.mem_cons, List.not_mem_nil, or_false] at hc
  rcases hc with rfl | rfl | rfl | rfl | rfl | rfl <;> exact hdigit _ (by norm_num)

theorem evaluate_reciprocal_pole :
    (hyperbola reciprocal).evaluate .standard 0 = .ok (.infinity false) := by
  decide +kernel

theorem evaluate_invert_total_reciprocal :
    (∃ v, (hyperbola reciprocal).evaluate .standard 4 = .ok v ∧
      ∀ f, (hyperbola reciprocal).invert .standard v ≠ .error f) ∧
      (hyperbola reciprocal).invert .standard (.infinity false) =
        .error (.arithmetic .invalidOperation) := by
  have hprecision : Context.standard.precision ≤ 10000 := by decide
  obtain ⟨hevaluate, hinvert⟩ := evaluate_invert_total hprecision moderate_reciprocal
  constructor
  · obtain ⟨v, hv, htame⟩ := hevaluate 4 (by norm_num) (by norm_num)
    have hfinite : (hyperbola reciprocal).evaluate .standard 4 = .ok (.finite ⟨false, 25, -2⟩) := by
      decide +kernel
    obtain rfl : Decimal.finite ⟨false, 25, -2⟩ = v := Except.ok.inj (hfinite.symm.trans hv)
    refine ⟨_, hv, fun f hf => ?_⟩
    have hnone := ((hinvert _ htame).1 f).mp hf
    cases hnone
  · exact ((hinvert (.infinity false) trivial).1 _).mpr rfl

/-- The arithmetic is invalid at the infinite payout that the curve itself has at its pole, though the
curve can be inverted. -/
theorem invert_evaluate_invalid :
    reciprocal.Scaled ∧ reciprocal.c.isZero = true ∧
      (hyperbola reciprocal).evaluate .standard 0 = .ok (.infinity false) ∧
      (hyperbola reciprocal).invert .standard (.infinity false) =
        .error (.arithmetic .invalidOperation) :=
  ⟨Hyperbola.scaled_of_digits (by decide), by decide, evaluate_reciprocal_pole, by decide +kernel⟩

end Curve

end NumericContract
