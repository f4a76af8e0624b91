import NumericContract.Proofs.Curve.Regular

/-!
# What an evaluation meets

Where `c` is zero four numbers are met on the way to a finite payout: a nearest root, `u`, a quotient and the
payout. At the design scale none of them is extremely large or small, and the payout compares with levels and
midpoints nearly as the exact quotient does.
-/

namespace NumericContract

open Decimal PayoutRange

namespace Hyperbola

variable {h : Hyperbola} {ctx : Context} {x x' : ℤ}

/-- The numbers met on the way to the payout at an outcome, where `c` is zero and the payout is finite. -/
structure Passage (h : Hyperbola) (ctx : Context) (x : ℤ) where
  root : ℚ
  u : Finite
  quotient : ℚ
  payout : Finite
  nonneg : 0 ≤ h.discriminant x
  isRoot : ctx.widened.IsRoot (h.discriminant x) root
  sum : ctx.widened.Settles (x - h.pole + root) u.value
  radical : h.radical? ctx.widened x = .ok (some u)
  pos : 0 < u.value
  division : ctx.widened.Settles (2 * h.factor / u.value) quotient
  translation : ctx.widened.Settles (quotient + h.asymptote) payout.value
  evaluate : h.evaluate ctx x = .ok (.finite payout)

theorem exists_passage (hp : ctx.precision ≤ 10000) (hs : h.Scaled) (hc : h.c.isZero = true)
    (hx : x ∈ (Curve.hyperbola h).clearOutcomes)
    (hdefined : (Curve.hyperbola h).isDefinedAt ctx x = .ok true) : Nonempty (h.Passage ctx x) := by
  obtain ⟨h0, h1, hclear⟩ := hx
  have hzero := Context.Representable.zero ctx.widened
  obtain ⟨u, hu, huz⟩ := (isDefinedAt_iff hp hs.moderate h0 h1).mp hdefined
  obtain ⟨hnonneg, root, hroot, hsum⟩ := exists_root hp hs h0 h1 hu
  have hpos : 0 < u.value :=
    (radical?_nonneg hp hs h0 h1 hclear hu).lt_of_ne ((Finite.isZero_eq_false_iff u).mp huz).symm
  obtain ⟨twice, product, ht, htz, hpr, hsteps⟩ := payoutAt_steps hp hs.moderate
  obtain ⟨cu, linear, inverse, sum, z, hcu, hl, hi, hadd, hz, -, hpay⟩ :=
    hsteps u huz (within_of_radical? hp hs.moderate h0 h1 hu)
  obtain ⟨twice', product', ht', -, hpr', hprv⟩ := exists_twice hs ctx
  obtain rfl : twice = twice' := Except.ok.inj (ht.symm.trans ht')
  obtain rfl : product = product' := Except.ok.inj (hpr.symm.trans hpr')
  -- the linear part is zero and changes no sum
  have hcu := Finite.mul_settles hcu
  rw [(Finite.isZero_iff _).mp hc, zero_mul] at hcu
  have hlinear := Finite.div_settles htz hl
  rw [hcu.rounds.eq_self hzero, zero_div] at hlinear
  have hinverse := Finite.div_settles huz hi
  have hsame := Finite.add_settles hadd
  rw [hlinear.rounds.eq_self hzero, zero_add] at hsame
  have htranslation := Finite.add_settles hz
  rw [hsame.rounds.eq_self hinverse.rounds.representable] at htranslation
  rw [hprv] at hinverse
  exact ⟨⟨root, u, inverse.value, z, hnonneg, hroot, hsum, hu, hpos, hinverse, htranslation,
    (evaluate_of_some hu).trans hpay⟩⟩

namespace Passage

/-! ## Sizes -/

theorem root_le (p : h.Passage ctx x) (hs : h.Scaled) (h0 : 0 ≤ x) (h1 : x < 10 ^ 18) :
    p.root ≤ 3 * 10 ^ 18 := by
  have hd := hs.abs_distance_le h0 h1
  have hsquare : (x - h.pole) * (x - h.pole) ≤ 2 * 10 ^ 18 * (2 * 10 ^ 18) := by
    rw [← abs_mul_abs_self]
    exact mul_self_le_mul_self (abs_nonneg _) hd
  have hproduct := neg_abs_le (4 * h.a.value * h.b.value)
  have hgrid : OnGrid 0 (3 * 10 ^ 18) := ⟨3 * 10 ^ 18, by norm_num⟩
  apply p.isRoot.le_of_le_sq (hgrid.representable ctx (by norm_num) (by norm_num)) (by norm_num)
  unfold discriminant
  linarith [hs.abs_product_le]

theorem sq_error (p : h.Passage ctx x) (hs : h.Scaled) (h0 : 0 ≤ x) (h1 : x < 10 ^ 18) :
    |p.root * p.root - h.discriminant x| ≤ 1 / 10 ^ 39 := by
  have hle := p.root_le hs h0 h1
  rcases p.nonneg.eq_or_lt with hzero | hpos
  · have hroot : p.root = 0 := p.isRoot.eq_of_sq (Context.Representable.zero _) le_rfl (by linarith)
    rw [hroot, ← hzero]
    norm_num
  · have hgrid : OnGrid 32 (h.discriminant x) :=
      ((hs.distance_onGrid x).mul (hs.distance_onGrid x)).sub hs.product_onGrid
    have hgap := hgrid.le_abs hpos.ne'
    rw [abs_of_pos hpos] at hgap
    have htiny : OnGrid 16 (1 / 10 ^ 16) := ⟨1, by norm_num⟩
    have hlow : 1 / 10 ^ 16 ≤ p.root :=
      p.isRoot.le_of_sq_le (htiny.representable ctx (by norm_num) (by norm_num)) (by linarith)
    have hsquare := mul_self_le_mul_self p.isRoot.nonneg hle
    exact (p.isRoot.sq_error (le_max_left _ _) (by linarith)).trans (by linarith)

theorem sum_pos (p : h.Passage ctx x) : 0 < x - h.pole + p.root := by
  by_contra hle
  exact absurd (p.sum.rounds.nonpos (not_lt.mp hle)) (not_le.mpr p.pos)

theorem u_close (p : h.Passage ctx x) :
    |p.u.value - (x - h.pole + p.root)| ≤ (x - h.pole + p.root) / 10 ^ 77 + 1 / 10 ^ 200 := by
  have herror := p.sum.rounds.error (le_max_left _ _)
  rwa [abs_of_pos p.sum_pos] at herror

theorem u_le (p : h.Passage ctx x) (hs : h.Scaled) (h0 : 0 ≤ x) (h1 : x < 10 ^ 18) :
    p.u.value ≤ 51 * 10 ^ 17 := by
  have hclose := (abs_le.mp p.u_close).2
  have hsize := (abs_le.mp (hs.abs_distance_le h0 h1)).2
  linarith [p.root_le hs h0 h1, p.sum_pos]

theorem mul_neg_of_left (p : h.Passage ctx x) (hs : h.Scaled) (hx : x ∈ (Curve.hyperbola h).clearOutcomes)
    (hleft : (x : ℚ) ≤ h.pole) : h.a.value * h.b.value < 0 := by
  obtain ⟨h0, h1, hclear⟩ := hx
  have hclear : h.a.value * h.b.value ≤ 0 ∨ h.pole ≤ x := hclear
  have hle : h.a.value * h.b.value ≤ 0 := by
    rcases hclear with hsign | hright
    · exact hsign
    · have hnonneg := p.nonneg
      rw [discriminant, le_antisymm hleft hright, sub_self] at hnonneg
      linarith
  refine hle.lt_of_ne fun hzero => ?_
  -- otherwise the root is the distance, and `u` is zero
  have hroot := p.isRoot.eq_of_sq (hs.representable_abs_distance ctx h0 h1) (abs_nonneg _) (by
    rw [abs_mul_abs_self, discriminant, mul_assoc, hzero]
    ring)
  rw [abs_of_nonpos (by linarith)] at hroot
  linarith [p.sum_pos]

/-- The sum of the distance and the root is not extremely small, though they may nearly cancel. -/
theorem abs_a_le (p : h.Passage ctx x) (hs : h.Scaled) (hx : x ∈ (Curve.hyperbola h).clearOutcomes)
    (hleft : (x : ℚ) ≤ h.pole) : |h.a.value| ≤ (x - h.pole + p.root) * 10 ^ 35 := by
  have hneg := p.mul_neg_of_left hs hx hleft
  obtain ⟨h0, h1, -⟩ := hx
  have hb : h.b.value ≠ 0 := right_ne_zero_of_mul hneg.ne
  have hbge := hs.b.onGrid.le_abs hb
  have hage := hs.a.onGrid.le_abs h.a_value_ne_zero
  have hroot := p.root_le hs h0 h1
  have hsize := abs_le.mp (hs.abs_distance_le h0 h1)
  have herror := abs_le.mp (p.sq_error hs h0 h1)
  have hproduct : |h.a.value| * (1 / 10 ^ 16) ≤ -(h.a.value * h.b.value) := by
    rw [← abs_of_neg hneg, abs_mul]
    exact mul_le_mul_of_nonneg_left hbge (abs_nonneg _)
  have hspread : (x - h.pole + p.root) * (p.root - (x - h.pole)) ≤
      (x - h.pole + p.root) * (5 * 10 ^ 18) := mul_le_mul_of_nonneg_left (by linarith) p.sum_pos.le
  unfold discriminant at herror
  linarith

/-- On the clear outcomes `u` is not so small that payouts would be extremely large. -/
theorem abs_factor_le (p : h.Passage ctx x) (hs : h.Scaled) (hx : x ∈ (Curve.hyperbola h).clearOutcomes) :
    |h.factor| ≤ p.u.value * 10 ^ 54 := by
  have hclose := abs_le.mp p.u_close
  rcases le_or_gt (x : ℚ) h.pole with hleft | hright
  · have ha := p.abs_a_le hs hx hleft
    have hage := hs.a.onGrid.le_abs h.a_value_ne_zero
    have hd := mul_le_mul_of_nonneg_left hs.d.abs_lt.le (abs_nonneg h.a.value)
    rw [← abs_mul] at hd
    unfold factor
    linarith
  · have hdistance := hs.le_distance hright
    have hroot := p.isRoot.nonneg
    linarith [hs.abs_factor_le]

theorem abs_payout_le (p : h.Passage ctx x) (hs : h.Scaled) (hx : x ∈ (Curve.hyperbola h).clearOutcomes) :
    |p.payout.value| ≤ 10 ^ 70 := by
  have hquotient : |2 * h.factor / p.u.value| ≤ 2 * 10 ^ 54 := by
    rw [abs_div, abs_of_pos p.pos, div_le_iff₀ p.pos, abs_mul, abs_two]
    linarith [p.abs_factor_le hs hx]
  have hrounded := p.division.rounds.abs_le_two_mul
  have hpayout := p.translation.rounds.abs_le_two_mul
  have hsum := abs_add_le p.quotient h.asymptote
  linarith [hs.asymptote.abs_lt]

/-! ## Comparisons -/

theorem u_mono (p : h.Passage ctx x) (p' : h.Passage ctx x') (hp : ctx.precision ≤ 10000) (hs : h.Scaled)
    (hx : x ∈ (Curve.hyperbola h).clearOutcomes) (hle : x ≤ x') (h1 : x' < 10 ^ 18) :
    p.u.value ≤ p'.u.value := by
  obtain ⟨v, hv, -, huv⟩ := radical?_grows hp hs hx.1 hle h1 hx.2.2 p.radical p.pos.ne'
  rw [p'.radical] at hv
  cases hv
  exact huv

/-- As `u` grows payouts fall, or they rise if the factor is negative. -/
theorem payout_ahead (p : h.Passage ctx x) (p' : h.Passage ctx x') (hle : p.u.value ≤ p'.u.value) :
    (0 ≤ h.factor → p'.payout.value ≤ p.payout.value) ∧
      (h.factor ≤ 0 → p.payout.value ≤ p'.payout.value) := by
  obtain ⟨hrise, hfall⟩ := div_ahead p.pos hle p.division p'.division
  constructor
  · intro hK
    exact p'.translation.mono p.translation (add_le_add_left (hfall (by linarith)) _)
  · intro hK
    exact p.translation.mono p'.translation (add_le_add_left (hrise (by linarith)) _)

/-- A payout is below `y` only if the exact one is. -/
theorem quotient_lt (p : h.Passage ctx x) (hs : h.Scaled) {y : ℚ} (hy : IsHalfInteger y)
    (hlt : p.payout.value < y) : 2 * h.factor / p.u.value < y - h.asymptote := by
  have hF := hs.asymptote.abs_lt
  have hyb := hy.abs_le
  have hdiff : |y - h.asymptote| ≤ 6 * 10 ^ 19 := (abs_sub _ _).trans (by linarith)
  have hgrid : OnGrid 16 (y - h.asymptote) := hy.onGrid.sub hs.asymptote.onGrid
  by_contra hge
  have hquotient := p.division.rounds.ge_of_ge (hgrid.representable ctx (by norm_num) (by linarith))
    (not_lt.mp hge)
  exact absurd (p.translation.rounds.ge_of_ge (hy.onGrid.representable ctx (by norm_num) (by linarith))
    (by linarith)) (not_le.mpr hlt)

theorem le_quotient (p : h.Passage ctx x) (hs : h.Scaled) {y : ℚ} (hle : y ≤ p.payout.value) :
    y - h.asymptote - (|y - h.asymptote| / 10 ^ 40 + 1 / 10 ^ 56) ≤ 2 * h.factor / p.u.value := by
  have hquotient := p.division.rounds.error (le_max_left _ _)
  have hpayout := p.translation.rounds.error (le_max_left _ _)
  have hrounded := p.division.rounds.abs_le_two_mul
  have hsum := abs_add_le p.quotient h.asymptote
  have hF := hs.asymptote.abs_lt
  generalize 2 * h.factor / p.u.value = q at *
  have hover : y - h.asymptote ≤ q + 3 * |q| / 10 ^ 77 + 2 / 10 ^ 59 := by
    have h1 := (abs_le.mp hquotient).2
    have h2 := (abs_le.mp hpayout).2
    linarith
  generalize y - h.asymptote = w at *
  by_contra hlt
  rw [not_le] at hlt
  rcases le_total 0 q with hq | hq
  · rw [abs_of_nonneg hq] at hover
    linarith [le_abs_self w, abs_nonneg w]
  · rw [abs_of_nonpos hq] at hover
    linarith [neg_abs_le w, abs_nonneg w]

/-- The discriminant is not negative, so that `4 * a * b` is at most the square of the sum of the distance and
the root. -/
theorem product_le (p : h.Passage ctx x) (hx : x ∈ (Curve.hyperbola h).clearOutcomes) {v : ℚ}
    (hv : x - h.pole + p.root ≤ v) : 4 * (h.a.value * h.b.value) ≤ v * v := by
  have hclear : h.a.value * h.b.value ≤ 0 ∨ h.pole ≤ x := hx.2.2
  rcases hclear with hsign | hright
  · linarith [mul_self_nonneg v]
  · have hnonneg := p.nonneg
    have hsquare : (x - h.pole) * (x - h.pole) ≤ v * v :=
      mul_self_le_mul_self (by linarith) (by linarith [p.isRoot.nonneg])
    unfold discriminant at hnonneg
    linarith

end Passage

end Hyperbola

end NumericContract
