import NumericContract.Proofs.Curve.RightOfPole
import NumericContract.Proofs.Curve.RoundTrip

/-!
# The sides of a midpoint

No half of an integer lies between a computed payout and the exact one: both are on the same side of every
level and every midpoint. An inverse is the outcome nearest to a root, and the payout computed there tells
whether it has crossed the midpoint, so that the boundary is the last outcome on the near side.
-/

namespace NumericContract

open Decimal

variable {ctx : Context} {x current : ℤ} {ascending : Bool}

/-! ## Computed payouts and halves -/

theorem Sharp.cmp_eq {w v q : ℚ} (h : Sharp w v) (hq : IsHalfInteger q) : cmp w q = cmp v q := by
  obtain ⟨j, hj, rfl⟩ := hq
  obtain ⟨hlt, hgt⟩ := h j hj
  rcases lt_trichotomy v (j / 2) with hv | hv | hv
  · rw [(cmp_eq_lt_iff _ _).mpr hv, (cmp_eq_lt_iff _ _).mpr (hlt.mpr hv)]
  · have hw : w = j / 2 := by
      apply le_antisymm
      · exact not_lt.mp fun hw => (hgt.mp hw).ne' hv
      · exact not_lt.mp fun hw => (hlt.mp hw).ne hv
    rw [hw, hv]
  · rw [(cmp_eq_gt_iff _ _).mpr hv, (cmp_eq_gt_iff _ _).mpr (hgt.mpr hv)]

/-- A half that matters is told exactly. -/
theorem Sharp.eq_of_isHalfInteger {w v : ℚ} (h : Sharp w v) (hv : IsHalfInteger v) : w = v := by
  rw [← cmp_eq_eq_iff, h.cmp_eq hv, cmp_self_eq_eq]

namespace Curve

variable {curve : Curve}

/-- The payout at an outcome without rounding; on a hyperbola that of the right branch. -/
def exact : Curve → ℤ → ℚ
  | .line l => l.exact
  | .hyperbola h => h.exact

/-- A curve of the design scale and an outcome at which it has a payout: on a line any, and on a
rectangular hyperbola any right of the pole. -/
def PaysAt (x : ℤ) : Curve → Prop
  | .line l => l.AtScale
  | .hyperbola h => h.AtScale ∧ h.pole < x

theorem PaysAt.evaluate_sharp (h : curve.PaysAt x) (ctx : Context) (h0 : 0 ≤ x) (h1 : x ≤ 10 ^ 18) :
    ∃ z : Decimal.Finite, curve.evaluate ctx x = .ok (.finite z) ∧ Sharp z.value (curve.exact x) := by
  cases curve with
  | line l =>
      obtain ⟨p⟩ := Line.AtScale.parts h
      obtain ⟨z, hz, hsharp, -⟩ := p.evaluate_sharp ctx h0 h1
      exact ⟨z, hz, hsharp⟩
  | hyperbola h' =>
      obtain ⟨ha, hpole⟩ := h
      obtain ⟨z, hz, hsharp, -⟩ := Hyperbola.evaluate_sharp ha ctx hpole h0 h1
      exact ⟨z, hz, hsharp⟩

/-- A computed payout compares with every half as the exact one does, and is exact if that is a half,
whatever the precision is. -/
theorem evaluate_compare (hcurve : curve.PaysAt x) (h0 : 0 ≤ x) (h1 : x < 10 ^ 18) (ctx : Context) :
    ∃ z : Decimal.Finite, curve.evaluate ctx x = .ok (.finite z) ∧
      (∀ y : Decimal.Finite, IsHalfInteger y.value →
        (finite z).compare (.finite y) = .ok (cmp (curve.exact x) y.value)) ∧
      (IsHalfInteger (curve.exact x) → z.value = curve.exact x) := by
  obtain ⟨z, hz, hsharp⟩ := hcurve.evaluate_sharp ctx h0 h1.le
  refine ⟨z, hz, fun y hy => ?_, hsharp.eq_of_isHalfInteger⟩
  rw [Decimal.compare, Finite.compare_eq_cmp, hsharp.cmp_eq hy]

theorem exact_reciprocal (x : ℤ) : (hyperbola reciprocal).exact x = 1 / x := by
  have hone : (Finite.ofInt 1).value = 1 := by exact_mod_cast Finite.value_ofInt 1
  have hzero : (Finite.ofInt 0).value = 0 := by exact_mod_cast Finite.value_ofInt 0
  simp [exact, Hyperbola.exact, Hyperbola.factor, Hyperbola.pole, Hyperbola.asymptote, reciprocal, hone,
    hzero]

/-- A payout that is a half itself. -/
theorem evaluate_compare_reciprocal :
    ∃ z : Decimal.Finite, (hyperbola reciprocal).evaluate .standard 2 = .ok (.finite z) ∧
      (∀ y : Decimal.Finite, IsHalfInteger y.value →
        (finite z).compare (.finite y) = .ok (cmp (1 / 2) y.value)) ∧ z.value = 1 / 2 := by
  obtain ⟨ha, -, hpole⟩ := invertibleAt_reciprocal (show (0 : ℤ) < 2 by decide)
  obtain ⟨z, hz, hcompare, hhalf⟩ := evaluate_compare
    (show (hyperbola reciprocal).PaysAt 2 from ⟨ha, hpole⟩) (by decide) (by decide) .standard
  rw [exact_reciprocal, Int.cast_ofNat] at hcompare hhalf
  exact ⟨z, hz, hcompare, hhalf ⟨1, by decide, by norm_num⟩⟩

end Curve

/-! ## Boundaries -/

/-- A curve of the design scale that is not constant from an outcome on: a line that is not flat, or a
rectangular hyperbola right of its pole, which lies at an integer. -/
def Curve.CrossesFrom (current : ℤ) : Curve → Prop
  | .line l => l.AtScale ∧ l.left.payout.number ≠ l.right.payout.number
  | .hyperbola h => h.AtScale ∧ h.d.isZero = false ∧ ∃ pole : ℤ, h.pole = pole ∧ pole < current

/-- What the boundary of a midpoint is: where a later outcome of the design scale is on the far side, the
last outcome on the near side; where none ever is, an outcome before the current one or none at all. -/
structure IsBoundary (ascending : Bool) (v : ℤ → ℚ) (y : ℚ) (current : ℤ) (last? : Option ℤ) : Prop where
  reached : ∀ x, current < x → x < 10 ^ 18 → ¬Near ascending y (v x) →
    ∃ last, last? = some last ∧ IsGreatest {x | current ≤ x ∧ Near ascending y (v x)} last
  unreached : (∀ x, current < x → Near ascending y (v x)) → ∀ last ∈ last?, 0 ≤ last ∧ last < current

theorem exists_far_of_root (current : ℤ) {v : ℤ → ℚ} {y root : ℚ}
    (hroot : ∀ x : ℤ, current < x →
      (Near ascending y (v x) ↔ if ascending then (x : ℚ) < root else (x : ℚ) ≤ root)) :
    ∃ x, current < x ∧ ¬Near ascending y (v x) := by
  obtain ⟨x, hx⟩ := exists_int_gt (max root current)
  obtain ⟨hbeyond, hcur⟩ := max_lt_iff.mp hx
  have hcur : current < x := by exact_mod_cast hcur
  refine ⟨x, hcur, fun hnear => ?_⟩
  have := (hroot x hcur).mp hnear
  split at this <;> linarith

theorem Near.of_ahead {y p q : ℚ} (h : Near ascending y q) (hpq : Ahead ascending p q) :
    Near ascending y p := by
  cases ascending with
  | false => exact le_trans (show y ≤ q from h) (show q ≤ p from hpq)
  | true => exact lt_of_le_of_lt (show p ≤ q from hpq) (show q < y from h)

namespace Segment

variable {s : Segment} {v : ℤ → ℚ} {y : Decimal.Finite}

/-- On a curve that is followed and monotone also after the segment, the boundary is the last outcome of
all on the near side. -/
theorem Follows.boundary_isGreatest (h : s.Follows ctx ascending v current) (hcur : current < s.stop)
    (hahead : ∀ x x', current ≤ x → x ≤ x' → Ahead ascending (v x) (v x'))
    (hy : IsHalfInteger y.value) (hnear : Near ascending y.value (v current)) :
    ∃ last?, s.boundary ctx (.finite y) ascending = .ok last? ∧
      ∀ x, current < x → x < s.stop → ¬Near ascending y.value (v x) →
        ∃ last, last? = some last ∧ IsGreatest {x | current ≤ x ∧ Near ascending y.value (v x)} last := by
  obtain ⟨last?, hlast, hiff⟩ :=
    h.toTracks.boundary le_rfl hy hnear (h.placed y current le_rfl hcur hy hnear)
  refine ⟨last?, hlast, fun far hfar hfars hn => ?_⟩
  rw [hiff far hfar.le hfars] at hn
  push Not at hn
  obtain ⟨last, rfl, hle, hlt⟩ := hn
  refine ⟨last, rfl, ⟨hle, (hiff last hle (by omega)).mpr (by simp)⟩, ?_⟩
  intro x hx
  obtain ⟨hxc, hxn⟩ := hx
  -- what lies beyond the segment lies beyond the far outcome
  have hxs : x < s.stop := by
    by_contra hbeyond
    have hxfar := hxn.of_ahead (hahead far x hfar.le (by omega))
    have := (hiff far hfar.le hfars).mp hxfar last rfl hle
    omega
  exact (hiff x hxc hxs).mp hxn last rfl hle

end Segment

namespace Line.Parts

variable {l : Line} (p : l.Parts)

theorem exact_lt_succ_iff (x : ℤ) : l.exact x < l.exact (x + 1) ↔ 0 < p.slope := by
  have hsub := p.exact_sub_exact x (x + 1)
  rw [Int.cast_add, Int.cast_one, add_sub_cancel_left, mul_one] at hsub
  rw [← hsub, sub_pos]

end Line.Parts

namespace Hyperbola

variable {h : Hyperbola} {s : Segment} {y : Decimal.Finite}

theorem exact_lt_succ_iff (hx : h.pole < x) : h.exact x < h.exact (x + 1) ↔ h.factor < 0 := by
  have hx' : h.pole < (x + 1 : ℤ) := by
    push_cast
    linarith
  have hsub := On.exact_sub_exact hx hx'
  rw [Int.cast_add, Int.cast_one, add_sub_cancel_left, mul_one] at hsub
  have hpos : 0 < ((x : ℚ) - h.pole) * (x + 1 - h.pole) := by
    push_cast at hx'
    exact mul_pos (by linarith) (by linarith)
  rw [← sub_pos, ← mul_pos_iff_of_pos_right hpos, hsub, neg_pos]

/-- Left of the pole the infinite payout has not crossed anything. -/
theorem crossed_left (h : Hyperbola) (y : Decimal.Finite) :
    Segment.crossed h.ascends (.infinity (decide (h.factor < 0))) y = .ok false := by
  by_cases hK : h.factor < 0
  · rw [ascends_of_neg hK, decide_eq_true hK]
    rfl
  · rw [ascends_of_nonneg (not_lt.mp hK), decide_eq_false hK]
    rfl

/-- The inverse of a payout that is never reached is taken for its boundary. -/
theorem boundary_of_beyond (ha : h.AtScale) (hK : h.factor ≠ 0) (ctx : Context)
    (hcurve : s.curve = .hyperbola h) {pole : ℤ} (hpole : h.pole = pole) (hy : IsHalfInteger y.value)
    (hbeyond : 0 ≤ h.factor * (h.asymptote - y.value)) :
    ∃ last?, s.boundary ctx (.finite y) h.ascends = .ok last? ∧ ∀ last ∈ last?, 0 ≤ last ∧ last ≤ pole := by
  have hinvert : ∀ c?, h.invert ctx (.finite y) = .ok c? → s.curve.invert ctx (.finite y) = .ok c? := by
    rw [hcurve]
    exact fun _ => id
  rcases hbeyond.eq_or_lt with hzero | hpos
  · have hnone := invert_eq_none ha ctx (hy.abs_le.trans (by norm_num)) hzero.symm
    exact ⟨none, bind_eq_ok.mpr ⟨none, hinvert _ hnone, rfl⟩, by simp⟩
  obtain ⟨x', hx', -, -⟩ := invert_near ha ctx hy hpos.ne'
  cases hc : (finite x').nearestOutcome? with
  | none =>
      rw [hc] at hx'
      exact ⟨none, bind_eq_ok.mpr ⟨none, hinvert _ hx', rfl⟩, by simp⟩
  | some c =>
      rw [hc] at hx'
      have h0 : 0 ≤ c := nonneg_of_nearestOutcome? hc
      have hlt := inverse_lt_of_beyond ha ctx hy hpos hx'
      rw [hpole] at hlt
      -- the pole lies at an integer, so that nothing is rounded up across it
      have hle : c ≤ pole := by
        have : (c : ℚ) < pole + 1 := by linarith
        exact Int.lt_add_one_iff.mp (by exact_mod_cast this)
      have hvalue : s.curve.evaluate ctx c = .ok (.infinity (decide (h.factor < 0))) := by
        rw [hcurve]
        refine evaluate_left ha hK ctx h0 ?_
        rw [hpole]
        exact_mod_cast hle
      have hboundary := Segment.boundary_eq (hinvert _ hx') hvalue rfl (h.crossed_left y)
      exact ⟨some c, hboundary, by simpa using ⟨h0, hle⟩⟩

end Hyperbola

namespace Segment

variable {s : Segment} {y : Decimal.Finite}

/-- A line that is not flat reaches every midpoint. -/
theorem isBoundary_line {l : Line} (p : l.Parts) (hg : p.gain ≠ 0) (hcurve : s.curve = .line l)
    (h0 : 0 ≤ current) (h1 : current < 10 ^ 18) (hy : IsHalfInteger y.value)
    (hnear : Near (decide (0 < p.slope)) y.value (l.exact current)) (ctx : Context) :
    ∃ last?, s.boundary ctx (.finite y) (decide (0 < p.slope)) = .ok last? ∧
      IsBoundary (decide (0 < p.slope)) l.exact y.value current last? := by
  -- the boundary does not depend on where the segment ends
  have hfollows : ({ s with stop := 10 ^ 18 } : Segment).Follows ctx _ l.exact current :=
    p.follows ctx hcurve h0 le_rfl
  obtain ⟨last?, hlast, hreached⟩ :=
    hfollows.boundary_isGreatest h1 (fun _ _ _ hx => p.exact_ahead hx) hy hnear
  obtain ⟨far, hfar, hn⟩ := exists_far_of_root current fun x _ => p.near_iff_root hg x y.value
  exact ⟨last?, hlast, hreached, fun hnever => absurd (hnever far hfar) hn⟩

/-- A hyperbola reaches no midpoint at its asymptote or beyond it. -/
theorem isBoundary_hyperbola {h : Hyperbola} (ha : h.AtScale) (hK : h.factor ≠ 0)
    (hcurve : s.curve = .hyperbola h) {pole : ℤ} (hpole : h.pole = pole) (hlt : pole < current)
    (h0 : 0 ≤ current) (h1 : current < 10 ^ 18) (hy : IsHalfInteger y.value)
    (hnear : Near h.ascends y.value (h.exact current)) (ctx : Context) :
    ∃ last?, s.boundary ctx (.finite y) h.ascends = .ok last? ∧
      IsBoundary h.ascends h.exact y.value current last? := by
  have hnext : h.pole + 1 ≤ current := by
    rw [hpole]
    exact_mod_cast hlt
  have hright : ∀ x, current ≤ x → h.pole < x := by
    intro x hx
    have : (current : ℚ) ≤ x := by exact_mod_cast hx
    linarith
  have hon : h.On { s with stop := 10 ^ 18 } current := ⟨hcurve, h0, hright current le_rfl, le_rfl⟩
  obtain ⟨last?, hlast, hreached⟩ := (hon.follows ha ctx hK (by linarith)).boundary_isGreatest h1
    (fun x _ hx hxx => Hyperbola.exact_ahead (hright x hx) hxx) hy hnear
  refine ⟨last?, hlast, hreached, fun hnever => ?_⟩
  rcases lt_or_ge (h.factor * (h.asymptote - y.value)) 0 with hroot | hbeyond
  · obtain ⟨far, hfar, hn⟩ := exists_far_of_root current
      fun x hx => Hyperbola.near_iff_root (hright x hx.le) hroot
    exact absurd (hnever far hfar) hn
  · obtain ⟨last?', hlast', hbounds⟩ :=
      Hyperbola.boundary_of_beyond ha hK ctx hcurve hpole hy hbeyond
    obtain rfl : last? = last?' := Except.ok.inj (hlast.symm.trans hlast')
    intro last hmem
    have := hbounds last hmem
    omega

/-- In the direction of the curve the boundary of a midpoint is found, whatever the precision is. -/
theorem boundary_isBoundary (hcurve : s.curve.CrossesFrom current) (h0 : 0 ≤ current)
    (h1 : current < 10 ^ 18) (hdir : ascending = true ↔ s.curve.exact current < s.curve.exact (current + 1))
    (hy : IsHalfInteger y.value) (hnear : Near ascending y.value (s.curve.exact current)) (ctx : Context) :
    ∃ last?, s.boundary ctx (.finite y) ascending = .ok last? ∧
      IsBoundary ascending s.curve.exact y.value current last? := by
  cases hc : s.curve with
  | line l =>
      rw [hc] at hcurve hdir hnear
      obtain ⟨hl, hne⟩ := hcurve
      obtain ⟨p⟩ := hl.parts
      obtain rfl : ascending = decide (0 < p.slope) := by
        rw [Bool.eq_iff_iff, hdir, decide_eq_true_eq]
        exact p.exact_lt_succ_iff current
      exact isBoundary_line p (p.gain_ne_zero hne) hc h0 h1 hy hnear ctx
  | hyperbola h =>
      rw [hc] at hcurve hdir hnear
      obtain ⟨ha, hd, pole, hpole, hlt⟩ := hcurve
      have hK : h.factor ≠ 0 := mul_ne_zero h.a_value_ne_zero ((Finite.isZero_eq_false_iff _).mp hd)
      have hright : h.pole < current := by
        rw [hpole]
        exact_mod_cast hlt
      obtain rfl : ascending = h.ascends := by
        rw [Bool.eq_iff_iff, hdir, Hyperbola.ascends, decide_eq_true_eq]
        exact Hyperbola.exact_lt_succ_iff hright
      exact isBoundary_hyperbola ha hK hc hpole hlt h0 h1 hy hnear ctx

/-- The reciprocal meets one half at an outcome, which is the last on the near side. -/
theorem boundary_isBoundary_reciprocal :
    (⟨.hyperbola Curve.reciprocal, 1, 1, 10⟩ : Segment).boundary .standard (.finite ⟨false, 5, -1⟩) false =
        .ok (some 2) ∧
      IsGreatest {x : ℤ | 1 ≤ x ∧ Near false (1 / 2) (1 / x)} 2 := by
  have htwo : (⟨.hyperbola Curve.reciprocal, 1, 1, 10⟩ : Segment).boundary .standard
      (.finite ⟨false, 5, -1⟩) false = .ok (some 2) := by decide +kernel
  have hhalf : (⟨false, 5, -1⟩ : Decimal.Finite).value = 1 / 2 := by norm_num [Finite.value, Finite.signed]
  have hpole : Curve.reciprocal.pole = ((0 : ℤ) : ℚ) := Finite.value_ofInt 0
  obtain ⟨ha, -, -⟩ := Curve.invertibleAt_reciprocal (show (0 : ℤ) < 1 by decide)
  have hcurve : (⟨.hyperbola Curve.reciprocal, 1, 1, 10⟩ : Segment).curve.CrossesFrom 1 :=
    ⟨ha, by decide, 0, hpole, by decide⟩
  have hy : IsHalfInteger (⟨false, 5, -1⟩ : Decimal.Finite).value := ⟨1, by decide, by norm_num [hhalf]⟩
  obtain ⟨last?, hlast, hboundary⟩ := boundary_isBoundary hcurve (by decide) (by decide)
    (show false = true ↔ _ by norm_num [Curve.exact_reciprocal]) hy
    (by norm_num [Near, Curve.exact_reciprocal, hhalf]) .standard
  obtain rfl := Except.ok.inj (htwo.symm.trans hlast)
  obtain ⟨last, heq, hgreatest⟩ := hboundary.reached 3 (by decide) (by decide)
    (by norm_num [Near, Curve.exact_reciprocal, hhalf])
  obtain rfl := Option.some.inj heq
  simp only [Curve.exact_reciprocal, hhalf] at hgreatest
  exact ⟨htwo, hgreatest⟩

end Segment

end NumericContract
