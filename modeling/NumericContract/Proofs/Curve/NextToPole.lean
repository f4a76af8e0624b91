import NumericContract.Proofs.Curve.RightOfPole

/-!
# The outcome next to the pole

The inverse of a payout beyond the asymptote lies left of the pole. If the pole is not an integer the
inverse may be rounded up across it, onto the outcome from which the walk starts, which then takes
that outcome for the end of a step. If there are more steps to come the walk recovers at the next
outcome. If only the last level is left, all the others are paid that level, which they never reach.
-/

namespace NumericContract

open Decimal PayoutRange Segment

namespace Hyperbola

variable {h : Hyperbola} {ctx : Context} {s : Segment} {current : ℤ}

/-- The walk along a segment starts with a step that is not there, and ends with the last level. -/
structure Misled (h : Hyperbola) (ctx : Context) (s : Segment) (current : ℤ) : Prop where
  room : current + 1 < s.stop
  last : s.level (h.exact current) + s.step h.ascends = s.lastLevel h.ascends
  beyond : 0 < h.factor * (h.asymptote - (s.level (h.exact current) + s.step h.ascends / 2))
  inverse : ∃ y, midpoint ctx (s.level (h.exact current)) (s.step h.ascends) = .ok y ∧
    h.invert ctx y = .ok (some current)

def nextMidpoint (h : Hyperbola) (s : Segment) (current : ℤ) : ℚ :=
  s.level (h.exact current) + s.step h.ascends / 2

/-- By how much the root of a payout beyond the asymptote exceeds the place half an outcome before the
current one, times the distance of the payout from the asymptote. -/
def overlap (h : Hyperbola) (y : ℚ) (current : ℤ) : ℚ :=
  (h.pole + 1 / 2 - current) * |h.asymptote - y| - |h.factor|

/-- What the coefficients say of a walk that is misled: its last midpoint lies beyond the asymptote, and
the root of that less than half an outcome before the first outcome. -/
structure Lured (h : Hyperbola) (s : Segment) (current : ℤ) : Prop where
  room : current + 1 < s.stop
  last : s.level (h.exact current) + s.step h.ascends = s.lastLevel h.ascends
  beyond : 0 < h.factor * (h.asymptote - h.nextMidpoint s current)
  overlap : 0 < h.overlap (h.nextMidpoint s current) current

theorem Misled.level_ne_last (hm : h.Misled ctx s current) (hs : s.Sized) :
    s.level (h.exact current) ≠ s.lastLevel h.ascends := by
  have hstep := hs.step_ne_zero h.ascends
  have hlast := hm.last
  omega

/-- A walk is misled only next to the pole. -/
theorem Misled.near_pole (hm : h.Misled ctx s current) (ha : h.AtScale) (hs : s.Sized) :
    (current : ℚ) < h.pole + 3 / 4 := by
  obtain ⟨middle, hmid, hinv⟩ := hm.inverse
  obtain ⟨y, rfl, hyv, hy, -⟩ := midpoint_inv hs (hm.level_ne_last hs) hmid
  exact inverse_lt_of_beyond ha ctx hy (hyv ▸ hm.beyond) hinv

namespace On

/-- A level beyond the asymptote is never passed. -/
theorem settled (hs : h.On s current) (ha : h.AtScale) (ctx : Context) (hK : h.factor ≠ 0)
    (hlt : current < s.stop) {L : ℤ} (hL : |L| ≤ 5 * 10 ^ 18)
    (hnear : Near h.ascends (L : ℚ) (h.exact current)) : s.Settled ctx h.ascends h.exact L current := by
  have hhalf := isHalfInteger_ofInt hL
  have hv := Finite.value_ofInt L
  rcases lt_or_ge (h.factor * (h.asymptote - L)) 0 with hreached | hbeyond
  · refine (hs.placed_of_reached ha ctx hlt hhalf ?_ ?_).settled
    · rwa [hv]
    · rwa [hv]
  by_cases hend : L = 0 ∨ L = s.cap
  · exact settled_of_end hend
  obtain ⟨c?, hc⟩ : ∃ c?, h.invert ctx (.ofInt L) = .ok c? := by
    by_cases hzero : h.factor * (h.asymptote - (Decimal.Finite.ofInt L).value) = 0
    · exact ⟨_, invert_eq_none ha ctx (hhalf.abs_le.trans (by norm_num)) hzero⟩
    · obtain ⟨x', hx', -⟩ := invert_near ha ctx hhalf hzero
      exact ⟨_, hx'⟩
  refine ⟨_, reaches_eq hend ((hs.invert_eq ctx _).trans hc), fun _ => Or.inr (Or.inr fun x hx _ => ?_)⟩
  exact near_of_beyond hK (hs.pole_lt_of_le hx) hbeyond

/-- Next to the pole no inverse of a payout beyond the asymptote lies above the current outcome. -/
theorem inverse_le (hs : h.On s current) (ha : h.AtScale) (ctx : Context) {y : Decimal.Finite}
    (hy : IsHalfInteger y.value) (hbeyond : 0 ≤ h.factor * (h.asymptote - y.value)) {c : ℤ}
    (hc : h.invert ctx (.finite y) = .ok (some c)) :
    c ≤ current ∧ 0 < h.factor * (h.asymptote - y.value) := by
  rcases lt_or_eq_of_le hbeyond with hpos | hzero
  · have h1 := inverse_lt_of_beyond ha ctx hy hpos hc
    have h2 := hs.pole_lt
    have h3 : (c : ℚ) < current + 1 := by linarith
    exact ⟨Int.lt_add_one_iff.mp (by exact_mod_cast h3), hpos⟩
  · rw [invert_eq_none ha ctx (hy.abs_le.trans (by norm_num)) hzero.symm] at hc
    cases hc

theorem next_farther (hsized : s.Sized) (h : Hyperbola) (L : ℤ) :
    h.factor * (h.asymptote - (L + s.step h.ascends / 2)) ≤
      h.factor * (h.asymptote - (L + s.step h.ascends : ℤ)) := by
  have hmq : (0 : ℚ) < s.modulus := by exact_mod_cast hsized.modulus_pos
  rcases lt_or_ge h.factor 0 with hK | hK
  · rw [ascends_of_neg hK]
    simp only [step, if_true]
    push_cast
    nlinarith
  · rw [ascends_of_nonneg hK]
    simp only [step, Bool.false_eq_true, if_false]
    push_cast
    nlinarith

/-- If the midpoint is taken to be reached at the current outcome, so is the next level. -/
theorem reaches_next (hs : h.On s current) (ha : h.AtScale) (ctx : Context) (hsized : s.Sized)
    (h1 : 1 ≤ current) (hlt : current < s.stop) {L : ℤ} (hl : s.IsLevel L)
    (hnext : L + s.step h.ascends ≠ s.lastLevel h.ascends)
    {y : Decimal.Finite} (hy : IsHalfInteger y.value) (hyv : y.value = L + s.step h.ascends / 2)
    (hbeyond : 0 < h.factor * (h.asymptote - y.value))
    (hinv : h.invert ctx (.finite y) = .ok (some current)) :
    s.reaches ctx (L + s.step h.ascends) = .ok true := by
  have hhalf := isHalfInteger_ofInt (hsized.abs_next_le hl h.ascends)
  have hend := hl.next_inside hsized hnext
  have hfarther : h.factor * (h.asymptote - y.value) ≤
      h.factor * (h.asymptote - (Decimal.Finite.ofInt (L + s.step h.ascends)).value) := by
    rw [Finite.value_ofInt, hyv]
    exact next_farther hsized h L
  have hbeyond' := hbeyond.trans_le hfarther
  obtain ⟨x', hx', herr, -⟩ := invert_near ha ctx hy hbeyond.ne'
  obtain ⟨x'', hx'', herr', -⟩ := invert_near ha ctx hhalf hbeyond'.ne'
  rw [hx'] at hinv
  have hlow := (nearestOutcome?_bounds (Except.ok.inj hinv)).1
  have hroot := root_le_root hbeyond hfarther
  have h1' : (1 : ℚ) ≤ current := by exact_mod_cast h1
  have hpos : -(1 / 2) < x''.value := by
    rw [abs_le] at herr herr'
    linarith
  have hsome : h.invert ctx (.ofInt (L + s.step h.ascends)) = .ok (some ⌊x''.value + 1 / 2⌋) := by
    have hx'' : h.invert ctx (.ofInt (L + s.step h.ascends)) = _ := hx''
    rw [hx'', nearestOutcome?_finite, if_pos hpos]
  have hle := (hs.inverse_le ha ctx hhalf hbeyond'.le hsome).1
  rw [reaches_eq hend ((hs.invert_eq ctx _).trans hsome), Option.any_some, decide_eq_true (by omega)]

theorem boundary_of_inverse (hs : h.On s current) (ha : h.AtScale) (ctx : Context)
    (hlt : current < s.stop) {y : Decimal.Finite} (hy : IsHalfInteger y.value)
    (hnear : Near h.ascends y.value (h.exact current))
    (hinv : h.invert ctx (.finite y) = .ok (some current)) :
    s.boundary ctx (.finite y) h.ascends = .ok (some current) := by
  obtain ⟨z, hz, hsharp, -⟩ := hs.evaluate_sharp ha ctx le_rfl hlt.le
  obtain ⟨b, hb, hbn⟩ := crossed_finite h.ascends z y
  rw [hsharp.near_iff hy] at hbn
  have hb' : b = false := by
    cases b with
    | false => rfl
    | true => exact absurd hnear (hbn.mp rfl)
  rw [boundary_eq ((hs.invert_eq ctx _).trans hinv) hz rfl hb, hb']
  rfl

/-- A step from an outcome at which the walk is not misled pays what is right. -/
theorem stepsRight (hs : h.On s current) (ha : h.AtScale) (ctx : Context) (hsized : s.Sized)
    (hK : h.factor ≠ 0) (h1 : 1 ≤ current) (hlt : current < s.stop) (hm : ¬h.Misled ctx s current) :
    s.StepsRight ctx h.ascends h.exact current := by
  by_cases hlast : s.level (h.exact current) = s.lastLevel h.ascends
  · obtain ⟨ranges, hstride, hpays⟩ := (hs.tracks ha ctx).stride_of_last hsized le_rfl hlast
    exact ⟨.finish ranges, hstride, hpays⟩
  have hl := hsized.isLevel_level (h.exact current)
  obtain ⟨y, hmid, hyv, hy, hnear⟩ := exists_midpoint ctx hsized hlast
  by_cases hstray : current + 1 < s.stop ∧ 0 < h.factor * (h.asymptote - y.value) ∧
      h.invert ctx (.finite y) = .ok (some current)
  · obtain ⟨hroom, hbeyond, hinv⟩ := hstray
    have hnext : s.level (h.exact current) + s.step h.ascends ≠ s.lastLevel h.ascends :=
      fun heq => hm ⟨hroom, heq, hyv ▸ hbeyond, _, hmid, hinv⟩
    have hreach := hs.reaches_next ha ctx hsized h1 hlt hl hnext hy hyv hbeyond hinv
    refine ⟨.onward ⟨current, current, s.pay (s.level (h.exact current))⟩, ?_, ?_⟩
    · rw [stride_eq hlast hmid (hs.boundary_of_inverse ha ctx hlt hy hnear hinv)]
      simp only [strideTo]
      rw [if_neg (by omega), hreach]
      rfl
    · exact pays_of_level_eq fun x hx hxs => by rw [le_antisymm hxs hx]
  · refine (hs.tracks ha ctx).stepsRight hsized le_rfl (fun y' hmid' _ _ => ?_) fun _ => ?_
    · rw [hmid] at hmid'
      cases hmid'
      rcases lt_or_ge (h.factor * (h.asymptote - y.value)) 0 with hreached | hbeyond
      · exact hs.placed_of_reached ha ctx hlt hy hreached hnear
      · refine hs.placed_of_below ha ctx hy (fun x hx _ => near_of_beyond hK (hs.pole_lt_of_le hx) hbeyond)
          fun c hc => ?_
        obtain ⟨hle, hpos⟩ := hs.inverse_le ha ctx hy hbeyond hc
        by_cases hc' : c = current
        · rw [hc'] at hc ⊢
          by_contra hroom
          exact hstray ⟨by omega, hpos, hc⟩
        · omega
    · exact hs.settled ha ctx hK hlt (hsized.abs_next_le hl h.ascends) (near_next hsized hlast)

/-- The first step of a walk that is misled, and the rest. -/
theorem stride_of_misled (hs : h.On s current) (ha : h.AtScale) (hsized : s.Sized)
    (hm : h.Misled ctx s current) :
    s.stride ctx h.ascends current (s.level (h.exact current)) =
      .ok (.finish [⟨current, current, s.pay (s.level (h.exact current))⟩,
        s.rest (current + 1) (s.lastLevel h.ascends)]) := by
  have hroom := hm.room
  have hlast := hm.level_ne_last hsized
  obtain ⟨middle, hmid, hinv⟩ := hm.inverse
  obtain ⟨y, rfl, -, hy, hnear⟩ := midpoint_inv hsized hlast hmid
  have hreach : s.reaches ctx (s.lastLevel h.ascends) = .ok false := by
    unfold reaches lastLevel
    split <;> simp <;> rfl
  rw [stride_eq hlast hmid (hs.boundary_of_inverse ha ctx (by omega) hy hnear hinv)]
  simp only [strideTo, hm.last]
  rw [if_neg (by omega), hreach]
  rfl

/-- Next to the pole the payouts are so far apart that the direction is told right. -/
theorem directed (hs : h.On s current) (ha : h.AtScale) (ctx : Context) (hlt : current < s.stop)
    (hK : h.factor ≠ 0) (hnear : (current : ℚ) ≤ h.pole + 1) {z z' : Decimal}
    (hz : s.curve.evaluate ctx current = .ok z) (hz' : s.curve.evaluate ctx s.stop = .ok z') :
    z.lt z' = .ok h.ascends := by
  obtain ⟨ascending, hdir, rfl | ⟨hclose, -⟩⟩ := hs.direction ha ctx hlt
  · exact hdir z z' hz hz'
  · have hge := ha.factor_onGrid.le_abs hK
    have hstep : (current : ℚ) + 1 ≤ s.stop := by exact_mod_cast hlt
    have := mul_le_mul_of_nonneg_right hge (show (0 : ℚ) ≤ s.stop - current by linarith)
    linarith

end On

/-- Unless the root lies exactly halfway between two outcomes, the exact root decides on which of them
an inverse beyond the asymptote lands. -/
theorem On.inverse_eq_iff (hs : h.On s current) (ha : h.AtScale) (ctx : Context) (h1 : 1 ≤ current)
    {y : Decimal.Finite} (hy : IsHalfInteger y.value)
    (hbeyond : 0 < h.factor * (h.asymptote - y.value)) (hne : h.overlap y.value current ≠ 0) :
    h.invert ctx (.finite y) = .ok (some current) ↔ 0 < h.overlap y.value current := by
  have hgne := right_ne_zero_of_mul hbeyond.ne'
  have hg0 : 0 < |h.asymptote - y.value| := abs_pos.mpr hgne
  obtain ⟨x', hx', herr⟩ := Hyperbola.invert_eq ha ctx hy hbeyond.ne'
  have hroot : (h.root y.value - (current - 1 / 2)) * |h.asymptote - y.value| =
      h.overlap y.value current := by
    rw [root_sub_mul_of_beyond hbeyond, overlap]
    ring
  have hhalf : OnGrid 16 (h.pole + 1 / 2 - current) :=
    (ha.pole.onGrid.add ⟨5 * 10 ^ 15, by norm_num⟩).sub (OnGrid.intCast 16 current)
  have hgrid := (hhalf.mul (ha.asymptote.onGrid.sub hy.onGrid).abs).sub ha.factor_onGrid.abs
  have hgap : _ ≤ |h.overlap y.value current| := hgrid.le_abs hne
  have hdist : |(x'.value - (current - 1 / 2)) * |h.asymptote - y.value| -
      h.overlap y.value current| ≤ 1 / 10 ^ 37 := by
    rw [← hroot, ← sub_mul, abs_mul, abs_abs, sub_sub_sub_cancel_right]
    exact herr
  have h1' : (1 : ℚ) ≤ current := by exact_mod_cast h1
  rw [abs_le] at hdist
  rw [hx']
  constructor
  · intro hinv
    have hlow := (nearestOutcome?_bounds (Except.ok.inj hinv)).1
    have hprod := mul_nonneg (sub_nonneg.mpr hlow) hg0.le
    by_contra hle
    rw [abs_of_nonpos (by linarith)] at hgap
    norm_num at hgap hdist
    linarith
  · intro hpos
    rw [abs_of_pos hpos] at hgap
    have hprod : 0 < (x'.value - (current - 1 / 2)) * |h.asymptote - y.value| := by
      norm_num at hgap hdist ⊢
      linarith
    have hlow : (current : ℚ) - 1 / 2 < x'.value := by
      have := (mul_pos_iff_of_pos_right hg0).mp hprod
      linarith
    rw [nearestOutcome?_finite, if_pos (by linarith)] at hx' ⊢
    have hle := (hs.inverse_le ha ctx hy hbeyond.le hx').1
    have hge : current ≤ ⌊x'.value + 1 / 2⌋ := Int.le_floor.mpr (by linarith)
    rw [le_antisymm hle hge]

/-- Unless an inverse lies exactly halfway between two outcomes, the coefficients decide whether a walk
is misled. -/
theorem misled_iff (hs : h.On s current) (ha : h.AtScale) (ctx : Context) (hsized : s.Sized)
    (h1 : 1 ≤ current) (hne : h.overlap (h.nextMidpoint s current) current ≠ 0) :
    h.Misled ctx s current ↔ h.Lured s current := by
  unfold nextMidpoint at hne
  constructor
  · intro hm
    obtain ⟨middle, hmid, hinv⟩ := hm.inverse
    obtain ⟨y, rfl, hyv, hy, -⟩ := midpoint_inv hsized (hm.level_ne_last hsized) hmid
    refine ⟨hm.room, hm.last, hm.beyond, ?_⟩
    rw [nextMidpoint, ← hyv]
    exact (hs.inverse_eq_iff ha ctx h1 hy (hyv ▸ hm.beyond) (hyv ▸ hne)).mp hinv
  · rintro ⟨hroom, hlast, hbeyond, hoverlap⟩
    rw [nextMidpoint] at hbeyond hoverlap
    have hnl : s.level (h.exact current) ≠ s.lastLevel h.ascends := by
      have hstep := hsized.step_ne_zero h.ascends
      omega
    obtain ⟨y, hmid, hyv, hy, -⟩ := exists_midpoint ctx hsized hnl
    exact ⟨hroom, hlast, hbeyond, _, hmid,
      (hs.inverse_eq_iff ha ctx h1 hy (hyv ▸ hbeyond) (hyv ▸ hne)).mpr (hyv ▸ hoverlap)⟩

/-! ## Segments next to the pole -/

variable {t : Stretch}

theorem split_of_not_misled (ha : h.AtScale) (ctx : Context) (ht : t.Sized)
    (hon : h.On (t.segmentAt current) current) (h1 : 1 ≤ current) (hlt : current < t.stop)
    (hm : ¬h.Misled ctx (t.segmentAt current) current) :
    ∃ rs, (t.segmentAt current).split ctx current = .ok rs ∧ Pays (t.payout h.exact) rs := by
  by_cases hfar : h.factor ≠ 0 → h.pole + 3 / 4 ≤ current
  · exact split_far ha ctx ht hon hlt hfar
  obtain ⟨hK, hnear⟩ := Classical.not_imp.mp hfar
  have hseg := ht.segmentAt current
  have hend : current < (t.segmentAt current).stop := t.policy.lt_segmentEnd hlt
  have htracks := hon.tracks ha ctx
  -- from the next outcome on every inverse is placed right
  obtain ⟨rs, hrs, hpays⟩ := htracks.climb le_rfl (hon.stepsRight ha ctx hseg hK h1 hend hm) hseg
    fun c hc hcs => by
      have hfar' : h.pole + 3 / 4 ≤ c := by
        have hpole := hon.pole_lt
        have hc' : (current : ℚ) + 1 ≤ c := by exact_mod_cast hc
        linarith
      exact ((hon.mono hc.le).follows ha ctx hK hfar').climb hseg le_rfl hcs
  rw [← htracks.split_eq hseg hend fun z z' => hon.directed ha ctx hend hK (by linarith)] at hrs
  refine ⟨rs, hrs, hpays.congr (Segment.split_covers hseg hend hrs).tiles fun x hx hxs => ?_⟩
  rw [Stretch.payout_eq ht hx hxs]

/-- A walk that is misled pays the last level from the second outcome on. -/
theorem split_of_misled (ha : h.AtScale) (ctx : Context) (ht : t.Sized)
    (hon : h.On (t.segmentAt current) current) (hlt : current < t.stop)
    (hm : h.Misled ctx (t.segmentAt current) current) :
    (t.segmentAt current).split ctx current = .ok [⟨current, current, t.payout h.exact current⟩,
      ⟨current + 1, (t.segmentAt current).stop - 1, if h.ascends then t.collateral else 0⟩] := by
  have hseg := ht.segmentAt current
  have hend : current < (t.segmentAt current).stop := t.policy.lt_segmentEnd hlt
  have hK := left_ne_zero_of_mul hm.beyond.ne'
  rw [(hon.tracks ha ctx).split_eq hseg hend fun z z' => hon.directed ha ctx hend hK ?_,
    climb_of_finish (hon.stride_of_misled ha hseg hm), Stretch.payout_eq ht le_rfl hend]
  · rw [rest, hseg.pay_lastLevel]
    rfl
  · have hbound := hm.near_pole ha hseg
    linarith

/-- Where a walk is misled, no outcome but the first is paid right. -/
theorem payout_ne_of_misled (ha : h.AtScale) (ht : t.Sized)
    (hon : h.On (t.segmentAt current) current) (hm : h.Misled ctx (t.segmentAt current) current) {x : ℤ}
    (hx : current ≤ x) (hxs : x < (t.segmentAt current).stop) :
    t.payout h.exact x ≠ if h.ascends then t.collateral else 0 := by
  have hseg := ht.segmentAt current
  have hl := hseg.isLevel_level (h.exact current)
  have hK := left_ne_zero_of_mul hm.beyond.ne'
  have hlevel : (t.segmentAt current).level (h.exact x) =
      (t.segmentAt current).level (h.exact current) := by
    refine Ahead.antisymm ?_ ((hon.tracks ha ctx).level_ahead hseg le_rfl hx hxs)
    rw [← near_midpoint_iff hseg hl (hm.level_ne_last hseg)]
    exact near_of_beyond hK (hon.pole_lt_of_le hx) hm.beyond.le
  have hpay : (t.segmentAt current).pay ((t.segmentAt current).lastLevel h.ascends) =
      if h.ascends then t.collateral else 0 := hseg.pay_lastLevel h.ascends
  rw [Stretch.payout_eq ht hx hxs, hlevel, ← hpay, Ne,
    hl.pay_inj (hseg.isLevel_lastLevel _) hseg]
  exact hm.level_ne_last hseg

end Hyperbola

end NumericContract
