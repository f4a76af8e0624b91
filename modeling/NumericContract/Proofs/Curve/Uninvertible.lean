import NumericContract.Proofs.Curve.Scale
import NumericContract.Proofs.Staircase.Segments

/-!
# Hyperbolas that cannot be inverted

Where `c` is not zero every inversion fails. A walk that answers all the same has asked for none: each of
its segments begins on the level that is the last in the direction of travel, and all of the segment is
paid that. The direction is told by the two ends alone, so the answer for an outcome inside is the one
for the beginning of its segment, wherever the curve goes in between.
-/

namespace NumericContract

open Decimal PayoutRange

namespace Segment

variable {ctx : Context} {s : Segment} {h : Hyperbola} {ascending : Bool} {current level : ℤ}

/-- Without inverses a step has an answer only on the last level. -/
theorem stride_of_uninvertible (hcurve : s.curve = .hyperbola h) (hc : h.c.isZero = false)
    {result : Stride} (hstride : s.stride ctx ascending current level = .ok result) :
    level = s.lastLevel ascending ∧ result = .finish [s.rest current level] := by
  obtain hlast | ⟨-, middle, boundary?, -, hboundary, -⟩ := stride_eq_ok hstride
  · exact hlast
  · obtain ⟨c?, hinvert, -⟩ := bind_eq_ok.mp hboundary
    rw [hcurve, Curve.invert, Hyperbola.invert_of_c_ne_zero hc] at hinvert
    cases hinvert

/-- The walk takes one step, and its direction is told by the two ends of the segment. -/
theorem split_of_uninvertible (hs : s.Sized) (hcurve : s.curve = .hyperbola h) (hc : h.c.isZero = false)
    {rs : List PayoutRange} (hsplit : s.split ctx current = .ok rs) :
    ∃ value stopValue ascending, s.curve.evaluate ctx current = .ok value ∧
      s.curve.evaluate ctx s.stop = .ok stopValue ∧ value.lt stopValue = .ok ascending ∧
      s.levelAt ctx current = .ok (s.lastLevel ascending) ∧
      rs = [⟨current, s.stop - 1, if ascending then s.collateral else 0⟩] := by
  obtain ⟨value, hvalue, hsplit⟩ := bind_eq_ok.mp hsplit
  obtain ⟨level, hlevel, hsplit⟩ := bind_eq_ok.mp hsplit
  obtain ⟨stopValue, hstop, hsplit⟩ := bind_eq_ok.mp hsplit
  obtain ⟨ascending, hascending, hclimb⟩ := bind_eq_ok.mp hsplit
  obtain ⟨result, hstride⟩ : ∃ result, s.stride ctx ascending current level = .ok result := by
    rw [climb] at hclimb
    split at hclimb
    · cases hclimb
    · exact ⟨_, ‹_›⟩
    · exact ⟨_, ‹_›⟩
  obtain ⟨rfl, rfl⟩ := stride_of_uninvertible hcurve hc hstride
  rw [climb_of_finish hstride] at hclimb
  refine ⟨value, stopValue, ascending, (evaluate_of_curvePayout hvalue).1,
    (evaluate_of_curvePayout hstop).1, Failure.ofArithmetic_eq_ok.mp hascending,
    bind_eq_ok.mpr ⟨value, hvalue, hlevel⟩, ?_⟩
  rw [← Except.ok.inj hclimb, rest, hs.pay_lastLevel]

end Segment

/-- The outcome `b` at which the segment of `x` begins, in which the curve is higher at the end, or is not;
and what the rule for that outcome says. -/
structure Stretch.PaidAs (ctx : Context) (s : Stretch) (start x b : ℤ) (ascending : Bool) : Prop where
  visits : s.Visits start b
  le : b ≤ x
  lt_stop : x < (s.segmentAt b).stop
  direction : ∃ value stopValue, s.curve.evaluate ctx b = .ok value ∧
    s.curve.evaluate ctx (s.segmentAt b).stop = .ok stopValue ∧ value.lt stopValue = .ok ascending
  pointwise : s.pointwise ctx b = .ok (if ascending then s.collateral else 0)

namespace Span

variable {span : Span} {ctx : Context} {collateral : ℤ} {h : Hyperbola} {policy : RoundingPolicy}
  {intervals : List RoundingInterval} {settings : Settings} {ranges : List PayoutRange}

/-- Where `c` is not zero, an answer pays the outcomes of each segment the collateral or nothing: what the
rule says for the first of them, which is the last level in the direction that the two ends of the
segment tell. -/
theorem splitByIntervals_uninvertible (hc : h.c.isZero = false) (hcollateral : collateral < 10 ^ 18)
    (hsize : ∀ interval ∈ intervals, interval.modulus < 10 ^ 18)
    (hpolicy : RoundingPolicy.ofList intervals = .ok policy) (hctx : settings.context = .ok ctx)
    (hsplit : span.splitByIntervals collateral (.hyperbola h) intervals settings = .ok ranges)
    (hwide : 1 < span.last - span.first) :
    ∃ start, (span.stretch collateral (.hyperbola h) policy settings).findStart ctx (span.first + 1) =
        .ok start ∧
      ∀ x, start ≤ x → x < span.last → ∃ b ascending,
        (span.stretch collateral (.hyperbola h) policy settings).PaidAs ctx start x b ascending ∧
        payoutAt? ranges x = some (if ascending then collateral else 0) := by
  obtain ⟨start, hstart, hall⟩ := exists_start hpolicy hctx hsplit hwide
  have hcheck := check_eq_ok_iff.mp (splitByIntervals_eq_ok.mp hsplit).1
  have hs : (span.stretch collateral (.hyperbola h) policy settings).Sized :=
    ⟨sized_ofList hsize hpolicy, hcheck.2.2.1, hcollateral⟩
  refine ⟨start, hstart, fun x hx hxl => ?_⟩
  obtain ⟨b, hb, hbx, hxs⟩ :=
    Stretch.exists_visits (s := span.stretch collateral (.hyperbola h) policy settings) hx hxl
  obtain ⟨steps, hsteps, hpay⟩ := hall b hb
  obtain ⟨value, stopValue, ascending, hvalue, hstop, hdirection, hlevel, rfl⟩ :=
    Segment.split_of_uninvertible (hs.segmentAt b) rfl hc hsteps
  refine ⟨b, ascending, ⟨hb, hbx, hxs, ⟨value, stopValue, hvalue, hstop, hdirection⟩, ?_⟩, ?_⟩
  · rw [Stretch.pointwise_eq_pay hs le_rfl hb.lt_stop hlevel, (hs.segmentAt b).pay_lastLevel]
    rfl
  · rw [hpay x hbx hxs, payoutAt?_cons, if_pos ⟨hbx, by dsimp only; omega⟩]
    rfl

/-- Payouts that fall from five to four and rise to five again. -/
def dip : Hyperbola :=
  ⟨.ofInt 1, .ofInt 0, .ofInt 1, .ofInt 4, .ofInt 0, .ofInt 0, true, Finite.isZero_one⟩

def dipStretch : Stretch :=
  stretch ⟨0, 5, 5, 5⟩ 5 (.hyperbola dip) .unit Settings.standard

theorem splitByIntervals_dip :
    splitByIntervals ⟨0, 5, 5, 5⟩ 5 (.hyperbola dip) [.unit] Settings.standard =
      .ok [⟨0, 5, 5⟩] := by
  decide +kernel

theorem splitByIntervals_uninvertible_dip : ∃ start, dipStretch.findStart ⟨78, by decide⟩ 1 = .ok start ∧
    ∀ x, start ≤ x → x < 5 → ∃ b ascending, dipStretch.PaidAs ⟨78, by decide⟩ start x b ascending ∧
      payoutAt? [⟨0, 5, 5⟩] x = some (if ascending then 5 else 0) :=
  splitByIntervals_uninvertible (by decide) (by decide) (by simp) rfl (by decide) splitByIntervals_dip
    (by decide)

/-- An outcome need not be paid what the rule says, though inversion is not supported. -/
theorem splitByIntervals_dip_wrong :
    dip.Scaled ∧ dip.c.isZero = false ∧
    Span.AtScale ⟨0, 5, 5, 5⟩ 5 [.unit] ∧
    dipStretch.findStart ⟨78, by decide⟩ 1 = .ok 1 ∧
    ∃ ranges, splitByIntervals ⟨0, 5, 5, 5⟩ 5 (.hyperbola dip) [.unit]
        Settings.standard = .ok ranges ∧ payoutAt? ranges 2 = some 5 ∧
      Curve.isDefinedAt ⟨78, by decide⟩ (.hyperbola dip) 2 = .ok true ∧
      dipStretch.pointwise ⟨78, by decide⟩ 2 = .ok 4 :=
  ⟨Hyperbola.scaled_of_digits (by decide), by decide,
    ⟨by decide, by decide, by decide, by decide, by decide, by decide, by decide, by simp⟩,
    by decide +kernel, _, splitByIntervals_dip, by decide, by decide +kernel, by decide +kernel⟩

end Span

end NumericContract
