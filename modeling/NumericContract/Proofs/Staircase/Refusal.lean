import NumericContract.Proofs.Curve.Scale

/-!
# How a split fails

Whatever the curve, a split has an answer or is refused for one of three reasons: the span is none that
the collateral covers, no payout can be told for some of its outcomes, or the curve would have to be
inverted and cannot be. On the way there payouts are compared, rounded and inverted that may be infinite,
undefined or too large to compute with. Nothing is rounded before it is known to be finite, a modulus is
always positive, and arithmetic without a result is itself such a reason.
-/

namespace NumericContract

open Decimal

/-! ## What ends a walk -/

/-- Whether two payouts are compared as both above the collateral or both below zero. -/
def Decimal.OutOfReach (collateral : ℤ) (p q : Decimal) : Prop :=
  ((Decimal.ofInt collateral).lt p = .ok true ∧ (Decimal.ofInt collateral).lt q = .ok true) ∨
    (p.lt (.ofInt 0) = .ok true ∧ q.lt (.ofInt 0) = .ok true)

/-- What may end a walk along a curve between two outcomes, with what must be the case for it: arithmetic
has no result, the payout of an outcome is a NaN, no defined outcome is found in so many steps, the payouts
at two outcomes are out of reach on the same side, or a hyperbola has no inverses. -/
inductive Curve.Halts (ctx : Context) (curve : Curve) (collateral steps low high : ℤ) :
    Failure → Prop where
  | arithmetic (signal : Signal) : Halts ctx curve collateral steps low high (.arithmetic signal)
  | undefinedAt {outcome : ℤ} {value : Decimal} (hlow : low ≤ outcome) (hhigh : outcome ≤ high)
      (hvalue : curve.evaluate ctx outcome = .ok value) (hnan : value.isNaN = true) :
      Halts ctx curve collateral steps low high (.coverage (.undefinedAt outcome))
  | undefinedOn {first last : ℤ} (hlow : low ≤ first) (hle : first ≤ last) (hhigh : last ≤ high)
      (hnone : curve.firstDefined ctx first last steps = .ok none) :
      Halts ctx curve collateral steps low high (.coverage (.undefinedOn first last))
  | neverPayable {first last : ℤ} {p q : Decimal} (hlow : low ≤ first) (hle : first ≤ last)
      (hhigh : last ≤ high) (hfirst : curve.evaluate ctx first = .ok p)
      (hlast : curve.evaluate ctx last = .ok q) (hreach : OutOfReach collateral p q) :
      Halts ctx curve collateral steps low high (.coverage (.neverPayable first last collateral))
  | noInverse {h : Hyperbola} (hcurve : curve = .hyperbola h) (hc : h.c.isZero = false) :
      Halts ctx curve collateral steps low high .unsupportedInversion

theorem Curve.Halts.integers_bounds {ctx : Context} {curve : Curve} {collateral steps low high : ℤ}
    {failure : Failure} (h : curve.Halts ctx collateral steps low high failure) :
    ∀ n ∈ failure.integers, (low ≤ n ∧ n ≤ high) ∨ n = collateral := by
  cases h <;> simp [Failure.integers, CoverageFault.integers] <;> omega

theorem Curve.invert_failsOnly (ctx : Context) (curve : Curve) (collateral steps low high : ℤ)
    (payout : Decimal) : FailsOnly (curve.Halts ctx collateral steps low high) (curve.invert ctx payout) := by
  cases curve with
  | line l => exact FailsOnly.ofArithmetic .arithmetic
  | hyperbola h =>
      cases hc : h.c.isZero with
      | false =>
          rw [Curve.invert, Hyperbola.invert_of_c_ne_zero hc]
          exact FailsOnly.error (.noInverse rfl hc)
      | true =>
          rw [Curve.invert, Hyperbola.invert_of_c_zero hc]
          cases h.inverse? ctx.widened payout with
          | error signal => exact FailsOnly.error (.arithmetic signal)
          | ok place? => exact FailsOnly.ok _

namespace Segment

variable {ctx : Context} {s : Segment} {ascending : Bool} {steps low high current level : ℤ}

theorem curvePayout_failsOnly (hlow : low ≤ current) (hhigh : current ≤ high) :
    FailsOnly (s.curve.Halts ctx s.collateral steps low high) (s.curvePayout ctx current) := by
  refine FailsOnly.bind (FailsOnly.ofArithmetic .arithmetic) fun value hvalue => ?_
  split
  · next hnan =>
    exact FailsOnly.error (.undefinedAt hlow hhigh (Failure.ofArithmetic_eq_ok.mp hvalue) hnan)
  · exact FailsOnly.ok _

/-- A payout that is no NaN has a level: an infinite one without rounding, and a finite one is rounded to
a modulus that is positive. -/
theorem levelOf_failsOnly (hm : 0 < s.modulus) {value : Decimal} (hvalue : value.isNaN = false) :
    FailsOnly (s.curve.Halts ctx s.collateral steps low high) (s.levelOf ctx value) := by
  cases value with
  | nan => cases hvalue
  | infinity negative => exact FailsOnly.ok _
  | finite x =>
      refine FailsOnly.bind ?_ fun k _ => FailsOnly.ok _
      rw [roundToMultiple, if_neg (by omega)]
      exact FailsOnly.ofArithmetic .arithmetic

theorem levelAt_failsOnly (hm : 0 < s.modulus) (hlow : low ≤ current) (hhigh : current ≤ high) :
    FailsOnly (s.curve.Halts ctx s.collateral steps low high) (s.levelAt ctx current) :=
  (curvePayout_failsOnly hlow hhigh).bind fun _ hvalue =>
    levelOf_failsOnly hm (evaluate_of_curvePayout hvalue).2

theorem boundary_failsOnly (middle : Decimal) :
    FailsOnly (s.curve.Halts ctx s.collateral steps low high) (s.boundary ctx middle ascending) := by
  refine (Curve.invert_failsOnly ctx s.curve s.collateral steps low high middle).bind fun candidate? _ => ?_
  cases candidate? with
  | none => exact FailsOnly.ok _
  | some candidate =>
      refine FailsOnly.bind (FailsOnly.ofArithmetic .arithmetic) fun value _ => ?_
      split
      · exact FailsOnly.ok _
      · split
        · exact FailsOnly.bind (FailsOnly.ofArithmetic .arithmetic) fun crossed _ => FailsOnly.ok _
        · exact FailsOnly.bind (FailsOnly.ofArithmetic .arithmetic) fun crossed _ => FailsOnly.ok _

theorem reaches_failsOnly :
    FailsOnly (s.curve.Halts ctx s.collateral steps low high) (s.reaches ctx level) := by
  unfold reaches
  split
  · exact FailsOnly.ok _
  · refine (Curve.invert_failsOnly ctx s.curve s.collateral steps low high _).bind fun outcome? _ => ?_
    cases outcome? with
    | none => exact FailsOnly.ok _
    | some outcome => exact FailsOnly.ok _

theorem strideTo_failsOnly (boundary? : Option ℤ) : FailsOnly (s.curve.Halts ctx s.collateral steps low high)
    (s.strideTo ctx ascending current level boundary?) := by
  cases boundary? with
  | none => exact FailsOnly.ok _
  | some last =>
      simp only [strideTo]
      split
      · exact FailsOnly.ok _
      · refine reaches_failsOnly.bind fun reached _ => ?_
        split
        · exact FailsOnly.ok _
        · exact FailsOnly.ok _

theorem stride_failsOnly : FailsOnly (s.curve.Halts ctx s.collateral steps low high)
    (s.stride ctx ascending current level) := by
  unfold stride
  split
  · exact FailsOnly.ok _
  · refine FailsOnly.bind (FailsOnly.ofArithmetic .arithmetic) fun middle _ => ?_
    exact (boundary_failsOnly middle).bind fun boundary? _ => strideTo_failsOnly boundary?

/-- A walk goes on only before the end of its segment, so it asks for no payout beyond that. -/
theorem climb_failsOnly (hm : 0 < s.modulus) (hlow : low ≤ current) (hhigh : s.stop ≤ high) :
    FailsOnly (s.curve.Halts ctx s.collateral steps low high) (s.climb ctx ascending current level) := by
  fun_induction climb ctx s ascending current level with
  | case1 current level failure hstride => exact FailsOnly.error (stride_failsOnly _ hstride)
  | case2 current level ranges hstride => exact FailsOnly.ok _
  | case3 current level r hstride ih =>
      obtain ⟨-, -, hle, hlt⟩ := stride_onward hstride
      refine (levelAt_failsOnly hm (by omega) (by omega)).bind fun next _ => ?_
      exact (ih next (by omega)).bind fun steps _ => FailsOnly.ok _

theorem split_failsOnly (hm : 0 < s.modulus) (hlow : low ≤ current) (hcur : current < s.stop)
    (hhigh : s.stop ≤ high) :
    FailsOnly (s.curve.Halts ctx s.collateral steps low high) (s.split ctx current) := by
  refine (curvePayout_failsOnly hlow (by omega)).bind fun value hvalue => ?_
  refine (levelOf_failsOnly hm (evaluate_of_curvePayout hvalue).2).bind fun level _ => ?_
  refine (curvePayout_failsOnly (by omega) hhigh).bind fun stopValue _ => ?_
  refine FailsOnly.bind (FailsOnly.ofArithmetic .arithmetic) fun ascending _ => ?_
  exact climb_failsOnly hm hlow hhigh

end Segment

namespace Stretch

variable {ctx : Context} {s : Stretch} {low high first start last current : ℤ}

theorem checkPayable_failsOnly (hlow : low ≤ start) (hle : start ≤ last) (hhigh : last ≤ high) :
    FailsOnly (s.curve.Halts ctx s.collateral s.scanSteps low high) (s.checkPayable ctx start last) := by
  refine FailsOnly.bind (FailsOnly.ofArithmetic .arithmetic) fun p hfirst => ?_
  refine FailsOnly.bind (FailsOnly.ofArithmetic .arithmetic) fun q hlast => ?_
  split
  · exact FailsOnly.ok _
  refine FailsOnly.bind (FailsOnly.ofArithmetic .arithmetic) fun above hp => ?_
  refine FailsOnly.bind (FailsOnly.ofArithmetic .arithmetic) fun above' hq => ?_
  refine FailsOnly.bind (FailsOnly.ofArithmetic .arithmetic) fun below hp' => ?_
  refine FailsOnly.bind (FailsOnly.ofArithmetic .arithmetic) fun below' hq' => ?_
  dsimp only
  split
  · next hreach =>
    refine FailsOnly.error (.neverPayable hlow hle hhigh (Failure.ofArithmetic_eq_ok.mp hfirst)
      (Failure.ofArithmetic_eq_ok.mp hlast) ?_)
    simp only [Bool.or_eq_true, Bool.and_eq_true] at hreach
    obtain ⟨rfl, rfl⟩ | ⟨rfl, rfl⟩ := hreach
    · exact Or.inl ⟨Failure.ofArithmetic_eq_ok.mp hp, Failure.ofArithmetic_eq_ok.mp hq⟩
    · exact Or.inr ⟨Failure.ofArithmetic_eq_ok.mp hp', Failure.ofArithmetic_eq_ok.mp hq'⟩
  · exact FailsOnly.ok _

theorem findStart_failsOnly (hlow : low ≤ first) (hfirst : first < s.stop) (hhigh : s.stop ≤ high) :
    FailsOnly (s.curve.Halts ctx s.collateral s.scanSteps low high) (s.findStart ctx first) := by
  refine FailsOnly.bind (FailsOnly.ofArithmetic .arithmetic) fun start? hstart => ?_
  have hstart := Failure.ofArithmetic_eq_ok.mp hstart
  cases start? with
  | none => exact FailsOnly.error (.undefinedOn hlow (by omega) (by omega) hstart)
  | some start =>
      obtain ⟨hle, hlast⟩ := Curve.firstDefined_bounds hstart
      exact (checkPayable_failsOnly (hlow.trans hle) hlast (by omega)).bind fun _ _ => FailsOnly.ok _

theorem lead_failsOnly (hlow : low ≤ start) (hhigh : start ≤ high) :
    FailsOnly (s.curve.Halts ctx s.collateral s.scanSteps low high) (s.lead ctx first start) := by
  unfold lead
  split
  · have hm : 0 < (s.segmentAt start).modulus := s.policy.modulusAt_pos start
    exact (Segment.levelAt_failsOnly (s := s.segmentAt start) hm hlow hhigh).bind fun _ _ =>
      FailsOnly.ok _
  · exact FailsOnly.ok _

theorem splitFrom_failsOnly (hlow : low ≤ current) (hhigh : s.stop ≤ high) :
    FailsOnly (s.curve.Halts ctx s.collateral s.scanSteps low high) (s.splitFrom ctx current) := by
  fun_induction splitFrom ctx s current with
  | case1 current hlt ih =>
      have hm : 0 < (s.segmentAt current).modulus := s.policy.modulusAt_pos current
      have hend : current < (s.segmentAt current).stop := s.policy.lt_segmentEnd hlt
      have hstop : (s.segmentAt current).stop ≤ s.stop := s.policy.segmentEnd_le current s.stop
      refine (Segment.split_failsOnly (s := s.segmentAt current) hm hlow hend
        (hstop.trans hhigh)).bind fun steps _ => ?_
      exact (ih (by omega)).bind fun rest _ => FailsOnly.ok _
  | case2 current hge => exact FailsOnly.ok _

theorem split_failsOnly (hlow : low ≤ first) (hfirst : first < s.stop) (hhigh : s.stop ≤ high) :
    FailsOnly (s.curve.Halts ctx s.collateral s.scanSteps low high) (s.split ctx first) := by
  refine (findStart_failsOnly hlow hfirst hhigh).bind fun start hstart => ?_
  obtain ⟨hle, hlt⟩ := findStart_bounds hstart
  refine (lead_failsOnly (by omega) (by omega)).bind fun lead _ => ?_
  exact (splitFrom_failsOnly (by omega) hhigh).bind fun steps _ => FailsOnly.ok _

end Stretch

/-! ## What a split is refused for -/

namespace Span

variable {span : Span} {collateral : ℤ} {curve : Curve}

def integers (span : Span) (collateral : ℤ) : List ℤ :=
  [span.first, span.last, span.firstPayout, span.lastPayout, collateral]

theorem check_failsOnly (span : Span) (collateral : ℤ) :
    FailsOnly (fun failure => ∃ fault, failure = .domain fault ∧ fault.integers ⊆ span.integers collateral)
      (span.check collateral) := by
  unfold check
  split_ifs
  all_goals first
    | exact FailsOnly.ok _
    | exact FailsOnly.error ⟨_, rfl, by simp [DomainFault.integers, integers]⟩

/-- What a split may be refused for: the span itself or, if it has an inside, what ends the walk along it.
Arithmetic without a result is told as what it means for the span. -/
inductive Refusal (span : Span) (ctx : Context) (s : Stretch) : Failure → Prop where
  | invalidDomain {fault : DomainFault} (hcheck : span.check s.collateral = .error (.domain fault)) :
      Refusal span ctx s (.domain fault)
  | arithmetic {signal : Signal} (hcheck : span.check s.collateral = .ok ())
      (hwide : 1 < span.last - span.first)
      (hsplit : s.split ctx (span.first + 1) = .error (.arithmetic signal)) :
      Refusal span ctx s (.coverage (.arithmetic span.first span.last signal))
  | noValidOutcome {fault : CoverageFault} (hcheck : span.check s.collateral = .ok ())
      (hwide : 1 < span.last - span.first)
      (hhalts : s.curve.Halts ctx s.collateral s.scanSteps span.first span.last (.coverage fault)) :
      Refusal span ctx s (.coverage fault)
  | unsupportedInversion {h : Hyperbola} (hcheck : span.check s.collateral = .ok ())
      (hwide : 1 < span.last - span.first) (hcurve : s.curve = .hyperbola h) (hc : h.c.isZero = false) :
      Refusal span ctx s .unsupportedInversion

theorem interior_failsOnly {ctx : Context} {s : Stretch} (hstop : s.stop = span.last)
    (hcheck : span.check s.collateral = .ok ()) :
    FailsOnly (span.Refusal ctx s) (span.interior ctx s) := by
  unfold interior
  split
  · exact FailsOnly.ok _
  next hnarrow =>
  have hwide : 1 < span.last - span.first := not_le.mp hnarrow
  have hhalts : FailsOnly (s.curve.Halts ctx s.collateral s.scanSteps span.first span.last)
      (s.split ctx (span.first + 1)) :=
    Stretch.split_failsOnly (by omega) (by omega) hstop.le
  cases hsplit : s.split ctx (span.first + 1) with
  | ok steps => exact FailsOnly.ok _
  | error failure =>
      have hfailure := hhalts failure hsplit
      cases failure with
      | arithmetic signal => exact FailsOnly.error (.arithmetic hcheck hwide hsplit)
      | coverage fault => exact FailsOnly.error (.noValidOutcome hcheck hwide hfailure)
      | unsupportedInversion =>
          cases hfailure with
          | noInverse hcurve hc => exact FailsOnly.error (.unsupportedInversion hcheck hwide hcurve hc)
      | _ => cases hfailure

theorem splitByIntervals_failsOnly {ctx : Context} {policy : RoundingPolicy}
    {intervals : List RoundingInterval} {settings : Settings} (hctx : settings.context = .ok ctx)
    (hpolicy : RoundingPolicy.ofList intervals = .ok policy) :
    FailsOnly (span.Refusal ctx (span.stretch collateral curve policy settings))
      (span.splitByIntervals collateral curve intervals settings) := by
  unfold splitByIntervals
  cases hcheck : span.check collateral with
  | error failure =>
      obtain ⟨fault, rfl, -⟩ := check_failsOnly span collateral failure hcheck
      exact FailsOnly.error (.invalidDomain hcheck)
  | ok =>
      rw [hpolicy]
      change FailsOnly _ (span.split collateral curve policy settings)
      unfold Span.split
      rw [hcheck, hctx]
      exact (interior_failsOnly (s := span.stretch collateral curve policy settings) rfl hcheck).bind
        fun _ _ => FailsOnly.ok _

theorem isWritable_of_abs_lt {n : ℤ} (h : |n| < 10 ^ 4000) : isWritable n = true := by
  have hdigits : (10 : ℤ) ^ 4000 ≤ 10 ^ Text.maxIntegerDigits :=
    pow_le_pow_right₀ (by norm_num) (by decide)
  rw [isWritable, decide_eq_true_eq, Magnitude.tenPower_eq]
  zify
  exact h.trans_le hdigits

/-- The message of a refusal speaks of the collateral and of outcomes and payouts of the span, so it can be
written out if they can. -/
theorem Refusal.reported_eq {ctx : Context} {s : Stretch} {failure : Failure}
    (h : span.Refusal ctx s failure) (hsize : ∀ n ∈ span.integers s.collateral, |n| < 10 ^ 4000) :
    failure.reported = failure := by
  have hbetween : ∀ n, (span.first ≤ n ∧ n ≤ span.last) ∨ n = s.collateral → |n| < 10 ^ 4000 := by
    rintro n (⟨hfirst, hlast⟩ | rfl)
    · exact (abs_le_max_abs_abs hfirst hlast).trans_lt
        (max_lt (hsize _ (by simp [integers])) (hsize _ (by simp [integers])))
    · exact hsize _ (by simp [integers])
  refine Failure.reported_eq_self fun n hn => isWritable_of_abs_lt ?_
  cases h with
  | invalidDomain hcheck =>
      obtain ⟨_, ⟨⟩, hfault⟩ := check_failsOnly span s.collateral _ hcheck
      exact hsize n (hfault hn)
  | arithmetic hcheck hwide hsplit =>
      simp only [Failure.integers, CoverageFault.integers, List.mem_cons, List.not_mem_nil, or_false] at hn
      exact hbetween n (by omega)
  | noValidOutcome hcheck hwide hhalts => exact hbetween n (hhalts.integers_bounds n hn)
  | unsupportedInversion => cases hn

/-- A split fails in three families only. Whatever the payouts of a line, the exponents and the moduli,
there is an answer or the span is refused, and the refusal can be written out. -/
theorem splitByIntervals_closed (span : Span) (collateral : ℤ) (curve : Curve)
    (intervals : List RoundingInterval) (settings : Settings) (hne : intervals ≠ [])
    (hprec : settings.precision ≤ 10 ^ 6) (hsize : ∀ n ∈ span.integers collateral, |n| < 10 ^ 4000) :
    ∃ ctx, settings.context = .ok ctx ∧
      ((∃ ranges, span.splitByIntervals collateral curve intervals settings = .ok ranges) ∨
      ∃ failure, span.splitByIntervals collateral curve intervals settings = .error failure ∧
        span.Refusal ctx (span.stretch collateral curve (.ofNonempty intervals hne) settings) failure ∧
        failure.family? ∈ [some "InvalidDomain", some "NoValidOutcome", some "UnsupportedInversion"]) := by
  obtain ⟨ctx, hctx⟩ := Settings.context_succeeds hprec
  have hpolicy := RoundingPolicy.ofList_eq_ok.mpr ⟨hne, rfl⟩
  refine ⟨ctx, hctx, ?_⟩
  cases hsplit : span.splitByIntervals collateral curve intervals settings with
  | ok ranges => exact Or.inl ⟨ranges, rfl⟩
  | error failure =>
      have hrefusal := splitByIntervals_failsOnly hctx hpolicy failure hsplit
      refine Or.inr ⟨failure, rfl, hrefusal, ?_⟩
      rw [Failure.family?, hrefusal.reported_eq hsize]
      cases hrefusal <;> simp [Failure.causeFamily?]

def signalingLine : Curve := .line ⟨⟨0, .nan true false 0⟩, ⟨10, .ofInt 5⟩, by decide⟩

/-- The signal is not passed on: the span is refused as one without a payable outcome. -/
theorem splitByIntervals_signalingLine :
    splitByIntervals ⟨0, 10, 0, 5⟩ 5 signalingLine [.unit] Settings.standard =
      .error (.coverage (.arithmetic 0 10 .invalidOperation)) := by
  decide +kernel

theorem splitByIntervals_closed_signaling : ∃ failure,
    splitByIntervals ⟨0, 10, 0, 5⟩ 5 signalingLine [.unit] Settings.standard = .error failure ∧
      Refusal ⟨0, 10, 0, 5⟩ ⟨78, by decide⟩
        (stretch ⟨0, 10, 0, 5⟩ 5 signalingLine .unit Settings.standard) failure ∧
      failure.family? ∈ [some "InvalidDomain", some "NoValidOutcome", some "UnsupportedInversion"] := by
  have hsize : ∀ n ∈ integers ⟨0, 10, 0, 5⟩ 5, |n| < 10 ^ 2 := by decide
  have hpow : (10 : ℤ) ^ 2 ≤ 10 ^ 4000 := pow_le_pow_right₀ (by norm_num) (by norm_num)
  obtain ⟨ctx, hctx, ⟨ranges, hranges⟩ | hrefused⟩ := splitByIntervals_closed ⟨0, 10, 0, 5⟩ 5 signalingLine
    [.unit] .standard (by simp) (by decide) fun n hn => (hsize n hn).trans_le hpow
  · rw [splitByIntervals_signalingLine] at hranges
    cases hranges
  · cases hctx
    exact hrefused

end Span

end NumericContract
