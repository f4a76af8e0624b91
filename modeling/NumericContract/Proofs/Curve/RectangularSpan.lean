import NumericContract.Proofs.Curve.NextToPole

/-!
# Spans along a rectangular hyperbola

A span pays the exact payouts right of the pole, rounded and limited to what the collateral covers,
and up to the first outcome there it pays what that one is paid. An integer pole is at least an
outcome away from every outcome right of it, so that no walk is misled. Next to any other pole the
walk along the first segment may be, and then no other outcome of that segment is paid right.
-/

namespace NumericContract

open Decimal PayoutRange Segment

namespace Span

variable {span : Span} {collateral : ℤ} {h : Hyperbola} {intervals : List RoundingInterval}
  {settings : Settings} {ctx : Context}

def startRightOf (span : Span) (h : Hyperbola) : ℤ := max (span.first + 1) (⌊h.pole⌋ + 1)

/-- Whether the inside of a span has no outcome right of the pole, or is paid above the collateral or
below zero at both ends of what lies there. -/
def HyperbolaBlocked (span : Span) (collateral : ℤ) (h : Hyperbola) : Prop :=
  1 < span.last - span.first ∧ (span.last ≤ span.startRightOf h ∨
    Blocked collateral (h.exact (span.startRightOf h)) (h.exact (span.last - 1)))

def hyperbolaFault (span : Span) (collateral : ℤ) (h : Hyperbola) : CoverageFault :=
  if span.last ≤ span.startRightOf h then .undefinedOn (span.first + 1) (span.last - 1)
  else .neverPayable (span.startRightOf h) (span.last - 1) collateral

theorem pole_lt_startRightOf (span : Span) (h : Hyperbola) : h.pole < span.startRightOf h := by
  have hfloor := Int.lt_floor_add_one h.pole
  have hle : ((⌊h.pole⌋ + 1 : ℤ) : ℚ) ≤ span.startRightOf h := by exact_mod_cast le_max_right _ _
  push_cast at hle
  linarith

theorem firstDefined_hyperbola (ha : h.AtScale) (ctx : Context) (span : Span) (steps : ℤ) :
    (Curve.hyperbola h).firstDefined ctx (span.first + 1) (span.last - 1) steps =
      .ok (if span.startRightOf h ≤ span.last - 1 then some (span.startRightOf h) else none) := by
  have hb : h.b.isZero = true := (Finite.isZero_iff _).mpr ha.b_eq
  rw [Hyperbola.firstDefined_eq hb, Hyperbola.firstRightOf, h.firstAfterPole_eq]
  rfl

theorem on_segmentAt (hscale : span.AtScale collateral intervals) (policy : RoundingPolicy) {x : ℤ}
    (hx : span.startRightOf h ≤ x) :
    h.On ((span.stretch collateral (.hyperbola h) policy settings).segmentAt x) x := by
  have h0 := hscale.first_nonneg
  have hfirst : span.first + 1 ≤ span.startRightOf h := le_max_left _ _
  have hend := policy.segmentEnd_le x span.last
  have hx' : (span.startRightOf h : ℚ) ≤ x := by exact_mod_cast hx
  exact ⟨rfl, by omega, (span.pole_lt_startRightOf h).trans_le hx', hend.trans hscale.last_lt.le⟩

/-- Where the walk along a rectangular hyperbola begins, and why it may not. -/
theorem findStart_hyperbola (ha : h.AtScale) (hscale : span.AtScale collateral intervals)
    (hne : intervals ≠ []) (settings : Settings) (ctx : Context) (hwide : 1 < span.last - span.first) :
    let s := span.stretch collateral (.hyperbola h) (.ofNonempty intervals hne) settings
    (span.HyperbolaBlocked collateral h →
      s.findStart ctx (span.first + 1) = .error (.coverage (span.hyperbolaFault collateral h))) ∧
    (¬span.HyperbolaBlocked collateral h →
      s.findStart ctx (span.first + 1) = .ok (span.startRightOf h) ∧ span.startRightOf h < span.last) := by
  intro s
  have hdefined := firstDefined_hyperbola ha ctx span settings.scanSteps
  by_cases hlate : span.last ≤ span.startRightOf h
  · rw [if_neg (by omega)] at hdefined
    refine ⟨fun _ => ?_, fun hfree => absurd ⟨hwide, Or.inl hlate⟩ hfree⟩
    have hstart : s.findStart ctx (span.first + 1) =
        .error (.coverage (.undefinedOn (span.first + 1) (span.last - 1))) :=
      Stretch.findStart_eq_undefined hdefined
    rw [hstart, hyperbolaFault, if_pos hlate]
  · rw [if_pos (by omega)] at hdefined
    have hon : h.On (s.segmentAt (span.startRightOf h)) (span.startRightOf h) :=
      on_segmentAt hscale _ le_rfl
    have h0 := hscale.first_nonneg
    have hlast := hscale.last_lt
    have hfirst : span.first + 1 ≤ span.startRightOf h := le_max_left _ _
    have hpole : h.pole < (span.last - 1 : ℤ) := hon.pole_lt_of_le (by omega)
    obtain ⟨z, hz, hsharp, -⟩ := Hyperbola.evaluate_sharp ha ctx hon.pole_lt (by omega) (by omega)
    obtain ⟨z', hz', hsharp', -⟩ := Hyperbola.evaluate_sharp ha ctx hpole (by omega) (by omega)
    obtain ⟨hblocked, hfree⟩ := Stretch.findStart_of_sharp (s := s)
      (hscale.sized (.hyperbola h) settings hne) hdefined hz hz' hsharp hsharp'
    refine ⟨fun hb => ?_, fun hb => ⟨hfree fun hb' => hb ⟨hwide, Or.inr hb'⟩, by omega⟩⟩
    rw [hblocked (hb.2.resolve_left hlate), hyperbolaFault, if_neg hlate]
    rfl

theorem segmentsPay_hyperbola (ha : h.AtScale) (hscale : span.AtScale collateral intervals)
    (hne : intervals ≠ []) (settings : Settings) (ctx : Context) {x : ℤ}
    (hx : span.startRightOf h + 1 ≤ x) :
    (span.stretch collateral (.hyperbola h) (.ofNonempty intervals hne) settings).SegmentsPay ctx
      ((span.stretch collateral (.hyperbola h) (.ofNonempty intervals hne) settings).payout h.exact) x := by
  refine Stretch.segmentsPay_of_forall fun y hy hyl => ?_
  have hpole := span.pole_lt_startRightOf h
  have hy' : (span.startRightOf h : ℚ) + 1 ≤ y := by exact_mod_cast hx.trans hy
  exact Hyperbola.split_far ha ctx (hscale.sized _ _ hne) (on_segmentAt hscale _ (by omega)) hyl
    fun _ => by linarith

def firstSegment (span : Span) (collateral : ℤ) (h : Hyperbola) (policy : RoundingPolicy)
    (settings : Settings) : Segment :=
  (span.stretch collateral (.hyperbola h) policy settings).segmentAt (span.startRightOf h)

theorem splitByIntervals_of_start (ha : h.AtScale) (hscale : span.AtScale collateral intervals)
    (hne : intervals ≠ []) (hctx : settings.context = .ok ctx) (hwide : 1 < span.last - span.first)
    (hfree : ¬span.HyperbolaBlocked collateral h) {f : ℤ → ℤ}
    (hpay : (span.stretch collateral (.hyperbola h) (.ofNonempty intervals hne) settings).SegmentsPay
      ctx f (span.startRightOf h))
    (hf : (span.stretch collateral (.hyperbola h) (.ofNonempty intervals hne) settings).payout h.exact
      (span.startRightOf h) = f (span.startRightOf h)) :
    ∃ ranges, span.splitByIntervals collateral (.hyperbola h) intervals settings = .ok ranges ∧
      ∀ x, span.first < x → x < span.last → payoutAt? ranges x = some (f (max (span.startRightOf h) x)) := by
  have hpolicy := RoundingPolicy.ofList_eq_ok.mpr ⟨hne, rfl⟩
  have hs := hscale.sized (.hyperbola h) settings hne
  obtain ⟨hstart, hlt⟩ := (findStart_hyperbola ha hscale hne settings ctx hwide).2 hfree
  have hend := RoundingPolicy.lt_segmentEnd (.ofNonempty intervals hne) hlt
  have hon : h.On (span.firstSegment collateral h (.ofNonempty intervals hne) settings)
      (span.startRightOf h) := on_segmentAt hscale _ le_rfl
  refine splitByIntervals_of_segmentsPay hscale.check hpolicy hctx hs hwide hstart hpay
    ((hon.tracks ha ctx).levelAt (hs.segmentAt _) le_rfl hend.le) ?_
  rw [← hf]
  exact (Stretch.payout_eq hs le_rfl hend).symm

/-- A walk that is not misled pays the exact payouts. -/
theorem splitByIntervals_of_not_misled (ha : h.AtScale) (hscale : span.AtScale collateral intervals)
    (hne : intervals ≠ []) (hctx : settings.context = .ok ctx)
    (hfree : ¬span.HyperbolaBlocked collateral h)
    (hm : ¬h.Misled ctx (span.firstSegment collateral h (.ofNonempty intervals hne) settings)
      (span.startRightOf h)) :
    ∃ ranges, span.splitByIntervals collateral (.hyperbola h) intervals settings = .ok ranges ∧
      ∀ x, span.first < x → x < span.last → payoutAt? ranges x =
        some ((span.stretch collateral (.hyperbola h) (.ofNonempty intervals hne) settings).payout
          h.exact (max (span.startRightOf h) x)) := by
  by_cases hwide : 1 < span.last - span.first
  · have hlt := ((findStart_hyperbola ha hscale hne settings ctx hwide).2 hfree).2
    have hend := RoundingPolicy.lt_segmentEnd (.ofNonempty intervals hne) hlt
    have h1 : 1 ≤ span.startRightOf h := by
      have h0 := hscale.first_nonneg
      have hfirst : span.first + 1 ≤ span.startRightOf h := le_max_left _ _
      omega
    refine splitByIntervals_of_start ha hscale hne hctx hwide hfree ?_ rfl
    exact Stretch.SegmentsPay.cons hlt
      (Hyperbola.split_of_not_misled ha ctx (hscale.sized _ _ hne) (on_segmentAt hscale _ le_rfl) h1 hlt hm)
      (segmentsPay_hyperbola ha hscale hne settings ctx hend)
  · refine ⟨_, splitByIntervals_of_narrow hscale.check (RoundingPolicy.ofList_eq_ok.mpr ⟨hne, rfl⟩) hctx
      (by omega), fun x hx hxl => ?_⟩
    omega

/-- A walk that is misled pays the last level on the first segment, but for the first outcome. -/
theorem splitByIntervals_of_misled (ha : h.AtScale) (hscale : span.AtScale collateral intervals)
    (hne : intervals ≠ []) (hctx : settings.context = .ok ctx)
    (hfree : ¬span.HyperbolaBlocked collateral h)
    (hm : h.Misled ctx (span.firstSegment collateral h (.ofNonempty intervals hne) settings)
      (span.startRightOf h)) :
    ∃ ranges, span.splitByIntervals collateral (.hyperbola h) intervals settings = .ok ranges ∧
      ∀ x, span.startRightOf h ≤ x → x < span.last → payoutAt? ranges x =
        some (if span.startRightOf h < x ∧
            x < (span.firstSegment collateral h (.ofNonempty intervals hne) settings).stop then
          if h.ascends then collateral else 0
        else (span.stretch collateral (.hyperbola h) (.ofNonempty intervals hne) settings).payout
          h.exact x) := by
  have hs := hscale.sized (.hyperbola h) settings hne
  have hfirst : span.first + 1 ≤ span.startRightOf h := le_max_left _ _
  have hroom := hm.room
  have hstop : (span.firstSegment collateral h (.ofNonempty intervals hne) settings).stop ≤ span.last :=
    RoundingPolicy.segmentEnd_le _ _ _
  have hlt : span.startRightOf h < span.last := by omega
  -- what the walk pays at each outcome
  let paid : ℤ → ℤ := fun x =>
    if span.startRightOf h < x ∧
        x < (span.firstSegment collateral h (.ofNonempty intervals hne) settings).stop then
      if h.ascends then collateral else 0
    else (span.stretch collateral (.hyperbola h) (.ofNonempty intervals hne) settings).payout h.exact x
  have hpaid : (span.stretch collateral (.hyperbola h) (.ofNonempty intervals hne) settings).payout
      h.exact (span.startRightOf h) = paid (span.startRightOf h) := (if_neg (by omega)).symm
  have hsplit := Hyperbola.split_of_misled ha ctx hs (on_segmentAt hscale _ le_rfl) hlt hm
  have hrest := segmentsPay_hyperbola ha hscale hne settings ctx (x := (span.firstSegment collateral h
    (.ofNonempty intervals hne) settings).stop) (by omega)
  have hpay := Stretch.SegmentsPay.cons hlt ⟨_, hsplit, fun r hr x hx hxr => (?_ : r.payout = paid x)⟩
    (hrest.congr hs hstop fun x hx _ => (if_neg (by omega)).symm)
  · obtain ⟨ranges, hranges, hpays⟩ :=
      splitByIntervals_of_start ha hscale hne hctx (by omega) hfree hpay hpaid
    refine ⟨ranges, hranges, fun x hx hxl => ?_⟩
    rw [hpays x (by omega) hxl, max_eq_right hx]
  · rcases List.mem_pair.mp hr with rfl | rfl
    · dsimp only at hx hxr ⊢
      rw [le_antisymm hxr hx, hpaid]
    · dsimp only at hx hxr ⊢
      exact (if_pos ⟨by omega, Int.lt_of_le_sub_one hxr⟩).symm

/-! ## Integer poles -/

/-- An integer pole is too far from where the walk begins to mislead it. -/
theorem not_misled {pole : ℤ} (hscale : span.AtScale collateral intervals) (ha : h.AtScale)
    (hne : intervals ≠ []) (hpole : h.pole = pole) :
    ¬h.Misled ctx (span.firstSegment collateral h (.ofNonempty intervals hne) settings)
      (span.startRightOf h) := by
  intro hm
  have hnear := hm.near_pole ha ((hscale.sized _ _ hne).segmentAt _)
  have hright : ((⌊h.pole⌋ + 1 : ℤ) : ℚ) ≤ span.startRightOf h := by exact_mod_cast le_max_right _ _
  rw [hpole, Int.floor_intCast] at hright
  rw [hpole] at hnear
  push_cast at hright
  linarith

/-- Along a rectangular hyperbola with an integer pole the answer is the same for all settings: the
exact payouts right of the pole, rounded to the nearest multiples and limited to what the collateral
covers, and before them what the first of them is paid; unless no outcome lies there, or the curve lies
on one side of what can be paid at both ends. -/
theorem splitByIntervals_rectangular {policy : RoundingPolicy} {pole : ℤ}
    (hscale : span.AtScale collateral intervals) (ha : h.AtScale) (hpole : h.pole = pole)
    (hpolicy : RoundingPolicy.ofList intervals = .ok policy) :
    span.startRightOf h = max (span.first + 1) (pole + 1) ∧
    ∃ answer : Except Failure (List PayoutRange),
      (∀ settings : Settings, settings.precision ≤ 10 ^ 6 →
        span.splitByIntervals collateral (.hyperbola h) intervals settings = answer) ∧
      (∀ failure, answer = .error failure ↔ span.HyperbolaBlocked collateral h ∧
        failure = .coverage (span.hyperbolaFault collateral h)) ∧
      (¬span.HyperbolaBlocked collateral h → ∃ ranges, answer = .ok ranges ∧
        ∀ x, span.first < x → x < span.last → payoutAt? ranges x =
          some (clampInt (nearestMultiple (policy.modulusAt (max (span.startRightOf h) x))
            (h.exact (max (span.startRightOf h) x))) 0 collateral)) := by
  obtain ⟨hne, rfl⟩ := RoundingPolicy.ofList_eq_ok.mp hpolicy
  refine ⟨by rw [startRightOf, hpole, Int.floor_intCast], ?_⟩
  refine exists_answer hscale.collateral_lt hscale.modulus_lt fun settings hprec => ?_
  obtain ⟨ctx, hctx⟩ := Settings.context_succeeds hprec
  constructor
  · intro hblocked
    exact splitByIntervals_of_fault hscale.check hpolicy hctx hblocked.1
      ((findStart_hyperbola ha hscale hne settings ctx hblocked.1).1 hblocked)
  · intro hfree
    exact splitByIntervals_of_not_misled ha hscale hne hctx hfree (not_misled hscale ha hne hpole)

/-- Payouts that fall like `100 / x`, in steps of ten. -/
theorem splitByIntervals_rectangular_falling : ∃ ranges,
    splitByIntervals ⟨0, 100, 100, 0⟩ 100 (.hyperbola ⟨.ofInt 1, .ofInt 0, .ofInt 0, .ofInt 100,
      .ofInt 0, .ofInt 0, true, by decide⟩) [⟨0, 10, by decide, by decide⟩] Settings.standard = .ok ranges ∧
      payoutAt? ranges 6 = some 20 := by
  let h : Hyperbola :=
    ⟨.ofInt 1, .ofInt 0, .ofInt 0, .ofInt 100, .ofInt 0, .ofInt 0, true, by decide⟩
  have hvalue : ∀ n : ℤ, (Decimal.Finite.ofInt n).value = n := Finite.value_ofInt
  have hscale : Span.AtScale ⟨0, 100, 100, 0⟩ 100 [⟨0, 10, by decide, by decide⟩] :=
    ⟨by decide, by decide, by decide, by decide, by decide, by decide, by decide, by simp⟩
  have ha : h.AtScale := by
    refine ⟨by decide, ?_, ?_, ?_, ?_⟩ <;> exact atScale_value (by decide) (by decide) (by decide)
  have hexact : ∀ x : ℤ, h.exact x = 100 / x := by
    intro x
    have h0 := hvalue 0
    have h1 := hvalue 1
    have h100 := hvalue 100
    simp only [h, Hyperbola.exact, Hyperbola.factor, Hyperbola.pole, Hyperbola.asymptote, h0, h1, h100]
    norm_num
  have hpole : h.pole = (0 : ℤ) := hvalue 0
  obtain ⟨hstart, answer, hanswer, -, hfree⟩ := splitByIntervals_rectangular hscale ha hpole rfl
  obtain ⟨ranges, hranges, hpays⟩ := hfree (by
    rintro ⟨-, hlate | hblocked⟩
    · rw [hstart] at hlate
      norm_num at hlate
    · rw [hstart, hexact, hexact] at hblocked
      norm_num [Blocked] at hblocked)
  refine ⟨ranges, (hanswer _ (by decide)).trans hranges, ?_⟩
  rw [hpays 6 (by decide) (by decide), hstart, hexact]
  decide +kernel

/-! ## Other poles -/

/-- An outcome right of the pole is paid what the rule says, unless the walk is misled and the outcome
belongs to the first segment and is not the first one. Whether it is misled can be read off the
coefficients, unless an inverse lies exactly halfway between two outcomes. -/
theorem splitByIntervals_pointwise_iff {policy : RoundingPolicy} {ranges : List PayoutRange} {x : ℤ}
    (hscale : span.AtScale collateral intervals) (ha : h.AtScale)
    (hpolicy : RoundingPolicy.ofList intervals = .ok policy) (hctx : settings.context = .ok ctx)
    (hsplit : span.splitByIntervals collateral (.hyperbola h) intervals settings = .ok ranges)
    (hx : span.startRightOf h ≤ x) (hxl : x < span.last) :
    (∃ payout, (span.stretch collateral (.hyperbola h) policy settings).pointwise ctx x = .ok payout ∧
      (payoutAt? ranges x = some payout ↔
        ¬(h.Misled ctx (span.firstSegment collateral h policy settings) (span.startRightOf h) ∧
          span.startRightOf h < x ∧ x < (span.firstSegment collateral h policy settings).stop))) ∧
    (h.overlap (h.nextMidpoint (span.firstSegment collateral h policy settings) (span.startRightOf h))
        (span.startRightOf h) ≠ 0 →
      (h.Misled ctx (span.firstSegment collateral h policy settings) (span.startRightOf h) ↔
        h.Lured (span.firstSegment collateral h policy settings) (span.startRightOf h))) := by
  obtain ⟨hne, rfl⟩ := RoundingPolicy.ofList_eq_ok.mp hpolicy
  have hs := hscale.sized (.hyperbola h) settings hne
  have hfirst : span.first + 1 ≤ span.startRightOf h := le_max_left _ _
  have h0 := hscale.first_nonneg
  refine ⟨?_, Hyperbola.misled_iff (on_segmentAt hscale _ le_rfl) ha ctx (hs.segmentAt _) (by omega)⟩
  have hfree : ¬span.HyperbolaBlocked collateral h := by
    intro hblocked
    rw [splitByIntervals_of_fault hscale.check hpolicy hctx hblocked.1
      ((findStart_hyperbola ha hscale hne settings ctx hblocked.1).1 hblocked)] at hsplit
    cases hsplit
  refine ⟨_, Stretch.pointwise_eq hs hxl ((on_segmentAt hscale _ hx).tracks ha ctx), ?_⟩
  by_cases hm : h.Misled ctx (span.firstSegment collateral h (.ofNonempty intervals hne) settings)
      (span.startRightOf h)
  · obtain ⟨ranges', hranges', hpays⟩ := splitByIntervals_of_misled ha hscale hne hctx hfree hm
    rw [hsplit] at hranges'
    rw [Except.ok.inj hranges', hpays x hx hxl]
    by_cases hin : span.startRightOf h < x ∧
        x < (span.firstSegment collateral h (.ofNonempty intervals hne) settings).stop
    · have hwrong := Hyperbola.payout_ne_of_misled ha hs (on_segmentAt hscale _ le_rfl) hm hx hin.2
      rw [if_pos hin, Option.some_inj]
      exact ⟨fun heq => absurd heq.symm hwrong, fun hnot => absurd ⟨hm, hin⟩ hnot⟩
    · rw [if_neg hin]
      exact ⟨fun _ hall => hin hall.2, fun _ => rfl⟩
  · obtain ⟨ranges', hranges', hpays⟩ := splitByIntervals_of_not_misled ha hscale hne hctx hfree hm
    rw [hsplit] at hranges'
    rw [Except.ok.inj hranges', hpays x (by omega) hxl, max_eq_right hx]
    exact ⟨fun _ hall => hm hall.1, fun _ => rfl⟩

/-- A pole a tenth of an outcome before an outcome, and payouts that fall from one towards nine
tenths. The inverse of one half, which is never reached, is rounded up across the pole. -/
def besidePole : Hyperbola :=
  ⟨⟨false, 1, -2⟩, .ofInt 0, .ofInt 0, .ofInt 1, ⟨false, 19, -1⟩, ⟨false, 9, -1⟩, true, by decide⟩

theorem besidePole_atScale : besidePole.AtScale := by
  refine ⟨by decide, ?_, ?_, ?_, ?_⟩ <;> exact atScale_value (by decide) (by decide) (by decide)

theorem besidePole_scale : Span.AtScale ⟨1, 10, 1, 1⟩ 1 [.unit] :=
  ⟨by decide, by decide, by decide, by decide, by decide, by decide, by decide, by simp⟩

theorem startRightOf_besidePole : startRightOf ⟨1, 10, 1, 1⟩ besidePole = 2 := by
  norm_num [startRightOf, besidePole, Hyperbola.pole, Finite.value, Finite.signed]

/-- From the third outcome on nothing is paid. -/
theorem splitByIntervals_besidePole :
    splitByIntervals ⟨1, 10, 1, 1⟩ 1 (.hyperbola besidePole) [.unit] Settings.standard =
      .ok [⟨1, 2, 1⟩, ⟨3, 9, 0⟩, ⟨10, 10, 1⟩] := by
  decide +kernel

/-- The rule says otherwise. -/
theorem pointwise_besidePole :
    (stretch ⟨1, 10, 1, 1⟩ 1 (.hyperbola besidePole) .unit Settings.standard).pointwise ⟨78, by decide⟩ 3 =
      .ok 1 := by
  decide +kernel

theorem overlap_besidePole : besidePole.overlap (besidePole.nextMidpoint
    (firstSegment ⟨1, 10, 1, 1⟩ 1 besidePole .unit Settings.standard)
    (startRightOf ⟨1, 10, 1, 1⟩ besidePole)) (startRightOf ⟨1, 10, 1, 1⟩ besidePole) = 3 / 20 := by
  have hstart := startRightOf_besidePole
  unfold firstSegment
  rw [hstart]
  decide +kernel

/-- The walk beside this pole is misled, as its coefficients tell. -/
theorem splitByIntervals_pointwise_iff_besidePole :
    besidePole.Misled ⟨78, by decide⟩ (firstSegment ⟨1, 10, 1, 1⟩ 1 besidePole .unit
      Settings.standard) (startRightOf ⟨1, 10, 1, 1⟩ besidePole) ∧
    besidePole.Lured (firstSegment ⟨1, 10, 1, 1⟩ 1 besidePole .unit Settings.standard)
      (startRightOf ⟨1, 10, 1, 1⟩ besidePole) := by
  have hctx : Settings.standard.context = .ok ⟨78, by decide⟩ := by decide
  have hpolicy : RoundingPolicy.ofList [.unit] = .ok .unit := rfl
  obtain ⟨⟨payout, hpayout, hiff⟩, hcoefficients⟩ := splitByIntervals_pointwise_iff (x := 3)
    besidePole_scale besidePole_atScale hpolicy hctx splitByIntervals_besidePole
    (by rw [startRightOf_besidePole]; decide) (by decide)
  have hpayout := Except.ok.inj (pointwise_besidePole.symm.trans hpayout)
  rw [← hcoefficients (by rw [overlap_besidePole]; norm_num), and_self]
  by_contra hm
  have hpaid := hiff.mpr fun hall => hm hall.1
  rw [← hpayout] at hpaid
  revert hpaid
  decide

/-- An outcome right of a pole that is no integer need not be paid what the rule says. -/
theorem splitByIntervals_not_pointwise :
    besidePole.AtScale ∧ Span.AtScale ⟨1, 10, 1, 1⟩ 1 [.unit] ∧
    ⌊besidePole.pole⌋ < besidePole.pole ∧ startRightOf ⟨1, 10, 1, 1⟩ besidePole ≤ 3 ∧
    ∃ ranges, splitByIntervals ⟨1, 10, 1, 1⟩ 1 (.hyperbola besidePole) [.unit] Settings.standard =
        .ok ranges ∧ payoutAt? ranges 3 = some 0 ∧
      (stretch ⟨1, 10, 1, 1⟩ 1 (.hyperbola besidePole) .unit Settings.standard).pointwise
        ⟨78, by decide⟩ 3 = .ok 1 := by
  refine ⟨besidePole_atScale, besidePole_scale, ?_, by rw [startRightOf_besidePole]; decide, _,
    splitByIntervals_besidePole, by decide, pointwise_besidePole⟩
  norm_num [besidePole, Hyperbola.pole, Finite.value, Finite.signed]

end Span

end NumericContract
