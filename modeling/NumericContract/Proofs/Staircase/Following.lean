import NumericContract.Proofs.PayoutRange.Runs
import NumericContract.Proofs.Rounding
import NumericContract.Proofs.Staircase.Walk

/-!
# Spans on which a curve is followed

If every segment of a stretch can be followed, the stretch pays the rounded payout of each of its
outcomes, limited to the collateral, and so does the span around it.
-/

namespace NumericContract

open Decimal PayoutRange

namespace Segment

variable {ctx : Context} {s : Segment} {current : ℤ} {v : ℤ → ℚ}

/-- A segment is walked in the direction that its two ends tell. -/
theorem Tracks.split_eq {ascending : Bool} (h : s.Tracks ctx ascending v current) (hs : s.Sized)
    (hlt : current < s.stop)
    (hdir : ∀ z z', s.curve.evaluate ctx current = .ok z → s.curve.evaluate ctx s.stop = .ok z' →
      z.lt z' = .ok ascending) :
    s.split ctx current = s.climb ctx ascending current (s.level (v current)) := by
  obtain ⟨z, hz, hzv, hsize⟩ := h.evaluate current le_rfl hlt.le
  obtain ⟨z', hz', -, -⟩ := h.evaluate s.stop hlt.le le_rfl
  have hlevel := levelOf_eq hs (Curve.representable_evaluate hz) hsize
  have hlt' : Failure.ofArithmetic ((Decimal.finite z).lt (.finite z')) = .ok ascending :=
    Failure.ofArithmetic_eq_ok.mpr (hdir _ _ hz hz')
  rw [hs.level_eq_of_sharp hzv] at hlevel
  unfold Segment.split
  rw [curvePayout_eq hz rfl, curvePayout_eq hz' rfl]
  change (s.levelOf ctx (.finite z) >>= fun level =>
    Failure.ofArithmetic ((Decimal.finite z).lt (.finite z')) >>= fun ascending =>
      s.climb ctx ascending current level) = _
  rw [hlevel, hlt']
  rfl

end Segment

namespace Stretch

variable {ctx : Context} {s : Stretch} {first start current : ℤ} {v : ℤ → ℚ}

/-- The payout of an outcome: the nearest multiple of the modulus, limited to what the collateral
covers. -/
def payout (s : Stretch) (v : ℤ → ℚ) (x : ℤ) : ℤ :=
  clampInt (nearestMultiple (s.policy.modulusAt x) (v x)) 0 s.collateral

/-- From `first` on the segments are split into ranges that pay `f`. -/
def SegmentsPay (ctx : Context) (s : Stretch) (f : ℤ → ℤ) (first : ℤ) : Prop :=
  ∃ rs, s.splitFrom ctx first = .ok rs ∧ Pays f rs

theorem payout_eq_pay {g : Segment} (hg : g.Sized) (hc : g.collateral = s.collateral) {x : ℤ}
    (hm : s.policy.modulusAt x = g.modulus) : s.payout v x = g.pay (g.level (v x)) := by
  have hcap := hg.collateral_le_cap
  have h0 := hg.collateral_nonneg
  unfold payout Segment.level Segment.pay
  rw [hm, ← hc]
  unfold clampInt
  omega

theorem payout_eq (hs : s.Sized) {x : ℤ} (hx : current ≤ x) (hstop : x < (s.segmentAt current).stop) :
    s.payout v x = (s.segmentAt current).pay ((s.segmentAt current).level (v x)) :=
  payout_eq_pay (hs.segmentAt current) rfl (RoundingPolicy.modulusAt_eq hx hstop)

/-- The rule for a single outcome: the payout of the curve is rounded and then limited to what the
collateral covers. An infinite one is paid the collateral, or nothing below zero. -/
def pointwise (ctx : Context) (s : Stretch) (x : ℤ) : Except Failure ℤ := do
  match ← s.curve.evaluate ctx x with
  | .infinity negative => return if negative then 0 else s.collateral
  | value => return clampInt (← value.roundToMultiple ctx (s.policy.modulusAt x)) 0 s.collateral

theorem pointwise_eq_pay (hs : s.Sized) {x level : ℤ} (hx : current ≤ x)
    (hstop : x < (s.segmentAt current).stop) (h : (s.segmentAt current).levelAt ctx x = .ok level) :
    s.pointwise ctx x = .ok ((s.segmentAt current).pay level) := by
  have hcap : s.collateral ≤ (s.segmentAt current).cap := (hs.segmentAt current).collateral_le_cap
  have h0 := hs.collateral_nonneg
  have hm : s.policy.modulusAt x = (s.segmentAt current).modulus := RoundingPolicy.modulusAt_eq hx hstop
  obtain ⟨value, hvalue, h⟩ := bind_eq_ok.mp h
  obtain ⟨hvalue, hn⟩ := Segment.evaluate_of_curvePayout hvalue
  refine bind_eq_ok.mpr ⟨value, Failure.ofArithmetic_eq_ok.mpr hvalue, ?_⟩
  have hpay : ∀ level, (s.segmentAt current).pay level = min level s.collateral := fun _ => rfl
  cases value with
  | nan => cases hn
  | infinity negative =>
      cases h
      rw [hpay]
      cases negative with
      | false => exact congrArg Except.ok (min_eq_right hcap).symm
      | true => exact congrArg Except.ok (min_eq_left h0).symm
  | finite z =>
      obtain ⟨k, hk, h⟩ := bind_eq_ok.mp h
      cases h
      refine bind_eq_ok.mpr ⟨k, by rwa [hm], congrArg Except.ok ?_⟩
      rw [hpay]
      unfold clampInt
      omega

theorem pointwise_eq {ascending : Bool} (hs : s.Sized) {x : ℤ} (hx : x < s.stop)
    (h : (s.segmentAt x).Tracks ctx ascending v x) : s.pointwise ctx x = .ok (s.payout v x) := by
  have hend := s.policy.lt_segmentEnd hx
  rw [payout_eq hs le_rfl hend]
  exact pointwise_eq_pay hs le_rfl hend (h.levelAt (hs.segmentAt x) le_rfl hend.le)

theorem split_of_follows {ascending : Bool} (hs : s.Sized) (hlt : current < s.stop) {u : ℤ → ℚ}
    (h : (s.segmentAt current).Follows ctx ascending u current)
    (hdir : ∀ z z', s.curve.evaluate ctx current = .ok z →
      s.curve.evaluate ctx (s.segmentAt current).stop = .ok z' → z.lt z' = .ok ascending)
    (hu : ∀ x, current ≤ x → x < (s.segmentAt current).stop → Sharp (u x) (v x)) :
    ∃ rs, (s.segmentAt current).split ctx current = .ok rs ∧ Pays (s.payout v) rs := by
  have hseg := hs.segmentAt current
  have hend := s.policy.lt_segmentEnd hlt
  obtain ⟨rs, hrs, hpays⟩ := h.climb hseg le_rfl hend
  rw [← h.toTracks.split_eq hseg hend hdir] at hrs
  refine ⟨rs, hrs, hpays.congr (Segment.split_covers hseg hend hrs).tiles fun x hx hxs => ?_⟩
  rw [payout_eq hs hx hxs, ← hseg.level_eq_of_sharp (hu x hx hxs)]

theorem segmentsPay_of_stop {f : ℤ → ℤ} (h : s.stop ≤ current) : s.SegmentsPay ctx f current := by
  refine ⟨[], ?_, by intro r hr; cases hr⟩
  unfold Stretch.splitFrom
  rw [dif_neg (not_lt.mpr h)]

theorem SegmentsPay.cons {f : ℤ → ℤ} (hlt : current < s.stop)
    (hsplit : ∃ rs, (s.segmentAt current).split ctx current = .ok rs ∧ Pays f rs)
    (hrest : s.SegmentsPay ctx f (s.segmentAt current).stop) : s.SegmentsPay ctx f current := by
  obtain ⟨steps, hsteps, hpays⟩ := hsplit
  obtain ⟨rest, hrest, hpays'⟩ := hrest
  refine ⟨steps ++ rest, ?_, hpays.append hpays'⟩
  unfold Stretch.splitFrom
  rw [dif_pos hlt]
  exact bind_eq_ok.mpr ⟨steps, hsteps, bind_eq_ok.mpr ⟨rest, hrest, rfl⟩⟩

theorem SegmentsPay.congr {f g : ℤ → ℤ} (h : s.SegmentsPay ctx f current) (hs : s.Sized)
    (hcur : current ≤ s.stop) (hfg : ∀ x, current ≤ x → x < s.stop → f x = g x) :
    s.SegmentsPay ctx g current := by
  obtain ⟨rs, hrs, hpays⟩ := h
  exact ⟨rs, hrs, hpays.congr (splitFrom_covers hs hcur hrs).tiles hfg⟩

theorem segmentsPay_of_forall {f : ℤ → ℤ} (h : ∀ x, current ≤ x → x < s.stop →
    ∃ rs, (s.segmentAt x).split ctx x = .ok rs ∧ Pays f rs) : s.SegmentsPay ctx f current := by
  induction hn : (s.stop - current).toNat using Nat.strong_induction_on generalizing current with
  | _ n ih =>
      by_cases hlt : current < s.stop
      · have hend : current < (s.segmentAt current).stop := s.policy.lt_segmentEnd hlt
        refine SegmentsPay.cons hlt (h current le_rfl hlt) ?_
        exact ih _ (by omega) (fun x hx => h x (by omega)) rfl
      · exact segmentsPay_of_stop (not_lt.mp hlt)

/-- Outcomes before the curve begins pay what it pays where it begins. -/
theorem SegmentsPay.split {f : ℤ → ℤ} {level : ℤ} (h : s.SegmentsPay ctx f start) (hs : s.Sized)
    (hstart : s.findStart ctx first = .ok start)
    (hlevel : (s.segmentAt start).levelAt ctx start = .ok level)
    (hpay : (s.segmentAt start).pay level = f start) :
    ∃ rs, s.split ctx first = .ok rs ∧ Pays (fun x => f (max start x)) rs := by
  obtain ⟨hfirst, hstop⟩ := findStart_bounds hstart
  obtain ⟨steps, hsteps, hpays⟩ := h
  have hcovers := splitFrom_covers hs hstop.le hsteps
  obtain ⟨lead, hlead, hpays'⟩ : ∃ rs, s.lead ctx first start = .ok rs ∧
      Pays (fun x => f (max start x)) rs := by
    unfold lead
    split
    · refine ⟨_, bind_eq_ok.mpr ⟨_, hlevel, rfl⟩, fun r hr x hx hxr => ?_⟩
      rw [List.mem_singleton.mp hr] at hxr ⊢
      dsimp only at hxr ⊢
      rw [max_eq_left (by omega), hpay]
    · exact ⟨[], rfl, by intro r hr; cases hr⟩
  refine ⟨lead ++ steps, bind_eq_ok.mpr ⟨start, hstart, bind_eq_ok.mpr ⟨lead, hlead,
    bind_eq_ok.mpr ⟨steps, hsteps, rfl⟩⟩⟩, hpays'.append (hpays.congr hcovers.tiles fun x hx _ => ?_)⟩
  rw [max_eq_right hx]

theorem checkPayable_eq {last : ℤ} {z z' : Decimal.Finite}
    (hz : s.curve.evaluate ctx start = .ok (.finite z))
    (hz' : s.curve.evaluate ctx last = .ok (.finite z')) :
    s.checkPayable ctx start last =
      if (s.collateral < z.value ∧ s.collateral < z'.value) ∨ (z.value < 0 ∧ z'.value < 0) then
        .error (.coverage (.neverPayable start last s.collateral))
      else .ok () := by
  have hlow : ∀ u : Decimal.Finite, Decimal.lt (.finite u) (.ofInt 0) = .ok (decide (u.value < 0)) := by
    intro u
    rw [Decimal.ofInt, lt_finite, Decimal.Finite.value_ofInt, Int.cast_zero]
  have hhigh : ∀ u : Decimal.Finite, Decimal.lt (.ofInt s.collateral) (.finite u) =
      .ok (decide (s.collateral < u.value)) := by
    intro u
    rw [Decimal.ofInt, lt_finite, Decimal.Finite.value_ofInt]
  have hbool : (decide (s.collateral < z.value) && decide (s.collateral < z'.value) ||
      decide (z.value < 0) && decide (z'.value < 0)) = true ↔
      (s.collateral < z.value ∧ s.collateral < z'.value) ∨ (z.value < 0 ∧ z'.value < 0) := by
    simp
  rw [← if_congr hbool rfl rfl]
  unfold checkPayable
  rw [hz, hz']
  change (Failure.ofArithmetic ((Decimal.ofInt s.collateral).lt (.finite z)) >>= fun a =>
    Failure.ofArithmetic ((Decimal.ofInt s.collateral).lt (.finite z')) >>= fun b =>
    Failure.ofArithmetic (Decimal.lt (.finite z) (.ofInt 0)) >>= fun c =>
    Failure.ofArithmetic (Decimal.lt (.finite z') (.ofInt 0)) >>= fun d =>
    if a && b || c && d then
      throw (Failure.coverage (.neverPayable start last s.collateral)) else pure ()) = _
  rw [hhigh, hhigh, hlow, hlow]
  rfl

theorem findStart_eq {found : ℤ}
    (hfirst : s.curve.firstDefined ctx first (s.stop - 1) s.scanSteps = .ok (some found)) :
    s.findStart ctx first = s.checkPayable ctx found (s.stop - 1) >>= fun _ => .ok found := by
  unfold findStart
  dsimp only
  rw [hfirst]
  rfl

theorem findStart_eq_undefined
    (hfirst : s.curve.firstDefined ctx first (s.stop - 1) s.scanSteps = .ok none) :
    s.findStart ctx first = .error (.coverage (.undefinedOn first (s.stop - 1))) := by
  unfold findStart
  dsimp only
  rw [hfirst]
  rfl

end Stretch

namespace Span

variable {span : Span} {ctx : Context} {collateral : ℤ} {curve : Curve} {policy : RoundingPolicy}
  {settings : Settings} {start : ℤ} {v : ℤ → ℚ}

def stretch (span : Span) (collateral : ℤ) (curve : Curve) (policy : RoundingPolicy)
    (settings : Settings) : Stretch :=
  ⟨curve, policy, collateral, settings.scanSteps, span.last⟩

theorem payoutAt?_merge {steps : List PayoutRange} {f : ℤ → ℤ} {x : ℤ}
    (htiles : Tiles (span.first + 1) steps span.last) (hpays : Pays f steps) (hx : span.first < x)
    (hxl : x < span.last) : payoutAt? (merge (span.unmerged steps)) x = some (f x) := by
  rw [(tiles_unmerged htiles).payoutAt?_merge, payoutAt?_unmerged hx]
  exact payoutAt?_append_of_eq_some (htiles.payoutAt?_eq hpays (by omega) hxl)

/-- A span is split right if its segments are. -/
theorem splitByIntervals_of_segmentsPay {intervals : List RoundingInterval} {f : ℤ → ℤ} {level : ℤ}
    (hcheck : span.check collateral = .ok ()) (hpolicy : RoundingPolicy.ofList intervals = .ok policy)
    (hctx : settings.context = .ok ctx)
    (hs : (span.stretch collateral curve policy settings).Sized) (hwide : 1 < span.last - span.first)
    (hstart : (span.stretch collateral curve policy settings).findStart ctx (span.first + 1) = .ok start)
    (h : (span.stretch collateral curve policy settings).SegmentsPay ctx f start)
    (hlevel : ((span.stretch collateral curve policy settings).segmentAt start).levelAt ctx start =
      .ok level)
    (hpay : ((span.stretch collateral curve policy settings).segmentAt start).pay level = f start) :
    ∃ ranges, span.splitByIntervals collateral curve intervals settings = .ok ranges ∧
      ∀ x, span.first < x → x < span.last → payoutAt? ranges x = some (f (max start x)) := by
  obtain ⟨steps, hsteps, hpays⟩ := h.split hs hstart hlevel hpay
  have hcovers := Stretch.split_covers hs hsteps
  refine ⟨_, splitByIntervals_eq_ok.mpr ⟨hcheck, policy, ctx, steps, hpolicy, hctx, ?_, rfl⟩, ?_⟩
  · unfold interior
    rw [if_neg (by omega)]
    unfold stretch at hsteps
    rw [hsteps]
  · exact fun x hx hxl => payoutAt?_merge hcovers.tiles hpays hx hxl

theorem splitByIntervals_of_narrow {intervals : List RoundingInterval}
    (hcheck : span.check collateral = .ok ()) (hpolicy : RoundingPolicy.ofList intervals = .ok policy)
    (hctx : settings.context = .ok ctx) (hnarrow : span.last - span.first ≤ 1) :
    span.splitByIntervals collateral curve intervals settings = .ok (merge (span.unmerged [])) := by
  refine splitByIntervals_eq_ok.mpr ⟨hcheck, policy, ctx, [], hpolicy, hctx, ?_, rfl⟩
  unfold interior
  rw [if_pos hnarrow]

theorem splitByIntervals_of_fault {intervals : List RoundingInterval} {fault : CoverageFault}
    (hcheck : span.check collateral = .ok ()) (hpolicy : RoundingPolicy.ofList intervals = .ok policy)
    (hctx : settings.context = .ok ctx) (hwide : 1 < span.last - span.first)
    (hstart : (span.stretch collateral curve policy settings).findStart ctx (span.first + 1) =
      .error (.coverage fault)) :
    span.splitByIntervals collateral curve intervals settings = .error (.coverage fault) := by
  have hsplit : (span.stretch collateral curve policy settings).split ctx (span.first + 1) =
      .error (.coverage fault) := by
    unfold Stretch.split
    rw [hstart]
    rfl
  have hinterior : span.interior ctx (span.stretch collateral curve policy settings) =
      .error (.coverage fault) := by
    unfold interior
    rw [if_neg (by omega), hsplit]
  unfold splitByIntervals Span.split
  rw [hcheck, hpolicy, hctx]
  change (span.interior ctx (span.stretch collateral curve policy settings) >>= _) = _
  rw [hinterior]
  rfl

/-- Two splits of a span that pay the same inside it are equal, whatever they come from. -/
theorem splitByIntervals_unique {curve' : Curve} {intervals intervals' : List RoundingInterval}
    {settings' : Settings} {ranges ranges' : List PayoutRange} (hcollateral : collateral < 10 ^ 18)
    (hsize : ∀ interval ∈ intervals, interval.modulus < 10 ^ 18)
    (hsize' : ∀ interval ∈ intervals', interval.modulus < 10 ^ 18)
    (h : span.splitByIntervals collateral curve intervals settings = .ok ranges)
    (h' : span.splitByIntervals collateral curve' intervals' settings' = .ok ranges')
    (hpay : ∀ x, span.first < x → x < span.last → payoutAt? ranges x = payoutAt? ranges' x) :
    ranges = ranges' := by
  obtain ⟨hcheck, policy, ctx, steps, hpolicy, -, hsteps, rfl⟩ := splitByIntervals_eq_ok.mp h
  obtain ⟨-, policy', ctx', steps', hpolicy', -, hsteps', rfl⟩ := splitByIntervals_eq_ok.mp h'
  obtain ⟨hlt, -, hcollateral0, -, -⟩ := check_eq_ok_iff.mp hcheck
  have htiles := (interior_covers ⟨sized_ofList hsize hpolicy, hcollateral0, hcollateral⟩ hlt rfl hsteps).tiles
  have htiles' :=
    (interior_covers ⟨sized_ofList hsize' hpolicy', hcollateral0, hcollateral⟩ hlt rfl hsteps').tiles
  refine (tiles_unmerged htiles).merge.eq_of_isChain (tiles_unmerged htiles').merge (merge_isChain _)
    (merge_isChain _) fun x => ?_
  by_cases hout : x < span.first ∨ span.last + 1 ≤ x
  · rw [(tiles_unmerged htiles).merge.payoutAt?_eq_none hout,
      (tiles_unmerged htiles').merge.payoutAt?_eq_none hout]
  · by_cases hfirst : x = span.first
    · rw [hfirst, (tiles_unmerged htiles).payoutAt?_merge, (tiles_unmerged htiles').payoutAt?_merge,
        payoutAt?_unmerged_first, payoutAt?_unmerged_first]
    by_cases hlast : x = span.last
    · rw [hlast, (tiles_unmerged htiles).payoutAt?_merge, (tiles_unmerged htiles').payoutAt?_merge,
        payoutAt?_unmerged_last hlt htiles, payoutAt?_unmerged_last hlt htiles']
    · exact hpay x (by omega) (by omega)

/-- If what a span pays is told without regard to the settings, the answer is the same for all. -/
theorem exists_answer {intervals : List RoundingInterval} {blocked : Prop} {failure : Failure}
    {f : ℤ → ℤ} (hcollateral : collateral < 10 ^ 18)
    (hsize : ∀ interval ∈ intervals, interval.modulus < 10 ^ 18)
    (h : ∀ settings : Settings, settings.precision ≤ 10 ^ 6 →
      (blocked → span.splitByIntervals collateral curve intervals settings = .error failure) ∧
      (¬blocked → ∃ ranges, span.splitByIntervals collateral curve intervals settings = .ok ranges ∧
        ∀ x, span.first < x → x < span.last → payoutAt? ranges x = some (f x))) :
    ∃ answer : Except Failure (List PayoutRange),
      (∀ settings : Settings, settings.precision ≤ 10 ^ 6 →
        span.splitByIntervals collateral curve intervals settings = answer) ∧
      (∀ cause, answer = .error cause ↔ blocked ∧ cause = failure) ∧
      (¬blocked → ∃ ranges, answer = .ok ranges ∧
        ∀ x, span.first < x → x < span.last → payoutAt? ranges x = some (f x)) := by
  have hstandard : Settings.standard.precision ≤ 10 ^ 6 := by decide
  obtain ⟨herror, hok⟩ := h .standard hstandard
  refine ⟨_, fun settings hprec => ?_, fun cause => ⟨fun heq => ?_, ?_⟩, hok⟩
  · obtain ⟨herror', hok'⟩ := h settings hprec
    by_cases hb : blocked
    · rw [herror hb, herror' hb]
    · obtain ⟨ranges, hranges, hpays⟩ := hok hb
      obtain ⟨ranges', hranges', hpays'⟩ := hok' hb
      rw [hranges, hranges', splitByIntervals_unique hcollateral hsize hsize hranges' hranges
        fun x hx hxl => (hpays' x hx hxl).trans (hpays x hx hxl).symm]
  · by_cases hb : blocked
    · rw [herror hb] at heq
      exact ⟨hb, (Except.error.inj heq).symm⟩
    · obtain ⟨ranges, hranges, -⟩ := hok hb
      rw [hranges] at heq
      cases heq
  · rintro ⟨hb, rfl⟩
    exact herror hb

end Span

end NumericContract
