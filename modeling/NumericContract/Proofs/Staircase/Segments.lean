import NumericContract.Proofs.Staircase.Following

/-!
# From the answer for a span to its segments

Whatever the curve, the answer for a span holds the answers for the segments on which its walk begins,
and every outcome from where the curve begins belongs to one of them.
-/

namespace NumericContract

open PayoutRange Decimal

namespace Stretch

variable {ctx : Context} {s : Stretch} {start b x : ℤ} {rs : List PayoutRange}

/-- The outcomes at which a walk from `start` on begins a segment. -/
inductive Visits (s : Stretch) (start : ℤ) : ℤ → Prop
  | start : start < s.stop → Visits s start start
  | next {b : ℤ} : Visits s start b → (s.segmentAt b).stop < s.stop → Visits s start (s.segmentAt b).stop

theorem Visits.bounds (h : s.Visits start b) : start ≤ b ∧ b < s.stop := by
  induction h with
  | start hlt => exact ⟨le_rfl, hlt⟩
  | next hb hlt ih =>
      have := s.policy.lt_segmentEnd ih.2
      exact ⟨ih.1.trans this.le, hlt⟩

theorem Visits.lt_stop (h : s.Visits start b) : b < (s.segmentAt b).stop :=
  s.policy.lt_segmentEnd h.bounds.2

/-- The segments that are visited leave no outcome out. -/
theorem exists_visits (hx : start ≤ x) (hxs : x < s.stop) :
    ∃ b, s.Visits start b ∧ b ≤ x ∧ x < (s.segmentAt b).stop := by
  -- from the last segment known to begin at or before the outcome
  have hfrom : ∀ b, s.Visits start b → b ≤ x →
      ∃ b', s.Visits start b' ∧ b' ≤ x ∧ x < (s.segmentAt b').stop := by
    intro b hb hbx
    induction hn : (x - b).toNat using Nat.strong_induction_on generalizing b with
    | _ n ih =>
        by_cases hin : x < (s.segmentAt b).stop
        · exact ⟨b, hb, hbx, hin⟩
        · have := hb.lt_stop
          exact ih _ (by omega) _ (hb.next (by omega)) (by omega) rfl
  exact hfrom start (.start (by omega)) hx

theorem splitFrom_eq_ok (hlt : start < s.stop) (h : s.splitFrom ctx start = .ok rs) :
    ∃ steps rest, (s.segmentAt start).split ctx start = .ok steps ∧
      s.splitFrom ctx (s.segmentAt start).stop = .ok rest ∧ rs = steps ++ rest := by
  unfold splitFrom at h
  rw [dif_pos hlt] at h
  obtain ⟨steps, hsteps, h⟩ := bind_eq_ok.mp h
  obtain ⟨rest, hrest, h⟩ := bind_eq_ok.mp h
  exact ⟨steps, rest, hsteps, hrest, (Except.ok.inj h).symm⟩

/-- The steps from a segment on come after those before it. -/
theorem Visits.splitFrom (hb : s.Visits start b) (h : s.splitFrom ctx start = .ok rs) :
    ∃ before rest, Tiles start before b ∧ s.splitFrom ctx b = .ok rest ∧ rs = before ++ rest := by
  induction hb with
  | start => exact ⟨[], rs, rfl, h, rfl⟩
  | next hb hlt ih =>
      obtain ⟨before, rest, htiles, hrest, rfl⟩ := ih
      obtain ⟨steps, more, hsteps, hmore, rfl⟩ := splitFrom_eq_ok hb.bounds.2 hrest
      exact ⟨before ++ steps, more, htiles.append (Segment.split_tiles hb.lt_stop hsteps), hmore,
        (List.append_assoc _ _ _).symm⟩

/-- A segment decides on its outcomes. -/
theorem Visits.payoutAt? (hb : s.Visits start b) (h : s.splitFrom ctx start = .ok rs) :
    ∃ steps, (s.segmentAt b).split ctx b = .ok steps ∧
      ∀ x, b ≤ x → x < (s.segmentAt b).stop → PayoutRange.payoutAt? rs x = PayoutRange.payoutAt? steps x := by
  obtain ⟨before, rest, htiles, hrest, rfl⟩ := hb.splitFrom h
  obtain ⟨steps, rest, hsteps, -, rfl⟩ := splitFrom_eq_ok hb.bounds.2 hrest
  refine ⟨steps, hsteps, fun x hx hxs => ?_⟩
  obtain ⟨r, -, -, hpay⟩ := (Segment.split_tiles hb.lt_stop hsteps).exists_mem hx hxs
  rw [htiles.payoutAt?_append hx, payoutAt?_append_of_eq_some hpay, hpay]

end Stretch

namespace Span

variable {span : Span} {ctx : Context} {collateral : ℤ} {curve : Curve} {policy : RoundingPolicy}
  {intervals : List RoundingInterval} {settings : Settings} {ranges : List PayoutRange}

/-- The answer for a span with an inside holds those for the segments of the walk through it. -/
theorem exists_start (hpolicy : RoundingPolicy.ofList intervals = .ok policy)
    (hctx : settings.context = .ok ctx)
    (hsplit : span.splitByIntervals collateral curve intervals settings = .ok ranges)
    (hwide : 1 < span.last - span.first) :
    ∃ start, (span.stretch collateral curve policy settings).findStart ctx (span.first + 1) = .ok start ∧
      ∀ b, (span.stretch collateral curve policy settings).Visits start b →
        ∃ steps, ((span.stretch collateral curve policy settings).segmentAt b).split ctx b = .ok steps ∧
          ∀ x, b ≤ x → x < ((span.stretch collateral curve policy settings).segmentAt b).stop →
            payoutAt? ranges x = payoutAt? steps x := by
  obtain ⟨hcheck, policy', ctx', steps, hpolicy', hctx', hinterior, rfl⟩ := splitByIntervals_eq_ok.mp hsplit
  obtain rfl : policy = policy' := Except.ok.inj (hpolicy.symm.trans hpolicy')
  obtain rfl : ctx = ctx' := Except.ok.inj (hctx.symm.trans hctx')
  have htiles := interior_tiles (check_eq_ok_iff.mp hcheck).1 rfl hinterior
  obtain ⟨hnarrow, -⟩ | ⟨-, hinterior⟩ := interior_eq_ok hinterior
  · omega
  obtain ⟨start, hstart, hinterior⟩ := bind_eq_ok.mp hinterior
  obtain ⟨lead, hlead, hinterior⟩ := bind_eq_ok.mp hinterior
  obtain ⟨walked, hwalked, hinterior⟩ := bind_eq_ok.mp hinterior
  cases hinterior
  have hfirst := (Stretch.findStart_bounds hstart).1
  refine ⟨start, hstart, fun b hb => ?_⟩
  obtain ⟨own, hown, hpay⟩ := hb.payoutAt? hwalked
  refine ⟨own, hown, fun x hx hxs => ?_⟩
  have hbounds := hb.bounds
  obtain ⟨r, -, -, hmem⟩ := (Segment.split_tiles hb.lt_stop hown).exists_mem hx hxs
  have hwalk : payoutAt? (lead ++ walked) x = some r.payout := by
    rw [(Stretch.lead_tiles hfirst hlead).payoutAt?_append (hbounds.1.trans hx), hpay x hx hxs, hmem]
  rw [(tiles_unmerged htiles).payoutAt?_merge, payoutAt?_unmerged (by omega),
    payoutAt?_append_of_eq_some hwalk, hmem]

end Span

end NumericContract
