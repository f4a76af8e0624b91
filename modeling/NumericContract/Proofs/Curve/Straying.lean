import NumericContract.Proofs.Curve.FirstDefined
import NumericContract.Proofs.Curve.Reached
import NumericContract.Proofs.Staircase.Segments

/-!
# Where a walk strays

A walk asks for the inverse of a midpoint whether or not the curve reaches it, and takes what it is
given for the end of a step. If the payouts that are reached have right inverses, this is the only way
in which a segment goes wrong: the walk stands on the level that the segment ends with, an inverse turns
up inside the segment all the same, and the next level is not looked for again.
-/

namespace NumericContract

open Decimal PayoutRange

namespace Segment

variable {ctx : Context} {s : Segment} {ascending : Bool} {first current : ℤ} {L : ℤ} {v : ℤ → ℚ}
  {y : Decimal.Finite}

/-- What a walk asks for on a level: the midpoint after it, and the next level. -/
def Asks (ctx : Context) (s : Segment) (ascending : Bool) (L : ℤ) (y : Decimal.Finite) : Prop :=
  midpoint ctx L (s.step ascending) = .ok (.finite y) ∨ y = .ofInt (L + s.step ascending)

/-- Wherever a walk may stand, the inverse of what it asks for is placed right, provided that an outcome
ahead has reached that. -/
def InvertsReached (ctx : Context) (s : Segment) (ascending : Bool) (v : ℤ → ℚ) (first : ℤ) : Prop :=
  ∀ current, first ≤ current → s.level (v current) ≠ s.lastLevel ascending →
    ∀ y, s.Asks ctx ascending (s.level (v current)) y →
      (∃ x, current ≤ x ∧ x < s.stop ∧ ¬Near ascending y.value (v x)) → s.Placed ctx ascending v y current

/-- From `c` on the midpoint is never reached, but an inverse of it lies inside the segment and the walk
does not go on after it. -/
def StopsShort (ctx : Context) (s : Segment) (ascending : Bool) (v : ℤ → ℚ) (c : ℤ) : Prop :=
  s.level (v c) ≠ s.lastLevel ascending ∧ ∃ y last,
    midpoint ctx (s.level (v c)) (s.step ascending) = .ok (.finite y) ∧
    (∀ x, c ≤ x → x < s.stop → Near ascending y.value (v x)) ∧
    s.boundary ctx (.finite y) ascending = .ok (some last) ∧ c ≤ last ∧ last + 1 < s.stop ∧
    s.reaches ctx (s.level (v c) + s.step ascending) = .ok false

def Strays (ctx : Context) (s : Segment) (ascending : Bool) (v : ℤ → ℚ) (current : ℤ) : Prop :=
  ∃ c, Relation.ReflTransGen (s.Strides ctx ascending) (current, s.level (v current))
    (c, s.level (v c)) ∧ s.StopsShort ctx ascending v c

/-! ## One step -/

/-- If an outcome has reached the midpoint, the boundary that is found is the last that has not. -/
theorem Tracks.boundary_of_reached (h : s.Tracks ctx ascending v first) (hs : s.Sized)
    (hinv : s.InvertsReached ctx ascending v first) (hcur : first ≤ current)
    (hlast : s.level (v current) ≠ s.lastLevel ascending)
    (hmid : midpoint ctx (s.level (v current)) (s.step ascending) = .ok (.finite y))
    (hreached : ∃ x, current ≤ x ∧ x < s.stop ∧ ¬Near ascending y.value (v x)) {boundary? : Option ℤ}
    (hboundary : s.boundary ctx (.finite y) ascending = .ok boundary?) {x : ℤ} (hx : current ≤ x)
    (hxs : x < s.stop) :
    Near ascending y.value (v x) ↔ ∀ last ∈ boundary?, current ≤ last → x ≤ last := by
  obtain ⟨y, ⟨⟩, -, hhalf, hnear⟩ := midpoint_inv hs hlast hmid
  obtain ⟨b?, hb, hside⟩ :=
    h.boundary hcur hhalf hnear (hinv current hcur hlast y (Or.inl hmid) hreached)
  rw [hboundary] at hb
  rw [Except.ok.inj hb]
  exact hside x hx hxs

theorem settled_of_invertsReached (hinv : s.InvertsReached ctx ascending v first) (hcur : first ≤ current)
    (hlast : s.level (v current) ≠ s.lastLevel ascending)
    (hreaches : s.reaches ctx (s.level (v current) + s.step ascending) = .ok false) :
    s.level (v current) + s.step ascending = 0 ∨ s.level (v current) + s.step ascending = s.cap ∨
      ∀ x, current ≤ x → x < s.stop →
        Near ascending (s.level (v current) + s.step ascending : ℤ) (v x) := by
  by_cases hreached : ∃ x, current ≤ x ∧ x < s.stop ∧
      ¬Near ascending (Decimal.Finite.ofInt (s.level (v current) + s.step ascending)).value (v x)
  · obtain ⟨b, hb, hsettled⟩ := (hinv current hcur hlast _ (Or.inr rfl) hreached).settled
    rw [hreaches] at hb
    exact hsettled (Except.ok.inj hb).symm
  · rw [Finite.value_ofInt] at hreached
    push Not at hreached
    exact Or.inr (Or.inr hreached)

/-- While the level of the current outcome stays, the next level is wrong. -/
theorem not_pays_rest_of_stay (hs : s.Sized) (hlast : s.level (v current) ≠ s.lastLevel ascending) {last : ℤ}
    (hstop : last + 1 < s.stop) (hstay : s.level (v (last + 1)) = s.level (v current)) :
    ¬Pays (fun x => s.pay (s.level (v x)))
      [s.rest (last + 1) (s.level (v current) + s.step ascending)] := by
  intro hpays
  have hl := hs.isLevel_level (v current)
  have hpaid : s.pay (s.level (v current) + s.step ascending) = s.pay (s.level (v (last + 1))) :=
    hpays (s.rest (last + 1) _) (by simp) (last + 1) le_rfl (show last + 1 ≤ s.stop - 1 by omega)
  rw [hstay, (hl.next hs hlast).pay_inj hl hs] at hpaid
  have := hs.step_ne_zero ascending
  omega

theorem Tracks.pays_finish_iff (h : s.Tracks ctx ascending v first) (hs : s.Sized)
    (hinv : s.InvertsReached ctx ascending v first) (hcur : first ≤ current) {ranges : List PayoutRange}
    (hstride : s.stride ctx ascending current (s.level (v current)) = .ok (.finish ranges)) :
    Pays (fun x => s.pay (s.level (v x))) ranges ↔ ¬s.StopsShort ctx ascending v current := by
  obtain ⟨hlast, -⟩ | ⟨hlast, middle, boundary?, hmid, hboundary, hto⟩ := stride_eq_ok hstride
  · obtain ⟨ranges', hstride', hpays⟩ := h.stride_of_last hs hcur hlast
    rw [hstride] at hstride'
    cases hstride'
    exact iff_of_true hpays fun hshort => hshort.1 hlast
  obtain ⟨y, rfl, hy, hhalf, hnear⟩ := midpoint_inv hs hlast hmid
  have hlevel := fun x => h.level_eq_of_near hs hcur hlast hy (x := x)
  have hside := fun hreached x => h.boundary_of_reached hs hinv hcur hlast hmid hreached hboundary (x := x)
  obtain ⟨hrest, houtside⟩ | ⟨last, rfl, hle, hstop, ⟨-, hto⟩ | ⟨hreaches, hto⟩⟩ := strideTo_eq_ok hto
  · -- no boundary inside the segment: the midpoint is not reached
    cases hrest
    refine iff_of_true (pays_of_level_eq fun x hx hxs => hlevel x hx (by omega) ?_) ?_
    · by_contra hfar
      refine hfar ((hside ⟨x, hx, by omega, hfar⟩ x hx (by omega)).mpr fun last hmem hle => ?_)
      have := houtside last hmem
      omega
    · rintro ⟨-, y', last, hmid'', -, hboundary', hle, hstop, -⟩
      rw [hmid] at hmid''
      cases hmid''
      rw [hboundary] at hboundary'
      have := houtside last (Except.ok.inj hboundary')
      omega
  · cases hto
  cases hto
  by_cases hreached : ∃ x, current ≤ x ∧ x < s.stop ∧ ¬Near ascending y.value (v x)
  · -- the boundary is right, and beyond it nothing has passed the next level
    have hside : ∀ x, current ≤ x → x < s.stop → (Near ascending y.value (v x) ↔ x ≤ last) := by
      intro x hx hxs
      rw [hside hreached x hx hxs]
      simp [hle]
    have hreachedPays : Pays (fun x => s.pay (s.level (v x)))
        [⟨current, last, s.pay (s.level (v current))⟩] :=
      pays_of_level_eq fun x hx hxs => hlevel x hx (by omega) ((hside x hx (by omega)).mpr hxs)
    refine iff_of_true (hreachedPays.append ?_) ?_
    · exact pays_rest_of_passed hs (hs.isLevel_level _) hlast hy hle
        (fun x hx hxs => mt (hside x (by omega) hxs).mp (by omega))
        (settled_of_invertsReached hinv hcur hlast hreaches)
    · rintro ⟨-, y', -, hmid'', hall, -⟩
      rw [hmid] at hmid''
      cases hmid''
      obtain ⟨x, hx, hxs, hfar⟩ := hreached
      exact hfar (hall x hx hxs)
  · -- the outcome after the boundary still has the level of the current one
    push Not at hreached
    refine iff_of_false (fun hpays => ?_)
      (not_not.mpr ⟨hlast, y, last, hmid, hreached, hboundary, hle, hstop, hreaches⟩)
    exact not_pays_rest_of_stay hs hlast hstop (hlevel _ (by omega) hstop (hreached _ (by omega) hstop))
      fun r hr => hpays r (List.mem_cons_of_mem _ hr)

theorem Tracks.pays_onward (h : s.Tracks ctx ascending v first) (hs : s.Sized)
    (hinv : s.InvertsReached ctx ascending v first) (hcur : first ≤ current) {r : PayoutRange}
    (hstride : s.stride ctx ascending current (s.level (v current)) = .ok (.onward r)) :
    Pays (fun x => s.pay (s.level (v x))) [r] := by
  obtain ⟨-, hto⟩ | ⟨hlast, middle, boundary?, hmid, hboundary, hto⟩ := stride_eq_ok hstride
  · cases hto
  obtain ⟨y, rfl, hy, hhalf, hnear⟩ := midpoint_inv hs hlast hmid
  obtain ⟨hto, -⟩ | ⟨last, rfl, hle, hstop, ⟨-, hto⟩ | ⟨-, hto⟩⟩ := strideTo_eq_ok hto
  · cases hto
  · cases hto
    refine pays_of_level_eq fun x hx hxs => h.level_eq_of_near hs hcur hlast hy hx (by omega) ?_
    by_contra hfar
    refine hfar ((h.boundary_of_reached hs hinv hcur hlast hmid ⟨x, hx, by omega, hfar⟩ hboundary hx
      (by omega)).mpr ?_)
    simpa using fun _ => hxs
  · cases hto

/-! ## The whole walk -/

theorem strays_of_finish {ranges : List PayoutRange}
    (hstride : s.stride ctx ascending current (s.level (v current)) = .ok (.finish ranges)) :
    s.Strays ctx ascending v current ↔ s.StopsShort ctx ascending v current := by
  constructor
  · rintro ⟨c, hwalk, hshort⟩
    obtain heq | ⟨q, ⟨r, hstride', -⟩, -⟩ := hwalk.cases_head
    · obtain rfl : current = c := congrArg Prod.fst heq
      exact hshort
    · rw [hstride] at hstride'
      cases hstride'
  · exact fun hshort => ⟨current, .refl, hshort⟩

theorem Tracks.strays_of_onward (h : s.Tracks ctx ascending v first) (hs : s.Sized)
    (hcur : first ≤ current) {r : PayoutRange}
    (hstride : s.stride ctx ascending current (s.level (v current)) = .ok (.onward r)) :
    s.Strays ctx ascending v current ↔ s.Strays ctx ascending v (r.last + 1) := by
  obtain ⟨-, -, hle, hstop⟩ := stride_onward hstride
  have hlevel := h.levelAt hs (by omega : first ≤ r.last + 1) hstop.le
  constructor
  · rintro ⟨c, hwalk, hshort⟩
    obtain heq | ⟨⟨x, L⟩, ⟨r', hstride', hx, hL⟩, hwalk⟩ := hwalk.cases_head
    · -- a walk that goes on has not stopped
      obtain rfl : current = c := congrArg Prod.fst heq
      obtain ⟨hne, y, last, hmid, -, hboundary, hle', hstop', hreaches⟩ := hshort
      rw [stride_eq hne hmid hboundary] at hstride
      simp only [Segment.strideTo] at hstride
      rw [if_neg (by omega), hreaches] at hstride
      cases hstride
    · rw [hstride] at hstride'
      cases hstride'
      dsimp only at hx hL
      rw [hx, hlevel] at hL
      rw [hx, ← Except.ok.inj hL] at hwalk
      exact ⟨c, hwalk, hshort⟩
  · rintro ⟨c, hwalk, hshort⟩
    exact ⟨c, .head ⟨r, hstride, rfl, hlevel⟩ hwalk, hshort⟩

/-- A walk pays every outcome right unless it strays. -/
theorem Tracks.climb_pays_iff (h : s.Tracks ctx ascending v first) (hs : s.Sized)
    (hinv : s.InvertsReached ctx ascending v first) (hcur : first ≤ current) {rs : List PayoutRange}
    (hclimb : s.climb ctx ascending current (s.level (v current)) = .ok rs) :
    Pays (fun x => s.pay (s.level (v x))) rs ↔ ¬s.Strays ctx ascending v current := by
  generalize hL : s.level (v current) = L at hclimb
  fun_induction Segment.climb ctx s ascending current L generalizing rs with
  | case1 current L failure hstride => cases hclimb
  | case2 current L ranges hstride =>
      cases hclimb
      subst hL
      rw [h.pays_finish_iff hs hinv hcur hstride, strays_of_finish hstride]
  | case3 current L r hstride ih =>
      subst hL
      obtain ⟨-, -, hle, hstop⟩ := stride_onward hstride
      obtain ⟨next, hnext, hclimb⟩ := bind_eq_ok.mp hclimb
      obtain ⟨rest, hrest, hclimb⟩ := bind_eq_ok.mp hclimb
      cases hclimb
      rw [h.levelAt hs (by omega) hstop.le] at hnext
      rw [h.strays_of_onward hs hcur hstride,
        ← ih next (by omega) (Except.ok.inj hnext) hrest, ← List.singleton_append]
      have hr := h.pays_onward hs hinv hcur hstride
      exact ⟨fun hall t ht => hall t (List.mem_append_right _ ht), hr.append⟩

end Segment

/-! ## The segments of a span -/

namespace Stretch

variable {s : Stretch} {ctx : Context} {ascending : Bool} {b : ℤ} {v : ℤ → ℚ}

/-- What is paid agrees with the rule on all of a segment exactly if the walk does not stray there. -/
theorem pointwise_iff_not_strays {ranges steps : List PayoutRange} (hs : s.Sized)
    (hlt : b < (s.segmentAt b).stop) (htracks : (s.segmentAt b).Tracks ctx ascending v b)
    (hdirection : ∀ z z', s.curve.evaluate ctx b = .ok z →
      s.curve.evaluate ctx (s.segmentAt b).stop = .ok z' → z.lt z' = .ok ascending)
    (hinv : (s.segmentAt b).InvertsReached ctx ascending v b)
    (hsteps : (s.segmentAt b).split ctx b = .ok steps)
    (hpay : ∀ x, b ≤ x → x < (s.segmentAt b).stop → payoutAt? ranges x = payoutAt? steps x) :
    (∀ x, b ≤ x → x < (s.segmentAt b).stop →
      ∃ payout, s.pointwise ctx x = .ok payout ∧ payoutAt? ranges x = some payout) ↔
      ¬(s.segmentAt b).Strays ctx ascending v b := by
  have hseg := hs.segmentAt b
  have htiles := Segment.split_tiles hlt hsteps
  rw [htracks.split_eq hseg hlt hdirection] at hsteps
  rw [← htracks.climb_pays_iff hseg hinv le_rfl hsteps, htiles.pays_iff]
  refine forall_congr' fun x => forall_congr' fun hx => forall_congr' fun hxs => ?_
  rw [pointwise_eq_pay hs hx hxs (htracks.levelAt hseg hx hxs.le), hpay x hx hxs]
  simp

end Stretch

namespace Span

variable {span : Span} {ctx : Context} {collateral : ℤ} {curve : Curve} {policy : RoundingPolicy}
  {intervals : List RoundingInterval} {settings : Settings} {ranges : List PayoutRange} {start b : ℤ}
  {ascending : Bool} {v : ℤ → ℚ}

/-- Along payouts that do not turn back, and whose inverses are right where they are reached, the answer
agrees with the rule on all of a segment unless the walk strays there. -/
theorem splitByIntervals_segment_iff (hcollateral : collateral < 10 ^ 18)
    (hsize : ∀ interval ∈ intervals, interval.modulus < 10 ^ 18)
    (hpolicy : RoundingPolicy.ofList intervals = .ok policy) (hctx : settings.context = .ok ctx)
    (hsplit : span.splitByIntervals collateral curve intervals settings = .ok ranges)
    (hstart : (span.stretch collateral curve policy settings).findStart ctx (span.first + 1) = .ok start)
    (hb : (span.stretch collateral curve policy settings).Visits start b)
    (htracks : ((span.stretch collateral curve policy settings).segmentAt b).Tracks ctx ascending v b)
    (hdirection : ∀ z z', curve.evaluate ctx b = .ok z →
      curve.evaluate ctx ((span.stretch collateral curve policy settings).segmentAt b).stop = .ok z' →
        z.lt z' = .ok ascending)
    (hinv : ((span.stretch collateral curve policy settings).segmentAt b).InvertsReached ctx ascending
      v b) :
    (∀ x, b ≤ x → x < ((span.stretch collateral curve policy settings).segmentAt b).stop →
      ∃ payout, (span.stretch collateral curve policy settings).pointwise ctx x = .ok payout ∧
        payoutAt? ranges x = some payout) ↔
      ¬((span.stretch collateral curve policy settings).segmentAt b).Strays ctx ascending v b := by
  obtain ⟨hfirst, hlast⟩ := Stretch.findStart_bounds hstart
  have hlast : start < span.last := hlast
  obtain ⟨start', hstart', hall⟩ := exists_start hpolicy hctx hsplit (by omega)
  obtain rfl : start = start' := Except.ok.inj (hstart.symm.trans hstart')
  obtain ⟨steps, hsteps, hpay⟩ := hall b hb
  have hcheck := check_eq_ok_iff.mp (splitByIntervals_eq_ok.mp hsplit).1
  exact Stretch.pointwise_iff_not_strays ⟨sized_ofList hsize hpolicy, hcheck.2.2.1, hcollateral⟩
    hb.lt_stop htracks hdirection hinv hsteps hpay

end Span

/-! ## Hyperbolas -/

/-- What a walk asks for is a payout that can be inverted, and that the current outcome has not reached. -/
theorem Segment.asks_spec {ctx : Context} {s : Segment} {ascending : Bool} {q : ℚ} {y : Decimal.Finite}
    (hs : s.Sized) (hlast : s.level q ≠ s.lastLevel ascending)
    (hasks : s.Asks ctx ascending (s.level q) y) :
    IsHalfInteger y.value ∧ |y.value| ≤ 2 * 10 ^ 18 ∧ Near ascending y.value q := by
  have hl := hs.isLevel_level q
  have hL := hs.abs_level_le hl
  have hnext := hs.abs_level_le (hl.next hs hlast)
  have hL' : |(s.level q : ℚ)| ≤ 2 * 10 ^ 18 := by exact_mod_cast hL
  have hnext' : |((s.level q + s.step ascending : ℤ) : ℚ)| ≤ 2 * 10 ^ 18 := by exact_mod_cast hnext
  rcases hasks with hmid | rfl
  · obtain ⟨_, ⟨⟩, hy, hhalf, hnear⟩ := midpoint_inv hs hlast hmid
    refine ⟨hhalf, ?_, hnear⟩
    rw [hy]
    push_cast at hnext'
    rw [abs_le] at hL' hnext' ⊢
    constructor <;> linarith
  · have hhalf := isHalfInteger_ofInt (hs.abs_next_le hl ascending)
    rw [Finite.value_ofInt] at hhalf ⊢
    exact ⟨hhalf, hnext', near_next hs hlast⟩

/-- Along a hyperbola every payout that is asked for and reached has the right inverse. -/
theorem Hyperbola.Along.invertsReached {h : Hyperbola} {ctx : Context} {s : Segment} {first : ℤ}
    {ascending : Bool} (ha : h.Along ctx s first) (hp : ctx.precision ≤ 10000) (hr : h.Resolved)
    (hs : s.Sized) : s.InvertsReached ctx ascending (s.curve.computed ctx) first := by
  intro current hcur hlast y hasks hreached
  obtain ⟨hy, hyb, hnear⟩ := Segment.asks_spec hs hlast hasks
  exact ha.placed_of_reached hp hr hy hyb hcur hnear hreached

/-- The direction in which the payouts at the two ends of a segment lead the walk. -/
def Segment.Leads (ctx : Context) (s : Segment) (first : ℤ) (ascending : Bool) : Prop :=
  ∃ z z', s.curve.evaluate ctx first = .ok z ∧ s.curve.evaluate ctx s.stop = .ok z' ∧
    z.lt z' = .ok ascending

theorem Segment.Leads.lt_eq {ctx : Context} {s : Segment} {first : ℤ} {ascending : Bool}
    (h : s.Leads ctx first ascending) {z z' : Decimal} (hz : s.curve.evaluate ctx first = .ok z)
    (hz' : s.curve.evaluate ctx s.stop = .ok z') : z.lt z' = .ok ascending := by
  obtain ⟨w, w', hw, hw', hlt⟩ := h
  rw [← Except.ok.inj (hw.symm.trans hz), ← Except.ok.inj (hw'.symm.trans hz')]
  exact hlt

namespace Hyperbola.Along

variable {h : Hyperbola} {ctx : Context}

theorem exists_leads {s : Segment} {first : ℤ} (ha : h.Along ctx s first) (hp : ctx.precision ≤ 10000)
    (hr : h.Resolved) (hlt : first < s.stop) : ∃ ascending, s.Leads ctx first ascending := by
  obtain ⟨p⟩ := ha.exists_passage hp hr.scaled hr.c_isZero le_rfl hlt.le
  obtain ⟨p'⟩ := ha.exists_passage hp hr.scaled hr.c_isZero hlt.le le_rfl
  exact ⟨_, _, _, ha.evaluate_eq p, ha.evaluate_eq p', lt_finite _ _⟩

theorem pointwise_iff {s : Stretch} {b : ℤ} {ascending : Bool} {ranges steps : List PayoutRange}
    (ha : h.Along ctx (s.segmentAt b) b) (hp : ctx.precision ≤ 10000) (hr : h.Resolved) (hs : s.Sized)
    (hlt : b < (s.segmentAt b).stop) (hleads : (s.segmentAt b).Leads ctx b ascending)
    (hsteps : (s.segmentAt b).split ctx b = .ok steps)
    (hpay : ∀ x, b ≤ x → x < (s.segmentAt b).stop → payoutAt? ranges x = payoutAt? steps x) :
    (∀ x, b ≤ x → x < (s.segmentAt b).stop →
      ∃ payout, s.pointwise ctx x = .ok payout ∧ payoutAt? ranges x = some payout) ↔
      ¬(s.segmentAt b).Strays ctx ascending (s.curve.computed ctx) b :=
  Stretch.pointwise_iff_not_strays hs hlt (ha.tracks hp hr.scaled hr.c_isZero fun _ _ => hleads.lt_eq)
    (fun _ _ => hleads.lt_eq) (ha.invertsReached hp hr (hs.segmentAt b)) hsteps hpay

end Hyperbola.Along

namespace Span

variable {span : Span} {h : Hyperbola} {ctx : Context} {collateral : ℤ} {policy : RoundingPolicy}
  {intervals : List RoundingInterval} {settings : Settings} {ranges : List PayoutRange} {start b : ℤ}

theorem along_segmentAt (hscale : span.AtScale collateral intervals) (hr : h.Resolved)
    (hp : ctx.precision ≤ 10000)
    (hstart : (span.stretch collateral (.hyperbola h) policy settings).findStart ctx (span.first + 1) =
      .ok start)
    (hclear : (Curve.hyperbola h).Clear start)
    (hb : (span.stretch collateral (.hyperbola h) policy settings).Visits start b) :
    h.Along ctx ((span.stretch collateral (.hyperbola h) policy settings).segmentAt b) b := by
  obtain ⟨hfirst, hlast⟩ := Stretch.findStart_bounds hstart
  have hlast : start < span.last := hlast
  obtain ⟨hle, hlt⟩ := hb.bounds
  have hlt : b < span.last := hlt
  have h0 := hscale.first_nonneg
  have h1 := hscale.last_lt
  have hclear' : (Curve.hyperbola h).Clear b :=
    hclear.imp id fun hright => hright.trans (by exact_mod_cast hle)
  have hdefined : (Curve.hyperbola h).isDefinedAt ctx start = .ok true :=
    Hyperbola.isDefinedAt_of_firstDefined hr.scaled (by omega) (show span.last - 1 < 10 ^ 18 by omega)
      (Stretch.firstDefined_of_findStart hstart)
  refine ⟨rfl, by omega, (policy.segmentEnd_le b span.last).trans_lt h1, hclear', ?_⟩
  exact Curve.stays_of_scaled hp (show (Curve.hyperbola h).Scaled from hr.scaled) start
    ⟨by omega, by omega, hclear⟩ b ⟨by omega, by omega, hclear'⟩ hle hdefined

/-- Along a hyperbola with `c = 0` that begins at a clear outcome, and far enough from its asymptotes, every
outcome from there on is paid what the rule says exactly if the walk strays on none of its segments. -/
theorem splitByIntervals_hyperbola_iff (hscale : span.AtScale collateral intervals) (hr : h.Resolved)
    (hpolicy : RoundingPolicy.ofList intervals = .ok policy) (hctx : settings.context = .ok ctx)
    (hp : ctx.precision ≤ 10000)
    (hsplit : span.splitByIntervals collateral (.hyperbola h) intervals settings = .ok ranges)
    (hstart : (span.stretch collateral (.hyperbola h) policy settings).findStart ctx (span.first + 1) =
      .ok start)
    (hclear : (Curve.hyperbola h).Clear start) :
    (∀ x, start ≤ x → x < span.last →
      ∃ payout, (span.stretch collateral (.hyperbola h) policy settings).pointwise ctx x = .ok payout ∧
        payoutAt? ranges x = some payout) ↔
      ∀ b ascending, (span.stretch collateral (.hyperbola h) policy settings).Visits start b →
        ((span.stretch collateral (.hyperbola h) policy settings).segmentAt b).Leads ctx b ascending →
        ¬((span.stretch collateral (.hyperbola h) policy settings).segmentAt b).Strays ctx ascending
          ((Curve.hyperbola h).computed ctx) b := by
  obtain ⟨hfirst, hlast⟩ := Stretch.findStart_bounds hstart
  have hlast : start < span.last := hlast
  obtain ⟨hne, rfl⟩ := RoundingPolicy.ofList_eq_ok.mp hpolicy
  have hs := hscale.sized (.hyperbola h) settings hne
  obtain ⟨start', hstart', hall⟩ := exists_start hpolicy hctx hsplit (by omega)
  obtain rfl : start = start' := Except.ok.inj (hstart.symm.trans hstart')
  have along := fun b => along_segmentAt (b := b) hscale hr hp hstart hclear
  constructor
  · intro hrule b ascending hb hleads
    obtain ⟨steps, hsteps, hpay⟩ := hall b hb
    refine ((along b hb).pointwise_iff hp hr hs hb.lt_stop hleads hsteps hpay).mp fun x hx hxs => ?_
    exact hrule x (hb.bounds.1.trans hx) (hxs.trans_le (RoundingPolicy.segmentEnd_le _ _ _))
  · intro hstays x hx hxl
    obtain ⟨b, hb, hbx, hxs⟩ := Stretch.exists_visits
      (s := span.stretch collateral (.hyperbola h) (.ofNonempty intervals hne) settings) hx hxl
    obtain ⟨steps, hsteps, hpay⟩ := hall b hb
    obtain ⟨ascending, hleads⟩ := (along b hb).exists_leads hp hr hb.lt_stop
    exact ((along b hb).pointwise_iff hp hr hs hb.lt_stop hleads hsteps hpay).mpr
      (hstays b ascending hb hleads) x hbx hxs

/-- Payouts that fall towards nine tenths. One half is never reached, but squaring makes an outcome of
it that lies on the curve. -/
def twoRoots : Hyperbola :=
  ⟨.ofInt 1, .ofInt (-1), .ofInt 0, ⟨false, 2, -1⟩, .ofInt 0, ⟨false, 9, -1⟩, true, Finite.isZero_one⟩

def twoRootsStretch : Stretch :=
  stretch ⟨0, 10, 1, 1⟩ 1 (.hyperbola twoRoots) .unit Settings.standard

/-- From the third outcome on nothing is paid. -/
theorem splitByIntervals_twoRoots :
    splitByIntervals ⟨0, 10, 1, 1⟩ 1 (.hyperbola twoRoots) [.unit] Settings.standard =
      .ok [⟨0, 2, 1⟩, ⟨3, 9, 0⟩, ⟨10, 10, 1⟩] := by
  decide +kernel

/-- The rule says otherwise. -/
theorem pointwise_twoRoots : twoRootsStretch.pointwise ⟨78, by decide⟩ 3 = .ok 1 := by
  decide +kernel

theorem stop_twoRoots : (twoRootsStretch.segmentAt 1).stop = 10 := by
  decide +kernel

theorem resolved_twoRoots : twoRoots.Resolved := by
  refine ⟨Hyperbola.scaled_of_digits (by decide), by decide, ?_⟩
  norm_num [twoRoots, Finite.value, Finite.signed, Finite.ofInt]

theorem along_twoRoots : twoRoots.Along ⟨78, by decide⟩ (twoRootsStretch.segmentAt 1) 1 where
  curve_eq := rfl
  first_nonneg := by decide
  stop_lt := by rw [stop_twoRoots]; decide
  clear := Or.inl (by simp [twoRoots, Finite.value_ofInt])
  defined := by decide +kernel

theorem sized_twoRoots : twoRootsStretch.Sized := by
  have hpolicy : RoundingPolicy.ofList [.unit] = .ok .unit := rfl
  exact ⟨sized_ofList (by simp) hpolicy, by decide, by decide⟩

/-- The walk down this curve strays. -/
theorem splitByIntervals_segment_iff_twoRoots : (twoRootsStretch.segmentAt 1).Strays ⟨78, by decide⟩ false
    (Curve.computed ⟨78, by decide⟩ (.hyperbola twoRoots)) 1 := by
  have hctx : Settings.standard.context = .ok ⟨78, by decide⟩ := by decide
  have hstart : twoRootsStretch.findStart ⟨78, by decide⟩ 1 = .ok 1 := by decide +kernel
  have hdirection : ∀ z z', Curve.evaluate ⟨78, by decide⟩ (.hyperbola twoRoots) 1 = .ok z →
      Curve.evaluate ⟨78, by decide⟩ (.hyperbola twoRoots) (twoRootsStretch.segmentAt 1).stop = .ok z' →
        z.lt z' = .ok false := by
    have hfalls : (Curve.evaluate ⟨78, by decide⟩ (.hyperbola twoRoots) 1 >>= fun z =>
        Curve.evaluate ⟨78, by decide⟩ (.hyperbola twoRoots) 10 >>= fun z' => z.lt z') = .ok false := by
      decide +kernel
    intro z z' hz hz'
    rw [stop_twoRoots] at hz'
    rwa [bind_of_ok hz, bind_of_ok hz'] at hfalls
  have hprecision : (⟨78, by decide⟩ : Context).precision ≤ 10000 := by decide
  have htracks := along_twoRoots.tracks hprecision resolved_twoRoots.scaled resolved_twoRoots.c_isZero hdirection
  have hinv : (twoRootsStretch.segmentAt 1).InvertsReached _ false _ 1 :=
    along_twoRoots.invertsReached hprecision resolved_twoRoots (sized_twoRoots.segmentAt 1)
  have hiff := splitByIntervals_segment_iff (by decide) (by simp) rfl hctx splitByIntervals_twoRoots hstart
    (.start (by decide)) htracks hdirection hinv
  by_contra hstrays
  obtain ⟨payout, hrule, hpaid⟩ := hiff.mpr hstrays 3 (by decide) (by decide +kernel)
  have hrule := hrule.symm.trans pointwise_twoRoots
  rw [Except.ok.inj hrule] at hpaid
  revert hpaid
  decide

/-- An outcome need not be paid what the rule says, though the curve is defined there and `c` is zero. -/
theorem splitByIntervals_twoRoots_wrong :
    twoRoots.Scaled ∧ twoRoots.b.isZero = false ∧ twoRoots.c.isZero = true ∧
    Span.AtScale ⟨0, 10, 1, 1⟩ 1 [.unit] ∧
    twoRootsStretch.findStart ⟨78, by decide⟩ 1 = .ok 1 ∧
    ∃ ranges, splitByIntervals ⟨0, 10, 1, 1⟩ 1 (.hyperbola twoRoots) [.unit] Settings.standard =
        .ok ranges ∧ payoutAt? ranges 3 = some 0 ∧
      Curve.isDefinedAt ⟨78, by decide⟩ (.hyperbola twoRoots) 3 = .ok true ∧
      twoRootsStretch.pointwise ⟨78, by decide⟩ 3 = .ok 1 :=
  ⟨Hyperbola.scaled_of_digits (by decide), by decide, by decide,
    ⟨by decide, by decide, by decide, by decide, by decide, by decide, by decide, by simp⟩,
    by decide +kernel, _, splitByIntervals_twoRoots, by decide, by decide +kernel, pointwise_twoRoots⟩

end Span

end NumericContract
