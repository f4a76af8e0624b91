import NumericContract.Proofs.Decimal.Multiple
import NumericContract.Proofs.PayoutRange
import NumericContract.Staircase

/-!
# The shape of a staircase

Whatever the curve says, and even where its payouts and their inverses contradict each other, the
walk covers its segment outcome by outcome and pays only levels: multiples of the modulus from zero
to the cap. What a span is split into is therefore a merged tiling of payouts that the collateral
covers.
-/

namespace NumericContract

open Decimal PayoutRange

def RoundingInterval.always (modulus : ℤ) (h : 0 < modulus) : RoundingInterval :=
  ⟨0, modulus, by decide, h⟩

/-! ## Payouts of a curve -/

namespace Curve

variable {ctx : Context} {outcome first last start : ℤ} {x : Finite}

theorem representable_payoutAt {h : Hyperbola} {u : Finite}
    (hx : h.payoutAt ctx u = .ok (.finite x)) : ctx.Representable x.value := by
  unfold Hyperbola.payoutAt at hx
  split at hx
  · obtain ⟨numerator, -, hx⟩ := bind_eq_ok.mp hx
    split at hx <;> cases hx
  · obtain ⟨c, -, hx⟩ := bind_eq_ok.mp hx
    obtain ⟨a, -, hx⟩ := bind_eq_ok.mp hx
    obtain ⟨linear, -, hx⟩ := bind_eq_ok.mp hx
    obtain ⟨product, -, hx⟩ := bind_eq_ok.mp hx
    obtain ⟨inverse, -, hx⟩ := bind_eq_ok.mp hx
    obtain ⟨sum, -, hx⟩ := bind_eq_ok.mp hx
    obtain ⟨total, htotal, hx⟩ := bind_eq_ok.mp hx
    cases hx
    exact ((Finite.add_computes ctx sum h.translatePayout).rounds x htotal).representable

theorem representable_evaluate {curve : Curve} (hx : curve.evaluate ctx outcome = .ok (.finite x)) :
    ctx.widened.Representable x.value := by
  cases curve with
  | line l =>
      obtain ⟨rise, -, hx⟩ := bind_eq_ok.mp hx
      obtain ⟨gained, -, hx⟩ := bind_eq_ok.mp hx
      obtain ⟨quotient, -, hx⟩ := bind_eq_ok.mp hx
      exact representable_add hx
  | hyperbola h =>
      obtain ⟨u?, -, hx⟩ := bind_eq_ok.mp hx
      cases u? with
      | none => cases hx
      | some u => exact representable_payoutAt hx

theorem scan_bounds {curve : Curve} {count : ℕ} (h : curve.scan ctx outcome count = .ok (some start)) :
    outcome ≤ start ∧ start < outcome + count := by
  induction count generalizing outcome with
  | zero => cases h
  | succ count ih =>
      obtain ⟨isDefined, -, h⟩ := bind_eq_ok.mp h
      split at h
      · cases h
        omega
      · have := ih h
        omega

theorem probe_bounds {curve : Curve} {steps : ℤ} (h : curve.probe ctx first last steps = .ok (some start)) :
    first ≤ start ∧ start ≤ last := by
  have := scan_bounds h
  omega

theorem firstDefined_bounds {curve : Curve} {steps : ℤ}
    (h : curve.firstDefined ctx first last steps = .ok (some start)) : first ≤ start ∧ start ≤ last := by
  cases curve with
  | line l => exact probe_bounds h
  | hyperbola hyp =>
      simp only [firstDefined] at h
      split at h
      · have h := Except.ok.inj h
        split at h
        · cases h
          omega
        · cases h
      · exact probe_bounds h

end Curve

namespace Segment

/-- The bounds within which payouts are rounded exactly. -/
structure Sized (s : Segment) : Prop where
  modulus_pos : 0 < s.modulus
  modulus_lt : s.modulus < 10 ^ 18
  collateral_nonneg : 0 ≤ s.collateral
  collateral_lt : s.collateral < 10 ^ 18

structure IsLevel (s : Segment) (level : ℤ) : Prop where
  nonneg : 0 ≤ level
  le_cap : level ≤ s.cap
  dvd : s.modulus ∣ level

variable {ctx : Context} {s : Segment} {ascending : Bool} {current level : ℤ}

/-! ## Levels -/

theorem dvd_cap (s : Segment) : s.modulus ∣ s.cap := Int.dvd_mul_left _ _

theorem Sized.collateral_le_cap (hs : s.Sized) : s.collateral ≤ s.cap := by
  have := Int.ediv_mul_le (-s.collateral) hs.modulus_pos.ne'
  unfold cap
  rw [neg_mul]
  omega

theorem Sized.cap_lt (hs : s.Sized) : s.cap < s.collateral + s.modulus := by
  have := Int.lt_ediv_add_one_mul_self (-s.collateral) hs.modulus_pos
  unfold cap
  rw [neg_mul]
  rw [add_mul, one_mul] at this
  omega

theorem Sized.cap_nonneg (hs : s.Sized) : 0 ≤ s.cap :=
  hs.collateral_nonneg.trans hs.collateral_le_cap

theorem Sized.isLevel_zero (hs : s.Sized) : s.IsLevel 0 :=
  ⟨le_rfl, hs.cap_nonneg, dvd_zero _⟩

theorem Sized.isLevel_cap (hs : s.Sized) : s.IsLevel s.cap :=
  ⟨hs.cap_nonneg, le_rfl, s.dvd_cap⟩

theorem Sized.isLevel_clamp (hs : s.Sized) {k : ℤ} (hk : s.modulus ∣ k) :
    s.IsLevel (clampInt k 0 s.cap) := by
  have hcap := hs.cap_nonneg
  refine ⟨by unfold clampInt; omega, by unfold clampInt; omega, ?_⟩
  unfold clampInt
  rcases le_total k s.cap with h | h
  · rw [min_eq_left h]
    rcases le_total 0 k with h0 | h0
    · rwa [max_eq_right h0]
    · rw [max_eq_left h0]
      exact dvd_zero _
  · rw [min_eq_right h, max_eq_right hcap]
    exact s.dvd_cap

theorem add_modulus_le {j k : ℤ} (hj : s.modulus ∣ j) (hk : s.modulus ∣ k)
    (hlt : j < k) : j + s.modulus ≤ k := by
  have := Int.le_of_dvd (by omega) (Int.dvd_sub hk hj)
  omega

theorem IsLevel.next (hl : s.IsLevel level) (hs : s.Sized) (h : level ≠ s.lastLevel ascending) :
    s.IsLevel (level + s.step ascending) := by
  cases ascending with
  | false =>
      have hne : level ≠ 0 := h
      have := add_modulus_le (dvd_zero _) hl.dvd (lt_of_le_of_ne hl.nonneg hne.symm)
      have hpos := hs.modulus_pos
      have hle := hl.le_cap
      refine ⟨?_, ?_, ?_⟩ <;> simp only [step, Bool.false_eq_true, if_false]
      · omega
      · omega
      · exact Int.dvd_add hl.dvd (Int.dvd_neg.mpr (dvd_refl _))
  | true =>
      have hne : level ≠ s.cap := h
      have := add_modulus_le hl.dvd s.dvd_cap (lt_of_le_of_ne hl.le_cap hne)
      have hpos := hs.modulus_pos
      have hnonneg := hl.nonneg
      refine ⟨?_, ?_, ?_⟩ <;> simp only [step, if_true]
      · omega
      · omega
      · exact Int.dvd_add hl.dvd (dvd_refl _)

theorem IsLevel.pay_bounds (hl : s.IsLevel level) (hs : s.Sized) :
    0 ≤ s.pay level ∧ s.pay level ≤ s.collateral := by
  have := hl.nonneg
  have := hs.collateral_nonneg
  unfold pay
  omega

theorem levelOf_finite (hs : s.Sized) {x : Finite} (hx : ctx.widened.Representable x.value)
    (h : s.levelOf ctx (.finite x) = .ok level) :
    level = clampInt (nearestMultiple s.modulus x.value) 0 s.cap := by
  obtain ⟨k, hk, h⟩ := bind_eq_ok.mp h
  simp only [roundToMultiple] at hk
  rw [if_neg (by have := hs.modulus_pos; omega)] at hk
  have hk := Failure.ofArithmetic_eq_ok.mp hk
  have hcap := hs.cap_lt
  have hm := hs.modulus_lt
  have hc := hs.collateral_lt
  rw [← Except.ok.inj h]
  exact Decimal.Finite.clamp_nearestMultiple (le_max_left _ _) hx hs.modulus_pos hm hs.cap_nonneg (by omega) hk

theorem isLevel_of_levelOf {value : Decimal} (hs : s.Sized)
    (hvalue : ∀ x, value = .finite x → ctx.widened.Representable x.value)
    (h : s.levelOf ctx value = .ok level) : s.IsLevel level := by
  cases value with
  | finite x =>
      rw [levelOf_finite hs (hvalue x rfl) h]
      exact hs.isLevel_clamp (Int.dvd_mul_right _ _)
  | infinity negative =>
      cases negative with
      | false =>
          cases h
          exact hs.isLevel_cap
      | true =>
          cases h
          exact hs.isLevel_zero
  | nan signaling negative payload => cases h

theorem evaluate_of_curvePayout {value : Decimal} (h : s.curvePayout ctx current = .ok value) :
    s.curve.evaluate ctx current = .ok value ∧ value.isNaN = false := by
  obtain ⟨payout, hpayout, h⟩ := bind_eq_ok.mp h
  have hpayout := Failure.ofArithmetic_eq_ok.mp hpayout
  cases hn : payout.isNaN with
  | true =>
      rw [hn] at h
      cases h
  | false =>
      rw [hn] at h
      cases h
      exact ⟨hpayout, hn⟩

theorem isLevel_of_curvePayout {value : Decimal} (hs : s.Sized)
    (hvalue : s.curvePayout ctx current = .ok value) (h : s.levelOf ctx value = .ok level) :
    s.IsLevel level := by
  refine isLevel_of_levelOf hs (fun x hx => ?_) h
  subst hx
  exact Curve.representable_evaluate (evaluate_of_curvePayout hvalue).1

theorem isLevel_of_levelAt (hs : s.Sized) (h : s.levelAt ctx current = .ok level) :
    s.IsLevel level := by
  obtain ⟨value, hvalue, h⟩ := bind_eq_ok.mp h
  exact isLevel_of_curvePayout hs hvalue h

/-! ## The walk -/

/-- Ranges that tile the outcomes from `a` to `b` and pay what the collateral covers. -/
structure Covers (collateral a b : ℤ) (rs : List PayoutRange) : Prop where
  tiles : Tiles a rs b
  payout_bounds : ∀ r ∈ rs, 0 ≤ r.payout ∧ r.payout ≤ collateral

theorem rest_tiles (hcur : current < s.stop) : Tiles current [s.rest current level] s.stop :=
  tiles_singleton hcur _

theorem rest_bounds (hs : s.Sized) (hl : s.IsLevel level) :
    ∀ r ∈ [s.rest current level], 0 ≤ r.payout ∧ r.payout ≤ s.collateral := by
  simpa [rest] using hl.pay_bounds hs

/-- A step that ends at a boundary inside the segment, or else takes the rest of it. -/
theorem strideTo_eq_ok {boundary? : Option ℤ} {result : Stride}
    (h : s.strideTo ctx ascending current level boundary? = .ok result) :
    (result = .finish [s.rest current level] ∧ ∀ last ∈ boundary?, last < current ∨ s.stop - 1 ≤ last) ∨
    ∃ last, boundary? = some last ∧ current ≤ last ∧ last + 1 < s.stop ∧
      ((s.reaches ctx (level + s.step ascending) = .ok true ∧
          result = .onward ⟨current, last, s.pay level⟩) ∨
        (s.reaches ctx (level + s.step ascending) = .ok false ∧
          result = .finish [⟨current, last, s.pay level⟩, s.rest (last + 1) (level + s.step ascending)])) := by
  cases boundary? with
  | none =>
      cases h
      exact Or.inl ⟨rfl, by simp⟩
  | some last =>
      simp only [strideTo] at h
      split at h
      · next houtside =>
        cases h
        exact Or.inl ⟨rfl, by simpa using houtside⟩
      next hinside =>
      obtain ⟨reached, hreached, h⟩ := bind_eq_ok.mp h
      refine Or.inr ⟨last, rfl, by omega, by omega, ?_⟩
      cases reached with
      | true =>
          cases h
          exact Or.inl ⟨hreached, rfl⟩
      | false =>
          cases h
          exact Or.inr ⟨hreached, rfl⟩

theorem stride_eq_ok {result : Stride} (h : s.stride ctx ascending current level = .ok result) :
    (level = s.lastLevel ascending ∧ result = .finish [s.rest current level]) ∨
    (level ≠ s.lastLevel ascending ∧ ∃ middle boundary?,
      midpoint ctx level (s.step ascending) = .ok middle ∧
      s.boundary ctx middle ascending = .ok boundary? ∧
      s.strideTo ctx ascending current level boundary? = .ok result) := by
  unfold stride at h
  split at h
  · next hlast =>
    cases h
    exact Or.inl ⟨hlast, rfl⟩
  · next hne =>
    obtain ⟨middle, hmiddle, h⟩ := bind_eq_ok.mp h
    obtain ⟨boundary?, hboundary, h⟩ := bind_eq_ok.mp h
    exact Or.inr ⟨hne, middle, boundary?, Failure.ofArithmetic_eq_ok.mp hmiddle, hboundary, h⟩

/-- A step that ends the segment pays the rest of it the level that it stands on, or the next one after
a boundary. -/
theorem stride_finish_cases {ranges : List PayoutRange}
    (h : s.stride ctx ascending current level = .ok (.finish ranges)) :
    ranges = [s.rest current level] ∨
      ∃ last, level ≠ s.lastLevel ascending ∧ current ≤ last ∧ last + 1 < s.stop ∧
        ranges = [⟨current, last, s.pay level⟩, s.rest (last + 1) (level + s.step ascending)] := by
  obtain ⟨-, h⟩ | ⟨hne, middle, boundary?, -, -, h⟩ := stride_eq_ok h
  · cases h
    exact Or.inl rfl
  obtain ⟨h, -⟩ | ⟨last, -, hle, hlt, ⟨-, h⟩ | ⟨-, h⟩⟩ := strideTo_eq_ok h
  · cases h
    exact Or.inl rfl
  · cases h
  · cases h
    exact Or.inr ⟨last, hne, hle, hlt, rfl⟩

theorem stride_finish_tiles {ranges : List PayoutRange} (hcur : current < s.stop)
    (h : s.stride ctx ascending current level = .ok (.finish ranges)) :
    Tiles current ranges s.stop := by
  obtain rfl | ⟨last, -, hle, hlt, rfl⟩ := stride_finish_cases h
  · exact rest_tiles hcur
  · exact ⟨rfl, hle, rest_tiles hlt⟩

theorem stride_finish_bounds {ranges : List PayoutRange} (hs : s.Sized) (hl : s.IsLevel level)
    (h : s.stride ctx ascending current level = .ok (.finish ranges)) :
    ∀ r ∈ ranges, 0 ≤ r.payout ∧ r.payout ≤ s.collateral := by
  obtain rfl | ⟨last, hne, -, -, rfl⟩ := stride_finish_cases h
  · exact rest_bounds hs hl
  · exact List.forall_mem_cons.mpr ⟨hl.pay_bounds hs, rest_bounds hs (hl.next hs hne)⟩

/-- Whatever the levels, the walk goes on outcome by outcome to the end of the segment. -/
theorem climb_tiles {rs : List PayoutRange} (hcur : current < s.stop)
    (h : s.climb ctx ascending current level = .ok rs) : Tiles current rs s.stop := by
  fun_induction climb ctx s ascending current level generalizing rs with
  | case1 current level failure hstride => cases h
  | case2 current level ranges hstride =>
      cases h
      exact stride_finish_tiles hcur hstride
  | case3 current level r hstride ih =>
      obtain ⟨hfirst, -, hle, hlt⟩ := stride_onward hstride
      obtain ⟨next, -, h⟩ := bind_eq_ok.mp h
      obtain ⟨rest, hrest, h⟩ := bind_eq_ok.mp h
      cases h
      exact ⟨hfirst, hle, ih next hlt hrest⟩

theorem climb_bounds {rs : List PayoutRange} (hs : s.Sized) (hl : s.IsLevel level)
    (h : s.climb ctx ascending current level = .ok rs) :
    ∀ r ∈ rs, 0 ≤ r.payout ∧ r.payout ≤ s.collateral := by
  fun_induction climb ctx s ascending current level generalizing rs with
  | case1 current level failure hstride => cases h
  | case2 current level ranges hstride =>
      cases h
      exact stride_finish_bounds hs hl hstride
  | case3 current level r hstride ih =>
      obtain ⟨-, hpay, -, -⟩ := stride_onward hstride
      obtain ⟨next, hnext, h⟩ := bind_eq_ok.mp h
      obtain ⟨rest, hrest, h⟩ := bind_eq_ok.mp h
      cases h
      refine List.forall_mem_cons.mpr ⟨?_, ih next (isLevel_of_levelAt hs hnext) hrest⟩
      rw [hpay]
      exact hl.pay_bounds hs

def Strides (ctx : Context) (s : Segment) (ascending : Bool) (p q : ℤ × ℤ) : Prop :=
  ∃ r, s.stride ctx ascending p.1 p.2 = .ok (.onward r) ∧ q.1 = r.last + 1 ∧
    s.levelAt ctx q.1 = .ok q.2

theorem Strides.lt {p q : ℤ × ℤ} (h : s.Strides ctx ascending p q) : p.1 < q.1 ∧ q.1 < s.stop := by
  obtain ⟨r, hstride, hq, -⟩ := h
  have := stride_onward hstride
  omega

theorem transGen_strides_lt {p q : ℤ × ℤ} (h : Relation.TransGen (s.Strides ctx ascending) p q) :
    p.1 < q.1 ∧ q.1 < s.stop := by
  induction h with
  | single h => exact h.lt
  | tail _ h ih =>
      have := h.lt
      omega

theorem Covers.append {collateral a b c : ℤ} {rs rs' : List PayoutRange}
    (h : Covers collateral a b rs) (h' : Covers collateral b c rs') :
    Covers collateral a c (rs ++ rs') := by
  refine ⟨h.tiles.append h'.tiles, fun r hr => ?_⟩
  rcases List.mem_append.mp hr with hr | hr
  · exact h.payout_bounds r hr
  · exact h'.payout_bounds r hr

theorem split_tiles {rs : List PayoutRange} (hcur : current < s.stop)
    (h : s.split ctx current = .ok rs) : Tiles current rs s.stop := by
  obtain ⟨value, -, h⟩ := bind_eq_ok.mp h
  obtain ⟨level, -, h⟩ := bind_eq_ok.mp h
  obtain ⟨stopValue, -, h⟩ := bind_eq_ok.mp h
  obtain ⟨ascending, -, h⟩ := bind_eq_ok.mp h
  exact climb_tiles hcur h

theorem split_bounds {rs : List PayoutRange} (hs : s.Sized) (h : s.split ctx current = .ok rs) :
    ∀ r ∈ rs, 0 ≤ r.payout ∧ r.payout ≤ s.collateral := by
  obtain ⟨value, hvalue, h⟩ := bind_eq_ok.mp h
  obtain ⟨level, hlevel, h⟩ := bind_eq_ok.mp h
  obtain ⟨stopValue, -, h⟩ := bind_eq_ok.mp h
  obtain ⟨ascending, -, h⟩ := bind_eq_ok.mp h
  exact climb_bounds hs (isLevel_of_curvePayout hs hvalue hlevel) h

theorem split_covers {rs : List PayoutRange} (hs : s.Sized) (hcur : current < s.stop)
    (h : s.split ctx current = .ok rs) : Covers s.collateral current s.stop rs :=
  ⟨split_tiles hcur h, split_bounds hs h⟩

end Segment

/-! ## Segment after segment -/

def RoundingPolicy.Sized (policy : RoundingPolicy) : Prop :=
  ∀ interval ∈ policy.intervals, interval.modulus < 10 ^ 18

theorem RoundingPolicy.Sized.modulusAt_lt {policy : RoundingPolicy} (h : policy.Sized)
    (outcome : ℤ) : policy.modulusAt outcome < 10 ^ 18 := by
  unfold modulusAt
  split
  · next interval hlast =>
    have hmem := List.mem_of_getLast? hlast
    exact h interval (List.takeWhile_subset _ hmem)
  · norm_num

namespace Stretch

open Segment

variable {ctx : Context} {s : Stretch} {first current start : ℤ} {rs : List PayoutRange}

structure Sized (s : Stretch) : Prop where
  policy : s.policy.Sized
  collateral_nonneg : 0 ≤ s.collateral
  collateral_lt : s.collateral < 10 ^ 18

theorem Sized.segmentAt (hs : s.Sized) (outcome : ℤ) : (s.segmentAt outcome).Sized :=
  ⟨s.policy.modulusAt_pos outcome, hs.policy.modulusAt_lt outcome, hs.collateral_nonneg,
    hs.collateral_lt⟩

theorem splitFrom_tiles (hcur : current ≤ s.stop) (h : s.splitFrom ctx current = .ok rs) :
    Tiles current rs s.stop := by
  fun_induction splitFrom ctx s current generalizing rs with
  | case1 current hlt ih =>
      obtain ⟨steps, hsteps, h⟩ := bind_eq_ok.mp h
      obtain ⟨rest, hrest, h⟩ := bind_eq_ok.mp h
      cases h
      exact (Segment.split_tiles (s.policy.lt_segmentEnd hlt) hsteps).append
        (ih (s.policy.segmentEnd_le current s.stop) hrest)
  | case2 current hge =>
      cases h
      exact tiles_nil.mpr (by omega)

theorem mem_splitFrom (h : s.splitFrom ctx current = .ok rs) {r : PayoutRange} (hr : r ∈ rs) :
    ∃ outcome steps, (s.segmentAt outcome).split ctx outcome = .ok steps ∧ r ∈ steps := by
  fun_induction splitFrom ctx s current generalizing rs with
  | case1 current hlt ih =>
      obtain ⟨steps, hsteps, h⟩ := bind_eq_ok.mp h
      obtain ⟨rest, hrest, h⟩ := bind_eq_ok.mp h
      cases h
      rcases List.mem_append.mp hr with hr | hr
      · exact ⟨current, steps, hsteps, hr⟩
      · exact ih hrest hr
  | case2 current hge =>
      cases h
      cases hr

theorem splitFrom_covers (hs : s.Sized) (hcur : current ≤ s.stop)
    (h : s.splitFrom ctx current = .ok rs) : Covers s.collateral current s.stop rs := by
  refine ⟨splitFrom_tiles hcur h, fun r hr => ?_⟩
  obtain ⟨outcome, steps, hsteps, hr⟩ := mem_splitFrom h hr
  exact Segment.split_bounds (hs.segmentAt outcome) hsteps r hr

theorem firstDefined_of_findStart (h : s.findStart ctx first = .ok start) :
    s.curve.firstDefined ctx first (s.stop - 1) s.scanSteps = .ok (some start) := by
  unfold findStart at h
  obtain ⟨start?, hstart, h⟩ := bind_eq_ok.mp h
  have hstart := Failure.ofArithmetic_eq_ok.mp hstart
  cases start? with
  | none => cases h
  | some found =>
      obtain ⟨-, -, h⟩ := bind_eq_ok.mp h
      cases h
      exact hstart

theorem findStart_bounds (h : s.findStart ctx first = .ok start) : first ≤ start ∧ start < s.stop := by
  have := Curve.firstDefined_bounds (firstDefined_of_findStart h)
  omega

theorem lead_eq_ok (h : s.lead ctx first start = .ok rs) : (start ≤ first ∧ rs = []) ∨
    (first < start ∧ ∃ level, (s.segmentAt start).levelAt ctx start = .ok level ∧
      rs = [⟨first, start - 1, (s.segmentAt start).pay level⟩]) := by
  unfold lead at h
  split at h
  · next hlt =>
    obtain ⟨level, hlevel, h⟩ := bind_eq_ok.mp h
    cases h
    exact Or.inr ⟨hlt, level, hlevel, rfl⟩
  · next hge =>
    cases h
    exact Or.inl ⟨not_lt.mp hge, rfl⟩

theorem lead_tiles (hstart : first ≤ start) (h : s.lead ctx first start = .ok rs) :
    Tiles first rs start := by
  obtain ⟨hle, rfl⟩ | ⟨hlt, level, -, rfl⟩ := lead_eq_ok h
  · exact tiles_nil.mpr (by omega)
  · exact tiles_singleton hlt _

theorem lead_covers (hs : s.Sized) (hstart : first ≤ start) (h : s.lead ctx first start = .ok rs) :
    Covers s.collateral first start rs := by
  refine ⟨lead_tiles hstart h, ?_⟩
  obtain ⟨hle, rfl⟩ | ⟨hlt, level, hlevel, rfl⟩ := lead_eq_ok h
  · simp
  · intro r hr
    rw [List.mem_singleton.mp hr]
    exact (isLevel_of_levelAt (hs.segmentAt start) hlevel).pay_bounds (hs.segmentAt start)

theorem split_tiles (h : s.split ctx first = .ok rs) : Tiles first rs s.stop := by
  obtain ⟨start, hstart, h⟩ := bind_eq_ok.mp h
  have hbounds := findStart_bounds hstart
  obtain ⟨lead, hlead, h⟩ := bind_eq_ok.mp h
  obtain ⟨steps, hsteps, h⟩ := bind_eq_ok.mp h
  cases h
  exact (lead_tiles hbounds.1 hlead).append (splitFrom_tiles hbounds.2.le hsteps)

theorem split_covers (hs : s.Sized) (h : s.split ctx first = .ok rs) :
    Covers s.collateral first s.stop rs := by
  obtain ⟨start, hstart, h⟩ := bind_eq_ok.mp h
  have hbounds := findStart_bounds hstart
  obtain ⟨lead, hlead, h⟩ := bind_eq_ok.mp h
  obtain ⟨steps, hsteps, h⟩ := bind_eq_ok.mp h
  cases h
  exact (lead_covers hs hbounds.1 hlead).append (splitFrom_covers hs hbounds.2.le hsteps)

end Stretch

namespace Span

variable {span : Span} {collateral : ℤ} {curve : Curve}

theorem check_eq_ok_iff : span.check collateral = .ok () ↔
    span.first < span.last ∧ 0 ≤ span.first ∧ 0 ≤ collateral ∧
      (0 ≤ span.firstPayout ∧ span.firstPayout ≤ collateral) ∧
      (0 ≤ span.lastPayout ∧ span.lastPayout ≤ collateral) := by
  unfold check
  split
  · simp
    omega
  split
  · simp
    omega
  split
  · simp
    omega
  split
  · simp
    omega
  split
  · simp
    omega
  · simp
    omega

theorem interior_eq_ok {ctx : Context} {s : Stretch} {rs : List PayoutRange}
    (h : span.interior ctx s = .ok rs) : (span.last - span.first ≤ 1 ∧ rs = []) ∨
      (1 < span.last - span.first ∧ s.split ctx (span.first + 1) = .ok rs) := by
  unfold interior at h
  split at h
  · next hnarrow =>
    cases h
    exact Or.inl ⟨hnarrow, rfl⟩
  · next hwide =>
    refine Or.inr ⟨not_le.mp hwide, ?_⟩
    cases hsplit : s.split ctx (span.first + 1) with
    | ok steps => rwa [hsplit] at h
    | error failure =>
        rw [hsplit] at h
        cases failure <;> cases h

theorem interior_tiles {ctx : Context} {s : Stretch} {rs : List PayoutRange}
    (hlt : span.first < span.last) (hstop : s.stop = span.last) (h : span.interior ctx s = .ok rs) :
    Tiles (span.first + 1) rs span.last := by
  obtain ⟨hnarrow, rfl⟩ | ⟨-, hsplit⟩ := interior_eq_ok h
  · exact tiles_nil.mpr (by omega)
  · exact hstop ▸ Stretch.split_tiles hsplit

theorem interior_covers {ctx : Context} {s : Stretch} {rs : List PayoutRange} (hs : s.Sized)
    (hlt : span.first < span.last) (hstop : s.stop = span.last)
    (h : span.interior ctx s = .ok rs) :
    Segment.Covers s.collateral (span.first + 1) span.last rs := by
  refine ⟨interior_tiles hlt hstop h, ?_⟩
  obtain ⟨hnarrow, rfl⟩ | ⟨-, hsplit⟩ := interior_eq_ok h
  · simp
  · exact (Stretch.split_covers hs hsplit).payout_bounds

/-- What a span is split into: ranges one after another from its first outcome to its last, with
no two neighbours that pay the same, whose payouts are covered and meet the given ends. -/
structure IsSplit (span : Span) (collateral : ℤ) (ranges : List PayoutRange) : Prop where
  nonempty : ranges ≠ []
  tiles : Tiles span.first ranges (span.last + 1)
  neighbours : ranges.IsChain (fun r s => r.payout ≠ s.payout)
  payout_bounds : ∀ r ∈ ranges, 0 ≤ r.payout ∧ r.payout ≤ collateral
  pays_first : ranges.head?.map PayoutRange.payout = some span.firstPayout
  pays_last : ranges.getLast?.map PayoutRange.payout = some span.lastPayout

theorem isChain_payout_of_apart {a b : ℤ} {rs : List PayoutRange} (h : Tiles a rs b)
    (hc : rs.IsChain Apart) : rs.IsChain (fun r s => r.payout ≠ s.payout) := by
  induction rs generalizing a with
  | nil => exact List.isChain_nil
  | cons r rest ih =>
      cases rest with
      | nil => exact List.isChain_singleton r
      | cons s ss =>
          obtain ⟨hrs, hrest⟩ := List.isChain_cons_cons.mp hc
          exact List.isChain_cons_cons.mpr ⟨hrs.2 h.2.2.1, ih h.2.2 hrest⟩

def unmerged (span : Span) (steps : List PayoutRange) : List PayoutRange :=
  ⟨span.first, span.first, span.firstPayout⟩ :: steps ++
    [⟨span.last, span.last, span.lastPayout⟩]

theorem tiles_unmerged {steps : List PayoutRange} (h : Tiles (span.first + 1) steps span.last) :
    Tiles span.first (span.unmerged steps) (span.last + 1) :=
  ⟨rfl, le_rfl, h.append ⟨rfl, le_rfl, rfl⟩⟩

theorem payoutAt?_unmerged_first (span : Span) (steps : List PayoutRange) :
    payoutAt? (span.unmerged steps) span.first = some span.firstPayout := by
  unfold unmerged
  rw [List.cons_append, payoutAt?_cons, if_pos ⟨le_rfl, le_rfl⟩]

theorem payoutAt?_unmerged {steps : List PayoutRange} {x : ℤ} (hx : span.first < x) :
    payoutAt? (span.unmerged steps) x =
      payoutAt? (steps ++ [⟨span.last, span.last, span.lastPayout⟩]) x := by
  unfold unmerged
  rw [List.cons_append, payoutAt?_cons, if_neg (by simp only; omega)]

theorem payoutAt?_unmerged_last {steps : List PayoutRange} (hlt : span.first < span.last)
    (h : Tiles (span.first + 1) steps span.last) :
    payoutAt? (span.unmerged steps) span.last = some span.lastPayout := by
  rw [payoutAt?_unmerged hlt, h.payoutAt?_append le_rfl, payoutAt?_cons, if_pos ⟨le_rfl, le_rfl⟩]

theorem isSplit_merge {steps : List PayoutRange} (hcheck : span.check collateral = .ok ())
    (h : Segment.Covers collateral (span.first + 1) span.last steps) :
    span.IsSplit collateral (merge (span.unmerged steps)) := by
  obtain ⟨hlt, -, -, hfirst, hlast⟩ := check_eq_ok_iff.mp hcheck
  have htiles := tiles_unmerged h.tiles
  have hmerged := htiles.merge
  refine ⟨?_, hmerged, isChain_payout_of_apart hmerged (merge_isChain _), ?_, ?_, ?_⟩
  · intro hnil
    rw [hnil] at hmerged
    have := tiles_nil.mp hmerged
    omega
  · intro r hr
    obtain ⟨t, ht, hpay⟩ := merge_payout_mem _ r hr
    rw [hpay]
    rcases List.mem_cons.mp ht with rfl | ht
    · exact hfirst
    rcases List.mem_append.mp ht with ht | ht
    · exact h.payout_bounds t ht
    · rw [List.mem_singleton.mp ht]
      exact hlast
  · rw [← hmerged.payoutAt?_first (by omega), htiles.payoutAt?_merge]
    exact payoutAt?_unmerged_first span steps
  · rw [← hmerged.payoutAt?_last (by omega), add_sub_cancel_right, htiles.payoutAt?_merge]
    exact payoutAt?_unmerged_last hlt h.tiles

theorem sized_ofList {intervals : List RoundingInterval} {policy : RoundingPolicy}
    (hsize : ∀ interval ∈ intervals, interval.modulus < 10 ^ 18)
    (h : RoundingPolicy.ofList intervals = .ok policy) : policy.Sized := by
  unfold RoundingPolicy.ofList at h
  split at h
  · cases h
    intro interval hmem
    exact hsize interval (List.mem_mergeSort.mp hmem)
  · cases h

section split

variable {policy : RoundingPolicy} {settings : Settings} {ranges : List PayoutRange}

theorem split_eq_ok : span.split collateral curve policy settings = .ok ranges ↔
    span.check collateral = .ok () ∧ ∃ ctx steps, settings.context = .ok ctx ∧
      span.interior ctx ⟨curve, policy, collateral, settings.scanSteps, span.last⟩ = .ok steps ∧
      ranges = merge (span.unmerged steps) := by
  constructor
  · intro h
    obtain ⟨⟨⟩, hcheck, h⟩ := bind_eq_ok.mp h
    obtain ⟨ctx, hctx, h⟩ := bind_eq_ok.mp h
    obtain ⟨steps, hsteps, h⟩ := bind_eq_ok.mp h
    cases h
    exact ⟨hcheck, ctx, steps, hctx, hsteps, rfl⟩
  · rintro ⟨hcheck, ctx, steps, hctx, hsteps, rfl⟩
    exact bind_eq_ok.mpr ⟨_, hcheck, bind_eq_ok.mpr ⟨ctx, hctx, bind_eq_ok.mpr ⟨steps, hsteps, rfl⟩⟩⟩

theorem split_tiles (h : span.split collateral curve policy settings = .ok ranges) :
    Tiles span.first ranges (span.last + 1) := by
  obtain ⟨hcheck, ctx, steps, -, hsteps, rfl⟩ := split_eq_ok.mp h
  exact (tiles_unmerged (interior_tiles (check_eq_ok_iff.mp hcheck).1 rfl hsteps)).merge

theorem payoutAt?_split_first (h : span.split collateral curve policy settings = .ok ranges) :
    payoutAt? ranges span.first = some span.firstPayout := by
  obtain ⟨hcheck, ctx, steps, -, hsteps, rfl⟩ := split_eq_ok.mp h
  have htiles := interior_tiles (check_eq_ok_iff.mp hcheck).1 rfl hsteps
  rw [(tiles_unmerged htiles).payoutAt?_merge]
  exact payoutAt?_unmerged_first span steps

theorem payoutAt?_split_last (h : span.split collateral curve policy settings = .ok ranges) :
    payoutAt? ranges span.last = some span.lastPayout := by
  obtain ⟨hcheck, ctx, steps, -, hsteps, rfl⟩ := split_eq_ok.mp h
  have hlt := (check_eq_ok_iff.mp hcheck).1
  have htiles := interior_tiles hlt rfl hsteps
  rw [(tiles_unmerged htiles).payoutAt?_merge]
  exact payoutAt?_unmerged_last hlt htiles

theorem isSplit_of_split (hcollateral : collateral < 10 ^ 18) (hpolicy : policy.Sized)
    (h : span.split collateral curve policy settings = .ok ranges) : span.IsSplit collateral ranges := by
  obtain ⟨hcheck, ctx, steps, -, hsteps, rfl⟩ := split_eq_ok.mp h
  obtain ⟨hlt, -, hcollateral0, -, -⟩ := check_eq_ok_iff.mp hcheck
  exact isSplit_merge hcheck (interior_covers ⟨hpolicy, hcollateral0, hcollateral⟩ hlt rfl hsteps)

theorem splitByIntervals_eq_ok {intervals : List RoundingInterval} :
    span.splitByIntervals collateral curve intervals settings = .ok ranges ↔
      span.check collateral = .ok () ∧ ∃ policy ctx steps,
        RoundingPolicy.ofList intervals = .ok policy ∧ settings.context = .ok ctx ∧
        span.interior ctx ⟨curve, policy, collateral, settings.scanSteps, span.last⟩ = .ok steps ∧
        ranges = merge (span.unmerged steps) := by
  constructor
  · intro h
    obtain ⟨⟨⟩, hcheck, h⟩ := bind_eq_ok.mp h
    obtain ⟨policy, hpolicy, h⟩ := bind_eq_ok.mp h
    obtain ⟨-, ctx, steps, hsplit⟩ := split_eq_ok.mp h
    exact ⟨hcheck, policy, ctx, steps, hpolicy, hsplit⟩
  · rintro ⟨hcheck, policy, ctx, steps, hpolicy, hsplit⟩
    exact bind_eq_ok.mpr ⟨_, hcheck, bind_eq_ok.mpr ⟨policy, hpolicy,
      split_eq_ok.mpr ⟨hcheck, ctx, steps, hsplit⟩⟩⟩

end split

/-- Whatever the curve, a split is well-formed if there is one. A walk along a segment moves on at
every step and stays before the end of the segment, and the segments move on up to the end of the
span. -/
theorem splitByIntervals_sound (span : Span) (collateral : ℤ) (curve : Curve)
    (intervals : List RoundingInterval) (settings : Settings) (hcollateral : collateral < 10 ^ 18)
    (hsize : ∀ interval ∈ intervals, interval.modulus < 10 ^ 18) :
    (∀ ranges, span.splitByIntervals collateral curve intervals settings = .ok ranges →
      span.IsSplit collateral ranges) ∧
    (∀ ctx (s : Segment) ascending p q, Relation.TransGen (s.Strides ctx ascending) p q →
      p.1 < q.1 ∧ q.1 < s.stop) ∧
    (∀ (s : Stretch) outcome, outcome < s.stop →
      outcome < (s.segmentAt outcome).stop ∧ (s.segmentAt outcome).stop ≤ s.stop) := by
  refine ⟨fun ranges h => ?_, fun ctx s ascending p q h => Segment.transGen_strides_lt h,
    fun s outcome h => ⟨s.policy.lt_segmentEnd h, s.policy.segmentEnd_le outcome s.stop⟩⟩
  obtain ⟨-, -, h⟩ := bind_eq_ok.mp h
  obtain ⟨policy, hpolicy, h⟩ := bind_eq_ok.mp h
  exact isSplit_of_split hcollateral (sized_ofList hsize hpolicy) h

/-- A line that rises to the collateral in steps of five. -/
theorem splitByIntervals_sound_rising :
    IsSplit ⟨0, 10, 0, 10⟩ 10 [⟨0, 2, 0⟩, ⟨3, 7, 5⟩, ⟨8, 10, 10⟩] :=
  (splitByIntervals_sound ⟨0, 10, 0, 10⟩ 10 (.line ⟨⟨0, .ofInt 0⟩, ⟨10, .ofInt 10⟩, by decide⟩)
    [⟨0, 5, by decide, by decide⟩] Settings.standard (by norm_num) (by simp)).1 _ (by decide +kernel)

end Span

end NumericContract
