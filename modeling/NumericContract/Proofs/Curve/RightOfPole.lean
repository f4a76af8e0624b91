import NumericContract.Proofs.Curve.RectangularInverse

/-!
# Walking along a rectangular hyperbola

Far enough right of the pole every inverse is placed right: that of a payout beyond the asymptote lies
left of the pole, and so below every outcome of the walk. Where the payouts at the two ends of a
segment are computed in the wrong order, no level or midpoint lies between them.
-/

namespace NumericContract

open Decimal PayoutRange Segment

namespace Hyperbola

variable {h : Hyperbola} {ctx : Context} {s : Segment} {x current : ℤ} {y : ℚ}

def ascends (h : Hyperbola) : Bool := decide (h.factor < 0)

theorem ascends_of_neg (hK : h.factor < 0) : h.ascends = true := decide_eq_true hK

theorem ascends_of_nonneg (hK : 0 ≤ h.factor) : h.ascends = false := decide_eq_false (not_lt.mpr hK)

theorem exact_ahead {x' : ℤ} (hx : h.pole < x) (hxx : x ≤ x') :
    Ahead h.ascends (h.exact x) (h.exact x') := by
  have hxx' : (x : ℚ) ≤ x' := by exact_mod_cast hxx
  have ht : 0 < (x : ℚ) - h.pole := sub_pos.mpr hx
  have ht' : 0 < (x' : ℚ) - h.pole := by linarith
  unfold exact
  rcases lt_or_ge h.factor 0 with hK | hK
  · rw [ascends_of_neg hK]
    show h.factor / (x - h.pole) + h.asymptote ≤ h.factor / (x' - h.pole) + h.asymptote
    rw [add_le_add_iff_right, div_le_div_iff₀ ht ht']
    nlinarith
  · rw [ascends_of_nonneg hK]
    show h.factor / (x' - h.pole) + h.asymptote ≤ h.factor / (x - h.pole) + h.asymptote
    rw [add_le_add_iff_right, div_le_div_iff₀ ht' ht]
    nlinarith

/-- A payout at or beyond the asymptote is not reached right of the pole. -/
theorem near_of_beyond (hK : h.factor ≠ 0) (hx : h.pole < x) (hy : 0 ≤ h.factor * (h.asymptote - y)) :
    Near h.ascends y (h.exact x) := by
  have ht : 0 < (x : ℚ) - h.pole := sub_pos.mpr hx
  unfold exact
  rcases lt_or_gt_of_ne hK with hneg | hpos
  · rw [ascends_of_neg hneg]
    show h.factor / (x - h.pole) + h.asymptote < y
    have hq : h.factor / (x - h.pole) < 0 := div_neg_of_neg_of_pos hneg ht
    have hle : h.asymptote - y ≤ 0 := nonpos_of_mul_nonneg_right hy hneg
    linarith
  · rw [ascends_of_nonneg hpos.le]
    show y ≤ h.factor / (x - h.pole) + h.asymptote
    have hq : 0 < h.factor / (x - h.pole) := div_pos hpos ht
    have hle : 0 ≤ h.asymptote - y := nonneg_of_mul_nonneg_right hy hpos
    linarith

/-- Any other payout is reached at its root. -/
theorem near_iff_root (hx : h.pole < x) (hy : h.factor * (h.asymptote - y) < 0) :
    Near h.ascends y (h.exact x) ↔
      if h.ascends then (x : ℚ) < h.root y else (x : ℚ) ≤ h.root y := by
  have ht : 0 < (x : ℚ) - h.pole := sub_pos.mpr hx
  unfold exact root
  rcases mul_neg_iff.mp hy with ⟨hK, hgap⟩ | ⟨hK, hgap⟩
  · rw [ascends_of_nonneg hK.le]
    show y ≤ h.factor / (x - h.pole) + h.asymptote ↔ (x : ℚ) ≤ h.pole + h.factor / (y - h.asymptote)
    rw [← sub_le_iff_le_add, le_div_iff₀ ht, ← sub_le_iff_le_add', le_div_iff₀ (by linarith), mul_comm]
  · rw [ascends_of_neg hK]
    show h.factor / (x - h.pole) + h.asymptote < y ↔ (x : ℚ) < h.pole + h.factor / (y - h.asymptote)
    rw [← lt_sub_iff_add_lt, div_lt_iff₀ ht, ← sub_lt_iff_lt_add', lt_div_iff_of_neg (by linarith),
      mul_comm]

/-- The root of a payout beyond the asymptote lies left of the pole, the farther the nearer the payout
is to the asymptote. -/
theorem root_eq (hy : h.factor * (h.asymptote - y) ≠ 0) :
    h.root y = h.pole - h.factor ^ 2 / (h.factor * (h.asymptote - y)) := by
  have hK := left_ne_zero_of_mul hy
  have hgap := right_ne_zero_of_mul hy
  have hgap' : y - h.asymptote ≠ 0 := by
    rw [← neg_sub]
    exact neg_ne_zero.mpr hgap
  unfold root
  field_simp
  ring

theorem root_sub_mul_of_beyond (hy : 0 < h.factor * (h.asymptote - y)) (q : ℚ) :
    (h.root y - q) * |h.asymptote - y| = (h.pole - q) * |h.asymptote - y| - |h.factor| := by
  have hproduct : h.factor * (h.asymptote - y) = |h.factor| * |h.asymptote - y| := by
    rw [← abs_mul, abs_of_pos hy]
  have hK : 0 < |h.factor| := abs_pos.mpr (left_ne_zero_of_mul hy.ne')
  have hgap : 0 < |h.asymptote - y| := abs_pos.mpr (right_ne_zero_of_mul hy.ne')
  rw [root_eq hy.ne', hproduct, ← sq_abs h.factor]
  field_simp
  ring

theorem root_lt_pole (hy : 0 < h.factor * (h.asymptote - y)) : h.root y < h.pole := by
  have hK := left_ne_zero_of_mul hy.ne'
  rw [root_eq hy.ne']
  exact sub_lt_self _ (div_pos (by positivity) hy)

theorem root_le_root {y' : ℚ} (hy : 0 < h.factor * (h.asymptote - y))
    (hle : h.factor * (h.asymptote - y) ≤ h.factor * (h.asymptote - y')) : h.root y ≤ h.root y' := by
  rw [root_eq hy.ne', root_eq (hy.trans_le hle).ne']
  gcongr

theorem value_at_inverse (ha : h.AtScale) (hK : h.factor ≠ 0) (ctx : Context) {x' : Decimal.Finite}
    (hx' : x'.value ≤ 10 ^ 54) {c : ℤ} (hc : c ∈ (finite x').nearestOutcome?) :
    (c : ℚ) ≤ x'.value + 1 / 2 ∧ ∃ value, h.evaluate ctx c = .ok value ∧ value.isNaN = false := by
  have hle := (nearestOutcome?_bounds hc).1
  have hsize : c ≤ 10 ^ 60 := by
    have : (c : ℚ) ≤ 10 ^ 60 := by linarith
    exact_mod_cast this
  exact ⟨by linarith, evaluate_succeeds ha hK ctx (nonneg_of_nearestOutcome? hc) hsize⟩

/-- An inverse of a payout that is never reached lies left of the pole, or is rounded up across it. -/
theorem inverse_lt_of_beyond (ha : h.AtScale) (ctx : Context) {y : Decimal.Finite}
    (hy : IsHalfInteger y.value) (hbeyond : 0 < h.factor * (h.asymptote - y.value)) {c : ℤ}
    (hc : h.invert ctx (.finite y) = .ok (some c)) : (c : ℚ) < h.pole + 3 / 4 := by
  obtain ⟨x', hx', herr, hb⟩ := invert_near ha ctx hy hbeyond.ne'
  rw [hx'] at hc
  obtain ⟨hle, -⟩ := value_at_inverse ha (left_ne_zero_of_mul hbeyond.ne') ctx hb (Except.ok.inj hc)
  have hroot := root_lt_pole hbeyond
  have := (abs_le.mp herr).2
  linarith

/-! ## Segments right of the pole -/

structure On (h : Hyperbola) (s : Segment) (first : ℤ) : Prop where
  curve_eq : s.curve = .hyperbola h
  first_nonneg : 0 ≤ first
  pole_lt : h.pole < first
  stop_le : s.stop ≤ 10 ^ 18

namespace On

variable {first : ℤ}

theorem evaluate_eq (hs : h.On s first) (ctx : Context) (x : ℤ) :
    s.curve.evaluate ctx x = h.evaluate ctx x := by
  rw [hs.curve_eq]
  rfl

theorem invert_eq (hs : h.On s first) (ctx : Context) (y : Decimal) :
    s.curve.invert ctx y = h.invert ctx y := by
  rw [hs.curve_eq]
  rfl

theorem pole_lt_of_le (hs : h.On s first) (hx : first ≤ x) : h.pole < x := by
  have : (first : ℚ) ≤ x := by exact_mod_cast hx
  exact lt_of_lt_of_le hs.pole_lt this

theorem mono (hs : h.On s first) (hcur : first ≤ current) : h.On s current :=
  ⟨hs.curve_eq, hs.first_nonneg.trans hcur, hs.pole_lt_of_le hcur, hs.stop_le⟩

theorem evaluate_sharp (hs : h.On s first) (ha : h.AtScale) (ctx : Context) (hx : first ≤ x)
    (hxs : x ≤ s.stop) :
    ∃ z : Decimal.Finite, s.curve.evaluate ctx x = .ok (.finite z) ∧ Sharp z.value (h.exact x) ∧
      |z.value - h.exact x| * (x - h.pole) ≤ 1 / 10 ^ 40 ∧ |z.value| ≤ 10 ^ 70 := by
  rw [hs.evaluate_eq]
  exact Hyperbola.evaluate_sharp ha ctx (hs.pole_lt_of_le hx) (hs.first_nonneg.trans hx)
    (hxs.trans hs.stop_le)

theorem tracks (hs : h.On s first) (ha : h.AtScale) (ctx : Context) :
    s.Tracks ctx h.ascends h.exact first := by
  refine ⟨fun x hx hxs => ?_, fun x x' hx hxx _ => exact_ahead (hs.pole_lt_of_le hx) hxx⟩
  obtain ⟨z, hz, hsharp, -, hsize⟩ := hs.evaluate_sharp ha ctx hx hxs
  exact ⟨z, hz, hsharp, hsize⟩

theorem placed_of_reached (hs : h.On s current) (ha : h.AtScale) (ctx : Context)
    (hlt : current < s.stop) {y : Decimal.Finite} (hy : IsHalfInteger y.value)
    (hreached : h.factor * (h.asymptote - y.value) < 0)
    (hnear : Near h.ascends y.value (h.exact current)) :
    s.Placed ctx h.ascends h.exact y current := by
  obtain ⟨x', hx', herr, hb⟩ := invert_near ha ctx hy hreached.ne
  refine ⟨_, (hs.invert_eq ctx _).trans hx', ?_, fun c hc => ?_⟩
  · refine places_of_root hs.first_nonneg hlt (herr.trans (by norm_num)) (fun x hx _ => ?_) hnear
    exact near_iff_root (hs.pole_lt_of_le hx) hreached
  · rw [hs.evaluate_eq]
    exact (value_at_inverse ha (left_ne_zero_of_mul hreached.ne) ctx hb hc).2

/-- An inverse that lies below the current outcome, or is the last one, is placed right if every outcome
is near. -/
theorem placed_of_below (hs : h.On s current) (ha : h.AtScale) (ctx : Context) {ascending : Bool}
    {v : ℤ → ℚ} {y : Decimal.Finite} (hy : IsHalfInteger y.value)
    (hnear : ∀ x, current ≤ x → x < s.stop → Near ascending y.value (v x))
    (hbelow : ∀ c, h.invert ctx (.finite y) = .ok (some c) → c < current ∨ s.stop ≤ c + 1) :
    s.Placed ctx ascending v y current := by
  by_cases hzero : h.factor * (h.asymptote - y.value) = 0
  · refine ⟨none, ?_, hnear, by simp⟩
    rw [hs.invert_eq]
    exact invert_eq_none ha ctx (hy.abs_le.trans (by norm_num)) hzero
  · obtain ⟨x', hx', -, hb⟩ := invert_near ha ctx hy hzero
    refine ⟨_, (hs.invert_eq ctx _).trans hx', ?_, fun c hc => ?_⟩
    · cases hc : (finite x').nearestOutcome? with
      | none => exact hnear
      | some c =>
          have hlow := hbelow c (hx'.trans (congrArg Except.ok hc))
          exact fun x hx hxs => ⟨fun _ => hnear x hx hxs, by omega⟩
    · rw [hs.evaluate_eq]
      exact (value_at_inverse ha (left_ne_zero_of_mul hzero) ctx hb hc).2

/-- Three quarters of an outcome right of the pole every inverse is placed right. -/
theorem follows (hs : h.On s first) (ha : h.AtScale) (ctx : Context) (hK : h.factor ≠ 0)
    (hfar : h.pole + 3 / 4 ≤ first) : s.Follows ctx h.ascends h.exact first := by
  refine ⟨hs.tracks ha ctx, fun y current hcur hlt hy hnear => ?_⟩
  rcases lt_or_ge (h.factor * (h.asymptote - y.value)) 0 with hreached | hbeyond
  · exact (hs.mono hcur).placed_of_reached ha ctx hlt hy hreached hnear
  · refine (hs.mono hcur).placed_of_below ha ctx hy (fun x hx _ => ?_) fun c hc => ?_
    · exact near_of_beyond hK (hs.pole_lt_of_le (hcur.trans hx)) hbeyond
    · have hcur' : (first : ℚ) ≤ current := by exact_mod_cast hcur
      have hlow : (c : ℚ) < current := by
        rcases lt_or_eq_of_le hbeyond with hpos | hzero
        · have := inverse_lt_of_beyond ha ctx hy hpos hc
          linarith
        · rw [invert_eq_none ha ctx (hy.abs_le.trans (by norm_num)) hzero.symm] at hc
          cases hc
      exact Or.inl (by exact_mod_cast hlow)

/-! ## Directions -/

theorem exact_sub_exact {x' : ℤ} (hx : h.pole < x) (hx' : h.pole < x') :
    (h.exact x' - h.exact x) * ((x - h.pole) * (x' - h.pole)) = -(h.factor * (x' - x)) := by
  have ht : (x : ℚ) - h.pole ≠ 0 := (sub_pos.mpr hx).ne'
  have ht' : (x' : ℚ) - h.pole ≠ 0 := (sub_pos.mpr hx').ne'
  unfold exact
  field_simp
  ring

/-- The direction that a walk takes is that of the curve, unless the payouts of the segment are too
close together to matter. -/
theorem direction (hs : h.On s current) (ha : h.AtScale) (ctx : Context) (hlt : current < s.stop) :
    ∃ ascending, (∀ z z', s.curve.evaluate ctx current = .ok z → s.curve.evaluate ctx s.stop = .ok z' →
      z.lt z' = .ok ascending) ∧
      (ascending = h.ascends ∨
        |h.factor| * (s.stop - current) ≤ (s.stop - h.pole + (current - h.pole)) / 10 ^ 40 ∧
          ∀ x, current ≤ x → x ≤ s.stop → Sharp (h.exact x) (h.exact current)) := by
  obtain ⟨z, hz, hsharp, herr, -⟩ := hs.evaluate_sharp ha ctx le_rfl hlt.le
  obtain ⟨z', hz', hsharp', herr', -⟩ := hs.evaluate_sharp ha ctx hlt.le le_rfl
  refine ⟨decide (z.value < z'.value), fun w w' hw hw' => ?_, ?_⟩
  · rw [hz] at hw
    rw [hz'] at hw'
    rw [← Except.ok.inj hw, ← Except.ok.inj hw', lt_finite]
  by_cases hdirection : decide (z.value < z'.value) = h.ascends
  · exact Or.inl hdirection
  -- the payouts are computed in the wrong order, and the two errors make up for their distance
  have hswapped := Ahead.of_decide_ne hdirection
  have hahead := exact_ahead hs.pole_lt hlt.le
  have hclose := hahead.abs_sub_le_of_swapped hswapped
  have hpole' := hs.pole_lt_of_le hlt.le
  have ht : 0 < (current : ℚ) - h.pole := sub_pos.mpr hs.pole_lt
  have ht' : 0 < (s.stop : ℚ) - h.pole := sub_pos.mpr hpole'
  have hrun : (0 : ℚ) < s.stop - current := by
    rw [sub_pos]
    exact_mod_cast hlt
  refine Or.inr ⟨?_, fun x hx hxs => Sharp.of_swapped hsharp hsharp' hswapped (exact_ahead hs.pole_lt hx)
    (exact_ahead (hs.pole_lt_of_le hx) hxs)⟩
  calc |h.factor| * (s.stop - current)
      = |h.exact s.stop - h.exact current| * ((current - h.pole) * (s.stop - h.pole)) := by
        rw [← abs_of_pos (mul_pos ht ht'), ← abs_mul, exact_sub_exact hs.pole_lt hpole', abs_neg, abs_mul,
          abs_of_pos hrun]
    _ ≤ (|z.value - h.exact current| + |z'.value - h.exact s.stop|) *
          ((current - h.pole) * (s.stop - h.pole)) := by gcongr
    _ = |z.value - h.exact current| * (current - h.pole) * (s.stop - h.pole) +
          |z'.value - h.exact s.stop| * (s.stop - h.pole) * (current - h.pole) := by ring
    _ ≤ 1 / 10 ^ 40 * (s.stop - h.pole) + 1 / 10 ^ 40 * (current - h.pole) := by gcongr
    _ = (s.stop - h.pole + (current - h.pole)) / 10 ^ 40 := by ring

/-- A curve that is all but flat is walked as a constant one, in whatever direction. -/
theorem follows_flat (hs : h.On s current) (ha : h.AtScale) (ctx : Context) (ascending : Bool)
    (hsmall : h.factor ≠ 0 → |h.factor| ≤ 1 / 10 ^ 20 ∧ h.pole + 3 / 4 ≤ current)
    (hsharp : ∀ x, current ≤ x → x ≤ s.stop → Sharp (h.exact x) (h.exact current)) :
    s.Follows ctx ascending (fun _ => h.exact current) current := by
  refine ⟨⟨fun x hx hxs => ?_, fun _ _ _ _ _ => Ahead.refl _ _⟩, fun y c hcur _ hy hnear => ?_⟩
  · obtain ⟨z, hz, hzv, -, hsize⟩ := hs.evaluate_sharp ha ctx hx hxs
    exact ⟨z, hz, hzv.trans (hsharp x hx hxs), hsize⟩
  refine (hs.mono hcur).placed_of_below ha ctx hy (fun _ _ _ => hnear) fun c' hc' => ?_
  by_cases hzero : h.factor * (h.asymptote - y.value) = 0
  · rw [invert_eq_none ha ctx (hy.abs_le.trans (by norm_num)) hzero] at hc'
    cases hc'
  · -- every root lies close to the pole
    obtain ⟨hK, hfar⟩ := hsmall (left_ne_zero_of_mul hzero)
    have hgne : h.asymptote - y.value ≠ 0 := right_ne_zero_of_mul hzero
    have hge := (ha.asymptote.onGrid.sub hy.onGrid).le_abs hgne
    obtain ⟨x', hx', herr, hb⟩ := invert_near ha ctx hy hzero
    rw [hx'] at hc'
    obtain ⟨hle, -⟩ := value_at_inverse ha (left_ne_zero_of_mul hzero) ctx hb (Except.ok.inj hc')
    have hdist : |h.factor / (y.value - h.asymptote)| ≤ 1 / 10 ^ 4 := by
      rw [abs_div, abs_sub_comm, div_le_iff₀ (abs_pos.mpr hgne)]
      linarith
    have h1 := (abs_le.mp herr).2
    have h2 := (abs_le.mp hdist).2
    unfold root at h1
    have hcur' : (current : ℚ) ≤ c := by exact_mod_cast hcur
    have : (c' : ℚ) < c := by linarith
    exact Or.inl (by exact_mod_cast this)

end On

/-- Far enough right of the pole a segment is split into the rounded payouts of its outcomes. -/
theorem split_far (ha : h.AtScale) (ctx : Context) {s : Stretch} (hs : s.Sized)
    (hon : h.On (s.segmentAt current) current) (hlt : current < s.stop)
    (hfar : h.factor ≠ 0 → h.pole + 3 / 4 ≤ current) :
    ∃ rs, (s.segmentAt current).split ctx current = .ok rs ∧ Pays (s.payout h.exact) rs := by
  have hend : current < (s.segmentAt current).stop := s.policy.lt_segmentEnd hlt
  obtain ⟨ascending, hdir, hcase⟩ := hon.direction ha ctx hend
  by_cases hdirect : h.factor ≠ 0 ∧ ascending = h.ascends
  · obtain ⟨hK, rfl⟩ := hdirect
    exact Stretch.split_of_follows hs hlt (hon.follows ha ctx hK (hfar hK)) hdir fun x _ _ => Sharp.refl _
  have hflat : (h.factor ≠ 0 → |h.factor| ≤ 1 / 10 ^ 20 ∧ h.pole + 3 / 4 ≤ current) ∧
      ∀ x, current ≤ x → x ≤ (s.segmentAt current).stop → Sharp (h.exact x) (h.exact current) := by
    by_cases hK : h.factor = 0
    · refine ⟨fun hne => absurd hK hne, fun x _ _ => ?_⟩
      unfold exact
      rw [hK, zero_div, zero_div]
      exact Sharp.refl _
    · obtain ⟨hclose, hsharp⟩ := hcase.resolve_left fun heq => hdirect ⟨hK, heq⟩
      refine ⟨fun _ => ⟨?_, hfar hK⟩, hsharp⟩
      have hp := abs_lt.mp ha.pole.abs_lt
      have hstop : ((s.segmentAt current).stop : ℚ) ≤ 10 ^ 18 := by exact_mod_cast hon.stop_le
      have hstep : (current : ℚ) + 1 ≤ (s.segmentAt current).stop := by exact_mod_cast hend
      have h1 : |h.factor| * 1 ≤ |h.factor| * ((s.segmentAt current).stop - current) :=
        mul_le_mul_of_nonneg_left (by linarith) (abs_nonneg _)
      linarith
  exact Stretch.split_of_follows hs hlt (hon.follows_flat ha ctx ascending hflat.1 hflat.2) hdir
    fun x hx hxs => (hflat.2 x hx hxs.le).symm

end Hyperbola

end NumericContract
