import NumericContract.Proofs.Curve.Inverse
import NumericContract.Proofs.Curve.Passage

/-!
# Inverses of payouts that are reached

Squaring makes an inverse of every payout, whether the curve takes it or not. A payout that the computed
payouts of a segment reach is taken, and its inverse is placed right, unless the curve is so close to its
asymptotes that the digits of the arithmetic do not suffice to tell outcomes apart.
-/

namespace NumericContract

open Decimal PayoutRange

def Curve.computed (ctx : Context) (curve : Curve) (x : ℤ) : ℚ :=
  match curve.evaluate ctx x with
  | .ok value => value.number
  | .error _ => 0

namespace Hyperbola

variable {h : Hyperbola} {ctx : Context} {x x' : ℤ}

/-! ## Distances -/

/-- The distance from the translation at which `u` is the sum of the distance and the root. -/
def distance (h : Hyperbola) (u : ℚ) : ℚ := u / 2 + 2 * (h.a.value * h.b.value) / u

def radicalOf (h : Hyperbola) (y : ℚ) : ℚ := 2 * h.factor / (y - h.asymptote)

theorem place_eq_add_distance {y : ℚ} (hd : h.d.value ≠ 0) (hy : y - h.asymptote ≠ 0) :
    h.place y = h.pole + h.distance (h.radicalOf y) := by
  have ha := h.a_value_ne_zero
  unfold place root distance radicalOf factor
  field_simp
  ring

theorem distance_mul (h : Hyperbola) {u : ℚ} (hu : u ≠ 0) :
    h.distance u * (2 * u) = u * u + 4 * (h.a.value * h.b.value) := by
  unfold distance
  field_simp
  ring

theorem mul_le_of_add_le {s r u e : ℚ} (hr : 0 ≤ r)
    (herror : s * s - 4 * (h.a.value * h.b.value) - e ≤ r * r) (hle : s + r ≤ u) :
    s * (2 * u) ≤ u * u + 4 * (h.a.value * h.b.value) + e := by
  have hsquare := mul_self_le_mul_self hr (show r ≤ u - s by linarith)
  linarith

/-- A distance whose sum with a root is at most `u` is at most that of `u`. -/
theorem le_distance_of_add_le {s r u e : ℚ} (hr : 0 ≤ r) (hu : 0 < u)
    (herror : s * s - 4 * (h.a.value * h.b.value) - e ≤ r * r) (hle : s + r ≤ u) :
    s ≤ h.distance u + e / (2 * u) := by
  have hscaled := h.mul_le_of_add_le hr herror hle
  have hmul := h.distance_mul hu.ne'
  rw [← sub_le_iff_le_add', le_div_iff₀ (by linarith)]
  linarith

theorem distance_le_of_le_add {s r u e : ℚ} (hsu : s ≤ u) (hu : 0 < u)
    (herror : r * r ≤ s * s - 4 * (h.a.value * h.b.value) + e) (hle : u ≤ s + r) :
    h.distance u ≤ s + e / (2 * u) := by
  have hsquare := mul_self_le_mul_self (sub_nonneg.mpr hsu) (show u - s ≤ r by linarith)
  have hmul := h.distance_mul hu.ne'
  rw [← sub_le_iff_le_add', le_div_iff₀ (by linarith)]
  linarith

/-- What `u` must be for the distance not to change by much with it: neither tiny nor huge, also beside `a · b`,
and hardly below twice its root, where the distance turns back. -/
structure Stable (h : Hyperbola) (u : ℚ) : Prop where
  low : 6 / 10 ^ 39 ≤ u
  high : u ≤ 6 * 10 ^ 18
  quotient : |h.a.value * h.b.value| ≤ u * (5 * 10 ^ 18)
  product : 4 * (h.a.value * h.b.value) ≤ u * u * (1 + 3 / 10 ^ 39)

namespace Stable

variable {u : ℚ}

theorem pos (hu : h.Stable u) : 0 < u := lt_of_lt_of_le (by norm_num) hu.low

/-- A factor near one changes the distance by far less than an outcome. -/
theorem distance_scaled (hu : h.Stable u) {t : ℚ} (ht : |t - 1| ≤ 2 / 10 ^ 39) :
    |h.distance (u * t) - h.distance u| ≤ 1 / 10 ^ 18 := by
  have hpos := hu.pos
  have htb := abs_le.mp ht
  have ht0 : 0 < t := by linarith
  have hform : h.distance (u * t) - h.distance u =
      u / 2 * (t - 1) - 2 * (h.a.value * h.b.value / u) * ((t - 1) / t) := by
    unfold distance
    field_simp
    ring
  have hlinear : |u / 2 * (t - 1)| ≤ 3 * 10 ^ 18 * (2 / 10 ^ 39) := by
    rw [abs_mul]
    exact mul_le_mul (by rw [abs_of_pos (by linarith)]; linarith [hu.high]) ht (abs_nonneg _) (by norm_num)
  have hquotient : |2 * (h.a.value * h.b.value / u)| ≤ 10 ^ 19 := by
    rw [abs_mul, abs_two, abs_div, abs_of_pos hpos, ← le_div_iff₀' (by norm_num), div_le_iff₀ hpos]
    linarith [hu.quotient]
  have hshare : |(t - 1) / t| ≤ 3 / 10 ^ 39 := by
    rw [abs_div, abs_of_pos ht0, div_le_iff₀ ht0]
    linarith
  have hinverse : |2 * (h.a.value * h.b.value / u) * ((t - 1) / t)| ≤ 10 ^ 19 * (3 / 10 ^ 39) := by
    rw [abs_mul]
    exact mul_le_mul hquotient hshare (abs_nonneg _) (by norm_num)
  have htri := abs_sub (u / 2 * (t - 1)) (2 * (h.a.value * h.b.value / u) * ((t - 1) / t))
  rw [hform]
  linarith

end Stable

namespace Passage

variable {v : ℚ}

/-- Where `u` has not passed `v` the outcome has not passed the place. -/
theorem le_of_u_le (p : h.Passage ctx x) (hs : h.Scaled) (h0 : 0 ≤ x) (h1 : x < 10 ^ 18) (hv : h.Stable v)
    (hle : p.u.value * (1 - 2 / 10 ^ 40) ≤ v) : (x : ℚ) ≤ h.pole + h.distance v + 1 / 10 := by
  have hlow := hv.low
  have hpos := hv.pos
  have herror := (abs_le.mp (p.sq_error hs h0 h1)).1
  have hclose := (abs_le.mp p.u_close).1
  have hsum := p.sum_pos
  unfold discriminant at herror
  have hreach := h.le_distance_of_add_le (s := x - h.pole) (u := v * (1 + 1 / 10 ^ 39)) (e := 1 / 10 ^ 39)
    p.isRoot.nonneg (by linarith) (by linarith) (by linarith)
  have hslack : 1 / 10 ^ 39 / (2 * (v * (1 + 1 / 10 ^ 39))) ≤ (1 : ℚ) / 12 := by
    rw [div_le_iff₀ (by linarith)]
    linarith
  have hscaled := (abs_le.mp (hv.distance_scaled (t := 1 + 1 / 10 ^ 39) (by norm_num))).2
  linarith

theorem le_of_le_u (p : h.Passage ctx x) (hs : h.Scaled) (h0 : 0 ≤ x) (h1 : x < 10 ^ 18) (hv : h.Stable v)
    (hle : v ≤ p.u.value * (1 + 2 / 10 ^ 40)) : h.pole + h.distance v ≤ x + 1 / 10 := by
  have hlow := hv.low
  have hpos := hv.pos
  have herror := (abs_le.mp (p.sq_error hs h0 h1)).2
  have hclose := (abs_le.mp p.u_close).2
  have hsum := p.sum_pos
  unfold discriminant at herror
  rcases le_or_gt ((x : ℚ) - h.pole) (v * (1 - 1 / 10 ^ 39)) with hbelow | habove
  · have hreach := h.distance_le_of_le_add (e := 1 / 10 ^ 39) hbelow (by linarith) (by linarith)
      (show v * (1 - 1 / 10 ^ 39) ≤ (x - h.pole) + p.root by linarith)
    have hslack : 1 / 10 ^ 39 / (2 * (v * (1 - 1 / 10 ^ 39))) ≤ (1 : ℚ) / 11 := by
      rw [div_le_iff₀ (by linarith)]
      linarith
    have hscaled := (abs_le.mp (hv.distance_scaled (t := 1 - 1 / 10 ^ 39) (by norm_num))).1
    linarith
  · -- the distance is more than `v`, which is hardly less than what `v` asks for
    have hmul := h.distance_mul hpos.ne'
    have hdistance : h.distance v ≤ v * (1 + 2 / 10 ^ 39) := by
      have hproduct := hv.product
      have hsquare := mul_pos hpos hpos
      have hscaled : h.distance v * (2 * v) ≤ v * (1 + 2 / 10 ^ 39) * (2 * v) := by linarith
      exact le_of_mul_le_mul_right hscaled (by linarith)
    have hhigh := hv.high
    linarith

end Passage

/-! ## Payouts on the way -/

/-- Whether a payout lies on the side of the asymptote on which the curve goes towards it. -/
def Faces (h : Hyperbola) (ascending : Bool) (y : ℚ) : Prop :=
  if ascending then h.factor < 0 ∧ y < h.asymptote else 0 < h.factor ∧ h.asymptote < y

namespace Faces

variable {ascending : Bool} {y : ℚ}

theorem asymptote_ne (hy : h.Faces ascending y) : y - h.asymptote ≠ 0 := by
  cases ascending with
  | false => exact sub_ne_zero.mpr hy.2.ne'
  | true => exact sub_ne_zero.mpr hy.2.ne

theorem radicalOf_pos (hy : h.Faces ascending y) : 0 < h.radicalOf y := by
  cases ascending with
  | false => exact div_pos (by linarith [hy.1]) (sub_pos.mpr hy.2)
  | true => exact div_pos_of_neg_of_neg (by linarith [hy.1]) (sub_neg.mpr hy.2)

/-- What has not reached `y` has not passed what `y` makes of `u`, or hardly. -/
theorem le_radicalOf (hf : h.Faces ascending y) (hs : h.Scaled) (hy : IsHalfInteger y) (p : h.Passage ctx x)
    (hnear : Near ascending y p.payout.value) : p.u.value * (1 - 2 / 10 ^ 40) ≤ h.radicalOf y := by
  have hpos := p.pos
  have hgap := (hy.onGrid.sub hs.asymptote.onGrid).le_abs hf.asymptote_ne
  cases ascending with
  | false =>
      have hw : 0 < y - h.asymptote := sub_pos.mpr hf.2
      have hquotient := p.le_quotient hs hnear
      rw [abs_of_pos hw] at hgap hquotient
      have hle : (y - h.asymptote) * (1 - 2 / 10 ^ 40) ≤ 2 * h.factor / p.u.value := by linarith
      rw [le_div_iff₀ hpos] at hle
      rw [radicalOf, le_div_iff₀ hw]
      linarith
  | true =>
      have hw : y - h.asymptote < 0 := sub_neg.mpr hf.2
      have hquotient := p.quotient_lt hs hy hnear
      rw [div_lt_iff₀ hpos] at hquotient
      have hlt : p.u.value < h.radicalOf y := by
        rw [radicalOf, lt_div_iff_of_neg hw]
        linarith
      linarith

theorem radicalOf_le (hf : h.Faces ascending y) (hs : h.Scaled) (hy : IsHalfInteger y) (p : h.Passage ctx x)
    (hfar : ¬Near ascending y p.payout.value) : h.radicalOf y ≤ p.u.value * (1 + 2 / 10 ^ 40) := by
  have hpos := p.pos
  have hgap := (hy.onGrid.sub hs.asymptote.onGrid).le_abs hf.asymptote_ne
  cases ascending with
  | false =>
      have hw : 0 < y - h.asymptote := sub_pos.mpr hf.2
      have hquotient := p.quotient_lt hs hy (not_le.mp hfar)
      rw [div_lt_iff₀ hpos] at hquotient
      have hlt : h.radicalOf y < p.u.value := by
        rw [radicalOf, div_lt_iff₀ hw]
        linarith
      linarith
  | true =>
      have hw : y - h.asymptote < 0 := sub_neg.mpr hf.2
      have hquotient := p.le_quotient hs (not_lt.mp hfar)
      rw [abs_of_neg hw] at hgap hquotient
      have hle : (y - h.asymptote) * (1 + 2 / 10 ^ 40) ≤ 2 * h.factor / p.u.value := by linarith
      rw [le_div_iff₀ hpos] at hle
      rw [radicalOf, div_le_iff_of_neg hw]
      linarith

end Faces

/-- A payout that is reached on the way lies on that side. -/
theorem faces_of_reached {ascending : Bool} {y : ℚ} (hs : h.Scaled) (hy : IsHalfInteger y)
    (hK : 1 / 10 ^ 20 ≤ |h.factor|) (p : h.Passage ctx x) (p' : h.Passage ctx x') (hle : p.u.value ≤ p'.u.value)
    (hu : p'.u.value ≤ 51 * 10 ^ 17) (hnear : Near ascending y p.payout.value)
    (hfar : ¬Near ascending y p'.payout.value) : h.Faces ascending y := by
  have hpos := p'.pos
  obtain ⟨hfall, hrise⟩ := p.payout_ahead p' hle
  cases ascending with
  | false =>
      have hle : y ≤ p.payout.value := hnear
      have hlt : p'.payout.value < y := not_le.mp hfar
      have hfactor : 0 < h.factor := by
        by_contra hnot
        linarith [hrise (not_lt.mp hnot)]
      have hquotient := p'.quotient_lt hs hy hlt
      have hpositive : 0 < 2 * h.factor / p'.u.value := by positivity
      exact ⟨hfactor, by linarith⟩
  | true =>
      have hlt : p.payout.value < y := hnear
      have hle : y ≤ p'.payout.value := not_lt.mp hfar
      have hfactor : h.factor < 0 := by
        by_contra hnot
        linarith [hfall (not_lt.mp hnot)]
      refine ⟨hfactor, ?_⟩
      -- a payout that is not far from the asymptote is still told from it
      by_contra hnot
      have hquotient := p'.le_quotient hs hle
      have hw : 0 ≤ y - h.asymptote := by linarith
      rw [abs_of_nonneg hw] at hquotient
      rw [abs_of_neg hfactor] at hK
      have hfar : 2 * h.factor / p'.u.value ≤ -(1 / 10 ^ 39) := by
        rw [div_le_iff₀ hpos]
        linarith
      linarith

/-- A hyperbola of the design scale that can be inverted and is not so close to its asymptotes that an inverse
would be off by an outcome. -/
structure Resolved (h : Hyperbola) : Prop where
  scaled : h.Scaled
  c_isZero : h.c.isZero = true
  curved : 1 / 100 ≤ |h.a.value| * |h.d.value| * |h.d.value|

namespace Resolved

variable {ascending : Bool} {y : ℚ}

theorem d_ne_zero (hr : h.Resolved) : h.d.value ≠ 0 := by
  intro hd
  have hcurved := hr.curved
  rw [hd, abs_zero, mul_zero] at hcurved
  norm_num at hcurved

theorem le_abs_factor (hr : h.Resolved) : 1 / 10 ^ 20 ≤ |h.factor| := by
  have hd := mul_le_mul_of_nonneg_left hr.scaled.d.abs_lt.le (abs_nonneg h.factor)
  have hcurved := hr.curved
  rw [← abs_mul] at hcurved
  unfold factor at *
  linarith

theorem le_radicalOf (hr : h.Resolved) (hf : h.Faces ascending y) (hyb : |y| ≤ 2 * 10 ^ 18) :
    6 / 10 ^ 39 ≤ h.radicalOf y := by
  have hw : 0 < |y - h.asymptote| := abs_pos.mpr hf.asymptote_ne
  have hwb : |y - h.asymptote| ≤ 3 * 10 ^ 18 := (abs_sub _ _).trans (by linarith [hr.scaled.asymptote.abs_lt])
  rw [← abs_of_pos hf.radicalOf_pos, radicalOf, abs_div, le_div_iff₀ hw, abs_mul, abs_two]
  linarith [hr.le_abs_factor]

/-- A payout between one that the curve has not reached and one that it has is placed stably. -/
theorem stable (hr : h.Resolved) (hf : h.Faces ascending y) (hy : IsHalfInteger y) (hyb : |y| ≤ 2 * 10 ^ 18)
    (hx : x ∈ (Curve.hyperbola h).clearOutcomes) (hx' : x' ∈ (Curve.hyperbola h).clearOutcomes)
    (p : h.Passage ctx x) (p' : h.Passage ctx x') (hnear : Near ascending y p.payout.value)
    (hfar : ¬Near ascending y p'.payout.value) : h.Stable (h.radicalOf y) := by
  have hs := hr.scaled
  have hlow := hr.le_radicalOf hf hyb
  have hle := hf.le_radicalOf hs hy p hnear
  have hge := hf.radicalOf_le hs hy p' hfar
  generalize h.radicalOf y = v at hlow hle hge ⊢
  have hpos : 0 < v := by linarith
  have hclose := (abs_le.mp p.u_close).1
  have hsum : (x - h.pole) + p.root ≤ v * (1 + 1 / 10 ^ 39) := by linarith [p.sum_pos]
  have hsize := (abs_le.mp (hs.abs_distance_le hx.1 hx.2.1)).1
  have hhigh : v ≤ 6 * 10 ^ 18 := by linarith [p'.u_le hs hx'.1 hx'.2.1]
  have hsquare := mul_le_mul_of_nonneg_left hhigh hpos.le
  refine ⟨hlow, hhigh, abs_le.mpr ⟨?_, ?_⟩, ?_⟩
  · -- otherwise the outcome would lie farther left than any of the design scale
    have herror := (abs_le.mp (p.sq_error hs hx.1 hx.2.1)).1
    unfold discriminant at herror
    have hreach := h.mul_le_of_add_le (s := x - h.pole) (e := 1 / 10 ^ 39) p.isRoot.nonneg (by linarith) hsum
    have hleft := mul_le_mul_of_nonneg_left hsize hpos.le
    linarith
  · linarith [p.product_le hx hsum]
  · linarith [p.product_le hx hsum, mul_pos hpos hpos]

/-- The inverse of such a payout is the outcome nearest to a number that is close to its place. -/
theorem invert_near (hr : h.Resolved) (ctx : Context) {y : Finite} (hf : h.Faces ascending y.value)
    (hy : IsHalfInteger y.value) (hyb : |y.value| ≤ 2 * 10 ^ 18) (hstable : h.Stable (h.radicalOf y.value)) :
    ∃ x' : Finite, h.invert ctx (.finite y) = .ok (finite x').nearestOutcome? ∧
      |x'.value - (h.pole + h.distance (h.radicalOf y.value))| ≤ 1 / 3 := by
  have hw := hf.asymptote_ne
  have hd := hr.d_ne_zero
  have hne : h.d.value * (h.asymptote - y.value) ≠ 0 :=
    mul_ne_zero hd (by rwa [← neg_sub, neg_ne_zero])
  obtain ⟨x', hx', herr⟩ := invert_place hr.scaled hr.c_isZero ctx hy hyb hne
  rw [place_eq_add_distance hd hw] at herr
  refine ⟨x', hx', ?_⟩
  -- what is divided by is not tiny, since `u` is not huge
  have hcurved : h.radicalOf y.value * |h.d.value * (h.asymptote - y.value)| =
      2 * (|h.a.value| * |h.d.value| * |h.d.value|) := by
    have hcancel : h.radicalOf y.value * (y.value - h.asymptote) = 2 * h.factor := div_mul_cancel₀ _ hw
    calc h.radicalOf y.value * |h.d.value * (h.asymptote - y.value)|
        = |h.radicalOf y.value * (y.value - h.asymptote)| * |h.d.value| := by
          rw [abs_mul, abs_mul, abs_of_pos hstable.pos, abs_sub_comm]
          ring
      _ = 2 * (|h.a.value| * |h.d.value| * |h.d.value|) := by
          rw [hcancel, factor, abs_mul, abs_mul, abs_two]
          ring
  have hhigh := mul_le_mul_of_nonneg_right hstable.high (abs_nonneg (h.d.value * (h.asymptote - y.value)))
  have hlow : 1 / (3 * 10 ^ 20) ≤ |h.d.value * (h.asymptote - y.value)| := by
    rw [hcurved] at hhigh
    linarith [hr.curved]
  have hscaled := mul_le_mul_of_nonneg_left hlow
    (abs_nonneg (x'.value - (h.pole + h.distance (h.radicalOf y.value))))
  linarith

end Resolved

/-! ## Segments from a clear outcome on -/

/-- A segment of the design scale along a hyperbola, which is defined at the first outcome and from there on. -/
structure Along (h : Hyperbola) (ctx : Context) (s : Segment) (first : ℤ) : Prop where
  curve_eq : s.curve = .hyperbola h
  first_nonneg : 0 ≤ first
  stop_lt : s.stop < 10 ^ 18
  clear : (Curve.hyperbola h).Clear first
  defined : (Curve.hyperbola h).isDefinedAt ctx first = .ok true

namespace Along

variable {s : Segment} {first : ℤ} {ascending : Bool}

theorem mem_clearOutcomes (ha : h.Along ctx s first) (hx : first ≤ x) (hxs : x ≤ s.stop) :
    x ∈ (Curve.hyperbola h).clearOutcomes := by
  have h0 := ha.first_nonneg
  have h1 := ha.stop_lt
  refine ⟨by omega, by omega, ha.clear.imp id fun hright => ?_⟩
  exact hright.trans (by exact_mod_cast hx)

theorem exists_passage (ha : h.Along ctx s first) (hp : ctx.precision ≤ 10000) (hs : h.Scaled)
    (hc : h.c.isZero = true) (hx : first ≤ x) (hxs : x ≤ s.stop) : Nonempty (h.Passage ctx x) := by
  have hmem := ha.mem_clearOutcomes hx hxs
  refine Hyperbola.exists_passage hp hs hc hmem ?_
  exact Curve.stays_of_scaled hp (show (Curve.hyperbola h).Scaled from hs) first
    (ha.mem_clearOutcomes le_rfl (hx.trans hxs)) x hmem hx ha.defined

theorem evaluate_eq (ha : h.Along ctx s first) (p : h.Passage ctx x) :
    s.curve.evaluate ctx x = .ok (.finite p.payout) := by
  rw [ha.curve_eq]
  exact p.evaluate

theorem computed_eq (ha : h.Along ctx s first) (p : h.Passage ctx x) :
    s.curve.computed ctx x = p.payout.value := by
  unfold Curve.computed
  rw [ha.evaluate_eq p]
  rfl

theorem u_mono (ha : h.Along ctx s first) (hp : ctx.precision ≤ 10000) (hs : h.Scaled) (p : h.Passage ctx x)
    (p' : h.Passage ctx x') (hx : first ≤ x) (hxx' : x ≤ x') (hxs : x' ≤ s.stop) : p.u.value ≤ p'.u.value :=
  p.u_mono p' hp hs (ha.mem_clearOutcomes hx (hxx'.trans hxs)) hxx' (hxs.trans_lt ha.stop_lt)

/-- The computed payouts of such a segment can be tracked in the direction that its two ends tell. -/
theorem tracks (ha : h.Along ctx s first) (hp : ctx.precision ≤ 10000) (hs : h.Scaled) (hc : h.c.isZero = true)
    (hdirection : ∀ z z', s.curve.evaluate ctx first = .ok z → s.curve.evaluate ctx s.stop = .ok z' →
      z.lt z' = .ok ascending) : s.Tracks ctx ascending (s.curve.computed ctx) first := by
  refine ⟨fun x hx hxs => ?_, fun x x' hx hxx' hxs => ?_⟩
  · obtain ⟨p⟩ := ha.exists_passage hp hs hc hx hxs
    refine ⟨p.payout, ha.evaluate_eq p, ha.computed_eq p ▸ Sharp.refl _, ?_⟩
    exact p.abs_payout_le hs (ha.mem_clearOutcomes hx hxs)
  · have hfs : first ≤ s.stop := by omega
    obtain ⟨p⟩ := ha.exists_passage hp hs hc hx (hxx'.trans hxs)
    obtain ⟨p'⟩ := ha.exists_passage hp hs hc (hx.trans hxx') hxs
    obtain ⟨pf⟩ := ha.exists_passage hp hs hc le_rfl hfs
    obtain ⟨pl⟩ := ha.exists_passage hp hs hc hfs le_rfl
    have hends := hdirection _ _ (ha.evaluate_eq pf) (ha.evaluate_eq pl)
    rw [lt_finite, Except.ok.injEq] at hends
    rw [ha.computed_eq p, ha.computed_eq p']
    obtain ⟨hfall, hrise⟩ := p.payout_ahead p' (ha.u_mono hp hs p p' hx hxx' hxs)
    obtain ⟨hfallf, hrisef⟩ := pf.payout_ahead p (ha.u_mono hp hs pf p le_rfl hx (hxx'.trans hxs))
    obtain ⟨hfalll, hrisel⟩ := p'.payout_ahead pl (ha.u_mono hp hs p' pl (hx.trans hxx') hxs le_rfl)
    -- payouts that go the other way are all equal
    cases ascending with
    | false =>
        rw [decide_eq_false_iff_not, not_lt] at hends
        show p'.payout.value ≤ p.payout.value
        rcases le_total 0 h.factor with hK | hK
        · exact hfall hK
        · linarith [hrisef hK, hrisel hK]
    | true =>
        rw [decide_eq_true_eq] at hends
        show p.payout.value ≤ p'.payout.value
        rcases le_total 0 h.factor with hK | hK
        · linarith [hfallf hK, hfall hK, hfalll hK]
        · exact hrise hK

/-- The place of a payout parts the outcomes that have not reached it from those that have. -/
theorem sides_of_place (ha : h.Along ctx s first) (hp : ctx.precision ≤ 10000) (hr : h.Resolved) {y : ℚ}
    (hf : h.Faces ascending y) (hstable : h.Stable (h.radicalOf y)) (hy : IsHalfInteger y) (hx : first ≤ x)
    (hxs : x ≤ s.stop) :
    (Near ascending y (s.curve.computed ctx x) → (x : ℚ) ≤ h.pole + h.distance (h.radicalOf y) + 1 / 10) ∧
      (¬Near ascending y (s.curve.computed ctx x) → h.pole + h.distance (h.radicalOf y) ≤ x + 1 / 10) := by
  obtain ⟨h0, h1, -⟩ := ha.mem_clearOutcomes hx hxs
  obtain ⟨p⟩ := ha.exists_passage hp hr.scaled hr.c_isZero hx hxs
  rw [ha.computed_eq p]
  constructor
  · intro hnear
    exact p.le_of_u_le hr.scaled h0 h1 hstable (hf.le_radicalOf hr.scaled hy p hnear)
  · intro hfar
    exact p.le_of_le_u hr.scaled h0 h1 hstable (hf.radicalOf_le hr.scaled hy p hfar)

/-- The inverse of a payout that is reached is placed right. -/
theorem placed_of_reached (ha : h.Along ctx s first) (hp : ctx.precision ≤ 10000) (hr : h.Resolved)
    {y : Finite} {current : ℤ} (hy : IsHalfInteger y.value) (hyb : |y.value| ≤ 2 * 10 ^ 18)
    (hcur : first ≤ current) (hnear : Near ascending y.value (s.curve.computed ctx current))
    (hreached : ∃ x, current ≤ x ∧ x < s.stop ∧ ¬Near ascending y.value (s.curve.computed ctx x)) :
    s.Placed ctx ascending (s.curve.computed ctx) y current := by
  have hs := hr.scaled
  obtain ⟨x, hx, hxs, hfar⟩ := hreached
  have hmem := ha.mem_clearOutcomes hcur (hx.trans hxs.le)
  have hmem' := ha.mem_clearOutcomes (hcur.trans hx) hxs.le
  obtain ⟨p⟩ := ha.exists_passage hp hs hr.c_isZero hcur (hx.trans hxs.le)
  obtain ⟨p'⟩ := ha.exists_passage hp hs hr.c_isZero (hcur.trans hx) hxs.le
  have hnear' := ha.computed_eq p ▸ hnear
  have hfar' := ha.computed_eq p' ▸ hfar
  have hfaces := faces_of_reached hs hy hr.le_abs_factor p p' (ha.u_mono hp hs p p' hcur hx hxs.le)
    (p'.u_le hs hmem'.1 hmem'.2.1) hnear' hfar'
  have hstable := hr.stable hfaces hy hyb hmem hmem' p p' hnear' hfar'
  have hsides := fun (z : ℤ) (hz : current ≤ z) (hzs : z < s.stop) =>
    ha.sides_of_place hp hr hfaces hstable hy (hcur.trans hz) hzs.le
  obtain ⟨x', hx', herr⟩ := hr.invert_near ctx hfaces hy hyb hstable
  obtain ⟨c, hc, hcc, hplaces⟩ :=
    places_of_near (ha.first_nonneg.trans hcur) (by omega) herr (fun z hz hzs => (hsides z hz hzs).1)
      (fun z hz hzs => (hsides z hz hzs).2) hnear
  -- the inverse does not lie beyond what has been reached
  have hcx : c ≤ x := by
    by_contra hlt
    exact hfar ((hplaces x hx hxs).1 (Or.inr (not_le.mp hlt)))
  obtain ⟨q⟩ := ha.exists_passage hp hs hr.c_isZero (hcur.trans hcc) (hcx.trans hxs.le)
  refine ⟨some c, ?_, hplaces, fun c' hc' => ?_⟩
  · rw [ha.curve_eq, ← hc]
    exact hx'
  · cases hc'
    exact ⟨_, ha.evaluate_eq q, rfl⟩

end Along

end Hyperbola

end NumericContract
