import NumericContract.Descriptor.CurvePiece
import NumericContract.Proofs.Coefficient

/-!
# Curves as pieces and back

A piece whose numbers have at most 62 digits before the point is decoded to a curve with exactly
these numbers. Encoding the curve gives the piece again, every zero made positive.
-/

namespace NumericContract

open Decimal

theorem Coefficient.ofDecimal_eq_ok {ctx : Context} {x : Finite} {c : Coefficient}
    (h : ofFinite ctx x = .ok c) : ofDecimal ctx (.finite x) = .ok c :=
  Failure.ofArithmetic_eq_ok.mpr h

/-! ## Points -/

namespace PayoutPoint

variable {ctx : Context} {p : PayoutPoint} {q : CurvePoint}

def coefficient (p : PayoutPoint) : Coefficient :=
  ⟨true, p.payout, p.extraPrecision, p.extraPrecision_lt⟩

/-- The point of a curve has the outcome and exactly the payout of a payout point. -/
def StandsFor (p : PayoutPoint) (q : CurvePoint) : Prop :=
  q.outcome = p.outcome ∧ ∃ x : Finite, q.payout = .finite x ∧ x.value = p.coefficient.value

theorem exactPayout_eq (ctx : Context) (p : PayoutPoint) :
    p.exactPayout ctx = p.coefficient.toFinite ctx := rfl

theorem value_coefficient_nonneg (p : PayoutPoint) : 0 ≤ p.coefficient.value := by
  have hnonneg : (0 : ℚ) ≤ p.payout + p.extraPrecision / 10 ^ 16 := by positivity
  simpa [Coefficient.value, coefficient] using hnonneg

theorem exists_toCurvePoint (ctx : Context) (h : p.payout < 10 ^ 62) :
    ∃ q, p.toCurvePoint ctx = .ok q ∧ p.StandsFor q := by
  obtain ⟨x, hx, hv⟩ := Coefficient.exists_toFinite ctx (c := p.coefficient) h
  refine ⟨⟨p.outcome, .finite x⟩, ?_, rfl, x, rfl, hv⟩
  unfold toCurvePoint
  rw [exactPayout_eq, bind_of_ok hx]
  rfl

theorem toPayoutPoint_of_standsFor (ctx : Context) (h : p.payout < 10 ^ 62) (hq : p.StandsFor q) :
    q.toPayoutPoint ctx = .valid p := by
  obtain ⟨houtcome, x, hx, hv⟩ := hq
  have hencoded : Coefficient.ofDecimal ctx q.payout = .ok p.coefficient := by
    rw [hx]
    apply Coefficient.ofDecimal_eq_ok
    rw [Coefficient.ofFinite_of_value ctx (c := p.coefficient) h hv, Coefficient.normal_of_positive rfl]
  have hlt : q.payout.lt (.ofInt 0) = .ok false := by
    have hnonneg := p.value_coefficient_nonneg
    rw [hx, ofInt, lt_finite]
    simpa [hv] using hnonneg
  have houtcome' : Descriptor.asNatural q.outcome (toString q.outcome) = .valid p.outcome := by
    simp [Descriptor.asNatural, houtcome]
  unfold CurvePoint.toPayoutPoint
  rw [houtcome', hencoded, hlt]
  rfl

end PayoutPoint

/-! ## Pieces -/

def HyperbolaPiece.coefficients (h : HyperbolaPiece) : List Coefficient :=
  [h.a, h.b, h.c, h.d, h.translateOutcome, h.translatePayout]

def HyperbolaPiece.normal (h : HyperbolaPiece) : HyperbolaPiece :=
  ⟨h.usePositivePiece, h.translateOutcome.normal, h.translatePayout.normal, h.a.normal, h.b.normal,
    h.c.normal, h.d.normal⟩

namespace CurvePiece

/-- The coefficients of a hyperbola, or the payouts of the points. -/
def coefficients : CurvePiece → List Coefficient
  | polynomial p => p.points.map PayoutPoint.coefficient
  | hyperbola h => h.coefficients

/-- A piece that may stand for a curve, a polynomial being given by two points, and the numbers of
which have at most 62 digits before the point. -/
structure Encodable (piece : CurvePiece) : Prop where
  points_length : ∀ p, piece = polynomial p → p.points.length = 2
  magnitude_lt : ∀ c ∈ piece.coefficients, c.magnitude < 10 ^ 62

/-- Whether there is a curve: the points have different outcomes, or `a` is not zero. -/
def Drawable : CurvePiece → Prop
  | polynomial p => (p.points.map PayoutPoint.outcome).Nodup
  | hyperbola h => h.a.value ≠ 0

/-- The curve is of the kind of the piece and has exactly its numbers. -/
def StandsFor : CurvePiece → Curve → Prop
  | polynomial p, .line l => List.Forall₂ PayoutPoint.StandsFor p.points [l.left, l.right]
  | hyperbola h, .hyperbola g =>
      g.coefficients.map (·.2.value) = h.coefficients.map Coefficient.value ∧
        g.usePositivePiece = h.usePositivePiece
  | _, _ => False

/-- The piece that encoding gives for the curve of a piece. -/
def normal : CurvePiece → CurvePiece
  | polynomial p => polynomial p
  | hyperbola h => hyperbola h.normal

end CurvePiece

/-! ## Lines -/

theorem Line.through_eq_ok {left right : CurvePoint} {l : Line} :
    through left right = .ok l ↔
      left.outcome ≠ right.outcome ∧ l.left = left ∧ l.right = right := by
  unfold through
  by_cases h : left.outcome ≠ right.outcome
  · rw [dif_pos h]
    cases l
    simp [h, eq_comm]
  · rw [dif_neg h]
    simp [h]

namespace PolynomialPiece

variable {ctx : Context} {p : PolynomialPiece} {left right : PayoutPoint}

theorem toLine_eq (ctx : Context) (hp : p.points = [left, right]) (hl : left.payout < 10 ^ 62)
    (hr : right.payout < 10 ^ 62) : ∃ q r, left.StandsFor q ∧ right.StandsFor r ∧
      p.toLine ctx = Line.through q r := by
  obtain ⟨q, hq, hql⟩ := PayoutPoint.exists_toCurvePoint ctx hl
  obtain ⟨r, hr, hrr⟩ := PayoutPoint.exists_toCurvePoint ctx hr
  have hpoints : p.points.mapM (PayoutPoint.toCurvePoint ctx) = .ok [q, r] := by
    rw [hp]
    simp [hq, hr]
    rfl
  refine ⟨q, r, hql, hrr, ?_⟩
  unfold toLine
  rw [hpoints]
  rfl

theorem toLine_spec (ctx : Context) (hp : p.points = [left, right]) (hl : left.payout < 10 ^ 62)
    (hr : right.payout < 10 ^ 62) :
    (∀ l, p.toLine ctx = .ok l → left.StandsFor l.left ∧ right.StandsFor l.right) ∧
    ((∃ l, p.toLine ctx = .ok l) ↔ left.outcome ≠ right.outcome) := by
  obtain ⟨q, r, hq, hr, hline⟩ := toLine_eq ctx hp hl hr
  have hne : q.outcome ≠ r.outcome ↔ left.outcome ≠ right.outcome := by
    rw [hq.1, hr.1, Ne, Nat.cast_inj]
  simp only [hline, ← hne]
  constructor
  · intro l hthrough
    obtain ⟨-, hleft, hright⟩ := Line.through_eq_ok.mp hthrough
    rw [hleft, hright]
    exact ⟨hq, hr⟩
  · constructor
    · intro ⟨l, hthrough⟩
      exact (Line.through_eq_ok.mp hthrough).1
    · intro h
      exact ⟨⟨q, r, h⟩, Line.through_eq_ok.mpr ⟨h, rfl, rfl⟩⟩

end PolynomialPiece

theorem Line.toPiece_of_standsFor (ctx : Context) {l : Line} {p : PolynomialPiece}
    {left right : PayoutPoint} (hp : p.points = [left, right]) (hl : left.payout < 10 ^ 62)
    (hr : right.payout < 10 ^ 62) (hleft : left.StandsFor l.left) (hright : right.StandsFor l.right) :
    l.toPiece ctx = .valid p := by
  unfold Line.toPiece
  rw [PayoutPoint.toPayoutPoint_of_standsFor ctx hl hleft,
    PayoutPoint.toPayoutPoint_of_standsFor ctx hr hright]
  cases p
  cases hp
  rfl

/-! ## Hyperbolas -/

theorem Hyperbola.ofCoefficients_eq_ok {a b c d f₁ f₂ : Finite} {positive : Bool} {g : Hyperbola} :
    ofCoefficients a b c d f₁ f₂ positive = .ok g ↔ a.value ≠ 0 ∧
      g.coefficients.map Prod.snd = [a, b, c, d, f₁, f₂] ∧ g.usePositivePiece = positive := by
  rw [← Finite.isZero_eq_false_iff]
  unfold ofCoefficients coefficients
  by_cases h : a.isZero = false
  · rw [dif_pos h]
    cases g
    simp [h, eq_comm, and_assoc]
  · rw [dif_neg h]
    simp [h]

/-- A hyperbola with exactly the numbers of a piece is encoded as this piece, its zeros positive. -/
theorem Hyperbola.toPiece_of_values (ctx : Context) {g : Hyperbola} {h : HyperbolaPiece}
    (hsmall : ∀ c ∈ h.coefficients, c.magnitude < 10 ^ 62)
    (hvalues : g.coefficients.map (·.2.value) = h.coefficients.map Coefficient.value)
    (hpositive : g.usePositivePiece = h.usePositivePiece) : g.toPiece ctx = .ok h.normal := by
  simp only [HyperbolaPiece.coefficients, List.mem_cons, forall_eq_or_imp, List.not_mem_nil,
    false_imp_iff, implies_true, and_true] at hsmall
  obtain ⟨ha, hb, hc, hd, hf₁, hf₂⟩ := hsmall
  simp only [coefficients, HyperbolaPiece.coefficients, List.map_cons, List.map_nil, List.cons.injEq,
    and_true] at hvalues
  obtain ⟨hav, hbv, hcv, hdv, hf₁v, hf₂v⟩ := hvalues
  unfold toPiece
  rw [bind_of_ok (Coefficient.ofFinite_of_value ctx ha hav),
    bind_of_ok (Coefficient.ofFinite_of_value ctx hb hbv),
    bind_of_ok (Coefficient.ofFinite_of_value ctx hc hcv),
    bind_of_ok (Coefficient.ofFinite_of_value ctx hd hdv),
    bind_of_ok (Coefficient.ofFinite_of_value ctx hf₁ hf₁v),
    bind_of_ok (Coefficient.ofFinite_of_value ctx hf₂ hf₂v), hpositive]
  rfl

namespace HyperbolaPiece

variable {h : HyperbolaPiece}

theorem toHyperbola_eq (ctx : Context) (hsmall : ∀ c ∈ h.coefficients, c.magnitude < 10 ^ 62) :
    ∃ a b c d f₁ f₂ : Finite,
      [a, b, c, d, f₁, f₂].map Finite.value = h.coefficients.map Coefficient.value ∧
      h.toHyperbola ctx = Hyperbola.ofCoefficients a b c d f₁ f₂ h.usePositivePiece := by
  simp only [coefficients, List.mem_cons, forall_eq_or_imp, List.not_mem_nil, false_imp_iff,
    implies_true, and_true] at hsmall
  obtain ⟨ha, hb, hc, hd, hf₁, hf₂⟩ := hsmall
  obtain ⟨a, ha, hav⟩ := Coefficient.exists_toFinite ctx ha
  obtain ⟨b, hb, hbv⟩ := Coefficient.exists_toFinite ctx hb
  obtain ⟨c, hc, hcv⟩ := Coefficient.exists_toFinite ctx hc
  obtain ⟨d, hd, hdv⟩ := Coefficient.exists_toFinite ctx hd
  obtain ⟨f₁, hf₁, hf₁v⟩ := Coefficient.exists_toFinite ctx hf₁
  obtain ⟨f₂, hf₂, hf₂v⟩ := Coefficient.exists_toFinite ctx hf₂
  refine ⟨a, b, c, d, f₁, f₂, ?_, ?_⟩
  · simp [coefficients, hav, hbv, hcv, hdv, hf₁v, hf₂v]
  · unfold toHyperbola
    rw [ha, hb, hc, hd, hf₁, hf₂]
    rfl

theorem toHyperbola_spec (ctx : Context) (hsmall : ∀ c ∈ h.coefficients, c.magnitude < 10 ^ 62) :
    (∀ g, h.toHyperbola ctx = .ok g →
      g.coefficients.map (·.2.value) = h.coefficients.map Coefficient.value ∧
        g.usePositivePiece = h.usePositivePiece) ∧
    ((∃ g, h.toHyperbola ctx = .ok g) ↔ h.a.value ≠ 0) := by
  obtain ⟨a, b, c, d, f₁, f₂, hvalues, hyperbola⟩ := toHyperbola_eq ctx hsmall
  have ha : a.value = h.a.value := by
    simpa [coefficients] using congrArg List.head? hvalues
  rw [← ha]
  simp only [hyperbola]
  constructor
  · intro g hg
    obtain ⟨-, hcoefficients, hpositive⟩ := Hyperbola.ofCoefficients_eq_ok.mp hg
    rw [← hvalues, ← hcoefficients, List.map_map]
    exact ⟨rfl, hpositive⟩
  · constructor
    · intro ⟨g, hg⟩
      exact (Hyperbola.ofCoefficients_eq_ok.mp hg).1
    · intro hne
      have hzero := (Finite.isZero_eq_false_iff a).mpr hne
      exact ⟨⟨a, b, c, d, f₁, f₂, h.usePositivePiece, hzero⟩,
        Hyperbola.ofCoefficients_eq_ok.mpr ⟨hne, rfl, rfl⟩⟩

end HyperbolaPiece

namespace CurvePiece

variable {ctx : Context} {piece : CurvePiece} {curve : Curve}

theorem toCurve_polynomial_eq_ok {p : PolynomialPiece} :
    (polynomial p).toCurve ctx = .ok curve ↔ ∃ l, p.toLine ctx = .ok l ∧ .line l = curve := by
  simp only [toCurve]
  rw [bind_eq_ok]
  simp [pure, Except.pure]

theorem toCurve_hyperbola_eq_ok {h : HyperbolaPiece} :
    (hyperbola h).toCurve ctx = .ok curve ↔ ∃ g, h.toHyperbola ctx = .ok g ∧ .hyperbola g = curve := by
  simp only [toCurve]
  rw [bind_eq_ok]
  simp [pure, Except.pure]

/-- The curve of a piece has its numbers, and there is one just where the piece can be drawn. -/
theorem toCurve_spec (ctx : Context) (hp : piece.Encodable) :
    (∀ curve, piece.toCurve ctx = .ok curve → piece.StandsFor curve) ∧
    ((∃ curve, piece.toCurve ctx = .ok curve) ↔ piece.Drawable) := by
  have hsmall := hp.magnitude_lt
  cases piece with
  | polynomial p =>
      obtain ⟨left, right, hpoints⟩ := List.length_eq_two.mp (hp.points_length p rfl)
      have hl : left.payout < 10 ^ 62 := hsmall left.coefficient (by simp [coefficients, hpoints])
      have hr : right.payout < 10 ^ 62 := hsmall right.coefficient (by simp [coefficients, hpoints])
      obtain ⟨hstands, hexists⟩ := PolynomialPiece.toLine_spec ctx hpoints hl hr
      simp only [toCurve_polynomial_eq_ok]
      constructor
      · intro curve ⟨l, hline, hl⟩
        rw [← hl]
        simpa [StandsFor, hpoints] using hstands l hline
      · simp [Drawable, hpoints, hexists]
  | hyperbola h =>
      obtain ⟨hstands, hexists⟩ := HyperbolaPiece.toHyperbola_spec ctx hsmall
      simp only [toCurve_hyperbola_eq_ok]
      constructor
      · intro curve ⟨g, hg, hcurve⟩
        rw [← hcurve]
        exact hstands g hg
      · simp [Drawable, hexists]

theorem toPiece_of_standsFor (ctx : Context) (hp : piece.Encodable) (hcurve : piece.StandsFor curve) :
    curve.toPiece ctx = .valid piece.normal := by
  have hsmall := hp.magnitude_lt
  cases piece with
  | polynomial p =>
      obtain ⟨left, right, hpoints⟩ := List.length_eq_two.mp (hp.points_length p rfl)
      have hl : left.payout < 10 ^ 62 := hsmall left.coefficient (by simp [coefficients, hpoints])
      have hr : right.payout < 10 ^ 62 := hsmall right.coefficient (by simp [coefficients, hpoints])
      cases curve with
      | hyperbola g => exact hcurve.elim
      | line l =>
          have hboth : left.StandsFor l.left ∧ right.StandsFor l.right := by
            simpa [StandsFor, hpoints] using hcurve
          simp only [Curve.toPiece]
          rw [Line.toPiece_of_standsFor ctx hpoints hl hr hboth.1 hboth.2]
          rfl
  | hyperbola h =>
      cases curve with
      | line l => exact hcurve.elim
      | hyperbola g =>
          simp only [Curve.toPiece]
          rw [Hyperbola.toPiece_of_values ctx hsmall hcurve.1 hcurve.2]
          rfl

/-- The way from a piece to its curve and back. Every number is decoded exactly, there is a curve
just where the piece can be drawn, and what the curve is encoded as is the piece, its zeros
positive. -/
theorem toPiece_toCurve (ctx : Context) (hp : piece.Encodable) :
    (∀ c ∈ piece.coefficients, ∃ x, c.toFinite ctx = .ok x ∧ x.value = c.value) ∧
    ((∃ curve, piece.toCurve ctx = .ok curve) ↔ piece.Drawable) ∧
    ∀ curve, piece.toCurve ctx = .ok curve →
      piece.StandsFor curve ∧ curve.toPiece ctx = .valid piece.normal := by
  obtain ⟨hstands, hdrawable⟩ := toCurve_spec ctx hp
  refine ⟨?_, hdrawable, ?_⟩
  · intro c hc
    exact Coefficient.exists_toFinite ctx (hp.magnitude_lt c hc)
  · intro curve hcurve
    have hstand := hstands curve hcurve
    exact ⟨hstand, toPiece_of_standsFor ctx hp hstand⟩

/-- A hyperbola with the most digits that are exact, of either sign, and with a negative zero. -/
def widest : HyperbolaPiece where
  usePositivePiece := false
  translateOutcome := ⟨true, 10 ^ 62 - 1, 10 ^ 16 - 1, by decide⟩
  translatePayout := ⟨false, 0, 1, by decide⟩
  a := ⟨false, 10 ^ 62 - 1, 10 ^ 16 - 1, by decide⟩
  b := ⟨true, 1, 0, fractionScale_pos⟩
  c := ⟨true, 0, 10 ^ 15, by decide⟩
  d := ⟨false, 0, 0, fractionScale_pos⟩

theorem encodable_widest : (hyperbola widest).Encodable where
  points_length p hp := by cases hp
  magnitude_lt := by decide

/-- The digits of the widest hyperbola all come back, and its zero is positive then. -/
theorem toPiece_toCurve_widest : ∃ curve, (hyperbola widest).toCurve .standard = .ok curve ∧
    curve.toPiece .standard =
      .valid (hyperbola { widest with d := ⟨true, 0, 0, fractionScale_pos⟩ }) := by
  obtain ⟨-, hdrawable, hback⟩ := toPiece_toCurve .standard encodable_widest
  have hne : (hyperbola widest).Drawable := by
    norm_num [Drawable, widest, Coefficient.value]
  obtain ⟨curve, hcurve⟩ := hdrawable.mpr hne
  exact ⟨curve, hcurve, (hback curve hcurve).2⟩

end CurvePiece

end NumericContract
