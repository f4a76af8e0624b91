import NumericContract.Curve
import NumericContract.Descriptor.Coefficient
import NumericContract.Descriptor.PayoutPoint

/-!
# Curve pieces

A curve travels as a piece: a polynomial, given by points, or a hyperbola, given by its six
coefficients. Only polynomials of two points stand for a curve.
-/

namespace NumericContract

open Decimal Descriptor

structure PolynomialPiece where
  points : List PayoutPoint
  two_le : 2 ≤ points.length
deriving Repr, DecidableEq

structure HyperbolaPiece where
  usePositivePiece : Bool
  translateOutcome : Coefficient
  translatePayout : Coefficient
  a : Coefficient
  b : Coefficient
  c : Coefficient
  d : Coefficient
deriving Repr, DecidableEq

inductive CurvePiece where
  | polynomial (p : PolynomialPiece)
  | hyperbola (h : HyperbolaPiece)
deriving Repr, DecidableEq

/-- A piece that names its kind must name this one. -/
def Descriptor.asKind (kind : String) : Json → Checked Unit
  | .text s => if s = kind then .valid () else .complain .wrongPiece
  | _ => .complain .wrongPiece

namespace PolynomialPiece

def kind : String := "polynomial"

def ofFields (fields : Fields) : Checked PolynomialPiece :=
  (fun _ points => ⟨points.1, points.2⟩)
    <$> fields.optional "type" (asKind kind) ()
    <*> fields.required "points" (asList 2 PayoutPoint.ofJson)

def ofJson : Json → Checked PolynomialPiece := asRecord ofFields

def toJson (p : PolynomialPiece) : Json :=
  .record [("type", .text kind), ("points", .list (p.points.map PayoutPoint.toJson))]

def toLine (ctx : Context) (p : PolynomialPiece) : Except Failure Line := do
  let points : List CurvePoint ← (p.points.mapM (PayoutPoint.toCurvePoint ctx) : Except Signal _)
  Line.ofPoints points

end PolynomialPiece

namespace HyperbolaPiece

def kind : String := "hyperbola"

def ofFields (ctx : Context) (fields : Fields) : Checked HyperbolaPiece :=
  let coefficient := fun name => fields.required name (Coefficient.ofJson ctx)
  (fun _ positive f₁ f₂ a b c d => ⟨positive, f₁, f₂, a, b, c, d⟩)
    <$> fields.optional "type" (asKind kind) ()
    <*> fields.optional "usePositivePiece" asFlag true
    <*> coefficient "translateOutcome"
    <*> coefficient "translatePayout"
    <*> coefficient "a"
    <*> coefficient "b"
    <*> coefficient "c"
    <*> coefficient "d"

def ofJson (ctx : Context) : Json → Checked HyperbolaPiece := asRecord (ofFields ctx)

def toJson (h : HyperbolaPiece) : Json :=
  .record [("type", .text kind), ("usePositivePiece", .flag h.usePositivePiece),
    ("translateOutcome", h.translateOutcome.toJson),
    ("translatePayout", h.translatePayout.toJson),
    ("a", h.a.toJson), ("b", h.b.toJson), ("c", h.c.toJson), ("d", h.d.toJson)]

def toHyperbola (ctx : Context) (h : HyperbolaPiece) : Except Failure Hyperbola := do
  let a ← h.a.toFinite ctx
  let b ← h.b.toFinite ctx
  let c ← h.c.toFinite ctx
  let d ← h.d.toFinite ctx
  let f₁ ← h.translateOutcome.toFinite ctx
  let f₂ ← h.translatePayout.toFinite ctx
  Hyperbola.ofCoefficients a b c d f₁ f₂ h.usePositivePiece

end HyperbolaPiece

namespace CurvePiece

/-- A piece of the kind that its fields name, a polynomial if they name none. -/
def ofFields (ctx : Context) (fields : Fields) : Checked CurvePiece :=
  let kind := (Json.lookupField "type" fields).getD (.text PolynomialPiece.kind)
  match kind with
  | .text s =>
      if s = PolynomialPiece.kind then
        polynomial <$> (PolynomialPiece.ofFields fields).within (.field s)
      else if s = HyperbolaPiece.kind then
        hyperbola <$> (HyperbolaPiece.ofFields ctx fields).within (.field s)
      else .complain .unknownPiece
  | _ => .complain .unknownPiece

/-- A piece must be a record, since nothing else has a kind. -/
def ofJson (ctx : Context) : Json → Checked CurvePiece
  | .record fields => ofFields ctx fields
  | v => .failed (.untypedPiece v.kindName)

def toJson : CurvePiece → Json
  | polynomial p => p.toJson
  | hyperbola h => h.toJson

def toCurve (ctx : Context) : CurvePiece → Except Failure Curve
  | polynomial p => do return .line (← p.toLine ctx)
  | hyperbola h => do return .hyperbola (← h.toHyperbola ctx)

end CurvePiece

def Line.toPiece (ctx : Context) (l : Line) : Checked PolynomialPiece :=
  (l.left.toPayoutPoint ctx).andThen fun left =>
    (l.right.toPayoutPoint ctx).andThen fun right => .valid ⟨[left, right], by simp⟩

def Hyperbola.toPiece (ctx : Context) (h : Hyperbola) : Except Signal HyperbolaPiece := do
  let a ← Coefficient.ofFinite ctx h.a
  let b ← Coefficient.ofFinite ctx h.b
  let c ← Coefficient.ofFinite ctx h.c
  let d ← Coefficient.ofFinite ctx h.d
  let f₁ ← Coefficient.ofFinite ctx h.translateOutcome
  let f₂ ← Coefficient.ofFinite ctx h.translatePayout
  return ⟨h.usePositivePiece, f₁, f₂, a, b, c, d⟩

def Curve.toPiece (ctx : Context) : Curve → Checked CurvePiece
  | .line l => .polynomial <$> l.toPiece ctx
  | .hyperbola h => .hyperbola <$> Checked.ofExcept (Failure.ofArithmetic (h.toPiece ctx))

end NumericContract
