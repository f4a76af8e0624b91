import NumericContract.Coefficient
import NumericContract.Curve.Line
import NumericContract.Descriptor.Field

/-!
# Payout points

An outcome and what is paid there, as a whole amount and sixteen further decimals.
-/

namespace NumericContract

open Decimal Descriptor

structure PayoutPoint where
  outcome : Nat
  payout : Nat
  extraPrecision : Nat
  extraPrecision_lt : extraPrecision < fractionScale
deriving Repr

namespace PayoutPoint

theorem ext_iff_fields {p q : PayoutPoint} :
    (p.outcome = q.outcome ∧ p.payout = q.payout ∧ p.extraPrecision = q.extraPrecision) ↔
      p = q := by
  cases p
  cases q
  simp

instance : DecidableEq PayoutPoint := fun _ _ => decidable_of_iff _ ext_iff_fields

def ofFields (fields : Fields) : Checked PayoutPoint :=
  (fun outcome payout extra => ⟨outcome, payout, extra.1, extra.2⟩)
    <$> fields.required "eventOutcome" asAmount
    <*> fields.required "outcomePayout" asAmount
    <*> fields.optional "extraPrecision" (fun v => (asInteger v).andThen (below fractionScale))
      ⟨0, fractionScale_pos⟩

def ofJson : Json → Checked PayoutPoint := asRecord ofFields

def toJson (p : PayoutPoint) : Json :=
  .record [("eventOutcome", .integer p.outcome), ("outcomePayout", .integer p.payout),
    ("extraPrecision", .integer p.extraPrecision)]

def exactPayout (ctx : Context) (p : PayoutPoint) : Except Signal Finite :=
  Coefficient.toFinite ctx ⟨true, p.payout, p.extraPrecision, p.extraPrecision_lt⟩

def toCurvePoint (ctx : Context) (p : PayoutPoint) : Except Signal CurvePoint := do
  return ⟨p.outcome, .finite (← p.exactPayout ctx)⟩

end PayoutPoint

/-- A point of a curve as a payout point, the payout rounded to sixteen decimals. Neither outcome
nor payout may be negative. -/
def CurvePoint.toPayoutPoint (ctx : Context) (p : CurvePoint) : Checked PayoutPoint :=
  (Checked.ofExcept (do
    if ← p.payout.lt (.ofInt 0) then throw (.curve (.negativePayout p.outcome))
    Coefficient.ofDecimal ctx p.payout)).andThen fun c =>
      (fun outcome => ⟨outcome, c.magnitude, c.fraction, c.fraction_lt⟩)
        <$> (asNatural p.outcome (toString p.outcome)).within (.field "event_outcome")

end NumericContract
