import NumericContract.Descriptor.PayoutFunction
import NumericContract.Staircase

/-!
# Payouts of a payout function

The pieces of a function are split one after the other, each between the points at which it
begins and ends, and what they pay is merged: the outcome at which two pieces meet belongs to the
first of them. End points pay what they say, rounded to a whole amount.
-/

namespace NumericContract

open Decimal

/-- An outcome with a settled whole payout, at which pieces begin and end. -/
structure Knot where
  outcome : Int
  payout : Int
deriving Repr, DecidableEq

namespace Knot

def spanTo (first last : Knot) : Span := ⟨first.outcome, last.outcome, first.payout, last.payout⟩

def lineTo (first last : Knot) : Except Failure Line :=
  Line.through ⟨first.outcome, .ofInt first.payout⟩ ⟨last.outcome, .ofInt last.payout⟩

end Knot

/-- An end point with its payout as a whole amount, which the collateral must cover. -/
def PayoutPoint.toKnot (ctx : Context) (collateral : Int) (p : PayoutPoint) :
    Except Failure Knot := do
  let exact ← p.exactPayout ctx
  let payout := exact.roundHalfUp
  if collateral < payout then
    throw (.payoutFunction (.aboveCollateral payout p.outcome collateral))
  return ⟨p.outcome, payout⟩

namespace PayoutFunction

structure DrawnPiece where
  endPoint : PayoutPoint
  curve : Curve
deriving DecidableEq

def draw (ctx : Context) (p : FunctionPiece) : Except Failure DrawnPiece := do
  return ⟨p.endPoint, ← p.curve.toCurve ctx⟩

structure Terms where
  collateral : Int
  policy : RoundingPolicy
  settings : Settings

/-- The first end point, or outcome zero with what the first curve pays there, limited to the
collateral. -/
def start (ctx : Context) (terms : Terms) (first? : Option PayoutPoint) (curve? : Option Curve) :
    Except Failure Knot := do
  match first?, curve? with
  | some p, _ => p.toKnot ctx terms.collateral
  | none, some curve =>
      match ← curve.evaluate ctx 0 with
      | .finite payout => return ⟨0, clampInt payout.roundHalfUp 0 terms.collateral⟩
      | _ => throw (.payoutFunction .undefinedStart)
  | none, none => throw (.payoutFunction .undefinedStart)

/-- The ranges of a piece from one knot to another; there are none where both are the same
outcome. -/
def splitPiece (terms : Terms) (first last : Knot) (curve : Curve) :
    Except Failure (List PayoutRange) :=
  if first.outcome < last.outcome then
    (first.spanTo last).split terms.collateral curve terms.policy terms.settings
  else .ok []

/-- The ranges of the pieces from a knot on, of which the first has the given index, and the knot
at which the last of them ends. -/
def splitPieces (ctx : Context) (terms : Terms) (first : Knot) (index : Nat) :
    List DrawnPiece → Except Failure (List PayoutRange × Knot)
  | [] => .ok ([], first)
  | p :: rest => do
      let last ← p.endPoint.toKnot ctx terms.collateral
      if last.outcome < first.outcome then
        throw (.payoutFunction (.endsBeforeStart index last.outcome first.outcome))
      let ranges ← splitPiece terms first last p.curve
      let (more, final) ← splitPieces ctx terms last (index + 1) rest
      return (ranges ++ more, final)

/-- The ranges of the straight extension from a knot to a last end point that lies beyond it. -/
def splitExtension (ctx : Context) (terms : Terms) (first : Knot) (last? : Option PayoutPoint) :
    Except Failure (List PayoutRange) := do
  match last? with
  | none => return []
  | some p =>
      if (p.outcome : Int) ≤ first.outcome then return []
      let last ← p.toKnot ctx terms.collateral
      splitPiece terms first last (.line (← first.lineTo last))

/-- The payout ranges of a function, in ascending order and without gaps. -/
def payouts (ctx : Context) (f : PayoutFunction) (terms : Terms) :
    Except Failure (List PayoutRange) := do
  let pieces ← f.pieces.mapM (draw ctx)
  let first ← start ctx terms f.first? (pieces.head?.map (·.curve))
  let (ranges, last) ← splitPieces ctx terms first 0 pieces
  let extension ← splitExtension ctx terms last f.last?
  match ranges ++ extension with
  | [] => throw (.payoutFunction .coversNothing)
  | all => return PayoutRange.merge all

end PayoutFunction

end NumericContract
