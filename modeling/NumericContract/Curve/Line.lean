import NumericContract.Decimal.Arithmetic
import NumericContract.Decimal.Integer

/-!
# Lines

A line is drawn through two payout points with different outcomes. The product of rise and run
is taken before the division, so that integer payouts are met exactly.
-/

namespace NumericContract

open Decimal

structure CurvePoint where
  outcome : Int
  payout : Decimal
deriving Repr, DecidableEq

structure Line where
  left : CurvePoint
  right : CurvePoint
  outcomes_ne : left.outcome ≠ right.outcome
deriving Repr, DecidableEq

namespace Line

def through (left right : CurvePoint) : Except Failure Line :=
  if h : left.outcome ≠ right.outcome then .ok ⟨left, right, h⟩
  else .error (.curve (.sharedOutcome left.outcome))

def ofPoints : List CurvePoint → Except Failure Line
  | [left, right] => through left right
  | points => .error (.curve (.pointCount points.length))

def run (l : Line) : Decimal := .ofInt (l.right.outcome - l.left.outcome)

def rise (ctx : Context) (l : Line) : Except Signal Decimal :=
  l.right.payout.sub ctx l.left.payout

def slope (ctx : Context) (l : Line) : Except Signal Decimal := do
  (← l.rise ctx.widened).div ctx.widened l.run

def evaluate (ctx : Context) (l : Line) (outcome : Int) : Except Signal Decimal := do
  let w := ctx.widened
  let gained ← (← l.rise w).mul w (.ofInt (outcome - l.left.outcome))
  l.left.payout.add w (← gained.div w l.run)

/-- The outcome nearest to where the line has a payout; a flat line has no such place. -/
def invert (ctx : Context) (l : Line) (payout : Decimal) : Except Signal (Option Int) := do
  let w := ctx.widened
  let rise ← l.rise w
  if ← rise.isZero then return none
  let distance ← (← (← payout.sub w l.left.payout).mul w l.run).div w rise
  return (← (ofInt l.left.outcome).add w distance).nearestOutcome?

end Line

end NumericContract
