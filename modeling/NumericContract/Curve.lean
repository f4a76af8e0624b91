import NumericContract.Curve.Hyperbola
import NumericContract.Curve.Line

/-!
# Payout curves

A payout curve is a line or a hyperbola. It has a payout at every outcome at which it is defined,
and an outcome nearest to where it reaches a payout. Arithmetic has at least 78 digits.
-/

namespace NumericContract

open Decimal

inductive Curve where
  | line (l : Line)
  | hyperbola (h : Hyperbola)
deriving Repr, DecidableEq

namespace Curve

/-- The payout at an outcome: infinite or a NaN where the curve is undefined. -/
def evaluate (ctx : Context) : Curve → Int → Except Signal Decimal
  | .line l => l.evaluate ctx
  | .hyperbola h => h.evaluate ctx

/-- The outcome nearest to where the curve has a payout, if there is one and it is not
negative. -/
def invert (ctx : Context) (curve : Curve) (payout : Decimal) : Except Failure (Option Int) :=
  match curve with
  | .line l => l.invert ctx payout
  | .hyperbola h => h.invert ctx payout

def isDefinedAt (ctx : Context) (curve : Curve) (outcome : Int) : Except Signal Bool := do
  return (← curve.evaluate ctx outcome).isFinite

/-- The first of `count` outcomes from `outcome` on at which the curve is defined. -/
def scan (ctx : Context) (curve : Curve) (outcome : Int) :
    (count : Nat) → Except Signal (Option Int)
  | 0 => return none
  | count + 1 => do
      if ← curve.isDefinedAt ctx outcome then return some outcome
      scan ctx curve (outcome + 1) count

/-- Probes a range of outcomes one by one, at most `steps` of them. -/
def probe (ctx : Context) (curve : Curve) (lower upper steps : Int) :
    Except Signal (Option Int) :=
  curve.scan ctx lower (min (upper - lower + 1) steps).toNat

/-- The first outcome of a range at which the curve is defined. A hyperbola with `b = 0` is
defined exactly to the right of its pole; other curves are probed, at most `steps` times. -/
def firstDefined (ctx : Context) (curve : Curve) (lower upper steps : Int) :
    Except Signal (Option Int) :=
  match curve with
  | .line _ => curve.probe ctx lower upper steps
  | .hyperbola h =>
      if h.b.isZero then
        let first := max lower h.firstAfterPole
        return if first ≤ upper then some first else none
      else curve.probe ctx lower upper steps

end Curve

end NumericContract
