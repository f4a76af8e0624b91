import NumericContract.Decimal.Arithmetic
import NumericContract.Decimal.Integer

/-!
# Hyperbolas

A hyperbola has six finite coefficients, of which `a` is not zero. With the distance from the
vertical translation, `t = x - f₁`, and `u = t + √(t² - 4ab)`, its payout is

    c · u / (2a) + 2ad / u + f₂.

Where `b = c = 0` that is `ad / t + f₂` to the right of the pole and undefined elsewhere. Payouts
can be inverted where `c = 0`.
-/

namespace NumericContract

open Decimal

structure Hyperbola where
  a : Finite
  b : Finite
  c : Finite
  d : Finite
  translateOutcome : Finite
  translatePayout : Finite
  usePositivePiece : Bool
  a_ne_zero : a.isZero = false
deriving Repr, DecidableEq

namespace Decimal.Finite

def product (ctx : Context) (x : Finite) (factors : List Finite) : Except Signal Finite :=
  factors.foldlM (fun total factor => total.mul ctx factor) x

end Decimal.Finite

namespace Decimal

def product (ctx : Context) (x : Decimal) (factors : List Decimal) : Except Signal Decimal :=
  factors.foldlM (fun total factor => total.mul ctx factor) x

end Decimal

namespace Hyperbola

def coefficients (h : Hyperbola) : List (String × Finite) :=
  [("a", h.a), ("b", h.b), ("c", h.c), ("d", h.d), ("translate_outcome", h.translateOutcome),
    ("translate_payout", h.translatePayout)]

def checkFinite (name : String) : Decimal → Except Failure Finite
  | .finite x => .ok x
  | value => .error (.curve (.notFinite name value))

def ofCoefficients (a b c d translateOutcome translatePayout : Finite)
    (usePositivePiece : Bool) : Except Failure Hyperbola :=
  if h : a.isZero = false then
    .ok ⟨a, b, c, d, translateOutcome, translatePayout, usePositivePiece, h⟩
  else .error (.curve .zeroLeading)

/-- A hyperbola from the values of its coefficients, which are looked at in their order. -/
def ofValues (value : String → Except Failure Decimal) (usePositivePiece : Bool) :
    Except Failure Hyperbola := do
  let coefficient := fun name => do checkFinite name (← value name)
  let a ← coefficient "a"
  let b ← coefficient "b"
  let c ← coefficient "c"
  let d ← coefficient "d"
  let f₁ ← coefficient "translate_outcome"
  let f₂ ← coefficient "translate_payout"
  ofCoefficients a b c d f₁ f₂ usePositivePiece

/-- Whether the hyperbola is of the form `ad / (x - f₁) + f₂`. -/
def isRectangular (h : Hyperbola) : Bool := h.b.isZero && h.c.isZero

/-- `u`, or none where the root has no real value. -/
def radical? (ctx : Context) (h : Hyperbola) (outcome : Int) :
    Except Signal (Option Finite) := do
  let shifted ← (Finite.ofInt outcome).sub ctx h.translateOutcome
  let square ← shifted.mul ctx shifted
  let discriminant ← square.sub ctx (← Finite.product ctx (.ofInt 4) [h.a, h.b])
  if discriminant.isNegative then return none
  return some (← shifted.add ctx (← discriminant.sqrt ctx))

/-- The payout at a given `u`: infinite at zero, with the sign of `ad`, unless that is zero too. -/
def payoutAt (ctx : Context) (h : Hyperbola) (u : Finite) : Except Signal Decimal := do
  if u.isZero then
    let numerator ← h.a.mul ctx h.d
    if numerator.isZero then return .nan false false 0
    return .infinity numerator.isNegative
  let linear ← (← h.c.mul ctx u).div ctx (← (Finite.ofInt 2).mul ctx h.a)
  let inverse ← (← Finite.product ctx (.ofInt 2) [h.a, h.d]).div ctx u
  return .finite (← (← linear.add ctx inverse).add ctx h.translatePayout)

/-- The payout at an outcome, a NaN where the curve is undefined. -/
def evaluate (ctx : Context) (h : Hyperbola) (outcome : Int) : Except Signal Decimal := do
  match ← h.radical? ctx.widened outcome with
  | none => return .nan false false 0
  | some u => h.payoutAt ctx.widened u

/-- The numerator of the quotient whose value is the outcome of a payout where `c = 0`. -/
def numerator (ctx : Context) (h : Hyperbola) (y : Decimal) : Except Signal Decimal := do
  let b := Decimal.finite h.b
  let d := Decimal.finite h.d
  let f₁ := Decimal.finite h.translateOutcome
  let f₂ := Decimal.finite h.translatePayout
  let opposite := Decimal.finite (← h.a.neg ctx)
  let total ← product ctx opposite [d, d]
  let total ← total.sub ctx (← product ctx b [f₂, f₂])
  let total ← total.add ctx (← product ctx (ofInt 2) [b, f₂, y])
  let total ← total.sub ctx (← product ctx b [y, y])
  let total ← total.add ctx (← product ctx d [f₁, f₂])
  total.sub ctx (← product ctx d [f₁, y])

def inverse? (ctx : Context) (h : Hyperbola) (y : Decimal) : Except Signal (Option Decimal) := do
  let denominator ← (Decimal.finite h.d).mul ctx (← (Decimal.finite h.translatePayout).sub ctx y)
  if ← denominator.isZero then return none
  return some (← (← h.numerator ctx y).div ctx denominator)

def invert (ctx : Context) (h : Hyperbola) (payout : Decimal) : Except Failure (Option Int) := do
  if !h.c.isZero then throw .unsupportedInversion
  match ← h.inverse? ctx.widened payout with
  | none => return none
  | some outcome => return outcome.nearestOutcome?

def firstAfterPole (h : Hyperbola) : Int := h.translateOutcome.floor + 1

end Hyperbola

end NumericContract
