import NumericContract.Decimal.Arithmetic
import NumericContract.Failure

/-!
# Coefficients with sixteen decimals

A coefficient is a sign, a whole magnitude and sixteen decimal digits kept as an integer:
`± (magnitude + fraction · 10 ^ -16)`. A decimal is rounded to sixteen places, a half going away
from zero, and then split, so that a fraction that rounds up to one is carried into the
magnitude. The sign is that of the decimal before rounding.
-/

namespace NumericContract

open Decimal

def fractionScale : Nat := Magnitude.tenPower 16

theorem fractionScale_pos : 0 < fractionScale := Magnitude.tenPower_pos 16

structure Coefficient where
  positive : Bool
  magnitude : Nat
  fraction : Nat
  fraction_lt : fraction < fractionScale
deriving Repr, DecidableEq

abbrev Fraction := { n : Nat // n < fractionScale }

namespace Coefficient

def ofFraction (positive : Bool) (magnitude : Nat) (fraction : Fraction) : Coefficient :=
  ⟨positive, magnitude, fraction.1, fraction.2⟩

def units (ctx : Context) (x : Finite) : Except Signal Nat := do
  let magnitude ← x.abs ctx.widened
  let rounded ← magnitude.quantize ctx.widened (-16)
  return rounded.coefficient

/-- The first sixteen decimals of a number, as an integer. -/
def fractionOf (ctx : Context) : Decimal → Except Failure Nat
  | .finite x => do return (← units ctx x) % fractionScale
  | value => .error (.precision (.fractionOfNonFinite value))

/-- The coefficient nearest to a number. -/
def ofFinite (ctx : Context) (x : Finite) : Except Signal Coefficient := do
  let n ← units ctx x
  return ⟨!x.isNegative, n / fractionScale, n % fractionScale, Nat.mod_lt _ fractionScale_pos⟩

/-- The coefficient nearest to a decimal; infinities and NaNs have none. -/
def ofDecimal (ctx : Context) : Decimal → Except Failure Coefficient
  | .finite x => ofFinite ctx x
  | value => .error (.precision (.nonFinite value))

/-- The number `fraction · 10 ^ -16`. -/
def fractionValue (fraction : Nat) : Finite := ⟨false, fraction, -16⟩

def checkFraction (fraction : Int) : Except Failure Fraction :=
  if fraction < 0 then .error (.precision (.negativeFraction fraction))
  else if h : fraction.toNat < fractionScale then .ok ⟨fraction.toNat, h⟩
  else .error (.precision (.fractionTooLong fraction))

def ofParts (positive : Bool) (magnitude fraction : Int) : Except Failure Coefficient := do
  if magnitude < 0 then throw (.precision (.negativeMagnitude magnitude))
  return ofFraction positive magnitude.toNat (← checkFraction fraction)

def toFinite (ctx : Context) (c : Coefficient) : Except Signal Finite := do
  let sum ← (Finite.ofInt c.magnitude).add ctx.widened (fractionValue c.fraction)
  if c.positive then return sum else sum.neg ctx.widened

end Coefficient

end NumericContract
