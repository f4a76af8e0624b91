import NumericContract.Decimal.Magnitude

/-!
# Decimal data

A decimal datum is a finite number `± coefficient · 10 ^ exponent`, an infinity or a NaN. The
exponent belongs to the datum: `1.50` and `1.5` are equal in value and different as data. A
context fixes how many significant digits a computed result keeps; the signals are the ways an
operation can fail to have a result.
-/

namespace NumericContract

open Magnitude

/-- A finite decimal, `± coefficient · 10 ^ exponent`; zero keeps its sign and exponent. -/
structure Decimal.Finite where
  negative : Bool
  coefficient : Nat
  exponent : Int
deriving Repr, DecidableEq, Inhabited

/-- A decimal datum. A signaling NaN makes every operation that meets it fail; a quiet one is
passed on, payload included. -/
inductive Decimal where
  | finite (x : Decimal.Finite)
  | infinity (negative : Bool)
  | nan (signaling negative : Bool) (payload : Nat)
deriving Repr, DecidableEq, Inhabited

namespace Decimal

inductive Signal where
  | invalidOperation
  | divisionImpossible
  | divisionUndefined
  | divisionByZero
  | overflow
deriving Repr, DecidableEq

/-- A working precision: the number of significant digits that a result keeps. -/
structure Context where
  precision : Nat
  precision_wide : 28 ≤ precision := by decide
deriving Repr, DecidableEq

/-- Largest exponent that the first digit of a result may have. -/
def maxExponent : Int := 999999

/-- Least exponent that the first digit of a result with full precision may have. -/
def minExponent : Int := -999999

namespace Context

/-- The precision that a caller works in unless told otherwise. -/
def standard : Context := ⟨28, by decide⟩

/-- Digits enough for products of two amounts of eighteen digits and their sixteen decimals. -/
def wideDigits : Nat := 78

/-- The context of curve and rounding arithmetic: at least 78 digits, or the caller's own
precision where that is wider. -/
def widened (ctx : Context) : Context :=
  ⟨max wideDigits ctx.precision, Nat.le_trans ctx.precision_wide (Nat.le_max_right ..)⟩

/-- Least exponent that any result may have; below it digits are lost. -/
def leastExponent (ctx : Context) : Int := minExponent - (ctx.precision - 1)

end Context

namespace Finite

def ofInt (n : Int) : Finite := ⟨n < 0, n.natAbs, 0⟩

def signed (x : Finite) : Int := if x.negative then -x.coefficient else x.coefficient

def value (x : Finite) : Rat := x.signed * (10 : Rat) ^ x.exponent

def isZero (x : Finite) : Bool := x.coefficient = 0

/-- Whether the number is below zero; a negative zero is not. -/
def isNegative (x : Finite) : Bool := x.negative && x.coefficient ≠ 0

/-- Exponent of the first digit. A zero counts as one digit. -/
def adjusted (x : Finite) : Int := x.exponent + max 1 (digitCount x.coefficient) - 1

/-- Orders the absolute values. First digits at different places decide; at the same place the
coefficients are brought to a common exponent. -/
def compareMagnitude (x y : Finite) : Ordering :=
  if x.isZero || y.isZero then Ord.compare x.coefficient y.coefficient
  else if x.adjusted ≠ y.adjusted then Ord.compare x.adjusted y.adjusted
  else
    let e := min x.exponent y.exponent
    Ord.compare (shiftUp x.coefficient (x.exponent - e).toNat)
      (shiftUp y.coefficient (y.exponent - e).toNat)

def compare (x y : Finite) : Ordering :=
  match x.isNegative, y.isNegative with
  | false, false => compareMagnitude x y
  | true, true => compareMagnitude y x
  | true, false => .lt
  | false, true => .gt

def truncate (x : Finite) : Int :=
  let whole : Nat :=
    if 0 ≤ x.exponent then shiftUp x.coefficient x.exponent.toNat
    else shiftDown x.coefficient (-x.exponent).toNat
  if x.negative then -whole else whole

/-- The nearest integer, a half going away from zero. -/
def roundHalfUp (x : Finite) : Int :=
  let whole : Nat :=
    if 0 ≤ x.exponent then shiftUp x.coefficient x.exponent.toNat
    else shiftHalfUp x.coefficient (-x.exponent).toNat
  if x.negative then -whole else whole

def floor (x : Finite) : Int :=
  if x.isNegative && x.exponent < 0 && dropsDigits x.coefficient (-x.exponent).toNat then
    x.truncate - 1
  else x.truncate

end Finite

def ofInt (n : Int) : Decimal := .finite (.ofInt n)

def isNaN : Decimal → Bool
  | .nan .. => true
  | _ => false

def signBit : Decimal → Bool
  | .finite x => x.negative
  | .infinity negative => negative
  | .nan _ negative _ => negative

def isFinite : Decimal → Bool
  | .finite _ => true
  | _ => false

def compare : Decimal → Decimal → Except Signal Ordering
  | .nan .., _ | _, .nan .. => .error .invalidOperation
  | .finite x, .finite y => .ok (x.compare y)
  | .infinity s, .infinity t => .ok (Ord.compare t s)
  | .infinity s, .finite _ => .ok (if s then .lt else .gt)
  | .finite _, .infinity t => .ok (if t then .gt else .lt)

/-- Whether `x < y`; fails on a NaN. -/
def lt (x y : Decimal) : Except Signal Bool := (x.compare y).map (· == .lt)

def ge (x y : Decimal) : Except Signal Bool := (x.compare y).map (· != .lt)

/-- Whether the datum equals zero. A quiet NaN does not; a signaling one fails. -/
def isZero : Decimal → Except Signal Bool
  | .finite x => .ok x.isZero
  | .infinity _ => .ok false
  | .nan signaling .. => if signaling then .error .invalidOperation else .ok false

end Decimal

end NumericContract
