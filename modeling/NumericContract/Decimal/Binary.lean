import NumericContract.Decimal.Basic

/-!
# Nearest binary64 numbers

A decimal in a data format may stand for the binary64 number nearest to it, a half going to the
even significand. Here that number is an exact `significand · 2 ^ exponent`; what matters of it is
whether it is an integer.
-/

namespace NumericContract

open Magnitude

/-- A finite binary64 number without its sign: `significand · 2 ^ exponent`. -/
structure Binary64 where
  significand : Nat
  exponent : Int
deriving Repr, DecidableEq

namespace Binary64

def twoPower (k : Nat) : Nat := Nat.pow 2 k

def leastExponent : Int := -1074

/-- Rounds the ratio of two positive integers, `none` above the largest finite number. -/
def ofRatio? (n d : Nat) : Option Binary64 :=
  let atExponent := fun (e : Int) =>
    divHalfEven (n * twoPower (-e).toNat) (d * twoPower e.toNat)
  let low : Int := (n.log2 : Int) - d.log2 - 53
  let e := if n * twoPower (-low).toNat < d * twoPower low.toNat * twoPower 53 then low else low + 1
  let e := max leastExponent e
  let m := atExponent e
  if m * twoPower e.toNat < twoPower 1024 then some ⟨m, e⟩ else none

/-- The binary64 number nearest to an absolute value. Decimals far outside the range are answered
without forming their powers of ten. -/
def ofDecimal? (x : Decimal.Finite) : Option Binary64 :=
  if x.isZero || x.adjusted < -400 then some ⟨0, 0⟩
  else if 400 < x.adjusted then none
  else ofRatio? (x.coefficient * tenPower x.exponent.toNat) (tenPower (-x.exponent).toNat)

def toNat? (x : Binary64) : Option Nat :=
  if x.significand % twoPower (-x.exponent).toNat = 0 then
    some (x.significand * twoPower x.exponent.toNat / twoPower (-x.exponent).toNat)
  else none

end Binary64

end NumericContract
