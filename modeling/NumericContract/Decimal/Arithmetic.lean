import NumericContract.Decimal.Basic

/-!
# Decimal arithmetic in a context

Every operation takes the exact result of its operands and fits it to the context: to at most
`precision` significant digits, to nearest, a half going to the even neighbour. An exact result
keeps the exponent that the operation prefers. A result whose first digit lies above the largest
exponent is an overflow; one below the least exponent loses digits and may become zero.

Addition never forms powers of ten wider than the precision needs, and a quotient or root that
does not end is cut after its last useful digit, with one more digit that says so.
-/

namespace NumericContract.Decimal

open Magnitude

namespace Context

/-- Fails on a number whose first digit lies above the largest exponent. -/
def checkOverflow (x : Finite) : Except Signal Finite :=
  if maxExponent < x.adjusted then .error .overflow else .ok x

def fit (ctx : Context) (x : Finite) : Except Signal Finite :=
  if x.isZero then
    .ok { x with exponent := max ctx.leastExponent (min x.exponent maxExponent) }
  else
    let drop := (max (digitCount x.coefficient - ctx.precision : Int)
      (ctx.leastExponent - x.exponent)).toNat
    if drop = 0 then checkOverflow x
    else
      let kept := shiftHalfEven x.coefficient drop
      if digitCount kept ≤ ctx.precision then
        checkOverflow { x with coefficient := kept, exponent := x.exponent + drop }
      else checkOverflow { x with coefficient := kept / 10, exponent := x.exponent + drop + 1 }

/-- A stand-in for `low` in a sum with `high`, whose exponent is not smaller: a number that ends
far below the last digit that the context can keep only decides on which side of `high` the sum
lies, so the least amount that does the same replaces it. -/
def absorb (ctx : Context) (high low : Finite) : Finite :=
  let reach := high.exponent + min (-1) (digitCount high.coefficient - ctx.precision - 2 : Int)
  if high.isZero || reach ≤ low.adjusted then low
  else { low with coefficient := if low.isZero then 0 else 1, exponent := reach }

end Context

namespace Finite

/-- The exact sum, at the smaller exponent. A sum that is zero is negative only if both
operands are. -/
def exactSum (x y : Finite) : Finite :=
  let e := min x.exponent y.exponent
  let cx : Int := shiftUp x.coefficient (x.exponent - e).toNat
  let cy : Int := shiftUp y.coefficient (y.exponent - e).toNat
  let total := (if x.negative then -cx else cx) + (if y.negative then -cy else cy)
  { negative := if total = 0 then x.negative && y.negative else total < 0
    coefficient := total.natAbs
    exponent := e }

def add (ctx : Context) (x y : Finite) : Except Signal Finite :=
  if y.exponent ≤ x.exponent then ctx.fit (exactSum x (ctx.absorb x y))
  else ctx.fit (exactSum (ctx.absorb y x) y)

def sub (ctx : Context) (x y : Finite) : Except Signal Finite :=
  x.add ctx { y with negative := !y.negative }

def mul (ctx : Context) (x y : Finite) : Except Signal Finite :=
  ctx.fit ⟨x.negative ^^ y.negative, x.coefficient * y.coefficient, x.exponent + y.exponent⟩

/-- The opposite number; the opposite of a zero is a positive zero. -/
def neg (ctx : Context) (x : Finite) : Except Signal Finite :=
  ctx.fit { x with negative := !x.isZero && !x.negative }

def abs (ctx : Context) (x : Finite) : Except Signal Finite :=
  ctx.fit { x with negative := false }

/-- The quotient of two coefficients at the exponent `e`. If the division does not end it is
marked by one more digit `1`; if it does, trailing zeros go, at most `spare` of them. -/
def ofQuotient (negative : Bool) (n d : Nat) (e : Int) (spare : Nat) : Finite :=
  if n % d ≠ 0 then ⟨negative, 10 * (n / d) + 1, e - 1⟩
  else
    let (c, e) := stripZeros (n / d) e spare (spare.log2 + 1)
    ⟨negative, c, e⟩

/-- The quotient. An exact one has the difference of the exponents, or as near to it as its
digits allow. -/
def div (ctx : Context) (x y : Finite) : Except Signal Finite :=
  let negative := x.negative ^^ y.negative
  if y.isZero then .error (if x.isZero then .divisionUndefined else .divisionByZero)
  else if x.isZero then ctx.fit ⟨negative, 0, x.exponent - y.exponent⟩
  else
    let extra : Int :=
      digitCount y.coefficient - digitCount x.coefficient + ctx.precision + 1
    ctx.fit <| ofQuotient negative (x.coefficient * tenPower extra.toNat)
      (y.coefficient * tenPower (-extra).toNat) (x.exponent - y.exponent - extra) extra.toNat

/-- The remainder `x - y · n` with the sign of `x`, where `n` is the quotient cut toward zero.
The quotient must fit into the context's digits. -/
def rem (ctx : Context) (x y : Finite) : Except Signal Finite :=
  let e := min x.exponent y.exponent
  if y.isZero then .error (if x.isZero then .divisionUndefined else .invalidOperation)
  else if x.isZero then ctx.fit { x with exponent := e }
  else if x.adjusted - y.adjusted ≤ -2 then
    ctx.fit ⟨x.negative, shiftUp x.coefficient (x.exponent - e).toNat, e⟩
  else if ctx.precision < x.adjusted - y.adjusted then .error .divisionImpossible
  else
    let n := shiftUp x.coefficient (x.exponent - e).toNat
    let d := shiftUp y.coefficient (y.exponent - e).toNat
    if digitCount (n / d) ≤ ctx.precision then ctx.fit ⟨x.negative, n % d, e⟩
    else .error .divisionImpossible

/-- The square root. An exact one has half the exponent, rounded down. -/
def sqrt (ctx : Context) (x : Finite) : Except Signal Finite :=
  let e := x.exponent / 2
  if x.isZero then ctx.fit { x with exponent := e }
  else if x.negative then .error .invalidOperation
  else
    let c := if x.exponent % 2 = 1 then 10 * x.coefficient else x.coefficient
    let extra : Int := ctx.precision + 1 - (digitCount c + 1) / 2
    let up := tenPower extra.toNat
    let down := tenPower (-extra).toNat
    let root := (c * (up * up) / (down * down)).sqrt
    if root * root * (down * down) = c * (up * up) then ctx.fit ⟨false, root * down / up, e⟩
    else ctx.fit ⟨false, 10 * root + 1, e - extra - 1⟩

def scale (ctx : Context) (x : Finite) (places : Int) : Except Signal Finite :=
  ctx.fit { x with exponent := x.exponent + places }

/-- The number at the exponent `e`, to nearest, a half going away from zero. It must fit into the
context's digits. -/
def quantize (ctx : Context) (x : Finite) (e : Int) : Except Signal Finite :=
  if x.isZero then .ok { x with exponent := e }
  else if ctx.precision < x.adjusted - e + 1 then .error .invalidOperation
  else
    let c :=
      if x.exponent < e then shiftHalfUp x.coefficient (e - x.exponent).toNat
      else shiftUp x.coefficient (x.exponent - e).toNat
    if digitCount c ≤ ctx.precision then .ok ⟨x.negative, c, e⟩ else .error .invalidOperation

end Finite

/-- The result of an operation on a NaN: a signaling one fails, and of two the first one that
signals or else the first decides. As much of its payload survives as there are digits. -/
def propagate (ctx : Context) (operands : List Decimal) : Option (Except Signal Decimal) :=
  let nans := operands.filterMap fun
    | .nan signaling negative payload => some (signaling, negative, payload)
    | _ => none
  match nans with
  | [] => none
  | (_, negative, payload) :: _ =>
      if nans.any (·.1) then some (.error .invalidOperation)
      else some (.ok (.nan false negative (payload % tenPower ctx.precision)))

/-- Lifts an operation on numbers to data: NaNs are passed on first, `special` answers where an
infinity takes part, and the operation itself where none does. -/
def lift (ctx : Context) (x y : Decimal) (special : Except Signal Decimal)
    (numbers : Finite → Finite → Except Signal Finite) : Except Signal Decimal :=
  match propagate ctx [x, y] with
  | some result => result
  | none =>
      match x, y with
      | .finite u, .finite v => (numbers u v).map .finite
      | _, _ => special

/-- The sum. Two infinities of opposite signs have none. -/
def add (ctx : Context) (x y : Decimal) : Except Signal Decimal :=
  let special := match x, y with
    | .infinity s, .infinity t => if s = t then .ok x else .error .invalidOperation
    | .infinity _, _ => .ok x
    | _, _ => .ok y
  lift ctx x y special (Finite.add ctx)

/-- The difference. Two infinities of the same sign have none. -/
def sub (ctx : Context) (x y : Decimal) : Except Signal Decimal :=
  let special := match x, y with
    | .infinity s, .infinity t => if s = t then .error .invalidOperation else .ok x
    | .infinity _, _ => .ok x
    | _, _ => .ok (.infinity !y.signBit)
  lift ctx x y special (Finite.sub ctx)

/-- The product. An infinity has none with zero. -/
def mul (ctx : Context) (x y : Decimal) : Except Signal Decimal :=
  let special :=
    match x, y with
    | .finite u, _ =>
        if u.isZero then .error .invalidOperation
        else .ok (.infinity (x.signBit ^^ y.signBit))
    | _, .finite v =>
        if v.isZero then .error .invalidOperation
        else .ok (.infinity (x.signBit ^^ y.signBit))
    | _, _ => .ok (.infinity (x.signBit ^^ y.signBit))
  lift ctx x y special (Finite.mul ctx)

/-- The quotient. Two infinities have none; over an infinity a number is the least zero. -/
def div (ctx : Context) (x y : Decimal) : Except Signal Decimal :=
  let negative := x.signBit ^^ y.signBit
  let special := match x, y with
    | .infinity _, .infinity _ => .error .invalidOperation
    | .infinity _, _ => .ok (.infinity negative)
    | _, _ => .ok (.finite ⟨negative, 0, ctx.leastExponent⟩)
  lift ctx x y special (Finite.div ctx)

end NumericContract.Decimal
