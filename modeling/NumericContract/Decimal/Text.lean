import NumericContract.Decimal.Basic
import NumericContract.Text.Blank
import NumericContract.Text.Digit

/-!
# Decimals as text

Printing keeps the datum apart from others of the same value: positional notation when the
exponent is not positive and at most six zeros stand before the first digit, scientific notation
with a signed exponent otherwise. Reading takes digits of any script, ignores underscores and
letter case, and accepts infinities and NaNs by name; a number must lie within the limits of the
format.
-/

namespace NumericContract.Decimal

open Text

/-- Largest exponent of the first digit of a number that text can stand for. -/
def maxTextExponent : Int := 999999999999999999

def minTextExponent : Int := -1999999999999999997

namespace Finite

def zeros (count : Nat) : List Char := List.replicate count '0'

/-- The digits of the coefficient with the point before the last `places` of them; zeros fill up
to one digit before the point. -/
def positional (digits : List Char) (places : Nat) : List Char :=
  if places = 0 then digits
  else
    let padded := zeros (places + 1 - digits.length) ++ digits
    padded.take (padded.length - places) ++ '.' :: padded.drop (padded.length - places)

/-- The exponent mark of scientific notation, always with a sign. -/
def exponentMark (e : Int) : List Char :=
  'E' :: (if e < 0 then '-' else '+') :: (toString e.natAbs).toList

def magnitudeText (x : Finite) : List Char :=
  let digits := (toString x.coefficient).toList
  if x.exponent ≤ 0 && -6 ≤ x.adjusted then positional digits (-x.exponent).toNat
  else positional digits (digits.length - 1) ++ exponentMark x.adjusted

end Finite

def toText (x : Decimal) : String :=
  let sign := if x.signBit then "-" else ""
  match x with
  | .finite u => sign ++ String.ofList u.magnitudeText
  | .infinity _ => sign ++ "Infinity"
  | .nan signaling _ payload =>
      sign ++ (if signaling then "sNaN" else "NaN") ++
        (if payload = 0 then "" else toString payload)

def withinTextLimits (x : Finite) : Bool :=
  minTextExponent ≤ x.exponent && x.adjusted ≤ maxTextExponent

/-- The decimal digits at the front, and what follows. -/
def readDigits (cs : List Char) : List Nat × List Char :=
  (cs.takeWhile Char.isDigit |>.filterMap asciiDigit?, cs.dropWhile Char.isDigit)

def readPlaces : List Char → List Nat × List Char
  | '.' :: rest => readDigits rest
  | rest => ([], rest)

def readExponent : List Char → Option Int
  | [] => some 0
  | c :: rest =>
      if c = 'e' then
        let (negative, rest) := readSign rest
        match readDigits rest with
        | (digits, []) =>
            if digits.isEmpty then none else some (applySign negative (ofDigits digits))
        | _ => none
      else none

/-- Reads a number without sign: digits with at most one point, and an exponent. -/
def readNumber (negative : Bool) (cs : List Char) : Option Decimal := do
  let (whole, rest) := readDigits cs
  let (fraction, rest) := readPlaces rest
  let e ← readExponent rest
  let x : Finite := ⟨negative, ofDigits (whole ++ fraction), e - fraction.length⟩
  if (whole ++ fraction).isEmpty || !withinTextLimits x then none else some (.finite x)

def readNaN (signaling negative : Bool) (cs : List Char) : Option Decimal :=
  match readDigits cs with
  | (digits, []) => some (.nan signaling negative (ofDigits digits))
  | _ => none

def readUnsigned (negative : Bool) : List Char → Option Decimal
  | ['i', 'n', 'f'] => some (.infinity negative)
  | ['i', 'n', 'f', 'i', 'n', 'i', 't', 'y'] => some (.infinity negative)
  | 'n' :: 'a' :: 'n' :: rest => readNaN false negative rest
  | 's' :: 'n' :: 'a' :: 'n' :: rest => readNaN true negative rest
  | cs => readNumber negative cs

/-- A character as the grammar of numbers knows it: digits of any script become ASCII digits and
letters lower case. -/
def grammarChar (c : Char) : Char :=
  match digitValue? c with
  | some d => Nat.digitChar d
  | none => c.toLower

/-- Reads a whole text as a decimal datum, without any rounding. -/
def ofText? (s : String) : Option Decimal :=
  let cs := (trimBoth isSpacing s.toList).filter (· ≠ '_') |>.map grammarChar
  readUnsigned (readSign cs).1 (readSign cs).2

end NumericContract.Decimal
