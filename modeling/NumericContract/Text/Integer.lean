import NumericContract.Text.Blank
import NumericContract.Text.Digit

/-!
# Integers in text

An integer is written as digits of any script with an optional sign, white space around it and
single underscores between digits. Texts of more than 4300 digits are refused unread.
-/

namespace NumericContract.Text

inductive IntegerFault where
  | malformed
  | tooManyDigits (count : Nat)
deriving Repr, DecidableEq

def maxIntegerDigits : Nat := 4300

/-- Whether every underscore stands between two other characters that are none. -/
def underscoresSeparate (cs : List Char) : Bool :=
  cs.head? != some '_' && cs.getLast? != some '_' &&
    (cs.zip cs.tail).all fun (c, d) => !(c == '_' && d == '_')

def readInteger (s : String) : Except IntegerFault Int :=
  let (negative, body) := readSign (trimBoth isBlank s.toList)
  let inNumber := fun c => c == '_' || (digitValue? c).isSome
  let run := body.takeWhile inNumber
  let digits := run.filterMap digitValue?
  if digits.isEmpty || !underscoresSeparate run then .error .malformed
  else if maxIntegerDigits < digits.length then .error (.tooManyDigits digits.length)
  else if !(body.dropWhile inNumber).isEmpty then .error .malformed
  else .ok (applySign negative (ofDigits digits))

end NumericContract.Text
