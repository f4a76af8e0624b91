import NumericContract.Text.Integer

/-!
# Plain integers in text

A plain integer has ASCII digits, no needless zero in front and no sign but a minus. A text that
is none is tidied and read once more: white space around it, a plus sign, zeros in front, a
fraction of zeros and underscores between digits go.
-/

namespace NumericContract.Text

/-- Reads a whole text as a plain integer. A run of digits that is too long, the minus sign
counted, is refused whatever follows it. -/
def readPlain (cs : List Char) : Except IntegerFault Int :=
  let negative := cs.head? == some '-'
  let body := if negative then cs.tail else cs
  let run := body.takeWhile Char.isDigit
  let width := cs.length - body.length + run.length
  let digits := run.filterMap asciiDigit?
  match digits with
  | [] => .error .malformed
  | 0 :: _ => if body.length = 1 then .ok 0 else .error .malformed
  | _ =>
      if maxIntegerDigits < width then .error (.tooManyDigits width)
      else if run.length < body.length then .error .malformed
      else .ok (applySign negative (ofDigits digits))

/-- What is left of a text in front of which zeros, and underscores among them, have been
dropped; `last` is the last of these. It is kept before a point and at the end of the text. What
is left begins with another digit or with a minus sign. -/
def afterZeros (last : Char) : List Char → Option (List Char)
  | [] => some [last]
  | c :: rest =>
      if c = '0' ∨ c = '_' then afterZeros c rest
      else if c = '.' then some (last :: c :: rest)
      else if c = '-' ∨ c.isDigit then some (c :: rest)
      else none

def dropZeros : List Char → Option (List Char)
  | [] => none
  | c :: rest =>
      if c = '0' then afterZeros c rest else if c.isDigit then some (c :: rest) else none

def dropZeroFraction (cs : List Char) : List Char :=
  match cs.reverse.span (· == '0') with
  | (_ :: _, '.' :: whole) => whole.reverse
  | _ => cs

/-- Drops underscores that all stand between two other characters. -/
def dropUnderscores (cs : List Char) : List Char :=
  if underscoresSeparate cs then cs.filter (· != '_') else cs

def tidyPlain (cs : List Char) : Option (List Char) :=
  let (negative, body) := readSign (trimBoth isBlank cs)
  (dropZeros body).map fun digits =>
    let digits := dropUnderscores (dropZeroFraction digits)
    if negative then '-' :: digits else digits

/-- Reads a text as a plain integer, tidied if need be. A text that had to be tidied is too long
for no reason of its own. -/
def readPlainInteger (s : String) : Except IntegerFault Int :=
  match readPlain s.toList with
  | .error .malformed =>
      match (tidyPlain s.toList).map readPlain with
      | some (.ok n) => .ok n
      | _ => .error .malformed
  | result => result

example : (readPlain ['-', '4', '0']).toOption = some (-40) := by decide
example : (readPlain ['0', '4']).toOption = none := by decide
example : tidyPlain [' ', '+', '0', '4', '_', '0', '.', '0'] = some ['4', '0'] := by decide
example : tidyPlain ['-', '0', '_', '0'] = some ['-', '0'] := by decide

end NumericContract.Text
