import NumericContract.Text.Printable

/-!
# Quoted text

Text between quotes with escapes, as error messages show it. Single quotes are used unless the
text holds one and no double quote; a quote of the kind used and the backslash are escaped, tab,
line feed and carriage return have letters, and what does not print is written as its code point
in two, four or eight lower-case hexadecimal digits.
-/

namespace NumericContract.Text

/-- The last `width` hexadecimal digits of `n`. -/
def hexDigits (n : Nat) : (width : Nat) → List Char
  | 0 => []
  | width + 1 => hexDigits (n / 16) width ++ [Nat.digitChar (n % 16)]

def escapeCode (c : Char) : List Char :=
  if c.toNat ≤ 0xFF then '\\' :: 'x' :: hexDigits c.toNat 2
  else if c.toNat ≤ 0xFFFF then '\\' :: 'u' :: hexDigits c.toNat 4
  else '\\' :: 'U' :: hexDigits c.toNat 8

/-- One character of a text that stands between the quotes `quote`. -/
def escapeChar (quote c : Char) : List Char :=
  if c = quote ∨ c = '\\' then ['\\', c]
  else if c = '\t' then ['\\', 't']
  else if c = '\n' then ['\\', 'n']
  else if c = '\r' then ['\\', 'r']
  else if isPrintable c then [c]
  else escapeCode c

def quoteFor (cs : List Char) : Char :=
  if cs.contains '\'' && !cs.contains '"' then '"' else '\''

def quoted (s : String) : String :=
  let quote := quoteFor s.toList
  String.ofList (quote :: s.toList.flatMap (escapeChar quote) ++ [quote])

def abridged (width : Nat) (s : String) : String := String.ofList (s.toList.take width)

end NumericContract.Text
