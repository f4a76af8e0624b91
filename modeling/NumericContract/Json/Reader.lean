import NumericContract.Json.Value
import NumericContract.Text.Integer

/-!
# Reading JSON

One pass over the characters yields tokens, one pass over the tokens builds the value with the
containers that are still open on a stack. Beside the standard grammar the numbers `NaN`,
`Infinity` and `-Infinity` are read. A control character inside a string, a byte order mark and
an integer of more than 4300 digits are faults. A surrogate escape without its partner reads as
the replacement character. Containers may nest to any depth: that a reader gives up below some
depth of its own is left out.
-/

namespace NumericContract.Json

open Text

inductive ReadFault where
  | malformed
  | tooManyDigits (count : Nat)
deriving Repr, DecidableEq

inductive Token where
  | leftBracket
  | rightBracket
  | leftBrace
  | rightBrace
  | comma
  | colon
  | scalar (value : Json)
  | text (s : String)
  | fault (why : ReadFault)
deriving Repr

/-! ## Numbers and names -/

/-- The digits after the mark of an exponent, with their sign, and what follows. -/
def exponentPart? : List Char → Option (Int × List Char)
  | c :: rest =>
      if c = 'e' ∨ c = 'E' then
        let (negative, body) := readSign rest
        let digits := (body.takeWhile Char.isDigit).filterMap asciiDigit?
        if digits.isEmpty then none
        else some (applySign negative (ofDigits digits), body.dropWhile Char.isDigit)
      else none
  | [] => none

def fractionPart? : List Char → Option (List Nat × List Char)
  | '.' :: body =>
      let digits := (body.takeWhile Char.isDigit).filterMap asciiDigit?
      if digits.isEmpty then none else some (digits, body.dropWhile Char.isDigit)
  | _ => none

def Token.ofNumber (cs : List Char) : Token :=
  let (negative, body) := match cs with
    | '-' :: rest => (true, rest)
    | rest => (false, rest)
  let whole := (body.takeWhile Char.isDigit).filterMap asciiDigit?
  let rest := body.dropWhile Char.isDigit
  let leadingZero := whole.head? == some 0 && 1 < whole.length
  if whole.isEmpty || leadingZero then .fault .malformed
  else
    let fraction := fractionPart? rest
    let rest := (fraction.map (·.2)).getD rest
    let exponent := exponentPart? rest
    let rest := (exponent.map (·.2)).getD rest
    if fraction.isNone && exponent.isNone then
      if maxIntegerDigits < whole.length then .fault (.tooManyDigits whole.length)
      else if rest.isEmpty then .scalar (.integer (applySign negative (ofDigits whole)))
      else .fault .malformed
    else if rest.isEmpty then
      let places := (fraction.map (·.1)).getD []
      let e := (exponent.map (·.1)).getD 0
      .scalar (.real (.finite ⟨negative, ofDigits (whole ++ places), e - places.length⟩))
    else .fault .malformed

def Token.ofWord (cs : List Char) : Token :=
  match String.ofList cs with
  | "null" => .scalar .null
  | "true" => .scalar (.flag true)
  | "false" => .scalar (.flag false)
  | "NaN" => .scalar (.real (.nan false false 0))
  | "Infinity" => .scalar (.real (.infinity false))
  | "-Infinity" => .scalar (.real (.infinity true))
  | _ => .ofNumber cs

/-! ## Strings -/

def replacement : Char := Char.ofNat 0xFFFD

/-- Characters read so far, last one first, and a high surrogate that awaits its partner. -/
structure Scanned where
  reversed : List Char
  pending : Option Nat

namespace Scanned

def flush (s : Scanned) : List Char :=
  if s.pending.isSome then replacement :: s.reversed else s.reversed

def push (s : Scanned) (c : Char) : Scanned := ⟨c :: s.flush, none⟩

/-- Adds a code unit, joining two surrogates that belong together. -/
def pushUnit (s : Scanned) (unit : Nat) : Scanned :=
  match s.pending with
  | some high =>
      if 0xDC00 ≤ unit ∧ unit ≤ 0xDFFF then
        ⟨Char.ofNat (0x10000 + (high - 0xD800) * 0x400 + (unit - 0xDC00)) :: s.reversed, none⟩
      else if 0xD800 ≤ unit ∧ unit ≤ 0xDBFF then ⟨s.flush, some unit⟩
      else s.push (Char.ofNat unit)
  | none =>
      if 0xD800 ≤ unit ∧ unit ≤ 0xDBFF then ⟨s.reversed, some unit⟩
      else if 0xDC00 ≤ unit ∧ unit ≤ 0xDFFF then s.push replacement
      else s.push (Char.ofNat unit)

def toString (s : Scanned) : String := String.ofList s.flush.reverse

end Scanned

def escaped? : Char → Option Char
  | '"' => some '"'
  | '\\' => some '\\'
  | '/' => some '/'
  | 'b' => some (Char.ofNat 8)
  | 'f' => some (Char.ofNat 12)
  | 'n' => some '\n'
  | 'r' => some '\r'
  | 't' => some '\t'
  | _ => none

def hexValue? (c : Char) : Option Nat :=
  if '0' ≤ c ∧ c ≤ '9' then some (c.toNat - '0'.toNat)
  else if 'a' ≤ c ∧ c ≤ 'f' then some (c.toNat - 'a'.toNat + 10)
  else if 'A' ≤ c ∧ c ≤ 'F' then some (c.toNat - 'A'.toNat + 10)
  else none

/-! ## Tokens -/

inductive Scan where
  | gap
  | word (reversed : List Char)
  | quoted (s : Scanned)
  | escape (s : Scanned)
  | code (s : Scanned) (digits unit : Nat)

def isWordChar (c : Char) : Bool := c.isAlphanum || c == '-' || c == '+' || c == '.'

/-- What a character outside of words and strings begins: tokens that are complete at once, and
how the scan goes on. -/
def Scan.start? (c : Char) : Option (List Token × Scan) :=
  match c with
  | '[' => some ([.leftBracket], .gap)
  | ']' => some ([.rightBracket], .gap)
  | '\x7b' => some ([.leftBrace], .gap)
  | '\x7d' => some ([.rightBrace], .gap)
  | ',' => some ([.comma], .gap)
  | ':' => some ([.colon], .gap)
  | '"' => some ([], .quoted ⟨[], none⟩)
  | c =>
      if c == ' ' || c == '\t' || c == '\n' || c == '\r' then some ([], .gap)
      else if isWordChar c then some ([], .word [c])
      else none

/-- What a character inside a string leads to: a finished token or how the scan goes on. -/
def Scan.inString (s : Scanned) (c : Char) : List Token × Scan :=
  if c = '"' then ([.text s.toString], .gap)
  else if c = '\\' then ([], .escape s)
  else if c.toNat < 0x20 then ([.fault .malformed], .gap)
  else ([], .quoted (s.push c))

def Scan.next (scan : Scan) (c : Char) : List Token × Scan :=
  match scan with
  | .gap => (start? c).getD ([.fault .malformed], .gap)
  | .word reversed =>
      if isWordChar c then ([], .word (c :: reversed))
      else
        let (tokens, scan) := (start? c).getD ([.fault .malformed], .gap)
        (.ofWord reversed.reverse :: tokens, scan)
  | .quoted s => inString s c
  | .escape s =>
      if c = 'u' then ([], .code s 4 0)
      else match escaped? c with
        | some d => ([], .quoted (s.push d))
        | none => ([.fault .malformed], .gap)
  | .code s digits unit =>
      match hexValue? c with
      | some h =>
          if digits ≤ 1 then ([], .quoted (s.pushUnit (16 * unit + h)))
          else ([], .code s (digits - 1) (16 * unit + h))
      | none => ([.fault .malformed], .gap)

/-- Tokens still owed at the end of the text. -/
def Scan.finish : Scan → List Token
  | .gap => []
  | .word reversed => [.ofWord reversed.reverse]
  | _ => [.fault .malformed]

/-- The tokens of a text. After a fault what follows does not matter. -/
def tokens (s : String) : List Token :=
  let (done, scan) := s.toList.foldl
    (fun (done, scan) c =>
      let (new, scan) := Scan.next scan c
      (new.reverse ++ done, scan))
    (([] : List Token), Scan.gap)
  done.reverse ++ scan.finish

/-! ## Values -/

/-- A container that is still open, its finished parts last one first. -/
inductive Frame where
  | list (done : List Json)
  | record (done : List (String × Json)) (name : String)

inductive Expect where
  | value
  | firstItem
  | field (done : List (String × Json)) (mayClose : Bool)
  | colon (done : List (String × Json)) (name : String)
  | after (value : Json)

def beginValue (frames : List Frame) : Token → Except ReadFault (Expect × List Frame)
  | .scalar v => .ok (.after v, frames)
  | .text s => .ok (.after (.text s), frames)
  | .leftBracket => .ok (.firstItem, frames)
  | .leftBrace => .ok (.field [] true, frames)
  | .fault why => .error why
  | _ => .error .malformed

def advance : Expect × List Frame → Token → Except ReadFault (Expect × List Frame)
  | (.value, frames), t => beginValue frames t
  | (.firstItem, frames), .rightBracket => .ok (.after (.list []), frames)
  | (.firstItem, frames), t => beginValue (.list [] :: frames) t
  | (.field _ true, frames), .rightBrace => .ok (.after (.record []), frames)
  | (.field done _, frames), .text name => .ok (.colon done name, frames)
  | (.colon done name, frames), .colon => .ok (.value, .record done name :: frames)
  | (.after v, .list done :: frames), .comma => .ok (.value, .list (v :: done) :: frames)
  | (.after v, .list done :: frames), .rightBracket =>
      .ok (.after (.list (v :: done).reverse), frames)
  | (.after v, .record done name :: frames), .comma =>
      .ok (.field ((name, v) :: done) false, frames)
  | (.after v, .record done name :: frames), .rightBrace =>
      .ok (.after (.record ((name, v) :: done).reverse), frames)
  | _, _ => .error .malformed

def ofText (s : String) : Except ReadFault Json := do
  match ← (tokens s).foldlM advance (.value, []) with
  | (.after v, []) => .ok v
  | _ => .error .malformed

end NumericContract.Json
