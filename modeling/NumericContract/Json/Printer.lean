import NumericContract.Json.Value
import NumericContract.Decimal.Text
import NumericContract.Text.Quoted

/-!
# Printing JSON

Text is ASCII only: every other character is written as its UTF-16 code units. The compact form
has no white space; the indented form puts every item and field on a line of its own, two blanks
deeper than its container, and leaves empty containers closed.
-/

namespace NumericContract.Json

open Text

def escapeUnit (unit : Nat) : List Char := '\\' :: 'u' :: hexDigits unit 4

def escapeText (c : Char) : List Char :=
  if c = '"' then ['\\', '"']
  else if c = '\\' then ['\\', '\\']
  else if c = '\n' then ['\\', 'n']
  else if c = '\r' then ['\\', 'r']
  else if c = '\t' then ['\\', 't']
  else if c = Char.ofNat 8 then ['\\', 'b']
  else if c = Char.ofNat 12 then ['\\', 'f']
  else if 0x20 ≤ c.toNat ∧ c.toNat < 0x7F then [c]
  else if c.toNat < 0x10000 then escapeUnit c.toNat
  else
    escapeUnit (0xD800 + (c.toNat - 0x10000) / 0x400) ++
      escapeUnit (0xDC00 + (c.toNat - 0x10000) % 0x400)

def quotedText (s : String) : String :=
  String.ofList ('"' :: s.toList.flatMap escapeText ++ ['"'])

def scalarText : Json → String
  | .null => "null"
  | .flag b => if b then "true" else "false"
  | .integer n => toString n
  | .real x => x.toText
  | .text s => quotedText s
  | _ => ""

mutual

def compact : Json → String
  | .list items => "[" ++ ",".intercalate (compactItems items) ++ "]"
  | .record fields => "\x7b" ++ ",".intercalate (compactFields fields) ++ "\x7d"
  | v => scalarText v

def compactItems : List Json → List String
  | [] => []
  | v :: rest => v.compact :: compactItems rest

def compactFields : List (String × Json) → List String
  | [] => []
  | (name, v) :: rest => (quotedText name ++ ":" ++ v.compact) :: compactFields rest

end

def lineStart (depth : Nat) : String := String.ofList ('\n' :: List.replicate (2 * depth) ' ')

def enclose (left right : String) (depth : Nat) (parts : List String) : String :=
  if parts.isEmpty then left ++ right
  else
    left ++ lineStart (depth + 1) ++ ("," ++ lineStart (depth + 1)).intercalate parts ++
      lineStart depth ++ right

mutual

def indented (depth : Nat) : Json → String
  | .list items => enclose "[" "]" depth (indentedItems (depth + 1) items)
  | .record fields => enclose "\x7b" "\x7d" depth (indentedFields (depth + 1) fields)
  | v => scalarText v

def indentedItems (depth : Nat) : List Json → List String
  | [] => []
  | v :: rest => v.indented depth :: indentedItems depth rest

def indentedFields (depth : Nat) : List (String × Json) → List String
  | [] => []
  | (name, v) :: rest =>
      (quotedText name ++ ": " ++ v.indented depth) :: indentedFields depth rest

end

end NumericContract.Json
