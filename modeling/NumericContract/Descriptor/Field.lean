import NumericContract.Decimal.Binary
import NumericContract.Descriptor.Checked
import NumericContract.Json.Value
import NumericContract.Text.PlainInteger

/-!
# Values of descriptors

How the fields of a record are found and the plain values in them are read. Amounts are integers
or decimal text and are never negative; plain integers and flags are read more liberally. A field
is known by two names, one in camel case and one with underscores, of which the former counts if
both are given.
-/

namespace NumericContract.Descriptor

open Text

/-! ## Fields -/

/-- A name in camel case as words in lower case with underscores. -/
def underscored (name : String) : String :=
  String.ofList (name.toList.flatMap fun c => if c.isUpper then ['_', c.toLower] else [c])

abbrev Fields := List (String × Json)

/-- Reads a field under the name it was given by, `absent` if it was not. -/
def Fields.read {α : Type} (fields : Fields) (name : String) (check : Json → Checked α)
    (absent : Checked α) : Checked α :=
  match Json.lookupField name fields with
  | some v => (check v).within (.field name)
  | none =>
      match Json.lookupField (underscored name) fields with
      | some v => (check v).within (.field (underscored name))
      | none => absent

def Fields.required {α : Type} (fields : Fields) (name : String) (check : Json → Checked α) :
    Checked α :=
  fields.read name check ((Checked.complain .missing).within (.field name))

def Fields.optional {α : Type} (fields : Fields) (name : String) (check : Json → Checked α)
    (default : α) : Checked α :=
  fields.read name check (.valid default)

/-! ## Containers -/

def asRecord {α : Type} (check : Fields → Checked α) : Json → Checked α
  | .record fields => check fields
  | _ => .complain .notRecord

/-- A list with at least `least` items. Its length is only looked at if every item is valid. -/
def asList {α : Type} (least : Nat) (check : Json → Checked α) :
    Json → Checked { l : List α // least ≤ l.length }
  | .list items =>
      (Checked.items check 0 items).andThen fun l =>
        if h : least ≤ l.length then .valid ⟨l, h⟩ else .complain .tooShort
  | _ => .complain .notList

def asOptional {α : Type} (check : Json → Checked α) : Json → Checked (Option α)
  | .null => .valid none
  | v => some <$> check v

/-! ## Amounts -/

/-- An integer that must not be negative; `shown` is how it was given. -/
def asNatural (n : Int) (shown : String) : Checked Nat :=
  if 0 ≤ n then .valid n.toNat else .reject (.amountNegative shown)

def asAmount : Json → Checked Nat
  | .flag _ => .reject .amountFlag
  | .integer n => asNatural n (toString n)
  | .text s =>
      match readInteger s with
      | .ok n => asNatural n s
      | .error _ => .reject (.amountText s)
  | v => .reject (.amountKind v.kindName)

/-! ## Plain integers and flags -/

def integerOfText (s : String) : Checked Int :=
  match readPlainInteger s with
  | .ok n => .valid n
  | .error .malformed => .complain .integerText
  | .error (.tooManyDigits _) => .complain .integerTextTooLong

/-- The absolute value from which on a number with a point does not count as an integer. -/
def wordBound : Nat := Binary64.twoPower 63

/-- The integer that a number with a point stands for as a binary64 number. -/
def integerOfReal : Decimal → Checked Int
  | .finite x =>
      match Binary64.ofDecimal? x with
      | none => .complain .notFinite
      | some b =>
          match b.toNat? with
          | some n =>
              if n < wordBound then .valid (applySign x.negative n)
              else .complain .integerTextTooLong
          | none => .complain .fractional
  | _ => .complain .notFinite

def asInteger : Json → Checked Int
  | .integer n => .valid n
  | .flag b => .valid (if b then 1 else 0)
  | .real x => integerOfReal x
  | .text s => integerOfText s
  | _ => .complain .notInteger

def atLeast (least : Nat) (n : Int) : Checked { m : Nat // least ≤ m } :=
  if h : least ≤ n.toNat ∧ 0 ≤ n then .valid ⟨n.toNat, h.1⟩ else .complain .tooSmall

def below (bound : Nat) (n : Int) : Checked { m : Nat // m < bound } :=
  if n < 0 then .complain .tooSmall
  else if h : n.toNat < bound then .valid ⟨n.toNat, h⟩
  else .complain .tooLarge

def trueWords : List String := ["1", "true", "t", "yes", "y", "on"]

def falseWords : List String := ["0", "false", "f", "no", "n", "off"]

/-- One and zero as flags. Integers that no machine word of 64 bits holds are of the wrong kind. -/
def flagOfInteger (n : Int) : Checked Bool :=
  if n = 1 then .valid true
  else if n = 0 then .valid false
  else if -wordBound ≤ n ∧ n < wordBound then .complain .unknownFlag
  else .complain .notFlag

def asFlag : Json → Checked Bool
  | .flag b => .valid b
  | .integer n => flagOfInteger n
  | .real x =>
      match integerOfReal x with
      | .valid n => flagOfInteger n
      | _ => .complain .notFlag
  | .text s =>
      let word := s.map Char.toLower
      if trueWords.contains word then .valid true
      else if falseWords.contains word then .valid false
      else .complain .unknownFlag
  | _ => .complain .notFlag

end NumericContract.Descriptor
