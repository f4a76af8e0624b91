import NumericContract.Failure

/-!
# Outcomes as digits

An oracle attests to an outcome digit by digit, most significant digit first. An outcome is
written with a fixed number of digits in the oracle's base; digits that do not fit are dropped.
-/

namespace NumericContract

/-- Digits of an outcome or of the leading part of one, most significant first. -/
abbrev Digits := List Int

namespace Digits

def checkSystem (base count : Int) : Except Failure Unit :=
  if base < 2 then .error (.domain (.baseTooSmall base))
  else if count < 0 then .error (.domain (.negativeDigitCount count))
  else .ok ()

def maxOutcome (base count : Int) : Except Failure Int := do
  checkSystem base count
  return Int.pow base count.toNat - 1

/-- Puts the last `count` digits of `value` before other digits. -/
def prepend (base : Int) : (count : Nat) → (value : Int) → Digits → Digits
  | 0, _, digits => digits
  | count + 1, value, digits => prepend base count (value / base) (value % base :: digits)

def ofOutcome (base : Int) (count : Nat) (value : Int) : Digits := prepend base count value []

theorem prepend_eq_append (base : Int) (count : Nat) (value : Int) (digits : Digits) :
    prepend base count value digits = ofOutcome base count value ++ digits := by
  induction count generalizing value digits with
  | zero => rfl
  | succ count ih =>
      simp only [ofOutcome, prepend]
      rw [ih, ih (value / base) [value % base]]
      simp

@[simp] theorem ofOutcome_zero (base value : Int) : ofOutcome base 0 value = [] := rfl

theorem ofOutcome_succ (base : Int) (count : Nat) (value : Int) :
    ofOutcome base (count + 1) value = ofOutcome base count (value / base) ++ [value % base] :=
  prepend_eq_append base count (value / base) [value % base]

def toOutcome (base : Int) (digits : Digits) : Int :=
  digits.foldl (fun value digit => value * base + digit) 0

def decompose (value base count : Int) : Except Failure Digits := do
  checkSystem base count
  if value < 0 then .error (.domain (.negativeOutcome value))
  else return ofOutcome base count.toNat value

/-- The outcome that digits stand for; fails on the first that is none in this base. -/
def recompose (base : Int) (digits : Digits) : Except Failure Int :=
  match digits.find? fun digit => !(0 ≤ digit && digit < base) with
  | some digit => .error (.domain (.digitOutOfRange digit base))
  | none => .ok (toOutcome base digits)

def common : Digits → Digits → Digits
  | c :: cs, d :: ds => if c = d then c :: common cs ds else []
  | _, _ => []

/-- Two outcomes as their common leading digits and what follows them in each. -/
structure Parting where
  shared : Digits
  first : Digits
  last : Digits
deriving Repr, DecidableEq

def part (first last : Digits) : Parting :=
  let shared := common first last
  ⟨shared, first.drop shared.length, last.drop shared.length⟩

def separate (first last base count : Int) : Except Failure Parting := do
  let firstDigits ← decompose first base count
  let lastDigits ← decompose last base count
  return part firstDigits lastDigits

end Digits

end NumericContract
