import NumericContract.Decimal.Binary
import NumericContract.Digits

/-!
# Covering an outcome range with leading digits

Leading digits stand for all outcomes that begin with them. A range of outcomes is covered by a
list of leading digits, in ascending order and without overlap, so that one signature per entry
serves every outcome of the range. Past the digits that both ends share, the cover has three
zones: the front, from the first outcome to the next turn of the leading digit; the middle, of
whole leading digits; and the back, from the last turn of the leading digit to the last outcome.
-/

namespace NumericContract.PrefixCover

def integersBetween (low high : Int) : List Int :=
  (List.range (high - low).toNat).map fun n : Nat => low + n

/-- Covers the digit sequences of the same length that are not below the given one: nothing need
be fixed before zeros, and after a digit come all greater ones. -/
def atLeast (base : Int) : Digits → List Digits
  | [] => [[]]
  | d :: ds =>
      if (d :: ds).all (· = 0) then [[]]
      else (atLeast base ds).map (d :: ·) ++ (integersBetween (d + 1) base).map ([·])

/-- Covers the digit sequences of the same length that are not above the given one: nothing need
be fixed before largest digits, and before a digit come all smaller ones. -/
def atMost (base : Int) : Digits → List Digits
  | [] => [[]]
  | d :: ds =>
      if (d :: ds).all (· = base - 1) then [[]]
      else (integersBetween 0 d).map ([·]) ++ (atMost base ds).map (d :: ·)

/-- From the given digits to the next turn of the leading digit. -/
def front (base : Int) : Digits → List Digits
  | [] => [[0]]
  | d :: ds => (atLeast base ds).map (d :: ·)

/-- From the last turn of the leading digit to the given digits. -/
def back (base : Int) : Digits → List Digits
  | [] => [[base - 1]]
  | d :: ds => (atMost base ds).map (d :: ·)

def middle (first last : Int) : List Digits := (integersBetween (first + 1) last).map ([·])

def ofParting (base : Int) (p : Digits.Parting) : List Digits :=
  let whole := p.first.all (· = 0) && p.last.all (· = base - 1)
  if p.first = p.last || (whole && !p.shared.isEmpty) then [p.shared]
  else
    match p.first, p.last with
    | [first], [last] => (integersBetween first (last + 1)).map fun d => p.shared ++ [d]
    | first :: firstRest, last :: lastRest =>
        (front base (first :: firstRest) ++ middle first last ++ back base (last :: lastRest)).map
          (p.shared ++ ·)
    | _, _ => [p.shared]

/-- Whether an outcome that is not negative lies below `base ^ count`. A negative count makes
the power a fraction, taken as a binary64 number; it is zero once it is at most half of the
least positive one. -/
def belowPower (outcome base count : Int) : Except Failure Bool :=
  if 0 ≤ count then .ok (outcome < Int.pow base count.toNat)
  else
    match Binary64.ofRatio? base.toNat 1, Binary64.ofRatio? (-count).toNat 1 with
    | some b, some _ =>
        let power := Nat.pow (b.toNat?.getD 0) (-count).toNat
        let vanishes := 1075 ≤ -count || Binary64.twoPower 1075 ≤ power
        .ok (outcome = 0 && !vanishes)
    | _, _ => .error (.overflow .beyondBinary64)

/-- The cover of the outcomes from `first` to `last`, written with `count` digits. -/
def ofRange (first last base count : Int) : Except Failure (List Digits) := do
  if base < 2 then throw (.domain (.baseTooSmall base))
  let inside ← if 0 ≤ first && first ≤ last then belowPower last base count else pure false
  if !inside then throw (.domain (.rangeOutside first last count base))
  return ofParting base (← Digits.separate first last base count)

end NumericContract.PrefixCover
