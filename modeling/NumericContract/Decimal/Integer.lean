import NumericContract.Failure

/-!
# Decimals as integers

The nearest integer of a decimal, a half going away from zero, and clamping to a range of
integers.
-/

namespace NumericContract

namespace Decimal

def nearestInt : Decimal → Except Failure Int
  | .finite x => .ok x.roundHalfUp
  | .infinity _ => .error (.overflow .infinityAsInteger)
  | .nan signaling .. =>
      if signaling then .error (.arithmetic .invalidOperation)
      else .error (.value .integerOfNaN)

/-- The nearest integer where that is an outcome, which is never negative. -/
def nearestOutcome? : Decimal → Option Int
  | .finite x => if 0 ≤ x.roundHalfUp then some x.roundHalfUp else none
  | _ => none

def clamp (value : Decimal) (low high : Int) : Except Signal Decimal := do
  if ← value.lt (.ofInt low) then return .ofInt low
  if ← (ofInt high).lt value then return .ofInt high
  return value

end Decimal

def clampInt (value low high : Int) : Int := max low (min value high)

end NumericContract
