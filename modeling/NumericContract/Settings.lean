import NumericContract.Failure
import NumericContract.Text.Integer

/-!
# Settings

How many significant digits the computation of payout ranges works with, and how many outcomes
are probed in search of the first at which a curve is defined.
-/

namespace NumericContract

open Decimal Text

structure Settings where
  precision : Nat
  scanSteps : Nat
  precision_wide : 28 ≤ precision
  scanSteps_pos : 1 ≤ scanSteps
deriving Repr

namespace Settings

def standard : Settings := ⟨78, 100000, by decide, by decide⟩

/-- Settings from given values, of which the precision is looked at first. -/
def ofValues (precision scanSteps : Int) : Except Failure Settings :=
  if hp : 28 ≤ precision.toNat then
    if hs : 1 ≤ scanSteps.toNat then .ok ⟨precision.toNat, scanSteps.toNat, hp, hs⟩
    else .error (.value (.noScanSteps scanSteps))
  else .error (.value (.precisionTooSmall precision))

def readValue (text : String) : Except Failure Int :=
  match readInteger text with
  | .ok n => .ok n
  | .error .malformed => .error (.value (.notIntegerText text))
  | .error (.tooManyDigits count) => .error (.value (.tooManyDigits count))

/-- Settings from optional texts; both are read before either is judged. -/
def ofTexts (precision? scanSteps? : Option String) : Except Failure Settings := do
  let precision ← (precision?.map readValue).getD (.ok standard.precision)
  let scanSteps ← (scanSteps?.map readValue).getD (.ok standard.scanSteps)
  ofValues precision scanSteps

def maxPrecision : Nat := 999999999999999999

def maxWord : Nat := 9223372036854775807

def context (settings : Settings) : Except Failure Context :=
  if settings.precision ≤ maxPrecision then .ok ⟨settings.precision, settings.precision_wide⟩
  else if settings.precision ≤ maxWord then .error (.value .precisionTooLarge)
  else .error (.overflow .beyondMachineWord)

end Settings

end NumericContract
