import NumericContract.Decimal.Text
import NumericContract.Text.Integer
import NumericContract.Text.Quoted

/-!
# Failures

Everything that can go wrong in the engine, by cause. The engine's own failures come in seven
families and say that a contract cannot be computed; the rest are values that are no numbers,
integers that do not exist, and arithmetic without a result. Each cause has one message, unless
it shows an integer that is too long to be written.
-/

namespace NumericContract

open Decimal Text

/-- An outcome domain is empty, inverted or outside the digits of the oracle. -/
inductive DomainFault where
  | baseTooSmall (base : Int)
  | negativeDigitCount (count : Int)
  | negativeOutcome (outcome : Int)
  | digitOutOfRange (digit base : Int)
  | rangeOutside (first last digits base : Int)
  | notAscending (first last : Int)
  | negativeCollateral (collateral : Int)
  | firstPayoutOutside (payout collateral : Int)
  | lastPayoutOutside (payout collateral : Int)
deriving Repr, DecidableEq

/-- No outcome of a domain has a payout that the collateral covers. -/
inductive CoverageFault where
  | undefinedOn (first last : Int)
  | undefinedAt (outcome : Int)
  | neverPayable (first last collateral : Int)
  | arithmetic (first last : Int) (signal : Signal)
deriving Repr, DecidableEq

/-- Coefficients or points do not describe a curve. -/
inductive CurveFault where
  | sharedOutcome (outcome : Int)
  | pointCount (count : Nat)
  | negativePayout (outcome : Int)
  | notFinite (name : String) (value : Decimal)
  | zeroLeading
deriving Repr, DecidableEq

/-- A rounding policy is empty or one of its intervals is not an interval. -/
inductive RoundingFault where
  | negativeBegin (outcome : Int)
  | notPositive (modulus : Int)
  | noIntervals
deriving Repr, DecidableEq

/-- A value has no form with sixteen decimals. -/
inductive PrecisionFault where
  | fractionOfNonFinite (value : Decimal)
  | nonFinite (value : Decimal)
  | negativeFraction (fraction : Int)
  | fractionTooLong (fraction : Int)
  | negativeMagnitude (magnitude : Int)
deriving Repr, DecidableEq

/-- The pieces and end points of a payout function contradict each other or the collateral. -/
inductive PayoutFunctionFault where
  | aboveCollateral (payout outcome collateral : Int)
  | undefinedStart
  | endsBeforeStart (piece : Nat) (last first : Int)
  | coversNothing
deriving Repr, DecidableEq

inductive ValueFault where
  | notANumber (name kind : String)
  | notDecimalText (name text : String)
  | notIntegerText (text : String)
  | tooManyDigits (count : Nat)
  | tooLongToWrite
  | integerOfNaN
  | nonFinitePayout (payout : Decimal)
  | modulusNotPositive (modulus : Int)
  | precisionTooSmall (precision : Int)
  | precisionTooLarge
  | noScanSteps (steps : Int)
deriving Repr, DecidableEq

inductive OverflowFault where
  | infinityAsInteger
  | beyondBinary64
  | beyondMachineWord
deriving Repr, DecidableEq

inductive Failure where
  | domain (fault : DomainFault)
  | coverage (fault : CoverageFault)
  | unsupportedInversion
  | curve (fault : CurveFault)
  | rounding (fault : RoundingFault)
  | precision (fault : PrecisionFault)
  | payoutFunction (fault : PayoutFunctionFault)
  | value (fault : ValueFault)
  | overflow (fault : OverflowFault)
  | untypedPiece (kind : String)
  | arithmetic (signal : Signal)
deriving Repr, DecidableEq

def Decimal.Signal.family : Signal → String
  | .invalidOperation | .divisionImpossible | .divisionUndefined => "InvalidOperation"
  | .divisionByZero => "DivisionByZero"
  | .overflow => "Overflow"

/-- The signal itself, which names one condition of its family. -/
def Decimal.Signal.condition : Signal → String
  | .invalidOperation => "InvalidOperation"
  | .divisionImpossible => "DivisionImpossible"
  | .divisionUndefined => "DivisionUndefined"
  | .divisionByZero => "DivisionByZero"
  | .overflow => "Overflow"

/-- A signal as a message shows it: its family and, in brackets, the condition. -/
def Decimal.Signal.report (signal : Signal) : String :=
  signal.family ++ "([<class 'decimal." ++ signal.condition ++ "'>])"

def DomainFault.message : DomainFault → String
  | .baseTooSmall base => s!"Base must be at least 2, got {base}"
  | .negativeDigitCount count => s!"Number of digits cannot be negative: {count}"
  | .negativeOutcome outcome => s!"Outcome cannot be negative: {outcome}"
  | .digitOutOfRange digit base => s!"Digit {digit} out of range for base {base}"
  | .rangeOutside first last digits base =>
      s!"Invalid outcome range [{first}, {last}] for {digits} digits in base {base}"
  | .notAscending first last =>
      s!"to_outcome must be strictly greater than from_outcome: [{first}, {last}]"
  | .negativeCollateral collateral => s!"Total collateral cannot be negative: {collateral}"
  | .firstPayoutOutside payout collateral =>
      s!"from_payout {payout} outside [0, {collateral}]"
  | .lastPayoutOutside payout collateral => s!"to_payout {payout} outside [0, {collateral}]"

def CoverageFault.message : CoverageFault → String
  | .undefinedOn first last => s!"Payout curve is undefined on outcomes [{first}, {last}]"
  | .undefinedAt outcome => s!"Payout curve is undefined at outcome {outcome}"
  | .neverPayable first last collateral =>
      s!"No outcome in [{first}, {last}] pays within [0, {collateral}]"
  | .arithmetic first last signal =>
      s!"Payout arithmetic failed on [{first}, {last}]: " ++ signal.report

def CurveFault.message : CurveFault → String
  | .sharedOutcome outcome => s!"Line endpoints share the same outcome {outcome}"
  | .pointCount count => s!"A line payout curve needs exactly two points, got {count}"
  | .negativePayout outcome => s!"Payout point at outcome {outcome} has negative payout"
  | .notFinite name value =>
      s!"Hyperbola coefficient {name} must be finite, got " ++ value.toText
  | .zeroLeading => "Hyperbola coefficient a must be non-zero"

def RoundingFault.message : RoundingFault → String
  | .negativeBegin outcome =>
      s!"Rounding interval cannot begin at a negative outcome: {outcome}"
  | .notPositive modulus => s!"Rounding modulus must be positive, got {modulus}"
  | .noIntervals => "At least one rounding interval is required"

def PrecisionFault.message : PrecisionFault → String
  | .fractionOfNonFinite value =>
      "Cannot extract precision of non-finite value " ++ value.toText
  | .nonFinite value => "Cannot encode non-finite coefficient " ++ value.toText
  | .negativeFraction fraction => s!"Precision cannot be negative: {fraction}"
  | .fractionTooLong fraction => s!"Precision is too large: {fraction}"
  | .negativeMagnitude magnitude => s!"Magnitude cannot be negative: {magnitude}"

def PayoutFunctionFault.message : PayoutFunctionFault → String
  | .aboveCollateral payout outcome collateral =>
      s!"Payout {payout} at outcome {outcome} exceeds the total collateral {collateral}"
  | .undefinedStart =>
      "First payout curve is undefined at outcome 0 and no first endpoint is given"
  | .endsBeforeStart piece last first =>
      s!"Piece {piece} ends at {last} before it starts at {first}"
  | .coversNothing => "Payout function covers no outcome range"

def ValueFault.message : ValueFault → String
  | .notANumber name kind => s!"{name} must be int, str or Decimal, got {kind}"
  | .notDecimalText name text => s!"{name} is not a decimal number: '{text}'"
  | .notIntegerText text =>
      "invalid literal for int() with base 10: " ++ abridged 200 (quoted text)
  | .tooManyDigits count =>
      s!"Exceeds the limit (4300 digits) for integer string conversion: value has {count} " ++
        "digits; use sys.set_int_max_str_digits() to increase the limit"
  | .tooLongToWrite =>
      "Exceeds the limit (4300 digits) for integer string conversion; " ++
        "use sys.set_int_max_str_digits() to increase the limit"
  | .integerOfNaN => "cannot convert NaN to integer"
  | .nonFinitePayout payout => "Cannot round non-finite payout " ++ payout.toText
  | .modulusNotPositive modulus => s!"Rounding modulus must be positive, got {modulus}"
  | .precisionTooSmall precision => s!"decimal_precision must be >= 28, got {precision}"
  | .precisionTooLarge => "valid range for prec is [1, MAX_PREC]"
  | .noScanSteps steps => s!"max_scan_steps must be positive, got {steps}"

def OverflowFault.message : OverflowFault → String
  | .infinityAsInteger => "cannot convert Infinity to integer"
  | .beyondBinary64 => "int too large to convert to float"
  | .beyondMachineWord => "Python int too large to convert to C ssize_t"

/-! ## Integers in messages -/

def DomainFault.integers : DomainFault → List Int
  | .baseTooSmall base => [base]
  | .negativeDigitCount count => [count]
  | .negativeOutcome outcome => [outcome]
  | .digitOutOfRange digit base => [digit, base]
  | .rangeOutside first last digits base => [first, last, digits, base]
  | .notAscending first last => [first, last]
  | .negativeCollateral collateral => [collateral]
  | .firstPayoutOutside payout collateral => [payout, collateral]
  | .lastPayoutOutside payout collateral => [payout, collateral]

def CoverageFault.integers : CoverageFault → List Int
  | .undefinedOn first last => [first, last]
  | .undefinedAt outcome => [outcome]
  | .neverPayable first last collateral => [first, last, collateral]
  | .arithmetic first last _ => [first, last]

def CurveFault.integers : CurveFault → List Int
  | .sharedOutcome outcome => [outcome]
  | .negativePayout outcome => [outcome]
  | .pointCount _ | .notFinite _ _ | .zeroLeading => []

def RoundingFault.integers : RoundingFault → List Int
  | .negativeBegin outcome => [outcome]
  | .notPositive modulus => [modulus]
  | .noIntervals => []

def PrecisionFault.integers : PrecisionFault → List Int
  | .negativeFraction fraction => [fraction]
  | .fractionTooLong fraction => [fraction]
  | .negativeMagnitude magnitude => [magnitude]
  | .fractionOfNonFinite _ | .nonFinite _ => []

def PayoutFunctionFault.integers : PayoutFunctionFault → List Int
  | .aboveCollateral payout outcome collateral => [payout, outcome, collateral]
  | .endsBeforeStart _ last first => [last, first]
  | .undefinedStart | .coversNothing => []

def ValueFault.integers : ValueFault → List Int
  | .modulusNotPositive modulus => [modulus]
  | .precisionTooSmall precision => [precision]
  | .noScanSteps steps => [steps]
  | _ => []

def isWritable (n : Int) : Bool := n.natAbs < Magnitude.tenPower maxIntegerDigits

namespace Failure

def integers : Failure → List Int
  | .domain fault => fault.integers
  | .coverage fault => fault.integers
  | .curve fault => fault.integers
  | .rounding fault => fault.integers
  | .precision fault => fault.integers
  | .payoutFunction fault => fault.integers
  | .value fault => fault.integers
  | .unsupportedInversion | .overflow _ | .untypedPiece _ | .arithmetic _ => []

/-- The failure that is reported. One that shows an integer with too many digits cannot be. -/
def reported (f : Failure) : Failure :=
  if f.integers.all isWritable then f else .value .tooLongToWrite

theorem reported_eq_self {f : Failure} (h : ∀ n ∈ f.integers, isWritable n = true) :
    f.reported = f := by
  simp only [reported, List.all_eq_true.mpr h, if_true]

def causeFamily? : Failure → Option String
  | .domain _ => some "InvalidDomain"
  | .coverage _ => some "NoValidOutcome"
  | .unsupportedInversion => some "UnsupportedInversion"
  | .curve _ => some "InvalidCurve"
  | .rounding _ => some "InvalidRoundingIntervals"
  | .precision _ => some "PrecisionError"
  | .payoutFunction _ => some "InvalidPayoutFunction"
  | .value _ | .overflow _ | .untypedPiece _ | .arithmetic _ => none

def causeMessage : Failure → String
  | .domain fault => fault.message
  | .coverage fault => fault.message
  | .unsupportedInversion => "Hyperbola inversion is only supported for c = 0"
  | .curve fault => fault.message
  | .rounding fault => fault.message
  | .precision fault => fault.message
  | .payoutFunction fault => fault.message
  | .value fault => fault.message
  | .overflow fault => fault.message
  | .untypedPiece kind => s!"'{kind}' object has no attribute 'type'"
  | .arithmetic signal => signal.report

def family? (f : Failure) : Option String := f.reported.causeFamily?

def message (f : Failure) : String := f.reported.causeMessage

def ofArithmetic {α : Type} (result : Except Signal α) : Except Failure α :=
  result.mapError .arithmetic

instance : MonadLift (Except Signal) (Except Failure) := ⟨ofArithmetic⟩

theorem ofArithmetic_eq_ok {α : Type} {result : Except Signal α} {a : α} :
    ofArithmetic result = .ok a ↔ result = .ok a := by
  cases result <;> constructor <;> intro h <;> cases h <;> rfl

end Failure

/-! ## Steps that may fail -/

theorem bind_eq_ok {ε α β : Type} {m : Except ε α} {f : α → Except ε β} {b : β} :
    m >>= f = .ok b ↔ ∃ a, m = .ok a ∧ f a = .ok b := by
  cases m with
  | error e => simp [bind, Except.bind]
  | ok a => simp [bind, Except.bind]

theorem bind_of_ok {ε α β : Type} {m : Except ε α} {a : α} (h : m = .ok a) (f : α → Except ε β) :
    m >>= f = f a := by
  rw [h]
  rfl

theorem bind_of_error {ε α β : Type} {m : Except ε α} {e : ε} (h : m = .error e) (f : α → Except ε β) :
    m >>= f = .error e := by
  rw [h]
  rfl

theorem ite_bind_eq_ok {ε α β : Type} {c : Prop} [Decidable c] {m n : Except ε α}
    {f : α → Except ε β} {b : β} : (if c then m >>= f else n >>= f) = .ok b ↔
      ∃ a, (if c then m else n) = .ok a ∧ f a = .ok b := by
  split <;> exact bind_eq_ok

def FailsOnly {ε α : Type} (P : ε → Prop) (result : Except ε α) : Prop :=
  ∀ failure, result = .error failure → P failure

namespace FailsOnly

variable {ε α β : Type} {P : ε → Prop}

theorem ok (a : α) : FailsOnly P (.ok a) := by
  rintro failure ⟨⟩

theorem error {failure : ε} (h : P failure) : FailsOnly P (.error failure : Except ε α) := by
  rintro _ ⟨⟩
  exact h

theorem bind {m : Except ε α} {f : α → Except ε β} (hm : FailsOnly P m)
    (hf : ∀ a, m = .ok a → FailsOnly P (f a)) : FailsOnly P (m >>= f) := by
  intro failure h
  cases hresult : m with
  | error e =>
      rw [hresult] at h
      cases h
      exact hm failure hresult
  | ok a =>
      rw [hresult] at h
      exact hf a hresult failure h

theorem ite_bind {c : Prop} [Decidable c] {m n : Except ε α} {f : α → Except ε β}
    (hm : FailsOnly P (if c then m else n)) (hf : ∀ a, (if c then m else n) = .ok a → FailsOnly P (f a)) :
    FailsOnly P (if c then m >>= f else n >>= f) := by
  split
  · next hc =>
    rw [if_pos hc] at hm hf
    exact hm.bind hf
  · next hc =>
    rw [if_neg hc] at hm hf
    exact hm.bind hf

theorem mapM {f : α → Except ε β} {l : List α} (h : ∀ a ∈ l, FailsOnly P (f a)) : FailsOnly P (l.mapM f) := by
  induction l with
  | nil => exact FailsOnly.ok []
  | cons a rest ih =>
      rw [List.mapM_cons]
      refine (h a List.mem_cons_self).bind fun b _ => ?_
      exact (ih fun a' ha' => h a' (List.mem_cons_of_mem a ha')).bind fun bs _ => FailsOnly.ok _

theorem ofArithmetic {P : Failure → Prop} {result : Except Signal α} (h : ∀ signal, P (.arithmetic signal)) :
    FailsOnly P (Failure.ofArithmetic result) := by
  cases result with
  | error signal => exact error (h signal)
  | ok a => exact ok a

end FailsOnly

end NumericContract
