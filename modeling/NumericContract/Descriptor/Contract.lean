import NumericContract.Descriptor.PayoutFunction
import NumericContract.Descriptor.Rounding

/-!
# Contract descriptors

Everything that the payouts of a contract and their signatures are computed from. No outcome of
the payout function exceeds what the oracle can attest to. Integers have no bound here, so that the
room that the power of the base takes, which any number of digits may be given for, is left out.
-/

namespace NumericContract

open Decimal Descriptor

/-- The parts of a contract, whose outcomes may be too large for the oracle. -/
structure Contract.Parts where
  function : PayoutFunction
  rounding : RoundingIntervals
  totalCollateral : Nat
  oracleBase : Nat
  oracleDigits : Nat
  base_ge : 2 ≤ oracleBase
  digits_ge : 1 ≤ oracleDigits
deriving Repr, DecidableEq

namespace Contract.Parts

def maxOutcome (parts : Parts) : Nat := Nat.pow parts.oracleBase parts.oracleDigits - 1

/-- The outcomes of the payout function, the ends of the pieces first. -/
def outcomes (parts : Parts) : List Nat :=
  parts.function.pieces.map (·.endPoint.outcome) ++
    parts.function.first?.toList.map (·.outcome) ++
    parts.function.last?.toList.map (·.outcome)

def Attestable (parts : Parts) : Prop := ∀ o ∈ parts.outcomes, o ≤ parts.maxOutcome

/-- Whether an outcome is too large for the oracle. One with fewer binary digits than the oracle
has digits is not, whatever the base, and the power of the base is not formed. -/
def exceeds (parts : Parts) (outcome : Nat) : Bool :=
  parts.oracleDigits ≤ outcome.log2 && parts.maxOutcome < outcome

theorem le_maxOutcome_of_log2_lt {parts : Parts} {outcome : Nat}
    (h : outcome.log2 < parts.oracleDigits) : outcome ≤ parts.maxOutcome := by
  by_cases hzero : outcome = 0
  · omega
  · have below : outcome < Nat.pow 2 parts.oracleDigits := (Nat.log2_lt hzero).mp h
    have bases : Nat.pow 2 parts.oracleDigits ≤ Nat.pow parts.oracleBase parts.oracleDigits :=
      Nat.pow_le_pow_left parts.base_ge parts.oracleDigits
    unfold maxOutcome
    omega

theorem exceeds_iff {parts : Parts} {outcome : Nat} :
    parts.exceeds outcome = true ↔ parts.maxOutcome < outcome := by
  simp only [exceeds, Bool.and_eq_true, decide_eq_true_eq]
  constructor
  · exact fun h => h.2
  · intro h
    by_cases short : outcome.log2 < parts.oracleDigits
    · have := le_maxOutcome_of_log2_lt short
      omega
    · exact ⟨by omega, h⟩

end Contract.Parts

/-- A contract all of whose outcomes the oracle can attest to. -/
structure Contract extends Contract.Parts where
  attestable : toParts.Attestable
deriving Repr

namespace Contract

def ofParts (parts : Parts) : Checked Contract :=
  match h : parts.outcomes.find? parts.exceeds with
  | some outcome => .reject (.beyondOracle outcome parts.maxOutcome)
  | none =>
      .valid ⟨parts, fun o ho =>
        Nat.not_lt.mp fun hlt => List.find?_eq_none.mp h o ho (Parts.exceeds_iff.mpr hlt)⟩

def ofFields (ctx : Context) (fields : Fields) : Checked Contract :=
  ((fun function rounding collateral base digits =>
      (⟨function, rounding, collateral, base.1, digits.1, base.2, digits.2⟩ : Parts))
    <$> fields.required "payoutFunction" (PayoutFunction.ofJson ctx)
    <*> fields.required "roundingIntervals" RoundingIntervals.ofJson
    <*> fields.required "totalCollateral" asAmount
    <*> fields.optional "oracleBase" (fun v => (asInteger v).andThen (atLeast 2))
      ⟨2, Nat.le_refl 2⟩
    <*> fields.required "oracleNumDigits" (fun v => (asInteger v).andThen (atLeast 1))).andThen
    ofParts

def ofJson (ctx : Context) : Json → Checked Contract := asRecord (ofFields ctx)

def toJson (c : Contract) : Json :=
  .record [("payoutFunction", c.function.toJson), ("roundingIntervals", c.rounding.toJson),
    ("totalCollateral", .integer c.totalCollateral), ("oracleBase", .integer c.oracleBase),
    ("oracleNumDigits", .integer c.oracleDigits)]

end Contract

end NumericContract
