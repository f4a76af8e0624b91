import NumericContract.Decimal.Text
import NumericContract.Failure
import NumericContract.Json.Value

/-!
# Decimals in JSON

Only integers and text are read as decimals. A number with a point stands for its nearest binary
fraction, which is not what either party wrote down, and is refused.
-/

namespace NumericContract.Json

/-- The decimal that a value stands for, without any rounding; `name` is for the message. -/
def toDecimal (name : String) : Json → Except Failure Decimal
  | .integer n => .ok (.ofInt n)
  | .text s =>
      match Decimal.ofText? s with
      | some value => .ok value
      | none => .error (.value (.notDecimalText name s))
  | v => .error (.value (.notANumber name v.kindName))

end NumericContract.Json
