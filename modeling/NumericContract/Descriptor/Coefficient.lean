import NumericContract.Coefficient
import NumericContract.Descriptor.Field
import NumericContract.Json.Decimal

/-!
# Coefficients in descriptors

A coefficient is given as a record of its parts, or as an integer or decimal text, which is
rounded to sixteen decimals. It is written as a record.
-/

namespace NumericContract.Coefficient

open Decimal Descriptor

def ofFields (fields : Fields) : Checked Coefficient :=
  ofFraction
    <$> fields.optional "sign" asFlag true
    <*> fields.required "magnitude" asAmount
    <*> fields.optional "precision" (fun v => (asInteger v).andThen (below fractionScale))
      ⟨0, fractionScale_pos⟩

def ofRecord : Json → Checked Coefficient := asRecord ofFields

/-- A failure to encode a value is an issue with it, unless the arithmetic has no result. -/
def ofNumber (ctx : Context) (v : Json) : Checked Coefficient :=
  match v.toDecimal "coefficient" >>= ofDecimal ctx with
  | .ok c => .valid c
  | .error (.arithmetic signal) => .failed (.arithmetic signal)
  | .error failure => .reject (.coefficient failure)

def ofJson (ctx : Context) : Json → Checked Coefficient
  | .record fields => ofFields fields
  | v => ofNumber ctx v

def toJson (c : Coefficient) : Json :=
  .record [("sign", .flag c.positive), ("magnitude", .integer c.magnitude),
    ("precision", .integer c.fraction)]

end NumericContract.Coefficient
