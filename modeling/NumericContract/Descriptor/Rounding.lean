import NumericContract.Descriptor.Field
import NumericContract.Rounding

/-!
# Rounding intervals in descriptors

A descriptor lists the intervals of its rounding policy in any order.
-/

namespace NumericContract

open Descriptor

namespace RoundingInterval

def asModulus (v : Json) : Checked { n : Nat // 0 < n } :=
  (asAmount v).andThen fun n => if h : 0 < n then .valid ⟨n, h⟩ else .complain .notPositive

def ofFields (fields : Fields) : Checked RoundingInterval :=
  (fun (start : Nat) modulus =>
      (⟨start, modulus.1, Int.natCast_nonneg start, Int.natCast_pos.mpr modulus.2⟩ :
        RoundingInterval))
    <$> fields.required "beginInterval" asAmount
    <*> fields.required "roundingMod" asModulus

def ofJson : Json → Checked RoundingInterval := asRecord ofFields

def toJson (i : RoundingInterval) : Json :=
  .record [("beginInterval", .integer i.start), ("roundingMod", .integer i.modulus)]

end RoundingInterval

structure RoundingIntervals where
  intervals : List RoundingInterval
  nonempty : 1 ≤ intervals.length
deriving Repr, DecidableEq

namespace RoundingIntervals

def ofFields (fields : Fields) : Checked RoundingIntervals :=
  (fun l => ⟨l.1, l.2⟩) <$> fields.required "intervals" (asList 1 RoundingInterval.ofJson)

def ofJson : Json → Checked RoundingIntervals := asRecord ofFields

def toJson (r : RoundingIntervals) : Json :=
  .record [("intervals", .list (r.intervals.map RoundingInterval.toJson))]

def toPolicy (r : RoundingIntervals) : RoundingPolicy :=
  .ofNonempty r.intervals (List.ne_nil_of_length_pos r.nonempty)

end RoundingIntervals

end NumericContract
