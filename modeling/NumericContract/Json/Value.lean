import NumericContract.Decimal.Basic

/-!
# JSON values

Integers and numbers with a point or an exponent are kept apart; the latter are kept as written,
with the names for infinities and NaN that some writers use. A record keeps its fields in order;
of fields with the same name the last one counts.
-/

namespace NumericContract

inductive Json where
  | null
  | flag (b : Bool)
  | integer (n : Int)
  | real (x : Decimal)
  | text (s : String)
  | list (items : List Json)
  | record (fields : List (String × Json))
deriving Repr, Inhabited

namespace Json

def kindName : Json → String
  | .null => "NoneType"
  | .flag _ => "bool"
  | .integer _ => "int"
  | .real _ => "float"
  | .text _ => "str"
  | .list _ => "list"
  | .record _ => "dict"

/-- The value of the last field of that name. -/
def lookupField (name : String) (fields : List (String × Json)) : Option Json :=
  fields.reverse.lookup name

end Json

end NumericContract
