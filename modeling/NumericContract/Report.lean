import NumericContract.CetGroup
import NumericContract.Json.Printer

/-!
# Reports

What is reported of a contract: its collateral and payout ranges and, unless only these are asked
for, its groups and the number of all their transactions.
-/

namespace NumericContract

open Decimal

structure Report where
  totalCollateral : Nat
  ranges : List PayoutRange
  groups? : Option (List CetGroup)

namespace Report

def ofContract (ctx : Context) (c : Contract) (settings : Settings) (rangesOnly : Bool) :
    Except Failure Report := do
  let ranges ← c.payouts ctx settings
  if rangesOnly then return ⟨c.totalCollateral, ranges, none⟩
  return ⟨c.totalCollateral, ranges, some (← c.groupsOf ranges)⟩

def rangeJson (r : PayoutRange) : Json :=
  .record [("indexFrom", .integer r.first), ("indexTo", .integer r.last),
    ("payout", .integer r.payout)]

def digitsJson (digits : Digits) : Json := .list (digits.map .integer)

def groupJson (g : CetGroup) : Json :=
  .record [("payout", .integer g.range.payout), ("indexFrom", .integer g.range.first),
    ("indexTo", .integer g.range.last), ("prefixes", .list (g.prefixes.map digitsJson))]

def cetCount (groups : List CetGroup) : Nat := groups.foldl (fun total g => total + g.count) 0

def groupFields (groups : List CetGroup) : List (String × Json) :=
  [("cetGroups", .list (groups.map groupJson)), ("cetCount", .integer (cetCount groups))]

def toJson (r : Report) : Json :=
  .record ([("totalCollateral", .integer r.totalCollateral),
      ("ranges", .list (r.ranges.map rangeJson))] ++
    (r.groups?.map groupFields).getD [])

def text (r : Report) : String := r.toJson.indented 0 ++ "\n"

end Report

end NumericContract
