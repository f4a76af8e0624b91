import NumericContract.Descriptor.Contract
import NumericContract.Payouts
import NumericContract.PrefixCover

/-!
# Groups of contract execution transactions

One transaction is signed for each of the leading digits that cover a payout range. A group holds
a payout range with these digits.
-/

namespace NumericContract

open Decimal

structure CetGroup where
  range : PayoutRange
  prefixes : List Digits
deriving Repr, DecidableEq

namespace CetGroup

def count (g : CetGroup) : Nat := g.prefixes.length

def ofRange (base digits : Int) (range : PayoutRange) : Except Failure CetGroup := do
  return ⟨range, ← PrefixCover.ofRange range.first range.last base digits⟩

def ofRanges (base digits : Int) (ranges : List PayoutRange) : Except Failure (List CetGroup) :=
  ranges.mapM (ofRange base digits)

end CetGroup

namespace Contract

def payouts (ctx : Context) (c : Contract) (settings : Settings) :
    Except Failure (List PayoutRange) :=
  c.function.payouts ctx ⟨c.totalCollateral, c.rounding.toPolicy, settings⟩

def groupsOf (c : Contract) (ranges : List PayoutRange) : Except Failure (List CetGroup) :=
  CetGroup.ofRanges c.oracleBase c.oracleDigits ranges

def cetGroups (ctx : Context) (c : Contract) (settings : Settings) :
    Except Failure (List CetGroup) := do
  c.groupsOf (← c.payouts ctx settings)

end Contract

end NumericContract
