/-!
# Payout ranges

A range of consecutive outcomes that all pay the same. Merging goes through a list once and keeps
one range open: a range that follows it without a gap, or overlaps it, and pays the same
lengthens it; a range that pays something else gives up the outcomes that are already covered.
-/

namespace NumericContract

structure PayoutRange where
  first : Int
  last : Int
  payout : Int
deriving Repr, DecidableEq

namespace PayoutRange

def size (r : PayoutRange) : Int := r.last - r.first + 1

def mergeInto (current : PayoutRange) : List PayoutRange → List PayoutRange
  | [] => [current]
  | r :: rest =>
      if r.first ≤ current.last + 1 ∧ r.payout = current.payout then
        mergeInto { current with last := max current.last r.last } rest
      else if r.first ≤ current.last then
        if r.last ≤ current.last then mergeInto current rest
        else current :: mergeInto { r with first := current.last + 1 } rest
      else current :: mergeInto r rest

/-- The ranges without overlaps, and without neighbours that pay the same. -/
def merge : List PayoutRange → List PayoutRange
  | [] => []
  | r :: rest => mergeInto r rest

end PayoutRange

end NumericContract
