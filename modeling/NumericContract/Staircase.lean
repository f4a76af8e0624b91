import NumericContract.Curve
import NumericContract.PayoutRange
import NumericContract.Rounding
import NumericContract.Settings

/-!
# The staircase of a curve

A rounded curve is a staircase: it pays multiples of the modulus, limited to what the collateral
covers. Between two outcomes whose payouts are given, the staircase is walked step by step. Where
the curve reaches the midpoint between two multiples the payout changes, so one inversion finds
the end of a step; a step is checked by one evaluation, because the inverse is only the nearest
outcome. The work grows with the number of steps and not with the number of outcomes.

Payouts are rounded first and limited afterwards. All multiples at or above the collateral pay
the collateral and count as one level, the cap; all at or below zero pay nothing.
-/

namespace NumericContract

open Decimal

/-- A stretch of outcomes before `stop` in which one modulus applies. -/
structure Segment where
  curve : Curve
  modulus : Int
  collateral : Int
  stop : Int

/-- What a step of the walk yields: the payout ranges up to the end of the segment, or one range
after which the walk goes on. -/
inductive Stride where
  | finish (ranges : List PayoutRange)
  | onward (range : PayoutRange)
deriving Repr, DecidableEq

namespace Segment

/-- The least multiple of the modulus that is not below the collateral. -/
def cap (s : Segment) : Int := -(-s.collateral / s.modulus) * s.modulus

def pay (s : Segment) (level : Int) : Int := min level s.collateral

def step (s : Segment) (ascending : Bool) : Int := if ascending then s.modulus else -s.modulus

/-- The level that is never left in the direction of travel. -/
def lastLevel (s : Segment) (ascending : Bool) : Int := if ascending then s.cap else 0

/-- The payout of the curve at an outcome at which it has one, be it infinite. -/
def curvePayout (ctx : Context) (s : Segment) (outcome : Int) : Except Failure Decimal := do
  let value ← s.curve.evaluate ctx outcome
  if value.isNaN then throw (.coverage (.undefinedAt outcome))
  return value

def levelOf (ctx : Context) (s : Segment) (value : Decimal) : Except Failure Int :=
  match value with
  | .infinity negative => .ok (if negative then 0 else s.cap)
  | _ => do return clampInt (← value.roundToMultiple ctx s.modulus) 0 s.cap

def levelAt (ctx : Context) (s : Segment) (outcome : Int) : Except Failure Int := do
  s.levelOf ctx (← s.curvePayout ctx outcome)

def midpoint (ctx : Context) (level step : Int) : Except Signal Decimal := do
  let half ← (Finite.ofInt step).div ctx (.ofInt 2)
  return .finite (← (Finite.ofInt level).add ctx half)

/-- The last outcome on the near side of a midpoint, if the curve reaches it. A payout that
equals the midpoint rounds up: it ends the step of a descending curve and begins the next one of
an ascending curve. -/
def boundary (ctx : Context) (s : Segment) (middle : Decimal) (ascending : Bool) :
    Except Failure (Option Int) := do
  match ← s.curve.invert ctx middle with
  | none => return none
  | some candidate =>
      let value ← s.curve.evaluate ctx candidate
      if value.isNaN then return none
      let crossed ← if ascending then value.ge middle else value.lt middle
      return some (if crossed then candidate - 1 else candidate)

/-- Whether a level short of the last one is reached before the end of the segment. -/
def reaches (ctx : Context) (s : Segment) (level : Int) : Except Failure Bool := do
  if level = 0 ∨ level = s.cap then return false
  match ← s.curve.invert ctx (.ofInt level) with
  | none => return false
  | some outcome => return outcome < s.stop

def rest (s : Segment) (current level : Int) : PayoutRange := ⟨current, s.stop - 1, s.pay level⟩

/-- The step that ends at a boundary, unless that is none or outside the segment. After it the rest
pays the next level if the curve does not reach that one. -/
def strideTo (ctx : Context) (s : Segment) (ascending : Bool) (current level : Int) :
    (boundary? : Option Int) → Except Failure Stride
  | none => .ok (.finish [s.rest current level])
  | some last => do
      if last < current ∨ s.stop - 1 ≤ last then return .finish [s.rest current level]
      let next := level + s.step ascending
      let reached : PayoutRange := ⟨current, last, s.pay level⟩
      if ← s.reaches ctx next then return .onward reached
      return .finish [reached, s.rest (last + 1) next]

def stride (ctx : Context) (s : Segment) (ascending : Bool) (current level : Int) :
    Except Failure Stride := do
  if level = s.lastLevel ascending then return .finish [s.rest current level]
  let middle ← midpoint ctx level (s.step ascending)
  s.strideTo ctx ascending current level (← s.boundary ctx middle ascending)

/-- A step that goes on pays the level that it stands on, covers at least one outcome and stays
before the end of the segment. -/
theorem stride_onward {ctx : Context} {s : Segment} {ascending : Bool} {current level : Int}
    {r : PayoutRange} (h : s.stride ctx ascending current level = .ok (.onward r)) :
    r.first = current ∧ r.payout = s.pay level ∧ current ≤ r.last ∧ r.last + 1 < s.stop := by
  unfold stride at h
  split at h
  · cases h
  obtain ⟨middle, -, h⟩ := bind_eq_ok.mp h
  obtain ⟨boundary?, -, h⟩ := bind_eq_ok.mp h
  cases boundary? with
  | none => cases h
  | some last =>
      simp only [strideTo] at h
      split at h
      · cases h
      obtain ⟨reached, -, h⟩ := bind_eq_ok.mp h
      split at h
      · cases h
        dsimp only
        omega
      · cases h

def climb (ctx : Context) (s : Segment) (ascending : Bool) (current level : Int) :
    Except Failure (List PayoutRange) :=
  match h : s.stride ctx ascending current level with
  | .error failure => .error failure
  | .ok (.finish ranges) => .ok ranges
  | .ok (.onward r) => do
      let next ← s.levelAt ctx (r.last + 1)
      return r :: (← climb ctx s ascending (r.last + 1) next)
termination_by (s.stop - current).toNat
decreasing_by
  have := stride_onward h
  omega

/-- The steps of the segment from `current` on. The curve ascends if it is higher at the end of
the segment than at the beginning. -/
def split (ctx : Context) (s : Segment) (current : Int) : Except Failure (List PayoutRange) := do
  let value ← s.curvePayout ctx current
  let level ← s.levelOf ctx value
  let ascending ← value.lt (← s.curvePayout ctx s.stop)
  s.climb ctx ascending current level

end Segment

structure Stretch where
  curve : Curve
  policy : RoundingPolicy
  collateral : Int
  scanSteps : Nat
  stop : Int

namespace Stretch

def segmentAt (s : Stretch) (outcome : Int) : Segment :=
  let (modulus, stop) := s.policy.segmentAt outcome s.stop
  ⟨s.curve, modulus, s.collateral, stop⟩

/-- The payouts at two outcomes must not both lie above the collateral or both below zero. -/
def checkPayable (ctx : Context) (s : Stretch) (start last : Int) : Except Failure Unit := do
  let firstValue ← s.curve.evaluate ctx start
  let lastValue ← s.curve.evaluate ctx last
  if firstValue.isNaN || lastValue.isNaN then return ()
  let above := (← (Decimal.ofInt s.collateral).lt firstValue) &&
    (← (Decimal.ofInt s.collateral).lt lastValue)
  let below := (← firstValue.lt (.ofInt 0)) && (← lastValue.lt (.ofInt 0))
  if above || below then throw (.coverage (.neverPayable start last s.collateral))

/-- The first outcome from `first` on with a payout. There must be one, and something between it
and the end must be payable. -/
def findStart (ctx : Context) (s : Stretch) (first : Int) : Except Failure Int := do
  let last := s.stop - 1
  let some start ← s.curve.firstDefined ctx first last s.scanSteps
    | throw (.coverage (.undefinedOn first last))
  s.checkPayable ctx start last
  return start

def splitFrom (ctx : Context) (s : Stretch) (current : Int) :
    Except Failure (List PayoutRange) :=
  if _ : current < s.stop then do
    let steps ← (s.segmentAt current).split ctx current
    return steps ++ (← splitFrom ctx s (s.segmentAt current).stop)
  else .ok []
termination_by (s.stop - current).toNat
decreasing_by
  have : current < (s.segmentAt current).stop := s.policy.lt_segmentEnd ‹current < s.stop›
  omega

/-- Outcomes at which the curve is not yet defined pay what the first one pays at which it is. -/
def lead (ctx : Context) (s : Stretch) (first start : Int) : Except Failure (List PayoutRange) :=
  if first < start then do
    let segment := s.segmentAt start
    return [⟨first, start - 1, segment.pay (← segment.levelAt ctx start)⟩]
  else .ok []

def split (ctx : Context) (s : Stretch) (first : Int) : Except Failure (List PayoutRange) := do
  let start ← s.findStart ctx first
  let lead ← s.lead ctx first start
  return lead ++ (← s.splitFrom ctx start)

end Stretch

/-- Two outcomes with given payouts, between which a curve decides. -/
structure Span where
  first : Int
  last : Int
  firstPayout : Int
  lastPayout : Int
deriving Repr, DecidableEq

namespace Span

/-- A span must ascend from an outcome that is not negative, and the collateral must cover its
payouts. -/
def check (span : Span) (collateral : Int) : Except Failure Unit :=
  if span.last ≤ span.first then .error (.domain (.notAscending span.first span.last))
  else if span.first < 0 then .error (.domain (.negativeOutcome span.first))
  else if collateral < 0 then .error (.domain (.negativeCollateral collateral))
  else if span.firstPayout < 0 ∨ collateral < span.firstPayout then
    .error (.domain (.firstPayoutOutside span.firstPayout collateral))
  else if span.lastPayout < 0 ∨ collateral < span.lastPayout then
    .error (.domain (.lastPayoutOutside span.lastPayout collateral))
  else .ok ()

/-- The steps strictly inside a span. Arithmetic without a result means that no outcome can be
paid. -/
def interior (span : Span) (ctx : Context) (s : Stretch) : Except Failure (List PayoutRange) :=
  if span.last - span.first ≤ 1 then .ok []
  else
    match s.split ctx (span.first + 1) with
    | .error (.arithmetic signal) =>
        .error (.coverage (.arithmetic span.first span.last signal))
    | result => result

/-- The payout ranges of a span: the two ends pay what is given, and what lies between them pays
what the rounded curve pays, limited to what the collateral covers. -/
def split (span : Span) (collateral : Int) (curve : Curve) (policy : RoundingPolicy)
    (settings : Settings) : Except Failure (List PayoutRange) := do
  span.check collateral
  let ctx ← settings.context
  let steps ← span.interior ctx ⟨curve, policy, collateral, settings.scanSteps, span.last⟩
  return PayoutRange.merge
    (⟨span.first, span.first, span.firstPayout⟩ :: steps ++
      [⟨span.last, span.last, span.lastPayout⟩])

/-- The payout ranges of a span under a list of rounding intervals. The span is looked at before
the list. -/
def splitByIntervals (span : Span) (collateral : Int) (curve : Curve)
    (intervals : List RoundingInterval) (settings : Settings) :
    Except Failure (List PayoutRange) := do
  span.check collateral
  span.split collateral curve (← RoundingPolicy.ofList intervals) settings

end Span

end NumericContract
