import NumericContract.Decimal.Arithmetic
import NumericContract.Failure

/-!
# Rounding policies

A contract rounds payouts to multiples of a modulus that may change with the outcome. Each
interval of a policy applies from its first outcome up to the next interval; of intervals with
the same first outcome the one listed last applies, and before the first interval nothing is
rounded. A payout is rounded to the nearest multiple, a half going to the higher one.
-/

namespace NumericContract

open Decimal

structure RoundingInterval where
  start : Int
  modulus : Int
  start_nonneg : 0 ≤ start
  modulus_pos : 0 < modulus
deriving Repr, DecidableEq

namespace RoundingInterval

/-- An interval from its parts, of which the start is looked at first. -/
def ofParts (start modulus : Int) : Except Failure RoundingInterval :=
  if hs : 0 ≤ start then
    if hm : 0 < modulus then .ok ⟨start, modulus, hs, hm⟩
    else .error (.rounding (.notPositive modulus))
  else .error (.rounding (.negativeBegin start))

def text (i : RoundingInterval) : String :=
  s!"RoundingInterval(begin_interval={i.start}, rounding_mod={i.modulus})"

def startsBy (i j : RoundingInterval) : Bool := i.start ≤ j.start

theorem startsBy_trans (i j k : RoundingInterval) : i.startsBy j → j.startsBy k → i.startsBy k := by
  simpa [startsBy] using Int.le_trans

theorem startsBy_total (i j : RoundingInterval) : (i.startsBy j || j.startsBy i) = true := by
  simpa [startsBy] using Int.le_total i.start j.start

end RoundingInterval

/-- Intervals in the order of their starts. -/
structure RoundingPolicy where
  intervals : List RoundingInterval
  nonempty : intervals ≠ []
  sorted : intervals.Pairwise (fun i j => i.start ≤ j.start)
deriving DecidableEq

namespace RoundingPolicy

theorem sorted_mergeSort (intervals : List RoundingInterval) :
    (intervals.mergeSort RoundingInterval.startsBy).Pairwise (fun i j => i.start ≤ j.start) := by
  have hsorted := List.pairwise_mergeSort RoundingInterval.startsBy_trans
    RoundingInterval.startsBy_total intervals
  simpa [RoundingInterval.startsBy] using hsorted

theorem mergeSort_ne_nil {intervals : List RoundingInterval} (h : intervals ≠ []) :
    intervals.mergeSort RoundingInterval.startsBy ≠ [] := by
  intro hs
  have perm := List.mergeSort_perm intervals RoundingInterval.startsBy
  rw [hs] at perm
  exact h (List.nil_perm.mp perm)

/-- The policy of some intervals in any order; intervals with the same start keep theirs. -/
def ofNonempty (intervals : List RoundingInterval) (h : intervals ≠ []) : RoundingPolicy :=
  ⟨intervals.mergeSort RoundingInterval.startsBy, mergeSort_ne_nil h, sorted_mergeSort intervals⟩

def ofList (intervals : List RoundingInterval) : Except Failure RoundingPolicy :=
  if h : intervals ≠ [] then .ok (ofNonempty intervals h) else .error (.rounding .noIntervals)

def text (policy : RoundingPolicy) : String :=
  "RoundingIntervals([" ++ ", ".intercalate (policy.intervals.map RoundingInterval.text) ++ "])"

/-- The modulus that applies to an outcome: that of the last interval that has started. -/
def modulusAt (policy : RoundingPolicy) (outcome : Int) : Int :=
  match (policy.intervals.takeWhile (·.start ≤ outcome)).getLast? with
  | some interval => interval.modulus
  | none => 1

/-- Where the modulus of an outcome ceases to apply, at most `upper`. -/
def segmentEnd (policy : RoundingPolicy) (outcome upper : Int) : Int :=
  match policy.intervals.find? (outcome < ·.start) with
  | some interval => min interval.start upper
  | none => upper

/-- The segment of an outcome: the modulus that applies to it and where this one ceases to apply. -/
def segmentAt (policy : RoundingPolicy) (outcome upper : Int) : Int × Int :=
  (policy.modulusAt outcome, policy.segmentEnd outcome upper)

theorem modulusAt_pos (policy : RoundingPolicy) (outcome : Int) :
    0 < policy.modulusAt outcome := by
  unfold modulusAt
  split
  · next interval _ => exact interval.modulus_pos
  · decide

theorem lt_segmentEnd (policy : RoundingPolicy) {outcome upper : Int} (h : outcome < upper) :
    outcome < policy.segmentEnd outcome upper := by
  unfold segmentEnd
  split
  · next interval hf =>
    have := List.find?_some hf
    simp only [decide_eq_true_eq] at this
    omega
  · exact h

theorem segmentEnd_le (policy : RoundingPolicy) (outcome upper : Int) :
    policy.segmentEnd outcome upper ≤ upper := by
  unfold segmentEnd
  split <;> omega

end RoundingPolicy

namespace Decimal

/-- The multiple of `modulus` nearest to a number, the higher one of two. -/
def Finite.nearestMultiple (ctx : Context) (x : Finite) (modulus : Int) : Except Signal Int := do
  let m := Finite.ofInt modulus
  let remainder ← x.rem ctx m
  let above ← if remainder.isNegative then remainder.add ctx m else pure remainder
  let low ← x.sub ctx above
  let high ← low.add ctx m
  let toHigh ← (← x.sub ctx high).abs ctx
  let toLow ← (← x.sub ctx low).abs ctx
  return (if toHigh.compare toLow = .gt then low else high).truncate

def roundToMultiple (ctx : Context) (payout : Decimal) (modulus : Int) : Except Failure Int :=
  match payout with
  | .finite x =>
      if modulus ≤ 0 then .error (.value (.modulusNotPositive modulus))
      else Failure.ofArithmetic (x.nearestMultiple ctx.widened modulus)
  | _ => .error (.value (.nonFinitePayout payout))

end Decimal

end NumericContract
