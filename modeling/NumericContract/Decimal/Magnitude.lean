/-!
# Decimal digits of natural numbers

The digit count of a natural number and its quotients by powers of ten, rounded down, to the
nearest integer with a half upward, or to the nearest integer with a half to the even
neighbour. Quotients by powers far beyond the number are answered without forming the power.
-/

namespace NumericContract.Magnitude

def tenPower (k : Nat) : Nat := Nat.pow 10 k

theorem tenPower_succ (k : Nat) : tenPower (k + 1) = 10 * tenPower k := Nat.mul_comm _ _

theorem tenPower_pos (k : Nat) : 0 < tenPower k := Nat.pow_pos (by decide)

theorem lt_tenPower (k : Nat) : k < tenPower k := Nat.lt_pow_self (by decide)

theorem tenPower_le_tenPower {j k : Nat} (h : j ≤ k) : tenPower j ≤ tenPower k :=
  Nat.pow_le_pow_right (by decide) h

def digitCountFrom (n k : Nat) : Nat :=
  if n < tenPower k then k else digitCountFrom n (k + 1)
termination_by n - k
decreasing_by
  have := lt_tenPower k
  omega

/-- Number of decimal digits: the least `k` with `n < 10 ^ k`, so zero has none.
The climb starts just below the answer, since `10 ^ 1233 ≤ 2 ^ 4096`. -/
def digitCount (n : Nat) : Nat := digitCountFrom n (1233 * n.log2 / 4096)

theorem lt_tenPower_digitCountFrom (n k : Nat) : n < tenPower (digitCountFrom n k) := by
  fun_induction digitCountFrom n k with
  | case1 k h => exact h
  | case2 k h ih => exact ih

theorem lt_tenPower_digitCount (n : Nat) : n < tenPower (digitCount n) :=
  lt_tenPower_digitCountFrom n _

def divHalfEven (n d : Nat) : Nat :=
  if 2 * (n % d) < d then n / d
  else if d < 2 * (n % d) then n / d + 1
  else n / d + n / d % 2

def divHalfUp (n d : Nat) : Nat :=
  if 2 * (n % d) < d then n / d else n / d + 1

/-- `c · 10 ^ places`; zero stays zero whatever the power. -/
def shiftUp (c places : Nat) : Nat := if c = 0 then 0 else c * tenPower places

theorem shiftUp_eq (c places : Nat) : shiftUp c places = c * tenPower places := by
  unfold shiftUp
  split <;> simp_all

def shiftDown (c places : Nat) : Nat :=
  if digitCount c ≤ places then 0 else c / tenPower places

def dropsDigits (c places : Nat) : Bool :=
  if digitCount c ≤ places then c ≠ 0 else c % tenPower places ≠ 0

def shiftHalfEven (c places : Nat) : Nat :=
  if digitCount c < places then 0 else divHalfEven c (tenPower places)

def shiftHalfUp (c places : Nat) : Nat :=
  if digitCount c < places then 0 else divHalfUp c (tenPower places)

theorem lt_tenPower_of_digitCount_le {c places : Nat} (h : digitCount c ≤ places) :
    c < tenPower places :=
  Nat.lt_of_lt_of_le (lt_tenPower_digitCount c) (tenPower_le_tenPower h)

theorem shiftDown_eq (c places : Nat) : shiftDown c places = c / tenPower places := by
  unfold shiftDown
  split
  · next h => exact (Nat.div_eq_of_lt (lt_tenPower_of_digitCount_le h)).symm
  · rfl

theorem dropsDigits_eq (c places : Nat) :
    dropsDigits c places = decide (c % tenPower places ≠ 0) := by
  unfold dropsDigits
  split
  · next h => rw [Nat.mod_eq_of_lt (lt_tenPower_of_digitCount_le h)]
  · rfl

/-- A number with fewer digits than are dropped lies below a tenth of the divisor. -/
theorem ten_mul_lt_of_digitCount_lt {c places : Nat} (h : digitCount c < places) :
    10 * c < tenPower places := by
  have hc := lt_tenPower_digitCount c
  have hp := tenPower_le_tenPower h
  rw [tenPower_succ] at hp
  omega

theorem shiftHalfEven_eq (c places : Nat) :
    shiftHalfEven c places = divHalfEven c (tenPower places) := by
  unfold shiftHalfEven
  split
  · next h =>
    have hs := ten_mul_lt_of_digitCount_lt h
    have hlt : c < tenPower places := by omega
    simp only [divHalfEven, Nat.mod_eq_of_lt hlt, Nat.div_eq_of_lt hlt]
    rw [if_pos (by omega)]
  · rfl

theorem shiftHalfUp_eq (c places : Nat) :
    shiftHalfUp c places = divHalfUp c (tenPower places) := by
  unfold shiftHalfUp
  split
  · next h =>
    have hs := ten_mul_lt_of_digitCount_lt h
    have hlt : c < tenPower places := by omega
    simp only [divHalfUp, Nat.mod_eq_of_lt hlt, Nat.div_eq_of_lt hlt]
    rw [if_pos (by omega)]
  · rfl

theorem tenPower_add (j k : Nat) : tenPower (j + k) = tenPower j * tenPower k :=
  Nat.pow_add 10 j k

/-- Moves trailing zeros of the coefficient into the exponent, at most `limit` of them and less
than `2 ^ levels`, in steps that halve. -/
def stripZeros (c : Nat) (e : Int) (limit : Nat) : (levels : Nat) → Nat × Int
  | 0 => (c, e)
  | levels + 1 =>
      let step := Nat.pow 2 levels
      if step ≤ limit ∧ c % tenPower step = 0 then
        stripZeros (c / tenPower step) (e + step) (limit - step) levels
      else stripZeros c e limit levels

/-- The value `c · 10 ^ e` stays the same. -/
theorem stripZeros_eq (c : Nat) (e : Int) (limit levels : Nat) :
    ∃ k ≤ limit, c = (stripZeros c e limit levels).1 * tenPower k ∧
      (stripZeros c e limit levels).2 = e + k := by
  induction levels generalizing c e limit with
  | zero => exact ⟨0, Nat.zero_le limit, (Nat.mul_one c).symm, by simp [stripZeros]⟩
  | succ levels ih =>
      simp only [stripZeros]
      split
      · next h =>
        obtain ⟨k, hk, hc, he⟩ :=
          ih (c / tenPower (Nat.pow 2 levels)) (e + Nat.pow 2 levels) (limit - Nat.pow 2 levels)
        refine ⟨Nat.pow 2 levels + k, by omega, ?_, by rw [he]; omega⟩
        rw [Nat.add_comm, tenPower_add, ← Nat.mul_assoc, ← hc]
        exact (Nat.div_mul_cancel (Nat.dvd_of_mod_eq_zero h.2)).symm
      · exact ih c e limit

end NumericContract.Magnitude
