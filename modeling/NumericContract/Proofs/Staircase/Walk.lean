import NumericContract.Proofs.Staircase.Structure

/-!
# Walking along a monotone curve

A segment on which the payouts of a curve are monotone is split right if every inverse that the
walk asks for is placed right: no outcome between it and the current one has reached the payout,
and every outcome after it has. Then each range pays the rounded payout of each of its outcomes.
-/

namespace NumericContract

open Decimal PayoutRange

/-- The order of travel. -/
def Ahead {α : Type} [LE α] (ascending : Bool) (a b : α) : Prop :=
  if ascending then a ≤ b else b ≤ a

/-- Whether a payout is not yet at `y`. On the way up what equals `y` has reached it, on the way
down it has not left it. -/
def Near (ascending : Bool) (y q : ℚ) : Prop :=
  if ascending then q < y else y ≤ q

section Ahead

variable {α : Type} {ascending : Bool}

theorem Ahead.refl [Preorder α] (ascending : Bool) (a : α) : Ahead ascending a a := by
  cases ascending <;> exact le_rfl

theorem Ahead.antisymm [PartialOrder α] {a b : α} (h : Ahead ascending a b)
    (h' : Ahead ascending b a) : a = b := by
  cases ascending with
  | false => exact le_antisymm (show a ≤ b from h') (show b ≤ a from h)
  | true => exact le_antisymm (show a ≤ b from h) (show b ≤ a from h')

theorem Ahead.of_decide_ne {w w' : ℚ} (h : decide (w < w') ≠ ascending) : Ahead ascending w' w := by
  cases ascending with
  | false => exact le_of_lt (of_decide_eq_true (Bool.eq_true_of_not_eq_false h))
  | true => exact not_lt.mp (of_decide_eq_false (Bool.eq_false_of_not_eq_true h))

/-- Numbers that are told in the wrong order are no farther apart than the two errors. -/
theorem Ahead.abs_sub_le_of_swapped {a b w w' : ℚ} (h : Ahead ascending a b) (hw : Ahead ascending w' w) :
    |b - a| ≤ |w - a| + |w' - b| := by
  have herr := abs_le.mp (le_refl |w - a|)
  have herr' := abs_le.mp (le_refl |w' - b|)
  cases ascending with
  | false =>
      have hle : b ≤ a := h
      have hle' : w ≤ w' := hw
      rw [abs_of_nonpos (by linarith)]
      linarith
  | true =>
      have hle : a ≤ b := h
      have hle' : w' ≤ w := hw
      rw [abs_of_nonneg (by linarith)]
      linarith

end Ahead

theorem nearestMultiple_mono {m : ℤ} (hm : 0 < m) {p q : ℚ} (h : p ≤ q) :
    nearestMultiple m p ≤ nearestMultiple m q := by
  have hm' : (0 : ℚ) < m := by exact_mod_cast hm
  unfold nearestMultiple
  refine mul_le_mul_of_nonneg_left (Int.floor_le_floor ?_) hm.le
  have : p / m ≤ q / m := by gcongr
  linarith

/-- The halves that matter. The numbers whose inverses a walk asks for, levels and midpoints, are among
them. -/
def IsHalfInteger (q : ℚ) : Prop := ∃ j : ℤ, |j| ≤ 10 ^ 20 ∧ q = j / 2

/-- What a step yields, whether or not the walk goes on after it, pays `w`. -/
def Stride.Pays (w : ℤ → ℤ) : Stride → Prop
  | .finish ranges => PayoutRange.Pays w ranges
  | .onward r => PayoutRange.Pays w [r]

/-! ## Comparisons that rounding does not change -/

/-- Two numbers that compare alike with all halves that matter. -/
def Sharp (w v : ℚ) : Prop :=
  ∀ j : ℤ, |j| ≤ 10 ^ 20 → (w < j / 2 ↔ v < j / 2) ∧ ((j : ℚ) / 2 < w ↔ j / 2 < v)

theorem Sharp.refl (q : ℚ) : Sharp q q := fun _ _ => ⟨Iff.rfl, Iff.rfl⟩

theorem Sharp.symm {w v : ℚ} (h : Sharp w v) : Sharp v w :=
  fun j hj => ⟨(h j hj).1.symm, (h j hj).2.symm⟩

theorem Sharp.trans {u w v : ℚ} (h : Sharp u w) (h' : Sharp w v) : Sharp u v :=
  fun j hj => ⟨(h j hj).1.trans (h' j hj).1, (h j hj).2.trans (h' j hj).2⟩

theorem Sharp.of_between {a b q : ℚ} (h : Sharp a b) (haq : a ≤ q) (hqb : q ≤ b) : Sharp q a := by
  intro j hj
  obtain ⟨hbelow, habove⟩ := h j hj
  exact ⟨⟨haq.trans_lt, fun ha => hqb.trans_lt (hbelow.mp ha)⟩,
    ⟨fun hq => habove.mpr (hq.trans_le hqb), fun ha => ha.trans_le haq⟩⟩

theorem Sharp.of_le_swapped {a b w w' : ℚ} (h : Sharp w a) (h' : Sharp w' b) (hw : w' ≤ w) (hab : a ≤ b) :
    Sharp a b := by
  intro j hj
  refine ⟨⟨fun ha => ?_, hab.trans_lt⟩, ⟨fun ha => ha.trans_le hab, fun hb => ?_⟩⟩
  · exact (h' j hj).1.mp (hw.trans_lt ((h j hj).1.mpr ha))
  · exact (h j hj).2.mp (((h' j hj).2.mpr hb).trans_le hw)

/-- No half lies between two numbers that are told in the wrong order. -/
theorem Sharp.of_swapped {ascending : Bool} {a b q w w' : ℚ} (h : Sharp w a) (h' : Sharp w' b)
    (hw : Ahead ascending w' w) (haq : Ahead ascending a q) (hqb : Ahead ascending q b) : Sharp q a := by
  cases ascending with
  | false =>
      have haq : q ≤ a := haq
      have hqb : b ≤ q := hqb
      have hab := Sharp.of_le_swapped h' h hw (hqb.trans haq)
      exact (hab.of_between hqb haq).trans hab
  | true =>
      have haq : a ≤ q := haq
      have hqb : q ≤ b := hqb
      exact (Sharp.of_le_swapped h h' hw (haq.trans hqb)).of_between haq hqb

/-- A number that is nearer to another than any half that differs from that compares like it. -/
theorem sharp_of_gap {w v : ℚ} (gap : ℚ) (herr : |w - v| < gap)
    (hgap : ∀ j : ℤ, |j| ≤ 10 ^ 20 → v ≠ j / 2 → gap ≤ |v - j / 2|)
    (hexact : ∀ j : ℤ, |j| ≤ 10 ^ 20 → v = j / 2 → w = v) : Sharp w v := by
  intro j hj
  by_cases hv : v = j / 2
  · rw [hexact j hj hv]
    exact ⟨Iff.rfl, Iff.rfl⟩
  · have hg := hgap j hj hv
    have he := abs_lt.mp herr
    rcases lt_or_gt_of_ne hv with hlt | hgt
    · rw [abs_of_neg (by linarith)] at hg
      constructor <;> constructor <;> intro <;> linarith
    · rw [abs_of_pos (by linarith)] at hg
      constructor <;> constructor <;> intro <;> linarith

section Sharp

variable {w v y : ℚ} {ascending : Bool}

theorem Sharp.near_iff (h : Sharp w v) (hy : IsHalfInteger y) :
    Near ascending y w ↔ Near ascending y v := by
  obtain ⟨j, hj, rfl⟩ := hy
  obtain ⟨h1, h2⟩ := h j hj
  cases ascending with
  | false =>
      show (j : ℚ) / 2 ≤ w ↔ j / 2 ≤ v
      rw [← not_lt, ← not_lt, not_iff_not]
      exact h1
  | true => exact h1

theorem Sharp.intCast_lt_iff (h : Sharp w v) {k : ℤ} (hk : |k| ≤ 10 ^ 18) :
    ((k : ℚ) < w ↔ (k : ℚ) < v) ∧ (w < k ↔ v < k) := by
  obtain ⟨h1, h2⟩ := h (2 * k) (by rw [abs_mul]; norm_num; omega)
  rw [show ((2 * k : ℤ) : ℚ) / 2 = k by push_cast; ring] at h1 h2
  exact ⟨h2, h1⟩

theorem clamp_nearestMultiple_le {m c : ℤ}
    (h : ∀ k : ℤ, 0 ≤ m * k → m * k ≤ c → nearestMultiple m v ≤ m * k → nearestMultiple m w ≤ m * k)
    (hc : 0 ≤ c) : clampInt (nearestMultiple m w) 0 c ≤ clampInt (nearestMultiple m v) 0 c := by
  by_contra hlt
  have hpos : 0 < nearestMultiple m w ∧ nearestMultiple m v < c ∧
      nearestMultiple m v < nearestMultiple m w := by
    unfold clampInt at hlt
    omega
  rcases lt_or_ge (nearestMultiple m v) 0 with hneg | hnonneg
  · have := h 0 (by omega) (by omega) (by omega)
    omega
  · have hform : nearestMultiple m v = m * ⌊v / m + 1 / 2⌋ := rfl
    have := h ⌊v / m + 1 / 2⌋ (by omega) (by omega) (by omega)
    omega

theorem Sharp.clamp_eq (h : Sharp w v) {m c : ℤ} (hm : 0 < m) (hmb : m < 10 ^ 18) (hc : 0 ≤ c)
    (hcb : c < 10 ^ 19) :
    clampInt (nearestMultiple m w) 0 c = clampInt (nearestMultiple m v) 0 c := by
  have hiff : ∀ k : ℤ, 0 ≤ m * k → m * k ≤ c →
      (nearestMultiple m w ≤ m * k ↔ nearestMultiple m v ≤ m * k) := by
    intro k h0 hkc
    rw [nearestMultiple_le_iff hm, nearestMultiple_le_iff hm]
    have := (h (2 * (m * k) + m) (by rw [abs_of_nonneg (by omega)]; omega)).1
    rwa [show ((2 * (m * k) + m : ℤ) : ℚ) / 2 = m * k + m / 2 by push_cast; ring] at this
  refine le_antisymm (clamp_nearestMultiple_le ?_ hc) (clamp_nearestMultiple_le ?_ hc)
  · exact fun k h0 hkc => (hiff k h0 hkc).mpr
  · exact fun k h0 hkc => (hiff k h0 hkc).mp

end Sharp

namespace Segment

variable {ctx : Context} {s : Segment} {ascending : Bool} {current first last : ℤ} {L : ℤ} {p q : ℚ}
  {v : ℤ → ℚ}

def level (s : Segment) (q : ℚ) : ℤ := clampInt (nearestMultiple s.modulus q) 0 s.cap

theorem Sized.isLevel_level (hs : s.Sized) (q : ℚ) : s.IsLevel (s.level q) :=
  hs.isLevel_clamp (Int.dvd_mul_right _ _)

theorem level_ahead (hs : s.Sized) (h : Ahead ascending p q) :
    Ahead ascending (s.level p) (s.level q) := by
  cases ascending with
  | false =>
      have := nearestMultiple_mono hs.modulus_pos (show q ≤ p from h)
      show s.level q ≤ s.level p
      unfold level clampInt
      omega
  | true =>
      have := nearestMultiple_mono hs.modulus_pos (show p ≤ q from h)
      show s.level p ≤ s.level q
      unfold level clampInt
      omega

theorem IsLevel.ahead_lastLevel (hl : s.IsLevel L) (ascending : Bool) :
    Ahead ascending L (s.lastLevel ascending) := by
  cases ascending with
  | false => exact hl.nonneg
  | true => exact hl.le_cap

/-- A number is on the near side of the midpoint after a level if its own level is not beyond. -/
theorem near_midpoint_iff (hs : s.Sized) (hl : s.IsLevel L) (hne : L ≠ s.lastLevel ascending) :
    Near ascending (L + s.step ascending / 2) q ↔ Ahead ascending (s.level q) L := by
  obtain ⟨k, hk⟩ := hl.dvd
  have hm := hs.modulus_pos
  have h0 := hl.nonneg
  have hc := hl.le_cap
  cases ascending with
  | false =>
      have hne' : L ≠ 0 := hne
      have hstep := nearestMultiple_le_iff (q := q) hm (k - 1)
      have hmul : s.modulus ∣ nearestMultiple s.modulus q := Int.dvd_mul_right _ _
      have hgap : nearestMultiple s.modulus q < L → nearestMultiple s.modulus q + s.modulus ≤ L :=
        add_modulus_le hmul hl.dvd
      have hprev : s.modulus * (k - 1) = L - s.modulus := by rw [hk]; ring
      have hcast : ((s.modulus : ℚ) * ((k - 1 : ℤ) : ℚ)) = L - s.modulus := by exact_mod_cast hprev
      rw [hprev, hcast] at hstep
      have hlevel : Ahead false (s.level q) L ↔ ¬nearestMultiple s.modulus q ≤ L - s.modulus := by
        show L ≤ s.level q ↔ _
        unfold level clampInt
        omega
      rw [hlevel, hstep]
      show L + ((-s.modulus : ℤ) : ℚ) / 2 ≤ q ↔ _
      push_cast
      constructor
      · intro h h'
        linarith
      · intro h
        rw [not_lt] at h
        linarith
  | true =>
      have hne' : L ≠ s.cap := hne
      have hstep := nearestMultiple_le_iff (q := q) hm k
      have hcast : ((s.modulus : ℚ) * (k : ℚ)) = L := by exact_mod_cast hk.symm
      rw [← hk, hcast] at hstep
      have hlevel : Ahead true (s.level q) L ↔ nearestMultiple s.modulus q ≤ L := by
        show s.level q ≤ L ↔ _
        unfold level clampInt
        omega
      rw [hlevel, hstep]
      exact Iff.rfl

theorem ahead_next_of_not_near (hs : s.Sized) (hl : s.IsLevel L) (hne : L ≠ s.lastLevel ascending)
    (h : ¬Near ascending (L + s.step ascending / 2) q) :
    Ahead ascending (L + s.step ascending) (s.level q) := by
  rw [near_midpoint_iff hs hl hne] at h
  have hq := hs.isLevel_level q
  cases ascending with
  | false =>
      have hlt : s.level q < L := not_le.mp h
      have := add_modulus_le hq.dvd hl.dvd hlt
      show s.level q ≤ L + -s.modulus
      omega
  | true =>
      have hlt : L < s.level q := not_le.mp h
      exact add_modulus_le hl.dvd hq.dvd hlt

theorem near_midpoint_of_near (hs : s.Sized) (h : Near ascending L q) :
    Near ascending (L + s.step ascending / 2) q := by
  have hm : (0 : ℚ) < s.modulus := by exact_mod_cast hs.modulus_pos
  cases ascending with
  | false =>
      have h' : (L : ℚ) ≤ q := h
      show L + ((-s.modulus : ℤ) : ℚ) / 2 ≤ q
      push_cast
      linarith
  | true =>
      have h' : q < L := h
      show q < L + (s.modulus : ℚ) / 2
      linarith

theorem near_next_of_near (hs : s.Sized) (h : Near ascending (L + s.step ascending / 2) q) :
    Near ascending (L + s.step ascending : ℤ) q := by
  have hm : (0 : ℚ) < s.modulus := by exact_mod_cast hs.modulus_pos
  cases ascending with
  | false =>
      have h' : L + ((-s.modulus : ℤ) : ℚ) / 2 ≤ q := h
      show ((L + -s.modulus : ℤ) : ℚ) ≤ q
      push_cast at h' ⊢
      linarith
  | true =>
      have h' : q < L + (s.modulus : ℚ) / 2 := h
      show q < ((L + s.modulus : ℤ) : ℚ)
      push_cast
      linarith

theorem Sized.pay_lastLevel (hs : s.Sized) (ascending : Bool) :
    s.pay (s.lastLevel ascending) = if ascending then s.collateral else 0 := by
  unfold pay lastLevel
  split
  · exact min_eq_right hs.collateral_le_cap
  · exact min_eq_left hs.collateral_nonneg

theorem IsLevel.pay_inj {L' : ℤ} (hl : s.IsLevel L) (hl' : s.IsLevel L') (hs : s.Sized) :
    s.pay L = s.pay L' ↔ L = L' := by
  refine ⟨fun h => ?_, fun h => h ▸ rfl⟩
  have hcap := hs.cap_lt
  have hc := hl.le_cap
  have hc' := hl'.le_cap
  unfold pay at h
  by_contra hne
  rcases lt_or_gt_of_ne hne with hlt | hlt
  · have := add_modulus_le hl.dvd hl'.dvd hlt
    omega
  · have := add_modulus_le hl'.dvd hl.dvd hlt
    omega

theorem Sized.isLevel_lastLevel (hs : s.Sized) (ascending : Bool) : s.IsLevel (s.lastLevel ascending) := by
  cases ascending with
  | false => exact hs.isLevel_zero
  | true => exact hs.isLevel_cap

theorem Sized.step_ne_zero (hs : s.Sized) (ascending : Bool) : s.step ascending ≠ 0 := by
  have := hs.modulus_pos
  unfold step
  split <;> omega

/-! ## Segments on which a curve is followed -/

/-- Where an inverse stands among the outcomes from `current` on: before it `y` is not reached, and
after it it is. An inverse below `current`, or none, says that `y` is never reached. -/
def Places (ascending : Bool) (v : ℤ → ℚ) (y : ℚ) (current stop : ℤ) : Option ℤ → Prop
  | none => ∀ x, current ≤ x → x < stop → Near ascending y (v x)
  | some c => ∀ x, current ≤ x → x < stop →
      (c < current ∨ x < c → Near ascending y (v x)) ∧
        (current ≤ c → c < x → ¬Near ascending y (v x))

/-- From `first` on the segment pays what compares like `v`, which is monotone. -/
structure Tracks (ctx : Context) (s : Segment) (ascending : Bool) (v : ℤ → ℚ) (first : ℤ) : Prop where
  evaluate : ∀ x, first ≤ x → x ≤ s.stop →
    ∃ z : Decimal.Finite, s.curve.evaluate ctx x = .ok (.finite z) ∧ Sharp z.value (v x) ∧
      |z.value| ≤ 10 ^ 70
  monotone : ∀ x x', first ≤ x → x ≤ x' → x' ≤ s.stop → Ahead ascending (v x) (v x')

/-- The inverse of `y` is placed right, and the curve has a payout there. -/
def Placed (ctx : Context) (s : Segment) (ascending : Bool) (v : ℤ → ℚ) (y : Decimal.Finite)
    (current : ℤ) : Prop :=
  ∃ c?, s.curve.invert ctx (.finite y) = .ok c? ∧ Places ascending v y.value current s.stop c? ∧
    ∀ c ∈ c?, ∃ value, s.curve.evaluate ctx c = .ok value ∧ value.isNaN = false

/-- From `first` on every inverse that a walk asks for is placed right. -/
structure Follows (ctx : Context) (s : Segment) (ascending : Bool) (v : ℤ → ℚ) (first : ℤ) : Prop
    extends Tracks ctx s ascending v first where
  placed : ∀ (y : Decimal.Finite) current, first ≤ current → current < s.stop →
    IsHalfInteger y.value → Near ascending y.value (v current) →
    s.Placed ctx ascending v y current

/-- What is known of the test whether a level is reached: if it fails, nothing has passed it. -/
def Settled (ctx : Context) (s : Segment) (ascending : Bool) (v : ℤ → ℚ) (L current : ℤ) : Prop :=
  ∃ b, s.reaches ctx L = .ok b ∧ (b = false → L = 0 ∨ L = s.cap ∨
    ∀ x, current ≤ x → x < s.stop → Near ascending L (v x))

theorem levelOf_eq (hs : s.Sized) {x : Decimal.Finite} (hx : ctx.widened.Representable x.value)
    (hsize : |x.value| ≤ 10 ^ 70) : s.levelOf ctx (.finite x) = .ok (s.level x.value) := by
  have hwide : 78 ≤ ctx.widened.precision := le_max_left _ _
  obtain ⟨k, hk⟩ := Decimal.Finite.nearestMultiple_succeeds hwide hsize hs.modulus_pos hs.modulus_lt
  have hround : roundToMultiple ctx (.finite x) s.modulus = .ok k := by
    simp only [roundToMultiple]
    rw [if_neg (by have := hs.modulus_pos; omega), hk]
    rfl
  have hlevel : s.levelOf ctx (.finite x) = .ok (clampInt k 0 s.cap) :=
    bind_eq_ok.mpr ⟨k, hround, rfl⟩
  rw [hlevel, levelOf_finite hs hx hlevel]
  rfl

theorem curvePayout_eq {value : Decimal} (h : s.curve.evaluate ctx current = .ok value)
    (hn : value.isNaN = false) : s.curvePayout ctx current = .ok value := by
  refine bind_eq_ok.mpr ⟨value, ?_, ?_⟩
  · exact Failure.ofArithmetic_eq_ok.mpr h
  · rw [hn]
    rfl

theorem Sized.level_eq_of_sharp (hs : s.Sized) (h : Sharp p q) : s.level p = s.level q := by
  have hcap := hs.cap_lt
  have hm := hs.modulus_lt
  have hc := hs.collateral_lt
  exact h.clamp_eq hs.modulus_pos hm hs.cap_nonneg (by omega)

theorem Tracks.levelAt (h : s.Tracks ctx ascending v first) (hs : s.Sized) (hx : first ≤ current)
    (hstop : current ≤ s.stop) : s.levelAt ctx current = .ok (s.level (v current)) := by
  obtain ⟨z, hz, hv, hsize⟩ := h.evaluate current hx hstop
  rw [← hs.level_eq_of_sharp hv]
  exact bind_eq_ok.mpr ⟨_, curvePayout_eq hz rfl, levelOf_eq hs (Curve.representable_evaluate hz) hsize⟩

theorem midpoint_eq (ctx : Context) {step : ℤ} (hL : |L| ≤ 10 ^ 19) (hstep : |step| < 10 ^ 18) :
    ∃ y : Decimal.Finite, midpoint ctx L step = .ok (.finite y) ∧ y.value = L + step / 2 := by
  have hp : (10 : ℤ) ^ 28 ≤ 10 ^ ctx.precision := pow_le_pow_right₀ (by norm_num) ctx.precision_wide
  have hstep' : |(step : ℚ)| < 10 ^ 18 := by exact_mod_cast hstep
  have hL' : |(L : ℚ)| ≤ 10 ^ 19 := by exact_mod_cast hL
  rw [abs_lt] at hstep hstep'
  rw [abs_le] at hL hL'
  have hhalf : ctx.Representable ((step : ℚ) / 2) := by
    have := Context.Representable.div_pow (k := 5 * step) (j := 1) (by decide)
      (show |5 * step| < 10 ^ ctx.precision by rw [abs_lt]; constructor <;> linarith)
    rwa [show ((5 * step : ℤ) : ℚ) / 10 ^ 1 = step / 2 by push_cast; ring] at this
  have hsum : ctx.Representable ((L : ℚ) + step / 2) := by
    have := Context.Representable.div_pow (k := 10 * L + 5 * step) (j := 1) (by decide)
      (show |10 * L + 5 * step| < 10 ^ ctx.precision by rw [abs_lt]; constructor <;> linarith)
    rwa [show ((10 * L + 5 * step : ℤ) : ℚ) / 10 ^ 1 = L + step / 2 by push_cast; ring] at this
  have hdiv := Decimal.Finite.div_computes ctx (.ofInt step) (y := .ofInt 2) rfl
  rw [Decimal.Finite.value_ofInt, Decimal.Finite.value_ofInt, Int.cast_ofNat] at hdiv
  obtain ⟨half, hh, hhv⟩ := hdiv.exact hhalf (by rw [abs_le]; constructor <;> linarith)
  have hadd := Decimal.Finite.add_computes ctx (.ofInt L) half
  rw [Decimal.Finite.value_ofInt, hhv] at hadd
  obtain ⟨y, hy, hyv⟩ := hadd.exact hsum (by rw [abs_le]; constructor <;> linarith)
  exact ⟨y, bind_eq_ok.mpr ⟨half, hh, bind_eq_ok.mpr ⟨y, hy, rfl⟩⟩, hyv⟩

/-! ## Boundaries -/

/-- Whether the payout at an inverse has crossed the payout that was inverted. -/
def crossed (ascending : Bool) (value : Decimal) (y : Decimal.Finite) : Except Signal Bool :=
  if ascending then value.ge (.finite y) else value.lt (.finite y)

theorem crossed_finite (ascending : Bool) (x y : Decimal.Finite) :
    ∃ b, crossed ascending (.finite x) y = .ok b ∧ (b = true ↔ ¬Near ascending y.value x.value) := by
  cases ascending with
  | false =>
      refine ⟨_, lt_finite x y, ?_⟩
      rw [decide_eq_true_eq]
      exact not_le.symm
  | true =>
      refine ⟨_, ge_finite x y, ?_⟩
      rw [decide_eq_true_eq]
      exact not_lt.symm

theorem crossed_succeeds (ascending : Bool) {value : Decimal} (y : Decimal.Finite)
    (h : value.isNaN = false) : ∃ b, crossed ascending value y = .ok b := by
  cases value with
  | finite x =>
      obtain ⟨b, hb, -⟩ := crossed_finite ascending x y
      exact ⟨b, hb⟩
  | infinity negative => cases ascending <;> exact ⟨_, rfl⟩
  | nan => cases h

theorem boundary_eq {y : Decimal.Finite} {c : ℤ} {value : Decimal} {b : Bool}
    (hinv : s.curve.invert ctx (.finite y) = .ok (some c)) (hval : s.curve.evaluate ctx c = .ok value)
    (hn : value.isNaN = false) (hb : crossed ascending value y = .ok b) :
    s.boundary ctx (.finite y) ascending = .ok (some (if b then c - 1 else c)) := by
  refine bind_eq_ok.mpr ⟨_, hinv, ?_⟩
  refine bind_eq_ok.mpr ⟨value, Failure.ofArithmetic_eq_ok.mpr hval, ?_⟩
  rw [hn]
  cases ascending with
  | false => exact bind_eq_ok.mpr ⟨b, Failure.ofArithmetic_eq_ok.mpr hb, rfl⟩
  | true => exact bind_eq_ok.mpr ⟨b, Failure.ofArithmetic_eq_ok.mpr hb, rfl⟩

/-- The payout at an inverse decides on which side it stands itself. -/
theorem Places.near_iff {q : ℚ} {c stop : ℤ} {b : Bool} (h : Places ascending v q current stop (some c))
    (hle : current ≤ c) (hnear : Near ascending q (v current)) (hb : b = true ↔ ¬Near ascending q (v c)) :
    (current ≤ if b then c - 1 else c) ∧ ∀ x, current ≤ x → x < stop →
      (Near ascending q (v x) ↔ x ≤ if b then c - 1 else c) := by
  cases b with
  | true =>
      have hc : ¬Near ascending q (v c) := hb.mp rfl
      have hne : c ≠ current := fun he => hc (he ▸ hnear)
      simp only [if_true]
      refine ⟨by omega, fun x hx hxs => ⟨fun hxn => ?_, fun hxc => (h x hx hxs).1 (Or.inr (by omega))⟩⟩
      by_contra hgt
      rcases eq_or_lt_of_le (show c ≤ x by omega) with he | hlt
      · exact hc (he ▸ hxn)
      · exact (h x hx hxs).2 hle hlt hxn
  | false =>
      have hc : Near ascending q (v c) := not_not.mp (mt hb.mpr (by simp))
      simp only [Bool.false_eq_true, if_false]
      refine ⟨hle, fun x hx hxs => ⟨fun hxn => ?_, fun hxc => ?_⟩⟩
      · by_contra hgt
        exact (h x hx hxs).2 hle (by omega) hxn
      · rcases eq_or_lt_of_le hxc with he | hlt
        · exact he ▸ hc
        · exact (h x hx hxs).1 (Or.inr hlt)

/-- The boundary is the last outcome that has not reached the midpoint; one below the current
outcome, or none, says that there is no other kind. -/
theorem Tracks.boundary (h : s.Tracks ctx ascending v first) (hcur : first ≤ current)
    {y : Decimal.Finite} (hy : IsHalfInteger y.value) (hnear : Near ascending y.value (v current))
    (hplaced : s.Placed ctx ascending v y current) :
    ∃ b?, s.boundary ctx (.finite y) ascending = .ok b? ∧ ∀ x, current ≤ x → x < s.stop →
      (Near ascending y.value (v x) ↔ ∀ last ∈ b?, current ≤ last → x ≤ last) := by
  obtain ⟨c?, hinv, hplaces, hvalue⟩ := hplaced
  cases c? with
  | none =>
      refine ⟨none, bind_eq_ok.mpr ⟨none, hinv, rfl⟩, fun x hx hxs => ?_⟩
      simp [hplaces x hx hxs]
  | some c =>
      obtain ⟨value, hval, hn⟩ := hvalue c rfl
      by_cases hin : current ≤ c ∧ c < s.stop
      · obtain ⟨z, hz, hzv, -⟩ := h.evaluate c (hcur.trans hin.1) hin.2.le
        obtain ⟨b, hb, hbn⟩ := crossed_finite ascending z y
        rw [hzv.near_iff hy] at hbn
        obtain ⟨hlast, hside⟩ := hplaces.near_iff hin.1 hnear hbn
        refine ⟨_, boundary_eq hinv hz rfl hb, fun x hx hxs => ?_⟩
        rw [hside x hx hxs]
        simp only [Option.mem_def, Option.some.injEq, forall_eq']
        exact ⟨fun hle _ => hle, fun hle => hle hlast⟩
      · -- every outcome of the segment is on the near side
        obtain ⟨b, hb⟩ := crossed_succeeds ascending y hn
        refine ⟨_, boundary_eq hinv hval hn hb, fun x hx hxs => ?_⟩
        have hxn : Near ascending y.value (v x) := (hplaces x hx hxs).1 (by omega)
        simp only [hxn, Option.mem_def, Option.some.injEq, forall_eq', true_iff]
        split <;> omega

theorem IsLevel.next_inside (hl : s.IsLevel L) (hs : s.Sized)
    (hnext : L + s.step ascending ≠ s.lastLevel ascending) :
    ¬(L + s.step ascending = 0 ∨ L + s.step ascending = s.cap) := by
  have hm := hs.modulus_pos
  have h0 := hl.nonneg
  have hc := hl.le_cap
  cases ascending with
  | false =>
      simp only [step, lastLevel, Bool.false_eq_true, if_false] at hnext ⊢
      omega
  | true =>
      simp only [step, lastLevel, if_true] at hnext ⊢
      omega

theorem reaches_eq {c? : Option ℤ} (hL : ¬(L = 0 ∨ L = s.cap))
    (hinv : s.curve.invert ctx (.ofInt L) = .ok c?) :
    s.reaches ctx L = .ok (c?.any (· < s.stop)) := by
  unfold Segment.reaches
  rw [if_neg hL, hinv]
  cases c? <;> rfl

theorem settled_of_end (hL : L = 0 ∨ L = s.cap) : s.Settled ctx ascending v L current := by
  refine ⟨false, ?_, by tauto⟩
  unfold Segment.reaches
  rw [if_pos hL]
  rfl

theorem isHalfInteger_ofInt (hL : |L| ≤ 5 * 10 ^ 18) : IsHalfInteger (Decimal.Finite.ofInt L).value := by
  refine ⟨2 * L, ?_, ?_⟩
  · rw [abs_mul]
    norm_num
    omega
  · rw [Finite.value_ofInt]
    push_cast
    ring

theorem Placed.settled (h : s.Placed ctx ascending v (.ofInt L) current) :
    s.Settled ctx ascending v L current := by
  by_cases hend : L = 0 ∨ L = s.cap
  · exact settled_of_end hend
  · obtain ⟨c?, hinv, hplaces, -⟩ := h
    rw [Finite.value_ofInt] at hplaces
    refine ⟨_, reaches_eq hend hinv, fun hc => Or.inr (Or.inr fun x hx hxs => ?_)⟩
    cases c? with
    | none => exact hplaces x hx hxs
    | some c =>
        have hc : s.stop ≤ c := by simpa using hc
        exact (hplaces x hx hxs).1 (by omega)

/-! ## Climbing -/

theorem Sized.abs_level_le (hs : s.Sized) (hl : s.IsLevel L) : |L| ≤ 2 * 10 ^ 18 := by
  have := hs.cap_lt
  have := hs.modulus_lt
  have := hs.collateral_lt
  have := hl.le_cap
  rw [abs_of_nonneg hl.nonneg]
  omega

theorem Sized.abs_step_lt (hs : s.Sized) (ascending : Bool) : |s.step ascending| < 10 ^ 18 := by
  have := hs.modulus_pos
  have := hs.modulus_lt
  unfold step
  rw [abs_lt]
  split <;> omega

theorem Tracks.level_ahead (h : s.Tracks ctx ascending v first) (hs : s.Sized)
    (hcur : first ≤ current) {x : ℤ} (hx : current ≤ x) (hxs : x < s.stop) :
    Ahead ascending (s.level (v current)) (s.level (v x)) :=
  Segment.level_ahead hs (h.monotone current x hcur hx hxs.le)

theorem pays_of_level_eq {a b : ℤ} (h : ∀ x, a ≤ x → x ≤ b → s.level (v x) = L) :
    Pays (fun x => s.pay (s.level (v x))) [⟨a, b, s.pay L⟩] := by
  intro r hr x hx hxb
  rw [List.mem_singleton.mp hr] at hx hxb ⊢
  simp only [h x hx hxb]

/-- Beyond the boundary of a level whose next one is not reached, everything has the next level. -/
theorem level_eq_next (hs : s.Sized) {q : ℚ} (hl : s.IsLevel L)
    (hne : L ≠ s.lastLevel ascending) (hq : ¬Near ascending (L + s.step ascending / 2) q)
    (hnext : L + s.step ascending = 0 ∨ L + s.step ascending = s.cap ∨
      Near ascending (L + s.step ascending : ℤ) q) : s.level q = L + s.step ascending := by
  have hnl := hl.next hs hne
  refine Ahead.antisymm ?_ (ahead_next_of_not_near hs hl hne hq)
  by_cases hlast : L + s.step ascending = s.lastLevel ascending
  · rw [hlast]
    exact (hs.isLevel_level q).ahead_lastLevel ascending
  · rw [← near_midpoint_iff hs hnl hlast]
    have hinside := hl.next_inside hs hlast
    exact near_midpoint_of_near hs
      ((hnext.resolve_left (mt Or.inl hinside)).resolve_left (mt Or.inr hinside))

/-- While a midpoint is not reached the level stays. -/
theorem Tracks.level_eq_of_near (h : s.Tracks ctx ascending v first) (hs : s.Sized)
    (hcur : first ≤ current) (hlast : s.level (v current) ≠ s.lastLevel ascending) {y : ℚ}
    (hy : y = s.level (v current) + s.step ascending / 2) {x : ℤ} (hx : current ≤ x)
    (hxs : x < s.stop) (hnear : Near ascending y (v x)) : s.level (v x) = s.level (v current) := by
  rw [hy, near_midpoint_iff hs (hs.isLevel_level _) hlast] at hnear
  exact Ahead.antisymm hnear (h.level_ahead hs hcur hx hxs)

/-- After the midpoint of a level whose next one is not passed, the rest is rightly paid that level. -/
theorem pays_rest_of_passed (hs : s.Sized) (hl : s.IsLevel L) (hne : L ≠ s.lastLevel ascending) {y : ℚ}
    (hy : y = L + s.step ascending / 2) {last : ℤ} (hle : current ≤ last)
    (hpassed : ∀ x, last < x → x < s.stop → ¬Near ascending y (v x))
    (hnext : L + s.step ascending = 0 ∨ L + s.step ascending = s.cap ∨
      ∀ x, current ≤ x → x < s.stop → Near ascending (L + s.step ascending : ℤ) (v x)) :
    Pays (fun x => s.pay (s.level (v x))) [s.rest (last + 1) (L + s.step ascending)] := by
  refine pays_of_level_eq fun x hx hxs => level_eq_next hs hl hne ?_ ?_
  · rw [← hy]
    exact hpassed x (by omega) (by omega)
  · exact hnext.imp_right (Or.imp_right fun hall => hall x (by omega) (by omega))

theorem stride_eq {y : Decimal} {b? : Option ℤ} (hne : L ≠ s.lastLevel ascending)
    (hmid : midpoint ctx L (s.step ascending) = .ok y) (hb : s.boundary ctx y ascending = .ok b?) :
    s.stride ctx ascending current L = s.strideTo ctx ascending current L b? := by
  unfold Segment.stride
  rw [if_neg hne, hmid]
  exact bind_of_ok hb _

theorem Tracks.stride_of_last (h : s.Tracks ctx ascending v first) (hs : s.Sized)
    (hcur : first ≤ current) (hlast : s.level (v current) = s.lastLevel ascending) :
    ∃ ranges, s.stride ctx ascending current (s.level (v current)) = .ok (.finish ranges) ∧
      Pays (fun x => s.pay (s.level (v x))) ranges := by
  refine ⟨[s.rest current (s.level (v current))], ?_, pays_of_level_eq fun x hx hxs => ?_⟩
  · unfold Segment.stride
    rw [if_pos hlast]
    rfl
  · refine Ahead.antisymm ?_ (h.level_ahead hs hcur hx (by omega))
    rw [hlast]
    exact (hs.isLevel_level (v x)).ahead_lastLevel ascending

theorem exists_midpoint (ctx : Context) (hs : s.Sized) (hlast : s.level q ≠ s.lastLevel ascending) :
    ∃ y : Decimal.Finite, midpoint ctx (s.level q) (s.step ascending) = .ok (.finite y) ∧
      y.value = s.level q + s.step ascending / 2 ∧ IsHalfInteger y.value ∧ Near ascending y.value q := by
  have hl := hs.isLevel_level q
  have hL := hs.abs_level_le hl
  have hstep := hs.abs_step_lt ascending
  obtain ⟨y, hmid, hy⟩ := midpoint_eq ctx (hL.trans (by norm_num)) hstep
  refine ⟨y, hmid, hy, ⟨2 * s.level q + s.step ascending, ?_, ?_⟩, ?_⟩
  · have := abs_add_le (2 * s.level q) (s.step ascending)
    rw [abs_mul] at this
    norm_num at this ⊢
    omega
  · rw [hy]
    push_cast
    ring
  · rw [hy, near_midpoint_iff hs hl hlast]
    exact Ahead.refl ascending _

theorem midpoint_inv (hs : s.Sized) (hlast : s.level q ≠ s.lastLevel ascending) {middle : Decimal}
    (hmid : midpoint ctx (s.level q) (s.step ascending) = .ok middle) :
    ∃ y : Decimal.Finite, middle = .finite y ∧ y.value = s.level q + s.step ascending / 2 ∧
      IsHalfInteger y.value ∧ Near ascending y.value q := by
  obtain ⟨y, hmid', hy⟩ := exists_midpoint ctx hs hlast
  exact ⟨y, Except.ok.inj (hmid.symm.trans hmid'), hy⟩

theorem near_next (hs : s.Sized) (hlast : s.level q ≠ s.lastLevel ascending) :
    Near ascending (s.level q + s.step ascending : ℤ) q := by
  refine near_next_of_near hs ?_
  rw [near_midpoint_iff hs (hs.isLevel_level q) hlast]
  exact Ahead.refl ascending _

theorem Sized.abs_next_le (hs : s.Sized) (hl : s.IsLevel L) (ascending : Bool) :
    |L + s.step ascending| ≤ 5 * 10 ^ 18 := by
  have h1 := hs.abs_level_le hl
  have h2 := hs.abs_step_lt ascending
  rw [abs_le] at h1 ⊢
  rw [abs_lt] at h2
  omega

/-- A step that ends at the right boundary pays what is right. -/
theorem Tracks.strideTo (h : s.Tracks ctx ascending v first) (hs : s.Sized) (hcur : first ≤ current)
    (hlast : s.level (v current) ≠ s.lastLevel ascending) {y : ℚ}
    (hy : y = s.level (v current) + s.step ascending / 2) {b? : Option ℤ}
    (hside : ∀ x, current ≤ x → x < s.stop →
      (Near ascending y (v x) ↔ ∀ last ∈ b?, current ≤ last → x ≤ last))
    (hsettled : s.Settled ctx ascending v (s.level (v current) + s.step ascending) current) :
    ∃ stride, s.strideTo ctx ascending current (s.level (v current)) b? = .ok stride ∧
      stride.Pays fun x => s.pay (s.level (v x)) := by
  have hlevel := fun x => h.level_eq_of_near hs hcur hlast hy (x := x)
  cases b? with
  | none =>
      refine ⟨_, rfl, pays_of_level_eq fun x hx hxs => hlevel x hx (by omega) ?_⟩
      exact (hside x hx (by omega)).mpr (by simp)
  | some last =>
      simp only [Option.mem_def, Option.some.injEq, forall_eq'] at hside
      simp only [Segment.strideTo]
      by_cases houtside : last < current ∨ s.stop - 1 ≤ last
      · rw [if_pos houtside]
        refine ⟨_, rfl, pays_of_level_eq fun x hx hxs => hlevel x hx (by omega) ?_⟩
        exact (hside x hx (by omega)).mpr (by omega)
      obtain ⟨reached, hreaches, hnext⟩ := hsettled
      rw [if_neg houtside, hreaches]
      have hpays : Pays (fun x => s.pay (s.level (v x))) [⟨current, last, s.pay (s.level (v current))⟩] :=
        pays_of_level_eq fun x hx hxs => hlevel x hx (by omega) ((hside x hx (by omega)).mpr fun _ => hxs)
      cases reached with
      | true => exact ⟨_, rfl, hpays⟩
      | false =>
          refine ⟨_, rfl, hpays.append (pays_rest_of_passed hs (hs.isLevel_level _) hlast hy
            (show current ≤ last by omega) (fun x hx hxs => ?_) (hnext rfl))⟩
          rw [hside x (by omega) hxs]
          omega

/-- The step from an outcome pays the rounded payout of every outcome that it covers. -/
def StepsRight (ctx : Context) (s : Segment) (ascending : Bool) (v : ℤ → ℚ) (current : ℤ) : Prop :=
  ∃ stride, s.stride ctx ascending current (s.level (v current)) = .ok stride ∧
    stride.Pays fun x => s.pay (s.level (v x))

/-- A step is right if the inverse of the midpoint is placed right. -/
theorem Tracks.stepsRight (h : s.Tracks ctx ascending v first) (hs : s.Sized) (hcur : first ≤ current)
    (hplaced : ∀ y : Decimal.Finite,
      midpoint ctx (s.level (v current)) (s.step ascending) = .ok (.finite y) →
      IsHalfInteger y.value → Near ascending y.value (v current) →
      s.Placed ctx ascending v y current)
    (hsettled : s.level (v current) ≠ s.lastLevel ascending →
      s.Settled ctx ascending v (s.level (v current) + s.step ascending) current) :
    s.StepsRight ctx ascending v current := by
  by_cases hlast : s.level (v current) = s.lastLevel ascending
  · obtain ⟨ranges, hstride, hpays⟩ := h.stride_of_last hs hcur hlast
    exact ⟨.finish ranges, hstride, hpays⟩
  · obtain ⟨y, hmid, hy, hhalf, hnear⟩ := exists_midpoint ctx hs hlast
    obtain ⟨b?, hb, hside⟩ := h.boundary hcur hhalf hnear (hplaced y hmid hhalf hnear)
    obtain ⟨stride, hto, hpays⟩ := h.strideTo hs hcur hlast hy hside (hsettled hlast)
    exact ⟨stride, (stride_eq hlast hmid hb).trans hto, hpays⟩

theorem Follows.stepsRight (h : s.Follows ctx ascending v first) (hs : s.Sized) (hcur : first ≤ current)
    (hlt : current < s.stop) : s.StepsRight ctx ascending v current := by
  refine h.toTracks.stepsRight hs hcur (fun y _ hy hnear => h.placed y current hcur hlt hy hnear) ?_
  intro hlast
  have hl := hs.isLevel_level (v current)
  refine (h.placed _ current hcur hlt (isHalfInteger_ofInt (hs.abs_next_le hl ascending)) ?_).settled
  rw [Finite.value_ofInt]
  exact near_next hs hlast

theorem climb_of_finish {ranges : List PayoutRange}
    (h : s.stride ctx ascending current L = .ok (.finish ranges)) :
    s.climb ctx ascending current L = .ok ranges := by
  rw [Segment.climb]
  split <;> rename_i hstride <;> rw [h] at hstride <;> cases hstride
  rfl

theorem climb_of_onward {r : PayoutRange} {next : ℤ} {rest : List PayoutRange}
    (h : s.stride ctx ascending current L = .ok (.onward r))
    (hlevel : s.levelAt ctx (r.last + 1) = .ok next)
    (hrest : s.climb ctx ascending (r.last + 1) next = .ok rest) :
    s.climb ctx ascending current L = .ok (r :: rest) := by
  rw [Segment.climb]
  split <;> rename_i hstride <;> rw [h] at hstride <;> cases hstride
  exact bind_eq_ok.mpr ⟨next, hlevel, bind_eq_ok.mpr ⟨rest, hrest, rfl⟩⟩

/-- The steps from an outcome on are its own and those after it. -/
theorem Tracks.climb (h : s.Tracks ctx ascending v first) (hcur : first ≤ current)
    (hstep : s.StepsRight ctx ascending v current) (hs : s.Sized)
    (hrest : ∀ c, current < c → c < s.stop → ∃ rs, s.climb ctx ascending c (s.level (v c)) = .ok rs ∧
      Pays (fun x => s.pay (s.level (v x))) rs) :
    ∃ rs, s.climb ctx ascending current (s.level (v current)) = .ok rs ∧
      Pays (fun x => s.pay (s.level (v x))) rs := by
  obtain ⟨stride, hstride, hpays⟩ := hstep
  cases stride with
  | finish ranges => exact ⟨ranges, climb_of_finish hstride, hpays⟩
  | onward r =>
      obtain ⟨-, -, hle, hstop⟩ := stride_onward hstride
      obtain ⟨rest, hrest, hpays'⟩ := hrest (r.last + 1) (by omega) hstop
      exact ⟨r :: rest, climb_of_onward hstride (h.levelAt hs (by omega) hstop.le) hrest,
        PayoutRange.Pays.append hpays hpays'⟩

/-- Along a monotone curve every range pays the rounded payouts of its outcomes. -/
theorem Follows.climb (h : s.Follows ctx ascending v first) (hs : s.Sized) (hcur : first ≤ current)
    (hlt : current < s.stop) :
    ∃ rs, s.climb ctx ascending current (s.level (v current)) = .ok rs ∧
      Pays (fun x => s.pay (s.level (v x))) rs := by
  induction hn : (s.stop - current).toNat using Nat.strong_induction_on generalizing current with
  | _ n ih =>
      refine h.toTracks.climb hcur (h.stepsRight hs hcur hlt) hs fun c hc hcs => ?_
      exact ih _ (by omega) (hcur.trans hc.le) hcs rfl

end Segment

end NumericContract
