import NumericContract.Proofs.Curve.Rectangular
import NumericContract.Proofs.Curve.Totality
import NumericContract.Proofs.Decimal.Monotone

/-!
# How `u` grows

At the design scale the discriminant `t² - 4ab` is exact, so that `u` is the rounded sum of `t` and the
nearest root. It grows with the outcome from the vertical translation on, and everywhere if `ab ≤ 0`.
To the left of the translation `t` and the root nearly cancel, and what counts is by how much the nearest root
exceeds `-t`: there a number on the grids of both roots lies between the two excesses.
-/

namespace NumericContract

open Decimal

/-! ## Nearest roots of discriminants -/

section roots

variable {ctx : Context} {i j : ℕ} {n : ℤ} {v r r' q τ E K : ℚ}

theorem Decimal.Context.Settles.eq_of_onGrid (h : ctx.widened.Settles q v) (hgrid : OnGrid j q)
    (hj : j ≤ 1000) (hq : |q| * 10 ^ j < 10 ^ 78) : v = q :=
  h.rounds.eq_self (hgrid.representable ctx hj hq)

/-- An excess that the first root does not pass and the second one reaches. -/
theorem Decimal.Context.IsRoot.le_add_of_bridge {τ' : ℚ} (hr : ctx.IsRoot (τ * τ + K) r)
    (hr' : ctx.IsRoot (τ' * τ' + K) r') (hfirst : ctx.Representable (τ + E)) (hpos : 0 ≤ τ + E)
    (hsecond : ctx.Representable (τ' + E)) (hup : K ≤ E * (2 * τ + E)) (hdown : E * (2 * τ' + E) ≤ K) :
    r - τ ≤ r' - τ' := by
  have hbelow := hr.le_of_le_sq hfirst hpos (by linarith)
  have habove := hr'.le_of_sq_le hsecond (by linarith)
  linarith

theorem OnGrid.div_two_mul_zpow {k : ℤ} (h : OnGrid i q) (hj : (j : ℤ) = i + 1 + k) :
    OnGrid j (q / (2 * 10 ^ k)) := by
  obtain ⟨m, rfl⟩ := h
  have hpower : (10 : ℚ) ^ j = 10 ^ i * 10 * 10 ^ k := by
    rw [← zpow_natCast, hj, ten_zpow_add, ten_zpow_add, zpow_natCast, zpow_one]
  have hk := (ten_zpow_pos k).ne'
  refine ⟨5 * m, ?_⟩
  rw [hpower]
  push_cast
  field_simp
  ring

/-- The distance `τ` from an outcome up to the translation right of it, and the number `K` by which the
discriminant exceeds `τ²`, at the design scale. -/
structure LeftOf (τ K : ℚ) : Prop where
  pos : 0 < τ
  le : τ ≤ 2 * 10 ^ 18
  onGrid : OnGrid 16 τ
  excess_pos : 0 < K
  excess_le : K ≤ 4 * 10 ^ 36
  excess_onGrid : OnGrid 32 K

/-- The least multiple of `10 ^ -40` that the first root does not pass as an excess, and the one before it. -/
theorem LeftOf.exists_least (h : LeftOf τ K) : ∃ F, OnGrid 40 F ∧ 0 ≤ F ∧ F * (2 * τ + F) < K ∧
    K ≤ (F + 1 / 10 ^ 40) * (2 * τ + (F + 1 / 10 ^ 40)) := by
  have hτ0 := h.pos
  have hexists : ∃ m : ℕ, K ≤ m / 10 ^ 40 * (2 * τ + m / 10 ^ 40) := by
    obtain ⟨m, hm⟩ := exists_nat_ge (K * 10 ^ 40 / (2 * τ))
    rw [div_le_iff₀ (by linarith)] at hm
    refine ⟨m, ?_⟩
    rw [div_mul_eq_mul_div, le_div_iff₀ (by norm_num), mul_add]
    have hsquare : (0 : ℚ) ≤ m * (m / 10 ^ 40) := by positivity
    linarith
  classical
  have hreaches := Nat.find_spec hexists
  have hprevious := @Nat.find_min _ _ hexists
  generalize Nat.find hexists = m at hreaches hprevious
  cases m with
  | zero =>
      rw [Nat.cast_zero, zero_div, zero_mul] at hreaches
      linarith [h.excess_pos]
  | succ l =>
      have hstep : ((l + 1 : ℕ) : ℚ) / 10 ^ 40 = l / 10 ^ 40 + 1 / 10 ^ 40 := by
        push_cast
        ring
      rw [hstep] at hreaches
      exact ⟨l / 10 ^ 40, ⟨l, rfl⟩, by positivity, not_le.mp (hprevious (Nat.lt_succ_self l)), hreaches⟩

/-- Between excesses that are not tiny there is a multiple of `10 ^ -40`, since the second one is greater by
more. -/
theorem LeftOf.exists_excess (h : LeftOf τ K) (hn : 1 ≤ n)
    (hwide : 1 / 10 ^ 20 * (2 * τ + 1 / 10 ^ 20) ≤ K) :
    ∃ E, OnGrid 40 E ∧ 0 ≤ E ∧ E ≤ 3 * 10 ^ 18 ∧ K ≤ E * (2 * τ + E) ∧
      E * (2 * (τ - n) + E) ≤ K := by
  have hτ0 := h.pos
  have hτ := h.le
  have hK := h.excess_le
  obtain ⟨F, hgrid, hF0, hbefore, hreaches⟩ := h.exists_least
  refine ⟨F + 1 / 10 ^ 40, hgrid.add ⟨1, by norm_num⟩, by positivity, ?_, hreaches, ?_⟩
  · have hF : F ≤ 2 * 10 ^ 18 := by nlinarith
    norm_num at hF ⊢
    linarith
  · have hE : (1 : ℚ) / 10 ^ 20 ≤ F + 1 / 10 ^ 40 := by
      by_contra hlt
      rw [not_le] at hlt
      have hsmall : (F + 1 / 10 ^ 40) * (2 * τ + (F + 1 / 10 ^ 40)) <
          1 / 10 ^ 20 * (2 * τ + 1 / 10 ^ 20) :=
        mul_lt_mul'' hlt (by linarith) (by positivity) (by positivity)
      linarith
    have hn' : (1 : ℚ) ≤ n := by exact_mod_cast hn
    have hgain : F + 1 / 10 ^ 40 ≤ n * (F + 1 / 10 ^ 40) := le_mul_of_one_le_left (by positivity) hn'
    norm_num at hE hgain hbefore hτ ⊢
    linarith

theorem LeftOf.abs_sub_le (h : LeftOf τ K) (hn0 : (0 : ℚ) ≤ n) (hn1 : (n : ℚ) ≤ 10 ^ 18) :
    |τ - n| ≤ 2 * 10 ^ 18 := by
  have hτ0 := h.pos
  have hτ1 := h.le
  rw [abs_le]
  constructor <;> linarith

/-- Added to a distance, an excess on a grid that is not too fine is representable. -/
theorem OnGrid.representable_add_excess {d : ℚ} (hd : OnGrid 16 d) (ctx : Context) (hd1 : |d| ≤ 2 * 10 ^ 18)
    (hE : OnGrid j E) (hj : 16 ≤ j) (hj1 : j ≤ 52) (hE0 : 0 ≤ E) (hE1 : E ≤ 3 * 10 ^ 18) :
    ctx.widened.Representable (d + E) := by
  apply ((hd.mono hj).add hE).representable ctx (by omega)
  have hsum : |d + E| ≤ 5 * 10 ^ 18 := by
    rw [abs_le] at hd1 ⊢
    constructor <;> linarith
  have hfew : (10 : ℚ) ^ j ≤ 10 ^ 52 := pow_le_pow_right₀ (by norm_num) hj1
  calc |d + E| * 10 ^ j ≤ 5 * 10 ^ 18 * 10 ^ 52 := by gcongr
    _ < 10 ^ 78 := by norm_num

/-- An excess between those of the two exact roots decides between the nearest ones. -/
theorem LeftOf.sub_le_of_excess (h : LeftOf τ K) (hn0 : (0 : ℚ) ≤ n) (hn1 : (n : ℚ) ≤ 10 ^ 18)
    (hr : ctx.widened.IsRoot (τ * τ + K) r) (hr' : ctx.widened.IsRoot ((τ - n) * (τ - n) + K) r')
    (hE : OnGrid j E) (hj : 16 ≤ j) (hj1 : j ≤ 52) (hE0 : 0 ≤ E) (hE1 : E ≤ 3 * 10 ^ 18)
    (hup : K ≤ E * (2 * τ + E)) (hdown : E * (2 * (τ - n) + E) ≤ K) : r - τ ≤ r' - (τ - n) := by
  have hτ0 := h.pos
  have hτ : |τ| ≤ 2 * 10 ^ 18 := by
    rw [abs_of_pos hτ0]
    exact h.le
  have hfirst := h.onGrid.representable_add_excess ctx hτ hE hj hj1 hE0 hE1
  have hsecond := (h.onGrid.sub (OnGrid.intCast 16 n)).representable_add_excess ctx
    (h.abs_sub_le hn0 hn1) hE hj hj1 hE0 hE1
  exact hr.le_add_of_bridge hr' hfirst (by linarith) hsecond hup hdown

/-- A number on the grid of the distances that the first root exceeds does not exceed the distance itself, if
the excess is tiny. -/
theorem LeftOf.le_of_sq_lt (h : LeftOf τ K) {P : ℚ} (hP : OnGrid 16 P) (hP0 : 0 ≤ P)
    (htiny : K < 1 / 10 ^ 20 * (2 * τ + 1 / 10 ^ 20)) (hlt : P * P < τ * τ + K) : P ≤ τ := by
  have hτ0 := h.pos
  by_contra hgt
  rw [not_le] at hgt
  have hgap := (hP.sub h.onGrid).le_abs (by linarith)
  rw [abs_of_pos (by linarith)] at hgap
  norm_num at hgap htiny
  nlinarith

/-- Where a number lies between the roots, `K` over twice that number lies between the excesses. -/
theorem LeftOf.excess_between (h : LeftOf τ K) {P : ℚ} (hP : 0 < P) (hfar : P ≤ τ)
    (hnear : (τ - n) * (τ - n) + K ≤ P * P) :
    K ≤ K / (2 * P) * (2 * τ + K / (2 * P)) ∧ K / (2 * P) * (2 * (τ - n) + K / (2 * P)) ≤ K := by
  have hK0 := h.excess_pos
  have hproduct : K / (2 * P) * (2 * P) = K := div_mul_cancel₀ K (by positivity)
  have hpositive : 0 < K / (2 * P) := by positivity
  generalize K / (2 * P) = G at hproduct hpositive ⊢
  constructor
  · have hle : G * (2 * P) ≤ G * (2 * τ) := mul_le_mul_of_nonneg_left (by linarith) hpositive.le
    linarith [mul_pos hpositive hpositive]
  · have hbetween : |τ - n| < |P| := abs_lt_iff_mul_self_lt.mpr (by linarith)
    rw [abs_of_pos hP] at hbetween
    obtain ⟨hs, hs'⟩ := abs_lt.mp hbetween
    have hside : G ≤ P - (τ - n) := by
      have hfactor : (P - (τ - n)) * (P + (τ - n)) ≤ (P - (τ - n)) * (2 * P) :=
        mul_le_mul_of_nonneg_left (by linarith) (by linarith)
      have hscaled : G * (2 * P) ≤ (P - (τ - n)) * (2 * P) := by linarith
      exact le_of_mul_le_mul_right hscaled (by positivity)
    have hsum : G * (2 * (τ - n) + G) ≤ G * (2 * P) := mul_le_mul_of_nonneg_left (by linarith) hpositive.le
    linarith

/-- Where the excesses are tiny and a power of ten lies between the roots, `K` over twice that power is the
excess that decides. -/
theorem LeftOf.sub_le_of_pow (h : LeftOf τ K) (hn0 : (0 : ℚ) ≤ n) (hn1 : (n : ℚ) ≤ 10 ^ 18)
    (hr : ctx.widened.IsRoot (τ * τ + K) r) (hr' : ctx.widened.IsRoot ((τ - n) * (τ - n) + K) r')
    (htiny : K < 1 / 10 ^ 20 * (2 * τ + 1 / 10 ^ 20)) {k : ℤ} (hk : -16 ≤ k) (hk1 : k < 19)
    (hlow : r' < 10 ^ k) (hhigh : 10 ^ k < r) : r - τ ≤ r' - (τ - n) := by
  have hpos := ten_zpow_pos k
  have hrep : ctx.widened.Representable ((10 : ℚ) ^ k) := by
    have hleast := Context.Representable.leastExponent_le ctx.widened
    exact Context.Representable.zpow (by omega)
  have hgrid : OnGrid 16 ((10 : ℚ) ^ k) := OnGrid.zpow (by exact_mod_cast hk)
  have hlarge : (10 : ℚ) ^ (-16 : ℤ) ≤ 10 ^ k := ten_zpow_le hk
  have hexcess := h.excess_onGrid.div_two_mul_zpow (j := (33 + k).toNat) (k := k) (by omega)
  have hfar : 10 ^ k * 10 ^ k < τ * τ + K := by
    by_contra hle
    exact absurd (hr.le_of_le_sq hrep hpos.le (not_lt.mp hle)) (not_le.mpr hhigh)
  have hnear : (τ - n) * (τ - n) + K < 10 ^ k * 10 ^ k := by
    by_contra hle
    exact absurd (hr'.le_of_sq_le hrep (not_lt.mp hle)) (not_le.mpr hlow)
  generalize (10 : ℚ) ^ k = P at *
  obtain ⟨hup, hdown⟩ := h.excess_between hpos (h.le_of_sq_lt hgrid hpos.le htiny hfar) hnear.le
  have hK0 := h.excess_pos
  have hsmall : K / (2 * P) ≤ 3 * 10 ^ 18 := by
    have hτ1 := h.le
    rw [div_le_iff₀ (by positivity)]
    norm_num at hlarge htiny ⊢
    linarith
  exact h.sub_le_of_excess hn0 hn1 hr hr' hexcess (by omega) (by omega) (by positivity) hsmall hup hdown

theorem LeftOf.root_bounds (h : LeftOf τ K) {s : ℚ} (hs : |s| ≤ 2 * 10 ^ 18)
    (hr : ctx.widened.IsRoot (s * s + K) r) : 10 ^ (-16 : ℤ) ≤ r ∧ r ≤ 10 ^ (19 : ℤ) := by
  have hleast := Context.Representable.leastExponent_le ctx.widened
  have hK0 := h.excess_pos
  have hK := h.excess_le
  have hgap := h.excess_onGrid.le_abs hK0.ne'
  rw [abs_of_pos hK0] at hgap
  have hsquare : s * s ≤ 2 * 10 ^ 18 * (2 * 10 ^ 18) := by
    rw [← abs_mul_abs_self s]
    exact mul_self_le_mul_self (abs_nonneg s) hs
  constructor
  · apply hr.le_of_sq_le (Context.Representable.zpow (by omega))
    have hsquare0 := mul_self_nonneg s
    norm_num at hgap ⊢
    linarith
  · apply hr.le_of_le_sq (Context.Representable.zpow (by omega)) (by positivity)
    norm_num at hsquare ⊢
    linarith

/-- The nearest root exceeds the distance by no less at a later outcome. -/
theorem LeftOf.sub_le (h : LeftOf τ K) (hn : 1 ≤ n) (hn1 : (n : ℚ) ≤ 10 ^ 18)
    (hr : ctx.widened.IsRoot (τ * τ + K) r) (hr' : ctx.widened.IsRoot ((τ - n) * (τ - n) + K) r') :
    r - τ ≤ r' - (τ - n) := by
  have hn0 : (0 : ℚ) < n := by exact_mod_cast (show 0 < n by omega)
  have hτ0 := h.pos
  have hτ1 := h.le
  obtain ⟨-, hlarge⟩ := h.root_bounds (abs_le.mpr ⟨by linarith, hτ1⟩) hr
  obtain ⟨hsmall, hlarge'⟩ := h.root_bounds (h.abs_sub_le hn0.le hn1) hr'
  have hroom : (10 : ℚ) ^ (19 : ℤ) + 10 ^ 18 < 10 ^ ctx.widened.precision := by
    have hwide : (10 : ℚ) ^ 78 ≤ 10 ^ ctx.widened.precision :=
      pow_le_pow_right₀ (by norm_num) (le_max_left _ _)
    refine lt_of_lt_of_le ?_ hwide
    norm_num
  rcases le_or_gt (1 / 10 ^ 20 * (2 * τ + 1 / 10 ^ 20)) K with hwide | htiny
  · obtain ⟨E, hgrid, hE0, hE, hup, hdown⟩ := h.exists_excess hn hwide
    exact h.sub_le_of_excess hn0.le hn1 hr hr' hgrid (by decide) (by decide) hE0 hE hup hdown
  · by_contra hgt
    rw [not_le] at hgt
    have hr'0 := hr'.nonneg
    have hless : ctx.widened.Representable (r - n) :=
      hr.representable.sub_intCast (by linarith) (by omega) (by linarith)
    have habove := hr'.above _ hless (by linarith)
    by_cases hmore : ctx.widened.Representable (r' + n)
    · -- the middles of both pairs are `n` apart and exceed the distances by one excess
      have hbelow := hr.below _ hmore (by linarith) (by linarith)
      have hmiddle : (r' + n + r) / 2 = (r - n + r') / 2 + n := by ring
      have hM : 0 ≤ (r - n + r') / 2 := by linarith
      rw [hmiddle] at hbelow
      generalize (r - n + r') / 2 = M at habove hbelow hM
      have hMτ : M ≤ τ - n := by
        have hscaled : n * (M + n) ≤ n * τ := by linarith
        linarith [le_of_mul_le_mul_left hscaled hn0]
      have hsquares := mul_self_le_mul_self hM hMτ
      linarith [h.excess_pos]
    · obtain ⟨k, hlow, hhigh⟩ := hr'.representable.exists_pow_between hr'0 (by omega) (by linarith)
        hmore
      have hk : -16 < k := (zpow_lt_zpow_iff_right₀ (by norm_num)).mp (hsmall.trans_lt hlow)
      have hk1 : k < 19 :=
        (zpow_lt_zpow_iff_right₀ (by norm_num : (1 : ℚ) < 10)).mp (by linarith)
      exact absurd (h.sub_le_of_pow hn0.le hn1 hr hr' htiny hk.le hk1 hlow (by linarith)) (not_le.mpr hgt)

end roots

/-! ## The number `u` -/

namespace Hyperbola

variable {h : Hyperbola} {ctx : Context} {x y : ℤ}

namespace Scaled

theorem coefficient (hs : h.Scaled) {c : String × Finite} (hc : c ∈ h.coefficients) :
    Within (-10000) 18 c.2.value := by
  obtain ⟨k, hk, hq⟩ := hs c hc
  have hk' : |(k : ℚ)| ≤ 10 ^ 34 := by exact_mod_cast hk.le
  have hwithin : Within (-16) 18 c.2.value := by
    refine ⟨⟨k, ?_⟩, ?_⟩
    · rw [hq]
      norm_num
      ring
    · rw [hq, abs_div, abs_of_pos (show (0 : ℚ) < 10 ^ 16 by positivity), div_le_iff₀ (by positivity)]
      norm_num
      linarith
  exact hwithin.mono (by decide) le_rfl

theorem moderate (hs : h.Scaled) : h.Moderate := fun _ hc => hs.coefficient hc

theorem representable_abs_distance (hs : h.Scaled) (ctx : Context) (h0 : 0 ≤ x) (h1 : x < 10 ^ 18) :
    ctx.widened.Representable |x - h.pole| := by
  apply (hs.distance_onGrid x).abs.representable ctx (by norm_num)
  have hsize := hs.abs_distance_le h0 h1
  rw [abs_abs]
  linarith

theorem product_onGrid (hs : h.Scaled) : OnGrid 32 (4 * h.a.value * h.b.value) :=
  ((OnGrid.intCast 0 4).mul hs.a.onGrid).mul hs.b.onGrid

theorem abs_product_le (hs : h.Scaled) : |4 * h.a.value * h.b.value| ≤ 4 * 10 ^ 36 := by
  rw [mul_assoc, abs_mul, abs_mul, abs_of_pos (show (0 : ℚ) < 4 by norm_num)]
  have hproduct := mul_le_mul hs.a.abs_lt.le hs.b.abs_lt.le (abs_nonneg _) (by norm_num)
  linarith

theorem value_distance (hs : h.Scaled) (h0 : 0 ≤ x) (h1 : x < 10 ^ 18) {shifted : Finite}
    (hshifted : (Finite.ofInt x).sub ctx.widened h.translateOutcome = .ok shifted) :
    shifted.value = x - h.pole := by
  have hsettles : ctx.widened.Settles (x - h.pole) shifted.value := by
    rw [← Finite.value_ofInt]
    exact Finite.sub_settles hshifted
  apply hsettles.eq_of_onGrid (hs.distance_onGrid x) (by norm_num)
  have hdistance := hs.abs_distance_le h0 h1
  linarith

theorem value_product (hs : h.Scaled) {product : Finite}
    (hproduct : Finite.product ctx.widened (.ofInt 4) [h.a, h.b] = .ok product) :
    product.value = 4 * h.a.value * h.b.value := by
  rw [Finite.product_pair, bind_eq_ok] at hproduct
  obtain ⟨fourfold, hfourfold, hproduct⟩ := hproduct
  have hfour := Finite.mul_settles hfourfold
  rw [Finite.value_ofInt] at hfour
  have hvalue : fourfold.value = 4 * h.a.value := by
    apply hfour.eq_of_onGrid ((OnGrid.intCast 0 4).mul hs.a.onGrid) (by norm_num)
    rw [abs_mul]
    have hsmall := hs.a.abs_lt
    norm_num
    linarith
  have hsettles := Finite.mul_settles hproduct
  rw [hvalue] at hsettles
  apply hsettles.eq_of_onGrid hs.product_onGrid (by norm_num)
  have hsmall := hs.abs_product_le
  linarith

end Scaled

def discriminant (h : Hyperbola) (x : ℤ) : ℚ :=
  (x - h.pole) * (x - h.pole) - 4 * h.a.value * h.b.value

/-- At the design scale the discriminant is exact, so that `u` is rounded from the nearest root. -/
theorem radical?_spec (hp : ctx.precision ≤ 10000) (hs : h.Scaled) (h0 : 0 ≤ x) (h1 : x < 10 ^ 18) :
    (h.discriminant x < 0 → h.radical? ctx.widened x = .ok none) ∧
      (0 ≤ h.discriminant x → ∃ (root : ℚ) (u : Finite), ctx.widened.IsRoot (h.discriminant x) root ∧
        ctx.widened.Settles (x - h.pole + root) u.value ∧ h.radical? ctx.widened x = .ok (some u)) := by
  obtain ⟨product, hproduct, hsteps⟩ := radical?_steps hp hs.moderate
  obtain ⟨shifted, square, disc, hshifted, hsquare, hdisc, hnone, hsome⟩ := hsteps x h0 h1
  have hdistance := hs.value_distance h0 h1 hshifted
  have hgrid : OnGrid 32 ((x - h.pole) * (x - h.pole)) := (hs.distance_onGrid x).mul (hs.distance_onGrid x)
  have hsize := hs.abs_distance_le h0 h1
  have hsize' : |(x - h.pole) * (x - h.pole)| ≤ 4 * 10 ^ 36 := by
    rw [abs_mul]
    exact (mul_le_mul hsize hsize (abs_nonneg _) (by norm_num)).trans (by norm_num)
  have hsquares : square.value = (x - h.pole) * (x - h.pole) := by
    have hsettles := Finite.mul_settles hsquare
    rw [hdistance] at hsettles
    exact hsettles.eq_of_onGrid hgrid (by norm_num) (by linarith)
  have hvalue : disc.value = h.discriminant x := by
    have hsettles := Finite.sub_settles hdisc
    rw [hsquares, hs.value_product hproduct] at hsettles
    apply hsettles.eq_of_onGrid (hgrid.sub hs.product_onGrid) (by norm_num)
    have hdifference := abs_sub ((x - h.pole) * (x - h.pole)) (4 * h.a.value * h.b.value)
    linarith [hs.abs_product_le]
  rw [hvalue] at hnone hsome
  refine ⟨hnone, fun hnonneg => ?_⟩
  obtain ⟨root, u, hroot, hadd, -, hu⟩ := hsome hnonneg
  have hisRoot := Finite.sqrt_isRoot (hvalue ▸ hnonneg) hroot
  have hsettles := Finite.add_settles hadd
  rw [hvalue] at hisRoot
  rw [hdistance] at hsettles
  exact ⟨root.value, u, hisRoot, hsettles, hu⟩

theorem exists_root (hp : ctx.precision ≤ 10000) (hs : h.Scaled) (h0 : 0 ≤ x) (h1 : x < 10 ^ 18)
    {u : Finite} (hu : h.radical? ctx.widened x = .ok (some u)) :
    0 ≤ h.discriminant x ∧ ∃ root : ℚ, ctx.widened.IsRoot (h.discriminant x) root ∧
      ctx.widened.Settles (x - h.pole + root) u.value := by
  obtain ⟨hnone, hsome⟩ := radical?_spec hp hs h0 h1
  have hnonneg : 0 ≤ h.discriminant x := by
    by_contra hneg
    have hnull := hnone (not_le.mp hneg)
    rw [hu] at hnull
    cases hnull
  obtain ⟨root, u₀, hroot, hsettles, hu₀⟩ := hsome hnonneg
  obtain rfl : u = u₀ := by simpa [hu] using hu₀
  exact ⟨hnonneg, root, hroot, hsettles⟩

theorem radical?_nonneg (hp : ctx.precision ≤ 10000) (hs : h.Scaled) (h0 : 0 ≤ x) (h1 : x < 10 ^ 18)
    (hclear : h.a.value * h.b.value ≤ 0 ∨ h.pole ≤ x) {u : Finite}
    (hu : h.radical? ctx.widened x = .ok (some u)) : 0 ≤ u.value := by
  obtain ⟨-, root, hroot, hsettles⟩ := exists_root hp hs h0 h1 hu
  apply hsettles.rounds.nonneg
  rcases hclear with hsign | hright
  · have hreaches : |x - h.pole| ≤ root := by
      apply hroot.le_of_sq_le (hs.representable_abs_distance ctx h0 h1)
      rw [abs_mul_abs_self]
      unfold discriminant
      linarith
    linarith [neg_abs_le (x - h.pole)]
  · linarith [hroot.nonneg]

theorem radical?_grows_right (hp : ctx.precision ≤ 10000) (hs : h.Scaled) (h0 : 0 ≤ x) (hxy : x < y)
    (h1 : y < 10 ^ 18) (hright : h.pole ≤ x) {u : Finite} (hu : h.radical? ctx.widened x = .ok (some u)) :
    ∃ v : Finite, h.radical? ctx.widened y = .ok (some v) ∧ u.value ≤ v.value := by
  have hxy' : (x : ℚ) < y := by exact_mod_cast hxy
  have hdiscriminant : h.discriminant x < h.discriminant y := by
    have hsquares : (x - h.pole) * (x - h.pole) < (y - h.pole) * (y - h.pole) :=
      mul_self_lt_mul_self (by linarith) (by linarith)
    unfold discriminant
    linarith
  obtain ⟨hnonneg, root, hroot, hsettles⟩ := exists_root hp hs h0 (hxy.trans h1) hu
  obtain ⟨root', v, hroot', hsettles', hv⟩ :=
    (radical?_spec hp hs (h0.trans hxy.le) h1).2 (hnonneg.trans hdiscriminant.le)
  have hroots := hroot.mono hroot' hdiscriminant
  exact ⟨v, hv, hsettles.mono hsettles' (by linarith)⟩

/-- Left of the translation `u` grows where `a · b < 0`, and is zero where `b` is. -/
theorem radical?_grows_left (hp : ctx.precision ≤ 10000) (hs : h.Scaled) (h0 : 0 ≤ x) (hxy : x < y)
    (h1 : y < 10 ^ 18) (hleft : x < h.pole) (hsign : h.a.value * h.b.value ≤ 0) {u : Finite}
    (hu : h.radical? ctx.widened x = .ok (some u)) (huz : u.value ≠ 0) :
    ∃ v : Finite, h.radical? ctx.widened y = .ok (some v) ∧ u.value ≤ v.value := by
  have hdiscriminant : ∀ z : ℤ, h.discriminant z =
      (h.pole - z) * (h.pole - z) + -(4 * h.a.value * h.b.value) := by
    intro z
    unfold discriminant
    ring
  obtain ⟨-, root, hroot, hsettles⟩ := exists_root hp hs h0 (hxy.trans h1) hu
  have hdistance : OnGrid 16 (h.pole - x) := hs.pole.onGrid.sub (OnGrid.intCast 16 x)
  have hsize := hs.abs_distance_le h0 (hxy.trans h1)
  have hrepresentable := hs.representable_abs_distance ctx h0 (hxy.trans h1)
  rw [abs_sub_comm, abs_of_pos (by linarith)] at hsize hrepresentable
  rw [hdiscriminant] at hroot
  rcases hsign.eq_or_lt with hzero | hneg
  · have hexact := hroot.eq_of_sq hrepresentable (by linarith) (by linarith)
    rw [hexact, ← neg_sub, neg_add_cancel] at hsettles
    exact absurd (hsettles.rounds.eq_self (Context.Representable.zero _)) huz
  · obtain ⟨root', v, hroot', hsettles', hv⟩ := (radical?_spec hp hs (h0.trans hxy.le) h1).2 (by
      rw [hdiscriminant]
      linarith [mul_self_nonneg (h.pole - y)])
    have hleftOf : LeftOf (h.pole - x) (-(4 * h.a.value * h.b.value)) :=
      ⟨by linarith, hsize, hdistance, by linarith, (neg_le_abs _).trans hs.abs_product_le,
        hs.product_onGrid.neg⟩
    have hstep : (h.pole - y : ℚ) = h.pole - x - (y - x : ℤ) := by
      push_cast
      ring
    rw [hdiscriminant, hstep] at hroot'
    have hgrows := hleftOf.sub_le (by omega) (by exact_mod_cast (by omega)) hroot hroot'
    rw [← hstep] at hgrows
    exact ⟨v, hv, hsettles.mono hsettles' (by linarith)⟩

/-- A `u` that is not zero is positive and grows, from the translation on and everywhere if `a · b ≤ 0`. -/
theorem radical?_grows (hp : ctx.precision ≤ 10000) (hs : h.Scaled) (h0 : 0 ≤ x) (hxy : x ≤ y)
    (h1 : y < 10 ^ 18) (hclear : h.a.value * h.b.value ≤ 0 ∨ h.pole ≤ x) {u : Finite}
    (hu : h.radical? ctx.widened x = .ok (some u)) (huz : u.value ≠ 0) :
    ∃ v : Finite, h.radical? ctx.widened y = .ok (some v) ∧ 0 < u.value ∧ u.value ≤ v.value := by
  have hpos := (radical?_nonneg hp hs h0 (hxy.trans_lt h1) hclear hu).lt_of_ne huz.symm
  rcases hxy.eq_or_lt with rfl | hlt
  · exact ⟨u, hu, hpos, le_rfl⟩
  · have hgrows : ∃ v : Finite, h.radical? ctx.widened y = .ok (some v) ∧ u.value ≤ v.value := by
      rcases le_or_gt h.pole x with hright | hleft
      · exact radical?_grows_right hp hs h0 hlt h1 hright hu
      · exact radical?_grows_left hp hs h0 hlt h1 hleft (hclear.resolve_right (not_le.mpr hleft)) hu huz
    obtain ⟨v, hv, huv⟩ := hgrows
    exact ⟨v, hv, hpos, huv⟩

end Hyperbola

end NumericContract
