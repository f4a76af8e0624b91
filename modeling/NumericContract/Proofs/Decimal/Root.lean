import NumericContract.Proofs.Decimal.Operations

/-!
# Square roots of decimals

Every number that is not negative has a root of about the right size, and the root is a representable number
nearest to the true one. One that can be represented is therefore found exactly.
-/

namespace NumericContract.Decimal

open Magnitude

namespace Finite

variable {ctx : Context} {x : Finite}

theorem sqrt_radicand (h : x.negative = false) :
    x.value = ((if x.exponent % 2 = 1 then 10 * x.coefficient else x.coefficient : ℕ) : ℚ) *
      (10 ^ (x.exponent / 2) * 10 ^ (x.exponent / 2)) := by
  rw [value_of_positive h, ← ten_zpow_add]
  split
  · next hodd =>
    conv_lhs => rw [show x.exponent = 1 + (x.exponent / 2 + x.exponent / 2) by omega, ten_zpow_add]
    push_cast
    ring
  · next heven =>
    conv_lhs => rw [show x.exponent = x.exponent / 2 + x.exponent / 2 by omega]

theorem sqrt_scaled_bounds {c root up down n : ℕ} (hdown : 0 < down)
    (hbig : n * n * (down * down) ≤ c * (up * up))
    (hroot : root = (c * (up * up) / (down * down)).sqrt) :
    n ≤ root ∧ root * root * (down * down) ≤ c * (up * up) ∧
      c * (up * up) < (root + 1) * (root + 1) * (down * down) := by
  have hpos : 0 < down * down := by positivity
  refine ⟨?_, ?_, ?_⟩
  · rw [hroot, Nat.le_sqrt]
    exact (Nat.le_div_iff_mul_le hpos).mpr hbig
  · rw [← Nat.le_div_iff_mul_le hpos, hroot]
    exact Nat.sqrt_le _
  · rw [← Nat.div_lt_iff_lt_mul hpos, hroot]
    exact Nat.lt_succ_sqrt _

/-- With the digits that are added or dropped a root has one digit more than the context keeps. -/
theorem sqrt_down_le (ctx : Context) {c : ℕ} (hc : c ≠ 0) {extra : ℤ}
    (hextra : extra = ctx.precision + 1 - (digitCount c + 1) / 2) :
    10 ^ ctx.precision * 10 ^ ctx.precision * (tenPower (-extra).toNat * tenPower (-extra).toNat) ≤
      c * (tenPower extra.toNat * tenPower extra.toNat) := by
  have hdigits := digitCount_pos hc
  calc 10 ^ ctx.precision * 10 ^ ctx.precision *
        (tenPower (-extra).toNat * tenPower (-extra).toNat)
      = 10 ^ (ctx.precision + ctx.precision + ((-extra).toNat + (-extra).toNat)) := by
        rw [tenPower_eq, pow_add, pow_add, pow_add]
    _ ≤ 10 ^ (digitCount c - 1 + (extra.toNat + extra.toNat)) :=
        Nat.pow_le_pow_right (by decide) (by omega)
    _ = 10 ^ (digitCount c - 1) * (tenPower extra.toNat * tenPower extra.toNat) := by
        rw [tenPower_eq, pow_add, pow_add]
    _ ≤ c * (tenPower extra.toNat * tenPower extra.toNat) := by
        gcongr
        exact tenPower_digitCount_le hc

theorem sqrt_ends {c root up down : ℕ} (hup : 0 < up)
    (hends : root * root * (down * down) = c * (up * up)) :
    (root * down / up) * (root * down / up) = c := by
  have hdvd : up ∣ root * down := by
    rw [← Nat.pow_dvd_pow_iff two_ne_zero]
    exact ⟨c, by linarith⟩
  obtain ⟨m, hm⟩ := hdvd
  rw [hm, Nat.mul_div_cancel_left _ hup]
  have hsq : up * up * (m * m) = up * up * c := by
    calc up * up * (m * m) = (up * m) * (up * m) := by ring
      _ = (root * down) * (root * down) := by rw [hm]
      _ = up * up * c := by linarith
  exact Nat.eq_of_mul_eq_mul_left (by positivity) hsq

/-- A tenth of a unit beyond the integer root, the square is off by little. -/
theorem sqrt_marked {root p : ℕ} {unit v : ℚ} (hunit : 0 < unit) (hlong : 10 ^ p ≤ root)
    (hlow : root * unit * (root * unit) ≤ v) (hhigh : v < (root + 1) * unit * ((root + 1) * unit)) :
    |(root + 1 / 10) * unit * ((root + 1 / 10) * unit) - v| ≤ 3 * v / 10 ^ p := by
  have hp : (0 : ℚ) < 10 ^ p := by positivity
  have hone : (1 : ℚ) ≤ root := by
    exact_mod_cast (Nat.one_le_pow p 10 (by decide)).trans hlong
  have hlong' : (10 : ℚ) ^ p ≤ root := by exact_mod_cast hlong
  have hbase : root * (unit * unit) * 10 ^ p ≤ v := by nlinarith [mul_pos hunit hunit]
  have hsmall : root * (unit * unit) ≤ v / 10 ^ p := (le_div_iff₀ hp).mpr hbase
  have hsq := mul_pos hunit hunit
  rw [mul_div_assoc, abs_le]
  constructor <;> nlinarith

theorem sqrt_of_zero (ctx : Context) (h : x.value = 0) :
    ∃ s : Finite, x.sqrt ctx = ctx.fit s ∧ s.value = 0 := by
  have hz : x.isZero = true := (isZero_iff x).mpr h
  refine ⟨{ x with exponent := x.exponent / 2 }, ?_, (isZero_iff _).mp hz⟩
  unfold sqrt
  simp [hz]

/-- A square compares with the number under the root like the scaled integers. -/
theorem sq_mul_unit_le_iff {n c up down : ℕ} {unit base : ℚ} (hup : 0 < up) (hbase : 0 < base)
    (hunit : unit = base * (down / up)) :
    n * unit * (n * unit) ≤ c * (base * base) ↔ n * n * (down * down) ≤ c * (up * up) := by
  have hsquare : n * unit * (n * unit) = n * n * (down * down) / (up * up) * (base * base) := by
    rw [hunit]
    field_simp
  rw [hsquare, mul_le_mul_iff_left₀ (by positivity), div_le_iff₀ (by positivity)]
  exact_mod_cast Iff.rfl

/-- What a positive root is made to fit from: the root itself, or more digits of it than the context keeps and
a mark after them. -/
theorem sqrt_cell (ctx : Context) (hpos : 0 < x.value) :
    ∃ s : Finite, x.sqrt ctx = ctx.fit s ∧ 0 ≤ s.value ∧ (s.value * s.value = x.value ∨
      ∃ (root : ℕ) (e : ℤ), s = ⟨false, 10 * root + 1, e - 1⟩ ∧ 10 ^ ctx.precision ≤ root ∧
        root * 10 ^ e * (root * 10 ^ e) ≤ x.value ∧
        x.value < (root + 1) * 10 ^ e * ((root + 1) * 10 ^ e)) := by
  have hz : x.isZero = false := (isZero_eq_false_iff x).mpr hpos.ne'
  have hneg : x.negative = false := by
    cases h : x.negative with
    | false => rfl
    | true => exact absurd (value_nonpos_of_negative h) (not_le.mpr hpos)
  unfold sqrt
  simp only [hz, hneg, Bool.false_eq_true, if_false]
  have hrad := sqrt_radicand hneg
  have hc0 : (if x.exponent % 2 = 1 then 10 * x.coefficient else x.coefficient) ≠ 0 := by
    have := coefficient_ne_zero hz
    split <;> omega
  generalize (if x.exponent % 2 = 1 then 10 * x.coefficient else x.coefficient) = c at hrad hc0 ⊢
  set extra : ℤ := ctx.precision + 1 - (digitCount c + 1) / 2 with hextra
  have hbig := sqrt_down_le ctx hc0 hextra
  have hscaled := ten_zpow_sub (x.exponent / 2) extra
  have hp := ten_zpow_pos (x.exponent / 2)
  have hup := tenPower_pos extra.toNat
  have hdown := tenPower_pos (-extra).toNat
  generalize tenPower extra.toNat = up at hbig hscaled hup ⊢
  generalize tenPower (-extra).toNat = down at hbig hscaled hdown ⊢
  generalize hroot : (c * (up * up) / (down * down)).sqrt = root
  obtain ⟨hlong, hlow, hhigh⟩ := sqrt_scaled_bounds hdown hbig hroot.symm
  split
  · next hends =>
    refine ⟨_, rfl, ?_, Or.inl ?_⟩
    · rw [value_of_positive rfl]
      positivity
    · have hsq : ((root * down / up : ℕ) : ℚ) * (root * down / up : ℕ) = c := by
        exact_mod_cast sqrt_ends hup hends
      rw [value_of_positive rfl, hrad, ← hsq]
      ring
  · refine ⟨_, rfl, ?_, Or.inr ⟨root, x.exponent / 2 - extra, rfl, hlong, ?_, ?_⟩⟩
    · rw [value_of_positive rfl]
      positivity
    · rw [hrad]
      exact (sq_mul_unit_le_iff hup hp hscaled).mpr hlow
    · rw [hrad, ← Nat.cast_succ, ← not_le, sq_mul_unit_le_iff hup hp hscaled, not_le]
      exact hhigh

theorem value_marked (root : ℕ) (e : ℤ) :
    Finite.value ⟨false, 10 * root + 1, e - 1⟩ = (root + 1 / 10) * 10 ^ e := by
  rw [value_of_positive rfl, zpow_sub₀ (by norm_num), zpow_one]
  push_cast
  ring

/-- What a root is made to fit from: its square is the number but for a part in the last digit. -/
theorem sqrt_near (ctx : Context) (h0 : 0 ≤ x.value) :
    ∃ s : Finite, x.sqrt ctx = ctx.fit s ∧ 0 ≤ s.value ∧
      |s.value * s.value - x.value| ≤ 3 * x.value / 10 ^ ctx.precision := by
  rcases h0.eq_or_lt with hzero | hpos
  · obtain ⟨s, hs, hsz⟩ := sqrt_of_zero ctx hzero.symm
    exact ⟨s, hs, hsz.ge, by simp [hsz, ← hzero]⟩
  · obtain ⟨s, hs, hs0, hcell⟩ := sqrt_cell ctx hpos
    refine ⟨s, hs, hs0, ?_⟩
    rcases hcell with hexact | ⟨root, e, rfl, hlong, hlow, hhigh⟩
    · rw [hexact, sub_self, abs_zero]
      positivity
    · rw [value_marked]
      exact sqrt_marked (ten_zpow_pos e) hlong hlow hhigh

theorem sqrt_square_bounds {s v : ℚ} (hv : 0 ≤ v) (hnear : |s * s - v| ≤ 3 * v / 10 ^ ctx.precision) :
    v ≤ 4 * (s * s) ∧ s * s ≤ 4 * v := by
  have hp : (10 : ℚ) ^ 1 ≤ 10 ^ ctx.precision :=
    pow_le_pow_right₀ (by norm_num) (Context.Representable.precision_pos ctx)
  have hpart : 3 * v / 10 ^ ctx.precision ≤ 3 * v / 10 := by
    have := div_le_div_of_nonneg_left (show 0 ≤ 3 * v by linarith) (by norm_num) hp
    simpa using this
  have hnear := abs_le.mp (hnear.trans hpart)
  constructor <;> linarith

theorem sqrt_succeeds (ctx : Context) (h0 : 0 ≤ x.value) (hb : x.value ≤ 10 ^ 200) :
    ∃ y, x.sqrt ctx = .ok y ∧ 0 ≤ y.value ∧ y.value * y.value ≤ 16 * x.value := by
  obtain ⟨s, hs, hs0, hnear⟩ := sqrt_near ctx h0
  have hsq := (sqrt_square_bounds h0 hnear).2
  have hs200 : |s.value| ≤ 10 ^ 200 := by
    rw [abs_of_nonneg hs0]
    nlinarith
  obtain ⟨y, hy, hround⟩ := (Context.fit_computes ctx s).exists_rounds hs200
  have hy0 := hround.nonneg hs0
  have hy2 := hround.abs_le_two_mul
  rw [abs_of_nonneg hs0, abs_of_nonneg hy0] at hy2
  exact ⟨y, hs.trans hy, hy0, by nlinarith⟩

end Finite

/-! ## Nearest roots -/

/-- `r` is a representable number nearest to the root of `v`: the middle between it and another one is on the
other one's side of the root. -/
structure Context.IsRoot (ctx : Context) (v r : ℚ) : Prop where
  representable : ctx.Representable r
  nonneg : 0 ≤ r
  below : ∀ z, ctx.Representable z → 0 ≤ z → z < r → (z + r) / 2 * ((z + r) / 2) ≤ v
  above : ∀ z, ctx.Representable z → r < z → v ≤ (z + r) / 2 * ((z + r) / 2)

namespace Context.IsRoot

variable {ctx : Context} {v v' r r' z : ℚ}

theorem le_of_sq_le (h : ctx.IsRoot v r) (hz : ctx.Representable z) (hle : z * z ≤ v) : z ≤ r := by
  by_contra hlt
  rw [not_le] at hlt
  have habove := h.above z hz hlt
  have hnonneg := h.nonneg
  nlinarith

theorem le_of_le_sq (h : ctx.IsRoot v r) (hz : ctx.Representable z) (hz0 : 0 ≤ z) (hle : v ≤ z * z) :
    r ≤ z := by
  by_contra hlt
  rw [not_le] at hlt
  have hbelow := h.below z hz hz0 hlt
  nlinarith

theorem eq_of_sq (h : ctx.IsRoot v r) (hz : ctx.Representable z) (hz0 : 0 ≤ z) (heq : v = z * z) : r = z :=
  le_antisymm (h.le_of_le_sq hz hz0 heq.le) (h.le_of_sq_le hz heq.ge)

theorem mono (h : ctx.IsRoot v r) (h' : ctx.IsRoot v' r') (hlt : v < v') : r ≤ r' := by
  by_contra hgt
  rw [not_le] at hgt
  have hbelow := h.below r' h'.representable h'.nonneg hgt
  have habove := h'.above r h.representable hgt
  rw [add_comm r r'] at habove
  linarith

/-- With 78 digits the square of a root that is not extremely small is off by less than a part in `10 ^ 76`. -/
theorem sq_error (hp : 78 ≤ ctx.precision) (h : ctx.IsRoot v r) (hr : 1 / 10 ^ 100 ≤ r) :
    |r * r - v| ≤ r * r / 10 ^ 76 := by
  have hsquare : 0 < r * r := mul_pos (by linarith) (by linarith)
  obtain ⟨z, hz, hnear⟩ := Rounds.exists_representable_close hp (r + 2 * (r / 10 ^ 77))
  obtain ⟨w, hw, hnear'⟩ := Rounds.exists_representable_close hp (r - 2 * (r / 10 ^ 77))
  rw [abs_of_pos (show 0 < r + 2 * (r / 10 ^ 77) by linarith), abs_le] at hnear
  rw [abs_of_pos (show 0 < r - 2 * (r / 10 ^ 77) by linarith), abs_le] at hnear'
  have habove := h.above z hz (by linarith)
  have hbelow := h.below w hw (by linarith) (by linarith)
  have hhigh : (z + r) / 2 * ((z + r) / 2) ≤ (r + 2 * (r / 10 ^ 77)) * (r + 2 * (r / 10 ^ 77)) :=
    mul_self_le_mul_self (by linarith) (by linarith)
  have hlow : (r - 2 * (r / 10 ^ 77)) * (r - 2 * (r / 10 ^ 77)) ≤ (w + r) / 2 * ((w + r) / 2) :=
    mul_self_le_mul_self (by linarith) (by linarith)
  rw [abs_le]
  constructor <;> linarith

end Context.IsRoot

namespace Context

variable {ctx : Context} {v q r : ℚ}

theorem Rounds.isRoot_sq (h : ctx.Rounds q r) (hq : 0 ≤ q) : ctx.IsRoot (q * q) r where
  representable := h.representable
  nonneg := h.nonneg hq
  below z hz hz0 hlt := by
    have hmiddle := h.middle_le hz hlt
    have hr := h.nonneg hq
    exact mul_self_le_mul_self (by linarith) hmiddle
  above z hz hlt := mul_self_le_mul_self hq (h.le_middle hz hlt)

/-- What is nearest to all numbers between two is nearest to every root between them. -/
theorem IsRoot.of_between (low high : ℚ) (hlow0 : 0 ≤ low) (hlt : low < high) (hlow : low * low ≤ v)
    (hhigh : v ≤ high * high) (h : ∀ q, low < q → q < high → ctx.Rounds q r) : ctx.IsRoot v r := by
  have hround := h _ (left_lt_add_div_two.mpr hlt) (add_div_two_lt_right.mpr hlt)
  have hr0 := hround.nonneg (by linarith)
  refine ⟨hround.representable, hr0, fun z hz hz0 hzr => ?_, fun z hz hrz => ?_⟩
  · have hmiddle : (z + r) / 2 ≤ low := by
      by_contra hgt
      obtain ⟨q, hq, hq'⟩ := exists_between (lt_min (not_le.mp hgt) hlt)
      have hle := (h q hq (lt_of_lt_of_le hq' (min_le_right _ _))).middle_le hz hzr
      exact absurd hle (not_le.mpr (lt_of_lt_of_le hq' (min_le_left _ _)))
    exact (mul_self_le_mul_self (by linarith) hmiddle).trans hlow
  · have hmiddle : high ≤ (z + r) / 2 := by
      by_contra hgt
      obtain ⟨q, hq, hq'⟩ := exists_between (max_lt (not_le.mp hgt) hlt)
      have hle := (h q (lt_of_le_of_lt (le_max_right _ _) hq) hq').le_middle hz hrz
      exact absurd hle (not_le.mpr (lt_of_le_of_lt (le_max_left _ _) hq))
    exact hhigh.trans (mul_self_le_mul_self (by linarith) hmiddle)

end Context

theorem Finite.sqrt_isRoot {ctx : Context} {x y : Finite} (h0 : 0 ≤ x.value) (hy : x.sqrt ctx = .ok y) :
    ctx.IsRoot x.value y.value := by
  rcases h0.eq_or_lt with hzero | hpos
  · obtain ⟨s, hs, hsz⟩ := sqrt_of_zero ctx hzero.symm
    have hround := (Context.fit_computes ctx s).rounds y (hs ▸ hy)
    have hroot := hround.isRoot_sq hsz.ge
    rwa [hsz, mul_zero, hzero] at hroot
  · obtain ⟨s, hs, hs0, hcell⟩ := sqrt_cell ctx hpos
    rw [hs, Context.fit_eq] at hy
    obtain rfl := Context.checkOverflow_eq_ok hy
    rcases hcell with hexact | ⟨root, e, rfl, hlong, hlow, hhigh⟩
    · have hroot := (Context.rounded_rounds ctx s).isRoot_sq hs0
      rwa [hexact] at hroot
    · have hp := ten_zpow_pos e
      apply Context.IsRoot.of_between (root * 10 ^ e) ((root + 1) * 10 ^ e) (by positivity)
        (by linarith) hlow hhigh.le
      intro q hq hq'
      have hmarked := (standsIn_marked ctx false hlong hq hq').rounds
      simpa using hmarked

end NumericContract.Decimal
