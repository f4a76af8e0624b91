import NumericContract.Proofs.Curve.Regular

/-!
# Where a curve begins

In a range of outcomes a curve begins at the least one at which it is defined, and that is what a search
finds that probes all of the range. Where `b` is zero the number under the root is a square and its root
is exact, so that `u` cancels to zero at the pole and everywhere left of it, whatever the other
coefficients are. There the beginning follows from the place of the pole, without a search.
-/

namespace NumericContract

open Decimal

variable {ctx : Context} {lower upper x : ℤ}

namespace Curve

variable {curve : Curve} {first? : Option ℤ}

/-- Where in a range a curve begins: at the least outcome at which it is defined, unless it is undefined
at all of them. -/
def BeginsAt (ctx : Context) (curve : Curve) (lower upper : ℤ) : Option ℤ → Prop
  | some first => IsLeast {x | lower ≤ x ∧ x ≤ upper ∧ curve.isDefinedAt ctx x = .ok true} first
  | none => ∀ x, lower ≤ x → x ≤ upper → curve.isDefinedAt ctx x = .ok false

theorem BeginsAt.mem_iff (h : curve.BeginsAt ctx lower upper first?) {first : ℤ} :
    first ∈ first? ↔
      IsLeast {x | lower ≤ x ∧ x ≤ upper ∧ curve.isDefinedAt ctx x = .ok true} first := by
  cases first? with
  | some least =>
      rw [Option.mem_some_iff]
      constructor
      · rintro rfl
        exact h
      · exact IsLeast.unique h
  | none =>
      simp only [Option.not_mem_none, false_iff]
      intro hleast
      have hdefined := hleast.1.2.2
      rw [h first hleast.1.1 hleast.1.2.1] at hdefined
      cases hdefined

theorem BeginsAt.unique {first?' : Option ℤ} (h : curve.BeginsAt ctx lower upper first?)
    (h' : curve.BeginsAt ctx lower upper first?') : first? = first?' := by
  apply Option.ext
  intro first
  exact h.mem_iff.trans h'.mem_iff.symm

theorem BeginsAt.cons (h : curve.BeginsAt ctx (lower + 1) upper first?)
    (hundefined : curve.isDefinedAt ctx lower = .ok false) :
    curve.BeginsAt ctx lower upper first? := by
  have hnext : ∀ x, lower ≤ x → curve.isDefinedAt ctx x ≠ .ok false → lower + 1 ≤ x := by
    intro x hx hne
    by_contra hlt
    obtain rfl : lower = x := by omega
    exact hne hundefined
  cases first? with
  | some first =>
      obtain ⟨⟨hlow, hdefined⟩, hleast⟩ := h
      refine ⟨⟨by omega, hdefined⟩, ?_⟩
      rintro x ⟨hx, hxu, hxd⟩
      exact hleast ⟨hnext x hx (by rw [hxd]; simp), hxu, hxd⟩
  | none =>
      intro x hx hxu
      by_contra hne
      exact hne (h x (hnext x hx hne) hxu)

theorem scan_beginsAt {count : ℕ}
    (hknown : ∀ x, lower ≤ x → x < lower + count → ∃ b, curve.isDefinedAt ctx x = .ok b) :
    ∃ first?, curve.scan ctx lower count = .ok first? ∧
      curve.BeginsAt ctx lower (lower + count - 1) first? := by
  induction count generalizing lower with
  | zero =>
      refine ⟨none, rfl, ?_⟩
      intro x hx hxu
      simp only [Nat.cast_zero] at hxu
      omega
  | succ count ih =>
      obtain ⟨b, hb⟩ := hknown lower le_rfl (by push_cast; omega)
      unfold scan
      rw [bind_of_ok hb]
      cases b with
      | true =>
          refine ⟨some lower, rfl, ⟨le_rfl, by push_cast; omega, hb⟩, ?_⟩
          intro x hx
          exact hx.1
      | false =>
          have hrest : ∀ x, lower + 1 ≤ x → x < lower + 1 + count →
              ∃ b, curve.isDefinedAt ctx x = .ok b := by
            intro x hx hxu
            exact hknown x (by omega) (by push_cast; omega)
          obtain ⟨first?, hscan, hbegins⟩ := ih hrest
          have hend : lower + (count + 1 : ℕ) - 1 = lower + 1 + count - 1 := by
            push_cast
            ring
          refine ⟨first?, hscan, ?_⟩
          rw [hend]
          exact hbegins.cons hb

theorem isDefinedAt_of_scan {count : ℕ} (h : curve.scan ctx lower count = .ok (some x)) :
    curve.isDefinedAt ctx x = .ok true := by
  induction count generalizing lower with
  | zero => cases h
  | succ count ih =>
      unfold scan at h
      obtain ⟨b, hb, h⟩ := bind_eq_ok.mp h
      cases b with
      | true =>
          cases h
          exact hb
      | false => exact ih h

theorem probe_beginsAt (hle : lower ≤ upper) {steps : ℤ} (hsteps : upper - lower + 1 ≤ steps)
    (hknown : ∀ x, lower ≤ x → x ≤ upper → ∃ b, curve.isDefinedAt ctx x = .ok b) :
    ∃ first?, curve.probe ctx lower upper steps = .ok first? ∧
      curve.BeginsAt ctx lower upper first? := by
  have hall : ∀ x, lower ≤ x → x < lower + (upper - lower + 1).toNat →
      ∃ b, curve.isDefinedAt ctx x = .ok b := by
    intro x hx hxu
    exact hknown x hx (by omega)
  obtain ⟨first?, hscan, hbegins⟩ := scan_beginsAt hall
  refine ⟨first?, ?_, ?_⟩
  · rw [probe, min_eq_left hsteps, hscan]
  · have hend : lower + ((upper - lower + 1).toNat : ℤ) - 1 = upper := by omega
    rwa [hend] at hbegins

end Curve

namespace Hyperbola

variable {h : Hyperbola}

/-- Where `b` is zero a hyperbola is defined right of its pole, and nowhere else. -/
theorem isDefinedAt_eq (hs : h.Scaled) (hb : h.b.value = 0) (ctx : Context) (h0 : 0 ≤ x)
    (h1 : x < 10 ^ 18) :
    (Curve.hyperbola h).isDefinedAt ctx x = .ok (decide (h.pole < x)) := by
  have hsize := hs.abs_distance_le h0 h1
  obtain ⟨u, hu, huv⟩ := radical?_exact hs hb ctx hsize
  have heval : h.evaluate ctx x = h.payoutAt ctx.widened u := bind_of_ok hu _
  by_cases hpole : h.pole < x
  · have hdistance := hs.le_distance hpole
    rw [abs_of_pos (sub_pos.mpr hpole)] at hsize huv
    have hcu : |h.c.value * u.value| ≤ 10 ^ 100 := by
      rw [huv, abs_mul, abs_of_nonneg (show 0 ≤ (x : ℚ) - h.pole + (x - h.pole) by linarith)]
      have hproduct := mul_le_mul hs.c.abs_lt.le (add_le_add hsize hsize) (by linarith) (by norm_num)
      linarith
    obtain ⟨-, -, -, -, z, hz, -⟩ := payoutAt_rounds hs ctx (u := u) (by linarith) hcu
    rw [decide_eq_true hpole]
    exact Curve.isDefinedAt_iff.mpr ⟨z, heval.trans hz⟩
  · rw [abs_of_nonpos (by linarith), add_neg_cancel] at huv
    obtain ⟨v, hv, -, hinfinite⟩ := payoutAt_of_isZero ctx.widened hs.moderate ((Finite.isZero_iff u).mpr huv)
    rw [decide_eq_false hpole, ← hinfinite]
    exact bind_of_ok (heval.trans hv) _

theorem firstRightOf_beginsAt
    (hdefined : ∀ x, lower ≤ x → x ≤ upper →
      (Curve.hyperbola h).isDefinedAt ctx x = .ok (decide (h.pole < x))) :
    (Curve.hyperbola h).BeginsAt ctx lower upper (h.firstRightOf lower upper) := by
  unfold firstRightOf
  split
  · next hle =>
    have hpole := firstAfterPole_le_iff.mp (le_max_right lower h.firstAfterPole)
    refine ⟨⟨le_max_left _ _, hle, ?_⟩, ?_⟩
    · rw [hdefined _ (le_max_left _ _) hle, decide_eq_true hpole]
    · rintro x ⟨hx, hxu, hxd⟩
      rw [hdefined x hx hxu, Except.ok.injEq, decide_eq_true_eq] at hxd
      exact max_le hx (firstAfterPole_le_iff.mpr hxd)
  · next hlt =>
    intro x hx hxu
    have hright : ¬h.pole < x := by
      intro hpole
      exact hlt ((max_le hx (firstAfterPole_le_iff.mpr hpole)).trans hxu)
    rw [hdefined x hx hxu, decide_eq_false hright]

theorem isDefinedAt_of_firstDefined (hs : h.Scaled) (h0 : 0 ≤ lower) (h1 : upper < 10 ^ 18) {steps : ℤ}
    (hfirst : (Curve.hyperbola h).firstDefined ctx lower upper steps = .ok (some x)) :
    (Curve.hyperbola h).isDefinedAt ctx x = .ok true := by
  by_cases hb : h.b.isZero = true
  · have hbegins : (Curve.hyperbola h).BeginsAt ctx lower upper (h.firstRightOf lower upper) :=
      firstRightOf_beginsAt fun y hy hyu =>
        isDefinedAt_eq hs ((Finite.isZero_iff _).mp hb) ctx (h0.trans hy) (hyu.trans_lt h1)
    rw [firstDefined_eq hb] at hfirst
    exact (hbegins.mem_iff.mp (Except.ok.inj hfirst)).1.2.2
  · simp only [Curve.firstDefined] at hfirst
    rw [if_neg hb] at hfirst
    exact Curve.isDefinedAt_of_scan hfirst

/-- Where `b` is zero the beginning that is told by the pole is the least outcome of the range at which the
hyperbola is defined, and what a search through the whole range would find; from it on the hyperbola
is defined. -/
theorem firstDefined_eq_probe (hs : h.Scaled) (hb : h.b.isZero = true) (ctx : Context) (h0 : 0 ≤ lower)
    (hle : lower ≤ upper) (h1 : upper < 10 ^ 18) :
    ∃ first?, (Curve.hyperbola h).BeginsAt ctx lower upper first? ∧
      (∀ steps, (Curve.hyperbola h).firstDefined ctx lower upper steps = .ok first?) ∧
      (∀ steps, upper - lower + 1 ≤ steps →
        (Curve.hyperbola h).probe ctx lower upper steps = .ok first?) ∧
      ∀ first ∈ first?, ∀ x, first ≤ x → x ≤ upper →
        (Curve.hyperbola h).isDefinedAt ctx x = .ok true := by
  have hdefined : ∀ x, lower ≤ x → x ≤ upper →
      (Curve.hyperbola h).isDefinedAt ctx x = .ok (decide (h.pole < x)) := by
    intro x hx hxu
    exact isDefinedAt_eq hs ((Finite.isZero_iff _).mp hb) ctx (h0.trans hx) (hxu.trans_lt h1)
  have hbegins := firstRightOf_beginsAt hdefined
  refine ⟨h.firstRightOf lower upper, hbegins, firstDefined_eq hb ctx lower upper, ?_, ?_⟩
  · intro steps hsteps
    obtain ⟨first?, hprobe, hbegins'⟩ := Curve.probe_beginsAt hle hsteps fun x hx hxu =>
      ⟨_, hdefined x hx hxu⟩
    rw [hprobe, hbegins'.unique hbegins]
  · intro first hfirst x hx hxu
    obtain ⟨⟨hlow, hfu, hfd⟩, -⟩ := hbegins.mem_iff.mp hfirst
    rw [hdefined first hlow hfu, Except.ok.injEq, decide_eq_true_eq] at hfd
    have hx' : (first : ℚ) ≤ x := by exact_mod_cast hx
    rw [hdefined x (hlow.trans hx) hxu, decide_eq_true (hfd.trans_le hx')]

/-- A pole between two outcomes, and payouts that rise with `c` far right of it. -/
def poleBetween : Hyperbola :=
  ⟨.ofInt 1, .ofInt 0, .ofInt 1, .ofInt 1, ⟨false, 25, -1⟩, .ofInt 0, true, Finite.isZero_one⟩

/-- One step is enough for the one and nine are for the other. -/
theorem firstDefined_eq_probe_between :
    (Curve.hyperbola poleBetween).firstDefined .standard 1 9 1 = .ok (some 3) ∧
      (Curve.hyperbola poleBetween).probe .standard 1 9 9 = .ok (some 3) := by
  have hscaled : poleBetween.Scaled := scaled_of_digits (by decide)
  obtain ⟨first?, -, hfirst, hprobe, -⟩ := firstDefined_eq_probe hscaled (by decide) .standard
    (show (0 : ℤ) ≤ 1 by decide) (show (1 : ℤ) ≤ 9 by decide) (by decide)
  have hthree : (Curve.hyperbola poleBetween).firstDefined .standard 1 9 1 = .ok (some 3) := by
    decide +kernel
  obtain rfl : some 3 = first? := Except.ok.inj (hthree.symm.trans (hfirst 1))
  exact ⟨hthree, hprobe 9 (by decide)⟩

end Hyperbola

end NumericContract
