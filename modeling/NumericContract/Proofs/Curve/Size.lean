import NumericContract.Proofs.Curve.Line
import NumericContract.Proofs.Curve.RectangularSpan
import NumericContract.Proofs.Staircase.Segments

/-!
# The number of payout ranges

A monotone staircase changes fewer times than it has levels, whatever the number of outcomes. So the
number of ranges that a span is split into follows the levels of the segments that are walked: for each
of them one more than it takes moduli to reach the collateral, and two for the ends of the span.
-/

namespace NumericContract

open Decimal PayoutRange

/-! ## Changes -/

/-- The outcomes strictly between two others at which a payout differs from the one just before. -/
noncomputable def changes (f : ℤ → ℤ) (a b : ℤ) : Finset ℤ :=
  {x ∈ Finset.Ioo a b | f (x - 1) ≠ f x}

section changes

variable {f : ℤ → ℤ} {a b c x : ℤ}

@[simp] theorem mem_changes : x ∈ changes f a b ↔ (a < x ∧ x < b) ∧ f (x - 1) ≠ f x := by
  simp [changes]

theorem card_changes_le_outcomes (f : ℤ → ℤ) (a b : ℤ) : (changes f a b).card ≤ (b - a - 1).toNat :=
  (Finset.card_filter_le _ _).trans (Int.card_Ioo a b).le

theorem changes_subset (f : ℤ → ℤ) (a b c : ℤ) :
    changes f a c ⊆ changes f a b ∪ insert b (changes f b c) := by
  intro x hx
  simp only [Finset.mem_union, Finset.mem_insert, mem_changes] at hx ⊢
  omega

theorem card_changes_le (f : ℤ → ℤ) (a b c : ℤ) :
    (changes f a c).card ≤ (changes f a b).card + ((changes f b c).card + 1) :=
  (Finset.card_le_card (changes_subset f a b c)).trans
    ((Finset.card_union_le _ _).trans (Nat.add_le_add_left (Finset.card_insert_le _ _) _))

/-- Payouts that go in one direction change fewer times than they have values. -/
theorem card_changes_lt (ascending : Bool) {values : Finset ℤ} (hab : a < b)
    (hvalues : ∀ x, a ≤ x → x < b → f x ∈ values)
    (hmono : ∀ x x', a ≤ x → x ≤ x' → x' < b → Ahead ascending (f x) (f x')) :
    (changes f a b).card < values.card := by
  -- a value that has been left is not met again
  have hleft : ∀ x ∈ changes f a b, ∀ y, a ≤ y → y < x → f y ≠ f x := by
    intro x hx y hy hyx heq
    obtain ⟨⟨hax, hxb⟩, hne⟩ := mem_changes.mp hx
    refine hne ((hmono (x - 1) x (by omega) (by omega) hxb).antisymm ?_)
    rw [← heq]
    exact hmono y (x - 1) hy (by omega) (by omega)
  have hmaps : Set.MapsTo f (changes f a b) (values.erase (f a)) := by
    intro x hx
    obtain ⟨⟨hax, hxb⟩, -⟩ := mem_changes.mp (Finset.mem_coe.mp hx)
    exact Finset.mem_coe.mpr (Finset.mem_erase.mpr
      ⟨(hleft x (Finset.mem_coe.mp hx) a le_rfl hax).symm, hvalues x hax.le hxb⟩)
  have hinj : Set.InjOn f (changes f a b) := by
    intro x hx y hy heq
    have hax := (mem_changes.mp (Finset.mem_coe.mp hx)).1.1
    have hay := (mem_changes.mp (Finset.mem_coe.mp hy)).1.1
    rcases lt_trichotomy x y with hlt | rfl | hgt
    · exact absurd heq (hleft y (Finset.mem_coe.mp hy) x hax.le hlt)
    · rfl
    · exact absurd heq.symm (hleft x (Finset.mem_coe.mp hx) y hay.le hgt)
  have hcard := Finset.card_le_card_of_injOn f hmaps hinj
  have herase := Finset.card_erase_lt_of_mem (hvalues a le_rfl hab)
  omega

/-- Ranges of which neighbours pay differently are at most one more than there are changes. -/
theorem PayoutRange.Tiles.length_le {rs : List PayoutRange} (h : Tiles a rs b) (hpays : Pays f rs)
    (hchain : rs.IsChain fun r s => r.payout ≠ s.payout) : rs.length ≤ (changes f a b).card + 1 := by
  induction rs generalizing a with
  | nil => exact Nat.zero_le _
  | cons r rest ih =>
      cases rest with
      | nil => exact Nat.le_add_left _ _
      | cons s rest =>
          obtain ⟨hfirst, hle, hrest⟩ := h
          obtain ⟨hne, hchain⟩ := List.isChain_cons_cons.mp hchain
          have hs := hrest.bounds_of_mem List.mem_cons_self
          have hr := hpays r List.mem_cons_self r.last (by omega) le_rfl
          have hs' := hpays s (by simp) s.first le_rfl hs.2.1
          have hlength := ih hrest (fun t ht => hpays t (List.mem_cons_of_mem r ht)) hchain
          -- one of the changes is where the second range begins
          have hsub : insert (r.last + 1) (changes f (r.last + 1) b) ⊆ changes f a b := by
            intro x hx
            rcases Finset.mem_insert.mp hx with rfl | hx
            · refine mem_changes.mpr ⟨⟨by omega, by omega⟩, ?_⟩
              rwa [add_sub_cancel_right, ← hr, ← hrest.1, ← hs']
            · obtain ⟨hbounds, hx⟩ := mem_changes.mp hx
              exact mem_changes.mpr ⟨⟨by omega, hbounds.2⟩, hx⟩
          have hcard := Finset.card_le_card hsub
          rw [Finset.card_insert_of_notMem (by simp)] at hcard
          rw [List.length_cons]
          omega

end changes

/-! ## Levels -/

namespace Segment

variable {s : Segment} {v : ℤ → ℚ} {level a b : ℤ} {f : ℤ → ℤ} {ascending : Bool}

def steps (s : Segment) : ℕ := ⌈(s.collateral : ℚ) / s.modulus⌉₊

theorem Sized.cap_eq (hs : s.Sized) : s.cap = s.steps * s.modulus := by
  have hm : (0 : ℚ) < s.modulus := by exact_mod_cast hs.modulus_pos
  have hc : (0 : ℚ) ≤ s.collateral := by exact_mod_cast hs.collateral_nonneg
  have hle : (s.collateral : ℚ) ≤ s.cap := by exact_mod_cast hs.collateral_le_cap
  have hlt : (s.cap : ℚ) < s.collateral + s.modulus := by exact_mod_cast hs.cap_lt
  obtain ⟨k, hk⟩ := s.dvd_cap
  rw [hk, Int.cast_mul] at hle hlt
  have hsteps : (s.steps : ℤ) = k := by
    rw [steps, Int.natCast_ceil_eq_ceil (div_nonneg hc hm.le), Int.ceil_eq_iff, lt_div_iff₀ hm, div_le_iff₀ hm]
    constructor <;> linarith
  rw [hk, hsteps, mul_comm]

def payouts (s : Segment) : Finset ℤ := (Finset.range (s.steps + 1)).image fun k : ℕ => s.pay (k * s.modulus)

theorem card_payouts_le (s : Segment) : s.payouts.card ≤ s.steps + 1 :=
  Finset.card_image_le.trans (Finset.card_range _).le

theorem IsLevel.pay_mem (hl : s.IsLevel level) (hs : s.Sized) : s.pay level ∈ s.payouts := by
  obtain ⟨k, rfl⟩ := hl.dvd
  have hcap := hl.le_cap
  rw [hs.cap_eq, mul_comm, mul_le_mul_iff_left₀ hs.modulus_pos] at hcap
  have hk : 0 ≤ k := nonneg_of_mul_nonneg_right hl.nonneg hs.modulus_pos
  lift k to ℕ using hk
  exact Finset.mem_image.mpr ⟨k, Finset.mem_range.mpr (by omega), by rw [mul_comm]⟩

theorem pay_ahead (s : Segment) {level' : ℤ} (h : Ahead ascending level level') :
    Ahead ascending (s.pay level) (s.pay level') := by
  cases ascending with
  | false => exact min_le_min_right s.collateral (show level' ≤ level from h)
  | true => exact min_le_min_right s.collateral (show level ≤ level' from h)

theorem Sized.card_changes_le (hs : s.Sized) (hab : a < b)
    (hf : ∀ x, a ≤ x → x < b → f x = s.pay (s.level (v x)))
    (hmono : ∀ x x', a ≤ x → x ≤ x' → x' < b → Ahead ascending (v x) (v x')) :
    (changes f a b).card ≤ s.steps := by
  have hcard : (changes f a b).card < s.payouts.card := by
    refine card_changes_lt ascending hab (fun x hx hxb => ?_) fun x x' hx hxx hxb => ?_
    · rw [hf x hx hxb]
      exact (hs.isLevel_level _).pay_mem hs
    · rw [hf x hx (by omega), hf x' (by omega) hxb]
      exact s.pay_ahead (level_ahead hs (hmono x x' hx hxx hxb))
  have hle := s.card_payouts_le
  omega

end Segment

namespace Stretch

variable {s : Stretch} {v : ℤ → ℚ} {start : ℤ} {ascending : Bool}

theorem card_changes_segmentEnd (hs : s.Sized) (hlt : start < s.stop)
    (hmono : ∀ x x', start ≤ x → x ≤ x' → x' < s.stop → Ahead ascending (v x) (v x')) :
    (changes (s.payout v) start (s.policy.segmentEnd start s.stop)).card ≤ (s.segmentAt start).steps :=
  (hs.segmentAt start).card_changes_le (s.policy.lt_segmentEnd hlt)
    (fun _ hx hxs => payout_eq hs hx hxs)
    fun x x' hx hxx hxs => hmono x x' hx hxx (hxs.trans_le (s.policy.segmentEnd_le start s.stop))

/-- Along a monotone stretch each segment adds its own changes, and one where the next one begins. -/
theorem card_changes_lt (hs : s.Sized) (hlt : start < s.stop)
    (hmono : ∀ x x', start ≤ x → x ≤ x' → x' < s.stop → Ahead ascending (v x) (v x')) :
    (changes (s.payout v) start s.stop).card <
      ∑ k ∈ Finset.range ((s.policy.startsBetween start s.stop).card + 1),
        ((s.segmentAt (s.policy.segmentStart start s.stop k)).steps + 1) := by
  induction hn : (s.policy.startsBetween start s.stop).card generalizing start with
  | zero =>
      have hown := card_changes_segmentEnd hs hlt hmono
      have hstop : s.policy.segmentEnd start s.stop = s.stop := by
        have hlast := (s.policy.segmentStart_card hlt).2
        rwa [hn, s.policy.segmentStart_succ, s.policy.segmentStart_zero] at hlast
      rw [hstop] at hown
      rw [Finset.sum_range_one]
      exact Nat.lt_succ_of_le hown
  | succ n ih =>
      have hown := card_changes_segmentEnd hs hlt hmono
      have hnext : s.policy.segmentEnd start s.stop < s.stop := by
        apply (s.policy.segmentEnd_le start s.stop).lt_of_ne
        intro hend
        simp [RoundingPolicy.startsBetween_of_segmentEnd_eq hend] at hn
      have hcard := RoundingPolicy.card_startsBetween_of_segmentEnd_lt hnext
      have hrest := ih hnext (fun x x' hx => hmono x x' ((s.policy.lt_segmentEnd hlt).le.trans hx))
        (by omega)
      simp only [s.policy.segmentStart_segmentEnd] at hrest
      have hsum := card_changes_le (s.payout v) start (s.policy.segmentEnd start s.stop) s.stop
      rw [Finset.sum_range_succ', s.policy.segmentStart_zero]
      omega

/-- While one modulus applies, the bound is the one for a single segment. -/
theorem card_changes_le_of_modulus (hs : s.Sized) (hlt : start < s.stop) {m : ℤ}
    (hm : ∀ x, start ≤ x → x < s.stop → s.policy.modulusAt x = m)
    (hmono : ∀ x x', start ≤ x → x ≤ x' → x' < s.stop → Ahead ascending (v x) (v x')) :
    (changes (s.payout v) start s.stop).card ≤ ⌈(s.collateral : ℚ) / m⌉₊ := by
  have hown := (hs.segmentAt start).card_changes_le hlt
    (fun x hx hxs => payout_eq_pay (hs.segmentAt start) rfl ((hm x hx hxs).trans (hm start le_rfl hlt).symm))
    hmono
  have hsteps : (s.segmentAt start).steps = ⌈(s.collateral : ℚ) / m⌉₊ := by
    rw [← hm start le_rfl hlt]
    rfl
  rwa [hsteps] at hown

end Stretch

/-! ## Spans -/

namespace Span

variable {span : Span} {collateral : ℤ} {ranges : List PayoutRange} {intervals : List RoundingInterval}
  {settings : Settings} {ctx : Context} {curve : Curve} {policy : RoundingPolicy} {f : ℤ → ℤ} {start : ℤ}

/-- A span has at most one range more than its payouts change. -/
theorem IsSplit.length_le (h : span.IsSplit collateral ranges) :
    ranges.length ≤ (changes (fun x => (payoutAt? ranges x).getD 0) span.first (span.last + 1)).card + 1 := by
  refine h.tiles.length_le (fun r hr x hx hxr => ?_) h.neighbours
  rw [h.tiles.payoutAt?_of_mem hr hx hxr]
  rfl

theorem IsSplit.length_le_two (h : span.IsSplit collateral ranges) (hnarrow : span.last - span.first ≤ 1) :
    ranges.length ≤ 2 := by
  have hle := h.length_le
  have hcard := card_changes_le_outcomes (fun x => (payoutAt? ranges x).getD 0) span.first (span.last + 1)
  omega

/-- The outcomes before the curve begins are paid what it pays there, so that no change is among them:
two more are where the inside begins and at the last outcome. -/
theorem IsSplit.length_le_of_pays (h : span.IsSplit collateral ranges)
    (hpays : ∀ x, span.first < x → x < span.last → payoutAt? ranges x = some (f (max start x))) :
    ranges.length ≤ (changes f start span.last).card + 3 := by
  have hsub : changes (fun x => (payoutAt? ranges x).getD 0) span.first (span.last + 1) ⊆
      insert (span.first + 1) (insert span.last (changes f start span.last)) := by
    intro x hx
    obtain ⟨⟨hfirst, hlast⟩, hne⟩ := mem_changes.mp hx
    simp only [Finset.mem_insert]
    by_cases hends : x = span.first + 1 ∨ x = span.last
    · exact hends.elim Or.inl fun hend => Or.inr (Or.inl hend)
    · rw [hpays x hfirst (by omega), hpays (x - 1) (by omega) (by omega)] at hne
      have hstart : start < x := by
        by_contra hbefore
        rw [max_eq_left (not_lt.mp hbefore), max_eq_left (by omega)] at hne
        exact hne rfl
      rw [max_eq_right hstart.le, max_eq_right (by omega)] at hne
      exact Or.inr (Or.inr (mem_changes.mpr ⟨⟨hstart, by omega⟩, hne⟩))
  have hcard := Finset.card_le_card hsub
  have hfirst := Finset.card_insert_le (span.first + 1) (insert span.last (changes f start span.last))
  have hlast := Finset.card_insert_le span.last (changes f start span.last)
  have hle := h.length_le
  omega

end Span

/-- The curves of the design scale along which every walk keeps its direction: lines, and rectangular
hyperbolas with an integer pole. -/
inductive Curve.Steady : Curve → Prop
  | line {l : Line} (hl : l.AtScale) : Steady (.line l)
  | hyperbola {h : Hyperbola} {pole : ℤ} (ha : h.AtScale) (hpole : h.pole = pole) : Steady (.hyperbola h)

namespace Span

variable {span : Span} {collateral : ℤ} {ranges : List PayoutRange} {intervals : List RoundingInterval}
  {settings : Settings} {ctx : Context} {curve : Curve} {policy : RoundingPolicy}

/-- From where the curve begins on, the inside of a span pays what a monotone function is rounded to. -/
theorem exists_monotone (hscale : span.AtScale collateral intervals) (hcurve : curve.Steady)
    (hpolicy : RoundingPolicy.ofList intervals = .ok policy) (hctx : settings.context = .ok ctx)
    (hsplit : span.splitByIntervals collateral curve intervals settings = .ok ranges)
    (hwide : 1 < span.last - span.first) :
    ∃ (start : ℤ) (v : ℤ → ℚ) (ascending : Bool),
      (span.stretch collateral curve policy settings).findStart ctx (span.first + 1) = .ok start ∧
      (∀ x x', start ≤ x → x ≤ x' → Ahead ascending (v x) (v x')) ∧
      ∀ x, span.first < x → x < span.last → payoutAt? ranges x =
        some ((span.stretch collateral curve policy settings).payout v (max start x)) := by
  obtain ⟨hne, rfl⟩ := RoundingPolicy.ofList_eq_ok.mp hpolicy
  cases hcurve with
  | @line l hl =>
      obtain ⟨p⟩ := hl.parts
      obtain ⟨hblocked, hfree⟩ := splitByIntervals_line_of_context p hscale hne hctx
      have hnot : ¬span.LineBlocked collateral l := by
        intro h
        cases hsplit.symm.trans (hblocked h)
      obtain ⟨ranges', hranges', hpays⟩ := hfree hnot
      obtain rfl := Except.ok.inj (hsplit.symm.trans hranges')
      refine ⟨span.first + 1, l.exact, decide (0 < p.slope),
        (findStart_line p hscale hne settings ctx hwide).2 fun h => hnot ⟨hwide, h⟩,
        fun x x' _ hxx => p.exact_ahead hxx, fun x hx hxl => ?_⟩
      rw [max_eq_right (by omega)]
      exact hpays x hx hxl
  | @hyperbola h pole ha hpole =>
      obtain ⟨hblocked, hfree⟩ := findStart_hyperbola ha hscale hne settings ctx hwide
      have hnot : ¬span.HyperbolaBlocked collateral h := by
        intro hb
        cases hsplit.symm.trans
          (splitByIntervals_of_fault hscale.check hpolicy hctx hwide (hblocked hb))
      obtain ⟨ranges', hranges', hpays⟩ := splitByIntervals_of_not_misled ha hscale hne hctx hnot
        (not_misled hscale ha hne hpole)
      obtain rfl := Except.ok.inj (hsplit.symm.trans hranges')
      refine ⟨span.startRightOf h, h.exact, h.ascends, (hfree hnot).1, fun x x' hx hxx => ?_, hpays⟩
      have hx' : (span.startRightOf h : ℚ) ≤ x := by exact_mod_cast hx
      exact Hyperbola.exact_ahead ((span.pole_lt_startRightOf h).trans_le hx') hxx

/-- The number of ranges follows the levels and not the outcomes. Beside the two ends, each segment that
the walk meets adds one more than it takes moduli to reach the collateral; where one modulus applies
throughout, the segments count as one. -/
theorem splitByIntervals_length (hscale : span.AtScale collateral intervals) (hcurve : curve.Steady)
    (hpolicy : RoundingPolicy.ofList intervals = .ok policy) (hctx : settings.context = .ok ctx)
    (hsplit : span.splitByIntervals collateral curve intervals settings = .ok ranges) :
    (span.last - span.first ≤ 1 → ranges.length ≤ 2) ∧
    (1 < span.last - span.first → ∃ start,
      (span.stretch collateral curve policy settings).findStart ctx (span.first + 1) = .ok start ∧
      ranges.length ≤ 2 + ∑ k ∈ Finset.range ((policy.startsBetween start span.last).card + 1),
        (⌈(collateral : ℚ) / policy.modulusAt (policy.segmentStart start span.last k)⌉₊ + 1)) ∧
    ∀ m : ℤ, (∀ x, span.first < x → x < span.last → policy.modulusAt x = m) →
      ranges.length ≤ ⌈(collateral : ℚ) / m⌉₊ + 3 := by
  have hs : (span.stretch collateral curve policy settings).Sized := by
    obtain ⟨hne, rfl⟩ := RoundingPolicy.ofList_eq_ok.mp hpolicy
    exact hscale.sized curve settings hne
  have hranges : span.IsSplit collateral ranges := by
    obtain ⟨-, -, h⟩ := bind_eq_ok.mp hsplit
    obtain ⟨policy', hpolicy', h⟩ := bind_eq_ok.mp h
    exact isSplit_of_split hscale.collateral_lt (sized_ofList hscale.modulus_lt hpolicy') h
  by_cases hwide : 1 < span.last - span.first
  · obtain ⟨start, v, ascending, hstart, hmono, hpays⟩ :=
      exists_monotone hscale hcurve hpolicy hctx hsplit hwide
    obtain ⟨hfirst, hlast⟩ := Stretch.findStart_bounds hstart
    have hlength := hranges.length_le_of_pays hpays
    refine ⟨fun hnarrow => absurd hwide (by omega), fun _ => ⟨start, hstart, ?_⟩, fun m hm => ?_⟩
    · have hcard := Stretch.card_changes_lt hs hlast fun x x' hx hxx _ => hmono x x' hx hxx
      exact hlength.trans ((Nat.add_le_add_right hcard 2).trans (Nat.add_comm _ 2).le)
    · have hcard := Stretch.card_changes_le_of_modulus hs hlast
        (fun x hx hxl => hm x (by omega) hxl) fun x x' hx hxx _ => hmono x x' hx hxx
      exact hlength.trans (Nat.add_le_add_right hcard 3)
  · have htwo := hranges.length_le_two (not_lt.mp hwide)
    exact ⟨fun _ => htwo, fun h => absurd h hwide, fun m _ => by omega⟩

/-- A payout that falls from the collateral to nothing in four steps of thirty, over `10 ^ 17` outcomes. -/
theorem splitByIntervals_length_wide : ∃ ranges,
    splitByIntervals ⟨0, 10 ^ 17, 100, 0⟩ 100 (.hyperbola ⟨.ofInt 1, .ofInt 0, .ofInt 0, .ofInt (10 ^ 12),
      .ofInt 0, .ofInt 0, true, by decide⟩) [⟨0, 30, by decide, by decide⟩] Settings.standard = .ok ranges ∧
      ranges.length ≤ 7 := by
  let h : Hyperbola :=
    ⟨.ofInt 1, .ofInt 0, .ofInt 0, .ofInt (10 ^ 12), .ofInt 0, .ofInt 0, true, by decide⟩
  let policy : RoundingPolicy := .ofNonempty [⟨0, 30, by decide, by decide⟩] (by simp)
  have hscale : Span.AtScale ⟨0, 10 ^ 17, 100, 0⟩ 100 [⟨0, 30, by decide, by decide⟩] :=
    ⟨by decide, by decide, by decide, by decide, by decide, by decide, by decide, by simp⟩
  have ha : h.AtScale := by
    refine ⟨by decide, ?_, ?_, ?_, ?_⟩ <;> exact atScale_value (by decide) (by decide) (by decide)
  have hpole : h.pole = (0 : ℤ) := Finite.value_ofInt 0
  have hmodulus : ∀ x : ℤ, 0 < x → x < 10 ^ 17 → policy.modulusAt x = 30 := by
    intro x hx hxl
    have hend : policy.segmentEnd 1 (10 ^ 17) = 10 ^ 17 := by decide +kernel
    have hfirst : policy.modulusAt 1 = 30 := by decide +kernel
    exact (RoundingPolicy.modulusAt_eq hx (hxl.trans_eq hend.symm)).trans hfirst
  have hsplit : splitByIntervals ⟨0, 10 ^ 17, 100, 0⟩ 100 (.hyperbola h) [⟨0, 30, by decide, by decide⟩]
      Settings.standard = .ok [⟨0, 9523809523, 100⟩, ⟨9523809524, 13333333333, 90⟩,
        ⟨13333333334, 22222222222, 60⟩, ⟨22222222223, 66666666666, 30⟩, ⟨66666666667, 10 ^ 17, 0⟩] := by
    decide +kernel
  have hctx : Settings.standard.context = .ok ⟨78, by decide⟩ := by decide
  obtain ⟨-, -, hlength⟩ := splitByIntervals_length hscale (.hyperbola ha hpole) rfl hctx hsplit
  exact ⟨_, hsplit, (hlength 30 hmodulus).trans (by norm_num)⟩

end Span

end NumericContract
