import NumericContract.Proofs.Digits

/-!
# The order of digits

Digits of one length are ordered as the outcomes that they stand for. So two outcomes part with a
smaller digit against a greater one, and what they share before it is the longest common beginning
of their digits. Together with the two ways between digits and outcomes this is all that a cover
relies on.
-/

namespace NumericContract.Digits

variable {base x y d e : ℤ} {n : ℕ} {p q s t ds es : Digits}

/-! ## Leading digits in order -/

theorem not_prefix_of_high_le_low (hb : 2 ≤ base) (hp : Leading base n p) (hq : Leading base n q)
    (h : high base n p ≤ low base n q) : ¬p <+: q ∧ ¬q <+: p := by
  have hp' := low_lt_high hb n p
  have hq' := low_lt_high hb n q
  constructor
  · intro hpq
    have := hq.nested hb hpq
    omega
  · intro hqp
    have := hp.nested hb hqp
    omega

theorem lt_of_high_le_low (hb : 2 ≤ base) (hp : Leading base n p) (hq : Leading base n q)
    (h : high base n p ≤ low base n q) : p < q := by
  induction p generalizing n q with
  | nil =>
      have hbounds := hq.bounds hb
      have hlt := low_lt_high hb n q
      have hwhole : high base n [] = base ^ n := by simp [high]
      omega
  | cons c p ih =>
  cases q with
  | nil =>
      have hbounds := hp.bounds hb
      have hlt := low_lt_high hb n (c :: p)
      have hwhole : low base n [] = 0 := by simp [low]
      omega
  | cons d q =>
      obtain ⟨m, rfl, hc, hp'⟩ := leading_cons.mp hp
      obtain ⟨m', hm, hd, hq'⟩ := leading_cons.mp hq
      obtain rfl : m = m' := Nat.succ.inj hm
      rw [high_cons base c hp'.length_le, low_cons base d hq'.length_le] at h
      obtain hlt | heq | hgt := lt_trichotomy c d
      · exact List.Lex.rel hlt
      · subst heq
        exact List.Lex.cons (ih hp' hq' (by omega))
      · -- the outcomes of `c :: p` would begin after all outcomes of `d :: q`
        have hlow := (hp'.bounds hb).1
        have hhigh := (hq'.bounds hb).2
        have := low_lt_high hb m p
        have := low_lt_high hb m q
        have hpos : (0 : ℤ) < base ^ m := by positivity
        have hturn : (d + 1) * base ^ m ≤ c * base ^ m := mul_le_mul_of_nonneg_right hgt hpos.le
        rw [add_one_mul] at hturn
        omega

/-! ## Lexicographic order -/

theorem leading_ofOutcome (hb : 2 ≤ base) (n : ℕ) (x : ℤ) : Leading base n (ofOutcome base n x) :=
  ⟨valid_ofOutcome hb n x, (length_ofOutcome base n x).le⟩

theorem low_ofOutcome (hb : 2 ≤ base) (h0 : 0 ≤ x) (hx : x < base ^ n) :
    low base n (ofOutcome base n x) = x := by
  simp [low, toOutcome_ofOutcome_of_lt hb h0 hx]

theorem high_ofOutcome (hb : 2 ≤ base) (h0 : 0 ≤ x) (hx : x < base ^ n) :
    high base n (ofOutcome base n x) = x + 1 := by
  simp [high, toOutcome_ofOutcome_of_lt hb h0 hx]

theorem ofOutcome_lt (hb : 2 ≤ base) (h0 : 0 ≤ x) (hxy : x < y) (hy : y < base ^ n) :
    ofOutcome base n x < ofOutcome base n y := by
  apply lt_of_high_le_low hb (leading_ofOutcome hb n x) (leading_ofOutcome hb n y)
  rw [high_ofOutcome hb h0 (hxy.trans hy), low_ofOutcome hb (h0.trans hxy.le) hy]
  exact hxy

/-- The lexicographic order of digits is the order of outcomes. -/
theorem ofOutcome_lt_iff (hb : 2 ≤ base) (hx0 : 0 ≤ x) (hx : x < base ^ n) (hy0 : 0 ≤ y)
    (hy : y < base ^ n) : ofOutcome base n x < ofOutcome base n y ↔ x < y := by
  constructor
  · intro h
    rcases lt_trichotomy x y with hlt | rfl | hgt
    · exact hlt
    · exact absurd h (lt_irrefl _)
    · exact absurd h (lt_asymm (ofOutcome_lt hb hy0 hgt hx))
  · intro h
    exact ofOutcome_lt hb hx0 h hy

/-! ## Parted digits -/

theorem common_prefix_left (s t : Digits) : common s t <+: s := by
  fun_induction common s t with
  | case1 c cs ds ih => exact (List.cons_prefix_cons).mpr ⟨rfl, ih⟩
  | case2 c cs d ds h => exact List.nil_prefix
  | case3 => exact List.nil_prefix

theorem common_prefix_right (s t : Digits) : common s t <+: t := by
  fun_induction common s t with
  | case1 c cs ds ih => exact (List.cons_prefix_cons).mpr ⟨rfl, ih⟩
  | case2 c cs d ds h => exact List.nil_prefix
  | case3 => exact List.nil_prefix

theorem part_append (s t : Digits) :
    (part s t).shared ++ (part s t).first = s ∧ (part s t).shared ++ (part s t).last = t :=
  ⟨(List.prefix_append_drop (common_prefix_left s t)).symm,
    (List.prefix_append_drop (common_prefix_right s t)).symm⟩

theorem part_apart (h : (part s t).first = d :: ds) (h' : (part s t).last = e :: es) : d ≠ e := by
  simp only [part] at h h'
  fun_induction common s t with
  | case1 c cs ds ih => exact ih h h'
  | case2 c cs d ds hne =>
      cases h
      cases h'
      exact hne
  | case3 s t hnot =>
      cases h
      cases h'
      exact fun _ => hnot d ds e es rfl rfl

theorem prefix_common (hs : q <+: s) (ht : q <+: t) : q <+: common s t := by
  induction q generalizing s t with
  | nil => exact List.nil_prefix
  | cons c q ih =>
      obtain ⟨s, rfl⟩ := hs
      obtain ⟨t, rfl⟩ := ht
      simp only [List.cons_append, common, if_true]
      exact List.cons_prefix_cons.mpr ⟨rfl, ih (List.prefix_append q s) (List.prefix_append q t)⟩

theorem lt_of_toOutcome_le (hb : 2 ≤ base) (hes : Valid base es) (hds : Valid base ds)
    (hlength : ds.length = es.length) (hle : toOutcome base (d :: ds) ≤ toOutcome base (e :: es))
    (hne : d ≠ e) : d < e := by
  have hpos : (0 : ℤ) < base ^ es.length := by positivity
  rw [toOutcome_cons, toOutcome_cons, hlength] at hle
  have h0 := (toOutcome_bounds hb hds).1
  have hlt := (toOutcome_bounds hb hes).2
  have : d * base ^ es.length < (e + 1) * base ^ es.length := by linarith
  have := lt_of_mul_lt_mul_right this hpos.le
  omega

/-- Parted digits in ascending order are the same, or the first to differ is smaller before. -/
theorem part_ascends (hb : 2 ≤ base) (hs : Valid base s) (ht : Valid base t)
    (hlength : s.length = t.length) (hle : toOutcome base s ≤ toOutcome base t) :
    ((part s t).first = [] ∧ (part s t).last = []) ∨
      ∃ d ds e es, (part s t).first = d :: ds ∧ (part s t).last = e :: es ∧ d < e := by
  obtain ⟨hfirst, hlast⟩ := part_append s t
  have hapart : ∀ d ds e es, (part s t).first = d :: ds → (part s t).last = e :: es → d ≠ e :=
    fun _ _ _ _ => part_apart
  generalize part s t = p at hfirst hlast hapart ⊢
  subst hfirst hlast
  simp only [List.length_append, Nat.add_left_cancel_iff] at hlength
  rw [toOutcome_append, toOutcome_append, hlength, add_le_add_iff_left] at hle
  have hfirst := (valid_append.mp hs).2
  have hlast := (valid_append.mp ht).2
  cases hd : p.first with
  | nil => exact Or.inl ⟨rfl, List.eq_nil_of_length_eq_zero (by simpa [hd] using hlength.symm)⟩
  | cons d ds =>
  cases he : p.last with
  | nil => simp [hd, he] at hlength
  | cons e es =>
      rw [hd, he] at hlength hle
      rw [hd, valid_cons] at hfirst
      rw [he, valid_cons] at hlast
      exact Or.inr ⟨d, ds, e, es, rfl, rfl, lt_of_toOutcome_le hb hlast.2 hfirst.2
        (Nat.succ.inj hlength) hle (hapart d ds e es hd he)⟩

/-! ## Digits and outcomes -/

theorem decompose_eq_ok (hb : 2 ≤ base) (h0 : 0 ≤ x) (n : ℕ) :
    decompose x base n = .ok (ofOutcome base n x) := by
  unfold decompose checkSystem
  rw [if_neg (by omega), if_neg (by omega)]
  refine bind_eq_ok.mpr ⟨(), rfl, ?_⟩
  rw [if_neg (by omega)]
  rfl

theorem recompose_eq_ok (hp : Valid base p) : recompose base p = .ok (toOutcome base p) := by
  have hnone : p.find? (fun digit => !(0 ≤ digit && digit < base)) = none := by
    rw [List.find?_eq_none]
    intro d hd
    simp [hp d hd]
  unfold recompose
  rw [hnone]

theorem separate_eq_ok (hb : 2 ≤ base) (hx : 0 ≤ x) (hy : 0 ≤ y) (n : ℕ) :
    separate x y base n = .ok (part (ofOutcome base n x) (ofOutcome base n y)) :=
  bind_eq_ok.mpr ⟨_, decompose_eq_ok hb hx n, bind_eq_ok.mpr ⟨_, decompose_eq_ok hb hy n, rfl⟩⟩

/-- Digits and outcomes stand for each other. An outcome has as many digits as asked for, which stand for
its remainder; all digits are those of the outcome that they stand for; their order is lexicographic; and
what two outcomes share is the longest common beginning of their digits, after which the lower one has
the smaller digit. -/
structure Faithful (base : ℤ) : Prop where
  outcome : ∀ (n : ℕ) (x : ℤ), 0 ≤ x → ∃ p, decompose x base n = .ok p ∧ p.length = n ∧
    Valid base p ∧ recompose base p = .ok (x % base ^ n)
  digits : ∀ p, Valid base p → ∃ x, recompose base p = .ok x ∧
    decompose x base p.length = .ok p
  order : ∀ (n : ℕ) (x y : ℤ), 0 ≤ x → x < base ^ n → 0 ≤ y → y < base ^ n →
    ∃ p q, decompose x base n = .ok p ∧ decompose y base n = .ok q ∧ (x < y ↔ p < q)
  parting : ∀ (n : ℕ) (x y : ℤ), 0 ≤ x → x < y → y < base ^ n →
    ∃ p q shared d ds e es, decompose x base n = .ok p ∧ decompose y base n = .ok q ∧
      separate x y base n = .ok ⟨shared, d :: ds, e :: es⟩ ∧
      shared ++ d :: ds = p ∧ shared ++ e :: es = q ∧
      (∀ r, r <+: p → r <+: q → r <+: shared) ∧ d < e

theorem exists_parting_digits (hb : 2 ≤ base) (h0 : 0 ≤ x) (hxy : x < y) (hy : y < base ^ n) :
    ∃ d ds e es, (part (ofOutcome base n x) (ofOutcome base n y)).first = d :: ds ∧
      (part (ofOutcome base n x) (ofOutcome base n y)).last = e :: es ∧ d < e := by
  have hx := hxy.trans hy
  have hy0 := h0.trans hxy.le
  have hle : toOutcome base (ofOutcome base n x) ≤ toOutcome base (ofOutcome base n y) := by
    rw [toOutcome_ofOutcome_of_lt hb h0 hx, toOutcome_ofOutcome_of_lt hb hy0 hy]
    exact hxy.le
  rcases part_ascends hb (valid_ofOutcome hb n x) (valid_ofOutcome hb n y) (by simp) hle with
    ⟨hfirst, hlast⟩ | hparted
  · -- nothing is left of either, so that they are the same digits
    obtain ⟨hp, hq⟩ := part_append (ofOutcome base n x) (ofOutcome base n y)
    rw [hfirst, List.append_nil] at hp
    rw [hlast, List.append_nil] at hq
    have hlt := ofOutcome_lt hb h0 hxy hy
    rw [← hp.symm.trans hq] at hlt
    exact absurd hlt (lt_irrefl _)
  · exact hparted

/-- In every base digits and outcomes stand for each other. -/
theorem faithful (hb : 2 ≤ base) : Faithful base where
  outcome n x h0 := by
    have hvalid := valid_ofOutcome hb n x
    refine ⟨ofOutcome base n x, decompose_eq_ok hb h0 n, length_ofOutcome base n x, hvalid, ?_⟩
    rw [recompose_eq_ok hvalid, toOutcome_ofOutcome hb]
  digits p hp := by
    refine ⟨toOutcome base p, recompose_eq_ok hp, ?_⟩
    rw [decompose_eq_ok hb (toOutcome_bounds hb hp).1, ofOutcome_toOutcome hb hp]
  order n x y hx0 hx hy0 hy :=
    ⟨_, _, decompose_eq_ok hb hx0 n, decompose_eq_ok hb hy0 n,
      (ofOutcome_lt_iff hb hx0 hx hy0 hy).symm⟩
  parting n x y h0 hxy hy := by
    have hy0 := h0.trans hxy.le
    obtain ⟨hp, hq⟩ := part_append (ofOutcome base n x) (ofOutcome base n y)
    obtain ⟨d, ds, e, es, hfirst, hlast, hlt⟩ := exists_parting_digits hb h0 hxy hy
    rw [hfirst] at hp
    rw [hlast] at hq
    refine ⟨_, _, _, d, ds, e, es, decompose_eq_ok hb h0 n, decompose_eq_ok hb hy0 n, ?_, hp, hq,
      fun r => prefix_common, hlt⟩
    rw [separate_eq_ok hb h0 hy0, ← hfirst, ← hlast]

/-- Two decimal outcomes of eight digits, which share four. -/
theorem faithful_decimal : ∃ d ds e es,
    separate 1201234 1204321 10 8 = .ok ⟨[0, 1, 2, 0], d :: ds, e :: es⟩ ∧ d < e ∧
    ∀ r : Digits, r <+: [0, 1, 2, 0, 1, 2, 3, 4] → r <+: [0, 1, 2, 0, 4, 3, 2, 1] → r <+: [0, 1, 2, 0] := by
  obtain ⟨p, q, shared, d, ds, e, es, hp, hq, hseparate, -, -, hlongest, hlt⟩ :=
    (faithful (by decide : (2 : ℤ) ≤ 10)).parting 8 1201234 1204321 (by decide) (by decide) (by decide)
  have hfirst : decompose 1201234 10 8 = .ok [0, 1, 2, 0, 1, 2, 3, 4] := by decide +kernel
  have hlast : decompose 1204321 10 8 = .ok [0, 1, 2, 0, 4, 3, 2, 1] := by decide +kernel
  have hparts : separate 1201234 1204321 10 8 = .ok ⟨[0, 1, 2, 0], [1, 2, 3, 4], [4, 3, 2, 1]⟩ := by
    decide +kernel
  obtain rfl := Except.ok.inj (hfirst.symm.trans hp)
  obtain rfl := Except.ok.inj (hlast.symm.trans hq)
  cases Except.ok.inj (hparts.symm.trans hseparate)
  exact ⟨_, _, _, _, hseparate, hlt, hlongest⟩

end NumericContract.Digits
