import NumericContract.Proofs.PrefixCover.Minimal

/-!
# How long a cover is

A zone has at most `base - 1` entries for each digit after the leading one, and between two leading digits
lie at most `base - 2` others. The range that leaves out only the first and the last outcome needs as many
entries as that.
-/

namespace NumericContract.PrefixCover

open Digits

variable {base a b d e first last : ℤ} {n m : ℕ} {ds es p : Digits} {ps : List Digits}

@[simp] theorem length_integersBetween (a b : ℤ) : (integersBetween a b).length = (b - a).toNat := by
  simp [integersBetween]

/-! ## The zones -/

theorem length_atLeast_cons (hd : d < base) (h : ¬(d :: ds).all (· = 0) = true) :
    ((atLeast base (d :: ds)).length : ℤ) = (atLeast base ds).length + (base - 1 - d) := by
  rw [atLeast, if_neg h, List.length_append, List.length_map, List.length_map, length_integersBetween]
  omega

theorem base_sub_one_le (hb : 2 ≤ base) (h1 : 1 ≤ m) : base - 1 ≤ m * (base - 1) :=
  le_mul_of_one_le_left (by omega) (by exact_mod_cast h1)

theorem length_atLeast_le (hb : 2 ≤ base) (hds : Valid base ds) (hm : ds.length ≤ m) (h1 : 1 ≤ m) :
    ((atLeast base ds).length : ℤ) ≤ m * (base - 1) := by
  induction ds generalizing m with
  | nil =>
      have hroom := base_sub_one_le hb h1
      rw [atLeast, List.length_singleton]
      omega
  | cons d ds ih =>
      obtain ⟨hd, hrest⟩ := valid_cons.mp hds
      have hroom := base_sub_one_le hb h1
      by_cases hzeros : (d :: ds).all (· = 0) = true
      · rw [atLeast, if_pos hzeros, List.length_singleton]
        omega
      rw [length_atLeast_cons hd.2 hzeros]
      cases ds with
      | nil =>
          have hd0 : d ≠ 0 := by simpa using hzeros
          rw [atLeast, List.length_singleton]
          omega
      | cons d' ds =>
          rw [List.length_cons, List.length_cons] at hm
          obtain ⟨k, rfl⟩ : ∃ k, m = k + 1 := ⟨m - 1, by omega⟩
          have := ih hrest (m := k) (by rw [List.length_cons]; omega) (by omega)
          push_cast
          rw [add_one_mul]
          omega

theorem length_atMost_eq (base : ℤ) (ds : Digits) :
    (atMost base ds).length = (atLeast base (complement base ds)).length := by
  rw [atMost_eq, List.length_reverse, List.length_map]

theorem length_atMost_le (hb : 2 ≤ base) (hds : Valid base ds) (hm : ds.length ≤ m) (h1 : 1 ≤ m) :
    ((atMost base ds).length : ℤ) ≤ m * (base - 1) := by
  rw [length_atMost_eq]
  exact length_atLeast_le hb hds.complement (by rwa [length_complement]) h1

theorem length_zones (s : Digits) (hlt : d < e) :
    (((front base (d :: ds) ++ middle d e ++ back base (e :: es)).map (s ++ ·)).length : ℤ) =
      (atLeast base ds).length + (e - d - 1) + (atMost base es).length := by
  simp only [front, middle, back, List.length_map, List.length_append, length_integersBetween]
  omega

/-- Front and back have no more entries than the digits after the leading one allow, and the middle no more
than there are digits between the smallest and the largest. -/
theorem length_ofParting_le {p : Parting} (hb : 2 ≤ base) (h : Ascends base p)
    (h2 : 2 ≤ (p.shared ++ p.first).length) : ((ofParting base p).length : ℤ) ≤
      2 * ((p.shared ++ p.first).length - 1) * (base - 1) + (base - 2) := by
  obtain ⟨m, hm⟩ : ∃ m, (p.shared ++ p.first).length = m + 1 :=
    ⟨(p.shared ++ p.first).length - 1, by omega⟩
  have hm1 : 1 ≤ m := by omega
  have hroom := base_sub_one_le hb hm1
  have hbound : 2 * (((p.shared ++ p.first).length : ℤ) - 1) * (base - 1) =
      m * (base - 1) + m * (base - 1) := by
    rw [hm]
    push_cast
    ring
  rw [hbound]
  obtain ⟨-, -, heq⟩ | ⟨d, ds, e, es, hfirst, hlast, hlt, -, heq⟩ := h.ofParting_eq
  · rw [heq, List.length_singleton]
    omega
  · have hvalid := h.first
    have hvalid' := h.last
    have hlength := h.length_eq
    rw [hfirst] at hvalid hlength
    rw [hlast] at hvalid' hlength
    obtain ⟨hd, hds⟩ := valid_cons.mp hvalid
    obtain ⟨he, hes⟩ := valid_cons.mp hvalid'
    rw [List.length_append, hfirst] at hm
    rw [List.length_cons] at hm
    rw [List.length_cons, List.length_cons] at hlength
    have hfront := length_atLeast_le hb hds (by omega : ds.length ≤ m) hm1
    have hback := length_atMost_le hb hes (by omega : es.length ≤ m) hm1
    rw [heq, length_zones p.shared hlt]
    omega

/-! ## The longest cover -/

theorem length_atLeast_one (hb : 2 ≤ base) (m : ℕ) :
    ((atLeast base (List.replicate m 0 ++ [1])).length : ℤ) = (m + 1) * (base - 1) := by
  induction m with
  | zero =>
      rw [List.replicate_zero, List.nil_append, length_atLeast_cons (by omega) (by simp), atLeast,
        List.length_singleton]
      push_cast
      omega
  | succ m ih =>
      rw [List.replicate_succ, List.cons_append, length_atLeast_cons (by omega) (by simp), ih]
      push_cast
      ring

theorem complement_one (base : ℤ) (m : ℕ) : complement base (List.replicate m 0 ++ [1]) =
    List.replicate m (base - 1) ++ [base - 2] := by
  simp only [complement, List.map_append, List.map_replicate, List.map_singleton, sub_zero]
  ring_nf

theorem length_atMost_largest (hb : 2 ≤ base) (m : ℕ) :
    ((atMost base (List.replicate m (base - 1) ++ [base - 2])).length : ℤ) = (m + 1) * (base - 1) := by
  rw [← complement_one, length_atMost_eq, complement_complement, length_atLeast_one hb]

theorem ofOutcome_one (hb : 2 ≤ base) (m : ℕ) :
    ofOutcome base (m + 1) 1 = List.replicate m 0 ++ [1] := by
  have hvalid : Valid base (List.replicate m 0 ++ [1]) := by
    rw [valid_append, valid_cons]
    refine ⟨fun d hd => ?_, by omega, valid_nil⟩
    rw [List.eq_of_mem_replicate hd]
    omega
  have hvalue : toOutcome base (List.replicate m 0 ++ [1]) = 1 := by
    rw [toOutcome_concat, toOutcome_of_zeros (by simp), zero_mul, zero_add]
  have hdigits := ofOutcome_toOutcome hb hvalid
  rwa [hvalue, List.length_append, List.length_replicate, List.length_singleton] at hdigits

theorem ofOutcome_largest (hb : 2 ≤ base) (m : ℕ) :
    ofOutcome base (m + 1) (base ^ (m + 1) - 2) = List.replicate m (base - 1) ++ [base - 2] := by
  have hone : (1 : ℤ) < base ^ (m + 1) := one_lt_pow₀ (by omega) (Nat.succ_ne_zero m)
  rw [← complement_one, ← ofOutcome_one hb, ← ofOutcome_mirror hb zero_le_one hone]
  congr 1
  ring

theorem part_second_largest (hb : 2 ≤ base) (m : ℕ) :
    part (ofOutcome base (m + 2) 1) (ofOutcome base (m + 2) (base ^ (m + 2) - 2)) =
      ⟨[], 0 :: (List.replicate m 0 ++ [1]), (base - 1) :: (List.replicate m (base - 1) ++ [base - 2])⟩ := by
  rw [ofOutcome_one hb, ofOutcome_largest hb, List.replicate_succ, List.replicate_succ, List.cons_append,
    List.cons_append]
  simp only [part, common]
  rw [if_neg (by omega)]
  rfl

/-- From the second outcome to the last but one a cover is as long as one can be. -/
theorem length_ofRange_widest (hb : 2 ≤ base) (m : ℕ) :
    ∃ cover, ofRange 1 (base ^ (m + 2) - 2) base (m + 2 : ℕ) = .ok cover ∧
      (cover.length : ℤ) = 2 * (m + 1) * (base - 1) + (base - 2) := by
  have hfour : 4 ≤ base ^ (m + 2) := by
    calc (4 : ℤ) = 2 ^ 2 := by norm_num
      _ ≤ base ^ 2 := pow_le_pow_left₀ (by norm_num) hb 2
      _ ≤ base ^ (m + 2) := pow_le_pow_right₀ (by omega) (by omega)
  have hascends := ascends_ofOutcome (n := m + 2) hb zero_le_one
    (by omega : 1 ≤ base ^ (m + 2) - 2) (by omega)
  refine ⟨_, ofRange_eq hb zero_le_one (by omega) (by omega), ?_⟩
  rw [part_second_largest hb] at hascends ⊢
  obtain ⟨⟨hzeros, -⟩, -⟩ | ⟨d, ds, e, es, hfirst, hlast, hlt, -, heq⟩ := hascends.ofParting_eq
  · simp at hzeros
  · rw [heq, length_zones [] hlt]
    obtain ⟨rfl, rfl⟩ := List.cons.inj hfirst
    obtain ⟨rfl, rfl⟩ := List.cons.inj hlast
    rw [length_atLeast_one hb, length_atMost_largest hb]
    ring

theorem Tiles.length_of_full (h : Tiles base n a ps b) (hfull : ∀ p ∈ ps, p.length = n) :
    (ps.length : ℤ) = b - a := by
  induction ps generalizing a with
  | nil =>
      have := tiles_nil.mp h
      rw [List.length_nil]
      omega
  | cons p ps ih =>
      obtain ⟨-, rfl, hrest⟩ := h
      obtain ⟨hp, hps⟩ := List.forall_mem_cons.mp hfull
      have hone := high_sub_low base n p
      rw [hp, Nat.sub_self, pow_zero] at hone
      have := ih hrest hps
      rw [List.length_cons]
      omega

theorem length_ofRange_single (hb : 2 ≤ base) (h0 : 0 ≤ first) (hle : first ≤ last)
    (hlast : last < base ^ 1) :
    ∃ cover, ofRange first last base (1 : ℕ) = .ok cover ∧ (cover.length : ℤ) = last - first + 1 := by
  obtain ⟨p, hcover, hp, hn, rfl, rfl⟩ := exists_parting hb h0 hle hlast
  have htiles := tiles_ofParting hp
  refine ⟨_, hcover, ?_⟩
  rw [htiles.length_of_full fun q hq => ?_]
  · omega
  · have hle := (htiles.leading_of_mem hq).length_le
    have hne := ne_nil_of_mem_ofParting hp (List.length_pos_iff.mp (by omega)) hq
    have := List.length_pos_iff.mpr hne
    omega

/-! ## The cover of a range -/

/-- The length of a cover: at most `base - 1` entries for each digit after the leading one in the front and
as many in the back, and `base - 2` in the middle, all of which are needed from the second outcome to
the last but one. A single digit needs an entry for each outcome. -/
theorem length_ofRange (hb : 2 ≤ base) :
    (∀ (n : ℕ) (first last : ℤ), 2 ≤ n → 0 ≤ first → first ≤ last → last < base ^ n →
      ∃ cover, ofRange first last base n = .ok cover ∧
        (cover.length : ℤ) ≤ 2 * (n - 1) * (base - 1) + (base - 2)) ∧
    (∀ n : ℕ, 2 ≤ n → ∃ cover, ofRange 1 (base ^ n - 2) base n = .ok cover ∧
      (cover.length : ℤ) = 2 * (n - 1) * (base - 1) + (base - 2)) ∧
    ∀ first last : ℤ, 0 ≤ first → first ≤ last → last < base ^ 1 →
      ∃ cover, ofRange first last base 1 = .ok cover ∧ (cover.length : ℤ) = last - first + 1 := by
  refine ⟨fun n first last h2 h0 hle hlast => ?_, fun n h2 => ?_, fun first last h0 hle hlast => ?_⟩
  · obtain ⟨p, hcover, hp, rfl, rfl, rfl⟩ := exists_parting hb h0 hle hlast
    exact ⟨_, hcover, length_ofParting_le hb hp h2⟩
  · obtain ⟨m, rfl⟩ := Nat.exists_eq_add_of_le' h2
    obtain ⟨cover, hcover, hlength⟩ := length_ofRange_widest hb m
    refine ⟨cover, hcover, ?_⟩
    rw [hlength]
    push_cast
    ring
  · exact length_ofRange_single hb h0 hle hlast

/-- Three ternary digits: nine entries are needed for the widest range, and there are never more. -/
theorem length_ofRange_ternary :
    (∃ cover, ofRange 2 11 3 3 = .ok cover ∧ cover.length ≤ 9) ∧
    (∃ cover, ofRange 1 25 3 3 = .ok cover ∧ cover.length = 9) ∧
    ∃ cover, ofRange 1 2 3 1 = .ok cover ∧ cover.length = 2 := by
  obtain ⟨hbound, hwidest, hsingle⟩ := length_ofRange (by decide : (2 : ℤ) ≤ 3)
  obtain ⟨cover, hcover, hlength⟩ :=
    hbound 3 2 11 (by decide) (by decide) (by decide) (by decide)
  obtain ⟨widest, hwidest, hwidestLength⟩ := hwidest 3 (by decide)
  obtain ⟨single, hsingle, hsingleLength⟩ := hsingle 1 2 (by decide) (by decide) (by decide)
  exact ⟨⟨cover, hcover, by omega⟩, ⟨widest, hwidest, by omega⟩, ⟨single, hsingle, by omega⟩⟩

end NumericContract.PrefixCover
