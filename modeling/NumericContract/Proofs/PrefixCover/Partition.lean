import NumericContract.Proofs.PrefixCover

/-!
# The partition of a range by its cover

A cover parts its range into runs of outcomes that stand in their natural order. Of two of its entries
neither begins the other, so that their order is that of digits too: lexicographic.
-/

namespace NumericContract.PrefixCover

open Digits

variable {base a b d x first last : ℤ} {n : ℕ} {p q ds : Digits} {ps : List Digits}

/-! ## The order of runs -/

theorem Tiles.leading_of_mem (h : Tiles base n a ps b) (hp : p ∈ ps) : Leading base n p := by
  induction ps generalizing a with
  | nil => cases hp
  | cons q ps ih =>
      obtain ⟨hq, -, hrest⟩ := h
      rcases List.mem_cons.mp hp with rfl | hp
      · exact hq
      · exact ih hrest hp

theorem Tiles.bounds_of_mem (h : Tiles base n a ps b) (hb : 2 ≤ base) (hp : p ∈ ps) :
    a ≤ low base n p ∧ high base n p ≤ b := by
  induction ps generalizing a with
  | nil => cases hp
  | cons q ps ih =>
      obtain ⟨-, rfl, hrest⟩ := h
      rcases List.mem_cons.mp hp with rfl | hp
      · exact ⟨le_rfl, hrest.le hb⟩
      · have := low_lt_high hb n q
        have := ih hrest hp
        omega

/-- Each entry of a run stands for outcomes before those of all later entries. -/
theorem Tiles.pairwise (h : Tiles base n a ps b) (hb : 2 ≤ base) :
    ps.Pairwise fun p q => high base n p ≤ low base n q := by
  induction ps generalizing a with
  | nil => exact List.Pairwise.nil
  | cons p ps ih =>
      obtain ⟨-, -, hrest⟩ := h
      exact List.pairwise_cons.mpr ⟨fun q hq => (hrest.bounds_of_mem hb hq).1, ih hrest⟩

/-! ## The cover of a range -/

/-- Leading digits that part the outcomes from one to another: each outcome of the range begins with one
of them and no other outcome with any, they stand for intervals that follow one another from the
first outcome to the last, none of them begins another, and their order is lexicographic. -/
structure Partitions (base : ℤ) (n : ℕ) (first last : ℤ) (cover : List Digits) : Prop where
  leading : ∀ p ∈ cover, Leading base n p
  once : ∀ x, 0 ≤ x → x < base ^ n → ∃ digits, decompose x base n = .ok digits ∧
    cover.countP (· <+: digits) = if first ≤ x ∧ x ≤ last then 1 else 0
  interval : ∀ p ∈ cover, ∀ x, 0 ≤ x → x < base ^ n →
    (p <+: ofOutcome base n x ↔ low base n p ≤ x ∧ x < high base n p)
  contiguous : Tiles base n first cover (last + 1)
  ascending : cover.Pairwise fun p q => high base n p ≤ low base n q
  prefixFree : cover.Pairwise fun p q => ¬p <+: q ∧ ¬q <+: p
  lexicographic : cover.Pairwise (· < ·)

theorem Tiles.partitions (h : Tiles base n first ps (last + 1)) (hb : 2 ≤ base) :
    Partitions base n first last ps := by
  have hpairwise := h.pairwise hb
  have hleading : ps.Pairwise fun p q => Leading base n p ∧ Leading base n q :=
    List.pairwise_of_forall_mem_list fun p hp q hq => ⟨h.leading_of_mem hp, h.leading_of_mem hq⟩
  have hboth := hpairwise.and hleading
  refine ⟨fun p hp => h.leading_of_mem hp, fun x h0 hx => ⟨_, decompose_eq_ok hb h0 n, ?_⟩,
    fun p hp x h0 hx => (h.leading_of_mem hp).prefix_iff hb h0 hx, h, hpairwise, ?_, ?_⟩
  · rw [h.countP_eq hb h0 hx]
    exact if_congr (by omega) rfl rfl
  · exact hboth.imp fun ⟨hle, hp, hq⟩ => not_prefix_of_high_le_low hb hp hq hle
  · exact hboth.imp fun ⟨hle, hp, hq⟩ => lt_of_high_le_low hb hp hq hle

/-- Every range of outcomes that can be written has a cover that parts it. -/
theorem ofRange_partitions (hb : 2 ≤ base) (h0 : 0 ≤ first) (hle : first ≤ last) (hlast : last < base ^ n) :
    ∃ cover, ofRange first last base n = .ok cover ∧ Partitions base n first last cover := by
  obtain ⟨cover, hcover, htiles⟩ := exists_ofRange hb h0 hle hlast
  exact ⟨cover, hcover, htiles.partitions hb⟩

/-- Three ternary digits, in which the range has a front of several lengths and a back that is a whole
turn of two digits. -/
theorem ofRange_partitions_ternary : Partitions 3 3 2 11 [[0, 0, 2], [0, 1], [0, 2], [1, 0]] := by
  obtain ⟨cover, hcover, hpartitions⟩ :=
    ofRange_partitions (by decide : (2 : ℤ) ≤ 3) (by decide : (0 : ℤ) ≤ 2) (by decide : (2 : ℤ) ≤ 11)
      (by decide : (11 : ℤ) < 3 ^ 3)
  have hternary : ofRange 2 11 3 3 = .ok [[0, 0, 2], [0, 1], [0, 2], [1, 0]] := by decide +kernel
  obtain rfl := Except.ok.inj (hternary.symm.trans hcover)
  exact hpartitions

/-! ## The zones of a cover -/

/-- The front parts the outcomes from the given digits to the next turn of the leading one, the back
those from its last turn to the given digits. -/
theorem zones_partition (hb : 2 ≤ base) (hds : Valid base (d :: ds)) :
    ∃ value, recompose base (d :: ds) = .ok value ∧
      Partitions base (ds.length + 1) value ((d + 1) * base ^ ds.length - 1) (front base (d :: ds)) ∧
      Partitions base (ds.length + 1) (d * base ^ ds.length) value (back base (d :: ds)) := by
  refine ⟨toOutcome base (d :: ds), recompose_eq_ok hds, ?_, ?_⟩
  · apply Tiles.partitions _ hb
    simpa using tiles_front hds
  · exact (tiles_back hds).partitions hb

/-- Trailing zeros at the front and a lower digit at the back. -/
theorem zones_partition_decimal :
    Partitions 10 3 250 299 [[2, 5], [2, 6], [2, 7], [2, 8], [2, 9]] ∧
      Partitions 10 3 200 250 [[2, 0], [2, 1], [2, 2], [2, 3], [2, 4], [2, 5, 0]] := by
  obtain ⟨value, hvalue, hfront, hback⟩ :=
    zones_partition (by decide : (2 : ℤ) ≤ 10) (by simp : Valid 10 [2, 5, 0])
  have hdecimal : recompose 10 [2, 5, 0] = .ok 250 := by decide
  obtain rfl := Except.ok.inj (hdecimal.symm.trans hvalue)
  exact ⟨hfront, hback⟩

end NumericContract.PrefixCover
