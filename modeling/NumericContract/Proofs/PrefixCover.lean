import NumericContract.PrefixCover
import NumericContract.Proofs.Digits.Order

/-!
# What a prefix cover stands for

The leading digits of a cover stand for runs of outcomes that follow one another without a gap, from the
first outcome of the covered range to its last. Every outcome of the range therefore begins with exactly
one of them, and no other outcome begins with any.
-/

namespace NumericContract.PrefixCover

open Digits

variable {base a b c x d e first last : ℤ} {n : ℕ} {ds es s t : Digits} {ps qs : List Digits}

/-! ## Runs of leading digits -/

/-- Leading digits that stand for the outcomes from `a` up to but not including `b`, in this order. -/
def Tiles (base : ℤ) (n : ℕ) (a : ℤ) : List Digits → ℤ → Prop
  | [], b => a = b
  | p :: ps, b => Leading base n p ∧ low base n p = a ∧ Tiles base n (high base n p) ps b

@[simp] theorem tiles_nil : Tiles base n a [] b ↔ a = b := Iff.rfl

theorem tiles_append : Tiles base n a (ps ++ qs) c ↔
    ∃ b, Tiles base n a ps b ∧ Tiles base n b qs c := by
  induction ps generalizing a with
  | nil => simp [Tiles]
  | cons p ps ih => simp [Tiles, ih, and_assoc]

theorem Tiles.le (h : Tiles base n a ps b) (hb : 2 ≤ base) : a ≤ b := by
  induction ps generalizing a with
  | nil => exact le_of_eq h
  | cons p ps ih =>
      obtain ⟨-, hlow, hrest⟩ := h
      have := low_lt_high hb n p
      have := ih hrest
      omega

theorem Tiles.map_append (h : Tiles base n a ps b) (hs : Valid base s) :
    Tiles base (s.length + n) (toOutcome base s * base ^ n + a) (ps.map (s ++ ·))
      (toOutcome base s * base ^ n + b) := by
  induction ps generalizing a with
  | nil =>
      cases h
      rfl
  | cons p ps ih =>
      obtain ⟨hp, rfl, hrest⟩ := h
      refine ⟨hp.append hs, low_append base hp.length_le s, ?_⟩
      rw [high_append base hp.length_le s]
      exact ih hrest

theorem Tiles.map_cons (h : Tiles base n a ps b) (hd : 0 ≤ d ∧ d < base) :
    Tiles base (n + 1) (d * base ^ n + a) (ps.map (d :: ·)) (d * base ^ n + b) := by
  have := h.map_append (s := [d]) (by simpa using hd)
  rw [List.length_singleton, add_comm 1 n] at this
  simpa [toOutcome] using this

theorem tiles_whole (base : ℤ) (n : ℕ) : Tiles base n 0 [[]] (base ^ n) :=
  ⟨⟨valid_nil, Nat.zero_le n⟩, by simp [low], by simp [high, Tiles]⟩

theorem tiles_digit (hd : 0 ≤ d ∧ d < base) (n : ℕ) :
    Tiles base (n + 1) (d * base ^ n) [[d]] ((d + 1) * base ^ n) := by
  have := (tiles_whole base n).map_cons hd
  rwa [add_zero, ← add_one_mul] at this

theorem integersBetween_concat (h : a ≤ b) : integersBetween a (b + 1) = integersBetween a b ++ [b] := by
  unfold integersBetween
  rw [show (b + 1 - a).toNat = (b - a).toNat + 1 by omega, List.range_succ, List.map_append,
    List.map_singleton, show a + ((b - a).toNat : ℤ) = b by omega]

theorem integersBetween_cons (h : a < b) : integersBetween a b = a :: integersBetween (a + 1) b := by
  unfold integersBetween
  rw [show (b - a).toNat = (b - (a + 1)).toNat + 1 by omega, List.range_succ_eq_map, List.map_cons,
    List.map_map]
  congr 1
  · simp
  · refine List.map_congr_left fun n _ => ?_
    simp only [Function.comp_apply, Nat.cast_succ]
    omega

theorem tiles_integersBetween (n : ℕ) (h0 : 0 ≤ a) (hab : a ≤ b) (hbase : b ≤ base) :
    Tiles base (n + 1) (a * base ^ n) ((integersBetween a b).map ([·])) (b * base ^ n) := by
  induction b, hab using Int.leInduction with
  | base => simp [integersBetween]
  | succ b hab ih =>
      rw [integersBetween_concat hab, List.map_append]
      exact tiles_append.mpr ⟨_, ih (by omega), tiles_digit ⟨by omega, by omega⟩ n⟩

/-! ## The zones of a cover -/

theorem toOutcome_of_zeros (h : ds.all (· = 0) = true) : toOutcome base ds = 0 := by
  induction ds with
  | nil => rfl
  | cons d ds ih =>
      simp only [List.all_cons, Bool.and_eq_true, decide_eq_true_eq] at h
      rw [toOutcome_cons, h.1, ih h.2, zero_mul, add_zero]

theorem toOutcome_of_largest (h : ds.all (· = base - 1) = true) :
    toOutcome base ds + 1 = base ^ ds.length := by
  induction ds with
  | nil => simp
  | cons d ds ih =>
      simp only [List.all_cons, Bool.and_eq_true, decide_eq_true_eq] at h
      rw [toOutcome_cons, h.1, add_assoc, ih h.2, List.length_cons, pow_succ']
      ring

theorem integersBetween_mirror (base d : ℤ) :
    ((integersBetween (base - d) base).map (base - 1 - ·)).reverse = integersBetween 0 d := by
  apply List.ext_getElem
  · simp [integersBetween]
  · intro i h h'
    simp only [integersBetween, List.length_reverse, List.length_map, List.length_range] at h h'
    simp [integersBetween]
    omega

/-- The back is the mirror image of the front. -/
theorem atMost_eq (base : ℤ) (ds : Digits) :
    atMost base ds = ((atLeast base (complement base ds)).map (complement base)).reverse := by
  induction ds with
  | nil => rfl
  | cons d ds ih =>
      have hall := complement_all_zero base (d :: ds)
      rw [complement_cons] at hall
      rw [complement_cons, atLeast, hall, atMost]
      split
      · rfl
      · rw [List.map_append, List.reverse_append, ih, ← integersBetween_mirror base d,
          show base - 1 - d + 1 = base - d by ring]
        simp [Function.comp_def]

theorem tiles_atLeast (hds : Valid base ds) :
    Tiles base ds.length (toOutcome base ds) (atLeast base ds) (base ^ ds.length) := by
  induction ds with
  | nil => exact tiles_whole base 0
  | cons d ds ih =>
      obtain ⟨hd, hrest⟩ := valid_cons.mp hds
      unfold atLeast
      split
      · next hzeros =>
        rw [toOutcome_of_zeros hzeros]
        exact tiles_whole base _
      · rw [toOutcome_cons, List.length_cons]
        refine tiles_append.mpr ⟨_, (ih hrest).map_cons hd, ?_⟩
        rw [← add_one_mul, pow_succ']
        exact tiles_integersBetween _ (by omega) (by omega) le_rfl

theorem tiles_atMost (hds : Valid base ds) :
    Tiles base ds.length 0 (atMost base ds) (toOutcome base ds + 1) := by
  induction ds with
  | nil => simpa [atMost] using tiles_whole base 0
  | cons d ds ih =>
      obtain ⟨hd, hrest⟩ := valid_cons.mp hds
      unfold atMost
      split
      · next hlargest =>
        rw [toOutcome_of_largest hlargest]
        exact tiles_whole base _
      · rw [toOutcome_cons, List.length_cons, add_assoc]
        refine tiles_append.mpr ⟨d * base ^ ds.length, ?_, ?_⟩
        · have hbelow := tiles_integersBetween ds.length le_rfl hd.1 hd.2.le
          rwa [zero_mul] at hbelow
        · simpa using (ih hrest).map_cons hd

/-- The front runs from the given digits to the next turn of the leading one. -/
theorem tiles_front (hds : Valid base (d :: ds)) :
    Tiles base (ds.length + 1) (toOutcome base (d :: ds)) (front base (d :: ds))
      ((d + 1) * base ^ ds.length) := by
  obtain ⟨hd, hrest⟩ := valid_cons.mp hds
  rw [toOutcome_cons, add_one_mul]
  exact (tiles_atLeast hrest).map_cons hd

/-- The back runs from the last turn of the leading digit to the given digits. -/
theorem tiles_back (hds : Valid base (d :: ds)) :
    Tiles base (ds.length + 1) (d * base ^ ds.length) (back base (d :: ds))
      (toOutcome base (d :: ds) + 1) := by
  obtain ⟨hd, hrest⟩ := valid_cons.mp hds
  rw [toOutcome_cons, add_assoc]
  simpa [back] using (tiles_atMost hrest).map_cons hd

/-! ## The cover of parted digits -/

theorem tiles_zones (hfirst : Valid base (d :: ds)) (hlast : Valid base (e :: es))
    (hlength : ds.length = es.length) (hlt : d < e) :
    Tiles base (ds.length + 1) (toOutcome base (d :: ds))
      (front base (d :: ds) ++ middle d e ++ back base (e :: es)) (toOutcome base (e :: es) + 1) := by
  obtain ⟨hd, -⟩ := valid_cons.mp hfirst
  obtain ⟨he, -⟩ := valid_cons.mp hlast
  refine tiles_append.mpr ⟨e * base ^ ds.length, tiles_append.mpr ⟨_, tiles_front hfirst, ?_⟩, ?_⟩
  · exact tiles_integersBetween _ (by omega) (by omega) he.2.le
  · rw [hlength]
    exact tiles_back hlast

/-- Digits of two outcomes, the first not above the last, parted where they begin to differ. -/
structure Ascends (base : ℤ) (p : Parting) : Prop where
  shared : Valid base p.shared
  first : Valid base p.first
  last : Valid base p.last
  length_eq : p.first.length = p.last.length
  differ : p.first = [] ∨ ∃ d ds e es, p.first = d :: ds ∧ p.last = e :: es ∧ d < e

theorem ascends_part (hb : 2 ≤ base) (hs : Valid base s) (ht : Valid base t)
    (hlength : s.length = t.length) (hle : toOutcome base s ≤ toOutcome base t) :
    Ascends base (part s t) := by
  have hsplit := part_append s t
  have hparted := part_ascends hb hs ht hlength hle
  generalize part s t = p at hsplit hparted ⊢
  obtain ⟨rfl, rfl⟩ := hsplit
  obtain ⟨hshared, hfirst⟩ := valid_append.mp hs
  obtain ⟨-, hlast⟩ := valid_append.mp ht
  exact ⟨hshared, hfirst, hlast, by simpa using hlength, hparted.imp_left And.left⟩

/-- The digits that are left stand for a whole turn of the shared ones. -/
def Whole (base : ℤ) (p : Parting) : Prop :=
  p.first.all (· = 0) = true ∧ p.last.all (· = base - 1) = true

/-- A cover is the shared digits alone, which stand for a whole turn, or it has three zones and does not
stand for a whole turn of any digits. -/
theorem Ascends.ofParting_eq {p : Parting} (h : Ascends base p) :
    (Whole base p ∧ (p.first = [] ∨ p.shared ≠ []) ∧ ofParting base p = [p.shared]) ∨
    ∃ d ds e es, p.first = d :: ds ∧ p.last = e :: es ∧ d < e ∧ (p.shared ≠ [] → ¬Whole base p) ∧
      ofParting base p =
        (front base (d :: ds) ++ middle d e ++ back base (e :: es)).map (p.shared ++ ·) := by
  obtain ⟨shared, first, last⟩ := p
  obtain ⟨-, -, -, hlength, hdiffer⟩ := h
  obtain rfl | ⟨d, ds, e, es, rfl, rfl, hlt⟩ := hdiffer
  · obtain rfl := List.eq_nil_of_length_eq_zero hlength.symm
    exact Or.inl ⟨⟨rfl, rfl⟩, Or.inl rfl, rfl⟩
  by_cases hwhole : Whole base ⟨shared, d :: ds, e :: es⟩ ∧ shared ≠ []
  · refine Or.inl ⟨hwhole.1, Or.inr hwhole.2, ?_⟩
    obtain ⟨⟨hzeros, hlargest⟩, hne⟩ := hwhole
    dsimp only at hzeros hlargest
    simp [ofParting, hzeros, hlargest, hne]
  · refine Or.inr ⟨d, ds, e, es, rfl, rfl, hlt, fun hne hw => hwhole ⟨hw, hne⟩, ?_⟩
    have hseveral : ¬(decide (d :: ds = e :: es) || ((d :: ds).all (· = 0) &&
        (e :: es).all (· = base - 1)) && !shared.isEmpty) = true := by
      intro hone
      simp only [Bool.or_eq_true, Bool.and_eq_true, decide_eq_true_eq] at hone
      obtain heq | ⟨hw, hne⟩ := hone
      · obtain rfl := (List.cons.inj heq).1
        exact lt_irrefl d hlt
      · exact hwhole ⟨hw, by simpa using hne⟩
    unfold ofParting
    dsimp only
    rw [if_neg hseveral]
    cases ds with
    | nil =>
        obtain rfl := List.eq_nil_of_length_eq_zero (Nat.succ.inj hlength).symm
        dsimp only
        rw [integersBetween_concat hlt.le, integersBetween_cons hlt]
        simp [front, back, middle, atLeast, atMost, Function.comp_def]
    | cons d' ds =>
    cases es with
    | nil => cases hlength
    | cons e' es => rfl

theorem tiles_ofParting {p : Parting} (h : Ascends base p) :
    Tiles base (p.shared ++ p.first).length (toOutcome base (p.shared ++ p.first)) (ofParting base p)
      (toOutcome base (p.shared ++ p.last) + 1) := by
  rw [List.length_append, toOutcome_append, toOutcome_append, add_assoc, ← h.length_eq]
  obtain ⟨⟨hzeros, hlargest⟩, -, heq⟩ | ⟨d, ds, e, es, hfirst, hlast, hlt, -, heq⟩ := h.ofParting_eq
  · rw [heq, toOutcome_of_zeros hzeros, toOutcome_of_largest hlargest, ← h.length_eq]
    simpa using (tiles_whole base p.first.length).map_append h.shared
  · have hvalid := h.first
    have hvalid' := h.last
    have hlength := h.length_eq
    rw [heq, hfirst, hlast]
    rw [hfirst] at hvalid hlength
    rw [hlast] at hvalid' hlength
    exact (tiles_zones hvalid hvalid' (Nat.succ.inj hlength) hlt).map_append h.shared

/-! ## The cover of a range -/

theorem ofRange_eq (hb : 2 ≤ base) (h0 : 0 ≤ first) (hle : first ≤ last) (hlast : last < base ^ n) :
    ofRange first last base n =
      .ok (ofParting base (part (ofOutcome base n first) (ofOutcome base n last))) := by
  have hinside : (if 0 ≤ first && first ≤ last then belowPower last base n else pure false) =
      .ok true := by
    rw [if_pos (by simp [h0, hle]), belowPower, if_pos (Int.natCast_nonneg n)]
    exact congrArg Except.ok (decide_eq_true hlast)
  unfold ofRange
  dsimp only
  rw [if_neg (by omega)]
  refine ite_bind_eq_ok.mpr ⟨true, hinside, ?_⟩
  exact bind_eq_ok.mpr ⟨_, separate_eq_ok hb h0 (h0.trans hle) n, rfl⟩

theorem ascends_ofOutcome (hb : 2 ≤ base) (h0 : 0 ≤ first) (hle : first ≤ last) (hlast : last < base ^ n) :
    Ascends base (part (ofOutcome base n first) (ofOutcome base n last)) := by
  apply ascends_part hb (valid_ofOutcome hb n first) (valid_ofOutcome hb n last) (by simp)
  rwa [toOutcome_ofOutcome_of_lt hb h0 (hle.trans_lt hlast),
    toOutcome_ofOutcome_of_lt hb (h0.trans hle) hlast]

/-- The cover of a range is that of parted digits in ascending order, which are those of its two ends. -/
theorem exists_parting (hb : 2 ≤ base) (h0 : 0 ≤ first) (hle : first ≤ last) (hlast : last < base ^ n) :
    ∃ p : Parting, ofRange first last base n = .ok (ofParting base p) ∧ Ascends base p ∧
      n = (p.shared ++ p.first).length ∧ first = toOutcome base (p.shared ++ p.first) ∧
      last = toOutcome base (p.shared ++ p.last) := by
  obtain ⟨hsplit, hsplit'⟩ := part_append (ofOutcome base n first) (ofOutcome base n last)
  refine ⟨_, ofRange_eq hb h0 hle hlast, ascends_ofOutcome hb h0 hle hlast, ?_, ?_, ?_⟩
  · rw [hsplit, length_ofOutcome]
  · rw [hsplit, toOutcome_ofOutcome_of_lt hb h0 (hle.trans_lt hlast)]
  · rw [hsplit', toOutcome_ofOutcome_of_lt hb (h0.trans hle) hlast]

/-- A range of outcomes that can be written has a cover, which stands for exactly its outcomes. -/
theorem exists_ofRange (hb : 2 ≤ base) (h0 : 0 ≤ first) (hle : first ≤ last) (hlast : last < base ^ n) :
    ∃ cover, ofRange first last base n = .ok cover ∧ Tiles base n first cover (last + 1) := by
  obtain ⟨p, hcover, hp, rfl, rfl, rfl⟩ := exists_parting hb h0 hle hlast
  exact ⟨_, hcover, tiles_ofParting hp⟩

/-! ## Which outcomes begin with which digits -/

/-- An outcome begins with exactly one entry of a run that stands for it, and with none of another. -/
theorem Tiles.countP_eq (h : Tiles base n a ps b) (hb : 2 ≤ base) (h0 : 0 ≤ x) (hx : x < base ^ n) :
    ps.countP (· <+: ofOutcome base n x) = if a ≤ x ∧ x < b then 1 else 0 := by
  induction ps generalizing a with
  | nil =>
      have := tiles_nil.mp h
      rw [if_neg (by omega)]
      rfl
  | cons p ps ih =>
      obtain ⟨hp, rfl, hrest⟩ := h
      have hle := hrest.le hb
      have hlow := low_lt_high hb n p
      rw [List.countP_cons, ih hrest]
      simp only [decide_eq_true_eq, hp.prefix_iff hb h0 hx]
      split <;> split <;> split <;> omega

end NumericContract.PrefixCover
