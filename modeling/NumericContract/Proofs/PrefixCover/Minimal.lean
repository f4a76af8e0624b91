import NumericContract.Proofs.PrefixCover.Partition

/-!
# No shorter cover

An entry of a cover cannot be shorter: with its last digit dropped it would stand for an outcome outside
the range. Any other list of leading digits for the same outcomes must therefore hold, for each entry of
the cover, digits that begin with that entry, and no digits begin with two of them.
-/

namespace NumericContract.PrefixCover

open Digits

variable {base a b c d e x first last : ℤ} {n : ℕ} {ds es p q : Digits} {ps qs : List Digits}

def Inside (base : ℤ) (n : ℕ) (a b : ℤ) (p : Digits) : Prop := a ≤ low base n p ∧ high base n p ≤ b

/-- Digits that stand for an outcome out of bounds as soon as their last one is dropped, unless no digit is
left then. -/
def Maximal (base : ℤ) (n : ℕ) (a b : ℤ) (p : Digits) : Prop :=
  p.dropLast ≠ [] → ¬Inside base n a b p.dropLast

/-! ## Entries that cannot be shorter -/

theorem toOutcome_pos (hb : 2 ≤ base) (hds : Valid base ds) (h : ¬ds.all (· = 0) = true) :
    0 < toOutcome base ds := by
  induction ds with
  | nil => exact absurd rfl h
  | cons d ds ih =>
      obtain ⟨hd, hrest⟩ := valid_cons.mp hds
      have hpos : (0 : ℤ) < base ^ ds.length := by positivity
      have h0 := (toOutcome_bounds hb hrest).1
      rw [toOutcome_cons]
      by_cases hd0 : d = 0
      · subst hd0
        have := ih hrest (by simpa using h)
        omega
      · have := mul_pos (lt_of_le_of_ne hd.1 (Ne.symm hd0)) hpos
        omega

theorem toOutcome_lt (hb : 2 ≤ base) (hds : Valid base ds) (h : ¬ds.all (· = base - 1) = true) :
    toOutcome base ds + 1 < base ^ ds.length := by
  have := toOutcome_complement base ds
  have := toOutcome_pos hb hds.complement (by rwa [complement_all_zero])
  omega

theorem low_dropLast_append (s : Digits) (hq : Leading base ds.length q) (hne : q ≠ [])
    (h : low base ds.length q.dropLast < toOutcome base ds) :
    low base (s ++ ds).length (s ++ q).dropLast < toOutcome base (s ++ ds) := by
  rw [List.dropLast_append_of_ne_nil hne, List.length_append, toOutcome_append,
    low_append base (hq.of_isPrefix (List.dropLast_prefix q)).length_le]
  omega

theorem high_dropLast_append (s : Digits) (hq : Leading base ds.length q) (hne : q ≠ [])
    (h : toOutcome base ds + 1 < high base ds.length q.dropLast) :
    toOutcome base (s ++ ds) + 1 < high base (s ++ ds).length (s ++ q).dropLast := by
  rw [List.dropLast_append_of_ne_nil hne, List.length_append, toOutcome_append,
    high_append base (hq.of_isPrefix (List.dropLast_prefix q)).length_le]
  omega

/-- A shorter entry of the front would stand for an outcome before the given digits. -/
theorem low_dropLast_lt (hb : 2 ≤ base) (hds : Valid base ds) (hp : p ∈ atLeast base ds) (hne : p ≠ []) :
    low base ds.length p.dropLast < toOutcome base ds := by
  induction ds generalizing p with
  | nil => exact absurd (List.mem_singleton.mp hp) hne
  | cons d ds ih =>
      obtain ⟨-, hrest⟩ := valid_cons.mp hds
      unfold atLeast at hp
      split at hp
      · exact absurd (List.mem_singleton.mp hp) hne
      next hzeros =>
      have hnone : low base (ds.length + 1) [] < toOutcome base (d :: ds) := by
        simpa [low] using toOutcome_pos hb hds hzeros
      rcases List.mem_append.mp hp with hp | hp
      · obtain ⟨q, hq, rfl⟩ := List.mem_map.mp hp
        by_cases hq0 : q = []
        · subst hq0
          exact hnone
        · exact low_dropLast_append [d] ((tiles_atLeast hrest).leading_of_mem hq) hq0 (ih hrest hq hq0)
      · obtain ⟨k, -, rfl⟩ := List.mem_map.mp hp
        exact hnone

theorem lt_high_dropLast (hb : 2 ≤ base) (hds : Valid base ds) (hp : p ∈ atMost base ds) (hne : p ≠ []) :
    toOutcome base ds + 1 < high base ds.length p.dropLast := by
  have hleading := ((tiles_atMost hds).leading_of_mem hp).of_isPrefix (List.dropLast_prefix p)
  rw [atMost_eq, List.mem_reverse] at hp
  obtain ⟨q, hq, rfl⟩ := List.mem_map.mp hp
  have hlower := low_dropLast_lt hb hds.complement hq (by rintro rfl; exact hne rfl)
  have hmirror := low_complement base hleading.length_le
  have hvalue := toOutcome_complement base ds
  rw [dropLast_complement] at hmirror ⊢
  rw [complement_complement] at hmirror
  rw [length_complement] at hlower
  omega

/-- An entry of the three zones has one digit, or it has more and belongs to the front or the back. -/
theorem mem_zones (hp : p ∈ front base (d :: ds) ++ middle d e ++ back base (e :: es)) :
    (∃ k, p = [k]) ∨ (∃ q ∈ atLeast base ds, q ≠ [] ∧ p = d :: q) ∨
      ∃ q ∈ atMost base es, q ≠ [] ∧ p = e :: q := by
  rcases List.mem_append.mp hp with hp | hp
  · rcases List.mem_append.mp hp with hp | hp
    · obtain ⟨q, hq, rfl⟩ := List.mem_map.mp hp
      by_cases hne : q = []
      · exact Or.inl ⟨d, by rw [hne]⟩
      · exact Or.inr (Or.inl ⟨q, hq, hne, rfl⟩)
    · obtain ⟨k, -, rfl⟩ := List.mem_map.mp hp
      exact Or.inl ⟨k, rfl⟩
  · obtain ⟨q, hq, rfl⟩ := List.mem_map.mp hp
    by_cases hne : q = []
    · exact Or.inl ⟨e, by rw [hne]⟩
    · exact Or.inr (Or.inr ⟨q, hq, hne, rfl⟩)

theorem maximal_of_whole {parting : Parting} (hb : 2 ≤ base) (h : Ascends base parting)
    (hwhole : Whole base parting) :
    Maximal base (parting.shared ++ parting.first).length (toOutcome base (parting.shared ++ parting.first))
      (toOutcome base (parting.shared ++ parting.last) + 1) parting.shared := by
  rintro hshort ⟨hlow, hhigh⟩
  have hmore := high_sub_low base (parting.shared ++ parting.first).length parting.shared.dropLast
  have hplaces : (parting.shared ++ parting.first).length - parting.shared.dropLast.length =
      parting.first.length + 1 := by
    have := List.length_pos_of_ne_nil fun hnil : parting.shared = [] => hshort (by rw [hnil]; rfl)
    rw [List.length_append, List.length_dropLast]
    omega
  rw [hplaces] at hmore
  rw [toOutcome_append, toOutcome_of_zeros hwhole.1] at hlow
  rw [toOutcome_append, add_assoc, toOutcome_of_largest hwhole.2, ← h.length_eq] at hhigh
  have hturn : base ^ parting.first.length < base ^ (parting.first.length + 1) :=
    pow_lt_pow_right₀ (by omega) (Nat.lt_succ_self _)
  omega

theorem not_inside_shared {parting : Parting} (hb : 2 ≤ base) (h : Ascends base parting)
    (hwhole : ¬Whole base parting) :
    ¬Inside base (parting.shared ++ parting.first).length
      (toOutcome base (parting.shared ++ parting.first))
      (toOutcome base (parting.shared ++ parting.last) + 1) parting.shared := by
  rintro ⟨hlow, hhigh⟩
  rw [List.length_append, low, Nat.add_sub_cancel_left, toOutcome_append] at hlow
  rw [List.length_append, high, Nat.add_sub_cancel_left, add_one_mul, toOutcome_append, add_assoc,
    ← h.length_eq] at hhigh
  refine hwhole ⟨by_contra fun hzeros => ?_, by_contra fun hlargest => ?_⟩
  · have := toOutcome_pos hb h.first hzeros
    omega
  · have := toOutcome_lt hb h.last hlargest
    rw [← h.length_eq] at this
    omega

theorem maximal_ofParting {parting : Parting} (hb : 2 ≤ base) (h : Ascends base parting)
    (hp : p ∈ ofParting base parting) :
    Maximal base (parting.shared ++ parting.first).length (toOutcome base (parting.shared ++ parting.first))
      (toOutcome base (parting.shared ++ parting.last) + 1) p := by
  obtain ⟨hwhole, -, heq⟩ | ⟨d, ds, e, es, hfirst, hlast, -, hwhole, heq⟩ := h.ofParting_eq
  · rw [heq] at hp
    obtain rfl := List.mem_singleton.mp hp
    exact maximal_of_whole hb h hwhole
  rw [heq] at hp
  obtain ⟨q, hq, rfl⟩ := List.mem_map.mp hp
  obtain ⟨k, rfl⟩ | ⟨q, hmem, hne, rfl⟩ | ⟨q, hmem, hne, rfl⟩ := mem_zones hq
  · intro hshort
    rw [List.dropLast_concat] at hshort ⊢
    exact not_inside_shared hb h (hwhole hshort)
  · rintro - ⟨hlow, -⟩
    have hvalid := h.first
    rw [hfirst] at hvalid hlow
    obtain ⟨-, hds⟩ := valid_cons.mp hvalid
    have hlower := low_dropLast_append (parting.shared ++ [d]) ((tiles_atLeast hds).leading_of_mem hmem)
      hne (low_dropLast_lt hb hds hmem hne)
    rw [← List.append_cons, ← List.append_cons] at hlower
    exact absurd hlow (not_le.mpr hlower)
  · rintro - ⟨-, hhigh⟩
    have hvalid := h.last
    rw [hlast] at hvalid hhigh
    obtain ⟨-, hes⟩ := valid_cons.mp hvalid
    have hhigher := high_dropLast_append (parting.shared ++ [e]) ((tiles_atMost hes).leading_of_mem hmem)
      hne (lt_high_dropLast hb hes hmem hne)
    rw [← List.append_cons, ← List.append_cons] at hhigher
    have hlength : (parting.shared ++ parting.first).length = (parting.shared ++ e :: es).length := by
      rw [← hlast, List.length_append, List.length_append, h.length_eq]
    rw [hlength] at hhigh
    exact absurd hhigh (not_le.mpr hhigher)

/-! ## Other lists for the same outcomes -/

/-- Leading digits, at least one each, such that an outcome begins with some of them exactly if it lies in
a range. -/
structure CoversRange (base : ℤ) (n : ℕ) (first last : ℤ) (ps : List Digits) : Prop where
  nonempty : ∀ p ∈ ps, p ≠ []
  outcomes : ∀ x, 0 ≤ x → x < base ^ n →
    ((∃ p ∈ ps, p <+: ofOutcome base n x) ↔ first ≤ x ∧ x ≤ last)

/-- All outcomes that begin with an entry that is not too long lie in the range. -/
theorem CoversRange.inside (h : CoversRange base n first last ps) (hb : 2 ≤ base) (hp : p ∈ ps)
    (hleading : Leading base n p) : Inside base n first (last + 1) p := by
  obtain ⟨h0, hmax⟩ := hleading.bounds hb
  have hlt := low_lt_high hb n p
  have hmem : ∀ x, low base n p ≤ x → x < high base n p → first ≤ x ∧ x ≤ last := fun x hx hx' =>
    (h.outcomes x (by omega) (by omega)).mp
      ⟨p, hp, (hleading.prefix_iff hb (by omega) (by omega)).mpr ⟨hx, hx'⟩⟩
  have hlow := hmem (low base n p) le_rfl hlt
  have hhigh := hmem (high base n p - 1) (by omega) (by omega)
  exact ⟨hlow.1, by omega⟩

/-- Whatever list covers a range, it holds digits that begin with a given entry that cannot be shorter. -/
theorem CoversRange.exists_extension (h : CoversRange base n first last qs) (hb : 2 ≤ base)
    (hleading : Leading base n p) (hinside : Inside base n first (last + 1) p)
    (hmaximal : Maximal base n first (last + 1) p) : ∃ q ∈ qs, p <+: q := by
  obtain ⟨h0, hmax⟩ := hleading.bounds hb
  have hlt := low_lt_high hb n p
  obtain ⟨hlow, hhigh⟩ := hinside
  obtain ⟨q, hq, hbegins⟩ := (h.outcomes (low base n p) h0 (by omega)).mpr ⟨hlow, by omega⟩
  have hbegins' := (hleading.prefix_iff hb h0 (by omega)).mpr ⟨le_rfl, hlt⟩
  refine ⟨q, hq, ?_⟩
  rcases List.prefix_or_prefix_of_prefix hbegins' hbegins with hpq | hqp
  · exact hpq
  rcases List.eq_nil_or_concat' p with rfl | ⟨parent, c, rfl⟩
  · exact List.nil_prefix
  rcases List.prefix_concat_iff.mp hqp with rfl | hparent
  · exact List.prefix_rfl
  -- `q` would begin the digits that are left when the last one is dropped
  have hqne := h.nonempty q hq
  have hq' := h.inside hb hq (hleading.of_isPrefix hqp)
  have hnested := (hleading.of_isPrefix (List.prefix_append parent [c])).nested hb hparent
  rw [Maximal, List.dropLast_concat] at hmaximal
  refine absurd ⟨hq'.1.trans hnested.1, hnested.2.trans hq'.2⟩ (hmaximal ?_)
  rintro rfl
  exact hqne (List.prefix_nil.mp hparent)

/-- A run of which no entry can be shorter is no longer than any other list for the same outcomes. -/
theorem CoversRange.length_le (h : CoversRange base n first last qs) (hb : 2 ≤ base)
    (htiles : Tiles base n first ps (last + 1)) (hmaximal : ∀ p ∈ ps, Maximal base n first (last + 1) p) :
    ps.length ≤ qs.length := by
  have hextension : ∀ p ∈ ps, ∃ q ∈ qs, p <+: q := fun p hp =>
    h.exists_extension hb (htiles.leading_of_mem hp) (htiles.bounds_of_mem hb hp) (hmaximal p hp)
  choose! extension hmem hbegins using hextension
  have hapart : ps.Pairwise fun p q => p ∈ ps ∧ q ∈ ps ∧ ¬p <+: q ∧ ¬q <+: p :=
    ((htiles.partitions hb).prefixFree.and
      (List.pairwise_of_forall_mem_list fun p hp q hq => (⟨hp, hq⟩ : p ∈ ps ∧ q ∈ ps))).imp
      fun ⟨hfree, hp, hq⟩ => ⟨hp, hq, hfree⟩
  have hnodup : (ps.map extension).Nodup := by
    refine List.pairwise_map.mpr (hapart.imp fun ⟨hp, hq, hpq, hqp⟩ heq => ?_)
    rcases List.prefix_or_prefix_of_prefix (hbegins _ hp) (heq ▸ hbegins _ hq) with hle | hle
    · exact hpq hle
    · exact hqp hle
  have hsubset : ps.map extension ⊆ qs := by
    intro q hq
    obtain ⟨p, hp, rfl⟩ := List.mem_map.mp hq
    exact hmem p hp
  simpa using (List.subperm_of_subset hnodup hsubset).length_le

/-! ## The cover of a range -/

theorem ne_nil_of_mem_ofParting {parting : Parting} (h : Ascends base parting)
    (hne : parting.shared ++ parting.first ≠ []) (hp : p ∈ ofParting base parting) : p ≠ [] := by
  obtain ⟨-, hdigits, heq⟩ | ⟨d, ds, e, es, -, -, -, -, heq⟩ := h.ofParting_eq
  · rw [heq] at hp
    obtain rfl := List.mem_singleton.mp hp
    rintro hnil
    obtain hfirst | hshared := hdigits
    · exact hne (by rw [hnil, hfirst]; rfl)
    · exact hshared hnil
  · rw [heq] at hp
    obtain ⟨q, hq, rfl⟩ := List.mem_map.mp hp
    obtain ⟨k, rfl⟩ | ⟨q, -, -, rfl⟩ | ⟨q, -, -, rfl⟩ := mem_zones hq
    · simp
    · simp
    · simp

theorem Tiles.coversRange (h : Tiles base n first ps (last + 1)) (hb : 2 ≤ base) (hne : ∀ p ∈ ps, p ≠ []) :
    CoversRange base n first last ps := by
  refine ⟨hne, fun x h0 hx => ?_⟩
  have hcount := h.countP_eq hb h0 hx
  constructor
  · rintro ⟨p, hp, hbegins⟩
    have hpos : 0 < ps.countP (· <+: ofOutcome base n x) :=
      List.countP_pos_iff.mpr ⟨p, hp, by simpa using hbegins⟩
    rw [hcount] at hpos
    split at hpos
    · omega
    · omega
  · intro hbetween
    rw [if_pos (by omega)] at hcount
    obtain ⟨p, hp, hbegins⟩ := List.countP_pos_iff.mp (by omega : 0 < ps.countP (· <+: ofOutcome base n x))
    exact ⟨p, hp, by simpa using hbegins⟩

theorem exists_outside (hb : 2 ≤ base) (hleading : Leading base n p)
    (h : ¬Inside base n first (last + 1) p) :
    ∃ x, 0 ≤ x ∧ x < base ^ n ∧ p <+: ofOutcome base n x ∧ ¬(first ≤ x ∧ x ≤ last) := by
  obtain ⟨h0, hmax⟩ := hleading.bounds hb
  have hlt := low_lt_high hb n p
  by_cases hlow : first ≤ low base n p
  · have hhigh : last + 1 < high base n p := not_le.mp fun hhigh => h ⟨hlow, hhigh⟩
    exact ⟨high base n p - 1, by omega, by omega,
      (hleading.prefix_iff hb (by omega) (by omega)).mpr (by omega), by omega⟩
  · exact ⟨low base n p, h0, by omega, (hleading.prefix_iff hb h0 (by omega)).mpr ⟨le_rfl, hlt⟩, by omega⟩

/-- The cover of a range consists of leading digits for its outcomes, no list of leading digits for the same
outcomes is shorter, and no entry of two digits or more could be replaced by one with a digit less. -/
theorem ofRange_minimal (hb : 2 ≤ base) (hn : 1 ≤ n) (h0 : 0 ≤ first) (hle : first ≤ last)
    (hlast : last < base ^ n) : ∃ cover, ofRange first last base n = .ok cover ∧
      CoversRange base n first last cover ∧ (∀ p ∈ cover, Leading base n p) ∧
      (∀ ps, CoversRange base n first last ps → cover.length ≤ ps.length) ∧
      ∀ p ∈ cover, 2 ≤ p.length → ∃ x, 0 ≤ x ∧ x < base ^ n ∧ p.dropLast <+: ofOutcome base n x ∧
        ¬(first ≤ x ∧ x ≤ last) := by
  obtain ⟨parting, hcover, hascends, rfl, rfl, rfl⟩ := exists_parting hb h0 hle hlast
  have htiles := tiles_ofParting hascends
  have hmaximal := fun p (hp : p ∈ ofParting base parting) => maximal_ofParting hb hascends hp
  refine ⟨_, hcover, htiles.coversRange hb fun p hp => ?_, fun p hp => htiles.leading_of_mem hp,
    fun ps hps => hps.length_le hb htiles hmaximal, fun p hp hlength => ?_⟩
  · exact ne_nil_of_mem_ofParting hascends (List.length_pos_iff.mp hn) hp
  · have hleading := (htiles.leading_of_mem hp).of_isPrefix (List.dropLast_prefix p)
    refine exists_outside hb hleading (hmaximal p hp ?_)
    rw [← List.length_pos_iff, List.length_dropLast]
    omega

/-- Four entries cover these ten ternary outcomes, and no three do. -/
theorem ofRange_minimal_ternary : CoversRange 3 3 2 11 [[0, 0, 2], [0, 1], [0, 2], [1, 0]] ∧
    ∀ ps, CoversRange 3 3 2 11 ps → 4 ≤ ps.length := by
  obtain ⟨cover, hcover, hcovers, -, hshortest, -⟩ :=
    ofRange_minimal (by decide : (2 : ℤ) ≤ 3) (by decide : 1 ≤ 3) (by decide : (0 : ℤ) ≤ 2)
      (by decide : (2 : ℤ) ≤ 11) (by decide)
  have hternary : ofRange 2 11 3 3 = .ok [[0, 0, 2], [0, 1], [0, 2], [1, 0]] := by decide +kernel
  obtain rfl := Except.ok.inj (hternary.symm.trans hcover)
  exact ⟨hcovers, hshortest⟩

end NumericContract.PrefixCover
