import NumericContract.Proofs.PayoutRange

/-!
# Maximal runs

Merged ranges are the maximal runs of what they pay: a range neither begins nor ends where the same goes
on being paid. So what is paid determines them, however the ranges overlapped, were nested or repeated
before they were merged, and merging a part of a list first changes nothing.
-/

namespace NumericContract.PayoutRange

variable {r s : PayoutRange} {rs rs' : List PayoutRange} {x a b : ℤ} {f : ℤ → Option ℤ}

def Covers (r : PayoutRange) (x : ℤ) : Prop := r.first ≤ x ∧ x ≤ r.last

instance (r : PayoutRange) (x : ℤ) : Decidable (r.Covers x) := inferInstanceAs (Decidable (_ ∧ _))

/-! ## Who pays -/

theorem payoutAt?_eq_find? (rs : List PayoutRange) (x : ℤ) :
    payoutAt? rs x = (rs.find? fun r => r.Covers x).map payout := by
  induction rs with
  | nil => rfl
  | cons r rest ih =>
      rw [payoutAt?_cons, List.find?_cons, ih]
      by_cases hcover : r.Covers x
      · rw [decide_eq_true hcover]
        exact if_pos hcover
      · rw [decide_eq_false hcover]
        exact if_neg hcover

theorem exists_mem_of_payoutAt? {p : ℤ} (h : payoutAt? rs x = some p) :
    ∃ r ∈ rs, r.Covers x ∧ r.payout = p := by
  rw [payoutAt?_eq_find?, Option.map_eq_some_iff] at h
  obtain ⟨r, hr, hp⟩ := h
  have hcover := List.find?_some hr
  exact ⟨r, List.mem_of_find?_eq_some hr, of_decide_eq_true hcover, hp⟩

theorem payoutAt?_isSome_iff : (payoutAt? rs x).isSome ↔ ∃ r ∈ rs, r.Covers x := by
  rw [payoutAt?_eq_find?, Option.isSome_map, List.find?_isSome]
  simp

/-- If one range ends before the next begins, each pays at its own outcomes. -/
theorem payoutAt?_of_mem (hs : rs.Pairwise (fun r s => r.last < s.first)) (hr : r ∈ rs)
    (hx : r.Covers x) : payoutAt? rs x = some r.payout := by
  induction rs with
  | nil => cases hr
  | cons s rest ih =>
      rw [payoutAt?_cons]
      rcases List.mem_cons.mp hr with rfl | hr
      · exact if_pos hx
      · have := List.rel_of_pairwise_cons hs hr
        rw [if_neg (by have := hx.1; omega)]
        exact ih hs.of_cons hr

/-! ## Runs -/

/-- A maximal run of `f`: outcomes with one payout that is not paid any more on either side. -/
structure IsRun (f : ℤ → Option ℤ) (r : PayoutRange) : Prop where
  nonempty : r.first ≤ r.last
  constant : ∀ x, r.Covers x → f x = some r.payout
  starts : f (r.first - 1) ≠ some r.payout
  stops : f (r.last + 1) ≠ some r.payout

namespace IsRun

theorem payout_eq (hr : IsRun f r) (hs : IsRun f s) (hx : r.Covers x) (hx' : s.Covers x) :
    r.payout = s.payout :=
  Option.some.inj ((hr.constant x hx).symm.trans (hs.constant x hx'))

theorem first_le (hr : IsRun f r) (hs : IsRun f s) (hx : r.Covers x) (hx' : s.Covers x) :
    s.first ≤ r.first := by
  by_contra hlt
  have hcover : r.Covers (s.first - 1) := ⟨by omega, by have := hx.2; have := hx'.1; omega⟩
  exact hs.starts ((hr.constant _ hcover).trans (congrArg some (hr.payout_eq hs hx hx')))

theorem last_le (hr : IsRun f r) (hs : IsRun f s) (hx : r.Covers x) (hx' : s.Covers x) :
    r.last ≤ s.last := by
  by_contra hlt
  have hcover : r.Covers (s.last + 1) := ⟨by have := hx.1; have := hx'.2; omega, by omega⟩
  exact hs.stops ((hr.constant _ hcover).trans (congrArg some (hr.payout_eq hs hx hx')))

theorem eq_of_covers (hr : IsRun f r) (hs : IsRun f s) (hx : r.Covers x) (hx' : s.Covers x) : r = s := by
  have hfirst := le_antisymm (hs.first_le hr hx' hx) (hr.first_le hs hx hx')
  have hlast := le_antisymm (hr.last_le hs hx hx') (hs.last_le hr hx' hx)
  have hpayout := hr.payout_eq hs hx hx'
  cases r
  cases s
  simp_all

end IsRun

/-! ## Merged lists -/

theorem pairwise_apart (hne : ∀ r ∈ rs, r.first ≤ r.last) (hc : rs.IsChain Apart) : rs.Pairwise Apart := by
  induction rs with
  | nil => exact List.Pairwise.nil
  | cons r rest ih =>
      have hrest : rest.Pairwise Apart := ih (fun s hs => hne s (List.mem_cons_of_mem r hs)) hc.tail
      refine List.Pairwise.cons (fun t ht => ?_) hrest
      cases rest with
      | nil => cases ht
      | cons s ss =>
          have hrs : Apart r s := (List.isChain_cons_cons.mp hc).1
          rcases List.mem_cons.mp ht with rfl | ht
          · exact hrs
          · have hst : Apart s t := List.rel_of_pairwise_cons hrest ht
            have hs : s.first ≤ s.last := hne s (by simp)
            have := hrs.1
            have := hst.1
            exact ⟨by omega, by omega⟩

theorem apart_or_apart (hc : rs.Pairwise Apart) (hr : r ∈ rs) (hs : s ∈ rs) (hne : r ≠ s) :
    Apart r s ∨ Apart s r := by
  have : Std.Symm fun r s => Apart r s ∨ Apart s r := ⟨fun _ _ => Or.symm⟩
  have heither : rs.Pairwise fun r s => Apart r s ∨ Apart s r := hc.imp Or.inl
  exact heither.forall hr hs hne

/-- A range of such a list is a maximal run of what the list pays. -/
theorem isRun_of_mem (hne : ∀ r ∈ rs, r.first ≤ r.last) (hc : rs.Pairwise Apart) (hr : r ∈ rs) :
    IsRun (payoutAt? rs) r := by
  have hrne := hne r hr
  refine ⟨hrne, fun x => payoutAt?_of_mem (hc.imp And.left) hr, fun h => ?_, fun h => ?_⟩
  · obtain ⟨s, hs, ⟨hfirst, hlast⟩, hpay⟩ := exists_mem_of_payoutAt? h
    obtain hrs | hsr := apart_or_apart hc hr hs (by rintro rfl; omega)
    · have := hrs.1
      omega
    · exact hsr.2 (by have := hsr.1; omega) hpay
  · obtain ⟨s, hs, ⟨hfirst, hlast⟩, hpay⟩ := exists_mem_of_payoutAt? h
    obtain hrs | hsr := apart_or_apart hc hr hs (by rintro rfl; omega)
    · exact hrs.2 (by have := hrs.1; omega) hpay.symm
    · have := hsr.1
      omega

/-- The ranges of such a list are all the maximal runs. -/
theorem mem_iff_isRun (hne : ∀ r ∈ rs, r.first ≤ r.last) (hc : rs.Pairwise Apart) :
    r ∈ rs ↔ IsRun (payoutAt? rs) r := by
  refine ⟨isRun_of_mem hne hc, fun h => ?_⟩
  have hfirst : r.Covers r.first := ⟨le_rfl, h.nonempty⟩
  obtain ⟨s, hs, hcover, -⟩ := exists_mem_of_payoutAt? (h.constant r.first hfirst)
  rwa [h.eq_of_covers (isRun_of_mem hne hc hs) hfirst hcover]

theorem eq_of_mem_iff (hne : ∀ r ∈ rs, r.first ≤ r.last) (hne' : ∀ r ∈ rs', r.first ≤ r.last)
    (hc : rs.Pairwise Apart) (hc' : rs'.Pairwise Apart) (hmem : ∀ r, r ∈ rs ↔ r ∈ rs') : rs = rs' := by
  let before (r s : PayoutRange) : Prop := r.first < s.first
  have : Std.Irrefl before := ⟨fun r => lt_irrefl r.first⟩
  have : Std.Antisymm before := ⟨fun r s h h' => absurd h' h.asymm⟩
  have hbefore : rs.Pairwise before := hc.imp_of_mem fun hr _ h => (hne _ hr).trans_lt h.1
  have hbefore' : rs'.Pairwise before := hc'.imp_of_mem fun hr _ h => (hne' _ hr).trans_lt h.1
  exact hbefore.eq_of_mem_iff hbefore' hmem

/-- A merged list is determined by what it pays. -/
theorem eq_of_payoutAt? (hne : ∀ r ∈ rs, r.first ≤ r.last) (hne' : ∀ r ∈ rs', r.first ≤ r.last)
    (hc : rs.Pairwise Apart) (hc' : rs'.Pairwise Apart) (hpay : ∀ x, payoutAt? rs x = payoutAt? rs' x) :
    rs = rs' := by
  refine eq_of_mem_iff hne hne' hc hc' fun r => ?_
  rw [mem_iff_isRun hne hc, mem_iff_isRun hne' hc', funext hpay]

theorem Tiles.nonempty (h : Tiles a rs b) : ∀ r ∈ rs, r.first ≤ r.last :=
  fun _ hr => (h.bounds_of_mem hr).2.1

theorem Tiles.eq_of_isChain (h : Tiles a rs b) (h' : Tiles a rs' b) (hc : rs.IsChain Apart)
    (hc' : rs'.IsChain Apart) (hpay : ∀ x, payoutAt? rs x = payoutAt? rs' x) : rs = rs' :=
  eq_of_payoutAt? h.nonempty h'.nonempty (pairwise_apart h.nonempty hc) (pairwise_apart h'.nonempty hc') hpay

/-! ## Merging -/

section merge

variable (hne : ∀ r ∈ rs, r.first ≤ r.last)
include hne

theorem merge_pairwise_apart : (merge rs).Pairwise Apart :=
  pairwise_apart (nonempty_of_mem_merge hne) (merge_isChain rs)

variable (hs : rs.Pairwise (fun r s => r.first ≤ s.first))
include hs

theorem exists_covers_merge_iff (x : ℤ) : (∃ s ∈ merge rs, s.Covers x) ↔ ∃ r ∈ rs, r.Covers x := by
  rw [← payoutAt?_isSome_iff, ← payoutAt?_isSome_iff, payoutAt?_merge hne hs]

/-- Any list that is merged and pays what the ranges pay is their merged form. -/
theorem eq_merge (hne' : ∀ r ∈ rs', r.first ≤ r.last) (hc : rs'.Pairwise Apart)
    (hpay : ∀ x, payoutAt? rs' x = payoutAt? rs x) : rs' = merge rs := by
  refine eq_of_payoutAt? hne' (nonempty_of_mem_merge hne) hc (merge_pairwise_apart hne) fun x => ?_
  rw [hpay, payoutAt?_merge hne hs]

end merge

/-- What ranges are merged into: the same outcomes, each of them in one range, that pay what the first of
the ranges to cover them pays; ranges in strict order, none of them empty, and no two that touch and pay
the same. -/
structure IsMergeOf (rs merged : List PayoutRange) : Prop where
  covered : ∀ x, (∃ s ∈ merged, s.Covers x) ↔ ∃ r ∈ rs, r.Covers x
  owner : ∀ x, (∃ r ∈ rs, r.Covers x) → ∃! s, s ∈ merged ∧ s.Covers x
  payout : ∀ s ∈ merged, ∀ x, s.Covers x → payoutAt? rs x = some s.payout
  nonempty : ∀ s ∈ merged, s.first ≤ s.last
  ascending : merged.Pairwise (fun s t => s.last < t.first)
  touching : ∀ s ∈ merged, ∀ t ∈ merged, t.first = s.last + 1 → s.payout ≠ t.payout

namespace IsMergeOf

variable {merged : List PayoutRange}

theorem pairwise_apart (h : IsMergeOf rs merged) : merged.Pairwise Apart :=
  h.ascending.imp_of_mem fun hs ht hlt => ⟨hlt, h.touching _ hs _ ht⟩

theorem payoutAt?_eq (h : IsMergeOf rs merged) (x : ℤ) : payoutAt? merged x = payoutAt? rs x := by
  cases hpay : payoutAt? merged x with
  | some p =>
      obtain ⟨s, hs, hcover, rfl⟩ := exists_mem_of_payoutAt? hpay
      exact (h.payout s hs x hcover).symm
  | none =>
      have hnone : ¬∃ r ∈ rs, r.Covers x := by
        rw [← h.covered, ← payoutAt?_isSome_iff, hpay]
        simp
      rw [← payoutAt?_isSome_iff, Option.not_isSome_iff_eq_none] at hnone
      exact hnone.symm

end IsMergeOf

theorem isMergeOf_merge (hne : ∀ r ∈ rs, r.first ≤ r.last)
    (hs : rs.Pairwise (fun r s => r.first ≤ s.first)) : IsMergeOf rs (merge rs) := by
  have hapart := merge_pairwise_apart hne
  have hne' := nonempty_of_mem_merge hne
  have hcovered := exists_covers_merge_iff hne hs
  refine ⟨hcovered, fun x hx => ?_, fun s hmem x hx => ?_, hne', hapart.imp And.left, fun s hs' t ht htouch => ?_⟩
  · obtain ⟨s, hs', hx'⟩ := (hcovered x).mpr hx
    refine ⟨s, ⟨hs', hx'⟩, fun t ⟨ht, hxt⟩ => ?_⟩
    exact (isRun_of_mem hne' hapart ht).eq_of_covers (isRun_of_mem hne' hapart hs') hxt hx'
  · rw [← payoutAt?_merge hne hs]
    exact payoutAt?_of_mem (hapart.imp And.left) hmem hx
  · have := hne' s hs'
    have := hne' t ht
    obtain hst | hts := apart_or_apart hapart hs' ht (by rintro rfl; omega)
    · exact hst.2 htouch
    · have := hts.1
      omega

/-- Ranges that begin in ascending order have one merged form, the list of the maximal runs of what is
paid by the first range to cover an outcome. -/
theorem merge_canonical (rs : List PayoutRange) (hne : ∀ r ∈ rs, r.first ≤ r.last)
    (hs : rs.Pairwise (fun r s => r.first ≤ s.first)) :
    IsMergeOf rs (merge rs) ∧ (∀ merged, IsMergeOf rs merged → merged = merge rs) ∧
      ∀ r, r ∈ merge rs ↔ IsRun (payoutAt? rs) r := by
  refine ⟨isMergeOf_merge hne hs, fun merged h => ?_, fun r => ?_⟩
  · exact eq_merge hne hs h.nonempty h.pairwise_apart h.payoutAt?_eq
  · rw [mem_iff_isRun (nonempty_of_mem_merge hne) (merge_pairwise_apart hne),
      funext (payoutAt?_merge hne hs)]

/-- A range inside another, one that sticks out of it, one that lies in both, a neighbour that pays the
same, and two beyond a gap. -/
def overlapping : List PayoutRange :=
  [⟨0, 4, 1⟩, ⟨2, 3, 9⟩, ⟨3, 8, 2⟩, ⟨3, 8, 1⟩, ⟨9, 9, 2⟩, ⟨12, 14, 2⟩, ⟨15, 15, 2⟩]

theorem merge_canonical_overlapping :
    IsMergeOf overlapping [⟨0, 4, 1⟩, ⟨5, 9, 2⟩, ⟨12, 15, 2⟩] :=
  (merge_canonical overlapping (by decide) (by decide)).1

/-! ## Merging in parts -/

/-- What is merged after a list goes on from the last range of the merged list. -/
theorem mergeInto_append (r : PayoutRange) (rs rs' : List PayoutRange) : ∃ before last,
    mergeInto r rs = before ++ [last] ∧ mergeInto r (rs ++ rs') = before ++ mergeInto last rs' := by
  fun_induction mergeInto r rs with
  | case1 r => exact ⟨[], r, rfl, rfl⟩
  | case2 r s rest h ih =>
      rw [List.cons_append, mergeInto, if_pos h]
      exact ih
  | case3 r s rest h hover hin ih =>
      rw [List.cons_append, mergeInto, if_neg h, if_pos hover, if_pos hin]
      exact ih
  | case4 r s rest h hover hin ih =>
      obtain ⟨before, last, hbefore, hafter⟩ := ih
      rw [List.cons_append, mergeInto, if_neg h, if_pos hover, if_neg hin, hbefore, hafter]
      exact ⟨r :: before, last, rfl, rfl⟩
  | case5 r s rest h hover ih =>
      obtain ⟨before, last, hbefore, hafter⟩ := ih
      rw [List.cons_append, mergeInto, if_neg h, if_neg hover, hbefore, hafter]
      exact ⟨r :: before, last, rfl, rfl⟩

theorem merge_of_isChain (hc : rs.IsChain Apart) : merge rs = rs := by
  cases rs with
  | nil => rfl
  | cons r rest =>
      change mergeInto r rest = r :: rest
      induction rest generalizing r with
      | nil => rfl
      | cons s ss ih =>
          obtain ⟨⟨hlt, htouch⟩, hss⟩ := List.isChain_cons_cons.mp hc
          rw [mergeInto, if_neg, if_neg (by omega), ih s hss]
          rintro ⟨hnear, hpay⟩
          exact htouch (by omega) hpay.symm

/-- A part that comes first may be merged first. -/
theorem merge_merge_append (rs rs' : List PayoutRange) : merge (merge rs ++ rs') = merge (rs ++ rs') := by
  cases rs with
  | nil => rfl
  | cons r rest =>
      obtain ⟨before, last, hbefore, hafter⟩ := mergeInto_append r rest rs'
      change merge (mergeInto r rest ++ rs') = mergeInto r (rest ++ rs')
      obtain ⟨last', rest', hm⟩ := mergeInto_head r rest
      have hmerged : merge (mergeInto r rest) = mergeInto r rest := merge_of_isChain (mergeInto_isChain r rest)
      rw [hm] at hmerged hbefore ⊢
      obtain ⟨before', last'', hbefore', hafter'⟩ := mergeInto_append ⟨r.first, last', r.payout⟩ rest' rs'
      change mergeInto _ rest' = _ at hmerged
      change mergeInto _ (rest' ++ rs') = _
      obtain ⟨rfl, hlast⟩ := List.append_inj' (hbefore'.symm.trans (hmerged.trans hbefore)) rfl
      cases hlast
      rw [hafter, hafter']

/-- What comes out of a merge begins where something begins that went into it, or later. -/
theorem exists_first_le_of_mem_merge (hne : ∀ r ∈ rs, r.first ≤ r.last)
    (hs : rs.Pairwise (fun r s => r.first ≤ s.first)) (h : s ∈ merge rs) : ∃ r ∈ rs, r.first ≤ s.first := by
  have hfirst : s.Covers s.first := ⟨le_rfl, nonempty_of_mem_merge hne s h⟩
  obtain ⟨r, hr, hcover⟩ := (exists_covers_merge_iff hne hs s.first).mp ⟨s, h, hfirst⟩
  exact ⟨r, hr, hcover.1⟩

/-- A part that comes last may be merged first if the ranges begin in ascending order. -/
theorem merge_append_merge (hne : ∀ r ∈ rs ++ rs', r.first ≤ r.last)
    (hs : (rs ++ rs').Pairwise (fun r s => r.first ≤ s.first)) :
    merge (rs ++ merge rs') = merge (rs ++ rs') := by
  obtain ⟨hne₁, hne₂⟩ := List.forall_mem_append.mp hne
  obtain ⟨hs₁, hs₂, hcross⟩ := List.pairwise_append.mp hs
  have hne' : ∀ r ∈ rs ++ merge rs', r.first ≤ r.last :=
    List.forall_mem_append.mpr ⟨hne₁, nonempty_of_mem_merge hne₂⟩
  have hsorted : (merge rs').Pairwise (fun r s => r.first ≤ s.first) :=
    (merge_pairwise_apart hne₂).imp_of_mem fun hr _ h =>
      (nonempty_of_mem_merge hne₂ _ hr).trans h.1.le
  have hs' : (rs ++ merge rs').Pairwise (fun r s => r.first ≤ s.first) := by
    refine List.pairwise_append.mpr ⟨hs₁, hsorted, fun r hr s hmem => ?_⟩
    obtain ⟨t, ht, hle⟩ := exists_first_le_of_mem_merge hne₂ hs₂ hmem
    exact (hcross r hr t ht).trans hle
  refine eq_merge hne hs (nonempty_of_mem_merge hne') (merge_pairwise_apart hne') fun x => ?_
  rw [payoutAt?_merge hne' hs', payoutAt?_append, payoutAt?_append, payoutAt?_merge hne₂ hs₂]

/-- Merging part of a list first changes nothing: the beginning of any list, and if ranges begin in
ascending order each part by itself. -/
theorem merge_composes (rs rs' : List PayoutRange) :
    merge (merge rs ++ rs') = merge (rs ++ rs') ∧ merge (merge rs) = merge rs ∧
      ((∀ r ∈ rs ++ rs', r.first ≤ r.last) → (rs ++ rs').Pairwise (fun r s => r.first ≤ s.first) →
        merge (merge rs ++ merge rs') = merge (rs ++ rs')) := by
  refine ⟨merge_merge_append rs rs', merge_of_isChain (merge_isChain rs), fun hne hs => ?_⟩
  rw [merge_merge_append]
  exact merge_append_merge hne hs

/-- The parts of `overlapping` on either side of the range that sticks out. -/
theorem merge_composes_overlapping :
    merge (merge (overlapping.take 3) ++ merge (overlapping.drop 3)) = merge overlapping :=
  (merge_composes (overlapping.take 3) (overlapping.drop 3)).2.2 (by decide) (by decide)

end NumericContract.PayoutRange
