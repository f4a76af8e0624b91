import NumericContract.CetGroup
import NumericContract.Proofs.Piecewise
import NumericContract.Proofs.PrefixCover

/-!
# One signature for each outcome

The payout ranges of a contract follow one another within what its oracle can attest to, so each of them
has a cover and the covers follow one another too. An outcome of the contract begins with exactly one
of all their entries, and that one signs what the outcome pays.
-/

namespace NumericContract

open Decimal PayoutRange

namespace CetGroup

variable {base a b : ℤ} {n : ℕ} {ranges : List PayoutRange}

/-- Ranges within reach have groups, in their order, whose leading digits stand for their outcomes. -/
theorem exists_ofRanges (hb : 2 ≤ base) (h : Tiles a ranges b) (h0 : 0 ≤ a) (hreach : b ≤ base ^ n) :
    ∃ groups, ofRanges base n ranges = .ok groups ∧ groups.map (·.range) = ranges ∧
      PrefixCover.Tiles base n a (groups.flatMap (·.prefixes)) b ∧
      ∀ g ∈ groups, PrefixCover.Tiles base n g.range.first g.prefixes (g.range.last + 1) := by
  induction ranges generalizing a with
  | nil => exact ⟨[], rfl, rfl, h, by simp⟩
  | cons r rest ih =>
      obtain ⟨rfl, hle, hrest⟩ := h
      have hend := hrest.le
      obtain ⟨cover, hcover, htiles⟩ :=
        PrefixCover.exists_ofRange (n := n) hb h0 hle (by omega : r.last < base ^ n)
      obtain ⟨groups, hgroups, hranges, hall, heach⟩ := ih hrest (by omega)
      refine ⟨⟨r, cover⟩ :: groups, ?_, ?_, ?_, List.forall_mem_cons.mpr ⟨htiles, heach⟩⟩
      · unfold ofRanges at hgroups ⊢
        rw [List.mapM_cons]
        exact bind_eq_ok.mpr ⟨_, bind_eq_ok.mpr ⟨cover, hcover, rfl⟩, bind_eq_ok.mpr ⟨groups, hgroups, rfl⟩⟩
      · rw [List.map_cons, hranges]
      · exact PrefixCover.tiles_append.mpr ⟨_, htiles, hall⟩

end CetGroup

namespace Contract

variable {ctx : Context} {c : Contract} {settings : Settings} {ranges : List PayoutRange}

def digitsOf (c : Contract) (outcome : ℤ) : Digits :=
  Digits.ofOutcome c.oracleBase c.oracleDigits outcome

theorem maxOutcome_add_one (c : Contract) :
    (c.maxOutcome : ℤ) + 1 = (c.oracleBase : ℤ) ^ c.oracleDigits := by
  have hpos : 0 < c.oracleBase ^ c.oracleDigits := Nat.pow_pos (by have := c.base_ge; omega)
  have : c.maxOutcome + 1 = c.oracleBase ^ c.oracleDigits := Nat.sub_add_cancel hpos
  exact_mod_cast this

theorem lastOutcome_le (c : Contract) : c.function.lastOutcome ≤ c.maxOutcome := by
  have hpieces : c.function.pieceEnd ≤ c.maxOutcome := by
    unfold PayoutFunction.Parts.pieceEnd
    cases hlast : (c.function.pieces.map (·.endPoint.outcome)).getLast? with
    | none => exact Nat.zero_le _
    | some outcome =>
        have := List.mem_of_getLast? hlast
        exact c.attestable outcome (by simp_all [Parts.outcomes])
  unfold PayoutFunction.lastOutcome
  cases hlast : c.function.last? with
  | none =>
      simp
      omega
  | some p =>
      have := c.attestable p.outcome (by simp [Parts.outcomes, hlast])
      simp
      omega

/-- Groups that hold the given ranges and sign each of their outcomes once, and no other outcome. -/
structure Signs (c : Contract) (ranges : List PayoutRange) (first last : ℤ)
    (groups : List CetGroup) : Prop where
  ranges_eq : groups.map (·.range) = ranges
  first_eq : ranges.head?.map PayoutRange.first = some first
  last_eq : ranges.getLast?.map PayoutRange.last = some last
  last_le : last ≤ c.maxOutcome
  once : ∀ x : ℤ, 0 ≤ x → x ≤ c.maxOutcome →
    (groups.flatMap (·.prefixes)).countP (· <+: c.digitsOf x) = if first ≤ x ∧ x ≤ last then 1 else 0
  pays : ∀ x, first ≤ x → x ≤ last → ∃ g ∈ groups, (g.range.first ≤ x ∧ x ≤ g.range.last) ∧
    payoutAt? ranges x = some g.range.payout ∧ g.prefixes.countP (· <+: c.digitsOf x) = 1

/-- A contract that has payouts has groups that sign them. -/
theorem cetGroups_sign (h : c.payouts ctx settings = .ok ranges) :
    ∃ groups first last, c.cetGroups ctx settings = .ok groups ∧ c.Signs ranges first last groups := by
  have hb : (2 : ℤ) ≤ c.oracleBase := by exact_mod_cast c.base_ge
  have h0 := c.function.firstOutcome_nonneg
  have hmax := c.maxOutcome_add_one
  have hlast := c.lastOutcome_le
  have htiles : Tiles c.function.firstOutcome ranges (c.function.lastOutcome + 1) :=
    PayoutFunction.tiles_payouts h
  have hne : ranges ≠ [] := PayoutFunction.payouts_ne_nil h
  obtain ⟨groups, hgroups, hranges, hall, heach⟩ :=
    CetGroup.exists_ofRanges (n := c.oracleDigits) hb htiles h0 (by omega)
  refine ⟨groups, c.function.firstOutcome, c.function.lastOutcome, bind_eq_ok.mpr ⟨ranges, h, hgroups⟩,
    hranges, htiles.head?_first hne, ?_, hlast, fun x hx0 hx => ?_, fun x hx hxl => ?_⟩
  · rw [htiles.getLast?_last hne, add_sub_cancel_right]
  · rw [digitsOf, hall.countP_eq hb hx0 (by omega)]
    exact if_congr (by omega) rfl rfl
  · obtain ⟨r, hr, hcover, hpay⟩ := htiles.exists_mem hx (by omega)
    rw [← hranges] at hr
    obtain ⟨g, hg, rfl⟩ := List.mem_map.mp hr
    refine ⟨g, hg, hcover, hpay, ?_⟩
    rw [digitsOf, (heach g hg).countP_eq hb (by omega) (by omega)]
    exact if_pos (by omega)

/-- A contract on two ternary digits, the last outcome being the largest that there is. -/
def tentContract : Contract :=
  ⟨⟨PayoutFunction.tent, ⟨[PayoutFunction.tentInterval], by decide⟩, 5, 3, 2, by decide, by decide⟩,
    by unfold Parts.Attestable; decide⟩

theorem cetGroups_sign_tent : ∃ groups first last,
    tentContract.cetGroups ⟨28, by decide⟩ Settings.standard = .ok groups ∧
      tentContract.Signs [⟨0, 0, 5⟩, ⟨1, 2, 2⟩, ⟨3, 5, 4⟩, ⟨6, 7, 2⟩, ⟨8, 8, 0⟩] first last groups :=
  cetGroups_sign (by decide +kernel)

end Contract

end NumericContract
