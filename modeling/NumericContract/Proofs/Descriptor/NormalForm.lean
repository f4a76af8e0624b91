import NumericContract.Proofs.Descriptor.Reading

/-!
# Normal forms of contracts

What is written of a contract is read as that contract, whatever the value was that the contract was read
from: names with underscores, amounts and coefficients given as text, fields that were left out and fields
that mean nothing all lead to the same form, and the form leads to itself.
-/

namespace NumericContract

open Decimal Descriptor

/-! ## Parts that have been written -/

namespace Descriptor

variable {α : Type} {check : Json → Checked α}

theorem asList_map {least : ℕ} {write : α → Json} {l : List α} (hl : least ≤ l.length)
    (hcheck : ∀ b ∈ l, check (write b) = .valid b) :
    asList least check (.list (l.map write)) = .valid ⟨l, hl⟩ := by
  have hitems := Checked.items_eq_valid write id l hcheck 0
  rw [List.map_id] at hitems
  change (Checked.items check 0 (l.map write)).andThen _ = _
  rw [hitems, Checked.andThen_valid, dif_pos hl]

theorem asAmount_natCast (n : ℕ) : asAmount (.integer n) = .valid n := by
  simp [asAmount, asNatural]

theorem asFraction_natCast {n bound : ℕ} (h : n < bound) :
    (asInteger (.integer n)).andThen (below bound) = .valid ⟨n, h⟩ := by
  simp [asInteger, below, h]

theorem asAtLeast_natCast {n least : ℕ} (h : least ≤ n) :
    (asInteger (.integer n)).andThen (atLeast least) = .valid ⟨n, h⟩ := by
  simp [asInteger, atLeast, h]

end Descriptor

theorem Coefficient.ofJson_toJson (ctx : Context) (c : Coefficient) : ofJson ctx c.toJson = .valid c := by
  change ofFraction
    <$> (asFlag (.flag c.positive)).within (.field "sign")
    <*> (asAmount (.integer c.magnitude)).within (.field "magnitude")
    <*> ((asInteger (.integer c.fraction)).andThen (below fractionScale)).within (.field "precision") = _
  rw [asAmount_natCast, asFraction_natCast c.fraction_lt]
  rfl

theorem PayoutPoint.ofJson_toJson (p : PayoutPoint) : ofJson p.toJson = .valid p := by
  change (fun outcome payout extra => (⟨outcome, payout, extra.1, extra.2⟩ : PayoutPoint))
    <$> (asAmount (.integer p.outcome)).within (.field "eventOutcome")
    <*> (asAmount (.integer p.payout)).within (.field "outcomePayout")
    <*> ((asInteger (.integer p.extraPrecision)).andThen (below fractionScale)).within
      (.field "extraPrecision") = _
  rw [asAmount_natCast, asAmount_natCast, asFraction_natCast p.extraPrecision_lt]
  rfl

theorem RoundingInterval.ofJson_toJson (i : RoundingInterval) : ofJson i.toJson = .valid i := by
  obtain ⟨start, modulus, hstart, hmodulus⟩ := i
  lift start to ℕ using hstart
  lift modulus to ℕ using hmodulus.le
  have hasModulus : asModulus (.integer modulus) = .valid ⟨modulus, by omega⟩ := by
    unfold asModulus
    rw [asAmount_natCast, Checked.andThen_valid, dif_pos (by omega)]
  change (fun (start : Nat) modulus => (⟨start, modulus.1, Int.natCast_nonneg start,
      Int.natCast_pos.mpr modulus.2⟩ : RoundingInterval))
    <$> (asAmount (.integer start)).within (.field "beginInterval")
    <*> (asModulus (.integer modulus)).within (.field "roundingMod") = _
  rw [asAmount_natCast, hasModulus]
  rfl

theorem RoundingIntervals.ofJson_toJson (r : RoundingIntervals) : ofJson r.toJson = .valid r := by
  change (fun l => (⟨l.1, l.2⟩ : RoundingIntervals))
    <$> (asList 1 RoundingInterval.ofJson (.list (r.intervals.map RoundingInterval.toJson))).within
      (.field "intervals") = _
  rw [asList_map r.nonempty fun i _ => i.ofJson_toJson]
  rfl

/-! ## Curve pieces -/

theorem PolynomialPiece.ofJson_toJson (p : PolynomialPiece) : ofJson p.toJson = .valid p := by
  change (fun _ points => (⟨points.1, points.2⟩ : PolynomialPiece))
    <$> (asKind kind (.text kind)).within (.field "type")
    <*> (asList 2 PayoutPoint.ofJson (.list (p.points.map PayoutPoint.toJson))).within (.field "points") = _
  rw [asList_map p.two_le fun q _ => q.ofJson_toJson]
  rfl

theorem HyperbolaPiece.ofJson_toJson (ctx : Context) (h : HyperbolaPiece) : ofJson ctx h.toJson = .valid h := by
  change (fun _ positive f₁ f₂ a b c d => (⟨positive, f₁, f₂, a, b, c, d⟩ : HyperbolaPiece))
    <$> (asKind kind (.text kind)).within (.field "type")
    <*> (asFlag (.flag h.usePositivePiece)).within (.field "usePositivePiece")
    <*> (Coefficient.ofJson ctx h.translateOutcome.toJson).within (.field "translateOutcome")
    <*> (Coefficient.ofJson ctx h.translatePayout.toJson).within (.field "translatePayout")
    <*> (Coefficient.ofJson ctx h.a.toJson).within (.field "a")
    <*> (Coefficient.ofJson ctx h.b.toJson).within (.field "b")
    <*> (Coefficient.ofJson ctx h.c.toJson).within (.field "c")
    <*> (Coefficient.ofJson ctx h.d.toJson).within (.field "d") = _
  simp only [Coefficient.ofJson_toJson]
  rfl

/-- The kind is written with a piece, so that it is read as one of that kind. -/
theorem CurvePiece.ofJson_toJson (ctx : Context) (piece : CurvePiece) :
    ofJson ctx piece.toJson = .valid piece := by
  cases piece with
  | polynomial p =>
      change polynomial <$> (PolynomialPiece.ofJson p.toJson).within (.field PolynomialPiece.kind) = _
      rw [p.ofJson_toJson]
      rfl
  | hyperbola h =>
      change hyperbola <$> (HyperbolaPiece.ofJson ctx h.toJson).within (.field HyperbolaPiece.kind) = _
      rw [h.ofJson_toJson]
      rfl

/-! ## Functions and contracts -/

theorem FunctionPiece.ofJson_toJson (ctx : Context) (p : FunctionPiece) : ofJson ctx p.toJson = .valid p := by
  change FunctionPiece.mk
    <$> (PayoutPoint.ofJson p.endPoint.toJson).within (.field "endPoint")
    <*> (CurvePiece.ofJson ctx p.curve.toJson).within (.field "payoutCurvePiece") = _
  rw [p.endPoint.ofJson_toJson, p.curve.ofJson_toJson]
  rfl

namespace PayoutFunction

theorem asOptional_endpointJson (p? : Option PayoutPoint) :
    asOptional PayoutPoint.ofJson (endpointJson p?) = .valid p? := by
  cases p? with
  | none => rfl
  | some p =>
      change some <$> PayoutPoint.ofJson p.toJson = _
      rw [p.ofJson_toJson]
      rfl

theorem ofParts_toParts (f : PayoutFunction) : ofParts f.toParts = .valid f := by
  unfold ofParts
  split
  · next fault hfault =>
      have hnone := Parts.fault?_eq_none_iff.mpr f.ascends
      rw [hnone] at hfault
      cases hfault
  · rfl

theorem ofJson_toJson (ctx : Context) (f : PayoutFunction) : ofJson ctx f.toJson = .valid f := by
  change ((fun first? pieces last? => (⟨first?, pieces.1, last?, pieces.2⟩ : Parts))
    <$> (asOptional PayoutPoint.ofJson (endpointJson f.first?)).within (.field "firstEndpoint")
    <*> (asList 1 (FunctionPiece.ofJson ctx) (.list (f.pieces.map FunctionPiece.toJson))).within
      (.field "payoutFunctionPieces")
    <*> (asOptional PayoutPoint.ofJson (endpointJson f.last?)).within (.field "lastEndpoint")).andThen
      ofParts = _
  rw [asOptional_endpointJson, asOptional_endpointJson,
    asList_map f.pieces_nonempty fun p _ => p.ofJson_toJson ctx]
  exact f.ofParts_toParts

end PayoutFunction

namespace Contract

theorem ofParts_toParts (c : Contract) : ofParts c.toParts = .valid c := by
  unfold ofParts
  split
  · next outcome hfind =>
      have hmem := List.mem_of_find?_eq_some hfind
      have hexceeds := Parts.exceeds_iff.mp (List.find?_some hfind)
      exact absurd (c.attestable outcome hmem) (Nat.not_le.mpr hexceeds)
  · rfl

/-- What is written of a contract is read as that contract. -/
theorem ofJson_toJson (ctx : Context) (c : Contract) : ofJson ctx c.toJson = .valid c := by
  change ((fun function rounding collateral base digits =>
      (⟨function, rounding, collateral, base.1, digits.1, base.2, digits.2⟩ : Parts))
    <$> (PayoutFunction.ofJson ctx c.function.toJson).within (.field "payoutFunction")
    <*> (RoundingIntervals.ofJson c.rounding.toJson).within (.field "roundingIntervals")
    <*> (asAmount (.integer c.totalCollateral)).within (.field "totalCollateral")
    <*> ((asInteger (.integer c.oracleBase)).andThen (atLeast 2)).within (.field "oracleBase")
    <*> ((asInteger (.integer c.oracleDigits)).andThen (atLeast 1)).within (.field "oracleNumDigits")).andThen
      ofParts = _
  rw [c.function.ofJson_toJson, c.rounding.ofJson_toJson, asAmount_natCast, asAtLeast_natCast c.base_ge,
    asAtLeast_natCast c.digits_ge]
  exact c.ofParts_toParts

end Contract

/-! ## The normal form -/

namespace Contract

def normalize (ctx : Context) (v : Json) : Checked Json := toJson <$> ofJson ctx v

/-- A value that is read as a contract has a normal form, which is read as the same contract and is its own
normal form. The contract is what the fields of either stand for: every point, coefficient and interval, in
the order in which they are given, and everything else that it consists of. -/
theorem normalize_retracts (ctx ctx' : Context) {v : Json} {c : Contract} (h : ofJson ctx v = .valid c) :
    ∃ w, normalize ctx v = .valid w ∧ ofJson ctx' w = .valid c ∧ normalize ctx' w = .valid w ∧
      IsRecord (ReadFrom ctx) v c ∧ IsRecord (ReadFrom ctx') w c := by
  have hw := c.ofJson_toJson ctx'
  refine ⟨c.toJson, ?_, hw, ?_, readFrom_of_ofJson h, readFrom_of_ofJson hw⟩
  · rw [normalize, h, Checked.map_valid]
  · rw [normalize, hw, Checked.map_valid]

/-- A contract that is far from its normal form: names with underscores, digits of another script, amounts,
coefficients and a flag given as text, a coefficient with too many decimals, and parts that are left out or
mean nothing. -/
def looselyGiven : Json :=
  let curve : Json := .record [("type", .text "hyperbola"), ("translate_outcome", .record [("magnitude", .text "1")]),
    ("translatePayout", .text "-1e-20"), ("a", .integer 1), ("b", .text "0"), ("c", .text "-0.0"),
    ("d", .text "2.55555555555555555"), ("use_positive_piece", .text "Yes")]
  .record [("note", .null),
    ("payout_function", .record [
      ("firstEndpoint", .record [("event_outcome", .text "٣"), ("outcomePayout", .text "+7"),
        ("extra_precision", .real (.finite ⟨false, 50, -1⟩))]),
      ("payoutFunctionPieces", .list [.record [
        ("end_point", .record [("event_outcome", .text " 1_0 "), ("outcomePayout", .integer 3)]),
        ("payoutCurvePiece", curve)]]),
      ("last_endpoint", .null)]),
    ("roundingIntervals", .record [("intervals", .list [.record [("begin_interval", .integer 0),
      ("roundingMod", .text "2")]])]),
    ("totalCollateral", .text "100"), ("oracle_num_digits", .text "4.0")]

def looseNormal : Json :=
  let coefficient (sign : Bool) (magnitude precision : ℤ) : Json :=
    .record [("sign", .flag sign), ("magnitude", .integer magnitude), ("precision", .integer precision)]
  let point (outcome payout extra : ℤ) : Json :=
    .record [("eventOutcome", .integer outcome), ("outcomePayout", .integer payout), ("extraPrecision", .integer extra)]
  let curve : Json := .record [("type", .text "hyperbola"), ("usePositivePiece", .flag true),
    ("translateOutcome", coefficient true 1 0), ("translatePayout", coefficient false 0 0),
    ("a", coefficient true 1 0), ("b", coefficient true 0 0), ("c", coefficient true 0 0),
    ("d", coefficient true 2 5555555555555556)]
  .record [
    ("payoutFunction", .record [("firstEndpoint", point 3 7 5),
      ("payoutFunctionPieces", .list [.record [("endPoint", point 10 3 0), ("payoutCurvePiece", curve)]]),
      ("lastEndpoint", .null)]),
    ("roundingIntervals", .record [("intervals", .list [.record [("beginInterval", .integer 0),
      ("roundingMod", .integer 2)]])]),
    ("totalCollateral", .integer 100), ("oracleBase", .integer 2), ("oracleNumDigits", .integer 4)]

theorem normalize_retracts_looselyGiven : ∃ c, normalize .standard looselyGiven = .valid looseNormal ∧
    ofJson .standard looseNormal = .valid c ∧ normalize .standard looseNormal = .valid looseNormal ∧
      IsRecord (ReadFrom .standard) looselyGiven c ∧ IsRecord (ReadFrom .standard) looseNormal c := by
  -- what is read, in numbers
  let coefficient (positive : Bool) (magnitude fraction : ℕ) (h : fraction < fractionScale) : Coefficient :=
    ⟨positive, magnitude, fraction, h⟩
  let curve : CurvePiece := .hyperbola ⟨true, coefficient true 1 0 (by decide), coefficient false 0 0 (by decide),
    coefficient true 1 0 (by decide), coefficient true 0 0 (by decide), coefficient true 0 0 (by decide),
    coefficient true 2 5555555555555556 (by decide)⟩
  have hread : Contract.toParts <$> ofJson .standard looselyGiven = .valid
      ⟨⟨⟨some ⟨3, 7, 5, by decide⟩, [⟨⟨10, 3, 0, by decide⟩, curve⟩], none, by decide⟩, by decide⟩,
        ⟨[⟨0, 2, by decide, by decide⟩], by decide⟩, 100, 2, 4, by decide, by decide⟩ := by
    decide +kernel
  obtain ⟨c, hc, hparts⟩ := Checked.map_eq_valid hread
  obtain ⟨w, hw, hread, hagain, hgiven, hwritten⟩ := normalize_retracts .standard .standard hc
  obtain rfl : looseNormal = w := by
    rw [normalize, hc, Checked.map_valid] at hw
    rw [← Checked.valid.inj hw]
    unfold toJson
    rw [hparts]
    rfl
  exact ⟨c, hw, hread, hagain, hgiven, hwritten⟩

end Contract

end NumericContract
