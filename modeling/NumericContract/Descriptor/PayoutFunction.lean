import NumericContract.Descriptor.CurvePiece

/-!
# Payout functions

A payout function is a sequence of curve pieces. Each piece runs from the end of the piece before
it, the first one from the first end point or else from outcome zero, to its own end point. A
last end point beyond the last piece extends the function by a straight line. The outcomes of
all these points ascend.
-/

namespace NumericContract

open Decimal Descriptor

structure FunctionPiece where
  endPoint : PayoutPoint
  curve : CurvePiece
deriving Repr, DecidableEq

namespace FunctionPiece

def ofFields (ctx : Context) (fields : Fields) : Checked FunctionPiece :=
  FunctionPiece.mk
    <$> fields.required "endPoint" PayoutPoint.ofJson
    <*> fields.required "payoutCurvePiece" (CurvePiece.ofJson ctx)

def ofJson (ctx : Context) : Json → Checked FunctionPiece := asRecord (ofFields ctx)

def toJson (p : FunctionPiece) : Json :=
  .record [("endPoint", p.endPoint.toJson), ("payoutCurvePiece", p.curve.toJson)]

end FunctionPiece

/-- The first number of a list that is less than its predecessor, and that predecessor. -/
def firstDescent? (previous : Nat) : List Nat → Option (Nat × Nat)
  | [] => none
  | current :: rest =>
      if current < previous then some (current, previous) else firstDescent? current rest

theorem firstDescent?_eq_none_iff {previous : Nat} {l : List Nat} :
    firstDescent? previous l = none ↔ (previous :: l).Pairwise (· ≤ ·) := by
  induction l generalizing previous with
  | nil => simp [firstDescent?]
  | cons current rest ih =>
      simp only [firstDescent?]
      split
      · next hlt =>
        refine iff_of_false (by simp) fun h => ?_
        have := List.rel_of_pairwise_cons h List.mem_cons_self
        omega
      · next hle =>
        rw [ih]
        refine ⟨fun h => List.Pairwise.cons ?_ h, fun h => h.of_cons⟩
        intro n hn
        rcases List.mem_cons.mp hn with rfl | hn
        · omega
        · have := List.rel_of_pairwise_cons h hn
          omega

theorem pairwise_zero_cons {l : List Nat} :
    (0 :: l).Pairwise (· ≤ ·) ↔ l.Pairwise (· ≤ ·) := by
  simp

/-- The parts of a payout function, whose outcomes need not ascend. -/
structure PayoutFunction.Parts where
  first? : Option PayoutPoint
  pieces : List FunctionPiece
  last? : Option PayoutPoint
  pieces_nonempty : 1 ≤ pieces.length
deriving Repr, DecidableEq

namespace PayoutFunction.Parts

def outcomes (parts : Parts) : List Nat :=
  parts.first?.toList.map (·.outcome) ++ parts.pieces.map (·.endPoint.outcome)

def pieceEnd (parts : Parts) : Nat :=
  ((parts.pieces.map (·.endPoint.outcome)).getLast?).getD 0

/-- Whether every piece and the straight extension end where they begin or later. -/
def Ascends (parts : Parts) : Prop :=
  parts.outcomes.Pairwise (· ≤ ·) ∧ ∀ p ∈ parts.last?, parts.pieceEnd ≤ p.outcome

def fault? (parts : Parts) : Option DescriptorFault :=
  match firstDescent? 0 parts.outcomes with
  | some (current, previous) => some (.notAscending current previous)
  | none =>
      match parts.last? with
      | none => none
      | some p =>
          if p.outcome < parts.pieceEnd then some (.lastBeforeEnd p.outcome parts.pieceEnd)
          else none

theorem fault?_eq_none_iff {parts : Parts} : parts.fault? = none ↔ parts.Ascends := by
  unfold fault? Ascends
  split
  · next hd =>
    refine iff_of_false (by simp) fun h => ?_
    have := firstDescent?_eq_none_iff.mpr (pairwise_zero_cons.mpr h.1)
    simp [hd] at this
  · next hd =>
    have ascending := pairwise_zero_cons.mp (firstDescent?_eq_none_iff.mp hd)
    cases parts.last? <;> simp [ascending]

instance (parts : Parts) : Decidable parts.Ascends := decidable_of_iff _ fault?_eq_none_iff

end PayoutFunction.Parts

structure PayoutFunction extends PayoutFunction.Parts where
  ascends : toParts.Ascends
deriving Repr, DecidableEq

namespace PayoutFunction

def ofParts (parts : Parts) : Checked PayoutFunction :=
  match h : parts.fault? with
  | some fault => .reject fault
  | none => .valid ⟨parts, Parts.fault?_eq_none_iff.mp h⟩

def ofFields (ctx : Context) (fields : Fields) : Checked PayoutFunction :=
  ((fun first? pieces last? => (⟨first?, pieces.1, last?, pieces.2⟩ : Parts))
    <$> fields.optional "firstEndpoint" (asOptional PayoutPoint.ofJson) none
    <*> fields.required "payoutFunctionPieces" (asList 1 (FunctionPiece.ofJson ctx))
    <*> fields.optional "lastEndpoint" (asOptional PayoutPoint.ofJson) none).andThen ofParts

def ofJson (ctx : Context) : Json → Checked PayoutFunction := asRecord (ofFields ctx)

def endpointJson (p? : Option PayoutPoint) : Json := (p?.map PayoutPoint.toJson).getD .null

def toJson (f : PayoutFunction) : Json :=
  .record [("firstEndpoint", endpointJson f.first?),
    ("payoutFunctionPieces", .list (f.pieces.map FunctionPiece.toJson)),
    ("lastEndpoint", endpointJson f.last?)]

end PayoutFunction

end NumericContract
