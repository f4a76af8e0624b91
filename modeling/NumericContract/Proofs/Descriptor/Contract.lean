import NumericContract.CommandLine
import NumericContract.Proofs.Descriptor.Coefficient

/-!
# Contracts that end a check

The check of a contract ends in a failure for two causes only: a curve piece that is no record, and a
coefficient of a hyperbola that is too large to be encoded. Every other value that is no contract is met
with issues, and the command line with its message.
-/

namespace NumericContract

open Decimal Descriptor

def Json.field? (v : Json) (name : String) : Option Json := v.fields?.bind (·.given? name)

/-! ## Curve pieces -/

def HyperbolaPiece.coefficientNames : List String :=
  ["translateOutcome", "translatePayout", "a", "b", "c", "d"]

/-- The failure of the first coefficient that is too large. -/
def HyperbolaPiece.escape? (ctx : Context) (fields : Fields) : Option Failure :=
  coefficientNames.findSome? fun name => (fields.given? name).bind (Coefficient.escape? ctx)

theorem HyperbolaPiece.failure?_ofFields (ctx : Context) (fields : Fields) :
    (ofFields ctx fields).failure? = escape? ctx fields := by
  simp [ofFields, escape?, coefficientNames, Coefficient.failure?_ofJson, Checked.findSome?_cons_eq_or,
    Option.or_assoc]

namespace CurvePiece

def escape? (ctx : Context) : Json → Option Failure
  | .record fields =>
      match Json.lookupField "type" fields with
      | some (.text s) => if s = HyperbolaPiece.kind then HyperbolaPiece.escape? ctx fields else none
      | _ => none
  | v => some (.untypedPiece v.kindName)

theorem failure?_ofFields (ctx : Context) (fields : Fields) :
    (ofFields ctx fields).failure? = escape? ctx (.record fields) := by
  have hne : HyperbolaPiece.kind ≠ PolynomialPiece.kind := by decide
  cases hkind : Json.lookupField "type" fields with
  | none => simp [ofFields, escape?, hkind]
  | some kind =>
      cases kind with
      | text s =>
          by_cases hpolynomial : s = PolynomialPiece.kind
          · simp [ofFields, escape?, hkind, hpolynomial, hne.symm]
          · by_cases hhyperbola : s = HyperbolaPiece.kind
            · simp [ofFields, escape?, hkind, hhyperbola, hne, HyperbolaPiece.failure?_ofFields]
            · simp [ofFields, escape?, hkind, hpolynomial, hhyperbola]
      | _ => simp [ofFields, escape?, hkind]

theorem failure?_ofJson (ctx : Context) (v : Json) : (ofJson ctx v).failure? = escape? ctx v := by
  unfold ofJson
  split
  · exact failure?_ofFields ctx _
  · next v hrecord =>
      unfold escape?
      split
      · next fields => exact absurd rfl (hrecord fields)
      · rfl

end CurvePiece

/-! ## Contracts -/

namespace FunctionPiece

def escape? (ctx : Context) (v : Json) : Option Failure :=
  (v.field? "payoutCurvePiece").bind (CurvePiece.escape? ctx)

theorem failure?_ofJson (ctx : Context) (v : Json) : (ofJson ctx v).failure? = escape? ctx v := by
  simp [ofJson, ofFields, escape?, Json.field?, Option.bind_assoc, CurvePiece.failure?_ofJson]

end FunctionPiece

namespace PayoutFunction

theorem failure?_ofParts (parts : Parts) : (ofParts parts).failure? = none := by
  unfold ofParts
  split <;> rfl

theorem failure?_ofJson (ctx : Context) (v : Json) : (ofJson ctx v).failure? =
    (v.field? "payoutFunctionPieces").bind fun pieces =>
      pieces.items.findSome? (FunctionPiece.escape? ctx) := by
  simp [ofJson, ofFields, Json.field?, Option.bind_assoc, FunctionPiece.failure?_ofJson,
    Checked.failure?_andThen failure?_ofParts, failure?_asOptional PayoutPoint.failure?_ofJson]

end PayoutFunction

namespace Contract

def functionPieces (v : Json) : List Json :=
  ((v.field? "payoutFunction").bind (·.field? "payoutFunctionPieces")).elim [] Json.items

/-- The failure that a value given for a contract ends its check in: that of its first piece with one. -/
def escape? (ctx : Context) (v : Json) : Option Failure :=
  (functionPieces v).findSome? (FunctionPiece.escape? ctx)

theorem failure?_ofParts (parts : Parts) : (ofParts parts).failure? = none := by
  unfold ofParts
  split <;> rfl

theorem failure?_ofJson (ctx : Context) (v : Json) : (ofJson ctx v).failure? = escape? ctx v := by
  have hpieces : escape? ctx v = ((v.field? "payoutFunction").bind
      (·.field? "payoutFunctionPieces")).bind fun pieces =>
        pieces.items.findSome? (FunctionPiece.escape? ctx) := by
    unfold escape? functionPieces
    cases (v.field? "payoutFunction").bind (·.field? "payoutFunctionPieces") <;> rfl
  rw [hpieces]
  simp [ofJson, ofFields, Json.field?, Option.bind_assoc, PayoutFunction.failure?_ofJson,
    Checked.failure?_andThen failure?_ofParts]

theorem ofJson_eq_failed_iff {ctx : Context} {v : Json} {f : Failure} :
    ofJson ctx v = .failed f ↔ escape? ctx v = some f := by
  rw [← failure?_ofJson, Checked.failure?_eq_some_iff]

end Contract

/-! ## The command line -/

namespace CommandLine

/-- The failure that reading a text as a contract ends in: also an integer in it may be too long. -/
def escape? (ctx : Context) (text : String) : Option Failure :=
  match Json.ofText text with
  | .error .malformed => none
  | .error (.tooManyDigits count) => some (.value (.tooManyDigits count))
  | .ok v => Contract.escape? ctx v

/-- What a text that is no contract is refused with: that it is not JSON, or what is reported of all issues
with its value. -/
def Refuses (ctx : Context) (text : String) : LoadFault → Prop
  | .unreadable => False
  | .malformed => Json.ofText text = .error .malformed
  | .invalid notices => ∃ v issues, Json.ofText text = .ok v ∧ Contract.ofJson ctx v = .invalid issues ∧
      notices = issues.map Issue.notice

/-- Reading a text ends in a contract, in a refusal or in the failure that escapes. -/
theorem load_eq {ctx : Context} {text : String} (h : ∀ c, load ctx text ≠ .ok (.ok c)) :
    (∃ failure, escape? ctx text = some failure ∧ load ctx text = .error failure) ∨
      (escape? ctx text = none ∧ ∃ fault, load ctx text = .ok (.error fault) ∧ Refuses ctx text fault) := by
  revert h
  unfold load escape?
  cases htext : Json.ofText text with
  | error reason =>
      intro _
      cases reason with
      | malformed => exact Or.inr ⟨rfl, .malformed, rfl, htext⟩
      | tooManyDigits count => exact Or.inl ⟨_, rfl, rfl⟩
  | ok v =>
      dsimp only
      rw [← Contract.failure?_ofJson]
      cases hv : Contract.ofJson ctx v with
      | valid c => exact fun h => absurd rfl (h c)
      | invalid issues => exact fun _ => Or.inr ⟨rfl, .invalid _, rfl, v, issues, htext, hv, rfl⟩
      | failed failure => exact fun _ => Or.inl ⟨failure, rfl, rfl⟩

/-- The check of a contract ends with a contract or with issues unless a curve piece is no record or a
coefficient of a hyperbola is too large; a text that is no contract is refused, with the reason, unless it
holds one of these or an integer that is too long to be read. How deep the values of a text may nest, and
how much room the power of the base takes that outcomes are held against, is not looked at. -/
theorem contract_total (ctx : Context) :
    (∀ v f, Contract.ofJson ctx v = .failed f ↔ Contract.escape? ctx v = some f) ∧
      ∀ text, (∀ c, load ctx text ≠ .ok (.ok c)) → ∃ fault,
        (escape? ctx text = none → Refuses ctx text fault) ∧
        ∀ wording path rangesOnly environment,
          report ctx wording path rangesOnly (some text) environment =
            (escape? ctx text).elim (.ok (refusal wording path fault)) .error := by
  refine ⟨fun _ _ => Contract.ofJson_eq_failed_iff, fun text h => ?_⟩
  obtain ⟨failure, hescape, hload⟩ | ⟨hescape, fault, hload, hrefuses⟩ := load_eq h
  · refine ⟨.malformed, fun hnone => ?_, fun wording path rangesOnly environment => ?_⟩
    · rw [hescape] at hnone
      cases hnone
    · simp only [report, hload, hescape]
      rfl
  · refine ⟨fault, fun _ => hrefuses, fun wording path rangesOnly environment => ?_⟩
    simp only [report, hload, hescape]
    rfl

/-- A number is refused as no record. -/
theorem contract_total_number : ∀ wording path rangesOnly environment,
    report .standard wording path rangesOnly (some "5") environment =
      .ok (refusal wording path (.invalid [⟨[], "model_type", none⟩])) := by
  have hload : load .standard "5" = .ok (.error (.invalid [⟨[], "model_type", none⟩])) := rfl
  have hescape : escape? .standard "5" = none := rfl
  obtain ⟨fault, hrefuses, hreport⟩ := (contract_total .standard).2 "5" (by simp [hload])
  have hfault : fault = .invalid [⟨[], "model_type", none⟩] := by
    cases fault with
    | unreadable => exact (hrefuses hescape).elim
    | malformed => cases hrefuses hescape
    | invalid notices =>
        obtain ⟨v, issues, htext, hv, rfl⟩ := hrefuses hescape
        cases htext
        cases hv
        rfl
  intro wording path rangesOnly environment
  rw [hreport, hescape, hfault]
  rfl

def pieceText (piece : String) : String :=
  "\x7b\"payoutFunction\": \x7b\"payoutFunctionPieces\": [\x7b\"payoutCurvePiece\": " ++ piece ++ "\x7d]\x7d\x7d"

/-- A number as a curve piece and a coefficient of a hundred zeros are not met with an answer. -/
theorem contract_not_total :
    report .standard LoadFault.text "CONTRACT" false (some (pieceText "5")) (fun _ => none) =
      .error (.untypedPiece "int") ∧
    report .standard LoadFault.text "CONTRACT" false
      (some (pieceText "\x7b\"type\": \"hyperbola\", \"a\": \"1e100\"\x7d")) (fun _ => none) =
      .error (.arithmetic .invalidOperation) := by
  decide +kernel

end CommandLine

end NumericContract
