import NumericContract.Failure

/-!
# Checked descriptors

A descriptor is checked as a whole: the issues with all its parts are reported together, in the
order of the parts, each with the way to the value at fault. Conditions that tie several parts
together are only looked at when every part is valid. A failure that is no issue with a value
ends the check, whatever issues have been found.
-/

namespace NumericContract

inductive PathStep where
  | field (name : String)
  | item (index : Nat)
deriving Repr, DecidableEq

def PathStep.text : PathStep → String
  | .field name => name
  | .item index => toString index

inductive DescriptorFault where
  | amountFlag
  | amountText (text : String)
  | amountKind (kind : String)
  | amountNegative (shown : String)
  | coefficient (failure : Failure)
  | notAscending (current previous : Nat)
  | lastBeforeEnd (last pieceEnd : Nat)
  | beyondOracle (outcome maxOutcome : Nat)
deriving Repr, DecidableEq

namespace DescriptorFault

def message : DescriptorFault → String
  | .amountFlag => "Amount must be an integer, got bool"
  | .amountText text => s!"Amount must be a decimal integer string: '{text}'"
  | .amountKind kind => s!"Amount must be string or int, got {kind}"
  | .amountNegative shown => s!"Amount cannot be negative: {shown}"
  | .coefficient failure => failure.message
  | .notAscending current previous =>
      s!"Piece end points must be ascending: {current} after {previous}"
  | .lastBeforeEnd last pieceEnd =>
      s!"Last endpoint {last} precedes the last piece end point {pieceEnd}"
  | .beyondOracle outcome maxOutcome =>
      s!"Outcome {outcome} exceeds the oracle's maximum {maxOutcome}"

end DescriptorFault

inductive Complaint where
  | missing
  | notRecord
  | notList
  | tooShort
  | notPositive
  | tooSmall
  | tooLarge
  | integerText
  | integerTextTooLong
  | fractional
  | notFinite
  | notInteger
  | unknownFlag
  | notFlag
  | unknownPiece
  | wrongPiece
  | rejected (fault : DescriptorFault)
deriving Repr, DecidableEq

namespace Complaint

def kind : Complaint → String
  | .missing => "missing"
  | .notRecord => "model_type"
  | .notList => "list_type"
  | .tooShort => "too_short"
  | .notPositive => "greater_than"
  | .tooSmall => "greater_than_equal"
  | .tooLarge => "less_than"
  | .integerText => "int_parsing"
  | .integerTextTooLong => "int_parsing_size"
  | .fractional => "int_from_float"
  | .notFinite => "finite_number"
  | .notInteger => "int_type"
  | .unknownFlag => "bool_parsing"
  | .notFlag => "bool_type"
  | .unknownPiece => "union_tag_invalid"
  | .wrongPiece => "literal_error"
  | .rejected _ => "value_error"

/-- The reason for a rejection. The other kinds speak for themselves. -/
def reason? : Complaint → Option String
  | .rejected fault => some ("Value error, " ++ fault.message)
  | _ => none

end Complaint

structure Issue where
  path : List PathStep
  complaint : Complaint
deriving Repr, DecidableEq

structure Notice where
  path : List PathStep
  kind : String
  reason? : Option String
deriving Repr, DecidableEq

def Issue.notice (i : Issue) : Notice := ⟨i.path, i.complaint.kind, i.complaint.reason?⟩

def Notice.text (n : Notice) : String :=
  ".".intercalate (n.path.map PathStep.text) ++ ": " ++ n.kind ++
    (n.reason?.map (": " ++ ·)).getD ""

inductive Checked (α : Type) where
  | valid (value : α)
  | invalid (issues : List Issue)
  | failed (failure : Failure)
deriving Repr, DecidableEq

namespace Checked

variable {α β : Type}

def complain (complaint : Complaint) : Checked α := .invalid [⟨[], complaint⟩]

def reject (fault : DescriptorFault) : Checked α := complain (.rejected fault)

def map (f : α → β) : Checked α → Checked β
  | .valid value => .valid (f value)
  | .invalid issues => .invalid issues
  | .failed failure => .failed failure

/-- Combines two checks: issues add up, and the first failure counts. -/
def ap (f : Checked (α → β)) (x : Checked α) : Checked β :=
  match f, x with
  | .failed failure, _ => .failed failure
  | _, .failed failure => .failed failure
  | .invalid issues, .invalid more => .invalid (issues ++ more)
  | .invalid issues, .valid _ => .invalid issues
  | .valid _, .invalid issues => .invalid issues
  | .valid g, .valid value => .valid (g value)

instance : Functor Checked where
  map := map

instance : Applicative Checked where
  pure := .valid
  seq f x := ap f (x ())

def andThen (x : Checked α) (next : α → Checked β) : Checked β :=
  match x with
  | .valid value => next value
  | .invalid issues => .invalid issues
  | .failed failure => .failed failure

def within (step : PathStep) : Checked α → Checked α
  | .invalid issues => .invalid (issues.map fun issue => { issue with path := step :: issue.path })
  | x => x

def ofExcept : Except Failure α → Checked α
  | .ok value => .valid value
  | .error failure => .failed failure

def items (check : α → Checked β) (index : Nat) : List α → Checked (List β)
  | [] => .valid []
  | a :: rest =>
      ap (map List.cons ((check a).within (.item index))) (items check (index + 1) rest)

@[simp] theorem map_valid (f : α → β) (value : α) : f <$> (valid value) = valid (f value) := rfl

@[simp] theorem seq_valid (f : α → β) (value : α) : valid f <*> valid value = valid (f value) :=
  rfl

@[simp] theorem andThen_valid (value : α) (next : α → Checked β) :
    (valid value).andThen next = next value := rfl

@[simp] theorem within_valid (step : PathStep) (value : α) :
    (valid value).within step = valid value := rfl

theorem map_eq_valid {f : α → β} {x : Checked α} {b : β} (h : f <$> x = valid b) :
    ∃ a, x = valid a ∧ f a = b := by
  cases x with
  | valid a => exact ⟨a, rfl, valid.inj h⟩
  | invalid => exact absurd h (by simp [Functor.map, map])
  | failed => exact absurd h (by simp [Functor.map, map])

theorem seq_eq_valid {f : Checked (α → β)} {x : Checked α} {b : β} (h : f <*> x = valid b) :
    ∃ g a, f = valid g ∧ x = valid a ∧ g a = b := by
  cases f <;> cases x <;> simp_all [Seq.seq, ap]

theorem andThen_eq_valid {x : Checked α} {next : α → Checked β} {b : β}
    (h : x.andThen next = valid b) : ∃ a, x = valid a ∧ next a = valid b := by
  cases x <;> simp_all [andThen]

theorem within_eq_valid {step : PathStep} {x : Checked α} {a : α} :
    x.within step = valid a ↔ x = valid a := by
  cases x <;> simp [within]

theorem items_eq_valid {γ : Type} {check : α → Checked β} (f : γ → α) (g : γ → β) (l : List γ)
    (h : ∀ c ∈ l, check (f c) = valid (g c)) (index : Nat) :
    items check index (l.map f) = valid (l.map g) := by
  induction l generalizing index with
  | nil => rfl
  | cons c rest ih =>
      have hc := h c (by simp)
      have hr := ih (fun d hd => h d (by simp [hd])) (index + 1)
      simp [items, hc, hr, map, ap]

end Checked

end NumericContract
