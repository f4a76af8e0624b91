import NumericContract.Descriptor.Contract

/-!
# What ends a check

A check that ends in a failure does so with that of its first part that fails. Most values of
descriptors are checked without any failure.
-/

namespace NumericContract

namespace Checked

variable {α β : Type}

def failure? : Checked α → Option Failure
  | .failed failure => some failure
  | _ => none

theorem failure?_eq_some_iff {x : Checked α} {f : Failure} : x.failure? = some f ↔ x = failed f := by
  cases x <;> simp [failure?]

@[simp] theorem failure?_valid (a : α) : (valid a).failure? = none := rfl

@[simp] theorem failure?_complain (complaint : Complaint) :
    (complain complaint : Checked α).failure? = none := rfl

@[simp] theorem failure?_reject (fault : DescriptorFault) :
    (reject fault : Checked α).failure? = none := rfl

@[simp] theorem failure?_map (g : α → β) (x : Checked α) : (g <$> x).failure? = x.failure? := by
  cases x <;> rfl

@[simp] theorem failure?_seq (g : Checked (α → β)) (x : Checked α) :
    (g <*> x).failure? = g.failure?.or x.failure? := by
  cases g <;> cases x <;> rfl

@[simp] theorem failure?_within (step : PathStep) (x : Checked α) :
    (x.within step).failure? = x.failure? := by
  cases x <;> rfl

/-- What a check goes on with adds no failure if it never fails. -/
theorem failure?_andThen {next : α → Checked β} (h : ∀ a, (next a).failure? = none) (x : Checked α) :
    (x.andThen next).failure? = x.failure? := by
  cases x with
  | valid a => exact h a
  | invalid => rfl
  | failed => rfl

theorem findSome?_cons_eq_or (f : α → Option β) (a : α) (l : List α) :
    (a :: l).findSome? f = (f a).or (l.findSome? f) := by
  rw [List.findSome?_cons]
  cases f a <;> rfl

theorem failure?_items (check : α → Checked β) (l : List α) (index : Nat) :
    (items check index l).failure? = l.findSome? fun a => (check a).failure? := by
  induction l generalizing index with
  | nil => rfl
  | cons a rest ih =>
      have hstep : items check index (a :: rest) =
          List.cons <$> (check a).within (.item index) <*> items check (index + 1) rest := rfl
      rw [hstep, failure?_seq, failure?_map, failure?_within, ih, findSome?_cons_eq_or]

end Checked

/-! ## Parts of values -/

namespace Json

def fields? : Json → Option Descriptor.Fields
  | .record fields => some fields
  | _ => none

def items : Json → List Json
  | .list l => l
  | _ => []

end Json

namespace Descriptor

variable {α : Type}

def Fields.given? (fields : Fields) (name : String) : Option Json :=
  (Json.lookupField name fields).or (Json.lookupField (underscored name) fields)

theorem Fields.failure?_read (fields : Fields) (name : String) (check : Json → Checked α)
    {absent : Checked α} (h : absent.failure? = none) :
    (fields.read name check absent).failure? =
      (fields.given? name).bind fun v => (check v).failure? := by
  unfold read given?
  cases Json.lookupField name fields with
  | some v => simp
  | none =>
      cases Json.lookupField (underscored name) fields with
      | some v => simp
      | none => simpa using h

@[simp] theorem Fields.failure?_required (fields : Fields) (name : String) (check : Json → Checked α) :
    (fields.required name check).failure? =
      (fields.given? name).bind fun v => (check v).failure? :=
  fields.failure?_read name check (by simp)

@[simp] theorem Fields.failure?_optional (fields : Fields) (name : String) (check : Json → Checked α)
    (default : α) : (fields.optional name check default).failure? =
      (fields.given? name).bind fun v => (check v).failure? :=
  fields.failure?_read name check rfl

@[simp] theorem failure?_asRecord (check : Fields → Checked α) (v : Json) :
    (asRecord check v).failure? = v.fields?.bind fun fields => (check fields).failure? := by
  cases v <;> rfl

@[simp] theorem failure?_asList (least : Nat) (check : Json → Checked α) (v : Json) :
    (asList least check v).failure? = v.items.findSome? fun w => (check w).failure? := by
  cases v with
  | list l =>
      unfold asList
      rw [Checked.failure?_andThen, Checked.failure?_items]
      · rfl
      · intro l
        split <;> rfl
  | _ => rfl

/-! ## Checks without failures -/

theorem failure?_asOptional {check : Json → Checked α} (h : ∀ v, (check v).failure? = none) (v : Json) :
    (asOptional check v).failure? = none := by
  cases v with
  | null => rfl
  | _ => simpa [asOptional] using h _

/-! ### Plain values -/

theorem failure?_asNatural (n : Int) (shown : String) : (asNatural n shown).failure? = none := by
  unfold asNatural
  split <;> rfl

@[simp] theorem failure?_asAmount (v : Json) : (asAmount v).failure? = none := by
  unfold asAmount
  split
  · rfl
  · exact failure?_asNatural _ _
  · split
    · exact failure?_asNatural _ _
    · rfl
  · rfl

theorem failure?_integerOfReal (x : Decimal) : (integerOfReal x).failure? = none := by
  unfold integerOfReal
  split
  · split
    · rfl
    · split
      · split <;> rfl
      · rfl
  · rfl

@[simp] theorem failure?_asInteger (v : Json) : (asInteger v).failure? = none := by
  unfold asInteger
  split
  · rfl
  · rfl
  · exact failure?_integerOfReal _
  · unfold integerOfText
    split <;> rfl
  · rfl

theorem failure?_atLeast (least : Nat) (n : Int) : (atLeast least n).failure? = none := by
  unfold atLeast
  split <;> rfl

theorem failure?_below (bound : Nat) (n : Int) : (below bound n).failure? = none := by
  unfold below
  split
  · rfl
  · split <;> rfl

theorem failure?_flagOfInteger (n : Int) : (flagOfInteger n).failure? = none := by
  unfold flagOfInteger
  split
  · rfl
  · split
    · rfl
    · split <;> rfl

@[simp] theorem failure?_asFlag (v : Json) : (asFlag v).failure? = none := by
  unfold asFlag
  split
  · rfl
  · exact failure?_flagOfInteger _
  · split
    · exact failure?_flagOfInteger _
    · rfl
  · dsimp only
    split
    · rfl
    · split <;> rfl
  · rfl

@[simp] theorem failure?_asKind (kind : String) (v : Json) : (asKind kind v).failure? = none := by
  unfold asKind
  split
  · split <;> rfl
  · rfl

end Descriptor

open Descriptor

@[simp] theorem Descriptor.failure?_asFraction (v : Json) :
    ((asInteger v).andThen (below fractionScale)).failure? = none := by
  rw [Checked.failure?_andThen (failure?_below _), failure?_asInteger]

@[simp] theorem Descriptor.failure?_asAtLeast (least : Nat) (v : Json) :
    ((asInteger v).andThen (atLeast least)).failure? = none := by
  rw [Checked.failure?_andThen (failure?_atLeast _), failure?_asInteger]

/-! ### Records without curves -/

@[simp] theorem PayoutPoint.failure?_ofJson (v : Json) : (ofJson v).failure? = none := by
  simp [ofJson, ofFields]

@[simp] theorem RoundingInterval.failure?_asModulus (v : Json) : (asModulus v).failure? = none := by
  unfold asModulus
  rw [Checked.failure?_andThen, failure?_asAmount]
  intro n
  split <;> rfl

@[simp] theorem RoundingInterval.failure?_ofJson (v : Json) : (ofJson v).failure? = none := by
  simp [ofJson, ofFields]

@[simp] theorem RoundingIntervals.failure?_ofJson (v : Json) : (ofJson v).failure? = none := by
  simp [ofJson, ofFields]

@[simp] theorem PolynomialPiece.failure?_ofFields (fields : Fields) :
    (ofFields fields).failure? = none := by
  simp [ofFields]

@[simp] theorem Coefficient.failure?_ofFields (fields : Fields) : (ofFields fields).failure? = none := by
  simp [ofFields]

end NumericContract
