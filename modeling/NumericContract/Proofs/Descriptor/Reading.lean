import NumericContract.Descriptor.Contract
import NumericContract.Proofs.Coefficient.Encoding
import NumericContract.Proofs.Decimal.Binary
import NumericContract.Proofs.Decimal.Text
import NumericContract.Proofs.Descriptor.Coefficient

/-!
# What the values of a descriptor stand for

Each part of a contract stands in a field of a record, under its name in camel case or else under its name
with underscores, or it is left out. What is read of it is what its value stands for, and what was left out
is what there is to fall back on.
-/

namespace NumericContract

open Decimal

namespace Descriptor

variable {α β : Type} {fields : Fields} {name snake : String} {v : Json} {a : α} {b : β} {n : ℤ}
  {check : Json → Checked α} {means : Json → β → Prop}

/-! ## Fields -/

/-- The last field of a name has this value. -/
def Fields.Has (fields : Fields) (name : String) (v : Json) : Prop :=
  ∃ before after, fields = before ++ (name, v) :: after ∧ ∀ w, (name, w) ∉ after

def Fields.Lacks (fields : Fields) (name : String) : Prop := ∀ v, (name, v) ∉ fields

/-- A field is given by its name in camel case or, if there is none of this name, by that with underscores. -/
inductive Fields.Gives (fields : Fields) (name snake : String) (v : Json) : Prop where
  | named (h : fields.Has name v)
  | underscored (hname : fields.Lacks name) (h : fields.Has snake v)

def Fields.States (fields : Fields) (name snake : String) (means : Json → β → Prop) (b : β) : Prop :=
  ∃ v, fields.Gives name snake v ∧ means v b

/-- A field that is left out stands for `default`. -/
def Fields.StatesOr (fields : Fields) (name snake : String) (means : Json → β → Prop) (default b : β) : Prop :=
  fields.States name snake means b ∨ (fields.Lacks name ∧ fields.Lacks snake) ∧ b = default

theorem Fields.has_of_lookup (h : Json.lookupField name fields = some v) : fields.Has name v := by
  obtain ⟨after, before, hsplit, hafter⟩ := List.lookup_eq_some_iff.mp h
  refine ⟨before.reverse, after.reverse, ?_, fun w hw => ?_⟩
  · rw [← List.reverse_reverse fields, hsplit]
    simp
  · exact absurd (hafter _ (List.mem_reverse.mp hw)) (by simp)

theorem Fields.lacks_of_lookup (h : Json.lookupField name fields = none) : fields.Lacks name :=
  fun _ hv => absurd (List.lookup_eq_none_iff.mp h _ (List.mem_reverse.mpr hv)) (by simp)

theorem Fields.of_read {absent : Checked α} (hsnake : underscored name = snake)
    (h : fields.read name check absent = .valid a) :
    (∃ v, fields.Gives name snake v ∧ check v = .valid a) ∨
      (fields.Lacks name ∧ fields.Lacks snake) ∧ absent = .valid a := by
  subst hsnake
  unfold read at h
  split at h
  · next v hv => exact Or.inl ⟨v, .named (has_of_lookup hv), Checked.within_eq_valid.mp h⟩
  · next hname =>
    have hlacks := lacks_of_lookup hname
    split at h
    · next v hv => exact Or.inl ⟨v, .underscored hlacks (has_of_lookup hv), Checked.within_eq_valid.mp h⟩
    · next hnone => exact Or.inr ⟨⟨hlacks, lacks_of_lookup hnone⟩, h⟩

theorem Fields.states_of_required (hsnake : underscored name = snake)
    (hcheck : ∀ v, check v = .valid a → means v b) (h : fields.required name check = .valid a) :
    fields.States name snake means b := by
  obtain ⟨v, hv, hvalid⟩ | ⟨-, habsent⟩ := Fields.of_read hsnake h
  · exact ⟨v, hv, hcheck v hvalid⟩
  · cases habsent

theorem Fields.statesOr_of_optional {fallback : α} {default : β} (hsnake : underscored name = snake)
    (hcheck : ∀ v, check v = .valid a → means v b) (hdefault : a = fallback → b = default)
    (h : fields.optional name check fallback = .valid a) : fields.StatesOr name snake means default b := by
  obtain ⟨v, hv, hvalid⟩ | ⟨hlacks, habsent⟩ := Fields.of_read hsnake h
  · exact Or.inl ⟨v, hv, hcheck v hvalid⟩
  · exact Or.inr ⟨hlacks, hdefault (Checked.valid.inj habsent).symm⟩

/-! ## Containers -/

def IsRecord (means : Fields → β → Prop) (v : Json) (b : β) : Prop := ∃ fields, v = .record fields ∧ means fields b

def IsList (means : Json → β → Prop) (v : Json) (l : List β) : Prop :=
  ∃ items, v = .list items ∧ List.Forall₂ means items l

def IsOptional (means : Json → β → Prop) (v : Json) (b? : Option β) : Prop :=
  v = .null ∧ b? = none ∨ ∃ b, b? = some b ∧ means v b

theorem isRecord_of_asRecord {check : Fields → Checked α} {means : Fields → α → Prop}
    (hcheck : ∀ fields, check fields = .valid a → means fields a) (h : asRecord check v = .valid a) :
    IsRecord means v a := by
  cases v with
  | record fields => exact ⟨fields, rfl, hcheck fields h⟩
  | _ => cases h

theorem forall₂_of_items {means : Json → α → Prop} {items : List Json} {l : List α} {index : ℕ}
    (hcheck : ∀ v a, check v = .valid a → means v a) (h : Checked.items check index items = .valid l) :
    List.Forall₂ means items l := by
  induction items generalizing l index with
  | nil =>
      cases h
      exact .nil
  | cons v rest ih =>
      obtain ⟨_, more, hfirst, hrest, rfl⟩ := Checked.seq_eq_valid
        (show List.cons <$> (check v).within (.item index) <*> Checked.items check (index + 1) rest = .valid l from h)
      obtain ⟨a, ha, rfl⟩ := Checked.map_eq_valid hfirst
      exact .cons (hcheck v a (Checked.within_eq_valid.mp ha)) (ih hrest)

theorem isList_of_asList {means : Json → α → Prop} {least : ℕ} {l : { l : List α // least ≤ l.length }}
    (hcheck : ∀ v a, check v = .valid a → means v a) (h : asList least check v = .valid l) :
    IsList means v l.1 := by
  cases v with
  | list items =>
      obtain ⟨as, has, hl⟩ := Checked.andThen_eq_valid (show (Checked.items check 0 items).andThen _ = _ from h)
      split at hl
      · cases hl
        exact ⟨items, rfl, forall₂_of_items hcheck has⟩
      · cases hl
  | _ => cases h

theorem isOptional_of_asOptional {means : Json → α → Prop} {a? : Option α}
    (hcheck : ∀ v a, check v = .valid a → means v a) (h : asOptional check v = .valid a?) :
    IsOptional means v a? := by
  unfold asOptional at h
  split at h
  · cases h
    exact Or.inl ⟨rfl, rfl⟩
  · obtain ⟨a, ha, rfl⟩ := Checked.map_eq_valid h
    exact Or.inr ⟨a, rfl, hcheck v a ha⟩

/-! ## Plain values -/

/-- An amount: an integer or the text of one, not negative. -/
inductive IsAmount : Json → ℤ → Prop where
  | integer {n : ℤ} (hn : 0 ≤ n) : IsAmount (.integer n) n
  | text {s : String} {n : ℤ} (h : Text.Spells s.toList n) (hn : 0 ≤ n) : IsAmount (.text s) n

/-- A plain integer, which may also be given as a flag or as a number with a point that is one as a
binary64 number. -/
inductive IsInteger : Json → ℤ → Prop where
  | integer (n : ℤ) : IsInteger (.integer n) n
  | flag (b : Bool) : IsInteger (.flag b) (if b then 1 else 0)
  | real {x : Finite} {n : ℤ} (h : Binary64.Rounds x.value n) : IsInteger (.real (.finite x)) n
  | text {s : String} {n : ℤ} (h : Text.Spells s.toList n) : IsInteger (.text s) n

/-- A flag, also as one or zero or as a word in any case. -/
inductive IsFlag : Json → Bool → Prop where
  | flag (b : Bool) : IsFlag (.flag b) b
  | integer (b : Bool) : IsFlag (.integer (if b then 1 else 0)) b
  | real {x : Finite} {b : Bool} (h : Binary64.Rounds x.value (if b then 1 else 0)) : IsFlag (.real (.finite x)) b
  | yes {s : String} (h : s.map Char.toLower ∈ ["1", "true", "t", "yes", "y", "on"]) : IsFlag (.text s) true
  | no {s : String} (h : s.map Char.toLower ∈ ["0", "false", "f", "no", "n", "off"]) : IsFlag (.text s) false

theorem asNatural_eq_valid {shown : String} {m : ℕ} (h : asNatural n shown = .valid m) : 0 ≤ n ∧ (m : ℤ) = n := by
  unfold asNatural at h
  split at h
  · next hn =>
    cases h
    exact ⟨hn, Int.toNat_of_nonneg hn⟩
  · cases h

theorem isAmount_of_asAmount {m : ℕ} (h : asAmount v = .valid m) : IsAmount v m := by
  unfold asAmount at h
  split at h
  · cases h
  · obtain ⟨hn, hm⟩ := asNatural_eq_valid h
    rw [hm]
    exact .integer hn
  · split at h
    · next hread =>
      obtain ⟨hn, hm⟩ := asNatural_eq_valid h
      rw [hm]
      exact .text (Text.spells_of_readInteger hread) hn
    · cases h
  · cases h

theorem rounds_of_integerOfReal {x : Decimal} (h : integerOfReal x = .valid n) :
    ∃ y : Finite, x = .finite y ∧ Binary64.Rounds y.value n := by
  unfold integerOfReal at h
  split at h
  · next y =>
    split at h
    · cases h
    · next b hb =>
      split at h
      · next k hk =>
        split at h
        · cases h
          refine ⟨y, rfl, ?_⟩
          have hround := Binary64.ofDecimal?_rounds hb
          rw [Binary64.value_of_toNat? hk] at hround
          cases hneg : y.negative with
          | false =>
              rw [abs_of_nonneg (Finite.value_nonneg_of_positive hneg)] at hround
              simpa [Text.applySign] using hround
          | true =>
              rw [abs_of_nonpos (Finite.value_nonpos_of_negative hneg)] at hround
              simpa [Text.applySign] using hround.neg
        · cases h
      · cases h
  · cases h

theorem isInteger_of_asInteger (h : asInteger v = .valid n) : IsInteger v n := by
  unfold asInteger at h
  split at h
  · cases h
    exact .integer _
  · cases h
    exact .flag _
  · obtain ⟨y, rfl, hround⟩ := rounds_of_integerOfReal h
    exact .real hround
  · unfold integerOfText at h
    split at h
    · next hread =>
      cases h
      exact .text (Text.spells_of_readPlainInteger hread)
    · cases h
    · cases h
  · cases h

theorem isInteger_of_below {bound : ℕ} {m : { m : ℕ // m < bound }}
    (h : (asInteger v).andThen (below bound) = .valid m) : IsInteger v m.1 := by
  obtain ⟨n, hn, h⟩ := Checked.andThen_eq_valid h
  unfold below at h
  split at h
  · cases h
  · split at h
    · cases h
      rw [Int.toNat_of_nonneg (by omega)]
      exact isInteger_of_asInteger hn
    · cases h

theorem isInteger_of_atLeast {least : ℕ} {m : { m : ℕ // least ≤ m }}
    (h : (asInteger v).andThen (atLeast least) = .valid m) : IsInteger v m.1 := by
  obtain ⟨n, hn, h⟩ := Checked.andThen_eq_valid h
  unfold atLeast at h
  split at h
  · next hle =>
    cases h
    rw [Int.toNat_of_nonneg hle.2]
    exact isInteger_of_asInteger hn
  · cases h

theorem flagOfInteger_eq_valid {b : Bool} (h : flagOfInteger n = .valid b) : n = if b then 1 else 0 := by
  unfold flagOfInteger at h
  split at h
  · next hone =>
    cases h
    exact hone
  · split at h
    · next hzero =>
      cases h
      exact hzero
    · split at h <;> cases h

theorem isFlag_of_asFlag {b : Bool} (h : asFlag v = .valid b) : IsFlag v b := by
  unfold asFlag at h
  split at h
  · cases h
    exact .flag _
  · rw [flagOfInteger_eq_valid h]
    exact .integer b
  · split at h
    · next hx =>
      obtain ⟨y, rfl, hround⟩ := rounds_of_integerOfReal hx
      rw [flagOfInteger_eq_valid h] at hround
      exact .real (by simpa using hround)
    · cases h
  · dsimp only at h
    split at h
    · next hyes =>
      cases h
      exact .yes (by simpa [trueWords] using hyes)
    · split at h
      · next hno =>
        cases h
        exact .no (by simpa [falseWords] using hno)
      · cases h
  · cases h

inductive IsNumber : Json → ℚ → Prop where
  | integer (n : ℤ) : IsNumber (.integer n) n
  | text {s : String} {q : ℚ} (h : Text.SpellsDecimal s.toList q) : IsNumber (.text s) q

theorem isNumber_of_toDecimal {x : Finite} (h : v.toDecimal name = .ok (.finite x)) : IsNumber v x.value := by
  unfold Json.toDecimal at h
  split at h
  · cases h
    rw [Finite.value_ofInt]
    exact .integer _
  · split at h
    · next hread =>
      cases h
      exact .text (Text.spellsDecimal_of_ofText? hread)
    · cases h
  · cases h

end Descriptor

open Descriptor

/-! ## Coefficients -/

namespace Coefficient

variable {ctx : Context} {c : Coefficient} {v : Json} {x : Finite}

/-- The absolute value in the digits of the context, rounded to sixteen decimals, a half going upward. -/
structure Encodes (ctx : Context) (q : ℚ) (c : Coefficient) : Prop where
  positive : c.positive = decide (0 ≤ q)
  units : ∃ y, ctx.widened.Rounds |q| y ∧ c.magnitude * 10 ^ 16 + c.fraction = ⌊y * 10 ^ 16 + 1 / 2⌋₊

inductive ReadFrom (ctx : Context) : Json → Coefficient → Prop where
  | parts {fields : Fields} {c : Coefficient} (hsign : fields.StatesOr "sign" "sign" IsFlag true c.positive)
      (hmagnitude : fields.States "magnitude" "magnitude" IsAmount c.magnitude)
      (hfraction : fields.StatesOr "precision" "precision" IsInteger 0 c.fraction) :
      ReadFrom ctx (.record fields) c
  | number {v : Json} {q : ℚ} {c : Coefficient} (hv : IsNumber v q) (hc : Encodes ctx q c) : ReadFrom ctx v c

theorem encodes_of_ofFinite (h : ofFinite ctx x = .ok c) : Encodes ctx x.value c := by
  obtain ⟨n, hn, h⟩ := bind_eq_ok.mp h
  cases h
  refine ⟨?_, ?_⟩
  · have hneg := x.isNegative_iff
    rw [Bool.eq_iff_iff, Bool.not_eq_true', Bool.eq_false_iff, Ne, hneg, decide_eq_true_iff, not_lt]
  · obtain ⟨m, hsettles, habs⟩ := x.abs_eq ctx.widened
    split at habs
    · unfold units at hn
      rw [habs] at hn
      cases hn
    · rw [units_eq habs] at hn
      split at hn
      · cases hn
        refine ⟨m.value, hsettles.rounds, ?_⟩
        have hnonneg := hsettles.rounds.nonneg (abs_nonneg _)
        rw [show (10 : ℕ) ^ 16 = fractionScale from rfl, mul_comm, Nat.div_add_mod, Finite.countIn, div_unit,
          abs_of_nonneg hnonneg]
      · cases hn

theorem readFrom_of_ofJson (h : ofJson ctx v = .valid c) : ReadFrom ctx v c := by
  unfold ofJson at h
  split at h
  · obtain ⟨_, fraction, hparts, hfraction, rfl⟩ := Checked.seq_eq_valid h
    obtain ⟨_, magnitude, hsign, hmagnitude, rfl⟩ := Checked.seq_eq_valid hparts
    obtain ⟨positive, hpositive, rfl⟩ := Checked.map_eq_valid hsign
    exact .parts (Fields.statesOr_of_optional rfl (fun _ => isFlag_of_asFlag) id hpositive)
      (Fields.states_of_required rfl (fun _ => isAmount_of_asAmount) hmagnitude)
      (Fields.statesOr_of_optional rfl (fun _ => isInteger_of_below) (by rintro rfl; rfl) hfraction)
  · unfold ofNumber at h
    split at h
    · next d hd =>
      cases h
      obtain ⟨value, hvalue, hencoded⟩ := bind_eq_ok.mp hd
      cases value with
      | finite x =>
          exact .number (isNumber_of_toDecimal hvalue)
            (encodes_of_ofFinite (Failure.ofArithmetic_eq_ok.mp hencoded))
      | infinity => cases hencoded
      | nan => cases hencoded
    · cases h
    · cases h

end Coefficient

/-! ## Points and pieces -/

structure PayoutPoint.ReadFrom (fields : Fields) (p : PayoutPoint) : Prop where
  outcome : fields.States "eventOutcome" "event_outcome" IsAmount p.outcome
  payout : fields.States "outcomePayout" "outcome_payout" IsAmount p.payout
  extraPrecision : fields.StatesOr "extraPrecision" "extra_precision" IsInteger 0 p.extraPrecision

theorem PayoutPoint.readFrom_of_ofJson {v : Json} {p : PayoutPoint} (h : ofJson v = .valid p) :
    IsRecord ReadFrom v p := by
  refine isRecord_of_asRecord (fun fields h => ?_) h
  obtain ⟨_, extra, hpair, hextra, rfl⟩ := Checked.seq_eq_valid h
  obtain ⟨_, payout, hmap, hpayout, rfl⟩ := Checked.seq_eq_valid hpair
  obtain ⟨outcome, houtcome, rfl⟩ := Checked.map_eq_valid hmap
  exact ⟨Fields.states_of_required rfl (fun _ => isAmount_of_asAmount) houtcome,
    Fields.states_of_required rfl (fun _ => isAmount_of_asAmount) hpayout,
    Fields.statesOr_of_optional rfl (fun _ => isInteger_of_below) (by rintro rfl; rfl) hextra⟩

/-- A curve piece of the kind that its fields name, a polynomial if they name none. -/
inductive CurvePiece.ReadFrom (ctx : Context) : Json → CurvePiece → Prop where
  | polynomial {fields : Fields} {p : PolynomialPiece}
      (hkind : fields.Lacks "type" ∨ fields.Has "type" (.text "polynomial"))
      (hpoints : fields.States "points" "points" (IsList (IsRecord PayoutPoint.ReadFrom)) p.points) :
      ReadFrom ctx (.record fields) (.polynomial p)
  | hyperbola {fields : Fields} {h : HyperbolaPiece} (hkind : fields.Has "type" (.text "hyperbola"))
      (hpositive : fields.StatesOr "usePositivePiece" "use_positive_piece" IsFlag true h.usePositivePiece)
      (houtcome : fields.States "translateOutcome" "translate_outcome" (Coefficient.ReadFrom ctx) h.translateOutcome)
      (hpayout : fields.States "translatePayout" "translate_payout" (Coefficient.ReadFrom ctx) h.translatePayout)
      (ha : fields.States "a" "a" (Coefficient.ReadFrom ctx) h.a)
      (hb : fields.States "b" "b" (Coefficient.ReadFrom ctx) h.b)
      (hc : fields.States "c" "c" (Coefficient.ReadFrom ctx) h.c)
      (hd : fields.States "d" "d" (Coefficient.ReadFrom ctx) h.d) : ReadFrom ctx (.record fields) (.hyperbola h)

namespace CurvePiece

variable {ctx : Context} {fields : Fields}

theorem readFrom_of_polynomial {p : PolynomialPiece}
    (hkind : fields.Lacks "type" ∨ fields.Has "type" (.text "polynomial"))
    (h : PolynomialPiece.ofFields fields = .valid p) : ReadFrom ctx (.record fields) (.polynomial p) := by
  obtain ⟨_, points, hmap, hpoints, rfl⟩ := Checked.seq_eq_valid h
  obtain ⟨_, -, rfl⟩ := Checked.map_eq_valid hmap
  exact .polynomial hkind (Fields.states_of_required rfl
    (fun _ => isList_of_asList fun _ _ => PayoutPoint.readFrom_of_ofJson) hpoints)

theorem readFrom_of_hyperbola {p : HyperbolaPiece} (hkind : fields.Has "type" (.text "hyperbola"))
    (h : HyperbolaPiece.ofFields ctx fields = .valid p) : ReadFrom ctx (.record fields) (.hyperbola p) := by
  obtain ⟨_, d, h₇, hd, rfl⟩ := Checked.seq_eq_valid h
  obtain ⟨_, c, h₆, hc, rfl⟩ := Checked.seq_eq_valid h₇
  obtain ⟨_, b, h₅, hb, rfl⟩ := Checked.seq_eq_valid h₆
  obtain ⟨_, a, h₄, ha, rfl⟩ := Checked.seq_eq_valid h₅
  obtain ⟨_, payout, h₃, hpayout, rfl⟩ := Checked.seq_eq_valid h₄
  obtain ⟨_, outcome, h₂, houtcome, rfl⟩ := Checked.seq_eq_valid h₃
  obtain ⟨_, positive, h₁, hpositive, rfl⟩ := Checked.seq_eq_valid h₂
  obtain ⟨_, -, rfl⟩ := Checked.map_eq_valid h₁
  have hcoefficient (v : Json) {e : Coefficient} : Coefficient.ofJson ctx v = .valid e → Coefficient.ReadFrom ctx v e :=
    Coefficient.readFrom_of_ofJson
  exact .hyperbola hkind (Fields.statesOr_of_optional rfl (fun _ => isFlag_of_asFlag) id hpositive)
    (Fields.states_of_required rfl (fun v => hcoefficient v) houtcome)
    (Fields.states_of_required rfl (fun v => hcoefficient v) hpayout)
    (Fields.states_of_required rfl (fun v => hcoefficient v) ha)
    (Fields.states_of_required rfl (fun v => hcoefficient v) hb)
    (Fields.states_of_required rfl (fun v => hcoefficient v) hc)
    (Fields.states_of_required rfl (fun v => hcoefficient v) hd)

theorem readFrom_of_ofJson {v : Json} {piece : CurvePiece} (h : ofJson ctx v = .valid piece) :
    ReadFrom ctx v piece := by
  unfold ofJson at h
  split at h
  · next fields =>
    unfold ofFields at h
    dsimp only at h
    cases hkind : Json.lookupField "type" fields with
    | none =>
        rw [hkind, Option.getD_none] at h
        dsimp only at h
        rw [if_pos rfl] at h
        obtain ⟨p, hp, rfl⟩ := Checked.map_eq_valid h
        exact readFrom_of_polynomial (Or.inl (Fields.lacks_of_lookup hkind)) (Checked.within_eq_valid.mp hp)
    | some kind =>
        rw [hkind, Option.getD_some] at h
        split at h
        · split at h
          · next hs =>
            subst hs
            obtain ⟨p, hp, rfl⟩ := Checked.map_eq_valid h
            exact readFrom_of_polynomial (Or.inr (Fields.has_of_lookup hkind)) (Checked.within_eq_valid.mp hp)
          · split at h
            · next hs =>
              subst hs
              obtain ⟨p, hp, rfl⟩ := Checked.map_eq_valid h
              exact readFrom_of_hyperbola (Fields.has_of_lookup hkind) (Checked.within_eq_valid.mp hp)
            · cases h
        · cases h
  · cases h

end CurvePiece

structure FunctionPiece.ReadFrom (ctx : Context) (fields : Fields) (p : FunctionPiece) : Prop where
  endPoint : fields.States "endPoint" "end_point" (IsRecord PayoutPoint.ReadFrom) p.endPoint
  curve : fields.States "payoutCurvePiece" "payout_curve_piece" (CurvePiece.ReadFrom ctx) p.curve

theorem FunctionPiece.readFrom_of_ofJson {ctx : Context} {v : Json} {p : FunctionPiece}
    (h : ofJson ctx v = .valid p) : IsRecord (ReadFrom ctx) v p := by
  refine isRecord_of_asRecord (fun fields h => ?_) h
  obtain ⟨_, curve, hmap, hcurve, rfl⟩ := Checked.seq_eq_valid h
  obtain ⟨point, hpoint, rfl⟩ := Checked.map_eq_valid hmap
  exact ⟨Fields.states_of_required rfl (fun _ => PayoutPoint.readFrom_of_ofJson) hpoint,
    Fields.states_of_required rfl (fun _ => CurvePiece.readFrom_of_ofJson) hcurve⟩

/-! ## Functions, intervals and contracts -/

structure PayoutFunction.ReadFrom (ctx : Context) (fields : Fields) (f : PayoutFunction) : Prop where
  first : fields.StatesOr "firstEndpoint" "first_endpoint" (IsOptional (IsRecord PayoutPoint.ReadFrom)) none f.first?
  pieces : fields.States "payoutFunctionPieces" "payout_function_pieces"
    (IsList (IsRecord (FunctionPiece.ReadFrom ctx))) f.pieces
  last : fields.StatesOr "lastEndpoint" "last_endpoint" (IsOptional (IsRecord PayoutPoint.ReadFrom)) none f.last?

theorem PayoutFunction.toParts_of_ofParts {parts : Parts} {f : PayoutFunction} (h : ofParts parts = .valid f) :
    f.toParts = parts := by
  unfold ofParts at h
  split at h
  · cases h
  · cases h
    rfl

theorem PayoutFunction.readFrom_of_ofJson {ctx : Context} {v : Json} {f : PayoutFunction}
    (h : ofJson ctx v = .valid f) : IsRecord (ReadFrom ctx) v f := by
  have hpoint (v : Json) {p? : Option PayoutPoint} :
      asOptional PayoutPoint.ofJson v = .valid p? → IsOptional (IsRecord PayoutPoint.ReadFrom) v p? :=
    isOptional_of_asOptional fun _ _ => PayoutPoint.readFrom_of_ofJson
  refine isRecord_of_asRecord (fun fields h => ?_) h
  obtain ⟨parts, hparts, hf⟩ := Checked.andThen_eq_valid h
  obtain ⟨_, last?, hpair, hlast, rfl⟩ := Checked.seq_eq_valid hparts
  obtain ⟨_, pieces, hmap, hpieces, rfl⟩ := Checked.seq_eq_valid hpair
  obtain ⟨first?, hfirst, rfl⟩ := Checked.map_eq_valid hmap
  have heq := toParts_of_ofParts hf
  constructor
  · rw [heq]
    exact Fields.statesOr_of_optional rfl (fun v => hpoint v) id hfirst
  · rw [heq]
    exact Fields.states_of_required rfl
      (fun _ => isList_of_asList fun _ _ => FunctionPiece.readFrom_of_ofJson) hpieces
  · rw [heq]
    exact Fields.statesOr_of_optional rfl (fun v => hpoint v) id hlast

structure RoundingInterval.ReadFrom (fields : Fields) (i : RoundingInterval) : Prop where
  start : fields.States "beginInterval" "begin_interval" IsAmount i.start
  modulus : fields.States "roundingMod" "rounding_mod" IsAmount i.modulus

theorem RoundingInterval.isAmount_of_asModulus {v : Json} {m : { n : ℕ // 0 < n }} (h : asModulus v = .valid m) :
    IsAmount v m.1 := by
  obtain ⟨n, hn, h⟩ := Checked.andThen_eq_valid h
  split at h
  · cases h
    exact isAmount_of_asAmount hn
  · cases h

theorem RoundingInterval.readFrom_of_ofJson {v : Json} {i : RoundingInterval} (h : ofJson v = .valid i) :
    IsRecord ReadFrom v i := by
  refine isRecord_of_asRecord (fun fields h => ?_) h
  obtain ⟨_, modulus, hmap, hmodulus, rfl⟩ := Checked.seq_eq_valid h
  obtain ⟨start, hstart, rfl⟩ := Checked.map_eq_valid hmap
  exact ⟨Fields.states_of_required rfl (fun _ => isAmount_of_asAmount) hstart,
    Fields.states_of_required rfl (fun _ => isAmount_of_asModulus) hmodulus⟩

def RoundingIntervals.ReadFrom (fields : Fields) (r : RoundingIntervals) : Prop :=
  fields.States "intervals" "intervals" (IsList (IsRecord RoundingInterval.ReadFrom)) r.intervals

theorem RoundingIntervals.readFrom_of_ofJson {v : Json} {r : RoundingIntervals} (h : ofJson v = .valid r) :
    IsRecord ReadFrom v r := by
  refine isRecord_of_asRecord (fun fields h => ?_) h
  obtain ⟨intervals, hintervals, rfl⟩ := Checked.map_eq_valid h
  exact Fields.states_of_required rfl
    (fun _ => isList_of_asList fun _ _ => RoundingInterval.readFrom_of_ofJson) hintervals

structure Contract.ReadFrom (ctx : Context) (fields : Fields) (c : Contract) : Prop where
  function : fields.States "payoutFunction" "payout_function" (IsRecord (PayoutFunction.ReadFrom ctx)) c.function
  rounding : fields.States "roundingIntervals" "rounding_intervals" (IsRecord RoundingIntervals.ReadFrom) c.rounding
  collateral : fields.States "totalCollateral" "total_collateral" IsAmount c.totalCollateral
  base : fields.StatesOr "oracleBase" "oracle_base" IsInteger 2 c.oracleBase
  digits : fields.States "oracleNumDigits" "oracle_num_digits" IsInteger c.oracleDigits

theorem Contract.toParts_of_ofParts {parts : Parts} {c : Contract} (h : ofParts parts = .valid c) :
    c.toParts = parts := by
  unfold ofParts at h
  split at h
  · cases h
  · cases h
    rfl

/-- What is read of a contract is what its fields stand for. -/
theorem Contract.readFrom_of_ofJson {ctx : Context} {v : Json} {c : Contract} (h : ofJson ctx v = .valid c) :
    IsRecord (ReadFrom ctx) v c := by
  refine isRecord_of_asRecord (fun fields h => ?_) h
  obtain ⟨parts, hparts, hc⟩ := Checked.andThen_eq_valid h
  obtain ⟨_, digits, h₄, hdigits, rfl⟩ := Checked.seq_eq_valid hparts
  obtain ⟨_, base, h₃, hbase, rfl⟩ := Checked.seq_eq_valid h₄
  obtain ⟨_, collateral, h₂, hcollateral, rfl⟩ := Checked.seq_eq_valid h₃
  obtain ⟨_, rounding, h₁, hrounding, rfl⟩ := Checked.seq_eq_valid h₂
  obtain ⟨function, hfunction, rfl⟩ := Checked.map_eq_valid h₁
  have heq := toParts_of_ofParts hc
  constructor
  · rw [heq]
    exact Fields.states_of_required rfl (fun _ => PayoutFunction.readFrom_of_ofJson) hfunction
  · rw [heq]
    exact Fields.states_of_required rfl (fun _ => RoundingIntervals.readFrom_of_ofJson) hrounding
  · rw [heq]
    exact Fields.states_of_required rfl (fun _ => isAmount_of_asAmount) hcollateral
  · rw [heq]
    exact Fields.statesOr_of_optional rfl (fun _ => isInteger_of_atLeast) (by rintro rfl; rfl) hbase
  · rw [heq]
    exact Fields.states_of_required rfl (fun _ => isInteger_of_atLeast) hdigits

end NumericContract
