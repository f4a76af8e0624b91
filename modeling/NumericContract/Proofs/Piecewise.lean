import NumericContract.Payouts
import NumericContract.Proofs.Descriptor.CurvePiece
import NumericContract.Proofs.Staircase.Structure

/-!
# Payouts piece by piece

The pieces of a function, and the straight extension to its last end point, are legs of one course:
each begins at the knot at which the one before it ends. Legs that end where they begin only change
what is paid there. The outcome at which two others meet belongs to the first of them, so each of them
decides on the outcomes after its first one.
-/

namespace NumericContract

open Decimal PayoutRange

theorem mapM_eq_ok {ε α β : Type} {f : α → Except ε β} {l : List α} {l' : List β} :
    l.mapM f = .ok l' ↔ List.Forall₂ (fun a b => f a = .ok b) l l' := by
  induction l generalizing l' with
  | nil => simp [pure, Except.pure, eq_comm]
  | cons a rest ih =>
      rw [List.mapM_cons, bind_eq_ok, List.forall₂_cons_left_iff]
      constructor
      · rintro ⟨b, hb, h⟩
        obtain ⟨bs, hbs, h⟩ := bind_eq_ok.mp h
        exact ⟨b, bs, hb, ih.mp hbs, (Except.ok.inj h).symm⟩
      · rintro ⟨b, bs, hb, hbs, rfl⟩
        exact ⟨b, hb, bind_eq_ok.mpr ⟨bs, ih.mpr hbs, rfl⟩⟩

structure Leg where
  first : Knot
  last : Knot
  curve : Curve

namespace Leg

variable {terms : PayoutFunction.Terms} {leg : Leg} {ranges : List PayoutRange}

def IsLong (leg : Leg) : Prop := leg.first.outcome < leg.last.outcome

def span (leg : Leg) : Span :=
  ⟨leg.first.outcome, leg.last.outcome, leg.first.payout, leg.last.payout⟩

def alone (terms : PayoutFunction.Terms) (leg : Leg) : Except Failure (List PayoutRange) :=
  leg.span.split terms.collateral leg.curve terms.policy terms.settings

/-- The ranges that a leg contributes to its course. -/
def split (terms : PayoutFunction.Terms) (leg : Leg) : Except Failure (List PayoutRange) :=
  PayoutFunction.splitPiece terms leg.first leg.last leg.curve

theorem split_eq_ok (h : leg.split terms = .ok ranges) :
    (leg.IsLong ∧ leg.alone terms = .ok ranges) ∨ (¬leg.IsLong ∧ ranges = []) := by
  unfold split PayoutFunction.splitPiece at h
  split at h
  · next hlong => exact Or.inl ⟨hlong, h⟩
  · next hshort =>
    cases h
    exact Or.inr ⟨hshort, rfl⟩

theorem tiles_alone (h : leg.alone terms = .ok ranges) :
    Tiles leg.first.outcome ranges (leg.last.outcome + 1) :=
  Span.split_tiles h

end Leg

/-! ## End points -/

namespace PayoutPoint

variable {ctx : Context} {p : PayoutPoint} {collateral : ℤ} {knot : Knot} {x : Finite}

/-- Where an end point lies: at its outcome, with its exact payout rounded to a whole amount, a half
going upward. -/
structure LiesAt (p : PayoutPoint) (knot : Knot) : Prop where
  outcome : knot.outcome = p.outcome
  payout : knot.payout = ⌊(p.payout : ℚ) + p.extraPrecision / 10 ^ 16 + 1 / 2⌋

theorem exactPayout_rounds (h : p.exactPayout ctx = .ok x) :
    ctx.widened.Rounds (p.payout + p.extraPrecision / 10 ^ 16) x.value := by
  obtain ⟨_, hsum, h⟩ := bind_eq_ok.mp h
  cases h
  have hrounds := (Finite.add_computes ctx.widened _ _).rounds x hsum
  rwa [Finite.value_ofInt, Coefficient.value_fractionValue, Int.cast_natCast] at hrounds

theorem exactPayout_nonneg (h : p.exactPayout ctx = .ok x) : 0 ≤ x.value :=
  (exactPayout_rounds h).nonneg (by positivity)

theorem exists_of_toKnot (h : p.toKnot ctx collateral = .ok knot) :
    ∃ x, p.exactPayout ctx = .ok x ∧ knot = ⟨p.outcome, ⌊x.value + 1 / 2⌋⟩ ∧ knot.payout ≤ collateral := by
  obtain ⟨x, hx, h⟩ := bind_eq_ok.mp h
  have hx := Failure.ofArithmetic_eq_ok.mp hx
  rw [Finite.roundHalfUp_of_nonneg (exactPayout_nonneg hx)] at h
  dsimp only at h
  split at h
  · cases h
  · next hle =>
    cases h
    exact ⟨x, hx, rfl, not_lt.mp hle⟩

/-- The knot at which an end point is found, without a bound on its payout. -/
def SettlesAt (ctx : Context) (collateral : ℤ) (p : PayoutPoint) (knot : Knot) : Prop :=
  p.toKnot ctx collateral = .ok knot

theorem outcome_of_toKnot (h : p.toKnot ctx collateral = .ok knot) : knot.outcome = p.outcome := by
  obtain ⟨x, -, rfl, -⟩ := exists_of_toKnot h
  rfl

/-- A payout that the collateral covers has few enough digits to be exact. -/
theorem liesAt_of_toKnot (hcollateral : collateral < 10 ^ 18) (h : p.toKnot ctx collateral = .ok knot) :
    p.LiesAt knot := by
  obtain ⟨x, hx, rfl, hle⟩ := exists_of_toKnot h
  have hsmall : p.payout < 10 ^ 62 := by
    by_contra hlarge
    have hleast : ctx.widened.leastExponent ≤ 18 :=
      (Context.Representable.leastExponent_le _).trans (by norm_num)
    have hrep := Context.Representable.zpow hleast
    rw [zpow_ofNat] at hrep
    have hpayout : (10 : ℚ) ^ 18 ≤ p.payout := by
      exact_mod_cast (show 10 ^ 18 ≤ 10 ^ 62 by norm_num).trans (not_lt.mp hlarge)
    have hextra : (0 : ℚ) ≤ p.extraPrecision / 10 ^ 16 := by positivity
    have hge := (exactPayout_rounds hx).ge_of_ge hrep (by linarith)
    have hfloor : (10 ^ 18 : ℤ) ≤ ⌊x.value + 1 / 2⌋ := Int.le_floor.mpr (by push_cast; linarith)
    exact absurd (hfloor.trans hle) (not_le.mpr hcollateral)
  obtain ⟨y, hy, hvalue⟩ := Coefficient.exists_toFinite ctx (c := p.coefficient) hsmall
  rw [exactPayout_eq, hy] at hx
  cases hx
  refine ⟨rfl, ?_⟩
  rw [hvalue]
  simp [Coefficient.value, coefficient]

end PayoutPoint

namespace PayoutFunction

variable {ctx : Context} {terms : Terms} {f : PayoutFunction} {first last origin : Knot} {leg : Leg}
  {legs before after : List Leg} {ranges all : List PayoutRange} {collateral : ℤ}
  {lies lies' : PayoutPoint → Knot → Prop}

/-! ## The course of a function -/

def endOf (first : Knot) (legs : List Leg) : Knot := (legs.getLast?.map Leg.last).getD first

/-- Legs that follow one another from one knot to another, none of them backwards. -/
def Joined (first : Knot) : List Leg → Knot → Prop
  | [], last => first = last
  | leg :: rest, last =>
      leg.first = first ∧ first.outcome ≤ leg.last.outcome ∧ Joined leg.last rest last

/-- Where a function begins: at its first end point, or at outcome zero with what the curve of its
first piece pays there, limited to the collateral. -/
inductive Begins (ctx : Context) (f : PayoutFunction) (collateral : ℤ) (lies : PayoutPoint → Knot → Prop) :
    Knot → Prop where
  | endPoint {p : PayoutPoint} {origin : Knot} (hp : f.first? = some p) (h : lies p origin) :
      Begins ctx f collateral lies origin
  | curve {p : FunctionPiece} {curve : Curve} {x : Finite} (hnone : f.first? = none)
      (hp : f.pieces.head? = some p) (hcurve : p.curve.toCurve ctx = .ok curve)
      (hx : curve.evaluate ctx 0 = .ok (.finite x)) :
      Begins ctx f collateral lies ⟨0, max 0 (min ⌊x.value + 1 / 2⌋ collateral)⟩

/-- The straight extension from where the pieces end: a line through this knot and the last end point if
the latter lies beyond, and nothing otherwise. -/
inductive Extended (f : PayoutFunction) (lies : PayoutPoint → Knot → Prop) (first : Knot) :
    List Leg → Prop where
  | none (h : ∀ p ∈ f.last?, (p.outcome : ℤ) ≤ first.outcome) : Extended f lies first []
  | line {p : PayoutPoint} {last : Knot} {line : Line} (hp : f.last? = some p)
      (hbeyond : first.outcome < p.outcome) (hlast : lies p last)
      (hleft : line.left = ⟨first.outcome, .ofInt first.payout⟩)
      (hright : line.right = ⟨last.outcome, .ofInt last.payout⟩) :
      Extended f lies first [⟨first, last, .line line⟩]

/-- A leg along the curve of a piece that ends where the piece ends. -/
structure Draws (ctx : Context) (lies : PayoutPoint → Knot → Prop) (p : FunctionPiece) (leg : Leg) :
    Prop where
  curve : p.curve.toCurve ctx = .ok leg.curve
  last : lies p.endPoint leg.last

/-- The legs of a function, one for each piece and one for the extension, where `lies` says at which knots
an end point may lie. -/
structure Course (ctx : Context) (f : PayoutFunction) (collateral : ℤ) (lies : PayoutPoint → Knot → Prop)
    (origin : Knot) (legs : List Leg) : Prop where
  begins : f.Begins ctx collateral lies origin
  drawn : ∃ own extension, legs = own ++ extension ∧ List.Forall₂ (Draws ctx lies) f.pieces own ∧
    f.Extended lies (endOf origin own) extension
  joined : Joined origin legs (endOf origin legs)

def splitLegs (terms : Terms) : List Leg → Except Failure (List PayoutRange)
  | [] => .ok []
  | leg :: rest => do return (← leg.split terms) ++ (← splitLegs terms rest)

theorem Joined.le (h : Joined first legs last) : first.outcome ≤ last.outcome := by
  induction legs generalizing first with
  | nil =>
      cases h
      exact le_rfl
  | cons leg rest ih => exact h.2.1.trans (ih h.2.2)

theorem Joined.endOf_eq (h : Joined first legs last) : endOf first legs = last := by
  induction legs generalizing first with
  | nil => exact h
  | cons leg rest ih =>
      rw [← ih h.2.2]
      unfold endOf
      rw [List.getLast?_cons]
      cases rest.getLast? <;> rfl

theorem joined_append : Joined first (before ++ after) last ↔
    ∃ middle, Joined first before middle ∧ Joined middle after last := by
  induction before generalizing first with
  | nil => simp [Joined]
  | cons leg rest ih => simp [Joined, ih, and_assoc]

theorem splitLegs_append : splitLegs terms (before ++ after) = .ok ranges ↔
    ∃ rs rs', splitLegs terms before = .ok rs ∧ splitLegs terms after = .ok rs' ∧ ranges = rs ++ rs' := by
  induction before generalizing ranges with
  | nil => simp [splitLegs]
  | cons leg rest ih =>
      simp only [List.cons_append, splitLegs, bind_eq_ok, pure, Except.pure, Except.ok.injEq, ih]
      constructor
      · rintro ⟨own, hown, _, ⟨rs, rs', hrs, hrs', rfl⟩, rfl⟩
        exact ⟨_, rs', ⟨own, hown, rs, hrs, rfl⟩, hrs', (List.append_assoc _ _ _).symm⟩
      · rintro ⟨_, rs', ⟨own, hown, rs, hrs, rfl⟩, hrs', rfl⟩
        exact ⟨own, hown, _, ⟨rs, rs', hrs, hrs', rfl⟩, (List.append_assoc _ _ _).symm⟩

theorem Begins.imp (h : ∀ p knot, lies p knot → lies' p knot) (hb : f.Begins ctx collateral lies origin) :
    f.Begins ctx collateral lies' origin := by
  cases hb with
  | endPoint hp hends => exact .endPoint hp (h _ _ hends)
  | curve hnone hp hcurve hx => exact .curve hnone hp hcurve hx

theorem Extended.imp (h : ∀ p knot, lies p knot → lies' p knot) (he : f.Extended lies first legs) :
    f.Extended lies' first legs := by
  cases he with
  | none hwithin => exact .none hwithin
  | line hp hbeyond hlast hleft hright => exact .line hp hbeyond (h _ _ hlast) hleft hright

theorem Course.imp (h : ∀ p knot, lies p knot → lies' p knot) (hc : f.Course ctx collateral lies origin legs) :
    f.Course ctx collateral lies' origin legs := by
  obtain ⟨own, extension, rfl, hown, hextension⟩ := hc.drawn
  exact ⟨hc.begins.imp h, ⟨own, extension, rfl, hown.imp fun _ _ hd => ⟨hd.curve, h _ _ hd.last⟩,
    hextension.imp h⟩, hc.joined⟩

def firstOutcome (f : PayoutFunction) : ℤ := (f.first?.map fun p => (p.outcome : ℤ)).getD 0

def lastOutcome (f : PayoutFunction) : ℤ :=
  max (f.pieceEnd : ℤ) ((f.last?.map fun p => (p.outcome : ℤ)).getD 0)

theorem firstOutcome_nonneg (f : PayoutFunction) : 0 ≤ f.firstOutcome := by
  unfold firstOutcome
  cases f.first? with
  | none => exact le_rfl
  | some p => exact Int.natCast_nonneg p.outcome

section Outcomes

variable (hends : ∀ p knot, lies p knot → knot.outcome = p.outcome)
include hends

theorem Begins.outcome_eq (h : f.Begins ctx collateral lies origin) : origin.outcome = f.firstOutcome := by
  unfold firstOutcome
  cases h with
  | endPoint hp h =>
      rw [hp]
      exact hends _ _ h
  | curve hnone =>
      rw [hnone]
      rfl

theorem outcomes_of_drawn {pieces : List FunctionPiece} (h : List.Forall₂ (Draws ctx lies) pieces legs) :
    legs.map (·.last.outcome) = pieces.map fun p => (p.endPoint.outcome : ℤ) := by
  induction h with
  | nil => rfl
  | cons hd _ ih => rw [List.map_cons, List.map_cons, ih, hends _ _ hd.last]

theorem endOf_drawn (h : List.Forall₂ (Draws ctx lies) f.pieces legs) (start : Knot) :
    (endOf start legs).outcome = f.pieceEnd := by
  have houtcomes := congrArg List.getLast? (outcomes_of_drawn hends h)
  have hne : f.pieces ≠ [] := List.ne_nil_of_length_pos f.pieces_nonempty
  unfold endOf Parts.pieceEnd
  rw [List.getLast?_map, List.getLast?_map, List.getLast?_eq_some_getLast hne] at houtcomes
  rw [List.getLast?_map, List.getLast?_eq_some_getLast hne]
  cases hlast : legs.getLast? with
  | none => simp [hlast] at houtcomes
  | some leg => simpa [hlast] using houtcomes

theorem Extended.outcome_eq (h : f.Extended lies first legs) : (endOf first legs).outcome =
    max first.outcome ((f.last?.map fun p => (p.outcome : ℤ)).getD first.outcome) := by
  cases h with
  | none hwithin =>
      cases hp : f.last? with
      | none => exact (max_self _).symm
      | some p => exact (max_eq_left (hwithin p hp)).symm
  | line hp hbeyond hlast =>
      rw [hp]
      exact (hends _ _ hlast).trans (max_eq_right hbeyond.le).symm

theorem Course.last_outcome_eq (h : f.Course ctx collateral lies origin legs) :
    (endOf origin legs).outcome = f.lastOutcome := by
  have hjoined := h.joined
  obtain ⟨own, extension, rfl, hown, hextension⟩ := h.drawn
  obtain ⟨middle, hfirst, hsecond⟩ := joined_append.mp hjoined
  obtain rfl := hfirst.endOf_eq
  rw [← hsecond.endOf_eq, hextension.outcome_eq hends, endOf_drawn hends hown, lastOutcome]
  cases f.last? with
  | none => simp
  | some p => rfl

end Outcomes

/-! ## From a function to its course -/

theorem points_of_lineTo {line : Line} (h : first.lineTo last = .ok line) :
    line.left = ⟨first.outcome, .ofInt first.payout⟩ ∧ line.right = ⟨last.outcome, .ofInt last.payout⟩ := by
  unfold Knot.lineTo Line.through at h
  split at h
  · cases h
    exact ⟨rfl, rfl⟩
  · cases h

theorem draw_eq_ok {p : FunctionPiece} {q : DrawnPiece} (h : draw ctx p = .ok q) :
    q.endPoint = p.endPoint ∧ p.curve.toCurve ctx = .ok q.curve := by
  obtain ⟨curve, hcurve, h⟩ := bind_eq_ok.mp h
  cases h
  exact ⟨rfl, hcurve⟩

theorem begins_of_start {pieces : List DrawnPiece} (hpieces : f.pieces.mapM (draw ctx) = .ok pieces)
    (h : start ctx terms f.first? (pieces.head?.map (·.curve)) = .ok origin) :
    f.Begins ctx terms.collateral (PayoutPoint.SettlesAt ctx terms.collateral) origin := by
  unfold start at h
  cases hfirst : f.first? with
  | some p =>
      rw [hfirst] at h
      exact .endPoint hfirst h
  | none =>
      rw [hfirst] at h
      have hdrawn := mapM_eq_ok.mp hpieces
      cases hp : f.pieces with
      | nil => exact absurd hp (List.ne_nil_of_length_pos f.pieces_nonempty)
      | cons p rest =>
          rw [hp] at hdrawn
          obtain ⟨q, _, hq, -, rfl⟩ := List.forall₂_cons_left_iff.mp hdrawn
          obtain ⟨value, hvalue, h⟩ := bind_eq_ok.mp h
          cases value with
          | finite x =>
              cases h
              rw [Finite.clampInt_roundHalfUp]
              exact .curve hfirst (by rw [hp]; rfl) (draw_eq_ok hq).2 (Failure.ofArithmetic_eq_ok.mp hvalue)
          | infinity => cases h
          | nan => cases h

/-- The ranges of pieces are those of legs that are drawn for them. -/
theorem drawn_of_splitPieces {given : List FunctionPiece} {pieces : List DrawnPiece} {index : ℕ}
    (hpieces : List.Forall₂ (fun p q => draw ctx p = .ok q) given pieces)
    (h : splitPieces ctx terms first index pieces = .ok (ranges, last)) :
    ∃ legs, List.Forall₂ (Draws ctx (PayoutPoint.SettlesAt ctx terms.collateral)) given legs ∧
      splitLegs terms legs = .ok ranges ∧ Joined first legs last := by
  induction hpieces generalizing first index ranges with
  | nil =>
      cases h
      exact ⟨[], .nil, rfl, rfl⟩
  | @cons p q given rest hq _ ih =>
      obtain ⟨next, hnext, h⟩ := bind_eq_ok.mp h
      dsimp only at h
      split at h
      · cases h
      next hle =>
      obtain ⟨own, hown, h⟩ := bind_eq_ok.mp h
      obtain ⟨⟨more, final⟩, hmore, h⟩ := bind_eq_ok.mp h
      cases h
      obtain ⟨hend, hcurve⟩ := draw_eq_ok hq
      obtain ⟨legs, hlegs, hsplit, hjoined⟩ := ih hmore
      rw [hend] at hnext
      exact ⟨⟨first, next, q.curve⟩ :: legs, .cons ⟨hcurve, hnext⟩ hlegs,
        bind_eq_ok.mpr ⟨own, hown, bind_eq_ok.mpr ⟨more, hsplit, rfl⟩⟩, rfl, not_lt.mp hle, hjoined⟩

theorem extended_of_splitExtension (h : splitExtension ctx terms first f.last? = .ok ranges) :
    ∃ legs last, f.Extended (PayoutPoint.SettlesAt ctx terms.collateral) first legs ∧
      splitLegs terms legs = .ok ranges ∧ Joined first legs last := by
  unfold splitExtension at h
  cases hp : f.last? with
  | none =>
      rw [hp] at h
      cases h
      exact ⟨[], first, .none (by simp [hp]), rfl, rfl⟩
  | some p =>
      rw [hp] at h
      dsimp only at h
      split at h
      · next hwithin =>
        cases h
        exact ⟨[], first, .none (by simpa [hp] using hwithin), rfl, rfl⟩
      · next hbeyond =>
        rw [not_le] at hbeyond
        obtain ⟨last, hlast, h⟩ := bind_eq_ok.mp h
        obtain ⟨line, hline, h⟩ := bind_eq_ok.mp h
        obtain ⟨hleft, hright⟩ := points_of_lineTo hline
        have hle : first.outcome ≤ last.outcome := by
          rw [PayoutPoint.outcome_of_toKnot hlast]
          exact hbeyond.le
        refine ⟨_, last, .line hp hbeyond hlast hleft hright, ?_, rfl, hle, rfl⟩
        exact bind_eq_ok.mpr ⟨ranges, h, bind_eq_ok.mpr ⟨[], rfl, by rw [List.append_nil]; rfl⟩⟩

theorem course_of_splits {pieces : List DrawnPiece} {middle : Knot} {rs rs' : List PayoutRange}
    (hpieces : f.pieces.mapM (draw ctx) = .ok pieces)
    (horigin : start ctx terms f.first? (pieces.head?.map (·.curve)) = .ok origin)
    (hrs : splitPieces ctx terms origin 0 pieces = .ok (rs, middle))
    (hrs' : splitExtension ctx terms middle f.last? = .ok rs') :
    ∃ legs, f.Course ctx terms.collateral (PayoutPoint.SettlesAt ctx terms.collateral) origin legs ∧
      splitLegs terms legs = .ok (rs ++ rs') := by
  obtain ⟨own, hown, hsplit, hjoined⟩ := drawn_of_splitPieces (mapM_eq_ok.mp hpieces) hrs
  obtain ⟨extension, last, hextension, hsplit', hjoined'⟩ := extended_of_splitExtension hrs'
  have hall := joined_append.mpr ⟨middle, hjoined, hjoined'⟩
  rw [← hjoined.endOf_eq] at hextension
  refine ⟨own ++ extension, ⟨begins_of_start hpieces horigin, ⟨own, extension, rfl, hown, hextension⟩, ?_⟩,
    splitLegs_append.mpr ⟨rs, rs', hsplit, hsplit', rfl⟩⟩
  rwa [hall.endOf_eq]

/-- What the payouts of a function consist of. -/
theorem course_of_payouts (h : f.payouts ctx terms = .ok ranges) :
    ∃ origin legs all, f.Course ctx terms.collateral (PayoutPoint.SettlesAt ctx terms.collateral) origin legs ∧
      splitLegs terms legs = .ok all ∧ all ≠ [] ∧ ranges = merge all := by
  obtain ⟨pieces, hpieces, h⟩ := bind_eq_ok.mp h
  obtain ⟨origin, horigin, h⟩ := bind_eq_ok.mp h
  obtain ⟨⟨rs, middle⟩, hrs, h⟩ := bind_eq_ok.mp h
  obtain ⟨rs', hrs', h⟩ := bind_eq_ok.mp h
  obtain ⟨legs, hcourse, hsplit⟩ := course_of_splits hpieces horigin hrs hrs'
  refine ⟨origin, legs, rs ++ rs', hcourse, hsplit, ?_, ?_⟩
  · intro hnil
    rw [hnil] at h
    cases h
  · split at h
    · cases h
    · cases h
      rfl

/-! ## The ranges of joined legs -/

/-- A leg that is long comes before the rest with its own ranges, another one with none. -/
theorem splitLegs_cons (h : splitLegs terms (leg :: legs) = .ok all) :
    (leg.IsLong ∧ ∃ own more, leg.alone terms = .ok own ∧ splitLegs terms legs = .ok more ∧
      all = own ++ more) ∨ (¬leg.IsLong ∧ splitLegs terms legs = .ok all) := by
  obtain ⟨own, hown, h⟩ := bind_eq_ok.mp h
  obtain ⟨more, hmore, h⟩ := bind_eq_ok.mp h
  cases h
  obtain ⟨hlong, halone⟩ | ⟨hshort, rfl⟩ := Leg.split_eq_ok hown
  · exact Or.inl ⟨hlong, own, more, halone, hmore, rfl⟩
  · exact Or.inr ⟨hshort, hmore⟩

theorem bounds_of_splitLegs (hj : Joined first legs last) (hs : splitLegs terms legs = .ok all) :
    ∀ r ∈ all, first.outcome ≤ r.first ∧ r.first ≤ r.last ∧ r.last ≤ last.outcome := by
  induction legs generalizing first all with
  | nil =>
      cases hs
      simp
  | cons leg rest ih =>
      obtain ⟨rfl, hle, hrest⟩ := hj
      have hend := hrest.le
      intro r hr
      obtain ⟨-, own, more, halone, hmore, rfl⟩ | ⟨-, hs⟩ := splitLegs_cons hs
      · rcases List.mem_append.mp hr with hr | hr
        · have := (Leg.tiles_alone halone).bounds_of_mem hr
          omega
        · have := ih hrest hmore r hr
          omega
      · have := ih hrest hs r hr
        omega

theorem pairwise_splitLegs (hj : Joined first legs last) (hs : splitLegs terms legs = .ok all) :
    all.Pairwise (fun r s => r.first ≤ s.first) := by
  induction legs generalizing first all with
  | nil =>
      cases hs
      exact List.Pairwise.nil
  | cons leg rest ih =>
      obtain ⟨rfl, -, hrest⟩ := hj
      obtain ⟨-, own, more, halone, hmore, rfl⟩ | ⟨-, hs⟩ := splitLegs_cons hs
      · have htiles := Leg.tiles_alone halone
        refine List.pairwise_append.mpr ⟨htiles.pairwise, ih hrest hmore, fun r hr s hs => ?_⟩
        have := htiles.bounds_of_mem hr
        have := bounds_of_splitLegs hrest hmore s hs
        omega
      · exact ih hrest hs

theorem head_splitLegs (hj : Joined first legs last) (hs : splitLegs terms legs = .ok all) :
    ∀ r ∈ all.head?, r.first = first.outcome := by
  induction legs generalizing first all with
  | nil =>
      cases hs
      simp
  | cons leg rest ih =>
      obtain ⟨rfl, hle, hrest⟩ := hj
      intro r hr
      obtain ⟨hlong, own, more, halone, -, rfl⟩ | ⟨hshort, hs⟩ := splitLegs_cons hs
      · have htiles := Leg.tiles_alone halone
        have : leg.first.outcome < leg.last.outcome := hlong
        cases own with
        | nil =>
            have := tiles_nil.mp htiles
            omega
        | cons s rest =>
            cases hr
            exact htiles.1
      · have : ¬leg.first.outcome < leg.last.outcome := hshort
        rw [ih hrest hs r hr]
        omega

theorem continues_splitLegs (hj : Joined first legs last) (hs : splitLegs terms legs = .ok all) :
    Continues (first.outcome + 1) all (last.outcome + 1) := by
  induction legs generalizing first all with
  | nil =>
      cases hs
      cases hj
      rfl
  | cons leg rest ih =>
      obtain ⟨rfl, hle, hrest⟩ := hj
      obtain ⟨-, own, more, halone, hmore, rfl⟩ | ⟨hshort, hs⟩ := splitLegs_cons hs
      · have := (Leg.tiles_alone halone).continues (c := leg.first.outcome + 1) (by omega)
        rw [max_eq_right (by omega)] at this
        exact this.append (ih hrest hmore)
      · have : ¬leg.first.outcome < leg.last.outcome := hshort
        rw [show leg.first.outcome = leg.last.outcome by omega]
        exact ih hrest hs

/-- The payouts of a function have no gaps, whatever their size. -/
theorem tiles_payouts (h : f.payouts ctx terms = .ok ranges) :
    Tiles f.firstOutcome ranges (f.lastOutcome + 1) := by
  obtain ⟨origin, legs, all, hcourse, hsplit, hne, rfl⟩ := course_of_payouts h
  rw [← hcourse.begins.outcome_eq fun _ _ => PayoutPoint.outcome_of_toKnot,
    ← hcourse.last_outcome_eq fun _ _ => PayoutPoint.outcome_of_toKnot]
  exact (continues_splitLegs hcourse.joined hsplit).tiles_merge hne (head_splitLegs hcourse.joined hsplit)

theorem firstOutcome_le_lastOutcome (h : f.payouts ctx terms = .ok ranges) :
    f.firstOutcome ≤ f.lastOutcome := by
  obtain ⟨origin, legs, all, hcourse, -⟩ := course_of_payouts h
  rw [← hcourse.begins.outcome_eq fun _ _ => PayoutPoint.outcome_of_toKnot,
    ← hcourse.last_outcome_eq fun _ _ => PayoutPoint.outcome_of_toKnot]
  exact hcourse.joined.le

theorem payouts_ne_nil (h : f.payouts ctx terms = .ok ranges) : ranges ≠ [] := by
  have htiles := tiles_payouts h
  have hle := firstOutcome_le_lastOutcome h
  intro hnil
  rw [hnil, tiles_nil] at htiles
  omega

/-! ## Which leg decides -/

theorem splitLegs_of_short (hshort : ∀ l ∈ legs, ¬l.IsLong) (hs : splitLegs terms legs = .ok all) :
    all = [] := by
  induction legs generalizing all with
  | nil => exact (Except.ok.inj hs).symm
  | cons leg rest ih =>
      obtain ⟨hlong, -⟩ | ⟨-, hs⟩ := splitLegs_cons hs
      · exact absurd hlong (hshort leg List.mem_cons_self)
      · exact ih (fun l hl => hshort l (List.mem_cons_of_mem leg hl)) hs

theorem exists_first_long (hs : splitLegs terms legs = .ok all) (hne : all ≠ []) :
    ∃ before leg after, legs = before ++ leg :: after ∧ (∀ l ∈ before, ¬l.IsLong) ∧ leg.IsLong := by
  induction legs generalizing all with
  | nil => exact absurd (Except.ok.inj hs).symm hne
  | cons leg rest ih =>
      obtain ⟨hlong, -⟩ | ⟨hshort, hs⟩ := splitLegs_cons hs
      · exact ⟨[], leg, rest, rfl, by simp, hlong⟩
      · obtain ⟨before, next, after, rfl, hbefore, hnext⟩ := ih hs hne
        exact ⟨leg :: before, next, after, rfl, List.forall_mem_cons.mpr ⟨hshort, hbefore⟩, hnext⟩

theorem payoutAt?_merge_splitLegs (hj : Joined first legs last) (hs : splitLegs terms legs = .ok all)
    (x : ℤ) : payoutAt? (merge all) x = payoutAt? all x :=
  payoutAt?_merge (fun r hr => (bounds_of_splitLegs hj hs r hr).2.1) (pairwise_splitLegs hj hs) x

/-- A long leg decides on the outcomes after its first one, up to its last. -/
theorem payoutAt?_of_leg {x : ℤ} (hj : Joined first (before ++ leg :: after) last)
    (hs : splitLegs terms (before ++ leg :: after) = .ok all) (hx : leg.first.outcome < x)
    (hxl : x ≤ leg.last.outcome) :
    ∃ own, leg.alone terms = .ok own ∧ payoutAt? (merge all) x = payoutAt? own x := by
  obtain ⟨middle, hbefore, rfl, -, -⟩ := joined_append.mp hj
  have hfrom := hbefore.le
  rw [payoutAt?_merge_splitLegs hj hs]
  obtain ⟨rs, rs', hrs, hrs', rfl⟩ := splitLegs_append.mp hs
  obtain ⟨-, own, more, halone, -, rfl⟩ | ⟨hshort, -⟩ := splitLegs_cons hrs'
  · have hnone : payoutAt? rs x = none := PayoutRange.payoutAt?_eq_none fun r hr hcover => by
      have := bounds_of_splitLegs hbefore hrs r hr
      omega
    obtain ⟨r, -, -, hp⟩ := (Leg.tiles_alone halone).exists_mem hx.le (by omega)
    refine ⟨own, halone, ?_⟩
    rw [payoutAt?_append, hnone, Option.none_or, payoutAt?_append_of_eq_some hp, hp]
  · exact absurd (show leg.first.outcome < leg.last.outcome by omega) hshort

theorem Joined.outcome_eq (hj : Joined first legs last) (hshort : ∀ l ∈ legs, ¬l.IsLong) :
    last.outcome = first.outcome := by
  induction legs generalizing first with
  | nil => exact congrArg Knot.outcome (Eq.symm hj)
  | cons leg rest ih =>
      obtain ⟨rfl, hle, hrest⟩ := hj
      have : ¬leg.first.outcome < leg.last.outcome := hshort leg List.mem_cons_self
      have := ih hrest fun l hl => hshort l (List.mem_cons_of_mem leg hl)
      omega

/-- The first outcome pays what the short legs before the first long one leave to it. -/
theorem payoutAt?_of_first_leg (hj : Joined first (before ++ leg :: after) last)
    (hs : splitLegs terms (before ++ leg :: after) = .ok all) (hshort : ∀ l ∈ before, ¬l.IsLong)
    (hlong : leg.IsLong) : payoutAt? (merge all) first.outcome = some (endOf first before).payout := by
  obtain ⟨middle, hbefore, rfl, -, -⟩ := joined_append.mp hj
  rw [payoutAt?_merge_splitLegs hj hs, hbefore.endOf_eq, ← hbefore.outcome_eq hshort]
  obtain ⟨rs, rs', hrs, hrs', rfl⟩ := splitLegs_append.mp hs
  rw [splitLegs_of_short hshort hrs, List.nil_append]
  obtain ⟨-, own, more, halone, -, rfl⟩ | ⟨hnot, -⟩ := splitLegs_cons hrs'
  · exact payoutAt?_append_of_eq_some (Span.payoutAt?_split_first halone)
  · exact absurd hlong hnot

theorem payout_bounds_splitLegs (hcollateral : terms.collateral < 10 ^ 18)
    (hpolicy : terms.policy.Sized) (hs : splitLegs terms legs = .ok all) :
    ∀ r ∈ all, 0 ≤ r.payout ∧ r.payout ≤ terms.collateral := by
  induction legs generalizing all with
  | nil =>
      cases hs
      simp
  | cons leg rest ih =>
      obtain ⟨-, own, more, halone, hmore, rfl⟩ | ⟨-, hs⟩ := splitLegs_cons hs
      · have hown := (Span.isSplit_of_split hcollateral hpolicy halone).payout_bounds
        exact List.forall_mem_append.mpr ⟨hown, ih hmore⟩
      · exact ih hs

/-- What the payouts of a function are, given its course: ranges one after another from its first
outcome to its last, with no two neighbours that pay the same. Inside a long leg they pay what the leg
pays by itself and at its end what is paid there; at the first outcome they pay what the short legs
before the first long one leave to it. -/
structure Follows (f : PayoutFunction) (terms : Terms) (origin : Knot) (legs : List Leg)
    (ranges : List PayoutRange) : Prop where
  nonempty : ranges ≠ []
  tiles : Tiles f.firstOutcome ranges (f.lastOutcome + 1)
  neighbours : ranges.IsChain (fun r s => r.payout ≠ s.payout)
  payout_bounds : ∀ r ∈ ranges, 0 ≤ r.payout ∧ r.payout ≤ terms.collateral
  pays_inside : ∀ leg ∈ legs, leg.IsLong → ∃ own, leg.alone terms = .ok own ∧
    ∀ x, leg.first.outcome < x → x < leg.last.outcome → payoutAt? ranges x = payoutAt? own x
  pays_end : ∀ leg ∈ legs, leg.IsLong → payoutAt? ranges leg.last.outcome = some leg.last.payout
  pays_first : ∃ before leg after, legs = before ++ leg :: after ∧ (∀ l ∈ before, ¬l.IsLong) ∧
    leg.IsLong ∧ payoutAt? ranges f.firstOutcome = some (endOf origin before).payout

/-- The payouts of a function follow its course, on which its end points lie where they say. -/
theorem payouts_follow (hcollateral : terms.collateral < 10 ^ 18) (hpolicy : terms.policy.Sized)
    (h : f.payouts ctx terms = .ok ranges) : ∃ origin legs,
      f.Course ctx terms.collateral PayoutPoint.LiesAt origin legs ∧ f.Follows terms origin legs ranges := by
  have htiles := tiles_payouts h
  have hnonempty := payouts_ne_nil h
  obtain ⟨origin, legs, all, hcourse, hsplit, hne, rfl⟩ := course_of_payouts h
  have hjoined := hcourse.joined
  refine ⟨origin, legs, hcourse.imp fun _ _ => PayoutPoint.liesAt_of_toKnot hcollateral,
    hnonempty, htiles, ?_, ?_, ?_, ?_, ?_⟩
  · exact Span.isChain_payout_of_apart htiles (merge_isChain _)
  · intro r hr
    obtain ⟨t, ht, hpay⟩ := merge_payout_mem _ r hr
    rw [hpay]
    exact payout_bounds_splitLegs hcollateral hpolicy hsplit t ht
  · intro leg hleg hlong
    obtain ⟨before, after, rfl⟩ := List.append_of_mem hleg
    obtain ⟨own, halone, -⟩ := payoutAt?_of_leg hjoined hsplit hlong le_rfl
    refine ⟨own, halone, fun x hx hxl => ?_⟩
    obtain ⟨own', halone', hpay⟩ := payoutAt?_of_leg hjoined hsplit hx hxl.le
    rw [hpay, Except.ok.inj (halone.symm.trans halone')]
  · intro leg hleg hlong
    obtain ⟨before, after, rfl⟩ := List.append_of_mem hleg
    obtain ⟨own, halone, hpay⟩ := payoutAt?_of_leg hjoined hsplit hlong le_rfl
    rw [hpay]
    exact Span.payoutAt?_split_last halone
  · obtain ⟨before, leg, after, rfl, hshort, hlong⟩ := exists_first_long hsplit hne
    refine ⟨before, leg, after, rfl, hshort, hlong, ?_⟩
    rw [← hcourse.begins.outcome_eq fun _ _ => PayoutPoint.outcome_of_toKnot]
    exact payoutAt?_of_first_leg hjoined hsplit hshort hlong

/-- Five at once, then up to four along a line, then down to nothing by a straight extension. -/
def tent : PayoutFunction :=
  let line : CurvePiece := .polynomial ⟨[⟨0, 0, 0, by decide⟩, ⟨4, 4, 0, by decide⟩], by decide⟩
  ⟨⟨some ⟨0, 0, 0, by decide⟩, [⟨⟨0, 5, 0, by decide⟩, line⟩, ⟨⟨4, 4, 0, by decide⟩, line⟩],
    some ⟨8, 0, 0, by decide⟩, by decide⟩, by decide⟩

def tentInterval : RoundingInterval := .always 2 (by decide)

def tentTerms : Terms :=
  ⟨5, .ofNonempty [tentInterval] (by simp), Settings.standard⟩

theorem payouts_follow_tent : ∃ origin legs,
    tent.Course ⟨28, by decide⟩ tentTerms.collateral PayoutPoint.LiesAt origin legs ∧
      tent.Follows tentTerms origin legs [⟨0, 0, 5⟩, ⟨1, 2, 2⟩, ⟨3, 5, 4⟩, ⟨6, 7, 2⟩, ⟨8, 8, 0⟩] := by
  refine payouts_follow (by decide) (fun interval hmem => ?_) (by decide +kernel)
  rw [List.mem_singleton.mp (List.mem_mergeSort.mp hmem)]
  decide

end PayoutFunction

end NumericContract
