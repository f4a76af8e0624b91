import NumericContract.Proofs.Piecewise
import NumericContract.Proofs.Staircase.Refusal

/-!
# How the payouts of a function fail

No leg of a function is one that its split would refuse to look at. End points ascend once the function is
accepted, their payouts are rounded from no less than zero and compared with the collateral, and where a
function begins without an end point the payout is limited to it. A negative collateral gets no further
than the first end point. What a run carries from piece to piece is where the last one ended: `Reaches`
follows it, and every split that is asked for on the way is one of `Splits`.
-/

namespace NumericContract

open Decimal PayoutRange

/-! ## End points -/

namespace PayoutPoint

variable {ctx : Context} {p : PayoutPoint} {collateral : ℤ} {knot : Knot}

theorem toKnot_eq_ok (h : p.toKnot ctx collateral = .ok knot) :
    knot.outcome = p.outcome ∧ 0 ≤ knot.payout ∧ knot.payout ≤ collateral := by
  obtain ⟨x, hx, rfl, hle⟩ := exists_of_toKnot h
  have hnonneg := exactPayout_nonneg hx
  exact ⟨rfl, Int.floor_nonneg.mpr (by linarith), hle⟩

theorem toKnot_failsOnly (p : PayoutPoint) (ctx : Context) (collateral : ℤ) :
    FailsOnly (fun failure => (∃ signal, failure = .arithmetic signal) ∨ ∃ payout, collateral < payout ∧
      failure = .payoutFunction (.aboveCollateral payout p.outcome collateral))
      (p.toKnot ctx collateral) := by
  refine FailsOnly.bind (FailsOnly.ofArithmetic fun signal => Or.inl ⟨signal, rfl⟩) fun exact _ => ?_
  dsimp only
  split
  · next hlt => exact FailsOnly.error (Or.inr ⟨_, hlt, rfl⟩)
  · exact FailsOnly.ok _

end PayoutPoint

/-! ## Legs that may be split -/

namespace Leg

variable {terms : PayoutFunction.Terms} {leg : Leg} {collateral : ℤ}

/-- What a split asks of a leg and of the collateral before it looks at the curve. -/
structure IsLegal (collateral : ℤ) (leg : Leg) : Prop where
  first_nonneg : 0 ≤ leg.first.outcome
  long : leg.first.outcome < leg.last.outcome
  collateral_nonneg : 0 ≤ collateral
  first_payout : 0 ≤ leg.first.payout ∧ leg.first.payout ≤ collateral
  last_payout : 0 ≤ leg.last.payout ∧ leg.last.payout ≤ collateral

theorem isLegal_iff : leg.IsLegal collateral ↔ leg.span.check collateral = .ok () := by
  rw [Span.check_eq_ok_iff]
  constructor
  · rintro ⟨h₁, h₂, h₃, h₄, h₅⟩
    exact ⟨h₂, h₁, h₃, h₄, h₅⟩
  · rintro ⟨h₂, h₁, h₃, h₄, h₅⟩
    exact ⟨h₁, h₂, h₃, h₄, h₅⟩

/-- What a split may still fail with: settings for which there is no context, or an inside that has no
payouts. -/
theorem IsLegal.alone_failsOnly (h : leg.IsLegal terms.collateral) :
    FailsOnly (fun failure => (∃ fault, failure = .value fault) ∨ (∃ fault, failure = .overflow fault) ∨
      (∃ fault, failure = .coverage fault) ∨ failure = .unsupportedInversion) (leg.alone terms) := by
  have hcheck := isLegal_iff.mp h
  unfold alone Span.split
  rw [bind_of_ok hcheck]
  refine FailsOnly.bind ?_ fun ctx _ => FailsOnly.bind (fun failure hfailure => ?_) fun steps _ => FailsOnly.ok _
  · unfold Settings.context
    split_ifs
    · exact FailsOnly.ok _
    · exact FailsOnly.error (Or.inl ⟨_, rfl⟩)
    · exact FailsOnly.error (Or.inr (Or.inl ⟨_, rfl⟩))
  · cases Span.interior_failsOnly (s := leg.span.stretch terms.collateral leg.curve
      terms.policy terms.settings) rfl hcheck failure hfailure with
    | invalidDomain hrefused => cases hcheck.symm.trans hrefused
    | arithmetic => exact Or.inr (Or.inr (Or.inl ⟨_, rfl⟩))
    | noValidOutcome => exact Or.inr (Or.inr (Or.inl ⟨_, rfl⟩))
    | unsupportedInversion => exact Or.inr (Or.inr (Or.inr rfl))

end Leg

namespace PayoutFunction

variable {ctx : Context} {terms : Terms} {f : PayoutFunction} {first last : Knot} {leg : Leg}
  {rest : List DrawnPiece}

/-! ## The run of a function -/

/-- How far the payouts of a function are computed: up to a knot, with the pieces that are left. -/
inductive Reaches (ctx : Context) (f : PayoutFunction) (terms : Terms) : List DrawnPiece → Knot → Prop where
  | start {pieces : List DrawnPiece} {origin : Knot} (hpieces : f.pieces.mapM (draw ctx) = .ok pieces)
      (horigin : PayoutFunction.start ctx terms f.first? (pieces.head?.map (·.curve)) = .ok origin) :
      Reaches ctx f terms pieces origin
  | next {p : DrawnPiece} {rest : List DrawnPiece} {first last : Knot} {ranges : List PayoutRange}
      (h : Reaches ctx f terms (p :: rest) first)
      (hlast : p.endPoint.toKnot ctx terms.collateral = .ok last) (hle : first.outcome ≤ last.outcome)
      (hsplit : splitPiece terms first last p.curve = .ok ranges) : Reaches ctx f terms rest last

/-- Whether a straight extension is drawn from one knot, where the pieces end, to another. -/
structure Extends (ctx : Context) (f : PayoutFunction) (terms : Terms) (first last : Knot) : Prop where
  reaches : f.Reaches ctx terms [] first
  beyond : ∃ p ∈ f.last?, first.outcome < p.outcome ∧ p.toKnot ctx terms.collateral = .ok last

/-- The legs that are split on the way: those of the pieces that end beyond where they begin, and that of
the extension. -/
inductive Splits (ctx : Context) (f : PayoutFunction) (terms : Terms) : Leg → Prop where
  | piece {p : DrawnPiece} {rest : List DrawnPiece} {first last : Knot}
      (h : f.Reaches ctx terms (p :: rest) first)
      (hlast : p.endPoint.toKnot ctx terms.collateral = .ok last) (hlong : first.outcome < last.outcome) :
      Splits ctx f terms ⟨first, last, p.curve⟩
  | extension {first last : Knot} {line : Line} (h : f.Extends ctx terms first last)
      (hline : first.lineTo last = .ok line) : Splits ctx f terms ⟨first, last, .line line⟩

/-- What holds wherever a run has come to: the outcome and the payout of the knot are not negative, the
collateral covers the payout unless it is negative itself, and the pieces that are left end in ascending
order from there on. -/
structure OnCourse (collateral : ℤ) (rest : List DrawnPiece) (first : Knot) : Prop where
  outcome_nonneg : 0 ≤ first.outcome
  payout_nonneg : 0 ≤ first.payout
  payout_le : first.payout ≤ max 0 collateral
  ahead : ∀ p ∈ rest, first.outcome ≤ p.endPoint.outcome
  ascending : rest.Pairwise (fun p q => p.endPoint.outcome ≤ q.endPoint.outcome)

theorem start_payout {first? : Option PayoutPoint} {curve? : Option Curve}
    (h : PayoutFunction.start ctx terms first? curve? = .ok first) :
    0 ≤ first.payout ∧ first.payout ≤ max 0 terms.collateral := by
  unfold PayoutFunction.start at h
  cases first? with
  | some p =>
      have hbounds := (PayoutPoint.toKnot_eq_ok h).2
      omega
  | none =>
      cases curve? with
      | none => cases h
      | some curve =>
          obtain ⟨value, -, h⟩ := bind_eq_ok.mp h
          cases value with
          | finite payout =>
              cases h
              simp only [clampInt]
              omega
          | infinity => cases h
          | nan => cases h

theorem map_endPoint_of_draw {pieces : List DrawnPiece} (h : f.pieces.mapM (draw ctx) = .ok pieces) :
    pieces.map (·.endPoint) = f.pieces.map (·.endPoint) := by
  have hdrawn := mapM_eq_ok.mp h
  clear h
  generalize f.pieces = given at hdrawn
  induction hdrawn with
  | nil => rfl
  | cons hp _ ih => rw [List.map_cons, List.map_cons, ih, (draw_eq_ok hp).1]

theorem map_outcome_of_draw {pieces : List DrawnPiece} (h : f.pieces.mapM (draw ctx) = .ok pieces) :
    pieces.map (·.endPoint.outcome) = f.pieces.map (·.endPoint.outcome) := by
  simpa [Function.comp_def] using congrArg (List.map PayoutPoint.outcome) (map_endPoint_of_draw h)

/-- An accepted function begins no later than its pieces end, and these end in ascending order. -/
theorem ascends_of_draw {pieces : List DrawnPiece} (h : f.pieces.mapM (draw ctx) = .ok pieces) :
    (∀ p ∈ pieces, f.firstOutcome ≤ p.endPoint.outcome) ∧
      pieces.Pairwise (fun p q => p.endPoint.outcome ≤ q.endPoint.outcome) := by
  have hascends := f.ascends.1
  rw [Parts.outcomes, ← map_outcome_of_draw h] at hascends
  obtain ⟨-, hpieces, hcross⟩ := List.pairwise_append.mp hascends
  refine ⟨fun p hp => ?_, List.pairwise_map.mp hpieces⟩
  unfold firstOutcome
  cases hfirst : f.first? with
  | none => exact Int.natCast_nonneg _
  | some q =>
      rw [hfirst] at hcross
      exact Int.ofNat_le.mpr (hcross q.outcome (by simp) p.endPoint.outcome (List.mem_map_of_mem hp))

theorem Reaches.onCourse (h : f.Reaches ctx terms rest first) : OnCourse terms.collateral rest first := by
  induction h with
  | start hpieces horigin =>
      obtain ⟨hahead, hascending⟩ := ascends_of_draw hpieces
      obtain ⟨hnonneg, hle⟩ := start_payout horigin
      have houtcome := (begins_of_start hpieces horigin).outcome_eq fun _ _ => PayoutPoint.outcome_of_toKnot
      rw [← houtcome] at hahead
      exact ⟨houtcome ▸ f.firstOutcome_nonneg, hnonneg, hle, hahead, hascending⟩
  | next h hlast hle hsplit ih =>
      obtain ⟨houtcome, hnonneg, hpayout⟩ := PayoutPoint.toKnot_eq_ok hlast
      refine ⟨ih.outcome_nonneg.trans hle, hnonneg, hpayout.trans (le_max_right _ _), fun q hq => ?_,
        ih.ascending.of_cons⟩
      rw [houtcome]
      exact_mod_cast List.rel_of_pairwise_cons ih.ascending hq

theorem OnCourse.isLegal {p : PayoutPoint} {curve : Curve} (h : OnCourse terms.collateral rest first)
    (hlast : p.toKnot ctx terms.collateral = .ok last) (hlong : first.outcome < last.outcome) :
    Leg.IsLegal terms.collateral ⟨first, last, curve⟩ := by
  obtain ⟨-, hnonneg, hle⟩ := PayoutPoint.toKnot_eq_ok hlast
  have hcollateral : 0 ≤ terms.collateral := hnonneg.trans hle
  have hfirst := h.payout_le
  rw [max_eq_right hcollateral] at hfirst
  exact ⟨h.outcome_nonneg, hlong, hcollateral, ⟨h.payout_nonneg, hfirst⟩, hnonneg, hle⟩

theorem Extends.long (h : f.Extends ctx terms first last) : first.outcome < last.outcome := by
  obtain ⟨p, -, hbeyond, hlast⟩ := h.beyond
  rwa [(PayoutPoint.toKnot_eq_ok hlast).1]

theorem Extends.exists_line (h : f.Extends ctx terms first last) : ∃ line, first.lineTo last = .ok line := by
  unfold Knot.lineTo Line.through
  rw [dif_pos h.long.ne]
  exact ⟨_, rfl⟩

theorem Splits.isLegal (h : f.Splits ctx terms leg) : leg.IsLegal terms.collateral := by
  cases h with
  | piece h hlast hlong => exact h.onCourse.isLegal hlast hlong
  | extension h hline =>
      obtain ⟨p, -, -, hlast⟩ := h.beyond
      exact h.reaches.onCourse.isLegal hlast h.long

/-! ## What the payouts of a function are refused for -/

def endPoints (f : PayoutFunction) : List PayoutPoint :=
  f.first?.toList ++ f.pieces.map (·.endPoint) ++ f.last?.toList

/-- What may end a run: a curve that is not drawn, arithmetic on the number of an end point or on the
payout at which a function begins, an end point above the collateral, a beginning without a payout, a leg
without an answer of its own, or that there is no outcome between the first and the last. -/
inductive Refusal (ctx : Context) (f : PayoutFunction) (terms : Terms) : Failure → Prop where
  | undrawn {p : FunctionPiece} {failure : Failure} (hp : p ∈ f.pieces) (h : draw ctx p = .error failure) :
      Refusal ctx f terms failure
  | arithmetic (signal : Signal) : Refusal ctx f terms (.arithmetic signal)
  | aboveCollateral {p : PayoutPoint} {payout : ℤ} (hp : p ∈ f.endPoints) (h : terms.collateral < payout) :
      Refusal ctx f terms (.payoutFunction (.aboveCollateral payout p.outcome terms.collateral))
  | undefinedStart (h : f.first? = none) : Refusal ctx f terms (.payoutFunction .undefinedStart)
  | split {leg : Leg} {failure : Failure} (hleg : f.Splits ctx terms leg)
      (h : leg.alone terms = .error failure) : Refusal ctx f terms failure
  | coversNothing (h : f.firstOutcome = f.lastOutcome) : Refusal ctx f terms (.payoutFunction .coversNothing)

theorem toKnot_failsOnly {p : PayoutPoint} (hp : p ∈ f.endPoints) :
    FailsOnly (f.Refusal ctx terms) (p.toKnot ctx terms.collateral) := by
  intro failure h
  obtain ⟨signal, rfl⟩ | ⟨payout, hlt, rfl⟩ := p.toKnot_failsOnly ctx terms.collateral failure h
  · exact .arithmetic signal
  · exact .aboveCollateral hp hlt

theorem start_failsOnly (curve? : Option Curve) :
    FailsOnly (f.Refusal ctx terms) (PayoutFunction.start ctx terms f.first? curve?) := by
  unfold PayoutFunction.start
  cases hfirst : f.first? with
  | some p => exact toKnot_failsOnly (by simp [endPoints, hfirst])
  | none =>
      cases curve? with
      | none => exact FailsOnly.error (.undefinedStart hfirst)
      | some curve =>
          refine FailsOnly.bind (FailsOnly.ofArithmetic .arithmetic) fun value _ => ?_
          cases value with
          | finite payout => exact FailsOnly.ok _
          | infinity => exact FailsOnly.error (.undefinedStart hfirst)
          | nan => exact FailsOnly.error (.undefinedStart hfirst)

theorem Reaches.endPoint_mem (h : f.Reaches ctx terms rest first) :
    ∀ p ∈ rest, p.endPoint ∈ f.endPoints := by
  induction h with
  | start hpieces horigin =>
      intro p hp
      have hmem := List.mem_map_of_mem (f := (·.endPoint)) hp
      rw [map_endPoint_of_draw hpieces] at hmem
      simp [endPoints, hmem]
  | next _ _ _ _ ih => exact fun q hq => ih q (List.mem_cons_of_mem _ hq)

theorem splitPiece_failsOnly {curve : Curve}
    (h : first.outcome < last.outcome → f.Splits ctx terms ⟨first, last, curve⟩) :
    FailsOnly (f.Refusal ctx terms) (splitPiece terms first last curve) := by
  unfold splitPiece
  split
  · next hlong => exact fun failure hfailure => .split (h hlong) hfailure
  · exact FailsOnly.ok _

/-- No piece is found to end before it starts. -/
theorem splitPieces_failsOnly (h : f.Reaches ctx terms rest first) (index : ℕ) :
    FailsOnly (f.Refusal ctx terms) (splitPieces ctx terms first index rest) := by
  induction rest generalizing first index with
  | nil => exact FailsOnly.ok _
  | cons p rest ih =>
      refine (toKnot_failsOnly (h.endPoint_mem p List.mem_cons_self)).bind fun last hlast => ?_
      have hle : first.outcome ≤ last.outcome := by
        rw [(PayoutPoint.toKnot_eq_ok hlast).1]
        exact h.onCourse.ahead p List.mem_cons_self
      dsimp only
      rw [if_neg hle.not_gt]
      refine (splitPiece_failsOnly (.piece h hlast)).bind fun ranges hranges => ?_
      exact (ih (h.next hlast hle hranges) (index + 1)).bind fun _ _ => FailsOnly.ok _

theorem Reaches.of_splitPieces {index : ℕ} {ranges : List PayoutRange} (h : f.Reaches ctx terms rest first)
    (hs : splitPieces ctx terms first index rest = .ok (ranges, last)) : f.Reaches ctx terms [] last := by
  induction rest generalizing first index ranges with
  | nil =>
      cases hs
      exact h
  | cons p rest ih =>
      obtain ⟨next, hnext, hs⟩ := bind_eq_ok.mp hs
      dsimp only at hs
      split at hs
      · cases hs
      · next hle =>
        obtain ⟨own, hown, hs⟩ := bind_eq_ok.mp hs
        obtain ⟨⟨more, final⟩, hmore, hs⟩ := bind_eq_ok.mp hs
        cases hs
        exact ih (h.next hnext (not_lt.mp hle) hown) hmore

theorem splitExtension_failsOnly (h : f.Reaches ctx terms [] first) :
    FailsOnly (f.Refusal ctx terms) (splitExtension ctx terms first f.last?) := by
  unfold splitExtension
  cases hp : f.last? with
  | none => exact FailsOnly.ok _
  | some p =>
      dsimp only
      split
      · exact FailsOnly.ok _
      next hbeyond =>
      refine (toKnot_failsOnly (by simp [endPoints, hp])).bind fun last hlast => ?_
      have hextends : f.Extends ctx terms first last := ⟨h, p, hp, not_le.mp hbeyond, hlast⟩
      obtain ⟨line, hline⟩ := hextends.exists_line
      rw [bind_of_ok hline]
      exact splitPiece_failsOnly fun _ => .extension hextends hline

theorem payouts_failsOnly (ctx : Context) (f : PayoutFunction) (terms : Terms) :
    FailsOnly (f.Refusal ctx terms) (f.payouts ctx terms) := by
  have hdraw : FailsOnly (f.Refusal ctx terms) (f.pieces.mapM (draw ctx)) :=
    FailsOnly.mapM fun p hp failure h => .undrawn hp h
  refine hdraw.bind fun pieces hpieces => ?_
  refine (start_failsOnly _).bind fun origin horigin => ?_
  have hreaches : f.Reaches ctx terms pieces origin := .start hpieces horigin
  refine (splitPieces_failsOnly hreaches 0).bind fun ⟨ranges, last⟩ hsplit => ?_
  refine (splitExtension_failsOnly (hreaches.of_splitPieces hsplit)).bind fun extension hext => ?_
  obtain ⟨legs, hcourse, hlegs⟩ := course_of_splits hpieces horigin hsplit hext
  have hfirst := hcourse.begins.outcome_eq fun _ _ => PayoutPoint.outcome_of_toKnot
  have hlast := hcourse.last_outcome_eq fun _ _ => PayoutPoint.outcome_of_toKnot
  split
  · next hnone =>
    have hcontinues := continues_splitLegs hcourse.joined hlegs
    rw [hnone] at hcontinues
    have hend : origin.outcome + 1 = (endOf origin legs).outcome + 1 := hcontinues
    exact FailsOnly.error (.coversNothing (by omega))
  · exact FailsOnly.ok _

/-! ## What a run does not fail with -/

theorem draw_failsOnly (p : FunctionPiece) : FailsOnly
    (fun failure => (∃ signal, failure = .arithmetic signal) ∨ ∃ fault, failure = .curve fault)
    (draw ctx p) := by
  have harithmetic {α : Type} (result : Except Signal α) :
      FailsOnly (fun failure => (∃ signal, failure = .arithmetic signal) ∨ ∃ fault, failure = .curve fault)
        (Failure.ofArithmetic result) :=
    FailsOnly.ofArithmetic fun signal => Or.inl ⟨signal, rfl⟩
  refine FailsOnly.bind ?_ fun curve _ => FailsOnly.ok _
  cases p.curve with
  | polynomial q =>
      refine FailsOnly.bind ((harithmetic _).bind fun points _ => ?_) fun line _ => FailsOnly.ok _
      unfold Line.ofPoints Line.through
      split
      · split
        · exact FailsOnly.ok _
        · exact FailsOnly.error (Or.inr ⟨_, rfl⟩)
      · exact FailsOnly.error (Or.inr ⟨_, rfl⟩)
  | hyperbola h =>
      refine FailsOnly.bind ?_ fun curve _ => FailsOnly.ok _
      refine (harithmetic _).bind fun a _ => (harithmetic _).bind fun b _ => (harithmetic _).bind fun c _ =>
        (harithmetic _).bind fun d _ => (harithmetic _).bind fun f₁ _ => (harithmetic _).bind fun f₂ _ => ?_
      unfold Hyperbola.ofCoefficients
      split
      · exact FailsOnly.ok _
      · exact FailsOnly.error (Or.inr ⟨_, rfl⟩)

/-- The failures that accepted end points leave no occasion for: a domain that is none, and a piece that
ends before it starts. -/
inductive Precluded : Failure → Prop where
  | domain (fault : DomainFault) : Precluded (.domain fault)
  | endsBeforeStart (piece : ℕ) (last first : ℤ) :
      Precluded (.payoutFunction (.endsBeforeStart piece last first))

theorem Refusal.not_precluded {failure : Failure} (h : f.Refusal ctx terms failure) :
    ¬Precluded failure := by
  intro hprecluded
  cases h with
  | undrawn hp h =>
      obtain ⟨signal, rfl⟩ | ⟨fault, rfl⟩ := draw_failsOnly _ _ h <;> cases hprecluded
  | arithmetic signal => cases hprecluded
  | aboveCollateral hp h => cases hprecluded
  | undefinedStart h => cases hprecluded
  | split hleg h =>
      obtain ⟨fault, rfl⟩ | ⟨fault, rfl⟩ | ⟨fault, rfl⟩ | rfl :=
        hleg.isLegal.alone_failsOnly _ h <;> cases hprecluded
  | coversNothing h => cases hprecluded

/-! ## Splits that fail -/

def splitRest (ctx : Context) (f : PayoutFunction) (terms : Terms) (first : Knot) (index : ℕ)
    (rest : List DrawnPiece) : Except Failure (List PayoutRange) := do
  let (ranges, last) ← splitPieces ctx terms first index rest
  return ranges ++ (← splitExtension ctx terms last f.last?)

/-- The payouts that the ranges of all legs make, of which there must be one. -/
def payoutsOf : List PayoutRange → Except Failure (List PayoutRange)
  | [] => throw (.payoutFunction .coversNothing)
  | all => return merge all

theorem payouts_eq_bind (ctx : Context) (f : PayoutFunction) (terms : Terms) :
    f.payouts ctx terms = (do
      let pieces ← f.pieces.mapM (draw ctx)
      let origin ← PayoutFunction.start ctx terms f.first? (pieces.head?.map (·.curve))
      payoutsOf (← splitRest ctx f terms origin 0 pieces)) := by
  unfold payouts splitRest
  simp only [bind_assoc, pure_bind]
  rfl

theorem splitRest_cons {p : DrawnPiece} {ranges : List PayoutRange} (index : ℕ)
    (hlast : p.endPoint.toKnot ctx terms.collateral = .ok last) (hle : first.outcome ≤ last.outcome)
    (hsplit : splitPiece terms first last p.curve = .ok ranges) :
    splitRest ctx f terms first index (p :: rest) =
      (do return ranges ++ (← splitRest ctx f terms last (index + 1) rest)) := by
  unfold splitRest
  rw [splitPieces, bind_of_ok hlast]
  simp only [if_neg hle.not_gt, bind_of_ok hsplit, bind_assoc, pure_bind, List.append_assoc]

/-- A run fails as what is left of it does. -/
theorem Reaches.payouts_eq_error (h : f.Reaches ctx terms rest first) (failure : Failure) :
    ∃ index, splitRest ctx f terms first index rest = .error failure →
      f.payouts ctx terms = .error failure := by
  induction h with
  | start hpieces horigin =>
      refine ⟨0, fun hrest => ?_⟩
      rw [payouts_eq_bind, bind_of_ok hpieces, bind_of_ok horigin, bind_of_error hrest]
  | next h hlast hle hsplit ih =>
      obtain ⟨index, ih⟩ := ih
      refine ⟨index + 1, fun hrest => ih ?_⟩
      rw [splitRest_cons index hlast hle hsplit, bind_of_error hrest]

theorem Splits.payouts_eq_error {failure : Failure} (h : f.Splits ctx terms leg)
    (hfail : leg.alone terms = .error failure) : f.payouts ctx terms = .error failure := by
  cases h with
  | @piece p rest first last h hlast hlong =>
      obtain ⟨index, hrun⟩ := h.payouts_eq_error failure
      have hpiece : splitPiece terms first last p.curve = .error failure := by
        rw [splitPiece, if_pos hlong]
        exact hfail
      apply hrun
      rw [splitRest, splitPieces, bind_of_ok hlast]
      simp only [if_neg hlong.le.not_gt, bind_of_error hpiece]
      rfl
  | @extension first last line h hline =>
      obtain ⟨index, hrun⟩ := h.reaches.payouts_eq_error failure
      obtain ⟨p, hp, hbeyond, hlast⟩ := h.beyond
      have hpiece : splitPiece terms first last (.line line) = .error failure := by
        rw [splitPiece, if_pos h.long]
        exact hfail
      have hextension : splitExtension ctx terms first f.last? = .error failure := by
        unfold splitExtension
        rw [show f.last? = some p from hp]
        simp only [if_neg hbeyond.not_ge, bind_of_ok hlast, bind_of_ok hline, hpiece]
      apply hrun
      rw [splitRest, splitPieces, bind_of_ok rfl]
      simp only [bind_of_error hextension]

/-- Once a function is accepted, whatever the collateral, no split refuses a leg of it as such: every split
that is asked for may be, there is a line for the extension, and no piece ends before it starts. So the
payouts fail for the other reasons only. -/
theorem payouts_legal (ctx : Context) (f : PayoutFunction) (terms : Terms) :
    (∀ leg, f.Splits ctx terms leg → leg.IsLegal terms.collateral ∧
        ∀ failure, leg.alone terms = .error failure → f.payouts ctx terms = .error failure) ∧
      (∀ first last, f.Extends ctx terms first last → ∃ line, first.lineTo last = .ok line) ∧
      ∀ failure, f.payouts ctx terms = .error failure →
        f.Refusal ctx terms failure ∧ ¬Precluded failure := by
  refine ⟨fun leg hleg => ⟨hleg.isLegal, fun _ => hleg.payouts_eq_error⟩, fun _ _ h => h.exists_line,
    fun failure hfailure => ?_⟩
  have hrefusal := payouts_failsOnly ctx f terms failure hfailure
  exact ⟨hrefusal, hrefusal.not_precluded⟩

def tentLine : Curve :=
  .line ⟨⟨0, .finite ⟨false, 0, -16⟩⟩, ⟨4, .finite ⟨false, 4 * 10 ^ 16, -16⟩⟩, by decide⟩

theorem splits_tent : tent.Splits ⟨28, by decide⟩ tentTerms ⟨⟨0, 5⟩, ⟨4, 4⟩, tentLine⟩ := by
  have hpieces : tent.pieces.mapM (draw ⟨28, by decide⟩) =
      .ok [⟨⟨0, 5, 0, by decide⟩, tentLine⟩, ⟨⟨4, 4, 0, by decide⟩, tentLine⟩] := by decide +kernel
  have horigin : tent.Reaches ⟨28, by decide⟩ tentTerms _ ⟨0, 0⟩ := .start hpieces (by decide +kernel)
  have hnext : tent.Reaches ⟨28, by decide⟩ tentTerms _ ⟨0, 5⟩ :=
    .next horigin (by decide +kernel) (by decide) rfl
  exact .piece hnext (by decide +kernel) (by decide)

theorem payouts_legal_tent : Leg.IsLegal 5 ⟨⟨0, 5⟩, ⟨4, 4⟩, tentLine⟩ :=
  ((payouts_legal ⟨28, by decide⟩ tent tentTerms).1 _ splits_tent).1

end PayoutFunction

end NumericContract
