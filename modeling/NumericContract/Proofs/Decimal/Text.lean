import NumericContract.Proofs.Decimal.Value
import NumericContract.Proofs.Text

/-!
# What a text stands for as a decimal

A text that is read as a finite decimal consists of a sign, digits with a point among them and an exponent,
where underscores do not count and digits may be of any script.
-/

namespace NumericContract.Text

open Decimal

variable {c : Char} {cs : List Char} {ds : List ℕ} {d : ℕ} {e : ℤ} {q : ℚ}

/-- The digits after the point of a number. -/
inductive Places : List Char → List ℕ → Prop where
  | none : Places [] []
  | given {cs : List Char} {ds : List ℕ} (h : AreDigits cs ds) : Places ('.' :: cs) ds

/-- The exponent at the end of a number. -/
inductive Exponent : List Char → ℤ → Prop where
  | none : Exponent [] 0
  | given {mark : Char} {sign cs : List Char} {negative : Bool} {ds : List ℕ} (hmark : mark = 'e' ∨ mark = 'E')
      (hsign : Sign sign negative) (hdigits : AreDigits cs ds) :
      Exponent (mark :: (sign ++ cs)) (if negative then -(valueOf ds : ℤ) else valueOf ds)

/-- A number without underscores. -/
inductive Number : List Char → ℚ → Prop where
  | intro {sign whole places exponent : List Char} {negative : Bool} {ds fs : List ℕ} {e : ℤ}
      (hsign : Sign sign negative) (hwhole : AreDigits whole ds) (hplaces : Places places fs)
      (hexponent : Exponent exponent e) : Number (sign ++ (whole ++ (places ++ exponent)))
        ((if negative then -1 else 1) * valueOf (ds ++ fs) * 10 ^ (e - fs.length))

/-- The text of a decimal. -/
def SpellsDecimal (cs : List Char) (q : ℚ) : Prop :=
  ∃ left body right, cs = left ++ body ++ right ∧ (∀ c ∈ left ++ right, isSpacing c = true) ∧
    Number (body.filter (· ≠ '_')) q

/-! ## Reading -/

theorem areDigits_of_readDigits {rest : List Char} (h : readDigits cs = (ds, rest)) :
    ∃ digits, cs = digits ++ rest ∧ AreDigits digits ds := by
  cases h
  exact ⟨_, List.takeWhile_append_dropWhile.symm, areDigits_takeWhile cs⟩

theorem exponent_of_readExponent (h : readExponent cs = some e) : Exponent cs e := by
  unfold readExponent at h
  split at h
  · cases h
    exact .none
  · next c rest =>
    split at h
    · next hmark =>
      cases hread : readSign rest with
      | mk negative body =>
          obtain ⟨sign, rfl, hsign⟩ := sign_of_readSign hread
          cases hdigits : readDigits body with
          | mk ds tail =>
              simp only [hread, hdigits] at h
              split at h
              · next htail =>
                obtain ⟨rfl, rfl⟩ := Prod.mk.inj htail
                obtain ⟨digits, rfl, hds⟩ := areDigits_of_readDigits hdigits
                split at h
                · cases h
                · cases h
                  rw [List.append_nil, applySign, ofDigits_eq]
                  exact .given (Or.inl hmark) hsign hds
              · cases h
    · cases h

theorem places_of_readPlaces {rest : List Char} (h : readPlaces cs = (ds, rest)) :
    ∃ places, cs = places ++ rest ∧ Places places ds := by
  unfold readPlaces at h
  split at h
  · obtain ⟨digits, rfl, hdigits⟩ := areDigits_of_readDigits h
    exact ⟨'.' :: digits, rfl, .given hdigits⟩
  · cases h
    exact ⟨[], rfl, .none⟩

theorem number_of_readNumber {sign : List Char} {negative : Bool} {x : Finite} (hsign : Sign sign negative)
    (h : readNumber negative cs = some (.finite x)) : Number (sign ++ cs) x.value := by
  cases hwhole : readDigits cs with
  | mk ds rest =>
      cases hplaces : readPlaces rest with
      | mk fs tail =>
          simp only [readNumber, hwhole, hplaces] at h
          obtain ⟨e, he, h⟩ := Option.bind_eq_some_iff.mp h
          split at h
          · cases h
          · cases h
            obtain ⟨whole, rfl, hds⟩ := areDigits_of_readDigits hwhole
            obtain ⟨places, rfl, hfs⟩ := places_of_readPlaces hplaces
            convert Number.intro hsign hds hfs (exponent_of_readExponent he) using 1
            rw [Finite.value, Finite.signed, ofDigits_eq]
            cases negative <;> simp

/-! ## Letter case and scripts -/

theorem digitValue?_lt (h : digitValue? c = some d) : d < 10 := by
  obtain ⟨first, hfirst, rfl⟩ := Option.map_eq_some_iff.mp h
  have hfound := List.find?_some hfirst
  simp only [Bool.and_eq_true, decide_eq_true_eq] at hfound
  omega

theorem toLower_eq_or (c : Char) : c.toLower = c ∨
    (65 ≤ c.toNat ∧ c.toNat ≤ 90) ∧ c.toLower.toNat = c.toNat + 32 := by
  unfold Char.toLower
  split
  · next hupper =>
    have hlow : 65 ≤ c.toNat := UInt32.le_iff_toNat_le.mp hupper.1
    have hhigh : c.toNat ≤ 90 := UInt32.le_iff_toNat_le.mp hupper.2
    refine Or.inr ⟨⟨hlow, hhigh⟩, ?_⟩
    show (c.val + ('a'.val - 'A'.val)).toNat = c.toNat + 32
    rw [UInt32.toNat_add]
    exact Nat.mod_eq_of_lt (by show c.toNat + 32 < 2 ^ 32; omega)
  · exact Or.inl rfl

theorem digitValue?_of_letter (hlow : 97 ≤ c.toNat) (hhigh : c.toNat ≤ 122) : digitValue? c = none := by
  have hfirsts : ∀ first ∈ digitZeros, first ≤ 48 ∨ 1632 ≤ first := by decide
  refine Option.map_eq_none_iff.mpr (List.find?_eq_none.mpr fun first hfirst => ?_)
  simp only [Bool.and_eq_true, decide_eq_true_eq, not_and]
  rcases hfirsts first hfirst with h | h <;> omega

theorem digitValue?_digitChar (h : d < 10) : digitValue? (Nat.digitChar d) = some d := by
  have hdigits : ∀ k : Fin 10, digitValue? (Nat.digitChar k) = some k := by decide
  exact hdigits ⟨d, h⟩

theorem digitValue?_of_grammarChar (h : digitValue? (grammarChar c) = some d) : digitValue? c = some d := by
  unfold grammarChar at h
  split at h
  · next d' hd' =>
    rw [digitValue?_digitChar (digitValue?_lt hd')] at h
    rw [hd', h]
  · rcases toLower_eq_or c with heq | ⟨hupper, heq⟩
    · rwa [heq] at h
    · rw [digitValue?_of_letter (by omega) (by omega)] at h
      cases h

theorem toLower_of_grammarChar {mark : Char} (h : grammarChar c = mark) (hmark : digitValue? mark = none) :
    c.toLower = mark := by
  unfold grammarChar at h
  split at h
  · next d hd =>
    rw [← h, digitValue?_digitChar (digitValue?_lt hd)] at hmark
    cases hmark
  · exact h

theorem eq_of_grammarChar {mark : Char} (h : grammarChar c = mark) (hmark : digitValue? mark = none)
    (hlow : mark.toNat < 97) : c = mark := by
  have hlower := toLower_of_grammarChar h hmark
  rcases toLower_eq_or c with heq | ⟨hupper, heq⟩
  · rw [← heq, hlower]
  · rw [hlower] at heq
    omega

theorem letter_of_grammarChar (h : grammarChar c = 'e') : c = 'e' ∨ c = 'E' := by
  have hlower := toLower_of_grammarChar h (by decide)
  rcases toLower_eq_or c with heq | ⟨hupper, heq⟩
  · exact Or.inl (by rw [← heq, hlower])
  · rw [hlower] at heq
    have hcode : 'e'.toNat = 101 := rfl
    refine Or.inr (Char.toNat_inj.mp ?_)
    show c.toNat = 69
    omega

theorem AreDigits.of_map (h : AreDigits (cs.map grammarChar) ds) : AreDigits cs ds :=
  (List.forall₂_map_left_iff.mp h).imp fun _ _ => digitValue?_of_grammarChar

theorem Sign.of_map {negative : Bool} (h : Sign (cs.map grammarChar) negative) : Sign cs negative := by
  generalize hmap : cs.map grammarChar = mapped at h
  cases h with
  | none =>
      rw [List.map_eq_nil_iff.mp hmap]
      exact .none
  | plus =>
      obtain ⟨c, rfl, hc⟩ := List.map_eq_singleton_iff.mp hmap
      rw [eq_of_grammarChar hc (by decide) (by decide)]
      exact .plus
  | minus =>
      obtain ⟨c, rfl, hc⟩ := List.map_eq_singleton_iff.mp hmap
      rw [eq_of_grammarChar hc (by decide) (by decide)]
      exact .minus

theorem Places.of_map (h : Places (cs.map grammarChar) ds) : Places cs ds := by
  generalize hmap : cs.map grammarChar = mapped at h
  cases h with
  | none =>
      rw [List.map_eq_nil_iff.mp hmap]
      exact .none
  | given hdigits =>
      obtain ⟨c, rest, rfl, hc, rfl⟩ := List.map_eq_cons_iff.mp hmap
      rw [eq_of_grammarChar hc (by decide) (by decide)]
      exact .given hdigits.of_map

theorem Exponent.of_map (h : Exponent (cs.map grammarChar) e) : Exponent cs e := by
  generalize hmap : cs.map grammarChar = mapped at h
  cases h with
  | none =>
      rw [List.map_eq_nil_iff.mp hmap]
      exact .none
  | given hmark hsign hdigits =>
      obtain ⟨c, rest, rfl, hc, hrest⟩ := List.map_eq_cons_iff.mp hmap
      obtain ⟨sign, digits, rfl, rfl, rfl⟩ := List.map_eq_append_iff.mp hrest
      refine .given ?_ hsign.of_map hdigits.of_map
      rcases hmark with rfl | rfl
      · exact letter_of_grammarChar hc
      · exact Or.inr (eq_of_grammarChar hc (by decide) (by decide))

theorem Number.of_map (h : Number (cs.map grammarChar) q) : Number cs q := by
  generalize hmap : cs.map grammarChar = mapped at h
  cases h with
  | intro hsign hwhole hplaces hexponent =>
      obtain ⟨sign, afterSign, rfl, rfl, hafterSign⟩ := List.map_eq_append_iff.mp hmap
      obtain ⟨whole, afterWhole, rfl, rfl, hafterWhole⟩ := List.map_eq_append_iff.mp hafterSign
      obtain ⟨places, exponent, rfl, rfl, rfl⟩ := List.map_eq_append_iff.mp hafterWhole
      exact .intro hsign.of_map hwhole.of_map hplaces.of_map hexponent.of_map

theorem spellsDecimal_of_ofText? {s : String} {x : Finite} (h : Decimal.ofText? s = some (.finite x)) :
    SpellsDecimal s.toList x.value := by
  obtain ⟨left, right, hcs, hspacing⟩ := exists_of_trimBoth isSpacing s.toList
  refine ⟨left, _, right, hcs, hspacing, Number.of_map ?_⟩
  unfold ofText? at h
  dsimp only at h
  generalize ((trimBoth isSpacing s.toList).filter (· ≠ '_')).map grammarChar = cs at h ⊢
  obtain ⟨sign, hsplit, hsign⟩ := sign_of_readSign (Prod.eta (readSign cs)).symm
  rw [hsplit]
  have hnan (signaling : Bool) (rest : List Char) :
      readNaN signaling (readSign cs).1 rest ≠ some (.finite x) := by
    unfold readNaN
    split <;> simp
  unfold readUnsigned at h
  split at h
  · cases h
  · cases h
  · exact absurd h (hnan _ _)
  · exact absurd h (hnan _ _)
  · exact number_of_readNumber hsign h

end NumericContract.Text
