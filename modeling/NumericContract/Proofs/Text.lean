import Mathlib
import NumericContract.Decimal.Text
import NumericContract.Text.PlainInteger

/-!
# What a text stands for

A text that is read as an integer consists of digits, among which underscores and signs do not count, and
perhaps a fraction of zeros. A text that is read as a decimal consists of a sign, digits with a point among
them and an exponent. Both may have white space around them.
-/

namespace NumericContract.Text

variable {c : Char} {cs : List Char} {ds : List ℕ} {d : ℕ} {n : ℤ}

/-! ## Digits and signs -/

/-- The characters are digits of any script with these values. -/
def AreDigits (cs : List Char) (ds : List ℕ) : Prop := List.Forall₂ (fun c d => digitValue? c = some d) cs ds

def valueOf (ds : List ℕ) : ℕ := Nat.ofDigits 10 ds.reverse

/-- A sign, which may be missing, and whether it makes a number negative. -/
inductive Sign : List Char → Bool → Prop where
  | none : Sign [] false
  | plus : Sign ['+'] false
  | minus : Sign ['-'] true

theorem ofDigits_eq (ds : List ℕ) : ofDigits ds = valueOf ds := by
  rw [ofDigits, valueOf, List.foldl_eq_foldr_reverse, Nat.ofDigits_eq_foldr]
  simp only [Nat.cast_id, Nat.add_comm]

theorem digitValue?_of_ascii (h : asciiDigit? c = some d) : digitValue? c = some d := by
  unfold asciiDigit? at h
  split at h
  · next hc =>
    simp only [Char.isDigit, Bool.and_eq_true, decide_eq_true_eq, ge_iff_le, UInt32.le_iff_toNat_le] at hc
    have hlow : 48 ≤ c.toNat := hc.1
    have hhigh : c.toNat < 48 + 10 := by have : c.toNat ≤ 57 := hc.2; omega
    cases h
    simp [digitValue?, digitZeros, hlow, hhigh]
  · cases h

theorem areDigits_filterMap {f : Char → Option ℕ} (h : ∀ c ∈ cs, ∀ d, f c = some d → digitValue? c = some d) :
    AreDigits (cs.filter fun c => (f c).isSome) (cs.filterMap f) := by
  induction cs with
  | nil => exact .nil
  | cons c rest ih =>
      have hrest := ih fun c' hc' => h c' (List.mem_cons_of_mem c hc')
      cases hc : f c with
      | none => simpa [hc] using hrest
      | some d =>
          simp only [List.filter_cons, hc, Option.isSome_some, if_true, List.filterMap_cons]
          exact .cons (h c List.mem_cons_self d hc) hrest

theorem isSome_asciiDigit? : (asciiDigit? c).isSome = c.isDigit := by
  unfold asciiDigit?
  cases c.isDigit <;> rfl

theorem areDigits_takeWhile (cs : List Char) :
    AreDigits (cs.takeWhile Char.isDigit) ((cs.takeWhile Char.isDigit).filterMap asciiDigit?) := by
  have hdigits : (cs.takeWhile Char.isDigit).filter (fun c => (asciiDigit? c).isSome) =
      cs.takeWhile Char.isDigit :=
    List.filter_eq_self.mpr fun c hc => by rw [isSome_asciiDigit?]; exact List.mem_takeWhile_imp hc
  have h : AreDigits ((cs.takeWhile Char.isDigit).filter fun c => (asciiDigit? c).isSome)
      ((cs.takeWhile Char.isDigit).filterMap asciiDigit?) :=
    areDigits_filterMap fun c _ d => digitValue?_of_ascii
  rwa [hdigits] at h

theorem sign_of_readSign {negative : Bool} {rest : List Char} (h : readSign cs = (negative, rest)) :
    ∃ sign, cs = sign ++ rest ∧ Sign sign negative := by
  unfold readSign at h
  split at h <;> cases h
  · exact ⟨_, rfl, .minus⟩
  · exact ⟨_, rfl, .plus⟩
  · exact ⟨[], rfl, .none⟩

theorem exists_of_trimBoth (drops : Char → Bool) (cs : List Char) :
    ∃ left right, cs = left ++ trimBoth drops cs ++ right ∧ ∀ c ∈ left ++ right, drops c = true := by
  set inner := cs.dropWhile drops with hinner
  refine ⟨cs.takeWhile drops, (inner.reverse.takeWhile drops).reverse, ?_, fun c hc => ?_⟩
  · have hright : inner = trimBoth drops cs ++ (inner.reverse.takeWhile drops).reverse := by
      rw [trimBoth, ← List.reverse_append, List.takeWhile_append_dropWhile, List.reverse_reverse]
    rw [List.append_assoc, ← hright, List.takeWhile_append_dropWhile]
  · rcases List.mem_append.mp hc with hc | hc
    · exact List.mem_takeWhile_imp hc
    · exact List.mem_takeWhile_imp (List.mem_reverse.mp hc)

/-! ## Integers -/

/-- Digits that make a number, which a minus sign among them makes negative. Where signs and underscores may
stand is not said: that is for the reader to refuse. -/
def Figures (cs : List Char) (n : ℤ) : Prop :=
  ∃ ds, AreDigits (cs.filter fun c => c ∉ ['_', '+', '-']) ds ∧
    n = if '-' ∈ cs then -(valueOf ds : ℤ) else valueOf ds

def Spells (cs : List Char) (n : ℤ) : Prop :=
  ∃ left whole fraction right, cs = left ++ whole ++ fraction ++ right ∧
    (∀ c ∈ left ++ right, isBlank c = true) ∧
    (fraction = [] ∨ ∃ zeros, fraction = '.' :: zeros ∧ ∀ c ∈ zeros, c = '0') ∧ Figures whole n

theorem figures_of_run {sign run : List Char} {negative : Bool} {f : Char → Option ℕ}
    (hsign : Sign sign negative) (hf : ∀ c ∈ run, ∀ d, f c = some d → digitValue? c = some d)
    (hrun : ∀ c ∈ run, c = '_' ∨ (f c).isSome = true) (hmark : f '_' = none) :
    Figures (sign ++ run) (applySign negative (ofDigits (run.filterMap f))) := by
  have hnot : ∀ c ∈ run, c ≠ '+' ∧ c ≠ '-' := by
    intro c hc
    rcases hrun c hc with rfl | hsome
    · decide
    · obtain ⟨d, hd⟩ := Option.isSome_iff_exists.mp hsome
      have hvalue := hf c hc d hd
      constructor <;> rintro rfl <;> cases (show none = some d from hvalue)
  have hfilter : (sign ++ run).filter (fun c => c ∉ ['_', '+', '-']) = run.filter fun c => (f c).isSome := by
    have hsigns : sign.filter (fun c => c ∉ ['_', '+', '-']) = [] := by cases hsign <;> rfl
    rw [List.filter_append, hsigns, List.nil_append]
    refine List.filter_congr fun c hc => ?_
    rcases hrun c hc with rfl | hsome
    · rw [hmark]; rfl
    · have hne : c ≠ '_' := by rintro rfl; rw [hmark] at hsome; cases hsome
      simp [hne, hnot c hc, hsome]
  refine ⟨run.filterMap f, hfilter ▸ areDigits_filterMap hf, ?_⟩
  have hminus : '-' ∉ run := fun hc => (hnot _ hc).2 rfl
  cases hsign <;> simp [applySign, ofDigits_eq, hminus]

/-- Signs, underscores and white space aside, an integer consists of digits. -/
theorem spells_of_readInteger {s : String} (h : readInteger s = .ok n) : Spells s.toList n := by
  obtain ⟨left, right, hcs, hblank⟩ := exists_of_trimBoth isBlank s.toList
  unfold readInteger at h
  cases hread : readSign (trimBoth isBlank s.toList) with
  | mk negative body =>
      obtain ⟨sign, hbody, hsign⟩ := sign_of_readSign hread
      simp only [hread] at h
      split at h
      · cases h
      split at h
      · cases h
      split at h
      · cases h
      next hrest =>
      cases h
      set inNumber : Char → Bool := fun c => c == '_' || (digitValue? c).isSome
      have hrun : body.takeWhile inNumber = body := by
        have happend := List.takeWhile_append_dropWhile (p := inNumber) (l := body)
        rwa [show body.dropWhile inNumber = [] by simpa using hrest, List.append_nil] at happend
      have hin : ∀ c ∈ body, c = '_' ∨ (digitValue? c).isSome = true := fun c hc => by
        rw [← hrun] at hc
        simpa [inNumber] using List.mem_takeWhile_imp hc
      refine ⟨left, sign ++ body, [], right, ?_, hblank, Or.inl rfl, ?_⟩
      · rw [List.append_nil, ← hbody]
        exact hcs
      · rw [hrun]
        exact figures_of_run hsign (fun _ _ _ => id) hin (by decide)

/-- A plain integer is a sign and digits and nothing else. -/
theorem exists_of_readPlain (h : readPlain cs = .ok n) : ∃ sign negative body, cs = sign ++ body ∧
    Sign sign negative ∧ (∀ c ∈ body, c.isDigit = true) ∧
      n = applySign negative (ofDigits (body.filterMap asciiDigit?)) := by
  unfold readPlain at h
  extract_lets negative body run width digits at h
  have hprefix : run <+: body := List.takeWhile_prefix _
  have hle := hprefix.length_le
  -- the whole body is read, also where it is a single zero
  obtain ⟨hlength, hn⟩ : body.length ≤ run.length ∧ n = applySign negative (ofDigits digits) := by
    generalize hdigits : digits = ds at h ⊢
    split at h
    · cases h
    · next more =>
      split at h
      · next hone =>
        cases h
        have hcount : digits.length ≤ run.length := List.length_filterMap_le _ _
        rw [hdigits, List.length_cons] at hcount
        have hnil : more = [] := List.eq_nil_of_length_eq_zero (by omega)
        rw [hnil]
        exact ⟨by omega, by cases negative <;> rfl⟩
      · cases h
    · split at h
      · cases h
      · split at h
        · cases h
        · next hlong =>
          cases h
          exact ⟨not_lt.mp hlong, rfl⟩
  have hall : run = body := hprefix.eq_of_length (le_antisymm hle hlength)
  obtain ⟨sign, hcs, hsign⟩ : ∃ sign, cs = sign ++ body ∧ Sign sign negative := by
    cases hnegative : negative with
    | false => exact ⟨[], by simp [body, hnegative], .none⟩
    | true =>
        obtain ⟨rest, rfl⟩ := List.head?_eq_some_iff.mp (by simpa [negative] using hnegative)
        exact ⟨['-'], by simp [body, hnegative], .minus⟩
  refine ⟨sign, negative, body, hcs, hsign, fun c hc => ?_, ?_⟩
  · rw [← hall] at hc
    exact List.mem_takeWhile_imp hc
  · rw [hn, ← hall]

theorem figures_of_readPlain (h : readPlain cs = .ok n) : Figures cs n := by
  obtain ⟨sign, negative, body, rfl, hsign, hdigit, rfl⟩ := exists_of_readPlain h
  have hsome : ∀ c ∈ body, c = '_' ∨ (asciiDigit? c).isSome = true := fun c hc =>
    Or.inr (isSome_asciiDigit?.trans (hdigit c hc))
  exact figures_of_run hsign (fun _ _ _ => digitValue?_of_ascii) hsome (by decide)

/-! ## Tidied integers -/

theorem Figures.congr {cs' : List Char} (h : Figures cs n)
    (hfilter : (cs.filter fun c => c ∉ ['_', '+', '-']) = cs'.filter fun c => c ∉ ['_', '+', '-'])
    (hminus : '-' ∈ cs ↔ '-' ∈ cs') : Figures cs' n := by
  obtain ⟨ds, hds, hn⟩ := h
  exact ⟨ds, hfilter ▸ hds, by rw [hn, if_congr hminus rfl rfl]⟩

theorem Figures.zeros_append {zeros : List Char} (h : Figures cs n) (hzeros : ∀ c ∈ zeros, c = '0' ∨ c = '_') :
    Figures (zeros ++ cs) n := by
  induction zeros with
  | nil => exact h
  | cons c rest ih =>
      have hrest := ih fun c' hc' => hzeros c' (List.mem_cons_of_mem c hc')
      rcases hzeros c List.mem_cons_self with rfl | rfl
      · obtain ⟨ds, hds, hn⟩ := hrest
        refine ⟨0 :: ds, .cons (by decide) hds, ?_⟩
        rw [hn, valueOf, valueOf, List.reverse_cons, Nat.ofDigits_append]
        simp
      · exact hrest.congr (by simp) (by simp)

theorem exists_of_afterZeros {last : Char} {rest : List Char} (hlast : last = '0' ∨ last = '_')
    (h : afterZeros last cs = some rest) :
    ∃ zeros, last :: cs = zeros ++ rest ∧ ∀ c ∈ zeros, c = '0' ∨ c = '_' := by
  induction cs generalizing last with
  | nil =>
      cases h
      exact ⟨[], rfl, by simp⟩
  | cons c more ih =>
      unfold afterZeros at h
      split at h
      · next hc =>
        obtain ⟨zeros, hzeros, hall⟩ := ih hc h
        exact ⟨last :: zeros, by rw [hzeros, List.cons_append], List.forall_mem_cons.mpr ⟨hlast, hall⟩⟩
      · split at h
        · cases h
          exact ⟨[], rfl, by simp⟩
        · split at h
          · cases h
            exact ⟨[last], rfl, by simpa using hlast⟩
          · cases h

theorem exists_of_dropZeros {rest : List Char} (h : dropZeros cs = some rest) :
    ∃ zeros, cs = zeros ++ rest ∧ ∀ c ∈ zeros, c = '0' ∨ c = '_' := by
  unfold dropZeros at h
  split at h
  · cases h
  · split at h
    · next hc =>
      subst hc
      exact exists_of_afterZeros (Or.inl rfl) h
    · split at h
      · cases h
        exact ⟨[], rfl, by simp⟩
      · cases h

theorem exists_of_dropZeroFraction (cs : List Char) : ∃ fraction, cs = dropZeroFraction cs ++ fraction ∧
    (fraction = [] ∨ ∃ zeros, fraction = '.' :: zeros ∧ ∀ c ∈ zeros, c = '0') := by
  unfold dropZeroFraction
  split
  · next zero zeros whole hspan =>
    rw [List.span_eq_takeWhile_dropWhile, Prod.mk.injEq] at hspan
    have happend := List.takeWhile_append_dropWhile (p := (· == '0')) (l := cs.reverse)
    rw [hspan.1, hspan.2] at happend
    refine ⟨'.' :: (zero :: zeros).reverse, ?_, Or.inr ⟨_, rfl, fun c hc => ?_⟩⟩
    · rw [← List.reverse_reverse cs, ← happend]
      simp
    · rw [List.mem_reverse, ← hspan.1] at hc
      simpa using List.mem_takeWhile_imp hc
  · exact ⟨[], (List.append_nil cs).symm, Or.inl rfl⟩

theorem Figures.of_dropUnderscores {s : List Char} (h : Figures (s ++ dropUnderscores cs) n) :
    Figures (s ++ cs) n := by
  unfold dropUnderscores at h
  split at h
  · refine h.congr ?_ (by simp)
    rw [List.filter_append, List.filter_append, List.filter_filter]
    exact congrArg _ (List.filter_congr fun c _ => by by_cases hc : c = '_' <;> simp [hc])
  · exact h

/-- What tidying takes away does not count. -/
theorem spells_of_tidyPlain {tidied : List Char} (h : tidyPlain cs = some tidied) (hn : Figures tidied n) :
    Spells cs n := by
  obtain ⟨left, right, hcs, hblank⟩ := exists_of_trimBoth isBlank cs
  unfold tidyPlain at h
  cases hread : readSign (trimBoth isBlank cs) with
  | mk negative body =>
      obtain ⟨sign, hbody, hsign⟩ := sign_of_readSign hread
      simp only [hread, Option.map_eq_some_iff] at h
      obtain ⟨digits, hdigits, rfl⟩ := h
      obtain ⟨zeros, rfl, hzeros⟩ := exists_of_dropZeros hdigits
      obtain ⟨fraction, hfraction, hzero⟩ := exists_of_dropZeroFraction digits
      set whole := dropZeroFraction digits
      have hwhole : Figures (sign ++ whole) n := by
        cases hsign with
        | none => exact Figures.of_dropUnderscores (s := []) hn
        | plus => exact (Figures.of_dropUnderscores (s := []) hn).congr (by simp) (by simp)
        | minus => exact Figures.of_dropUnderscores (s := ['-']) hn
      have hminus : '-' ∉ zeros := fun hc => by rcases hzeros _ hc with h | h <;> cases h
      refine ⟨left, sign ++ zeros ++ whole, fraction, right, ?_, hblank, hzero, ?_⟩
      · rw [hcs, hbody]
        nth_rewrite 1 [hfraction]
        simp only [List.append_assoc]
      · refine (hwhole.zeros_append hzeros).congr ?_ ?_
        · cases hsign <;> simp
        · simp [hminus]

theorem spells_of_readPlainInteger {s : String} (h : readPlainInteger s = .ok n) : Spells s.toList n := by
  unfold readPlainInteger at h
  split at h
  · split at h
    · next hread =>
      cases h
      obtain ⟨tidied, htidied, hread⟩ := Option.map_eq_some_iff.mp hread
      exact spells_of_tidyPlain htidied (figures_of_readPlain hread)
    · cases h
  · exact ⟨[], s.toList, [], [], by simp, by simp, Or.inl rfl, figures_of_readPlain h⟩

end NumericContract.Text
