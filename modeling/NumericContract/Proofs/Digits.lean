import Mathlib
import NumericContract.Digits

/-!
# Digits and the outcomes they begin

Digits in a base and outcomes below a power of it stand for each other. Leading digits stand for the
outcomes from where zeros follow them up to where largest digits follow them, and an outcome lies
between these two exactly if it begins with them.
-/

namespace NumericContract.Digits

variable {base x : ℤ} {n m : ℕ} {p q s t : Digits} {d : ℤ}

def Valid (base : ℤ) (p : Digits) : Prop := ∀ d ∈ p, 0 ≤ d ∧ d < base

@[simp] theorem valid_nil : Valid base [] := by simp [Valid]

@[simp] theorem valid_cons : Valid base (d :: p) ↔ (0 ≤ d ∧ d < base) ∧ Valid base p :=
  List.forall_mem_cons

@[simp] theorem valid_append : Valid base (s ++ t) ↔ Valid base s ∧ Valid base t :=
  List.forall_mem_append

@[simp] theorem length_ofOutcome (base : ℤ) (n : ℕ) (x : ℤ) : (ofOutcome base n x).length = n := by
  induction n generalizing x with
  | zero => rfl
  | succ n ih => rw [ofOutcome_succ, List.length_append, ih, List.length_singleton]

theorem valid_ofOutcome (hb : 2 ≤ base) (n : ℕ) (x : ℤ) : Valid base (ofOutcome base n x) := by
  induction n generalizing x with
  | zero => exact valid_nil
  | succ n ih =>
      rw [ofOutcome_succ, valid_append, valid_cons]
      exact ⟨ih _, ⟨Int.emod_nonneg x (by omega), Int.emod_lt_of_pos x (by omega)⟩, valid_nil⟩

/-- The last digits are those of the same outcome, the ones before them those of a quotient. -/
theorem ofOutcome_add (hb : 2 ≤ base) (n m : ℕ) (x : ℤ) :
    ofOutcome base (n + m) x = ofOutcome base n (x / base ^ m) ++ ofOutcome base m x := by
  induction m generalizing x with
  | zero => simp
  | succ m ih =>
      rw [← add_assoc, ofOutcome_succ, ih, ofOutcome_succ base m, ← List.append_assoc,
        Int.ediv_ediv_of_nonneg (by omega), ← pow_succ']

/-! ## Values -/

@[simp] theorem toOutcome_nil : toOutcome base [] = 0 := rfl

theorem toOutcome_concat (base : ℤ) (p : Digits) (d : ℤ) :
    toOutcome base (p ++ [d]) = toOutcome base p * base + d := by
  simp [toOutcome]

theorem toOutcome_append (base : ℤ) (s t : Digits) :
    toOutcome base (s ++ t) = toOutcome base s * base ^ t.length + toOutcome base t := by
  induction t using List.reverseRecOn with
  | nil => simp
  | append_singleton t d ih =>
      rw [← List.append_assoc, toOutcome_concat, toOutcome_concat, ih, List.length_append,
        List.length_singleton, pow_succ]
      ring

theorem toOutcome_cons (base d : ℤ) (p : Digits) :
    toOutcome base (d :: p) = d * base ^ p.length + toOutcome base p := by
  rw [← List.singleton_append, toOutcome_append]
  simp [toOutcome]

theorem toOutcome_bounds (hb : 2 ≤ base) (hp : Valid base p) :
    0 ≤ toOutcome base p ∧ toOutcome base p < base ^ p.length := by
  induction p with
  | nil => simp
  | cons d p ih =>
      obtain ⟨⟨hd0, hd⟩, hp⟩ := valid_cons.mp hp
      obtain ⟨h0, hlt⟩ := ih hp
      have hpos : (0 : ℤ) < base ^ p.length := by positivity
      have hhigh : (d + 1) * base ^ p.length ≤ base * base ^ p.length :=
        mul_le_mul_of_nonneg_right (by omega) hpos.le
      rw [toOutcome_cons, List.length_cons, pow_succ']
      constructor
      · positivity
      · linarith

theorem toOutcome_ofOutcome (hb : 2 ≤ base) (n : ℕ) (x : ℤ) :
    toOutcome base (ofOutcome base n x) = x % base ^ n := by
  induction n generalizing x with
  | zero => simp
  | succ n ih =>
      rw [ofOutcome_succ, toOutcome_concat, ih, Int.emod_def, Int.emod_def, Int.emod_def,
        Int.ediv_ediv_of_nonneg (by omega), ← pow_succ']
      ring

theorem toOutcome_ofOutcome_of_lt (hb : 2 ≤ base) (h0 : 0 ≤ x) (hx : x < base ^ n) :
    toOutcome base (ofOutcome base n x) = x := by
  rw [toOutcome_ofOutcome hb, Int.emod_eq_of_lt h0 hx]

/-- Digits are determined by their number and their value. -/
theorem ofOutcome_toOutcome (hb : 2 ≤ base) (hp : Valid base p) :
    ofOutcome base p.length (toOutcome base p) = p := by
  induction p using List.reverseRecOn with
  | nil => rfl
  | append_singleton p d ih =>
      obtain ⟨hp, hd⟩ := valid_append.mp hp
      obtain ⟨⟨hd0, hd⟩, -⟩ := valid_cons.mp hd
      rw [List.length_append, List.length_singleton, ofOutcome_succ, toOutcome_concat]
      rw [Int.add_ediv_of_dvd_left (Dvd.intro_left _ rfl), Int.mul_ediv_cancel _ (by omega),
        Int.ediv_eq_zero_of_lt hd0 hd, add_zero, ih hp, add_comm, Int.add_mul_emod_self_right,
        Int.emod_eq_of_lt hd0 hd]

/-! ## Complements -/

/-- Each digit replaced by what it lacks to the largest one. -/
def complement (base : ℤ) (p : Digits) : Digits := p.map (base - 1 - ·)

@[simp] theorem complement_nil (base : ℤ) : complement base [] = [] := rfl

@[simp] theorem complement_cons (base d : ℤ) (p : Digits) :
    complement base (d :: p) = (base - 1 - d) :: complement base p := rfl

@[simp] theorem length_complement (base : ℤ) (p : Digits) : (complement base p).length = p.length :=
  List.length_map _

@[simp] theorem complement_complement (base : ℤ) (p : Digits) : complement base (complement base p) = p := by
  induction p with
  | nil => rfl
  | cons d p ih => rw [complement_cons, complement_cons, ih, sub_sub_cancel]

theorem dropLast_complement (base : ℤ) (p : Digits) :
    (complement base p).dropLast = complement base p.dropLast :=
  (List.map_dropLast ..).symm

theorem Valid.complement (h : Valid base p) : Valid base (complement base p) := by
  intro d hd
  obtain ⟨c, hc, rfl⟩ := List.mem_map.mp hd
  have := h c hc
  omega

theorem complement_all_zero (base : ℤ) (p : Digits) :
    (complement base p).all (· = 0) = p.all (· = base - 1) := by
  induction p with
  | nil => rfl
  | cons d p ih =>
      rw [complement_cons, List.all_cons, List.all_cons, ih]
      congr 1
      exact decide_eq_decide.mpr (by omega)

theorem toOutcome_complement (base : ℤ) (p : Digits) :
    toOutcome base (complement base p) + toOutcome base p + 1 = base ^ p.length := by
  induction p with
  | nil => simp
  | cons d p ih =>
      rw [complement_cons, toOutcome_cons, toOutcome_cons, length_complement, List.length_cons, pow_succ',
        ← ih]
      ring

/-- The digits of outcomes at the same distance from both ends complement each other. -/
theorem ofOutcome_mirror (hb : 2 ≤ base) (h0 : 0 ≤ x) (hx : x < base ^ n) :
    ofOutcome base n (base ^ n - 1 - x) = complement base (ofOutcome base n x) := by
  have hvalue := toOutcome_complement base (ofOutcome base n x)
  rw [length_ofOutcome, toOutcome_ofOutcome_of_lt hb h0 hx] at hvalue
  have hdigits := ofOutcome_toOutcome hb (valid_ofOutcome hb n x).complement
  rwa [length_complement, length_ofOutcome,
    show toOutcome base (complement base (ofOutcome base n x)) = base ^ n - 1 - x by omega] at hdigits

/-! ## Leading digits -/

/-- Leading digits of outcomes that are written with `n` digits. -/
structure Leading (base : ℤ) (n : ℕ) (p : Digits) : Prop where
  valid : Valid base p
  length_le : p.length ≤ n

def low (base : ℤ) (n : ℕ) (p : Digits) : ℤ := toOutcome base p * base ^ (n - p.length)

def high (base : ℤ) (n : ℕ) (p : Digits) : ℤ := (toOutcome base p + 1) * base ^ (n - p.length)

theorem low_lt_high (hb : 2 ≤ base) (n : ℕ) (p : Digits) : low base n p < high base n p := by
  have hpos : (0 : ℤ) < base ^ (n - p.length) := by positivity
  unfold low high
  linarith

/-- Digits that are written before others move what these stand for as a whole. -/
theorem low_append (base : ℤ) {t : Digits} (ht : t.length ≤ n) (s : Digits) :
    low base (s.length + n) (s ++ t) = toOutcome base s * base ^ n + low base n t := by
  unfold low
  rw [List.length_append, Nat.add_sub_add_left, toOutcome_append, add_mul, mul_assoc, ← pow_add,
    Nat.add_sub_cancel' ht]

theorem high_append (base : ℤ) {t : Digits} (ht : t.length ≤ n) (s : Digits) :
    high base (s.length + n) (s ++ t) = toOutcome base s * base ^ n + high base n t := by
  unfold high
  rw [List.length_append, Nat.add_sub_add_left, toOutcome_append, add_assoc, add_mul, mul_assoc,
    ← pow_add, Nat.add_sub_cancel' ht]

theorem Leading.append (h : Leading base n t) (hs : Valid base s) : Leading base (s.length + n) (s ++ t) :=
  ⟨valid_append.mpr ⟨hs, h.valid⟩, by rw [List.length_append]; exact Nat.add_le_add_left h.length_le _⟩

theorem low_cons (base d : ℤ) (h : p.length ≤ n) :
    low base (n + 1) (d :: p) = d * base ^ n + low base n p := by
  have := low_append base h [d]
  rw [List.length_singleton, add_comm 1 n] at this
  simpa [toOutcome] using this

theorem high_cons (base d : ℤ) (h : p.length ≤ n) :
    high base (n + 1) (d :: p) = d * base ^ n + high base n p := by
  have := high_append base h [d]
  rw [List.length_singleton, add_comm 1 n] at this
  simpa [toOutcome] using this

theorem high_sub_low (base : ℤ) (n : ℕ) (p : Digits) :
    high base n p - low base n p = base ^ (n - p.length) := by
  unfold low high
  ring

theorem low_complement (base : ℤ) (h : p.length ≤ n) :
    low base n (complement base p) + high base n p = base ^ n := by
  have := toOutcome_complement base p
  unfold low high
  rw [length_complement, ← add_mul, ← add_assoc, this, ← pow_add, Nat.add_sub_cancel' h]

theorem leading_cons : Leading base n (d :: p) ↔ ∃ m, n = m + 1 ∧ (0 ≤ d ∧ d < base) ∧ Leading base m p := by
  constructor
  · rintro ⟨hvalid, hlength⟩
    obtain ⟨hd, hp⟩ := valid_cons.mp hvalid
    rw [List.length_cons] at hlength
    exact ⟨n - 1, by omega, hd, hp, by omega⟩
  · rintro ⟨m, rfl, hd, hp⟩
    exact ⟨valid_cons.mpr ⟨hd, hp.valid⟩, Nat.succ_le_succ hp.length_le⟩

theorem Leading.bounds (h : Leading base n p) (hb : 2 ≤ base) :
    0 ≤ low base n p ∧ high base n p ≤ base ^ n := by
  have hpos : (0 : ℤ) < base ^ (n - p.length) := by positivity
  obtain ⟨h0, hlt⟩ := toOutcome_bounds hb h.valid
  constructor
  · exact mul_nonneg h0 hpos.le
  · calc high base n p ≤ base ^ p.length * base ^ (n - p.length) :=
          mul_le_mul_of_nonneg_right hlt hpos.le
      _ = base ^ n := by rw [← pow_add, Nat.add_sub_cancel' h.length_le]

theorem Leading.of_isPrefix (h : Leading base n q) (hpq : p <+: q) : Leading base n p :=
  ⟨fun d hd => h.valid d (hpq.subset hd), hpq.length_le.trans h.length_le⟩

theorem Leading.nested (h : Leading base n q) (hb : 2 ≤ base) (hpq : p <+: q) :
    low base n p ≤ low base n q ∧ high base n q ≤ high base n p := by
  obtain ⟨t, rfl⟩ := hpq
  obtain ⟨m, rfl⟩ := Nat.exists_eq_add_of_le (h.of_isPrefix (List.prefix_append p t)).length_le
  have hlength := h.length_le
  rw [List.length_append, Nat.add_le_add_iff_left] at hlength
  have ht : Leading base m t := ⟨(valid_append.mp h.valid).2, hlength⟩
  obtain ⟨h0, hle⟩ := ht.bounds hb
  have hlow : low base (p.length + m) p = toOutcome base p * base ^ m := by
    rw [low, Nat.add_sub_cancel_left]
  have hhigh : high base (p.length + m) p = toOutcome base p * base ^ m + base ^ m := by
    rw [high, Nat.add_sub_cancel_left, add_one_mul]
  rw [low_append base hlength, high_append base hlength, hlow, hhigh]
  omega

/-- An outcome begins with digits exactly if it lies within what they stand for. -/
theorem Leading.prefix_iff (h : Leading base n p) (hb : 2 ≤ base) (h0 : 0 ≤ x) (hx : x < base ^ n) :
    p <+: ofOutcome base n x ↔ low base n p ≤ x ∧ x < high base n p := by
  have hpos : (0 : ℤ) < base ^ (n - p.length) := by positivity
  have hsplit : ofOutcome base n x =
      ofOutcome base p.length (x / base ^ (n - p.length)) ++ ofOutcome base (n - p.length) x := by
    rw [← ofOutcome_add hb, Nat.add_sub_cancel' h.length_le]
  have hquotient : x / base ^ (n - p.length) < base ^ p.length := by
    rw [Int.ediv_lt_iff_lt_mul hpos, ← pow_add, Nat.add_sub_cancel' h.length_le]
    exact hx
  have hquotient0 : 0 ≤ x / base ^ (n - p.length) := Int.ediv_nonneg h0 hpos.le
  have hvalue : p = ofOutcome base p.length (x / base ^ (n - p.length)) ↔
      toOutcome base p = x / base ^ (n - p.length) := by
    constructor
    · intro heq
      rw [heq, length_ofOutcome, toOutcome_ofOutcome_of_lt hb hquotient0 hquotient]
    · intro heq
      rw [← heq, ofOutcome_toOutcome hb h.valid]
  rw [hsplit, List.prefix_iff_eq_take, List.take_left' (length_ofOutcome _ _ _), hvalue, low, high,
    ← Int.le_ediv_iff_mul_le hpos, ← Int.ediv_lt_iff_lt_mul hpos]
  omega

end NumericContract.Digits
