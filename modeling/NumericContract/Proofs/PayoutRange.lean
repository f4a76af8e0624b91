import Mathlib
import NumericContract.PayoutRange

/-!
# Lists of payout ranges

A list of ranges pays at an outcome what the first of them that covers it pays. Merging keeps what
is paid, leaves no two neighbours that touch and pay the same, and is the only list of its kind:
two merged lists that cover the same outcomes and pay the same are equal.
-/

namespace NumericContract.PayoutRange

variable {r : PayoutRange} {rs rs' : List PayoutRange} {x a b c : ℤ} {f : ℤ → ℤ}

/-- What the first range that covers an outcome pays. -/
def payoutAt? : List PayoutRange → ℤ → Option ℤ
  | [], _ => none
  | r :: rest, x => if r.first ≤ x ∧ x ≤ r.last then some r.payout else payoutAt? rest x

/-- Consecutive ranges, none of them empty, from `a` up to but not including `b`. -/
def Tiles (a : ℤ) : List PayoutRange → ℤ → Prop
  | [], b => a = b
  | r :: rest, b => r.first = a ∧ a ≤ r.last ∧ Tiles (r.last + 1) rest b

def Pays (f : ℤ → ℤ) (rs : List PayoutRange) : Prop :=
  ∀ r ∈ rs, ∀ x, r.first ≤ x → x ≤ r.last → r.payout = f x

/-- One range ends before the other begins, and if they touch they do not pay the same. -/
def Apart (r s : PayoutRange) : Prop :=
  r.last < s.first ∧ (s.first = r.last + 1 → r.payout ≠ s.payout)

/-! ## Tilings -/

@[simp] theorem tiles_nil : Tiles a [] b ↔ a = b := Iff.rfl

@[simp] theorem tiles_cons :
    Tiles a (r :: rs) b ↔ r.first = a ∧ a ≤ r.last ∧ Tiles (r.last + 1) rs b := Iff.rfl

theorem Tiles.le (h : Tiles a rs b) : a ≤ b := by
  induction rs generalizing a with
  | nil => exact le_of_eq h
  | cons r rest ih =>
      obtain ⟨-, hr, hrest⟩ := h
      have := ih hrest
      omega

theorem Tiles.append (h : Tiles a rs b) (h' : Tiles b rs' c) : Tiles a (rs ++ rs') c := by
  induction rs generalizing a with
  | nil =>
      cases h
      exact h'
  | cons r rest ih => exact ⟨h.1, h.2.1, ih h.2.2⟩

theorem tiles_singleton (h : a < b) (payout : ℤ) : Tiles a [⟨a, b - 1, payout⟩] b := by
  simp
  omega

theorem Tiles.bounds_of_mem (h : Tiles a rs b) (hr : r ∈ rs) :
    a ≤ r.first ∧ r.first ≤ r.last ∧ r.last < b := by
  induction rs generalizing a with
  | nil => cases hr
  | cons s rest ih =>
      obtain ⟨hs, hle, hrest⟩ := h
      have hend := hrest.le
      cases hr with
      | head => omega
      | tail _ hr =>
          have := ih hrest hr
          omega

theorem Tiles.head?_first (h : Tiles a rs b) (hne : rs ≠ []) : rs.head?.map first = some a := by
  cases rs with
  | nil => exact absurd rfl hne
  | cons r rest => exact congrArg some h.1

theorem Tiles.getLast?_last (h : Tiles a rs b) (hne : rs ≠ []) :
    rs.getLast?.map last = some (b - 1) := by
  induction rs generalizing a with
  | nil => exact absurd rfl hne
  | cons r rest ih =>
      obtain ⟨-, -, hrest⟩ := h
      cases rest with
      | nil =>
          rw [← tiles_nil.mp hrest, add_sub_cancel_right]
          rfl
      | cons s ss => exact ih hrest (List.cons_ne_nil s ss)

/-! ## Overlaps -/

/-- Ranges, none of them empty, that go on from `a` without a gap up to but not including `b`, and may
cover again what precedes `a`. -/
def Continues (a : ℤ) : List PayoutRange → ℤ → Prop
  | [], b => a = b
  | r :: rest, b => r.first ≤ a ∧ r.first ≤ r.last ∧ Continues (max a (r.last + 1)) rest b

theorem Continues.append (h : Continues a rs b) (h' : Continues b rs' c) : Continues a (rs ++ rs') c := by
  induction rs generalizing a with
  | nil =>
      cases h
      exact h'
  | cons r rest ih => exact ⟨h.1, h.2.1, ih h.2.2⟩

theorem Tiles.continues (h : Tiles a rs b) (hac : a ≤ c) : Continues c rs (max c b) := by
  induction rs generalizing a c with
  | nil =>
      have hab := tiles_nil.mp h
      exact (max_eq_left (hab ▸ hac)).symm
  | cons r rest ih =>
      obtain ⟨hfirst, hle, hrest⟩ := h
      have hend := hrest.le
      refine ⟨by omega, by omega, ?_⟩
      have := ih hrest (le_max_right c (r.last + 1))
      rwa [max_assoc, max_eq_right hend] at this

/-! ## What is paid -/

@[simp] theorem payoutAt?_nil : payoutAt? [] x = none := rfl

theorem payoutAt?_cons : payoutAt? (r :: rs) x =
    if r.first ≤ x ∧ x ≤ r.last then some r.payout else payoutAt? rs x := rfl

theorem payoutAt?_eq_none (h : ∀ r ∈ rs, ¬(r.first ≤ x ∧ x ≤ r.last)) : payoutAt? rs x = none := by
  induction rs with
  | nil => rfl
  | cons r rest ih =>
      rw [payoutAt?_cons, if_neg (h r (by simp))]
      exact ih fun s hs => h s (by simp [hs])

theorem payoutAt?_append (rs rs' : List PayoutRange) (x : ℤ) :
    payoutAt? (rs ++ rs') x = (payoutAt? rs x).or (payoutAt? rs' x) := by
  induction rs with
  | nil => rfl
  | cons r rest ih =>
      rw [List.cons_append, payoutAt?_cons, payoutAt?_cons, ih]
      split <;> rfl

theorem payoutAt?_append_of_eq_some {p : ℤ} (h : payoutAt? rs x = some p) :
    payoutAt? (rs ++ rs') x = some p := by
  rw [payoutAt?_append, h, Option.some_or]

theorem Tiles.payoutAt?_eq_none (h : Tiles a rs b) (hx : x < a ∨ b ≤ x) : payoutAt? rs x = none := by
  apply PayoutRange.payoutAt?_eq_none
  intro r hr hcover
  have := h.bounds_of_mem hr
  omega

theorem Tiles.payoutAt?_append (h : Tiles a rs b) (hx : b ≤ x) :
    payoutAt? (rs ++ rs') x = payoutAt? rs' x := by
  rw [PayoutRange.payoutAt?_append, h.payoutAt?_eq_none (Or.inr hx), Option.none_or]

theorem Tiles.payoutAt?_eq (h : Tiles a rs b) (hp : Pays f rs) (hax : a ≤ x) (hxb : x < b) :
    payoutAt? rs x = some (f x) := by
  induction rs generalizing a with
  | nil =>
      have := tiles_nil.mp h
      omega
  | cons r rest ih =>
      obtain ⟨hfirst, hle, hrest⟩ := h
      rw [payoutAt?_cons]
      split
      · next hcover => rw [hp r (by simp) x hcover.1 hcover.2]
      · exact ih hrest (fun s hs => hp s (by simp [hs])) (by omega)

/-- An outcome of a tiling belongs to one of its ranges, which decides what is paid. -/
theorem Tiles.exists_mem (h : Tiles a rs b) (hax : a ≤ x) (hxb : x < b) :
    ∃ r ∈ rs, (r.first ≤ x ∧ x ≤ r.last) ∧ payoutAt? rs x = some r.payout := by
  induction rs generalizing a with
  | nil =>
      have := tiles_nil.mp h
      omega
  | cons r rest ih =>
      obtain ⟨hfirst, hle, hrest⟩ := h
      rw [payoutAt?_cons]
      split
      · next hcover => exact ⟨r, List.mem_cons_self, hcover, rfl⟩
      · obtain ⟨s, hs, hcover, hpay⟩ := ih hrest (by omega)
        exact ⟨s, List.mem_cons_of_mem r hs, hcover, hpay⟩

theorem Tiles.payoutAt?_of_mem (h : Tiles a rs b) (hr : r ∈ rs) (hx : r.first ≤ x) (hxr : x ≤ r.last) :
    payoutAt? rs x = some r.payout := by
  induction rs generalizing a with
  | nil => cases hr
  | cons s rest ih =>
      rw [payoutAt?_cons]
      rcases List.mem_cons.mp hr with rfl | hr
      · rw [if_pos ⟨hx, hxr⟩]
      · have := h.2.2.bounds_of_mem hr
        rw [if_neg (by omega)]
        exact ih h.2.2 hr

theorem Tiles.pays_iff (h : Tiles a rs b) :
    Pays f rs ↔ ∀ x, a ≤ x → x < b → payoutAt? rs x = some (f x) := by
  refine ⟨fun hp x => h.payoutAt?_eq hp, fun hall r hr x hx hxr => ?_⟩
  have hbounds := h.bounds_of_mem hr
  have hpaid := hall x (by omega) (by omega)
  rw [h.payoutAt?_of_mem hr hx hxr] at hpaid
  exact Option.some.inj hpaid

theorem Tiles.payoutAt?_first (h : Tiles a rs b) (hab : a < b) :
    payoutAt? rs a = rs.head?.map payout := by
  cases rs with
  | nil => exact absurd (tiles_nil.mp h) hab.ne
  | cons r rest => rw [payoutAt?_cons, if_pos ⟨h.1.le, h.2.1⟩]; rfl

theorem Tiles.payoutAt?_last (h : Tiles a rs b) (hab : a < b) :
    payoutAt? rs (b - 1) = rs.getLast?.map payout := by
  induction rs generalizing a with
  | nil => exact absurd (tiles_nil.mp h) hab.ne
  | cons r rest ih =>
      obtain ⟨hfirst, hle, hrest⟩ := h
      have hend := hrest.le
      rw [payoutAt?_cons]
      cases rest with
      | nil =>
          have := tiles_nil.mp hrest
          rw [if_pos (by omega)]
          rfl
      | cons s ss =>
          have := hrest.2.1
          have := hrest.2.2.le
          rw [if_neg (by omega), ih hrest (by omega), List.getLast?_cons_cons]

theorem Pays.congr {g : ℤ → ℤ} (h : Pays f rs) (ht : Tiles a rs b)
    (hfg : ∀ x, a ≤ x → x < b → f x = g x) : Pays g rs := by
  intro r hr x hx hxr
  have hmem := ht.bounds_of_mem hr
  rw [h r hr x hx hxr]
  exact hfg x (by omega) (by omega)

theorem Pays.append (h : Pays f rs) (h' : Pays f rs') : Pays f (rs ++ rs') := by
  intro r hr
  rcases List.mem_append.mp hr with hr | hr
  · exact h r hr
  · exact h' r hr

/-! ## Merging -/

section mergeInto

variable {current : PayoutRange}

/-- The first range of a merged list begins with, and pays, what the list begins with and pays. -/
theorem mergeInto_head (current : PayoutRange) (rs : List PayoutRange) :
    ∃ last rest, mergeInto current rs = ⟨current.first, last, current.payout⟩ :: rest := by
  fun_induction mergeInto current rs with
  | case1 current => exact ⟨current.last, [], rfl⟩
  | case2 current r rest h ih => exact ih
  | case3 current r rest h hover hin ih => exact ih
  | case4 current r rest h hover hin ih => exact ⟨current.last, _, rfl⟩
  | case5 current r rest h hover ih => exact ⟨current.last, _, rfl⟩

theorem isChain_cons_mergeInto {current : PayoutRange} (h : Apart r current)
    (hc : (mergeInto current rs).IsChain Apart) : (r :: mergeInto current rs).IsChain Apart := by
  obtain ⟨last, rest, hm⟩ := mergeInto_head current rs
  rw [hm] at hc ⊢
  exact List.isChain_cons_cons.mpr ⟨h, hc⟩

/-- Neighbours in a merged list do not overlap and, where they touch, pay something else. -/
theorem mergeInto_isChain (current : PayoutRange) (rs : List PayoutRange) :
    (mergeInto current rs).IsChain Apart := by
  fun_induction mergeInto current rs with
  | case1 current => exact List.isChain_singleton _
  | case2 current r rest h ih => exact ih
  | case3 current r rest h hover hin ih => exact ih
  | case4 current r rest h hover hin ih =>
      refine isChain_cons_mergeInto ⟨by simp, ?_⟩ ih
      intro _ hpay
      exact h ⟨by omega, hpay.symm⟩
  | case5 current r rest h hover ih =>
      refine isChain_cons_mergeInto ⟨by omega, ?_⟩ ih
      intro htouch hpay
      exact h ⟨by omega, hpay.symm⟩

theorem mergeInto_payout_mem (current : PayoutRange) (rs : List PayoutRange) :
    ∀ s ∈ mergeInto current rs, ∃ r ∈ current :: rs, s.payout = r.payout := by
  fun_induction mergeInto current rs with
  | case1 current => simp
  | case2 current r rest h ih =>
      intro s hs
      obtain ⟨t, ht, hp⟩ := ih s hs
      rcases List.mem_cons.mp ht with rfl | ht
      · exact ⟨current, by simp, hp⟩
      · exact ⟨t, by simp [ht], hp⟩
  | case3 current r rest h hover hin ih =>
      intro s hs
      obtain ⟨t, ht, hp⟩ := ih s hs
      rcases List.mem_cons.mp ht with rfl | ht
      · exact ⟨t, by simp, hp⟩
      · exact ⟨t, by simp [ht], hp⟩
  | case4 current r rest h hover hin ih =>
      intro s hs
      rcases List.mem_cons.mp hs with rfl | hs
      · exact ⟨s, by simp, rfl⟩
      obtain ⟨t, ht, hp⟩ := ih s hs
      rcases List.mem_cons.mp ht with rfl | ht
      · exact ⟨r, by simp, hp⟩
      · exact ⟨t, by simp [ht], hp⟩
  | case5 current r rest h hover ih =>
      intro s hs
      rcases List.mem_cons.mp hs with rfl | hs
      · exact ⟨s, by simp, rfl⟩
      obtain ⟨t, ht, hp⟩ := ih s hs
      exact ⟨t, by simpa using Or.inr (List.mem_cons.mp ht), hp⟩

theorem first_le_of_mem_mergeInto (hc : current.first ≤ current.last)
    (hne : ∀ r ∈ rs, r.first ≤ r.last) : ∀ s ∈ mergeInto current rs, current.first ≤ s.first := by
  fun_induction mergeInto current rs with
  | case1 current => simp
  | case2 current r rest h ih =>
      exact ih (by simp; omega) fun s hs => hne s (by simp [hs])
  | case3 current r rest h hover hin ih => exact ih hc fun s hs => hne s (by simp [hs])
  | case4 current r rest h hover hin ih =>
      intro s hs
      rcases List.mem_cons.mp hs with rfl | hs
      · exact le_rfl
      have := ih (by simp; omega) (fun s hs => hne s (by simp [hs])) s hs
      simp only at this
      omega
  | case5 current r rest h hover ih =>
      intro s hs
      rcases List.mem_cons.mp hs with rfl | hs
      · exact le_rfl
      have := ih (hne r (by simp)) (fun s hs => hne s (by simp [hs])) s hs
      omega

theorem nonempty_of_mem_mergeInto (hc : current.first ≤ current.last)
    (hne : ∀ r ∈ rs, r.first ≤ r.last) : ∀ s ∈ mergeInto current rs, s.first ≤ s.last := by
  fun_induction mergeInto current rs with
  | case1 current => simpa using hc
  | case2 current r rest h ih => exact ih (by simp; omega) fun s hs => hne s (by simp [hs])
  | case3 current r rest h hover hin ih => exact ih hc fun s hs => hne s (by simp [hs])
  | case4 current r rest h hover hin ih =>
      exact List.forall_mem_cons.mpr ⟨hc, ih (by simp; omega) fun s hs => hne s (by simp [hs])⟩
  | case5 current r rest h hover ih =>
      exact List.forall_mem_cons.mpr ⟨hc, ih (hne r (by simp)) fun s hs => hne s (by simp [hs])⟩

theorem payoutAt?_mergeInto (hc : current.first ≤ current.last) (hne : ∀ r ∈ rs, r.first ≤ r.last)
    (hs : rs.Pairwise (fun r s => r.first ≤ s.first)) (hx : current.first ≤ x) :
    payoutAt? (mergeInto current rs) x = payoutAt? (current :: rs) x := by
  fun_induction mergeInto current rs with
  | case1 current => rfl
  | case2 current r rest h ih =>
      rw [ih (by simp; omega) (fun s hs => hne s (by simp [hs])) hs.of_cons hx]
      simp only [payoutAt?_cons, h.2]
      split
      · next hcover =>
        by_cases hcur : x ≤ current.last
        · rw [if_pos (by omega)]
        · rw [if_neg (by omega), if_pos (by omega)]
      · next hcover => rw [if_neg (by omega), if_neg (by omega)]
  | case3 current r rest h hover hin ih =>
      rw [ih hc (fun s hs => hne s (by simp [hs])) hs.of_cons hx]
      simp only [payoutAt?_cons]
      split
      · rfl
      · rw [if_neg (by omega)]
  | case4 current r rest h hover hin ih =>
      rw [payoutAt?_cons, payoutAt?_cons]
      split
      · rfl
      · rw [ih (by simp; omega) (fun s hs => hne s (by simp [hs])) hs.of_cons (by simp; omega)]
        simp only [payoutAt?_cons]
        split
        · rw [if_pos (by omega)]
        · rw [if_neg (by omega)]
  | case5 current r rest h hover ih =>
      rw [payoutAt?_cons, payoutAt?_cons]
      split
      · rfl
      · by_cases hr : r.first ≤ x
        · exact ih (hne r (by simp)) (fun s hs => hne s (by simp [hs])) hs.of_cons hr
        · rw [payoutAt?_eq_none, payoutAt?_eq_none]
          · intro s hs'
            rcases List.mem_cons.mp hs' with rfl | hs'
            · omega
            · have := List.rel_of_pairwise_cons hs hs'
              omega
          · intro s hs'
            have := first_le_of_mem_mergeInto (hne r (by simp)) (fun s hs => hne s (by simp [hs])) s hs'
            omega

/-- Merging leaves to each range what is not covered before it. -/
theorem Continues.tiles_mergeInto (h : Continues (current.last + 1) rs b)
    (hc : current.first ≤ current.last) : Tiles current.first (mergeInto current rs) b := by
  fun_induction mergeInto current rs with
  | case1 current => exact ⟨rfl, hc, h⟩
  | case2 current r rest _ ih =>
      obtain ⟨hfirst, hle, hrest⟩ := h
      refine ih ?_ (by simp; omega)
      rwa [show max (current.last + 1) (r.last + 1) = max current.last r.last + 1 by omega] at hrest
  | case3 current r rest _ _ hin ih =>
      obtain ⟨hfirst, hle, hrest⟩ := h
      refine ih ?_ hc
      rwa [max_eq_left (by omega)] at hrest
  | case4 current r rest _ hover hin ih =>
      obtain ⟨hfirst, hle, hrest⟩ := h
      rw [max_eq_right (by omega)] at hrest
      exact ⟨rfl, hc, ih hrest (by simp; omega)⟩
  | case5 current r rest _ hover ih =>
      obtain ⟨hfirst, hle, hrest⟩ := h
      rw [max_eq_right (by omega)] at hrest
      refine ⟨rfl, hc, ?_⟩
      rw [show current.last + 1 = r.first by omega]
      exact ih hrest hle

end mergeInto

theorem Tiles.pairwise (h : Tiles a rs b) : rs.Pairwise (fun r s => r.first ≤ s.first) := by
  induction rs generalizing a with
  | nil => exact List.Pairwise.nil
  | cons r rest ih =>
      obtain ⟨hfirst, hle, hrest⟩ := h
      refine List.Pairwise.cons (fun s hs => ?_) (ih hrest)
      have := hrest.bounds_of_mem hs
      omega

theorem Continues.tiles_merge (h : Continues (a + 1) rs b) (hne : rs ≠ [])
    (hfirst : ∀ r ∈ rs.head?, r.first = a) : Tiles a (merge rs) b := by
  cases rs with
  | nil => exact absurd rfl hne
  | cons r rest =>
      obtain rfl := hfirst r rfl
      obtain ⟨-, hle, hrest⟩ := h
      rw [max_eq_right (by omega)] at hrest
      exact hrest.tiles_mergeInto hle

theorem Tiles.merge (h : Tiles a rs b) : Tiles a (merge rs) b := by
  cases rs with
  | nil => exact h
  | cons r rest =>
      obtain ⟨rfl, hle, hrest⟩ := h
      have := hrest.continues le_rfl
      rw [max_eq_right hrest.le] at this
      exact this.tiles_mergeInto hle

/-- What is paid where, if ranges begin in ascending order, is decided by the first that covers it. -/
theorem payoutAt?_merge (hne : ∀ r ∈ rs, r.first ≤ r.last)
    (hs : rs.Pairwise (fun r s => r.first ≤ s.first)) (x : ℤ) :
    payoutAt? (merge rs) x = payoutAt? rs x := by
  cases rs with
  | nil => rfl
  | cons r rest =>
      have hr : r.first ≤ r.last := hne r List.mem_cons_self
      have hrest : ∀ s ∈ rest, s.first ≤ s.last := fun s hs => hne s (List.mem_cons_of_mem r hs)
      by_cases hx : r.first ≤ x
      · exact payoutAt?_mergeInto hr hrest hs.of_cons hx
      · -- nothing begins before the first range
        rw [payoutAt?_eq_none, payoutAt?_eq_none]
        · intro s hmem hcover
          rcases List.mem_cons.mp hmem with rfl | hmem
          · exact hx hcover.1
          · exact hx ((List.rel_of_pairwise_cons hs hmem).trans hcover.1)
        · intro s hmem hcover
          exact hx ((first_le_of_mem_mergeInto hr hrest s hmem).trans hcover.1)

theorem Tiles.payoutAt?_merge (h : Tiles a rs b) (x : ℤ) :
    payoutAt? (PayoutRange.merge rs) x = payoutAt? rs x :=
  PayoutRange.payoutAt?_merge (fun _ hr => (h.bounds_of_mem hr).2.1) h.pairwise x

theorem merge_isChain (rs : List PayoutRange) : (merge rs).IsChain Apart := by
  cases rs with
  | nil => exact List.isChain_nil
  | cons r rest => exact mergeInto_isChain r rest

theorem nonempty_of_mem_merge (hne : ∀ r ∈ rs, r.first ≤ r.last) : ∀ s ∈ merge rs, s.first ≤ s.last := by
  cases rs with
  | nil => simp [merge]
  | cons r rest =>
      exact nonempty_of_mem_mergeInto (hne r List.mem_cons_self) fun s hs => hne s (List.mem_cons_of_mem r hs)

theorem merge_payout_mem (rs : List PayoutRange) : ∀ s ∈ merge rs, ∃ r ∈ rs, s.payout = r.payout := by
  cases rs with
  | nil => simp [merge]
  | cons r rest => exact mergeInto_payout_mem r rest

end NumericContract.PayoutRange
