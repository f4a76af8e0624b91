import Mathlib
import NumericContract.Rounding

/-!
# What a policy says of each outcome

A policy sorts its intervals and looks outcomes up in the sorted list. In terms of the list as it was
given, the interval that starts last up to an outcome applies, and of those that start together the one
that is listed last; only the order of such intervals matters. From one segment end to the next every
start is met once.
-/

namespace NumericContract

namespace RoundingInterval

variable {intervals intervals' : List RoundingInterval} {i j : RoundingInterval} {outcome : ℤ}

def startingAt (intervals : List RoundingInterval) (start : ℤ) : List RoundingInterval :=
  intervals.filter (·.start = start)

@[simp] theorem startingAt_nil (start : ℤ) : startingAt [] start = [] := rfl

@[simp] theorem mem_startingAt {start : ℤ} :
    i ∈ startingAt intervals start ↔ i ∈ intervals ∧ i.start = start := by
  simp [startingAt]

theorem startingAt_cons (i : RoundingInterval) (rest : List RoundingInterval) (start : ℤ) :
    startingAt (i :: rest) start =
      if i.start = start then i :: startingAt rest start else startingAt rest start := by
  simp [startingAt, List.filter_cons]

/-! ## Sorting -/

theorem mem_of_startingAt_eq (h : ∀ start, startingAt intervals start = startingAt intervals' start)
    (hi : i ∈ intervals) : i ∈ intervals' := by
  have hmem : i ∈ startingAt intervals i.start := by simp [hi]
  rw [h] at hmem
  exact (mem_startingAt.mp hmem).1

/-- Sorted lists that agree on the intervals of every start are the same. -/
theorem eq_of_startingAt_eq (hs : intervals.Pairwise (fun i j => i.start ≤ j.start))
    (hs' : intervals'.Pairwise (fun i j => i.start ≤ j.start))
    (h : ∀ start, startingAt intervals start = startingAt intervals' start) :
    intervals = intervals' := by
  induction intervals generalizing intervals' with
  | nil =>
      rw [eq_comm, List.eq_nil_iff_forall_not_mem]
      intro j hj
      simpa using mem_of_startingAt_eq (fun start => (h start).symm) hj
  | cons i rest ih =>
      cases intervals' with
      | nil => simpa using mem_of_startingAt_eq h (List.mem_cons_self ..)
      | cons j rest' =>
          -- each of the two heads is listed on the other side as well
          have hij : j.start ≤ i.start := by
            have hi : i ∈ j :: rest' := mem_of_startingAt_eq h (List.mem_cons_self ..)
            rcases List.mem_cons.mp hi with rfl | hi
            · exact le_rfl
            · exact List.rel_of_pairwise_cons hs' hi
          have hji : i.start ≤ j.start := by
            have hj : j ∈ i :: rest :=
              mem_of_startingAt_eq (fun start => (h start).symm) (List.mem_cons_self ..)
            rcases List.mem_cons.mp hj with rfl | hj
            · exact le_rfl
            · exact List.rel_of_pairwise_cons hs hj
          have hstart : j.start = i.start := le_antisymm hij hji
          have hheads := h i.start
          rw [startingAt_cons, startingAt_cons, if_pos rfl, if_pos hstart, List.cons.injEq] at hheads
          obtain ⟨rfl, -⟩ := hheads
          congr 1
          apply ih hs.of_cons hs'.of_cons
          intro start
          have htails := h start
          rw [startingAt_cons, startingAt_cons] at htails
          by_cases hcase : i.start = start
          · simpa [hcase] using htails
          · simpa [hcase] using htails

/-- Sorting keeps intervals that start together in their order. -/
theorem startingAt_mergeSort (intervals : List RoundingInterval) (start : ℤ) :
    startingAt (intervals.mergeSort startsBy) start = startingAt intervals start := by
  have hsorted : (startingAt intervals start).Pairwise (fun i j => i.startsBy j = true) := by
    apply List.pairwise_of_forall_mem_list
    intro i hi j hj
    rw [mem_startingAt] at hi hj
    simp [startsBy, hi.2, hj.2]
  have hsub : (startingAt intervals start).Sublist (intervals.mergeSort startsBy) :=
    List.sublist_mergeSort startsBy_trans startsBy_total hsorted List.filter_sublist
  have hfiltered : (startingAt intervals start).Sublist
      (startingAt (intervals.mergeSort startsBy) start) := by
    simpa [startingAt] using hsub.filter (·.start = start)
  have hperm := (List.mergeSort_perm intervals startsBy).filter (·.start = start)
  exact (hfiltered.eq_of_length hperm.length_eq.symm).symm

/-! ## The interval that applies -/

/-- The interval of a list that applies to an outcome. Of those that have started none starts later, and of
those that start with it none is listed after it. -/
structure Governs (intervals : List RoundingInterval) (outcome : ℤ) (i : RoundingInterval) : Prop where
  started : i.start ≤ outcome
  latest : ∀ j ∈ intervals, j.start ≤ outcome → j.start ≤ i.start
  listed : ∃ before after, intervals = before ++ i :: after ∧ ∀ j ∈ after, j.start ≠ i.start

theorem getLast?_startingAt {start : ℤ} : (startingAt intervals start).getLast? = some i ↔
    i.start = start ∧ ∃ before after, intervals = before ++ i :: after ∧ ∀ j ∈ after, j.start ≠ start := by
  unfold startingAt
  rw [List.getLast?_eq_some_iff]
  constructor
  · rintro ⟨others, hothers⟩
    obtain ⟨before, after, rfl, -, hafter⟩ := List.filter_eq_append_iff.mp hothers
    obtain ⟨between, rest, rfl, -, hstart, hrest⟩ := List.filter_eq_cons_iff.mp hafter
    refine ⟨by simpa using hstart, before ++ between, rest, by simp, ?_⟩
    simpa using hrest
  · rintro ⟨rfl, before, after, rfl, hafter⟩
    have hnone : after.filter (·.start = i.start) = [] := by simpa using hafter
    exact ⟨before.filter (·.start = i.start), by simp [hnone]⟩

theorem governs_iff : Governs intervals outcome i ↔ i.start ≤ outcome ∧
    (∀ j ∈ intervals, j.start ≤ outcome → j.start ≤ i.start) ∧
      (startingAt intervals i.start).getLast? = some i := by
  rw [getLast?_startingAt]
  constructor
  · intro h
    exact ⟨h.started, h.latest, rfl, h.listed⟩
  · rintro ⟨hstarted, hlatest, -, hlisted⟩
    exact ⟨hstarted, hlatest, hlisted⟩

theorem Governs.mem (h : Governs intervals outcome i) : i ∈ intervals := by
  obtain ⟨before, after, rfl, -⟩ := h.listed
  simp

theorem Governs.unique (hi : Governs intervals outcome i) (hj : Governs intervals outcome j) : i = j := by
  have hstart : i.start = j.start :=
    le_antisymm (hj.latest i hi.mem hi.started) (hi.latest j hj.mem hj.started)
  have hlast := (governs_iff.mp hi).2.2
  rw [hstart, (governs_iff.mp hj).2.2] at hlast
  exact (Option.some.inj hlast).symm

theorem Governs.congr (h : ∀ start, startingAt intervals start = startingAt intervals' start)
    (hi : Governs intervals outcome i) : Governs intervals' outcome i := by
  obtain ⟨hstarted, hlatest, hlast⟩ := governs_iff.mp hi
  rw [h] at hlast
  apply governs_iff.mpr
  refine ⟨hstarted, ?_, hlast⟩
  intro j hj
  exact hlatest j (mem_of_startingAt_eq (fun start => (h start).symm) hj)

end RoundingInterval

namespace RoundingPolicy

open RoundingInterval

variable {intervals intervals' : List RoundingInterval} {policy : RoundingPolicy} {outcome upper x : ℤ}

theorem ofList_eq_ok : ofList intervals = .ok policy ↔ ∃ hne, policy = .ofNonempty intervals hne := by
  unfold ofList
  constructor
  · intro h
    split at h
    · next hne => exact ⟨hne, (Except.ok.inj h).symm⟩
    · cases h
  · rintro ⟨hne, rfl⟩
    rw [dif_pos hne]

theorem lt_start_of_mem_dropWhile {j : RoundingInterval}
    (hj : j ∈ policy.intervals.dropWhile (·.start ≤ outcome)) : outcome < j.start := by
  have hsorted := policy.sorted.sublist (List.dropWhile_sublist (·.start ≤ outcome))
  have hhead := List.head?_dropWhile_not (·.start ≤ outcome) policy.intervals
  cases hdrop : policy.intervals.dropWhile (·.start ≤ outcome) with
  | nil => simp [hdrop] at hj
  | cons k rest =>
      rw [hdrop] at hj hsorted hhead
      have hk : outcome < k.start := by simpa using hhead
      rcases List.mem_cons.mp hj with rfl | hj
      · exact hk
      · exact hk.trans_le (List.rel_of_pairwise_cons hsorted hj)

/-- The last interval that has started applies, and before the first one nothing is rounded. -/
theorem modulusAt_cases (policy : RoundingPolicy) (outcome : ℤ) :
    (∃ i, Governs policy.intervals outcome i ∧ policy.modulusAt outcome = i.modulus) ∨
      (∀ i ∈ policy.intervals, outcome < i.start) ∧ policy.modulusAt outcome = 1 := by
  have hsplit := List.takeWhile_append_dropWhile (p := (·.start ≤ outcome)) (l := policy.intervals)
  have hlater : ∀ j ∈ policy.intervals.dropWhile (·.start ≤ outcome), outcome < j.start :=
    fun j => lt_start_of_mem_dropWhile
  unfold modulusAt
  cases hlast : (policy.intervals.takeWhile (·.start ≤ outcome)).getLast? with
  | none =>
      rw [List.getLast?_eq_none_iff] at hlast
      rw [hlast, List.nil_append] at hsplit
      rw [hsplit] at hlater
      exact Or.inr ⟨hlater, rfl⟩
  | some i =>
      obtain ⟨before, hbefore⟩ := List.getLast?_eq_some_iff.mp hlast
      have hi : i ∈ policy.intervals.takeWhile (·.start ≤ outcome) := List.mem_of_getLast? hlast
      have hstarted : i.start ≤ outcome := by simpa using List.mem_takeWhile_imp hi
      have hlist : policy.intervals =
          before ++ i :: policy.intervals.dropWhile (·.start ≤ outcome) := by
        rw [hbefore, List.append_assoc] at hsplit
        exact hsplit.symm
      refine Or.inl ⟨i, ⟨hstarted, ?_, before, _, hlist, ?_⟩, rfl⟩
      · intro j hj hjs
        rw [← hsplit, List.mem_append] at hj
        rcases hj with hj | hj
        · have hsorted := policy.sorted.sublist (List.takeWhile_sublist (·.start ≤ outcome))
          rw [hbefore] at hsorted hj
          rcases List.mem_append.mp hj with hj | hj
          · exact (List.pairwise_append.mp hsorted).2.2 j hj i (by simp)
          · rw [List.mem_singleton.mp hj]
        · exact absurd (hlater j hj) (not_lt.mpr hjs)
      · intro j hj
        exact (hstarted.trans_lt (hlater j hj)).ne'

theorem ofNonempty_eq_iff (hne : intervals ≠ []) (hne' : intervals' ≠ []) :
    ofNonempty intervals hne = ofNonempty intervals' hne' ↔
      ∀ start, startingAt intervals start = startingAt intervals' start := by
  constructor
  · intro h start
    have hsorted : intervals.mergeSort startsBy = intervals'.mergeSort startsBy := congrArg (·.intervals) h
    rw [← startingAt_mergeSort, hsorted, startingAt_mergeSort]
  · intro h
    have hsorted : intervals.mergeSort startsBy = intervals'.mergeSort startsBy := by
      apply eq_of_startingAt_eq (sorted_mergeSort intervals) (sorted_mergeSort intervals')
      intro start
      rw [startingAt_mergeSort, startingAt_mergeSort, h]
    simp [ofNonempty, hsorted]

/-- A policy gives each outcome the modulus of the interval that applies to it in the list as it was given,
and one where none has started. Two lists make the same policy exactly if they have the intervals of every
start in the same order. -/
theorem ofList_governs (hne : intervals ≠ []) : ∃ policy, ofList intervals = .ok policy ∧
    (∀ outcome modulus, policy.modulusAt outcome = modulus ↔
      (∃ i, Governs intervals outcome i ∧ modulus = i.modulus) ∨
        (∀ i ∈ intervals, outcome < i.start) ∧ modulus = 1) ∧
    ∀ intervals', ofList intervals' = .ok policy ↔
      ∀ start, startingAt intervals' start = startingAt intervals start := by
  have hsame : ∀ start, startingAt (ofNonempty intervals hne).intervals start =
      startingAt intervals start := startingAt_mergeSort intervals
  refine ⟨ofNonempty intervals hne, ofList_eq_ok.mpr ⟨hne, rfl⟩, ?_, ?_⟩
  · intro outcome modulus
    rcases modulusAt_cases (ofNonempty intervals hne) outcome with ⟨i, hi, hmodulus⟩ | ⟨hnone, hmodulus⟩
    · have hi := hi.congr hsame
      rw [hmodulus]
      constructor
      · rintro rfl
        exact Or.inl ⟨i, hi, rfl⟩
      · rintro (⟨j, hj, rfl⟩ | ⟨hnone, -⟩)
        · rw [hi.unique hj]
        · exact absurd hi.started (not_le.mpr (hnone i hi.mem))
    · have hnone : ∀ i ∈ intervals, outcome < i.start := by
        intro i hi
        exact hnone i (List.mem_mergeSort.mpr hi)
      rw [hmodulus]
      constructor
      · rintro rfl
        exact Or.inr ⟨hnone, rfl⟩
      · rintro (⟨j, hj, rfl⟩ | ⟨-, rfl⟩)
        · exact absurd hj.started (not_le.mpr (hnone j hj.mem))
        · rfl
  · intro intervals'
    rw [ofList_eq_ok]
    constructor
    · rintro ⟨hne', hpolicy⟩ start
      exact ((ofNonempty_eq_iff hne hne').mp hpolicy start).symm
    · intro h
      have hne' : intervals' ≠ [] := by
        rintro rfl
        obtain ⟨i, hi⟩ := List.exists_mem_of_ne_nil _ hne
        simpa using mem_of_startingAt_eq (fun start => (h start).symm) hi
      exact ⟨hne', (ofNonempty_eq_iff hne hne').mpr fun start => (h start).symm⟩

/-- Two intervals that start at five, listed before the one that starts at zero. -/
theorem ofList_governs_unsorted : ∃ policy : RoundingPolicy,
    ofList [⟨5, 3, by decide, by decide⟩, ⟨5, 7, by decide, by decide⟩, ⟨0, 2, by decide, by decide⟩] =
      .ok policy ∧ policy.modulusAt 4 = 2 ∧ policy.modulusAt 6 = 7 ∧
    ofList [⟨5, 3, by decide, by decide⟩, ⟨0, 2, by decide, by decide⟩, ⟨5, 7, by decide, by decide⟩] =
      .ok policy := by
  have hne : ([⟨5, 3, by decide, by decide⟩, ⟨5, 7, by decide, by decide⟩,
      ⟨0, 2, by decide, by decide⟩] : List RoundingInterval) ≠ [] := by simp
  obtain ⟨policy, hpolicy, hmodulus, hlists⟩ := ofList_governs hne
  refine ⟨policy, hpolicy, ?_, ?_, ?_⟩
  · rw [hmodulus]
    exact Or.inl ⟨⟨0, 2, by decide, by decide⟩, ⟨by decide, by decide, [_, _], [], rfl, by simp⟩, rfl⟩
  · rw [hmodulus]
    exact Or.inl ⟨⟨5, 7, by decide, by decide⟩, ⟨by decide, by decide, [_], [_], rfl, by simp⟩, rfl⟩
  · rw [hlists]
    intro start
    by_cases hstart : 5 = start
    · subst hstart
      rfl
    · simp [startingAt_cons, hstart]

/-! ## Segments -/

theorem takeWhile_eq_filter (policy : RoundingPolicy) (outcome : ℤ) :
    policy.intervals.takeWhile (·.start ≤ outcome) = policy.intervals.filter (·.start ≤ outcome) := by
  conv_rhs => rw [← List.takeWhile_append_dropWhile (p := (·.start ≤ outcome)) (l := policy.intervals)]
  rw [List.filter_append, List.filter_eq_self.mpr, List.filter_eq_nil_iff.mpr, List.append_nil]
  · intro j hj
    simpa using lt_start_of_mem_dropWhile hj
  · intro i hi
    simpa using List.mem_takeWhile_imp hi

def starts (policy : RoundingPolicy) : Finset ℤ := (policy.intervals.map (·.start)).toFinset

@[simp] theorem mem_starts {start : ℤ} :
    start ∈ policy.starts ↔ ∃ i ∈ policy.intervals, i.start = start := by
  simp [starts]

theorem segmentEnd_le_start (upper : ℤ) {start : ℤ} (hstart : start ∈ policy.starts) (hlt : outcome < start) :
    policy.segmentEnd outcome upper ≤ start := by
  obtain ⟨i, hi, rfl⟩ := mem_starts.mp hstart
  unfold segmentEnd
  cases hfind : policy.intervals.find? (outcome < ·.start) with
  | none =>
      have hnone := List.find?_eq_none.mp hfind i hi
      simp [hlt] at hnone
  | some next =>
      obtain ⟨-, before, after, hsplit, hbefore⟩ := List.find?_eq_some_iff_append.mp hfind
      have hsorted := policy.sorted
      rw [hsplit] at hi hsorted
      have hnext : next.start ≤ i.start := by
        rcases List.mem_append.mp hi with hi | hi
        · have hearly := hbefore i hi
          simp [hlt] at hearly
        · rcases List.mem_cons.mp hi with rfl | hi
          · exact le_rfl
          · exact List.rel_of_pairwise_cons (List.pairwise_append.mp hsorted).2.1 hi
      exact (min_le_left _ _).trans hnext

/-- A segment ends at the limit or where the next interval starts. -/
theorem segmentEnd_eq_or_isLeast (policy : RoundingPolicy) (outcome upper : ℤ) :
    policy.segmentEnd outcome upper = upper ∨
      IsLeast {start | start ∈ policy.starts ∧ outcome < start} (policy.segmentEnd outcome upper) := by
  by_cases hupper : policy.segmentEnd outcome upper = upper
  · exact Or.inl hupper
  right
  constructor
  · unfold segmentEnd at hupper ⊢
    cases hfind : policy.intervals.find? (outcome < ·.start) with
    | none => simp [hfind] at hupper
    | some next =>
        simp only [hfind, min_def] at hupper ⊢
        split at hupper
        · next hle =>
          have hnext := List.find?_some hfind
          rw [if_pos hle]
          exact ⟨mem_starts.mpr ⟨next, List.mem_of_find?_eq_some hfind, rfl⟩, by simpa using hnext⟩
        · contradiction
  · rintro start ⟨hstart, hlt⟩
    exact segmentEnd_le_start upper hstart hlt

/-- One modulus applies up to the end of a segment. -/
theorem modulusAt_eq (hx : outcome ≤ x) (hend : x < policy.segmentEnd outcome upper) :
    policy.modulusAt x = policy.modulusAt outcome := by
  have hstarted : policy.intervals.filter (·.start ≤ x) = policy.intervals.filter (·.start ≤ outcome) := by
    apply List.filter_congr
    intro i hi
    rw [decide_eq_decide]
    constructor
    · intro hix
      by_contra hlater
      have hle := segmentEnd_le_start upper (mem_starts.mpr ⟨i, hi, rfl⟩) (not_le.mp hlater)
      omega
    · intro hi
      exact hi.trans hx
  unfold modulusAt
  rw [takeWhile_eq_filter, takeWhile_eq_filter, hstarted]

/-! ### From one segment to the next -/

/-- The outcomes strictly between two others at which an interval starts. -/
def startsBetween (policy : RoundingPolicy) (outcome upper : ℤ) : Finset ℤ :=
  policy.starts.filter fun start => outcome < start ∧ start < upper

/-- Where the segment numbered `k` begins, of those from an outcome on. -/
def segmentStart (policy : RoundingPolicy) (outcome upper : ℤ) (k : ℕ) : ℤ :=
  (fun start => (policy.segmentAt start upper).2)^[k] outcome

@[simp] theorem segmentStart_zero (policy : RoundingPolicy) (outcome upper : ℤ) :
    policy.segmentStart outcome upper 0 = outcome := rfl

theorem segmentStart_succ (policy : RoundingPolicy) (outcome upper : ℤ) (k : ℕ) :
    policy.segmentStart outcome upper (k + 1) =
      policy.segmentEnd (policy.segmentStart outcome upper k) upper :=
  Function.iterate_succ_apply' _ _ _

theorem segmentStart_segmentEnd (policy : RoundingPolicy) (outcome upper : ℤ) (k : ℕ) :
    policy.segmentStart (policy.segmentEnd outcome upper) upper k =
      policy.segmentStart outcome upper (k + 1) :=
  (Function.iterate_succ_apply _ _ _).symm

theorem le_segmentEnd (policy : RoundingPolicy) (h : outcome ≤ upper) :
    outcome ≤ policy.segmentEnd outcome upper := by
  rcases policy.segmentEnd_eq_or_isLeast outcome upper with hend | hend
  · rwa [hend]
  · exact hend.1.2.le

theorem segmentStart_le (policy : RoundingPolicy) (h : outcome ≤ upper) (k : ℕ) :
    policy.segmentStart outcome upper k ≤ upper := by
  cases k with
  | zero => exact h
  | succ k =>
      rw [segmentStart_succ]
      exact policy.segmentEnd_le _ _

theorem segmentStart_mono (policy : RoundingPolicy) (h : outcome ≤ upper) :
    Monotone (policy.segmentStart outcome upper) := by
  apply monotone_nat_of_le_succ
  intro k
  rw [segmentStart_succ]
  exact policy.le_segmentEnd (policy.segmentStart_le h k)

theorem startsBetween_of_segmentEnd_eq (h : policy.segmentEnd outcome upper = upper) :
    policy.startsBetween outcome upper = ∅ := by
  apply Finset.filter_eq_empty_iff.mpr
  rintro start hstart ⟨hlt, hupper⟩
  have hle := segmentEnd_le_start upper hstart hlt
  omega

theorem startsBetween_of_segmentEnd_lt (h : policy.segmentEnd outcome upper < upper) :
    policy.startsBetween outcome upper = insert (policy.segmentEnd outcome upper)
      (policy.startsBetween (policy.segmentEnd outcome upper) upper) := by
  have hleast := (policy.segmentEnd_eq_or_isLeast outcome upper).resolve_left h.ne
  ext start
  simp only [startsBetween, Finset.mem_insert, Finset.mem_filter]
  constructor
  · rintro ⟨hstart, hlt, hupper⟩
    rcases (hleast.2 ⟨hstart, hlt⟩).eq_or_lt with heq | hlater
    · exact Or.inl heq.symm
    · exact Or.inr ⟨hstart, hlater, hupper⟩
  · rintro (rfl | ⟨hstart, hlater, hupper⟩)
    · exact ⟨hleast.1.1, hleast.1.2, h⟩
    · exact ⟨hstart, hleast.1.2.trans hlater, hupper⟩

theorem card_startsBetween_of_segmentEnd_lt (h : policy.segmentEnd outcome upper < upper) :
    (policy.startsBetween outcome upper).card =
      (policy.startsBetween (policy.segmentEnd outcome upper) upper).card + 1 := by
  rw [startsBetween_of_segmentEnd_lt h, Finset.card_insert_of_notMem]
  simp [startsBetween]

/-- The last segment is reached after as many others as there are starts on the way. -/
theorem segmentStart_card (policy : RoundingPolicy) (h : outcome < upper) :
    policy.segmentStart outcome upper (policy.startsBetween outcome upper).card < upper ∧
      policy.segmentStart outcome upper ((policy.startsBetween outcome upper).card + 1) = upper := by
  induction hn : (policy.startsBetween outcome upper).card generalizing outcome with
  | zero =>
      refine ⟨h, ?_⟩
      rw [segmentStart_succ, segmentStart_zero]
      by_contra hne
      have hcard := card_startsBetween_of_segmentEnd_lt ((policy.segmentEnd_le outcome upper).lt_of_ne hne)
      omega
  | succ n ih =>
      have hlt : policy.segmentEnd outcome upper < upper := by
        apply (policy.segmentEnd_le outcome upper).lt_of_ne
        intro hend
        simp [startsBetween_of_segmentEnd_eq hend] at hn
      have hcard := card_startsBetween_of_segmentEnd_lt hlt
      have hrest := ih hlt (by omega)
      rwa [segmentStart_segmentEnd, segmentStart_segmentEnd] at hrest

theorem exists_segment (policy : RoundingPolicy) {n : ℕ} (hx : outcome ≤ x)
    (hlt : x < policy.segmentStart outcome upper n) : ∃ k < n,
      x ∈ Set.Ico (policy.segmentStart outcome upper k) (policy.segmentStart outcome upper (k + 1)) := by
  induction n with
  | zero => exact absurd hlt (not_lt.mpr hx)
  | succ n ih =>
      by_cases hbefore : x < policy.segmentStart outcome upper n
      · obtain ⟨k, hk, hmem⟩ := ih hbefore
        exact ⟨k, hk.trans (Nat.lt_succ_self n), hmem⟩
      · exact ⟨n, Nat.lt_succ_self n, not_lt.mp hbefore, hlt⟩

theorem segment_unique (policy : RoundingPolicy) (h : outcome ≤ upper) {j k : ℕ}
    (hj : x ∈ Set.Ico (policy.segmentStart outcome upper j) (policy.segmentStart outcome upper (j + 1)))
    (hk : x ∈ Set.Ico (policy.segmentStart outcome upper k) (policy.segmentStart outcome upper (k + 1))) :
    j = k := by
  have hdisjoint := (policy.segmentStart_mono h).pairwise_disjoint_on_Ico_succ
  by_contra hne
  exact Set.disjoint_left.mp (hdisjoint hne) hj hk

theorem segmentStart_eq_iff (policy : RoundingPolicy) (h : outcome < upper) (k : ℕ) :
    policy.segmentStart outcome upper k = upper ↔ (policy.startsBetween outcome upper).card < k := by
  obtain ⟨hlt, hreach⟩ := policy.segmentStart_card h
  have hmono := policy.segmentStart_mono h.le
  constructor
  · intro hk
    by_contra hle
    have hbefore := hmono (not_lt.mp hle)
    omega
  · intro hk
    apply le_antisymm (policy.segmentStart_le h.le k)
    exact hreach.ge.trans (hmono hk)

/-- A segment is not empty, has one modulus, and ends at the limit or where the next interval starts. One
after another the segments reach the limit, which takes one step more than there are starts in between,
and every outcome before it lies in exactly one of them. -/
theorem segments_tile (policy : RoundingPolicy) (h : outcome < upper) {modulus stop : ℤ}
    (hsegment : policy.segmentAt outcome upper = (modulus, stop)) :
    (outcome < stop ∧ stop ≤ upper) ∧
    (∀ x ∈ Set.Ico outcome stop, policy.modulusAt x = modulus) ∧
    (stop = upper ∨ IsLeast {start | start ∈ policy.starts ∧ outcome < start} stop) ∧
    (∀ k, policy.segmentStart outcome upper k = upper ↔
      (policy.startsBetween outcome upper).card < k) ∧
    ∀ x, x ∈ Set.Ico outcome upper ↔ ∃! k, k ≤ (policy.startsBetween outcome upper).card ∧
      x ∈ Set.Ico (policy.segmentStart outcome upper k) (policy.segmentStart outcome upper (k + 1)) := by
  cases hsegment
  refine ⟨⟨policy.lt_segmentEnd h, policy.segmentEnd_le outcome upper⟩, ?_,
    policy.segmentEnd_eq_or_isLeast outcome upper, policy.segmentStart_eq_iff h, ?_⟩
  · intro x hx
    exact modulusAt_eq hx.1 hx.2
  · intro x
    constructor
    · intro hx
      have hreach := (policy.segmentStart_eq_iff h _).mpr (Nat.lt_succ_self _)
      obtain ⟨k, hk, hmem⟩ := policy.exists_segment hx.1 (hreach.symm ▸ hx.2)
      refine ⟨k, ⟨Nat.lt_succ_iff.mp hk, hmem⟩, ?_⟩
      rintro j ⟨-, hj⟩
      exact policy.segment_unique h.le hj hmem
    · rintro ⟨k, ⟨-, hmem⟩, -⟩
      have hfirst := policy.segmentStart_mono h.le (Nat.zero_le k)
      have hlast := policy.segmentStart_le h.le (k + 1)
      exact ⟨hfirst.trans hmem.1, hmem.2.trans_le hlast⟩

/-- From three to twelve, where an interval starts, with two intervals that start at five. -/
theorem segments_tile_twoAtFive :
    let policy : RoundingPolicy := ⟨[⟨0, 2, by decide, by decide⟩, ⟨5, 3, by decide, by decide⟩,
      ⟨5, 7, by decide, by decide⟩, ⟨12, 4, by decide, by decide⟩], by simp, by decide⟩
    policy.segmentAt 3 12 = (2, 5) ∧ policy.modulusAt 4 = 2 ∧ policy.segmentStart 3 12 2 = 12 ∧
      ∃! k, k ≤ 1 ∧ 8 ∈ Set.Ico (policy.segmentStart 3 12 k) (policy.segmentStart 3 12 (k + 1)) := by
  intro policy
  have hsegment : policy.segmentAt 3 12 = (2, 5) := by decide
  obtain ⟨-, hmodulus, -, hreach, htile⟩ := policy.segments_tile (show (3 : ℤ) < 12 by decide) hsegment
  have hcard : (policy.startsBetween 3 12).card = 1 := by decide
  rw [hcard] at hreach htile
  refine ⟨hsegment, hmodulus 4 ⟨by decide, by decide⟩, (hreach 2).mpr (by decide), ?_⟩
  exact (htile 8).mp ⟨by decide, by decide⟩

end RoundingPolicy

end NumericContract
