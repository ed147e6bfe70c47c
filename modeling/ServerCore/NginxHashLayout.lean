import Mathlib.Algebra.GroupWithZero.Nat
import ServerCore.NginxHash
import Mathlib.Algebra.BigOperators.Group.List.Basic

/-!
# The bytes of the buckets of a static hash

What is allotted to a bucket is enough for it exactly when its sizes, with the
word of the end and rounded up to a cache line, do not overflow the count.
-/

namespace ServerCore.NginxHashLayout

open NginxHash Function

def inBucket (size i : Nat) (name : HashKey) : Bool := !name.null && name.keyHash % size = i

def need (size : Nat) (names : List HashKey) (i : Nat) : Nat :=
  ((names.filter (inBucket size i)).map hashEltSize).sum

section Counts

variable {size i : Nat} {test : Nat → Nat} {name : HashKey} {names : List HashKey}

theorem elt_size_bounds (name : HashKey) :
    16 ≤ hashEltSize name ∧ 10 + name.key.length ≤ hashEltSize name ∧ 8 ∣ hashEltSize name := by
  unfold hashEltSize ngxAlign
  omega

theorem need_cons (size : Nat) (name : HashKey) (names : List HashKey) (i : Nat) :
    need size (name :: names) i =
      (if inBucket size i name then hashEltSize name else 0) + need size names i := by
  unfold need
  by_cases here : inBucket size i name = true
  · simp [here]
  · simp [here]

theorem add_test_at (size : Nat) (test : Nat → Nat) (name : HashKey) (i : Nat) : addTest size test name i =
      if inBucket size i name then (test i + hashEltSize name) % shortLimit else test i := by
  unfold addTest inBucket
  cases name.null with
  | true => simp
  | false =>
    by_cases here : name.keyHash % size = i
    · simp [here]
    · have other : i ≠ name.keyHash % size := fun same => here same.symm
      simp [here, other]

theorem count_mod (names : List HashKey) (small : test i < shortLimit) :
    names.foldl (addTest size) test i = (test i + need size names i) % shortLimit := by
  induction names generalizing test with
  | nil =>
    rw [need]
    exact (Nat.mod_eq_of_lt small).symm
  | cons name names ih =>
    have next : addTest size test name i < shortLimit := by
      rw [add_test_at]
      split_ifs
      · exact Nat.mod_lt _ (by decide)
      · exact small
    rw [List.foldl_cons, ih next, add_test_at, need_cons]
    split_ifs
    · rw [Nat.mod_add_mod, add_assoc]
    · rw [zero_add]

theorem count_bytes_mod (size : Nat) (names : List HashKey) (i : Nat) :
    countBytes size names i = (8 + need size names i) % shortLimit :=
  count_mod names (by decide)

theorem placements_null (names : List HashKey) (null : name.null = true) :
    placements size test (name :: names) = placements size test names := by
  rw [placements, if_pos null]

theorem placements_cons (names : List HashKey) (null : name.null = false) :
    placements size test (name :: names) = ⟨name.keyHash % size, test (name.keyHash % size), name⟩ ::
        placements size (addTest size test name) names := by
  rw [placements, if_neg (by simp [null])]

theorem add_test_exact (exact_ : test i + need size (name :: names) i < shortLimit) :
    addTest size test name i + need size names i = test i + need size (name :: names) i := by
  rw [need_cons] at exact_ ⊢
  rw [add_test_at]
  split_ifs at exact_ ⊢ with here
  · rw [Nat.mod_eq_of_lt (by omega)]
    omega
  · omega

theorem placement_bounds {placement : Placement}
    (exact_ : test placement.bucket + need size names placement.bucket < shortLimit)
    (mem : placement ∈ placements size test names) :
    inBucket size placement.bucket placement.name = true ∧ placement.name ∈ names ∧
      test placement.bucket ≤ placement.offset ∧ placement.offset + hashEltSize placement.name ≤
        test placement.bucket + need size names placement.bucket := by
  induction names generalizing test with
  | nil => simp [placements] at mem
  | cons name names ih =>
    have later : ∀ test', placement ∈ placements size test' names →
        test' placement.bucket + need size names placement.bucket =
          test placement.bucket + need size (name :: names) placement.bucket →
        test placement.bucket ≤ test' placement.bucket →
        inBucket size placement.bucket placement.name = true ∧ placement.name ∈ name :: names ∧
          test placement.bucket ≤ placement.offset ∧
          placement.offset + hashEltSize placement.name ≤
            test placement.bucket + need size (name :: names) placement.bucket := by
      intro test' mem same grows
      obtain ⟨own, listed, low, high⟩ := ih (by omega) mem
      exact ⟨own, List.mem_cons_of_mem name listed, by omega, by omega⟩
    cases null : name.null with
    | true =>
      rw [placements_null names null] at mem
      apply later test mem _ (Nat.le_refl _)
      rw [need_cons, inBucket, null]
      simp
    | false =>
      rw [placements_cons names null, List.mem_cons] at mem
      cases mem with
      | inl first =>
        subst first
        have own : inBucket size (name.keyHash % size) name = true := by simp [inBucket, null]
        refine ⟨own, List.mem_cons_self, Nat.le_refl _, ?_⟩
        dsimp only
        rw [need_cons, if_pos own]
        omega
      | inr rest =>
        have same := add_test_exact exact_
        apply later _ rest same
        rw [need_cons] at same
        split_ifs at same with here
        · omega
        · omega

theorem placements_apart (exact_ : ∀ i, test i + need size names i < shortLimit) :
    (placements size test names).Pairwise fun one two =>
      one.bucket = two.bucket → one.offset + hashEltSize one.name ≤ two.offset := by
  induction names generalizing test with
  | nil => exact List.Pairwise.nil
  | cons name names ih =>
    have rest : ∀ i, addTest size test name i + need size names i < shortLimit := by
      intro i
      rw [add_test_exact (exact_ i)]
      exact exact_ i
    cases null : name.null with
    | true =>
      rw [placements_null names null]
      apply ih
      intro i
      have bound := exact_ i
      rw [need_cons] at bound
      omega
    | false =>
      rw [placements_cons names null, List.pairwise_cons]
      refine ⟨?_, ih rest⟩
      intro two mem sameBucket
      obtain ⟨-, -, low, -⟩ := placement_bounds (rest _) mem
      have own : inBucket size two.bucket name = true := by
        rw [← sameBucket]
        simp [inBucket, null]
      have bound := exact_ two.bucket
      rw [need_cons, if_pos own] at bound
      rw [add_test_at, if_pos own, Nat.mod_eq_of_lt (by omega)] at low
      dsimp only at sameBucket ⊢
      rw [sameBucket]
      exact low

theorem count_of_fit {limit : Nat} (small : test i < shortLimit) (below : limit < shortLimit)
    (fit : ∀ placement ∈ placements size test names, placement.bucket = i →
      placement.offset + hashEltSize placement.name ≤ limit) : test i + need size names i < shortLimit := by
  induction names generalizing test with
  | nil => exact small
  | cons name names ih =>
    cases null : name.null with
    | true =>
      rw [placements_null names null] at fit
      have rest := ih small fit
      rw [need_cons, inBucket, null]
      simpa using rest
    | false =>
      rw [placements_cons names null] at fit
      have rest : ∀ placement ∈ placements size (addTest size test name) names,
          placement.bucket = i → placement.offset + hashEltSize placement.name ≤ limit :=
        fun placement mem => fit placement (List.mem_cons_of_mem _ mem)
      have next := add_test_at size test name i
      rw [need_cons]
      by_cases here : inBucket size i name = true
      · have bucket : name.keyHash % size = i := by simpa [inBucket, null] using here
        have first := fit _ List.mem_cons_self bucket
        dsimp only at first
        rw [bucket] at first
        rw [if_pos here, Nat.mod_eq_of_lt (by omega)] at next
        have done := ih (by omega) rest
        rw [if_pos here]
        omega
      · rw [if_neg here] at next
        have done := ih (by omega) rest
        rw [if_neg here]
        omega

end Counts

section Buckets

variable {test : Nat → Nat} {elts : Nat}

theorem place_buckets_end (test : Nat → Nat) (elts i : Nat) : (placeBuckets test elts (i + 1)).1 =
      (placeBuckets test elts i).1 + if test i = 8 then 0 else test i := by
  simp only [placeBuckets]
  split_ifs <;> rfl

theorem place_buckets_grows (test : Nat → Nat) (elts : Nat) {i j : Nat} (order : i ≤ j) :
    (placeBuckets test elts i).1 ≤ (placeBuckets test elts j).1 := by
  induction j with
  | zero => exact Nat.le_of_eq (by rw [Nat.le_zero.mp order])
  | succ j ih =>
    cases Nat.lt_or_eq_of_le order with
    | inl less =>
      rw [place_buckets_end]
      omega
    | inr same => exact Nat.le_of_eq (by rw [same])

theorem place_buckets_at (test : Nat → Nat) (elts count i : Nat) : (placeBuckets test elts count).2 i =
      if i < count ∧ test i ≠ 8 then (placeBuckets test elts i).1 else 0 := by
  induction count with
  | zero => rfl
  | succ count ih =>
    simp only [placeBuckets]
    by_cases empty : test count = 8
    · rw [if_pos empty, ih]
      have same : (i < count ∧ test i ≠ 8) ↔ (i < count + 1 ∧ test i ≠ 8) := by
        constructor
        · exact fun both => ⟨by omega, both.2⟩
        · intro both
          refine ⟨Nat.lt_of_le_of_ne (Nat.le_of_lt_succ both.1) ?_, both.2⟩
          intro last
          exact both.2 (last ▸ empty)
      simp only [same]
    · rw [if_neg empty]
      dsimp only
      by_cases last : i = count
      · rw [last, update_self, if_pos ⟨Nat.lt_succ_self count, empty⟩]
      · rw [update_of_ne last, ih]
        have same : (i < count ∧ test i ≠ 8) ↔ (i < count + 1 ∧ test i ≠ 8) := by
          constructor
          · exact fun both => ⟨by omega, both.2⟩
          · exact fun both => ⟨by omega, both.2⟩
        simp only [same]

theorem place_buckets_apart {count i j : Nat} (less : i < j) (inside : j < count)
    (some_ : test i ≠ 8) (later : test j ≠ 8) :
    (placeBuckets test elts count).2 i + test i ≤ (placeBuckets test elts count).2 j := by
  have grows := place_buckets_grows test elts (Nat.succ_le_of_lt less)
  rw [place_buckets_end, if_neg some_] at grows
  rw [place_buckets_at, place_buckets_at, if_pos ⟨by omega, some_⟩, if_pos ⟨inside, later⟩]
  exact grows

theorem place_buckets_aligned (base : 8 ∣ elts) (steps : ∀ i, 8 ∣ test i) (i : Nat) :
    8 ∣ (placeBuckets test elts i).1 := by
  induction i with
  | zero => exact base
  | succ i ih =>
    rw [place_buckets_end]
    have step := steps i
    split_ifs <;> omega

end Buckets

section Allotted

variable {hinit : HashInit} {size i line : Nat} {names : List HashKey}

theorem align_bounds {a : Nat} (pos : 0 < a) (d : Nat) :
    d ≤ ngxAlign d a ∧ ngxAlign d a < d + a ∧ a ∣ ngxAlign d a := by
  have whole := Nat.div_add_mod (d + (a - 1)) a
  have rest := Nat.mod_lt (d + (a - 1)) pos
  have product := mul_comm ((d + (a - 1)) / a) a
  refine ⟨?_, ?_, Nat.dvd_mul_left _ _⟩
  · unfold ngxAlign
    omega
  · unfold ngxAlign
    omega

theorem cacheline_divides (isLine : hinit.cacheline = 2 ^ line) (low : 3 ≤ line) (high : line < 16) :
    0 < hinit.cacheline ∧ 8 ∣ hinit.cacheline ∧ hinit.cacheline ∣ shortLimit := by
  rw [isLine]
  refine ⟨Nat.two_pow_pos line, ?_, ?_⟩
  · exact Nat.pow_dvd_pow 2 low
  · exact Nat.pow_dvd_pow 2 (show line ≤ 16 by omega)

theorem allotted_aligned (isLine : hinit.cacheline = 2 ^ line) (low : 3 ≤ line) (high : line < 16)
    (size : Nat) (names : List HashKey) (i : Nat) : 8 ∣ allotted hinit size names i := by
  obtain ⟨pos, eight, divides⟩ := cacheline_divides isLine low high
  simp only [allotted]
  split_ifs
  · exact Nat.dvd_refl 8
  · have whole := Nat.dvd_trans eight (align_bounds pos (countBytes size names i)).2.2
    exact (Nat.dvd_mod_iff (show 8 ∣ shortLimit by decide)).mpr whole

theorem allotted_exact (pos : 0 < hinit.cacheline) (some_ : 0 < need size names i)
    (exact_ : ngxAlign (8 + need size names i) hinit.cacheline < shortLimit) :
    allotted hinit size names i = ngxAlign (8 + need size names i) hinit.cacheline := by
  have bounds := align_bounds pos (8 + need size names i)
  rw [allotted, count_bytes_mod, Nat.mod_eq_of_lt (Nat.lt_of_le_of_lt bounds.1 exact_),
    if_neg (by omega), Nat.mod_eq_of_lt exact_]

theorem allotted_enough (isLine : hinit.cacheline = 2 ^ line) (low : 3 ≤ line) (high : line < 16)
    (some_ : 0 < need size names i) (small : need size names i < shortLimit)
    (enough : need size names i + 8 ≤ allotted hinit size names i) :
    ngxAlign (8 + need size names i) hinit.cacheline < shortLimit := by
  obtain ⟨pos, -, divides⟩ := cacheline_divides isLine low high
  by_contra overflow
  rw [allotted, count_bytes_mod] at enough
  have bounds := align_bounds pos (8 + need size names i)
  by_cases wraps : 8 + need size names i < shortLimit
  · -- the count is right, its multiple of the cache line is 65536
    obtain ⟨times, isTimes⟩ := bounds.2.2
    obtain ⟨most, isMost⟩ := divides
    have same : times = most := by
      apply Nat.le_antisymm
      · by_contra more
        have further : hinit.cacheline * (most + 1) ≤ hinit.cacheline * times :=
          Nat.mul_le_mul_left _ (by omega)
        rw [Nat.mul_add, Nat.mul_one] at further
        omega
      · exact Nat.le_of_mul_le_mul_left (by omega) pos
    rw [Nat.mod_eq_of_lt wraps, if_neg (by omega), isTimes, same, ← isMost, Nat.mod_self] at enough
    omega
  · split_ifs at enough
    · omega
    · have below := Nat.mod_lt (ngxAlign ((8 + need size names i) % shortLimit) hinit.cacheline)
        (show 0 < shortLimit by decide)
      omega

end Allotted

end ServerCore.NginxHashLayout
