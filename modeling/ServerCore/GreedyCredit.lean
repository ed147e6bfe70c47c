import Mathlib.Algebra.BigOperators.Ring.Finset
import Mathlib.Algebra.Order.BigOperators.Group.Finset
import Mathlib.Data.Fintype.BigOperators
import Mathlib.Order.Interval.Finset.Nat
import Mathlib.Tactic.Linarith
import Mathlib.Tactic.Ring

/-!
# Greedy credit scheduling

Every round each participant earns its weight and the richest one pays the sum
of all weights and is served. Where only some earn, and less than their weights, the
credits of a part stay below a bound in the size of the part and of the rest.
-/

namespace ServerCore.GreedyCredit

section

variable {Index : Type*} [DecidableEq Index] {all : Finset Index} {total : Int}
  {credit bonus after : Index → Int} {pick index : Index}

def Spread (all : Finset Index) (total : Int) (credit : Index → Int) : Prop :=
  ∀ part ⊆ all, ∑ index ∈ part, credit index ≤ total * (part.card * (all.card - part.card))

/-- Twice a part is the part with the served participant and without one that earned. -/
theorem spread_swap (spread : Spread all total credit) {part : Finset Index} (within : part ⊆ all)
    (picked : pick ∈ all) (outside : pick ∉ part) (mem : index ∈ part) :
    2 * ∑ other ∈ part, credit other + credit pick - credit index ≤
      2 * (total * (part.card * (all.card - part.card))) - 2 * total := by
  have larger := spread (insert pick part) (Finset.insert_subset picked within)
  have smaller := spread (part.erase index) ((Finset.erase_subset index part).trans within)
  have size : ((part.erase index).card : Int) = part.card - 1 := by
    rw [Finset.card_erase_of_mem mem, Nat.cast_sub (Finset.card_pos.mpr ⟨index, mem⟩)]
    rfl
  rw [Finset.sum_insert outside, Finset.card_insert_of_notMem outside] at larger
  rw [Finset.sum_erase_eq_sub mem, size] at smaller
  push_cast at larger
  linarith

/-- A selection among any participants: each one earns nothing or is not richer than the one
that is served, and this one pays what was earned. -/
theorem spread_serve (spread : Spread all total credit) (picked : pick ∈ all)
    (nonneg : ∀ index ∈ all, 0 ≤ bonus index) (paid : ∑ index ∈ all, bonus index ≤ total)
    (greedy : ∀ index ∈ all, bonus index = 0 ∨
      credit index + bonus index ≤ credit pick + bonus pick)
    (step : ∀ index ∈ all, after index = credit index + bonus index -
      if index = pick then ∑ other ∈ all, bonus other else 0) : Spread all total after := by
  intro part within
  have before := spread part within
  have earned : ∑ index ∈ part, bonus index ≤ ∑ index ∈ all, bonus index :=
    Finset.sum_le_sum_of_subset_of_nonneg within fun index mem _ => nonneg index mem
  rw [Finset.sum_congr rfl fun index mem => step index (within mem), Finset.sum_sub_distrib,
    Finset.sum_add_distrib, Finset.sum_ite_eq']
  split_ifs with inside
  · linarith
  · by_cases idle : ∀ index ∈ part, bonus index = 0
    · rw [Finset.sum_eq_zero idle]
      linarith
    · push Not at idle
      obtain ⟨index, mem, earns⟩ := idle
      have swapped := spread_swap spread within picked inside mem
      have poorer := (greedy index (within mem)).resolve_left earns
      have others : ∑ index ∈ part, bonus index + bonus pick ≤ ∑ index ∈ all, bonus index := by
        rw [add_comm, ← Finset.sum_insert inside]
        exact Finset.sum_le_sum_of_subset_of_nonneg (Finset.insert_subset picked within)
          fun index mem _ => nonneg index mem
      have own := nonneg index (within mem)
      linarith

/-- Credits that add up to nothing: what one is owed the others owe. -/
theorem spread_bounds (spread : Spread all total credit) (sum : ∑ index ∈ all, credit index = 0)
    (mem : index ∈ all) : -(total * (all.card - 1)) ≤ credit index ∧
      credit index ≤ total * (all.card - 1) := by
  have own := spread {index} (Finset.singleton_subset_iff.mpr mem)
  have others := spread (all.erase index) (Finset.erase_subset index all)
  have size : ((all.erase index).card : Int) = all.card - 1 := by
    rw [Finset.card_erase_of_mem mem, Nat.cast_sub (Finset.card_pos.mpr ⟨index, mem⟩)]
    rfl
  rw [Finset.sum_erase_eq_sub mem, sum, size] at others
  rw [Finset.sum_singleton, Finset.card_singleton] at own
  push_cast at own
  constructor <;> linarith

end

variable {Index : Type*} [Fintype Index] [DecidableEq Index]

structure Run (Index : Type*) [Fintype Index] [DecidableEq Index] where
  weight : Index → Int
  credit : Nat → Index → Int
  pick : Nat → Index
  weight_pos : ∀ index, 0 < weight index
  start : ∀ index, credit 0 index = 0
  greedy : ∀ round index, credit round index + weight index ≤
    credit round (pick round) + weight (pick round)
  step : ∀ round index, credit (round + 1) index = credit round index + weight index -
    if pick round = index then ∑ other, weight other else 0

namespace Run

variable (run : Run Index)

def total : Int := ∑ index, run.weight index

def picks (index : Index) (round : Nat) : Nat :=
  ((Finset.range round).filter fun earlier => run.pick earlier = index).card

theorem total_pos : 0 < run.total := by
  have some_ : (Finset.univ : Finset Index).Nonempty := ⟨run.pick 0, Finset.mem_univ _⟩
  exact Finset.sum_pos (fun index _ => run.weight_pos index) some_

theorem picks_succ (index : Index) (round : Nat) : (run.picks index (round + 1) : Int) =
      run.picks index round + if run.pick round = index then 1 else 0 := by
  unfold picks
  rw [Finset.range_add_one, Finset.filter_insert]
  split_ifs with picked
  · rw [Finset.card_insert_of_notMem (by simp)]
    rfl
  · simp

theorem credit_sum (round : Nat) : ∑ index, run.credit round index = 0 := by
  induction round with
  | zero => simp [run.start]
  | succ round ih =>
    have paid : ∑ index, (if run.pick round = index then ∑ other, run.weight other else 0) =
        ∑ other, run.weight other := by
      simp
    simp only [run.step, Finset.sum_sub_distrib, Finset.sum_add_distrib, ih, paid]
    ring

theorem credit_eq (round : Nat) (index : Index) :
    run.credit round index = round * run.weight index - run.total * run.picks index round := by
  induction round with
  | zero => simp [run.start, picks]
  | succ round ih =>
    rw [run.step, ih, picks_succ]
    push_cast
    unfold total
    split_ifs <;> ring

/-- The served participant has the largest credit, and all credits together are
one full payment, so what is left of it stays above minus one payment. -/
theorem credit_gt (round : Nat) (index : Index) : -run.total < run.credit round index := by
  induction round generalizing index with
  | zero =>
    rw [run.start]
    have pos := run.total_pos
    omega
  | succ round ih =>
    have earned := run.weight_pos index
    rw [run.step]
    split_ifs with picked
    · subst picked
      have shares : ∑ other, (run.credit round other + run.weight other) = run.total := by
        rw [Finset.sum_add_distrib, run.credit_sum, zero_add]
        rfl
      have pos : 0 < run.credit round (run.pick round) + run.weight (run.pick round) := by
        by_contra low
        have none : ∑ other, (run.credit round other + run.weight other) ≤ 0 :=
          Finset.sum_nonpos fun other _ => (run.greedy round other).trans (not_lt.mp low)
        have all := run.total_pos
        omega
      unfold total
      omega
    · have before := ih index
      omega

theorem cycle_credit (cycle : Nat) (index : Index) : run.credit (cycle * run.total.toNat) index = 0 := by
  have length : ((cycle * run.total.toNat : Nat) : Int) = cycle * run.total := by
    push_cast
    rw [Int.toNat_of_nonneg run.total_pos.le]
  have multiple : ∀ other, ∃ share : Int,
      run.credit (cycle * run.total.toNat) other = run.total * share := by
    intro other
    refine ⟨cycle * run.weight other - run.picks other (cycle * run.total.toNat), ?_⟩
    rw [run.credit_eq, length]
    ring
  have nonneg : ∀ other, 0 ≤ run.credit (cycle * run.total.toNat) other := by
    intro other
    obtain ⟨share, same⟩ := multiple other
    have above := run.credit_gt (cycle * run.total.toNat) other
    rw [same] at above ⊢
    have pos := run.total_pos
    have shareNonneg : 0 ≤ share := by nlinarith
    positivity
  have zero := (Finset.sum_eq_zero_iff_of_nonneg fun other _ => nonneg other).mp
    (run.credit_sum (cycle * run.total.toNat))
  exact zero index (Finset.mem_univ index)

theorem cycle_picks (cycle : Nat) (index : Index) :
    (run.picks index (cycle * run.total.toNat) : Int) = cycle * run.weight index := by
  have zero := run.cycle_credit cycle index
  rw [run.credit_eq] at zero
  push_cast at zero
  rw [Int.toNat_of_nonneg run.total_pos.le] at zero
  have pos := run.total_pos
  have factored : run.total * (cycle * run.weight index -
      run.picks index (cycle * run.total.toNat)) = 0 := by
    linarith
  rcases mul_eq_zero.mp factored with none | same
  · omega
  · omega

theorem cycle_share (cycle : Nat) (index : Index) :
    (((Finset.Ico (cycle * run.total.toNat) ((cycle + 1) * run.total.toNat)).filter
      fun round => run.pick round = index).card : Int) = run.weight index := by
  have split : run.picks index ((cycle + 1) * run.total.toNat) =
      run.picks index (cycle * run.total.toNat) +
        ((Finset.Ico (cycle * run.total.toNat) ((cycle + 1) * run.total.toNat)).filter
          fun round => run.pick round = index).card := by
    unfold picks
    rw [← Finset.card_union_of_disjoint, ← Finset.filter_union]
    · congr 2
      ext round
      simp only [Finset.mem_range, Finset.mem_union, Finset.mem_Ico]
      have grows : cycle * run.total.toNat ≤ (cycle + 1) * run.total.toNat :=
        Nat.mul_le_mul_right _ (Nat.le_succ cycle)
      omega
    · apply Finset.disjoint_filter_filter
      rw [Finset.disjoint_left]
      intro round low high
      simp only [Finset.mem_range, Finset.mem_Ico] at low high
      omega
  have last := run.cycle_picks (cycle + 1) index
  have first := run.cycle_picks cycle index
  push_cast at last
  linarith

end Run

end ServerCore.GreedyCredit
