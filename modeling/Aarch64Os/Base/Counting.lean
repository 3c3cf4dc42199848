import Mathlib.Algebra.BigOperators.Group.Finset.Basic
import Mathlib.Data.Fintype.BigOperators

/-!
# Counting over a table one entry of which changes

A table `f : ι → β` with a weight `g` on its entries, a number or a multiset;
`Function.update` moves the total weight by the weights of the old and the new entry.
The equations avoid truncated subtraction.
-/

namespace Base
set_option autoImplicit false

variable {ι β : Type} [Fintype ι]

/-- The total weight after one entry changed. -/
theorem sum_update {M : Type} [AddCommMonoid M] [DecidableEq ι] (g : β → M) (f : ι → β) (i : ι) (b : β) :
    (∑ j, g (Function.update f i b j)) + g (f i) = (∑ j, g (f j)) + g b := by
  rw [← Finset.add_sum_erase _ _ (Finset.mem_univ i),
    ← Finset.add_sum_erase _ (fun j => g (f j)) (Finset.mem_univ i)]
  have rest : ∑ j ∈ Finset.univ.erase i, g (Function.update f i b j) = ∑ j ∈ Finset.univ.erase i, g (f j) := by
    refine Finset.sum_congr rfl fun j hj => ?_
    rw [Function.update_of_ne (Finset.ne_of_mem_erase hj)]
  rw [rest, Function.update_self]
  ac_rfl

/-- The total of weights one of which changed. -/
theorem sum_except (f g : ι → ℕ) (i : ι) (others : ∀ j, j ≠ i → g j = f j) : (∑ j, g j) + f i = (∑ j, f j) + g i := by
  classical
  have same : g = Function.update f i (g i) := by
    funext j
    rcases eq_or_ne j i with rfl | ne
    · rw [Function.update_self]
    · rw [Function.update_of_ne ne, others j ne]
  have moved := sum_update id f i (g i)
  simp only [id_eq] at moved
  rw [← same] at moved
  exact moved

/-- Entries of weight 0 or `k`: the total counts the nonzero ones. -/
theorem sum_const_or_zero {k : ℕ} (g : ι → ℕ) (each : ∀ i, g i = 0 ∨ g i = k) :
    ∑ i, g i = k * (Finset.univ.filter fun i => g i ≠ 0).card := by
  rw [← Finset.sum_filter_ne_zero, Finset.sum_const_nat (m := k), Nat.mul_comm]
  intro i hi
  exact (each i).resolve_left (Finset.mem_filter.1 hi).2

end Base
