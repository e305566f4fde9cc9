import Mathlib.Algebra.BigOperators.Group.Finset.Piecewise

/-! # Sums over a family of cells

Conservation laws add up what each cell of an indexed family holds; these rules say how such a sum
moves when one cell changes. -/

namespace Counting
open Function (update)

variable {M : Type*} [AddCommMonoid M] {n q : Nat}

/-- Replacing one cell of a family replaces its summand. -/
theorem sum_update (f : Nat → M) (hq : q < n) (v : M) :
    ∑ i ∈ Finset.range n, update f q v i + f q = ∑ i ∈ Finset.range n, f i + v := by
  have hmem := Finset.mem_range.mpr hq
  rw [Finset.sum_update_of_mem hmem, ← Finset.add_sum_erase _ f hmem,
    Finset.sdiff_singleton_eq_erase, add_assoc, add_comm]
  congr 1
  exact add_comm _ _

/-- A family that agrees with another except at one cell. -/
theorem sum_of_eq_off (f g : Nat → M) (hq : q < n) (h : ∀ i, i ≠ q → g i = f i) :
    ∑ i ∈ Finset.range n, g i + f q = ∑ i ∈ Finset.range n, f i + g q := by
  have : g = update f q (g q) := by
    funext i
    by_cases hi : i = q
    · subst hi; simp
    · simp [hi, h i hi]
  rw [this, sum_update f hq]
  simp

end Counting
