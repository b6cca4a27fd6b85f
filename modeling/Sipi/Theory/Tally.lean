import Mathlib.Algebra.BigOperators.Fin
import Mathlib.Algebra.Order.BigOperators.Group.Finset

/-!
# Tallies

A system of many parties keeps a value for each of them, and a tally adds something up over all parties.
-/

namespace Sipi.Theory

variable {ι α M : Type*} [Fintype ι] [AddCommMonoid M]

/-- The sum of `f` over what the parties have. -/
def tally (f : α → M) (g : ι → α) : M := ∑ i, f (g i)

theorem tally_eq_zero {f : α → M} {g : ι → α} (h : ∀ i, f (g i) = 0) : tally f g = 0 :=
  Finset.sum_eq_zero fun i _ => h i

theorem tally_le {f : α → ℕ} {b : ℕ} (h : ∀ x, f x ≤ b) (g : ι → α) : tally f g ≤ Fintype.card ι * b :=
  Finset.sum_le_card_nsmul _ _ b fun i _ => h (g i)

variable [DecidableEq ι]

theorem tally_update (f : α → M) (g : ι → α) (i : ι) (x : α) :
    tally f (Function.update g i x) + f (g i) = tally f g + f x := by
  have hr : ∑ j ∈ Finset.univ.erase i, f (Function.update g i x j) = ∑ j ∈ Finset.univ.erase i, f (g j) := by
    refine Finset.sum_congr rfl fun j hj => ?_
    rw [Function.update_of_ne (Finset.ne_of_mem_erase hj)]
  unfold tally
  rw [← Finset.add_sum_erase Finset.univ _ (Finset.mem_univ i),
    ← Finset.add_sum_erase Finset.univ (fun j => f (g j)) (Finset.mem_univ i), hr, Function.update_self,
    add_comm (f x), add_comm (f (g i)), add_right_comm]

end Sipi.Theory
