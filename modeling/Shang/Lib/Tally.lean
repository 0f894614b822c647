import Mathlib.Algebra.BigOperators.Group.Finset.Basic
import Mathlib.Algebra.Order.BigOperators.Group.Finset
import Mathlib.Data.Fintype.BigOperators
import Mathlib.Algebra.Group.Nat.Defs

/-!
# What threads add up to

Each thread is in a phase, and each phase has a weight. When one thread moves on, the sum
over all threads changes by the weights of the two phases.
-/

namespace Shang.Lib

open Function Finset

variable {ι α M : Type*} [Fintype ι] [AddCommMonoid M]

/-- The weights of the phases together. -/
def tally (weight : α → M) (phase : ι → α) : M := ∑ t, weight (phase t)

theorem tally_const (weight : α → M) (a : α) :
    tally weight (fun _ : ι => a) = Fintype.card ι • weight a := by
  rw [tally, sum_const, card_univ]

theorem tally_eq_zero {weight : α → Nat} {phase : ι → α} :
    tally weight phase = 0 ↔ ∀ t, weight (phase t) = 0 := by
  rw [tally, sum_eq_zero_iff]
  exact forall_congr' fun t => ⟨fun all => all (mem_univ t), fun zero _ => zero⟩

variable [DecidableEq ι]

theorem tally_update (weight : α → M) (phase : ι → α) (t : ι) (a : α) :
    tally weight (update phase t a) + weight (phase t) = tally weight phase + weight a := by
  have others : ∑ u ∈ univ.erase t, weight (update phase t a u) =
      ∑ u ∈ univ.erase t, weight (phase u) :=
    sum_congr rfl fun u mem => by rw [update_of_ne (ne_of_mem_erase mem)]
  rw [tally, tally, ← add_sum_erase univ _ (mem_univ t), ← add_sum_erase univ _ (mem_univ t),
    others, update_self, add_right_comm, add_comm (weight a), add_right_comm, add_assoc]

/-- A thread moves on between phases of one weight. -/
theorem tally_update_same {weight : α → M} {phase : ι → α} {t : ι} {a : α}
    (same : weight a = weight (phase t)) :
    tally weight (update phase t a) = tally weight phase := by
  refine sum_congr rfl fun u _ => ?_
  by_cases here : u = t
  · rw [here, update_self, same]
  · rw [update_of_ne here]

end Shang.Lib
