import Mathlib.Algebra.MonoidAlgebra.Defs
import Mathlib.Data.List.Defs

/-!
# Polynomials as lists of terms

A list of terms, each an exponent and a coefficient, stands for the sum of its terms.
A list in order of the exponents and without zero coefficients is proper. Two proper
lists are added by merging them, where terms of one exponent are added and dropped if
they cancel.
-/

namespace Shang.Lib

variable {E R : Type*}

/-- The polynomial a list of terms stands for. -/
noncomputable def poly [Semiring R] (l : List (E × R)) : AddMonoidAlgebra R E :=
  (l.map fun t => .single t.1 t.2).sum

@[simp] theorem poly_nil [Semiring R] : poly ([] : List (E × R)) = 0 := rfl

@[simp] theorem poly_cons [Semiring R] (t : E × R) (l : List (E × R)) :
    poly (t :: l) = .single t.1 t.2 + poly l := List.sum_cons

/-- The exponents ascend, and no coefficient is zero. -/
structure Proper [LT E] [Zero R] (l : List (E × R)) : Prop where
  ascends : l.Pairwise fun t u => t.1 < u.1
  nonzero : ∀ t ∈ l, t.2 ≠ 0

theorem proper_cons [LT E] [Zero R] {x : E × R} {xs : List (E × R)} :
    Proper (x :: xs) ↔ (∀ t ∈ xs, x.1 < t.1) ∧ x.2 ≠ 0 ∧ Proper xs := by
  constructor
  · intro ⟨ascends, nonzero⟩
    obtain ⟨first, rest⟩ := List.pairwise_cons.mp ascends
    obtain ⟨here, nonzero⟩ := List.forall_mem_cons.mp nonzero
    exact ⟨first, here, rest, nonzero⟩
  · intro ⟨first, here, rest, nonzero⟩
    exact ⟨List.pairwise_cons.mpr ⟨first, rest⟩, List.forall_mem_cons.mpr ⟨here, nonzero⟩⟩

section Add

variable [LinearOrder E] [Semiring R] [DecidableEq R]

/-- Merge two lists of terms. -/
def addTerms : List (E × R) → List (E × R) → List (E × R)
  | [], ys => ys
  | xs, [] => xs
  | x :: xs, y :: ys =>
      if x.1 < y.1 then x :: addTerms xs (y :: ys)
      else if y.1 < x.1 then y :: addTerms (x :: xs) ys
      else if x.2 + y.2 ≠ 0 then (x.1, x.2 + y.2) :: addTerms xs ys
      else addTerms xs ys
termination_by xs ys => xs.length + ys.length

variable {x y : E × R} {xs ys : List (E × R)} {e : E}

theorem nil_addTerms : addTerms [] ys = ys := by
  rw [addTerms]

theorem addTerms_nil : addTerms xs [] = xs := by
  cases xs with
  | nil => rw [addTerms]
  | cons x xs => rw [addTerms]; exact List.cons_ne_nil x xs

theorem addTerms_less (less : x.1 < y.1) :
    addTerms (x :: xs) (y :: ys) = x :: addTerms xs (y :: ys) := by
  rw [addTerms, if_pos less]

theorem addTerms_greater (greater : y.1 < x.1) :
    addTerms (x :: xs) (y :: ys) = y :: addTerms (x :: xs) ys := by
  rw [addTerms, if_neg greater.not_gt, if_pos greater]

theorem addTerms_same (same : x.1 = y.1) : addTerms (x :: xs) (y :: ys) =
    if x.2 + y.2 ≠ 0 then (x.1, x.2 + y.2) :: addTerms xs ys else addTerms xs ys := by
  rw [addTerms, if_neg same.not_lt, if_neg same.not_gt]

/-- A sum stands for the sum of the polynomials. -/
theorem poly_addTerms (xs ys : List (E × R)) : poly (addTerms xs ys) = poly xs + poly ys := by
  fun_induction addTerms xs ys with
  | case1 ys => rw [poly_nil, zero_add]
  | case2 xs => rw [poly_nil, add_zero]
  | case3 x xs y ys less ih => rw [poly_cons, ih, poly_cons x xs, add_assoc]
  | case4 x xs y ys notLess greater ih => rw [poly_cons, ih, poly_cons y ys, add_left_comm]
  | case5 x xs y ys notLess notGreater some ih =>
      have same : x.1 = y.1 := le_antisymm (not_lt.mp notGreater) (not_lt.mp notLess)
      rw [poly_cons, ih, poly_cons, poly_cons, AddMonoidAlgebra.single_add, same,
        add_add_add_comm]
  | case6 x xs y ys notLess notGreater none ih =>
      have same : x.1 = y.1 := le_antisymm (not_lt.mp notGreater) (not_lt.mp notLess)
      have cancel : (.single x.1 x.2 : AddMonoidAlgebra R E) + .single y.1 y.2 = 0 := by
        rw [same, ← AddMonoidAlgebra.single_add, not_not.mp none, AddMonoidAlgebra.single_zero]
      rw [ih, poly_cons, poly_cons, add_add_add_comm, cancel, zero_add]

/-- What is below all terms of both lists is below those of their sum. -/
theorem lt_of_mem_addTerms (left : ∀ t ∈ xs, e < t.1) (right : ∀ t ∈ ys, e < t.1) :
    ∀ t ∈ addTerms xs ys, e < t.1 := by
  fun_induction addTerms xs ys with
  | case1 ys => exact right
  | case2 xs => exact left
  | case3 x xs y ys less ih =>
      obtain ⟨here, left⟩ := List.forall_mem_cons.mp left
      exact List.forall_mem_cons.mpr ⟨here, ih left right⟩
  | case4 x xs y ys notLess greater ih =>
      obtain ⟨here, right⟩ := List.forall_mem_cons.mp right
      exact List.forall_mem_cons.mpr ⟨here, ih left right⟩
  | case5 x xs y ys notLess notGreater some ih =>
      obtain ⟨here, left⟩ := List.forall_mem_cons.mp left
      exact List.forall_mem_cons.mpr ⟨here, ih left (List.forall_mem_cons.mp right).2⟩
  | case6 x xs y ys notLess notGreater none ih =>
      exact ih (List.forall_mem_cons.mp left).2 (List.forall_mem_cons.mp right).2

/-- A sum of proper lists is proper. -/
theorem Proper.addTerms (left : Proper xs) (right : Proper ys) : Proper (addTerms xs ys) := by
  fun_induction Lib.addTerms xs ys with
  | case1 ys => exact right
  | case2 xs => exact left
  | case3 x xs y ys less ih =>
      obtain ⟨first, here, left⟩ := proper_cons.mp left
      have above : ∀ t ∈ y :: ys, x.1 < t.1 :=
        List.forall_mem_cons.mpr ⟨less, fun t mem => less.trans ((proper_cons.mp right).1 t mem)⟩
      exact proper_cons.mpr ⟨lt_of_mem_addTerms first above, here, ih left right⟩
  | case4 x xs y ys notLess greater ih =>
      obtain ⟨first, here, right⟩ := proper_cons.mp right
      have above : ∀ t ∈ x :: xs, y.1 < t.1 := List.forall_mem_cons.mpr
        ⟨greater, fun t mem => greater.trans ((proper_cons.mp left).1 t mem)⟩
      exact proper_cons.mpr ⟨lt_of_mem_addTerms above first, here, ih left right⟩
  | case5 x xs y ys notLess notGreater some ih =>
      have same : x.1 = y.1 := le_antisymm (not_lt.mp notGreater) (not_lt.mp notLess)
      obtain ⟨first, -, left⟩ := proper_cons.mp left
      obtain ⟨first', -, right⟩ := proper_cons.mp right
      exact proper_cons.mpr ⟨lt_of_mem_addTerms first (same ▸ first'), some, ih left right⟩
  | case6 x xs y ys notLess notGreater none ih =>
      exact ih (proper_cons.mp left).2.2 (proper_cons.mp right).2.2

end Add

end Shang.Lib
