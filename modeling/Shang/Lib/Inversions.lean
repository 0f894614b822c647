import Shang.Lib.Places

/-!
# Inversions

An inversion of a list is a pair of elements of which the later one is less. A list
in order has none, and the exchange of two neighbours that are in the wrong order
removes exactly one, so a sort that exchanges neighbours takes as many exchanges as
there are inversions.
-/

namespace Shang.Lib

variable {α : Type}

/-- How many pairs of elements are in the wrong order. -/
def inversions [LT α] [DecidableLT α] : List α → Nat
  | [] => 0
  | x :: l => l.countP (· < x) + inversions l

variable [Preorder α] [DecidableLT α] {x y : α} {l : List α}

theorem inversions_eq_zero (sorted : l.Pairwise (· ≤ ·)) : inversions l = 0 := by
  induction l with
  | nil => rfl
  | cons x l ih =>
      obtain ⟨first, rest⟩ := List.pairwise_cons.mp sorted
      have none : l.countP (· < x) = 0 := List.countP_eq_zero.mpr fun y mem less =>
        (of_decide_eq_true less).not_ge (first y mem)
      rw [inversions, none, ih rest]

/-- Two neighbours in the wrong order are one inversion more than in the right order. -/
theorem inversions_exchange (less : y < x) (l r : List α) :
    inversions (l ++ x :: y :: r) = inversions (l ++ y :: x :: r) + 1 := by
  induction l with
  | nil =>
      have later : (y :: r).countP (· < x) = r.countP (· < x) + 1 :=
        List.countP_cons_of_pos (decide_eq_true less)
      have other : (x :: r).countP (· < y) = r.countP (· < y) :=
        List.countP_cons_of_neg fun h => less.asymm (of_decide_eq_true h)
      rw [List.nil_append, List.nil_append, inversions, inversions, inversions, inversions, later,
        other]
      omega
  | cons z l ih =>
      have same : (l ++ x :: y :: r).countP (· < z) = (l ++ y :: x :: r).countP (· < z) :=
        ((List.Perm.swap y x r).append_left l).countP_eq _
      rw [List.cons_append, List.cons_append, inversions, inversions, ih, same, Nat.add_assoc]

/-- Two neighbours of an array change places that are in the wrong order. -/
theorem inversions_slice {a b : Int → α} {lo hi j : Int} (low : lo ≤ j) (high : j + 1 < hi)
    (less : a (j + 1) < a j) (left : b j = a (j + 1)) (right : b (j + 1) = a j)
    (other : ∀ i, i ≠ j → i ≠ j + 1 → b i = a i) :
    inversions (slice a lo hi) = inversions (slice b lo hi) + 1 := by
  have before : slice b lo j = slice a lo j :=
    slice_congr fun i _ _ => other i (by omega) (by omega)
  have behind : slice b (j + 1 + 1) hi = slice a (j + 1 + 1) hi :=
    slice_congr fun i _ _ => other i (by omega) (by omega)
  have cut : ∀ c : Int → α, slice c lo hi =
      slice c lo j ++ c j :: c (j + 1) :: slice c (j + 1 + 1) hi := fun c => by
    rw [slice_append j low (by omega), slice_succ (show j < hi by omega), slice_succ high]
  rw [cut a, cut b, before, behind, left, right]
  exact inversions_exchange less _ _

end Shang.Lib
