import Shang.Lib.Arith
import Shang.Lib.Places

/-!
# What the sorts share

`swap` of the sort programs' `func.c`, and what it means that a part of an array is
sorted. An array is all the `int`s in memory around it, so that an access outside
of the array is an access to a place that is not allowed.
-/

namespace Shang.Sort

open Shang.Lib Shang.Lib.Act Function

/-- The value of an `int` after an operation. -/
def wrap (x : Int) : Int := x.bmod (2 ^ 32)

theorem wrap_eq {x : Int} (isInt : IsInt x) : wrap x = x := by
  obtain ⟨low, high⟩ := isInt
  rw [wrap, Int.bmod]
  omega

theorem wrap_add (x y : Int) : wrap (wrap x + y) = wrap (x + y) := Int.bmod_add_bmod

variable {ι : Type} [DecidableEq ι]

/-- `swap(&arr[i], &arr[j])` -/
def swap (arr : Arr ι) (i j : Int) : Act (ι → Int) Unit := do
  let t ← load arr i
  let u ← load arr j
  store arr i u
  store arr j t

theorem swap_eq {arr : Arr ι} {i j : Int} (lowI : arr.lo ≤ i) (highI : i < arr.hi)
    (lowJ : arr.lo ≤ j) (highJ : j < arr.hi) (a : ι → Int) :
    swap arr i j a = .ended ()
      (update (update a (arr.place i) (a (arr.place j))) (arr.place j) (a (arr.place i))) := by
  rw [swap, bind_ended (load_eq lowI highI a), bind_ended (load_eq lowJ highJ a),
    bind_ended (store_eq lowI highI _ a), store_eq lowJ highJ]

theorem swap_plain {lo hi i j : Int} (lowI : lo ≤ i) (highI : i < hi) (lowJ : lo ≤ j)
    (highJ : j < hi) (a : Int → Int) :
    swap (.plain lo hi) i j a = .ended () (update (update a i (a j)) j (a i)) :=
  swap_eq lowI highI lowJ highJ a

/-- From `a` to `b` the places from `lo` on, before `hi`, have been put into nondecreasing order,
and the others left alone. -/
structure Sorted (lo hi : Int) (a b : Int → Int) : Prop where
  perm : (slice b lo hi).Perm (slice a lo hi)
  order : (slice b lo hi).Pairwise (· ≤ ·)
  frame : ∀ i, i < lo ∨ hi ≤ i → b i = a i

theorem Sorted.of_rearranged {lo hi : Int} {a b : Int → Int} {s : Set Int}
    (moved : Rearranged s a b) (inside : ∀ i ∈ s, lo ≤ i ∧ i < hi)
    (order : (slice b lo hi).Pairwise (· ≤ ·)) : Sorted lo hi a b := by
  refine ⟨moved.slice inside, order, fun i off => moved.of_notMem fun mem => ?_⟩
  obtain ⟨low, high⟩ := inside i mem
  omega

/-- There is one way to sort. -/
theorem Sorted.unique {lo hi : Int} {a b c : Int → Int} (sorted : Sorted lo hi a b)
    (sorted' : Sorted lo hi a c) : b = c := by
  have same : slice b lo hi = slice c lo hi :=
    (sorted.perm.trans sorted'.perm.symm).eq_of_pairwise (fun _ _ _ _ => Int.le_antisymm)
      sorted.order sorted'.order
  funext i
  by_cases inside : lo ≤ i ∧ i < hi
  · exact eq_of_slice_eq same inside.1 inside.2
  · rw [sorted.frame i (by omega), sorted'.frame i (by omega)]

end Shang.Sort
