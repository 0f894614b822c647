import Shang.Lib.Scan
import Shang.Sort.Func
import Mathlib

/-!
# Quicksort

`quick_sort_recursive` of `7.quick.c`. The last place holds the value to split by.
Two scans go towards each other over the other places and exchange what is on the
wrong side. Where they meet, the last value is put, unless it is in its place: this
happens only when the scan from the right has not moved.
-/

namespace Shang.Sort

open Shang.Lib Shang.Lib.Act Function

section Program

variable (len : Int)

/-- `while (arr[left] < mid && left < right) left++` -/
def scanLeft (mid right : Int) : Nat → Int → Act (Int → Int) Int
  | 0, _ => spent
  | fuel + 1, left => do
      let x ← load (.plain 0 len) left
      if x < mid ∧ left < right then scanLeft mid right fuel (left + 1) else pure left

/-- `while (arr[right] >= mid && left < right) right--` -/
def scanRight (mid left : Int) : Nat → Int → Act (Int → Int) Int
  | 0, _ => spent
  | fuel + 1, right => do
      let x ← load (.plain 0 len) right
      if x ≥ mid ∧ left < right then scanRight mid left fuel (right - 1) else pure right

/-- The body of `while (left < right)`. -/
def splitRound (mid : Int) (fuel : Nat) (left right : Int) : Act (Int → Int) (Int × Int) := do
  let left ← scanLeft len mid right fuel left
  let right ← scanRight len mid left fuel right
  swap (.plain 0 len) left right
  pure (left, right)

/-- `while (left < right)`, with `left` in the end. -/
def splitLoop (mid : Int) : Nat → Int → Int → Act (Int → Int) Int
  | 0, _, _ => spent
  | fuel + 1, left, right =>
      if left < right then do
        let (left, right) ← splitRound len mid fuel left right
        splitLoop mid fuel left right
      else pure left

/-- `if (arr[left] >= arr[end])` with both branches; `left` behind it. -/
def putMid (left end_ : Int) : Act (Int → Int) Int := do
  let x ← load (.plain 0 len) left
  let y ← load (.plain 0 len) end_
  if x ≥ y then do
    swap (.plain 0 len) left end_
    pure left
  else pure (left + 1)

/-- `quick_sort_recursive(arr, start, end)` -/
def quickSortRecursive : Nat → Int → Int → Act (Int → Int) Unit
  | 0, _, _ => spent
  | fuel + 1, start, end_ =>
      if start ≥ end_ then pure ()
      else do
        let mid ← load (.plain 0 len) end_
        let left ← splitLoop len mid fuel start (end_ - 1)
        let left ← putMid len left end_
        quickSortRecursive fuel start (left - 1)
        quickSortRecursive fuel (left + 1) end_

end Program

/-- `quick_sort_r(arr, len)` -/
def quickSortR (fuel : Nat) (len : Int) : Act (Int → Int) Unit :=
  quickSortRecursive len fuel 0 (len - 1)

/-! ## Splitting -/

variable {len : Int} {a b : Int → Int} {start end_ left right mid : Int} {fuel : Nat}

theorem scanLeft_eq (fuel : Nat) (left : Int) :
    scanLeft len mid right fuel left = scanUp (.plain 0 len) (· < mid) right fuel left := by
  induction fuel generalizing left with
  | zero => rfl
  | succ fuel ih => rw [scanLeft, scanUp, ih]

theorem scanRight_eq (fuel : Nat) (right : Int) :
    scanRight len mid left fuel right = scanDown (.plain 0 len) (· ≥ mid) left fuel right := by
  induction fuel generalizing right with
  | zero => rfl
  | succ fuel ih => rw [scanRight, scanDown, ih]

theorem scanLeft_spec (low : 0 ≤ left) (le : left ≤ right) (high : right < len)
    (enough : (right - left).toNat < fuel) :
    ∃ p, scanLeft len mid right fuel left a = .ended p a ∧ (left ≤ p ∧ p ≤ right) ∧
      (∀ i, left ≤ i → i < p → a i < mid) ∧ (p = right ∨ mid ≤ a p) := by
  obtain ⟨p, ran, inside, below, stop⟩ := scanUp_ended (· < mid) a le
  refine ⟨p, ?_, inside, below, stop.imp_right Int.not_lt.mp⟩
  rw [scanLeft_eq]
  exact ran low high (by omega)

theorem scanRight_spec (low : 0 ≤ left) (le : left ≤ right) (high : right < len)
    (enough : (right - left).toNat < fuel) :
    ∃ p, scanRight len mid left fuel right a = .ended p a ∧ (left ≤ p ∧ p ≤ right) ∧
      (∀ i, p < i → i ≤ right → mid ≤ a i) ∧ (p = left ∨ a p < mid) := by
  obtain ⟨p, ran, inside, above, stop⟩ := scanDown_ended (· ≥ mid) a le
  refine ⟨p, ?_, inside, above, stop.imp_right Int.not_le.mp⟩
  rw [scanRight_eq]
  exact ran low high (by omega)

/-- What is left of `left` is below `mid` and what is right of `right` is not, and neither is what
`right` stands on, once it has moved. -/
structure Split (start end_ mid left right : Int) (a : Int → Int) : Prop where
  order : start ≤ left ∧ left ≤ right ∧ right < end_
  below : ∀ i, start ≤ i → i < left → a i < mid
  above : ∀ i, right < i → i < end_ → mid ≤ a i
  moved : right = end_ - 1 ∨ mid ≤ a right

/-- One round. Either the two come closer, or they stood on values of the wrong side; these are
exchanged, so that they come closer in the next round. -/
theorem Split.round (split : Split start end_ mid left right a) (less : left < right)
    (low : 0 ≤ start) (high : end_ ≤ len) (enough : (right - left).toNat < fuel) :
    ∃ l r b, splitRound len mid fuel left right a = .ended (l, r) b ∧
      Split start end_ mid l r b ∧ Rearranged (Set.Ico start end_) a b ∧
      (r - l < right - left ∨ l = left ∧ r = right ∧ mid ≤ a left ∧ b left < mid) := by
  obtain ⟨order, below, above, moved⟩ := split
  obtain ⟨l, scannedL, insideL, belowL, stopL⟩ :
      ∃ l, scanLeft len mid right fuel left a = .ended l a ∧ _ ∧ _ ∧ _ :=
    scanLeft_spec (by omega) order.2.1 (by omega) enough
  obtain ⟨r, scannedR, insideR, aboveR, stopR⟩ :
      ∃ r, scanRight len mid l fuel right a = .ended r a ∧ _ ∧ _ ∧ _ :=
    scanRight_spec (by omega) insideL.2 (by omega) (by omega)
  have ran : splitRound len mid fuel left right a =
      .ended (l, r) (update (update a l (a r)) r (a l)) := by
    rw [splitRound, bind_ended scannedL, bind_ended scannedR,
      bind_ended (swap_plain (by omega) (by omega) (by omega) (by omega) a)]
    rfl
  have other : ∀ i, i ≠ l → i ≠ r → update (update a l (a r)) r (a l) i = a i :=
    fun i neL neR => by rw [update_of_ne neR, update_of_ne neL]
  have onRight : update (update a l (a r)) r (a l) r = a l := update_self _ _ _
  refine ⟨l, r, _, ran, ⟨by omega, fun i low high => ?_, fun i low high => ?_, ?_⟩, ?_, ?_⟩
  · rw [other i (by omega) (by omega)]
    by_cases passed : i < left
    · exact below i low passed
    · exact belowL i (by omega) high
  · rw [other i (by omega) (by omega)]
    by_cases passed : right < i
    · exact above i passed high
    · exact aboveR i low (by omega)
  · rw [onRight]
    rcases stopL with rfl | stop
    · obtain rfl : r = l := by omega
      exact moved
    · exact .inr stop
  · exact .exchange (Set.mem_Ico.mpr (by omega)) (Set.mem_Ico.mpr (by omega)) a
  · by_cases closer : r - l < right - left
    · exact .inl closer
    · obtain ⟨rfl, rfl⟩ : l = left ∧ r = right := by omega
      refine .inr ⟨rfl, rfl, stopL.resolve_left (by omega), ?_⟩
      rw [update_of_ne (by omega), update_self]
      exact stopR.resolve_left (by omega)

theorem splitLoop_spec (split : Split start end_ mid left right a)
    (low : 0 ≤ start) (high : end_ ≤ len)
    (enough : 2 * (right - left) + (if mid ≤ a left then 1 else 0) < fuel) :
    ∃ p b, splitLoop len mid fuel left right a = .ended p b ∧ Split start end_ mid p p b ∧
      Rearranged (Set.Ico start end_) a b := by
  induction fuel generalizing left right a with
  | zero =>
      have order := split.order
      split at enough <;> omega
  | succ fuel ih =>
      rw [splitLoop]
      by_cases more : left < right
      · rw [if_pos more]
        have wide : (right - left).toNat < fuel := by
          split at enough <;> omega
        obtain ⟨l, r, b, ran, split', moved, progress⟩ := split.round more low high wide
        have enough' : 2 * (r - l) + (if mid ≤ b l then 1 else 0) < fuel := by
          rcases progress with closer | ⟨rfl, rfl, high, low⟩
          · have one : (if mid ≤ b l then 1 else 0 : Int) ≤ 1 := by
              split <;> decide
            omega
          · rw [if_neg (Int.not_le.mpr low)]
            rw [if_pos high] at enough
            omega
        obtain ⟨p, c, rest, split'', moved'⟩ := ih split' enough'
        exact ⟨p, c, (bind_ended ran).trans rest, split'', moved.trans moved'⟩
      · have order := split.order
        obtain rfl : left = right := by omega
        rw [if_neg more]
        exact ⟨left, a, rfl, split, .refl _ a⟩

/-- The values around the place `q`. -/
structure Placed (start end_ mid q : Int) (a : Int → Int) : Prop where
  inside : start ≤ q ∧ q ≤ end_
  below : ∀ i, start ≤ i → i < q → a i ≤ mid
  here : a q = mid
  above : ∀ i, q < i → i ≤ end_ → mid ≤ a i

/-- Where the two have met, the last value is in its place, or behind it when only the left one has
moved. -/
theorem Split.putMid (split : Split start end_ (a end_) left left a) (low : 0 ≤ start)
    (high : end_ < len) :
    ∃ q b, Sort.putMid len left end_ a = .ended q b ∧ Placed start end_ (a end_) q b ∧
      Rearranged (Set.Icc start end_) a b := by
  obtain ⟨order, below, above, moved⟩ := split
  rw [Sort.putMid, bind_ended (load_plain (by omega) (by omega) a),
    bind_ended (load_plain (by omega) high a)]
  by_cases larger : a left ≥ a end_
  · rw [if_pos larger, bind_ended (swap_plain (by omega) (by omega) (by omega) high a)]
    refine ⟨left, _, rfl, ⟨by omega, fun i low less => ?_, ?_, fun i less high => ?_⟩,
      .exchange (Set.mem_Icc.mpr (by omega)) (Set.mem_Icc.mpr (by omega)) a⟩
    · rw [update_of_ne (by omega), update_of_ne (by omega)]
      exact Int.le_of_lt (below i low less)
    · rw [update_of_ne (by omega), update_self]
    · by_cases last : i = end_
      · rwa [last, update_self]
      · rw [update_of_ne last, update_of_ne (by omega)]
        exact above i less (by omega)
  · rw [if_neg larger]
    obtain rfl : left = end_ - 1 := moved.resolve_right larger
    refine ⟨end_ - 1 + 1, a, rfl, ⟨by omega, fun i low less => ?_, by congr 1; omega,
      fun i less high => by omega⟩, .refl _ a⟩
    by_cases last : i = end_ - 1
    · rw [last]
      omega
    · exact Int.le_of_lt (below i low (by omega))

/-! ## Sorting -/

/-- A value in its place between two sorted sides. -/
theorem Placed.order {c d e : Int → Int} {q : Int} (placed : Placed start end_ mid q c)
    (movedL : Rearranged (Set.Icc start (q - 1)) c d)
    (orderL : ∀ i j, start ≤ i → i ≤ j → j ≤ q - 1 → d i ≤ d j)
    (movedR : Rearranged (Set.Icc (q + 1) end_) d e)
    (orderR : ∀ i j, q + 1 ≤ i → i ≤ j → j ≤ end_ → e i ≤ e j) :
    ∀ i j, start ≤ i → i ≤ j → j ≤ end_ → e i ≤ e j := by
  obtain ⟨inside, below, here, above⟩ := placed
  have offL : ∀ i, q ≤ i → d i = c i := fun i low =>
    movedL.of_notMem fun mem => absurd mem.2 (by omega)
  have offR : ∀ i, i ≤ q → e i = d i := fun i high =>
    movedR.of_notMem fun mem => absurd mem.1 (by omega)
  have small : ∀ i, start ≤ i → i < q → e i ≤ mid := by
    intro i low high
    rw [offR i (by omega)]
    refine movedL.forall_mem (p := (· ≤ mid)) (fun i mem => ?_) i ⟨low, by omega⟩
    obtain ⟨low, high⟩ := mem
    exact below i low (by omega)
  have large : ∀ i, q < i → i ≤ end_ → mid ≤ e i := by
    intro i low high
    refine movedR.forall_mem (p := (mid ≤ ·)) (fun i mem => ?_) i ⟨low, high⟩
    obtain ⟨low, high⟩ := mem
    rw [offL i (by omega)]
    exact above i (by omega) high
  have middle : e q = mid := by rw [offR q (by omega), offL q (by omega), here]
  intro i j low le high
  rcases Int.lt_trichotomy i q with left | rfl | right
  · rcases Int.lt_trichotomy j q with left' | rfl | right'
    · rw [offR i (by omega), offR j (by omega)]
      exact orderL i j low le (by omega)
    · rw [middle]
      exact small i low left
    · exact Int.le_trans (small i low left) (large j right' high)
  · rw [middle]
    rcases Int.le_iff_eq_or_lt.mp le with rfl | right'
    · exact Int.le_of_eq middle.symm
    · exact large j right' high
  · exact orderR i j right le high

/-- When the sides are sorted, all of it is. -/
theorem Placed.sorted {c d e : Int → Int} {q : Int} (placed : Placed start end_ mid q c)
    (moved : Rearranged (Set.Icc start end_) a c)
    (left : Rearranged (Set.Icc start (q - 1)) c d ∧
      ∀ i j, start ≤ i → i ≤ j → j ≤ q - 1 → d i ≤ d j)
    (right : Rearranged (Set.Icc (q + 1) end_) d e ∧
      ∀ i j, q + 1 ≤ i → i ≤ j → j ≤ end_ → e i ≤ e j) :
    Rearranged (Set.Icc start end_) a e ∧ ∀ i j, start ≤ i → i ≤ j → j ≤ end_ → e i ≤ e j := by
  have inside := placed.inside
  have first := left.1.mono (Set.Icc_subset_Icc_right (by omega : q - 1 ≤ end_))
  have second := right.1.mono (Set.Icc_subset_Icc_left (by omega : start ≤ q + 1))
  exact ⟨(moved.trans first).trans second, placed.order left.1 left.2 right.1 right.2⟩

/-- An array of `len` values whose last place is `len - 1`. -/
theorem Sorted.of_last (moved : Rearranged (Set.Icc 0 (len - 1)) a b)
    (order : ∀ i j, 0 ≤ i → i ≤ j → j ≤ len - 1 → b i ≤ b j) : Sorted 0 len a b := by
  refine .of_rearranged moved (fun i mem => ?_) (pairwise_slice_iff.mpr fun i j low le high =>
    order i j low le (by omega))
  have high := mem.2
  exact ⟨mem.1, by omega⟩

/-- Both sides are sorted on their own, and the values of one side stay on this side. -/
theorem quickSortRecursive_spec (low : 0 ≤ start) (high : end_ < len)
    (enough : 2 * (end_ - start + 1).toNat < fuel) :
    ∃ b, quickSortRecursive len fuel start end_ a = .ended () b ∧
      Rearranged (Set.Icc start end_) a b ∧
      ∀ i j, start ≤ i → i ≤ j → j ≤ end_ → b i ≤ b j := by
  induction fuel generalizing start end_ a with
  | zero => omega
  | succ fuel ih =>
      rw [quickSortRecursive]
      by_cases short : start ≥ end_
      · rw [if_pos short]
        refine ⟨a, rfl, .refl _ a, fun i j low le high => ?_⟩
        rw [show i = j by omega]
      rw [if_neg short, bind_ended (load_plain (by omega) high a)]
      have begins : Split start end_ (a end_) start (end_ - 1) a :=
        ⟨by omega, fun i low high => by omega, fun i low high => by omega, .inl rfl⟩
      obtain ⟨p, b, ran, split, moved⟩ :
          ∃ p b, splitLoop len (a end_) fuel start (end_ - 1) a = .ended p b ∧ _ ∧ _ :=
        splitLoop_spec begins low (by omega) (by split <;> omega)
      have mid : b end_ = a end_ := moved.of_notMem fun mem => Int.lt_irrefl _ mem.2
      rw [bind_ended ran]
      rw [← mid] at split
      have order := split.order
      obtain ⟨q, c, put, placed, moved'⟩ :=
        split.putMid low high
      rw [bind_ended put]
      have inside := placed.inside
      obtain ⟨d, sortedL, movedL, orderL⟩ :
          ∃ d, quickSortRecursive len fuel start (q - 1) c = .ended () d ∧ _ ∧ _ :=
        ih low (by omega) (by omega)
      obtain ⟨e, sortedR, movedR, orderR⟩ :
          ∃ e, quickSortRecursive len fuel (q + 1) end_ d = .ended () e ∧ _ ∧ _ :=
        ih (by omega) high (by omega)
      have part : Rearranged (Set.Icc start end_) a c :=
        (moved.mono Set.Ico_subset_Icc_self).trans moved'
      exact ⟨e, (bind_ended sortedL).trans sortedR,
        placed.sorted part ⟨movedL, orderL⟩ ⟨movedR, orderR⟩⟩

/-- `quick_sort_r` sorts the array and touches nothing else. -/
theorem quickSortR_sorted {len : Int} (nonneg : 0 ≤ len) (enough : 2 * len < fuel)
    (a : Int → Int) :
    ∃ b, quickSortR fuel len a = .ended () b ∧ Sorted 0 len a b := by
  obtain ⟨b, sorted, moved, order⟩ :
      ∃ b, quickSortR fuel len a = .ended () b ∧ _ ∧ _ :=
    quickSortRecursive_spec (Int.le_refl 0) (by omega) (by omega)
  exact ⟨b, sorted, .of_last moved order⟩

/-- The values 1, 1, 0, 1. -/
theorem quickSortR_sorted_four :
    ∃ b, quickSortR 9 4 (fun i => if i = 2 then 0 else 1) = .ended () b ∧
      Sorted 0 4 (fun i => if i = 2 then 0 else 1) b :=
  quickSortR_sorted (by decide) (by decide) _

end Shang.Sort
