import Shang.Lib.Loop
import Shang.Lib.Places
import Mathlib.Algebra.GroupWithZero.Nat

/-!
# Binary search

`bin_search_while` and `bin_search_recursion` of `1.binary_search.c`. Both compare
`arr[mid] < find` twice where the second comparison should be the other way, so the
interval is cut on the left only, and the first probe that is not below the key ends
the search. The probes are the same for every array: `probe num j` for `j` from 1 on.
-/

namespace Shang.Find

open Shang.Lib Shang.Lib.Act

section Program

variable (num find : Int)

/-- `low + (high - low) / 2` -/
def mid (low high : Int) : Int := low + (high - low) / 2

/-- The body of the loop in `bin_search_while`. -/
def whileBody (t : Int × Int) : Act (Int → Int) (Lib.Flow (Int × Int) Int) := do
  let mid := mid t.1 t.2
  let x ← load (.plain 0 num) mid
  if x < find then pure (.next (mid + 1, t.2))
  else if x < find then pure (.next (t.1, mid - 1))
  else pure (.ret mid)

/-- `bin_search_while(arr, num, find)` -/
def binSearchWhile (fuel : Nat) : Act (Int → Int) Int :=
  whileLoop (fun t => t.1 ≤ t.2) (whileBody num find) (fun _ => pure (-1)) fuel (0, num - 1)

/-- `inner_func(arr, low, high, find)`; fuel bounds the depth of the calls and the rounds. -/
def innerFunc : Nat → Int → Int → Act (Int → Int) Int
  | 0, _, _ => spent
  | fuel + 1, low, high =>
      whileLoop (fun t : Int × Int => t.1 ≤ t.2)
        (fun t => do
          let mid := mid t.1 t.2
          let x ← load (.plain 0 num) mid
          if x < find then do
            let r ← innerFunc fuel (mid + 1) t.2
            pure (.ret r)
          else if x < find then do
            let r ← innerFunc fuel t.1 (mid - 1)
            pure (.ret r)
          else pure (.ret mid))
        (fun _ => pure (-1)) (fuel + 1) (low, high)

/-- `bin_search_recursion(arr, num, find)` -/
def binSearchRecursion (fuel : Nat) : Act (Int → Int) Int := innerFunc num find fuel 0 (num - 1)

end Program

/-! ## One probe -/

variable {num find low high : Int} {a : Int → Int} {fuel : Nat}

theorem mid_inside (some : low ≤ high) : low ≤ mid low high ∧ mid low high ≤ high := by
  rw [mid]
  omega

theorem whileBody_less (low0 : 0 ≤ low) (some : low ≤ high) (inside : high < num)
    (less : a (mid low high) < find) :
    whileBody num find (low, high) a = .ended (.next (mid low high + 1, high)) a := by
  obtain ⟨first, last⟩ := mid_inside some
  rw [whileBody]
  dsimp only
  rw [bind_ended (load_plain (by omega) (by omega) a), if_pos less]
  rfl

theorem whileBody_found (low0 : 0 ≤ low) (some : low ≤ high) (inside : high < num)
    (notLess : ¬ a (mid low high) < find) :
    whileBody num find (low, high) a = .ended (.ret (mid low high)) a := by
  obtain ⟨first, last⟩ := mid_inside some
  rw [whileBody]
  dsimp only
  rw [bind_ended (load_plain (by omega) (by omega) a), if_neg notLess, if_neg notLess]
  rfl

theorem innerFunc_none (none : high < low) :
    innerFunc num find (fuel + 1) low high a = .ended (-1) a := by
  rw [innerFunc]
  exact whileLoop_done (decide_eq_false (by dsimp only; omega))

theorem innerFunc_less (low0 : 0 ≤ low) (some : low ≤ high) (inside : high < num)
    (less : a (mid low high) < find) {r : Int}
    (ran : innerFunc num find fuel (mid low high + 1) high a = .ended r a) :
    innerFunc num find (fuel + 1) low high a = .ended r a := by
  obtain ⟨first, last⟩ := mid_inside some
  rw [innerFunc]
  refine whileLoop_ret (decide_eq_true some) ?_
  dsimp only
  rw [bind_ended (load_plain (by omega) (by omega) a), if_pos less, bind_ended ran]
  rfl

theorem innerFunc_found (low0 : 0 ≤ low) (some : low ≤ high) (inside : high < num)
    (notLess : ¬ a (mid low high) < find) :
    innerFunc num find (fuel + 1) low high a = .ended (mid low high) a := by
  obtain ⟨first, last⟩ := mid_inside some
  rw [innerFunc]
  refine whileLoop_ret (decide_eq_true some) ?_
  dsimp only
  rw [bind_ended (load_plain (by omega) (by omega) a), if_neg notLess, if_neg notLess]
  rfl

/-! ## The probes

With `m` elements left the interval is the last `m` indices of the array.
-/

/-- The index of the `j`-th probe in `num` elements. -/
def probe (num j : Nat) : Int := (num : Int) - 1 - (num / 2 ^ j : Nat)

/-- From `m` elements on, the search comes to the end `r`. -/
inductive Probed (a : Int → Int) (num : Nat) (find : Int) : Nat → Int → Prop
  | none : Probed a num find 0 (-1)
  | found {m : Nat} (some : 0 < m) (notLess : ¬ a (num - 1 - (m / 2 : Nat)) < find) :
      Probed a num find m (num - 1 - (m / 2 : Nat))
  | less {m : Nat} {r : Int} (some : 0 < m) (less : a (num - 1 - (m / 2 : Nat)) < find)
      (rest : Probed a num find (m / 2) r) : Probed a num find m r

section Probed

variable {n m : Nat} {r : Int}

theorem mid_last : mid ((n : Int) - m) (n - 1) = n - 1 - (m / 2 : Nat) := by
  rw [mid]
  omega

/-- Behind the probe half of the elements are left. -/
theorem mid_next : (n : Int) - (m / 2 : Nat) = mid ((n : Int) - m) (n - 1) + 1 := by
  rw [mid_last]
  omega

theorem exists_probed (a : Int → Int) (n : Nat) (find : Int) (m : Nat) :
    ∃ r, Probed a n find m r := by
  induction m using Nat.strong_induction_on with
  | h m ih =>
      rcases Nat.eq_zero_or_pos m with rfl | some
      · exact ⟨-1, .none⟩
      · by_cases less : a (n - 1 - (m / 2 : Nat)) < find
        · obtain ⟨r, rest⟩ := ih (m / 2) (by omega)
          exact ⟨r, .less some less rest⟩
        · exact ⟨_, .found some less⟩

theorem Probed.loops (probed : Probed a n find m r) (inside : m ≤ n)
    (enough : m < fuel) :
    whileLoop (fun t => t.1 ≤ t.2) (whileBody n find) (fun _ => pure (-1)) fuel
      ((n : Int) - m, (n : Int) - 1) a = .ended r a := by
  induction probed generalizing fuel with
  | none =>
      obtain ⟨fuel, rfl⟩ := Nat.exists_eq_add_one.mpr enough
      exact whileLoop_done (decide_eq_false (by dsimp only; omega))
  | @found m some notLess =>
      obtain ⟨fuel, rfl⟩ := Nat.exists_eq_add_one.mpr (Nat.zero_lt_of_lt enough)
      rw [← mid_last] at notLess ⊢
      exact whileLoop_ret (decide_eq_true (by dsimp only; omega))
        (whileBody_found (by omega) (by omega) (by omega) notLess)
  | @less m r some less rest ih =>
      obtain ⟨fuel, rfl⟩ := Nat.exists_eq_add_one.mpr (Nat.zero_lt_of_lt enough)
      have ran := @ih fuel (by omega) (by omega)
      rw [mid_next] at ran
      rw [← mid_last] at less
      refine (whileLoop_next ?_ (whileBody_less (by omega) (by omega) (by omega) less)).trans ran
      exact decide_eq_true (by dsimp only; omega)

theorem Probed.calls (probed : Probed a n find m r) (inside : m ≤ n) (enough : m < fuel) :
    innerFunc n find fuel ((n : Int) - m) ((n : Int) - 1) a = .ended r a := by
  induction probed generalizing fuel with
  | none =>
      obtain ⟨fuel, rfl⟩ := Nat.exists_eq_add_one.mpr enough
      exact innerFunc_none (by omega)
  | @found m some notLess =>
      obtain ⟨fuel, rfl⟩ := Nat.exists_eq_add_one.mpr (Nat.zero_lt_of_lt enough)
      rw [← mid_last] at notLess ⊢
      exact innerFunc_found (by omega) (by omega) (by omega) notLess
  | @less m r some less rest ih =>
      obtain ⟨fuel, rfl⟩ := Nat.exists_eq_add_one.mpr (Nat.zero_lt_of_lt enough)
      rw [← mid_last] at less
      refine innerFunc_less (by omega) (by omega) (by omega) less ?_
      rw [← mid_next]
      exact ih (by omega) (by omega)

/-- The search ends at the first probe that is not below the key, or without one. -/
theorem Probed.first (probed : Probed a n find m r) :
    (r = -1 ∧ (0 < m → ∀ j, a (n - 1 - (m / 2 ^ (j + 1) : Nat)) < find)) ∨
      ∃ j, r = n - 1 - (m / 2 ^ (j + 1) : Nat) ∧ 0 < m ∧ ¬ a r < find ∧
        ∀ i < j, a (n - 1 - (m / 2 ^ (i + 1) : Nat)) < find := by
  have halved (m j : Nat) : m / 2 ^ (j + 1) = m / 2 / 2 ^ j := by
    rw [Nat.pow_succ, Nat.mul_comm, Nat.div_div_eq_div_mul]
  induction probed with
  | none => exact .inl ⟨rfl, fun some => absurd some (Nat.lt_irrefl 0)⟩
  | @found m some notLess => exact .inr ⟨0, rfl, some, notLess, fun i before => by omega⟩
  | @less m r some less rest ih =>
      rcases ih with ⟨rfl, all⟩ | ⟨j, here, -, notLess, before⟩
      · refine .inl ⟨rfl, fun _ j => ?_⟩
        rcases Nat.eq_zero_or_pos (m / 2) with one | more
        · rw [halved, one, Nat.zero_div]
          rwa [one] at less
        · cases j with
          | zero => exact less
          | succ j =>
              rw [halved]
              exact all more j
      · refine .inr ⟨j + 1, ?_, some, notLess, fun i earlier => ?_⟩
        · rw [halved]
          exact here
        · cases i with
          | zero => exact less
          | succ i =>
              rw [halved]
              exact before i (by omega)

end Probed

theorem Probed.ends {num : Nat} {r : Int} (probed : Probed a num find num r) (fuel : Nat)
    (enough : num < fuel) : binSearchWhile num find fuel a = .ended r a ∧
      binSearchRecursion num find fuel a = .ended r a := by
  constructor
  · have ran := probed.loops (Nat.le_refl _) enough
    rwa [Int.sub_self] at ran
  · have ran := probed.calls (Nat.le_refl _) enough
    rwa [Int.sub_self] at ran

/-- Both functions end with one and the same result, having read `arr[0..num-1]` only. -/
theorem binSearch_agree (a : Int → Int) (num : Nat) (find : Int) :
    ∃ r, ∀ fuel, num < fuel → binSearchWhile num find fuel a = .ended r a ∧
      binSearchRecursion num find fuel a = .ended r a := by
  obtain ⟨r, probed⟩ := exists_probed a num find num
  exact ⟨r, probed.ends⟩

/-! ## What is found -/

/-- The index of the key, or -1 if the key is not there. -/
def Found (a : Int → Int) (num : Nat) (find r : Int) : Prop :=
  (0 ≤ r ∧ r < num ∧ a r = find) ∨ (r = -1 ∧ ∀ i : Int, 0 ≤ i → i < num → a i ≠ find)

/-- A function that finds what is there, with any fuel above the number of elements. -/
def Searches (search : Nat → Act (Int → Int) Int) (a : Int → Int) (num : Nat) (find : Int) : Prop :=
  ∃ r, (∀ fuel, num < fuel → search fuel a = .ended r a) ∧ Found a num find r

theorem probe_inside {num : Nat} (some : 0 < num) (j : Nat) :
    0 ≤ probe num (j + 1) ∧ probe num (j + 1) < num := by
  have less : num / 2 ^ (j + 1) < num := Nat.div_lt_self some (Nat.one_lt_pow (by omega) (by omega))
  rw [probe]
  generalize num / 2 ^ (j + 1) = left at less
  omega

theorem probe_mono (num : Nat) {i j : Nat} (before : i ≤ j) : probe num i ≤ probe num j := by
  have less : num / 2 ^ j ≤ num / 2 ^ i :=
    Nat.div_le_div_left (Nat.pow_le_pow_right (by omega) before) (Nat.pow_pos (by omega))
  rw [probe, probe]
  omega

/-- From some probe on it is the last element. -/
theorem probe_last {num : Nat} : probe num (num + 1) = num - 1 := by
  have less : num < 2 ^ (num + 1) := (Nat.lt_succ_self num).trans Nat.lt_two_pow_self
  rw [probe, Nat.div_eq_of_lt less]
  omega

/-- The end of the search is right if and only if no key is at or above `find`, or the key is at
a probe. -/
theorem Probed.found_iff {num : Nat} {r : Int} (probed : Probed a num find num r)
    (sorted : ∀ i j : Int, 0 ≤ i → i ≤ j → j < num → a i ≤ a j) :
    Found a num find r ↔
      (∀ i : Int, 0 ≤ i → i < num → a i < find) ∨ ∃ j, a (probe num (j + 1)) = find := by
  rcases probed.first with ⟨rfl, all⟩ | ⟨j, here, some, notLess, before⟩
  · constructor
    · intro _
      refine .inl fun i low high => ?_
      have last : a (probe num (num + 1)) < find := all (by omega) num
      rw [probe_last] at last
      exact (sorted i (num - 1) low (by omega) (by omega)).trans_lt last
    · rintro (less | ⟨j, hit⟩)
      · exact .inr ⟨rfl, fun i low high => (less i low high).ne⟩
      · refine .inr ⟨rfl, fun i low high => absurd hit ?_⟩
        exact (all (by omega) j).ne
  · change r = probe num (j + 1) at here
    obtain ⟨low, high⟩ := probe_inside some j
    constructor
    · rintro (⟨-, -, hit⟩ | ⟨none, -⟩)
      · exact .inr ⟨j, here ▸ hit⟩
      · omega
    · rw [here] at notLess ⊢
      rintro (less | ⟨j', hit⟩)
      · exact absurd (less _ low high) notLess
      · have after : j ≤ j' := by
          by_contra earlier
          exact (before j' (by omega)).ne hit
        obtain ⟨low', high'⟩ := probe_inside some j'
        have below := sorted _ _ low (probe_mono num (Nat.succ_le_succ after)) high'
        exact .inl ⟨low, high, (below.trans_eq hit).antisymm (Int.not_lt.mp notLess)⟩

/-- In a sorted array both functions find a key, or that it is not there, if and only if it is
above every element or is at one of the places `num - 1 - num / 2 ^ (j + 1)`. -/
theorem binSearch_finds_iff (a : Int → Int) (num : Nat) (find : Int)
    (sorted : ∀ i j : Int, 0 ≤ i → i ≤ j → j < num → a i ≤ a j) :
    Searches (binSearchWhile num find) a num find ∧
        Searches (binSearchRecursion num find) a num find ↔
      (∀ i : Int, 0 ≤ i → i < num → a i < find) ∨ ∃ j, a (probe num (j + 1)) = find := by
  obtain ⟨r, probed⟩ := exists_probed a num find num
  have ran := probed.ends
  rw [← probed.found_iff sorted]
  constructor
  · rintro ⟨⟨r', ended, found⟩, -⟩
    have enough := Nat.lt_succ_self num
    cases (ran _ enough).1.symm.trans (ended _ enough)
    exact found
  · intro found
    exact ⟨⟨r, fun fuel enough => (ran fuel enough).1, found⟩,
      ⟨r, fun fuel enough => (ran fuel enough).2, found⟩⟩

theorem binSearch_finds_iff_three :
    Searches (binSearchWhile 3 2) id 3 2 ∧ Searches (binSearchRecursion 3 2) id 3 2 ↔
      (∀ i : Int, 0 ≤ i → i < 3 → id i < (2 : Int)) ∨ ∃ j, id (probe 3 (j + 1)) = (2 : Int) :=
  binSearch_finds_iff id 3 2 fun _ _ _ before _ => before

theorem not_searches {search : Nat → Act (Int → Int) Int} {num : Nat} {r : Int}
    (ran : search (num + 1) a = .ended r a) (wrong : ¬ Found a num find r) :
    ¬ Searches search a num find := by
  rintro ⟨r', ended, found⟩
  cases ran.symm.trans (ended _ (Nat.lt_succ_self num))
  exact wrong found

/-- In 0, 1, 2 the search for the first element ends at the second one. -/
theorem binSearch_astray :
    (∀ i j : Int, 0 ≤ i → i ≤ j → j < 3 → id i ≤ id j) ∧
      binSearchWhile 3 0 4 id = .ended 1 id ∧ binSearchRecursion 3 0 4 id = .ended 1 id ∧
      ¬ Searches (binSearchWhile 3 0) id 3 0 ∧ ¬ Searches (binSearchRecursion 3 0) id 3 0 := by
  have wrong : ¬ Found id 3 0 1 := by
    rintro (⟨-, -, hit⟩ | ⟨none, -⟩)
    · cases hit
    · cases none
  exact ⟨fun _ _ _ before _ => before, rfl, rfl, not_searches rfl wrong, not_searches rfl wrong⟩

end Shang.Find
