import Shang.Sort.Insert

/-!
# Bubble sorts

`bubble_version1` and `bubble_version2` of `1.bubble.c`. The second one stops after a
pass without an exchange; the flag that it keeps for this is there in both, and the
first one does not look at it.

Every exchange is of two neighbours and takes one inversion away, as does every move
of `insert_sort1` but the one that puts `tmp` down. So what the sorts count as moves
is known from the array alone.
-/

namespace Shang.Sort

open Shang.Lib Shang.Lib.Act Function

section Program

variable (num : Int)

/-- `for (j = 0; j < num - i - 1; j++)`, from `j` on, with `last` for `num - i - 1`. -/
def exchangeLoop (last : Int) : Nat → Int → Counts → Int → Act (Int → Int) (Counts × Int)
  | 0, _, _, _ => spent
  | fuel + 1, j, counts, flag =>
      if j < last then do
        let x ← load (.plain 0 num) j
        let y ← load (.plain 0 num) (j + 1)
        if x > y then do
          swap (.plain 0 num) j (j + 1)
          exchangeLoop last fuel (j + 1) (counts.moved 3).compared 1
        else exchangeLoop last fuel (j + 1) counts.compared flag
      else pure (counts, flag)

/-- `for (i = 0; i < num - 1; i++)`, from `i` on; `early` if it ends after a pass without an
exchange. -/
def bubbleLoop (early : Bool) : Nat → Int → Counts → Act (Int → Int) Counts
  | 0, _, _ => spent
  | fuel + 1, i, counts =>
      if i < num - 1 then do
        let (counts, flag) ← exchangeLoop num (num - i - 1) fuel 0 counts 0
        if early = true ∧ flag = 0 then pure counts else bubbleLoop early fuel (i + 1) counts
      else pure counts

end Program

/-- `bubble_version1(arr, num)`, with the three numbers that it prints. -/
def bubbleVersion1 (fuel : Nat) (num : Int) : Act (Int → Int) (Int × Int × Int) := do
  let counts ← bubbleLoop num false fuel 0 ⟨0, 0⟩
  pure counts.report

/-- `bubble_version2(arr, num)`, with the three numbers that it prints. -/
def bubbleVersion2 (fuel : Nat) (num : Int) : Act (Int → Int) (Int × Int × Int) := do
  let counts ← bubbleLoop num true fuel 0 ⟨0, 0⟩
  pure counts.report

/-! ## A pass -/

variable {num last i j c m flag : Int} {a b : Int → Int} {counts : Counts} {fuel n : Nat}

/-- The state of a pass at `j` that began with `a`, after `n` exchanges. -/
structure Passed (num last : Int) (a : Int → Int) (j : Int) (n : Nat) (flag : Int)
    (b : Int → Int) : Prop where
  greatest : ∀ p, 0 ≤ p → p ≤ j → b p ≤ b j
  rearranged : Rearranged (Set.Ico 0 (last + 1)) a b
  count : inversions (slice b 0 num) + n = inversions (slice a 0 num)
  unflagged : flag = 0 → ∀ p, 0 ≤ p → p < j → b p ≤ b (p + 1)

theorem Passed.exchange (passed : Passed num last a j n flag b) (low : 0 ≤ j) (more : j < last)
    (inside : last < num) (greater : b (j + 1) < b j) :
    Passed num last a (j + 1) (n + 1) 1 (update (update b j (b (j + 1))) (j + 1) (b j)) := by
  obtain ⟨greatest, rearranged, count, -⟩ := passed
  obtain ⟨left, right, other⟩ := update_exchange (show j ≠ j + 1 by omega) b
  have here : j ∈ Set.Ico 0 (last + 1) := ⟨low, by omega⟩
  have next : j + 1 ∈ Set.Ico 0 (last + 1) := ⟨by omega, by omega⟩
  have less := inversions_slice low (show j + 1 < num by omega) greater left right other
  refine ⟨fun p lowP le => ?_, rearranged.trans (.exchange here next b), by omega,
    fun none => absurd none (by decide)⟩
  rw [right]
  by_cases last : p = j + 1
  · rw [last, right]
  · by_cases first : p = j
    · rw [first, left]
      exact Int.le_of_lt greater
    · rw [other p first last]
      exact greatest p lowP (by omega)

theorem Passed.keep (passed : Passed num last a j n flag b) (le : b j ≤ b (j + 1)) :
    Passed num last a (j + 1) n flag b := by
  obtain ⟨greatest, rearranged, count, unflagged⟩ := passed
  refine ⟨fun p lowP high => ?_, rearranged, count, fun none p lowP less => ?_⟩
  · by_cases last : p = j + 1
    · rw [last]
    · exact Int.le_trans (greatest p lowP (by omega)) le
  · by_cases here : p = j
    · rwa [here]
    · exact unflagged none p lowP (by omega)

/-- A pass comes to its end. -/
theorem exchangeLoop_spec (passed : Passed num last a j n flag b) (low : 0 ≤ j) (le : j ≤ last)
    (inside : last < num) (compares : counts.compareTimes = wrap c)
    (moves : counts.moveTimes = wrap (m + 3 * n)) (enough : (last - j).toNat < fuel) :
    ∃ (k : Nat) (flag' : Int) (d : Int → Int) (after : Counts),
      exchangeLoop num last fuel j counts flag b = .ended (after, flag') d ∧
      Passed num last a last k flag' d ∧ after.compareTimes = wrap (c + (last - j)) ∧
      after.moveTimes = wrap (m + 3 * k) := by
  induction fuel generalizing j n flag b counts c with
  | zero => omega
  | succ fuel ih =>
      rw [exchangeLoop]
      by_cases more : j < last
      case neg =>
        obtain rfl : j = last := by omega
        rw [if_neg more]
        exact ⟨n, flag, b, counts, rfl, passed,
          by rw [compares, Int.sub_self, Int.add_zero], moves⟩
      have rest : c + 1 + (last - (j + 1)) = c + (last - j) := by omega
      rw [if_pos more, bind_ended (load_plain low (by omega) b),
        bind_ended (load_plain (by omega) (by omega) b)]
      by_cases greater : b j > b (j + 1)
      · have compared : (counts.moved 3).compared.compareTimes = wrap (c + 1) := by
          rw [Counts.compared, Counts.moved, compares, wrap_add]
        have moved : (counts.moved 3).compared.moveTimes = wrap (m + 3 * (n + 1 : Nat)) := by
          rw [Counts.compared, Counts.moved, moves, wrap_add, Int.natCast_succ, Int.mul_add,
            Int.add_assoc, Int.mul_one]
        have next := ih (passed.exchange low more inside greater) (by omega) (by omega) compared
          moved (by omega)
        rw [rest] at next
        rwa [if_pos greater, bind_ended (swap_plain low (by omega) (by omega) (by omega) b)]
      · have compared : counts.compared.compareTimes = wrap (c + 1) := by
          rw [Counts.compared, compares, wrap_add]
        have next := ih (passed.keep (by omega)) (by omega) (by omega) compared moves (by omega)
        rw [rest] at next
        rwa [if_neg greater]

/-! ## The passes -/

/-- After `i` passes with `c` comparisons and `m` moves: the last `i` places have their values. -/
structure Bubbled (num : Int) (a : Int → Int) (i c m : Int) (b : Int → Int) : Prop where
  low : 0 ≤ i
  high : i ≤ max (num - 1) 0
  placed : ∀ p q, 0 ≤ p → p ≤ q → num - i ≤ q → q < num → b p ≤ b q
  rearranged : Rearranged (Set.Ico 0 num) a b
  counted : 0 ≤ c
  compares : 2 * c = i * (2 * num - i - 1)
  moves : 3 * (inversions (slice b 0 num) : Int) + m = 3 * inversions (slice a 0 num)

theorem Bubbled.start (num : Int) (a : Int → Int) : Bubbled num a 0 0 0 a where
  low := Int.le_refl 0
  high := Int.le_max_right _ _
  placed p q _ le far high := by omega
  rearranged := .refl _ a
  counted := Int.le_refl 0
  compares := (Int.zero_mul _).symm
  moves := Int.add_zero _

theorem Bubbled.step {d : Int → Int} (bubbled : Bubbled num a i c m b) (more : i < num - 1)
    (passed : Passed num (num - i - 1) b (num - i - 1) n flag d) :
    Bubbled num a (i + 1) (c + (num - i - 1)) (m + 3 * n) d := by
  obtain ⟨low, -, placed, rearranged, counted, compares, moves⟩ := bubbled
  obtain ⟨greatest, rearranged', count, -⟩ := passed
  have sub : Set.Ico 0 (num - i - 1 + 1) ⊆ Set.Ico 0 num := Set.Ico_subset_Ico_right (by omega)
  have behind : ∀ q, num - i ≤ q → d q = b q := fun q far =>
    rearranged'.of_notMem fun mem => by
      have high := mem.2
      omega
  have total : 2 * (c + (num - i - 1)) = (i + 1) * (2 * num - (i + 1) - 1) := by
    linarith
  refine ⟨by omega, by omega, fun p q lowP le far high => ?_,
    rearranged.trans (rearranged'.mono sub), by omega, total, by omega⟩
  by_cases last : q = num - i - 1
  · rw [last]
    exact greatest p lowP (by omega)
  · rw [behind q (by omega)]
    by_cases inside : p < num - i
    · exact rearranged'.forall_mem (p := (· ≤ b q))
        (fun r mem => placed r q mem.1 (by have high := mem.2; omega) (by omega) high) p
        ⟨lowP, by omega⟩
    · rw [behind p (by omega)]
      exact placed p q lowP le (by omega) high

/-- What both sorts come to, with `c` comparisons. -/
structure BubbleSorted (num : Int) (a : Int → Int) (c m : Int) (b : Int → Int) : Prop where
  sorted : Sorted 0 num a b
  moves : m = 3 * inversions (slice a 0 num)
  counted : 0 ≤ c
  compares : 2 * c ≤ num * (num - 1)

theorem Bubbled.sorted (bubbled : Bubbled num a i c m b)
    (ordered : ∀ p q, 0 ≤ p → p ≤ q → q < num → b p ≤ b q) : BubbleSorted num a c m b := by
  obtain ⟨low, high, -, rearranged, counted, compares, moves⟩ := bubbled
  have order : (slice b 0 num).Pairwise (· ≤ ·) := pairwise_slice_iff.mpr ordered
  have rest : 0 ≤ (num - i) * (num - i - 1) := by
    rcases lt_or_ge (num - i - 1) 0 with none | some
    · exact Int.mul_nonneg_of_nonpos_of_nonpos (by omega) (by omega)
    · exact Int.mul_nonneg (by omega) some
  rw [inversions_eq_zero order] at moves
  exact ⟨.of_rearranged rearranged (fun _ mem => mem) order, by omega, counted, by linarith⟩

/-- All passes are done. -/
theorem Bubbled.finish (bubbled : Bubbled num a i c m b) (nonneg : 0 ≤ num) (done : num - 1 ≤ i) :
    BubbleSorted num a c m b ∧ 2 * c = num * (num - 1) := by
  have low := bubbled.low
  have high := bubbled.high
  refine ⟨bubbled.sorted fun p q lowP le highQ => ?_, ?_⟩
  · by_cases first : q = 0
    · rw [show p = q by omega]
    · exact bubbled.placed p q lowP le (by omega) highQ
  · have total := bubbled.compares
    rcases eq_or_lt_of_le nonneg with rfl | some
    · obtain rfl : i = 0 := by omega
      linarith
    · obtain rfl : i = num - 1 := by omega
      linarith

/-- A pass without an exchange has found everything in order. -/
theorem Bubbled.early (bubbled : Bubbled num a (i + 1) c m b)
    (adjacent : ∀ p, 0 ≤ p → p < num - i - 1 → b p ≤ b (p + 1)) : BubbleSorted num a c m b := by
  refine bubbled.sorted fun p q lowP le highQ => ?_
  by_cases placed : num - (i + 1) ≤ q
  · exact bubbled.placed p q lowP le placed highQ
  · induction q, le using Int.leInduction with
    | base => exact Int.le_refl _
    | succ q le ih =>
        have before := ih (by omega) (by omega)
        exact Int.le_trans before (adjacent q (by omega) (by omega))

theorem bubbleLoop_spec {early : Bool} (bubbled : Bubbled num a i c m b) (nonneg : 0 ≤ num)
    (compares : counts.compareTimes = wrap c) (moves : counts.moveTimes = wrap m)
    (enough : (num - i).toNat + num.toNat < fuel) :
    ∃ c' m' d after, bubbleLoop num early fuel i counts b = .ended after d ∧
      BubbleSorted num a c' m' d ∧ after.compareTimes = wrap c' ∧ after.moveTimes = wrap m' ∧
      (early = false → 2 * c' = num * (num - 1)) := by
  induction fuel generalizing i c m b counts with
  | zero => omega
  | succ fuel ih =>
      have low := bubbled.low
      rw [bubbleLoop]
      by_cases more : i < num - 1
      case neg =>
        obtain ⟨sorted, total⟩ := bubbled.finish nonneg (by omega)
        rw [if_neg more]
        exact ⟨c, m, b, counts, rfl, sorted, compares, moves, fun _ => total⟩
      have begins : Passed num (num - i - 1) b 0 0 0 b :=
        ⟨fun p lowP le => by rw [show p = 0 by omega], .refl _ b, rfl,
          fun _ p lowP less => by omega⟩
      obtain ⟨n, flag, d, after, ran, passed, compares', moves'⟩ :
          ∃ n flag d after, exchangeLoop num (num - i - 1) fuel 0 counts 0 b =
            .ended (after, flag) d ∧ _ ∧ _ ∧ _ :=
        exchangeLoop_spec begins (Int.le_refl 0) (by omega) (by omega) compares
          (moves.trans (congrArg wrap (Int.add_zero m).symm)) (by omega)
      rw [Int.sub_zero] at compares'
      have next := bubbled.step more passed
      rw [if_pos more, bind_ended ran]
      dsimp only
      by_cases stop : early = true ∧ flag = 0
      · rw [if_pos stop]
        exact ⟨_, _, d, after, rfl, next.early (passed.unflagged stop.2), compares', moves',
          fun late => absurd (stop.1.symm.trans late) (by decide)⟩
      · rw [if_neg stop]
        exact ih next compares' moves' (by omega)

/-! ## The sorts -/

/-- The two bubble sorts and the insertion sort leave the same sorted array. Each exchange of the
first two counts as three moves, and each element that the last one puts down as one. -/
theorem exchange_counts (nonneg : 0 ≤ num) (enough : 2 * num < fuel) (a : Int → Int)
    (moves : IsInt (3 * inversions (slice a 0 num))) (compares : IsInt (num * (num - 1) / 2)) :
    ∃ b s₁ c₂ s₂ c₃ s₃,
      bubbleVersion1 fuel num a =
        .ended (num * (num - 1) / 2, 3 * (inversions (slice a 0 num) : Int), s₁) b ∧
      bubbleVersion2 fuel num a = .ended (c₂, 3 * (inversions (slice a 0 num) : Int), s₂) b ∧
      insertSort1 fuel num a =
        .ended (c₃, (inversions (slice a 0 num) : Int) + max (num - 1) 0, s₃) b ∧
      Sorted 0 num a b ∧ c₂ ≤ num * (num - 1) / 2 := by
  have small : num ≤ 65536 := by
    have high := compares.2
    by_contra large
    have product : 65537 * 65536 ≤ num * (num - 1) :=
      Int.mul_le_mul (by omega) (by omega) (by decide) nonneg
    omega
  obtain ⟨c, m, b, after, ran, ⟨sorted, rfl, counted, -⟩, compares₁, moves₁, total⟩ :
      ∃ c m b after, bubbleLoop num false fuel 0 ⟨0, 0⟩ a = .ended after b ∧ _ ∧ _ ∧ _ ∧ _ :=
    bubbleLoop_spec (.start num a) nonneg rfl rfl (by omega)
  obtain ⟨c', m', b', after', ran', ⟨sorted', rfl, counted', most⟩, compares₂, moves₂, -⟩ :
      ∃ c m b after, bubbleLoop num true fuel 0 ⟨0, 0⟩ a = .ended after b ∧ _ ∧ _ ∧ _ ∧ _ :=
    bubbleLoop_spec (.start num a) nonneg rfl rfl (by omega)
  obtain ⟨c'', s'', b'', inserted, sorted''⟩ := insertSort1_spec nonneg enough a
  obtain rfl := sorted.unique sorted'
  obtain rfl := sorted.unique sorted''
  have all := total rfl
  have fits₁ : IsInt c := by
    rwa [show num * (num - 1) / 2 = c by omega] at compares
  have fits₂ : IsInt c' := by
    obtain ⟨low, high⟩ := compares
    exact ⟨by omega, by omega⟩
  have fits₃ : IsInt ((inversions (slice a 0 num) : Int) + max (num - 1) 0) := by
    obtain ⟨low, high⟩ := moves
    exact ⟨by omega, by omega⟩
  rw [wrap_eq fits₁] at compares₁
  rw [wrap_eq fits₂] at compares₂
  rw [wrap_eq moves] at moves₁ moves₂
  rw [wrap_eq fits₃] at inserted
  refine ⟨b, after.report.2.2, c', after'.report.2.2, c'', s'', ?_, ?_, inserted, sorted, by omega⟩
  · rw [bubbleVersion1, bind_ended ran, show num * (num - 1) / 2 = c by omega, ← compares₁,
      ← moves₁]
    rfl
  · rw [bubbleVersion2, bind_ended ran', ← compares₂, ← moves₂]
    rfl

/-- Four elements with five inversions. -/
theorem exchange_counts_four :
    ∃ b s₁ c₂ s₂ c₃ s₃,
      bubbleVersion1 9 4 (fun i => (i - 1) * (i - 4)) = .ended (6, 3 * 5, s₁) b ∧
      bubbleVersion2 9 4 (fun i => (i - 1) * (i - 4)) = .ended (c₂, 3 * 5, s₂) b ∧
      insertSort1 9 4 (fun i => (i - 1) * (i - 4)) = .ended (c₃, 5 + 3, s₃) b ∧
      Sorted 0 4 (fun i => (i - 1) * (i - 4)) b ∧ c₂ ≤ 6 :=
  exchange_counts (by decide) (by decide) _ (by decide) (by decide)

end Shang.Sort
