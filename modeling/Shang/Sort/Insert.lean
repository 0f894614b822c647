import Shang.Lib.Inversions
import Shang.Sort.Func
import Mathlib

/-!
# Insertion sort

`insert_sort1` of `3.insert.c` and `shell_sort1` of `4.shell.c`. The loops of the
first are the two inner loops of the second with a gap of 1, so they are here with
any gap. While `tmp` is held out, the array with `tmp` in the hole is what counts: a
round of the innermost loop exchanges two of its elements.

The counters are `int`s of 32 bits that wrap around. An index lies between `-gap` and
`len`, so it does not.
-/

namespace Shang.Sort

open Shang.Lib Shang.Lib.Act Function

/-- `compare_times` and `move_times` -/
structure Counts where
  compareTimes : Int
  moveTimes : Int

namespace Counts

/-- `compare_times++` -/
def compared (counts : Counts) : Counts :=
  { counts with compareTimes := wrap (counts.compareTimes + 1) }

/-- `move_times += n` -/
def moved (counts : Counts) (n : Int) : Counts :=
  { counts with moveTimes := wrap (counts.moveTimes + n) }

/-- The three numbers that are printed. -/
def report (counts : Counts) : Int × Int × Int :=
  (counts.compareTimes, counts.moveTimes, wrap (counts.compareTimes + counts.moveTimes))

end Counts

section Program

variable (len gap : Int)

/-- `for (j = i - gap; j >= 0; j -= gap)`, from `j` on, with `j` in the end. -/
def shiftLoop (tmp : Int) : Nat → Int → Counts → Act (Int → Int) (Int × Counts)
  | 0, _, _ => spent
  | fuel + 1, j, counts =>
      if j ≥ 0 then do
        let x ← load (.plain 0 len) j
        if x > tmp then do
          store (.plain 0 len) (j + gap) x
          shiftLoop tmp fuel (j - gap) (counts.compared.moved 1)
        else pure (j, counts.compared)
      else pure (j, counts)

/-- The body of the loop over `i`. -/
def insertAt (fuel : Nat) (i : Int) (counts : Counts) : Act (Int → Int) Counts := do
  let tmp ← load (.plain 0 len) i
  let (j, counts) ← shiftLoop len gap tmp fuel (i - gap) counts
  store (.plain 0 len) (j + gap) tmp
  pure (counts.moved 1)

/-- `for (i = gap; i < len; i++)`, from `i` on. -/
def insertLoop : Nat → Int → Counts → Act (Int → Int) Counts
  | 0, _, _ => spent
  | fuel + 1, i, counts =>
      if i < len then do
        let counts ← insertAt len gap fuel i counts
        insertLoop fuel (i + 1) counts
      else pure counts

end Program

/-- `insert_sort1(arr, num)`, with the three numbers that it prints. -/
def insertSort1 (fuel : Nat) (num : Int) : Act (Int → Int) (Int × Int × Int) := do
  let counts ← insertLoop num 1 fuel 1 ⟨0, 0⟩
  pure counts.report

/-- `for (gap = len >> 1; gap > 0; gap >>= 1)`, from `gap` on. -/
def gapLoop (len : Int) : Nat → Int → Counts → Act (Int → Int) Counts
  | 0, _, _ => spent
  | fuel + 1, gap, counts =>
      if gap > 0 then do
        let counts ← insertLoop len gap fuel gap counts
        gapLoop len fuel (gap >>> (1 : Nat)) counts
      else pure counts

/-- `shell_sort1(arr, len)`, with the three numbers that it prints. -/
def shellSort1 (fuel : Nat) (len : Int) : Act (Int → Int) (Int × Int × Int) := do
  let counts ← gapLoop len fuel (len >>> (1 : Nat)) ⟨0, 0⟩
  pure counts.report

/-! ## A hole that moves -/

variable {len gap tmp hole i j m : Int} {a b v w : Int → Int} {counts : Counts} {fuel k : Nat}

/-- What the exchange of the hole with the element a gap before it keeps, holds when `tmp` is in the
hole in the end. -/
theorem shiftLoop_spec {I : Int → Nat → (Int → Int) → Prop} (pos : 0 < gap)
    (step : ∀ hole k w, gap ≤ hole → hole < len → w hole < w (hole - gap) → I hole k w →
      I (hole - gap) (k + 1) (update (update w hole (w (hole - gap))) (hole - gap) (w hole)))
    (start : I hole k (update a hole tmp)) (low : 0 ≤ hole) (high : hole < len)
    (moves : counts.moveTimes = wrap m) (enough : hole.toNat < fuel) :
    ∃ (end_ : Int) (n : Nat) (b : Int → Int) (after : Counts),
      shiftLoop len gap tmp fuel (hole - gap) counts a = .ended (end_ - gap, after) b ∧
      (0 ≤ end_ ∧ end_ ≤ hole) ∧ I end_ (k + n) (update b end_ tmp) ∧
      (end_ < gap ∨ b (end_ - gap) ≤ tmp) ∧ after.moveTimes = wrap (m + n) := by
  induction fuel generalizing hole k a counts m with
  | zero => omega
  | succ fuel ih =>
      rw [shiftLoop]
      by_cases more : hole - gap ≥ 0
      case neg =>
        rw [if_neg more]
        exact ⟨hole, 0, a, counts, rfl, by omega, start, by omega,
          by rw [moves, Int.natCast_zero, Int.add_zero]⟩
      rw [if_pos more, bind_ended (load_plain more (by omega) a)]
      by_cases greater : a (hole - gap) > tmp
      case neg =>
        rw [if_neg greater]
        exact ⟨hole, 0, a, counts.compared, rfl, by omega, start, .inr (by omega),
          by rw [Counts.compared, moves, Int.natCast_zero, Int.add_zero]⟩
      have ne : hole - gap ≠ hole := by omega
      have here : hole - gap + gap = hole := by omega
      have next := step hole k (update a hole tmp) (by omega) high
        (by rwa [update_self, update_of_ne ne]) start
      rw [update_self, update_of_ne ne, update_idem] at next
      have moved : (counts.compared.moved 1).moveTimes = wrap (m + 1) := by
        rw [Counts.moved, Counts.compared, moves, wrap_add]
      obtain ⟨end_, n, b, after, ran, inside, holds, stop, moves'⟩ :=
        ih next more (by omega) moved (by omega)
      rw [if_pos greater, here, bind_ended (store_plain low high _ a)]
      refine ⟨end_, n + 1, b, after, ran, by omega, ?_, stop, ?_⟩
      · rwa [Nat.add_right_comm, Nat.add_assoc] at holds
      · rw [moves', Int.natCast_succ, Int.add_assoc, Int.add_comm 1]

/-- The element `arr[i]` goes down by gaps, as long as the one before it is greater. -/
theorem insertAt_spec {I : Int → Nat → (Int → Int) → Prop} (pos : 0 < gap)
    (step : ∀ hole k w, gap ≤ hole → hole < len → w hole < w (hole - gap) → I hole k w →
      I (hole - gap) (k + 1) (update (update w hole (w (hole - gap))) (hole - gap) (w hole)))
    (start : I i 0 a) (low : gap ≤ i) (high : i < len)
    (moves : counts.moveTimes = wrap m) (enough : i.toNat < fuel) :
    ∃ (end_ : Int) (n : Nat) (b : Int → Int) (after : Counts),
      insertAt len gap fuel i counts a = .ended after b ∧ I end_ n b ∧
      (0 ≤ end_ ∧ end_ ≤ i) ∧ (end_ < gap ∨ b (end_ - gap) ≤ b end_) ∧
      after.moveTimes = wrap (m + n + 1) := by
  have whole : update a i (a i) = a := update_eq_self i a
  obtain ⟨end_, n, b, after, ran, inside, holds, stop, moves'⟩ :=
    shiftLoop_spec pos step (whole.symm ▸ start) (by omega) high moves enough
  have here : end_ - gap + gap = end_ := by omega
  refine ⟨end_, n, update b end_ (a i), after.moved 1, ?_, Nat.zero_add n ▸ holds, inside, ?_, ?_⟩
  · rw [insertAt, bind_ended (load_plain (by omega) high a), bind_ended ran]
    dsimp only
    rw [here, bind_ended (store_plain inside.1 (by omega) _ b)]
    rfl
  · rwa [update_self, update_of_ne (by omega)]
  · rw [Counts.moved, moves', wrap_add]

/-! ## The loops around it -/

/-- What the body of the loop over `i` keeps, holds in the end. -/
theorem insertLoop_spec {J : Int → Int → (Int → Int) → Prop}
    (step : ∀ fuel i m a counts, i < len → J i m a → counts.moveTimes = wrap m →
      len.toNat < fuel → ∃ m' b after, insertAt len gap fuel i counts a = .ended after b ∧
        J (i + 1) m' b ∧ after.moveTimes = wrap m')
    (start : J i m a) (moves : counts.moveTimes = wrap m)
    (enough : (len - i).toNat + len.toNat < fuel) :
    ∃ m' b after, insertLoop len gap fuel i counts a = .ended after b ∧ J (max i len) m' b ∧
      after.moveTimes = wrap m' := by
  induction fuel generalizing i m a counts with
  | zero => omega
  | succ fuel ih =>
      rw [insertLoop]
      by_cases more : i < len
      · obtain ⟨m', b, after, ran, next, moves'⟩ :=
          step fuel i m a counts more start moves (by omega)
        obtain ⟨m'', c, after', rest, done, moves''⟩ := ih next moves' (by omega)
        rw [if_pos more, bind_ended ran]
        rw [show max (i + 1) len = max i len by omega] at done
        exact ⟨m'', c, after', rest, done, moves''⟩
      · rw [if_neg more]
        rw [← show max i len = i by omega] at start
        exact ⟨m, a, counts, rfl, start, moves⟩

/-- With any gap the elements only change places. -/
theorem insertLoop_rearranged (pos : 0 < gap) (moves : counts.moveTimes = wrap m)
    (enough : 2 * len.toNat < fuel) :
    ∃ m' b after, insertLoop len gap fuel gap counts a = .ended after b ∧
      Rearranged (Set.Ico 0 len) a b ∧ after.moveTimes = wrap m' := by
  have round (hole : Int) (k : Nat) (w : Int → Int) (low : gap ≤ hole) (high : hole < len)
      (_ : w hole < w (hole - gap)) (moved : Rearranged (Set.Ico 0 len) a w) :
      Rearranged (Set.Ico 0 len) a
        (update (update w hole (w (hole - gap))) (hole - gap) (w hole)) := by
    have here : hole ∈ Set.Ico 0 len := ⟨by omega, high⟩
    have before : hole - gap ∈ Set.Ico 0 len := ⟨by omega, by omega⟩
    exact moved.trans (.exchange here before w)
  obtain ⟨m', b, after, ran, ⟨-, moved⟩, moves'⟩ :
      ∃ m' b after, insertLoop len gap fuel gap counts a = .ended after b ∧
        (gap ≤ max gap len ∧ Rearranged (Set.Ico 0 len) a b) ∧ _ :=
    insertLoop_spec (J := fun i _ b => gap ≤ i ∧ Rearranged (Set.Ico 0 len) a b)
      (fun fuel i m b counts high ⟨low, moved⟩ moves enough => by
        obtain ⟨_, n, c, after, ran, moved', -, -, moves'⟩ :
            ∃ end_ n c after, insertAt len gap fuel i counts b = .ended after c ∧ _ ∧ _ ∧ _ ∧ _ :=
          insertAt_spec (I := fun _ _ c => Rearranged (Set.Ico 0 len) a c) pos round moved low
            high moves (by omega)
        exact ⟨_, c, after, ran, ⟨by omega, moved'⟩, moves'⟩)
      ⟨Int.le_refl gap, .refl _ a⟩ moves (by omega)
  exact ⟨m', b, after, ran, moved, moves'⟩

/-! ## A gap of one -/

/-- The elements up to `i` are in order, but what is in the hole may be less than what is before
it. -/
def OrderedBut (hole i : Int) (w : Int → Int) : Prop :=
  ∀ p q, 0 ≤ p → p ≤ q → q ≤ i → q ≠ hole → w p ≤ w q

theorem OrderedBut.round (ordered : OrderedBut hole i v) (low : 1 ≤ hole)
    (greater : v hole < v (hole - 1)) (left : w (hole - 1) = v hole)
    (right : w hole = v (hole - 1)) (other : ∀ p, p ≠ hole → p ≠ hole - 1 → w p = v p) :
    OrderedBut (hole - 1) i w := by
  intro p q lowP le high off
  by_cases atHole : q = hole
  · rw [atHole, right]
    by_cases first : p = hole - 1
    · rw [first, left]
      exact Int.le_of_lt greater
    · by_cases second : p = hole
      · rw [second, right]
      · rw [other p second first]
        exact ordered p (hole - 1) lowP (by omega) (by omega) (by omega)
  · rw [other q atHole off]
    by_cases first : p = hole - 1
    · rw [first, left]
      exact ordered hole q (by omega) (by omega) high atHole
    · by_cases second : p = hole
      · rw [second, right]
        exact ordered (hole - 1) q (by omega) (by omega) high atHole
      · rw [other p second first]
        exact ordered p q lowP le high atHole

/-- The hole is in its place. -/
theorem OrderedBut.settle (ordered : OrderedBut hole i w) (low : 0 ≤ hole)
    (stop : hole < 1 ∨ w (hole - 1) ≤ w hole) {p q : Int} (lowP : 0 ≤ p) (le : p ≤ q)
    (high : q ≤ i) : w p ≤ w q := by
  by_cases atHole : q = hole
  · by_cases same : p = q
    · rw [same]
    · have before := ordered p (hole - 1) lowP (by omega) (by omega) (by omega)
      rw [atHole]
      omega
  · exact ordered p q lowP le high atHole

/-- While an element is put in order, every move takes one inversion away. -/
structure Inserting (len i : Int) (a : Int → Int) (hole : Int) (k : Nat) (w : Int → Int) :
    Prop where
  ordered : OrderedBut hole i w
  rearranged : Rearranged (Set.Ico 0 len) a w
  count : inversions (slice w 0 len) + k = inversions (slice a 0 len)

theorem Inserting.round (inserting : Inserting len i a hole k w) (low : 1 ≤ hole)
    (high : hole < len) (greater : w hole < w (hole - 1)) :
    Inserting len i a (hole - 1) (k + 1)
      (update (update w hole (w (hole - 1))) (hole - 1) (w hole)) := by
  obtain ⟨ordered, rearranged, count⟩ := inserting
  obtain ⟨right, left, other⟩ := update_exchange (show hole ≠ hole - 1 by omega) w
  have here : hole ∈ Set.Ico 0 len := ⟨by omega, high⟩
  have before : hole - 1 ∈ Set.Ico 0 len := ⟨by omega, by omega⟩
  have less := inversions_slice (j := hole - 1) (show 0 ≤ hole - 1 by omega)
    (show hole - 1 + 1 < len by omega) (by rwa [Int.sub_add_cancel])
    (by rwa [Int.sub_add_cancel]) (by rwa [Int.sub_add_cancel])
    (fun p first second => other p (by omega) first)
  exact ⟨ordered.round low greater left right other,
    rearranged.trans (.exchange here before w), by omega⟩

/-- The elements before `i` are in order. Of the moves since there were `m₀`, one for each element
put in order has not taken an inversion away. -/
structure Inserted (len m₀ : Int) (a : Int → Int) (i m : Int) (b : Int → Int) : Prop where
  low : 1 ≤ i
  ordered : ∀ p q, 0 ≤ p → p ≤ q → q < i → b p ≤ b q
  rearranged : Rearranged (Set.Ico 0 len) a b
  count : m + inversions (slice b 0 len) = m₀ + inversions (slice a 0 len) + (i - 1)

theorem Inserted.step {m₀ : Int} (inserted : Inserted len m₀ a i m b) (high : i < len)
    (moves : counts.moveTimes = wrap m) (enough : len.toNat < fuel) :
    ∃ m' c after, insertAt len 1 fuel i counts b = .ended after c ∧
      Inserted len m₀ a (i + 1) m' c ∧ after.moveTimes = wrap m' := by
  obtain ⟨low, ordered, rearranged, count⟩ := inserted
  have start : Inserting len i b i 0 b :=
    ⟨fun p q lowP le high off => ordered p q lowP le (by omega), .refl _ b, rfl⟩
  obtain ⟨end_, n, c, after, ran, inserting, inside, stop, moves'⟩ :
      ∃ end_ n c after, insertAt len 1 fuel i counts b = .ended after c ∧ _ ∧ _ ∧ _ ∧ _ :=
    insertAt_spec Int.one_pos (fun hole k w low high greater inserting =>
      inserting.round low high greater) start low high moves (by omega)
  obtain ⟨orderedBut, rearranged', count'⟩ := inserting
  exact ⟨m + n + 1, c, after, ran, ⟨by omega, fun p q lowP le high =>
    orderedBut.settle inside.1 stop lowP le (by omega), rearranged.trans rearranged', by omega⟩,
    moves'⟩

/-- A pass with a gap of one sorts. -/
theorem insertLoop_one (nonneg : 0 ≤ len) (moves : counts.moveTimes = wrap m)
    (enough : 2 * len.toNat < fuel) (a : Int → Int) :
    ∃ b after, insertLoop len 1 fuel 1 counts a = .ended after b ∧ Sorted 0 len a b ∧
      after.moveTimes = wrap (m + inversions (slice a 0 len) + max (len - 1) 0) := by
  have start : Inserted len m a 1 m a :=
    ⟨Int.le_refl 1, fun p q lowP le high => by rw [show p = q by omega], .refl _ a, by omega⟩
  obtain ⟨m', b, after, ran, ⟨-, ordered, rearranged, count⟩, moves'⟩ :
      ∃ m' b after, insertLoop len 1 fuel 1 counts a = .ended after b ∧ _ ∧ _ :=
    insertLoop_spec (fun fuel i m b counts high inserted moves enough =>
      inserted.step high moves enough) start moves (by omega)
  have order : (slice b 0 len).Pairwise (· ≤ ·) :=
    pairwise_slice_iff.mpr fun p q low le high => ordered p q low le (by omega)
  rw [inversions_eq_zero order] at count
  refine ⟨b, after, ran, .of_rearranged rearranged (fun _ mem => mem) order, ?_⟩
  · rw [moves', show m' = m + inversions (slice a 0 len) + max (len - 1) 0 by omega]

/-! ## The sorts -/

theorem insertSort1_spec {num : Int} (nonneg : 0 ≤ num) (enough : 2 * num < fuel)
    (a : Int → Int) :
    ∃ c s b, insertSort1 fuel num a =
        .ended (c, wrap (inversions (slice a 0 num) + max (num - 1) 0), s) b ∧
      Sorted 0 num a b := by
  obtain ⟨b, after, ran, sorted, moves⟩ :
      ∃ b after, insertLoop num 1 fuel 1 ⟨0, 0⟩ a = .ended after b ∧ _ ∧ _ :=
    insertLoop_one nonneg (m := 0) rfl (by omega) a
  rw [Int.zero_add] at moves
  refine ⟨after.compareTimes, after.report.2.2, b, ?_, sorted⟩
  rw [insertSort1, bind_ended ran, ← moves]
  rfl

/-- The passes let elements change places, and the last one has a gap of one. -/
theorem gapLoop_spec (nonneg : 0 ≤ gap) (room : 0 ≤ len) (moves : counts.moveTimes = wrap m)
    (enough : gap.toNat + 2 * len.toNat < fuel) :
    ∃ b after, gapLoop len fuel gap counts a = .ended after b ∧
      Rearranged (Set.Ico 0 len) a b ∧
      ((slice b 0 len).Pairwise (· ≤ ·) ∨ gap = 0 ∧ b = a) := by
  induction fuel generalizing gap m counts a with
  | zero => omega
  | succ fuel ih =>
      rw [gapLoop]
      by_cases more : gap > 0
      case neg =>
        rw [if_neg more]
        exact ⟨a, counts, rfl, .refl _ a, .inr ⟨by omega, rfl⟩⟩
      have half : gap >>> (1 : Nat) = gap / 2 := Int.shiftRight_eq_div_pow gap 1
      obtain ⟨m', b, after, ran, moved, moves'⟩ :
          ∃ m' b after, insertLoop len gap fuel gap counts a = .ended after b ∧ _ ∧ _ :=
        insertLoop_rearranged more moves (by omega)
      have lower : 0 ≤ gap / 2 := by omega
      obtain ⟨c, after', rest, moved', order⟩ := ih (a := b) lower moves' (by omega)
      rw [if_pos more, half]
      refine ⟨c, after', (bind_ended ran).trans rest, moved.trans moved', .inl ?_⟩
      rcases order with order | ⟨none, rfl⟩
      · exact order
      · obtain rfl : gap = 1 := by omega
        obtain ⟨b', _, ran', sorted, -⟩ :
            ∃ b' after, insertLoop len 1 fuel 1 counts a = .ended after b' ∧ _ ∧ _ :=
          insertLoop_one room moves (by omega) a
        cases ran.symm.trans ran'
        exact sorted.order

/-- `shell_sort1` sorts the array and stays within it. -/
theorem shellSort1_sorted (nonneg : 0 ≤ len) (enough : 3 * len < fuel) (a : Int → Int) :
    ∃ counts b, shellSort1 fuel len a = .ended counts b ∧ Sorted 0 len a b := by
  have half : len >>> (1 : Nat) = len / 2 := Int.shiftRight_eq_div_pow len 1
  have start : 0 ≤ len / 2 := by omega
  obtain ⟨b, after, ran, moved, order⟩ :
      ∃ b after, gapLoop len fuel (len / 2) ⟨0, 0⟩ a = .ended after b ∧ _ ∧ _ :=
    gapLoop_spec start nonneg (m := 0) rfl (by omega)
  refine ⟨after.report, b, ?_, .of_rearranged moved (fun _ mem => mem) ?_⟩
  · rw [shellSort1, half, bind_ended ran]
    rfl
  · rcases order with order | ⟨short, -⟩
    · exact order
    · exact pairwise_slice_iff.mpr fun p q low le high => by rw [show p = q by omega]

/-- Gaps of 3 and 1 on a descending array. -/
theorem shellSort1_sorted_six :
    ∃ counts b, shellSort1 19 6 (fun i => -i) = .ended counts b ∧ Sorted 0 6 (fun i => -i) b :=
  shellSort1_sorted (by decide) (by decide) _

end Shang.Sort
