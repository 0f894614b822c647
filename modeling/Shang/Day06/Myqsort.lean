import Shang.Lib.Scan
import Shang.Sort.Quick

/-!
# Quicksort with a pivot that travels

`myqsort.c` of `day06`. The pivot is the first value. In each round of `partation` a
scan from the right stops at a smaller value, which changes places with the pivot, and
then one from the left stops at a greater value, which changes places with the pivot,
too. So the pivot is at `low` before each round and at `high` between the two scans, and
where the pointers meet it is in its place. A value that is equal to the pivot stops
neither of the scans.

An index lies between -1 and `len`, so it is an `int`.
-/

namespace Shang.Day06

open Shang.Lib Shang.Lib.Act Shang.Sort Function

/-! ## The program -/

section Program

variable (p : Arr Int)

/-- `swap`, with the same assignments as in `func.c`. -/
def swap (m n : Int) : Act (Int → Int) Unit := Sort.swap p m n

/-- The body of `while (low < high)`. -/
def partationRound (pv : Int) (fuel : Nat) (low high : Int) : Act (Int → Int) (Int × Int) := do
  let high ← scanDown p (· ≥ pv) low fuel high
  swap p low high
  let low ← scanUp p (· ≤ pv) high fuel low
  swap p low high
  pure (low, high)

/-- `while (low < high)`, with `low` in the end. -/
def partationLoop (pv : Int) : Nat → Int → Int → Act (Int → Int) Int
  | 0, _, _ => spent
  | fuel + 1, low, high =>
      if low < high then do
        let (low, high) ← partationRound p pv fuel low high
        partationLoop pv fuel low high
      else pure low

def partation (fuel : Nat) (low high : Int) : Act (Int → Int) Int := do
  let pv ← load p low
  partationLoop p pv fuel low high

/-- `_Qsort` -/
def qsortRec : Nat → Int → Int → Act (Int → Int) Unit
  | 0, _, _ => spent
  | fuel + 1, low, high =>
      if low < high then do
        let pos ← partation p fuel low high
        qsortRec fuel low (pos - 1)
        qsortRec fuel (pos + 1) high
      else pure ()

end Program

/-- `Qsort(p, len)` -/
def qsort (fuel : Nat) (len : Int) : Act (Int → Int) Unit :=
  qsortRec (.plain 0 len) fuel 0 (len - 1)

/-! ## A round -/

variable {start end_ low high pv lo hi here : Int} {a b : Int → Int} {fuel n : Nat}

theorem swap_ended {i j : Int} (lowI : lo ≤ i) (highI : i < hi) (lowJ : lo ≤ j) (highJ : j < hi)
    (a : Int → Int) :
    swap (.plain lo hi) i j a = .ended () (update (update a i (a j)) j (a i)) :=
  swap_plain lowI highI lowJ highJ a

/-- What is left of `low` is not above the pivot, what is right of `high` is not below it, and the
pivot is at `here`. -/
structure Around (start end_ pv low high here : Int) (a : Int → Int) : Prop where
  order : start ≤ low ∧ low ≤ high ∧ high ≤ end_
  below : ∀ i, start ≤ i → i < low → a i ≤ pv
  above : ∀ i, high < i → i ≤ end_ → pv ≤ a i
  pivot : a here = pv

/-- The first half of a round takes the pivot from `low` to the new `high`. -/
theorem Around.down (around : Around start end_ pv low high low a) :
    ∃ k b, (∀ {lo hi : Int} {fuel : Nat}, lo ≤ start → end_ < hi → high - low < fuel →
        scanDown (.plain lo hi) (· ≥ pv) low fuel high a = .ended k a ∧
          swap (.plain lo hi) low k a = .ended () b) ∧
      Around start end_ pv low k k b ∧ Rearranged (Set.Icc start end_) a b ∧
      k ≤ high ∧ (k = low ∨ b low < pv) := by
  obtain ⟨order, below, above, pivot⟩ := around
  obtain ⟨k, ran, inside, passed, stop⟩ := scanDown_ended (· ≥ pv) a order.2.1
  refine ⟨k, update (update a low (a k)) k (a low), fun first last enough => ⟨?_, ?_⟩,
    ⟨by omega, fun i first less => ?_, fun i more last => ?_, ?_⟩,
    .exchange (Set.mem_Icc.mpr (by omega)) (Set.mem_Icc.mpr (by omega)) a, inside.2, ?_⟩
  · exact ran (by omega) (by omega) enough
  · exact swap_ended (by omega) (by omega) (by omega) (by omega) a
  · rw [update_of_ne (by omega), update_of_ne (by omega)]
    exact below i first less
  · rw [update_of_ne (by omega), update_of_ne (by omega)]
    by_cases behind : high < i
    · exact above i behind last
    · exact passed i more (by omega)
  · rw [update_self, pivot]
  · rcases stop with met | smaller
    · exact .inl met
    · have apart : low ≠ k := fun same => smaller (same ▸ pivot.ge)
      rw [update_of_ne apart, update_self]
      exact .inr (Int.not_le.mp smaller)

/-- The second half takes it from `high` to the new `low`. -/
theorem Around.up (around : Around start end_ pv low high high a) :
    ∃ k b, (∀ {lo hi : Int} {fuel : Nat}, lo ≤ start → end_ < hi → high - low < fuel →
        scanUp (.plain lo hi) (· ≤ pv) high fuel low a = .ended k a ∧
          swap (.plain lo hi) k high a = .ended () b) ∧
      Around start end_ pv k high k b ∧ Rearranged (Set.Icc start end_) a b ∧
      low ≤ k ∧ (a low < pv → low < k) := by
  obtain ⟨order, below, above, pivot⟩ := around
  obtain ⟨k, ran, inside, passed, stop⟩ := scanUp_ended (· ≤ pv) a order.2.1
  refine ⟨k, update (update a k (a high)) high (a k), fun first last enough => ⟨?_, ?_⟩,
    ⟨by omega, fun i first less => ?_, fun i more last => ?_, ?_⟩,
    .exchange (Set.mem_Icc.mpr (by omega)) (Set.mem_Icc.mpr (by omega)) a, inside.1,
    fun smaller => ?_⟩
  · exact ran (by omega) (by omega) enough
  · exact swap_ended (by omega) (by omega) (by omega) (by omega) a
  · rw [update_of_ne (by omega), update_of_ne (by omega)]
    by_cases before : i < low
    · exact below i first before
    · exact passed i (by omega) less
  · rw [update_of_ne (by omega), update_of_ne (by omega)]
    exact above i more last
  · by_cases met : k = high
    · rw [met, update_self, pivot]
    · rw [update_of_ne met, update_self, pivot]
  · have further : k ≠ low := by
      rintro rfl
      rcases stop with rfl | greater
      · exact absurd pivot (Int.ne_of_lt smaller)
      · exact greater (Int.le_of_lt smaller)
    omega

/-- After a round the two pointers are closer to each other. -/
theorem Around.round (around : Around start end_ pv low high low a) (less : low < high) :
    ∃ l h b, (∀ {lo hi : Int} {fuel : Nat}, lo ≤ start → end_ < hi → high - low < fuel →
        partationRound (.plain lo hi) pv fuel low high a = .ended (l, h) b) ∧
      Around start end_ pv l h l b ∧ Rearranged (Set.Icc start end_) a b ∧
      h - l < high - low := by
  obtain ⟨h, c, down, between, moved, back, which⟩ := around.down
  obtain ⟨l, b, up, around', moved', forth, further⟩ := between.up
  refine ⟨l, h, b, fun {_ _ fuel} first last enough => ?_, around', moved.trans moved', ?_⟩
  · have enough' : h - low < fuel := by omega
    obtain ⟨scanned, swapped⟩ := down first last enough
    obtain ⟨scanned', swapped'⟩ := up first last enough'
    rw [partationRound, bind_ended scanned, bind_ended swapped, bind_ended scanned',
      bind_ended swapped']
    rfl
  · rcases which with met | smaller
    · omega
    · have := further smaller
      omega

theorem partationLoop_met (some : 0 < fuel) (a : Int → Int) :
    partationLoop (.plain lo hi) pv fuel low low a = .ended low a := by
  obtain ⟨fuel, rfl⟩ := Nat.exists_eq_add_one.mpr some
  rw [partationLoop, if_neg (Int.lt_irrefl low)]
  rfl

/-- The loop ends where the pointers meet. -/
theorem Around.loop (around : Around start end_ pv low high low a) (near : high - low ≤ n) :
    ∃ pos b, (∀ {lo hi : Int} {fuel : Nat}, lo ≤ start → end_ < hi → n + 1 < fuel →
        partationLoop (.plain lo hi) pv fuel low high a = .ended pos b) ∧
      Around start end_ pv pos pos pos b ∧ Rearranged (Set.Icc start end_) a b := by
  induction n generalizing low high a with
  | zero =>
      have order := around.order
      obtain rfl : low = high := by omega
      exact ⟨low, a, fun _ _ enough => partationLoop_met (by omega) a, around, .refl _ a⟩
  | succ n ih =>
      rcases Int.le_iff_eq_or_lt.mp around.order.2.1 with rfl | less
      · exact ⟨low, a, fun _ _ enough => partationLoop_met (by omega) a, around, .refl _ a⟩
      · obtain ⟨l, h, c, ran, around', moved, closer⟩ := around.round less
        obtain ⟨pos, b, rest, met, moved'⟩ := ih around' (by omega)
        refine ⟨pos, b, fun {_ _ fuel} first last enough => ?_, met, moved.trans moved'⟩
        obtain ⟨fuel, rfl⟩ := Nat.exists_eq_add_one.mpr (Nat.zero_lt_of_lt enough)
        rw [partationLoop, if_pos less, bind_ended (ran first last (by omega))]
        exact rest first last (by omega)

theorem partation_ended (le : low ≤ high) (a : Int → Int) :
    ∃ pos b, (∀ {lo hi : Int} {fuel : Nat}, lo ≤ low → high < hi → high - low + 1 < fuel →
        partation (.plain lo hi) fuel low high a = .ended pos b) ∧
      Placed low high (a low) pos b ∧ Rearranged (Set.Icc low high) a b := by
  have begins : Around low high (a low) low high low a :=
    ⟨by omega, fun i first less => by omega, fun i more last => by omega, rfl⟩
  obtain ⟨pos, b, ran, met, moved⟩ := begins.loop (n := (high - low).toNat) (by omega)
  refine ⟨pos, b, fun first last enough => ?_,
    ⟨⟨met.order.1, met.order.2.2⟩, met.below, met.pivot, met.above⟩, moved⟩
  rw [partation, bind_ended (load_plain first (by omega) a)]
  exact ran first last (by omega)

/-! ## Sorting -/

theorem qsortRec_short (short : ¬ low < high) (some : 0 < fuel) (a : Int → Int) :
    qsortRec (.plain lo hi) fuel low high a = .ended () a := by
  obtain ⟨fuel, rfl⟩ := Nat.exists_eq_add_one.mpr some
  rw [qsortRec, if_neg short]
  rfl

/-- Each side has fewer values than the whole. -/
theorem qsortRec_ended (n : Nat) (low high : Int) (size : high - low + 1 ≤ n) (a : Int → Int) :
    ∃ b, (∀ {lo hi : Int} {fuel : Nat}, lo ≤ low → high < hi → n + 1 < fuel →
        qsortRec (.plain lo hi) fuel low high a = .ended () b) ∧
      Rearranged (Set.Icc low high) a b ∧ ∀ i j, low ≤ i → i ≤ j → j ≤ high → b i ≤ b j := by
  induction n generalizing low high a with
  | zero =>
      exact ⟨a, fun _ _ enough => qsortRec_short (by omega) (by omega) a, .refl _ a,
        fun i j first le last => by omega⟩
  | succ n ih =>
      by_cases less : low < high
      case neg =>
        exact ⟨a, fun _ _ enough => qsortRec_short less (by omega) a, .refl _ a,
          fun i j first le last => by rw [show i = j by omega]⟩
      obtain ⟨pos, c, split, placed, moved⟩ := partation_ended less.le a
      have inside := placed.inside
      obtain ⟨d, ranL, left⟩ := ih low (pos - 1) (by omega) c
      obtain ⟨b, ranR, right⟩ := ih (pos + 1) high (by omega) d
      refine ⟨b, fun {_ _ fuel} first last enough => ?_, placed.sorted moved left right⟩
      obtain ⟨fuel, rfl⟩ := Nat.exists_eq_add_one.mpr (Nat.zero_lt_of_lt enough)
      rw [qsortRec, if_pos less, bind_ended (split first last (by omega)),
        bind_ended (ranL first (by omega) (by omega))]
      exact ranR (by omega) last (by omega)

/-- `partation` ends with the first value between those that are not above it and those that are
not below it, with any array that has the places from `low` to `high`; so these are all that it
uses. `Qsort` sorts. -/
theorem qsort_sorted :
    (∀ (a : Int → Int) (low high : Int), low ≤ high → ∃ pos b,
      (∀ (lo hi : Int) (fuel : Nat), lo ≤ low → high < hi → high - low + 1 < fuel →
        partation (.plain lo hi) fuel low high a = .ended pos b) ∧
      Placed low high (a low) pos b ∧ Rearranged (Set.Icc low high) a b) ∧
    ∀ (a : Int → Int) (len : Int), 0 ≤ len → ∃ b,
      (∀ fuel : Nat, len + 1 < fuel → qsort fuel len a = .ended () b) ∧ Sorted 0 len a b := by
  refine ⟨fun a low high le => ?_, fun a len nonneg => ?_⟩
  · obtain ⟨pos, b, ran, placed⟩ := partation_ended le a
    exact ⟨pos, b, fun lo hi fuel => ran, placed⟩
  · obtain ⟨b, ran, moved, order⟩ :=
      qsortRec_ended len.toNat 0 (len - 1) (by omega) a
    exact ⟨b, fun fuel enough => ran (Int.le_refl 0) (by omega) (by omega), .of_last moved order⟩

/-- The values 0, 1, 2, 0. -/
theorem qsort_sorted_four :
    (∃ pos b, partation (.plain 1 4) 4 1 3 (· % 3) = .ended pos b ∧ Placed 1 3 1 pos b) ∧
      ∃ b, qsort 6 4 (· % 3) = .ended () b ∧ Sorted 0 4 (· % 3) b := by
  obtain ⟨pos, b, ran, placed, -⟩ := qsort_sorted.1 (· % 3) 1 3 (by decide)
  obtain ⟨c, sorts, sorted⟩ := qsort_sorted.2 (· % 3) 4 (by decide)
  exact ⟨⟨pos, b, ran 1 4 4 (by decide) (by decide) (by decide), placed⟩,
    c, sorts 6 (by decide), sorted⟩

end Shang.Day06
