import Shang.Lib.Arith
import Shang.Lib.Merge
import Shang.Sort.Func

/-!
# Merge sorts

`6.merge.c`: `merge_sort_recursive`, which merges by way of the 100 places of
`tmp`, and `merge_sort_while`, which merges from one of two buffers into the other
and exchanges them after each pass. Memory is the array of the caller and the other
buffer, which is `tmp` for the one and comes from `malloc` for the other.
-/

namespace Shang.Sort

open Shang.Lib Shang.Lib.Act Function

inductive Buf
  | arr
  | aux
  deriving DecidableEq

/-- An `int` in one of the buffers. -/
abbrev Place := Buf × Int

/-- `arr + p`, of which `num` elements are used. -/
def part (p num : Int) : Arr Place := ⟨fun i => (.arr, p + i), 0, num⟩

/-! ## `merge_sort_recursive` -/

/-- `int tmp[100]` -/
def tmp : Arr Place := ⟨fun i => (.aux, i), 0, 100⟩

/-- `={0}` -/
def cleared (a : Place → Int) : Place → Int
  | (.arr, i) => a (.arr, i)
  | (.aux, _) => 0

def clear : Act (Place → Int) Unit := fun a => .ended () (cleared a)

/-- `merging(arr1, num1, arr2, num2)`. The runs lie side by side, so that both are written in the
end. -/
def merging (fuel : Nat) (arr1 num1 arr2 num2 : Int) : Act (Place → Int) Unit := do
  clear
  let k ← mergeRuns (part arr1 num1) (part arr2 num2) tmp num1 num2 fuel 0 0 0
  let _ ← copyLoop tmp (part arr1 (num1 + num2)) k fuel 0 0

/-- `merge_sort_recursive(arr, num)` -/
def mergeSortRecursive : Nat → Int → Int → Act (Place → Int) Unit
  | 0, _, _ => spent
  | fuel + 1, arr, num =>
      if num < 2 then pure ()
      else do
        let count := num / 2
        let arr1 := arr
        let arr1Num := count
        let arr2 := arr + count
        let arr2Num := num - count
        mergeSortRecursive fuel arr1 arr1Num
        mergeSortRecursive fuel arr2 arr2Num
        merging fuel arr1 arr1Num arr2 arr2Num

/-! ## `merge_sort_while` -/

/-- A buffer of `num` elements. -/
def whole (b : Buf) (num : Int) : Arr Place := ⟨fun i => (b, i), 0, num⟩

/-- The result of an operation on `int`s; one that is none is undefined. -/
def int {σ : Type} (x : Int) : Act σ Int := if IsInt x then pure x else stop

/-- The body of the inner `for`: two runs of `seg` elements are merged. -/
def mergeSegs (fuel : Nat) (arr1 arr2 : Buf) (num seg start : Int) : Act (Place → Int) Unit := do
  let one ← int (start + seg)
  let two ← int (one + seg)
  let mid := min one num
  let high := min two num
  let _ ← mergeRuns (whole arr1 num) (whole arr1 num) (whole arr2 num) mid high fuel start mid start

/-- `for (; start < num; start += seg * 2)` -/
def startLoop (arr1 arr2 : Buf) (num seg : Int) : Nat → Int → Act (Place → Int) Unit
  | 0, _ => spent
  | fuel + 1, start =>
      if start < num then do
        mergeSegs fuel arr1 arr2 num seg start
        let step ← int (seg * 2)
        let start ← int (start + step)
        startLoop arr1 arr2 num seg fuel start
      else pure ()

/-- `for (; seg < num; seg *= 2)`, with `arr1` and `arr2` in the end. -/
def segLoop (num : Int) : Nat → Int → Buf → Buf → Act (Place → Int) (Buf × Buf)
  | 0, _, _, _ => spent
  | fuel + 1, seg, arr1, arr2 =>
      if seg < num then do
        startLoop arr1 arr2 num seg fuel 0
        let seg ← int (seg * 2)
        segLoop num fuel seg arr2 arr1
      else pure (arr1, arr2)

/-- `if (arr1 != arr)`, with `arr2` behind it. -/
def bringBack (fuel : Nat) (num : Int) (arr1 arr2 : Buf) : Act (Place → Int) Buf :=
  if arr1 ≠ .arr then do
    let _ ← copyLoop (whole arr1 num) (whole arr2 num) num fuel 0 0
    pure arr1
  else pure arr2

/-- `merge_sort_while(arr, num)`, where `malloc` succeeds; the buffer that is freed. -/
def mergeSortWhile (fuel : Nat) (num : Int) : Act (Place → Int) Buf := do
  let (arr1, arr2) ← segLoop num fuel 1 .arr .aux
  bringBack fuel num arr1 arr2

/-! ## The recursive sort -/

variable {a b : Place → Int} {p num num1 num2 : Int} {fuel : Nat}

/-- What the buffer holds. -/
def view (b : Buf) (a : Place → Int) : Int → Int := fun i => a (b, i)

theorem slice_part (a : Place → Int) (p num : Int) :
    slice (a ∘ (part p num).place) 0 num = slice (view .arr a) p (p + num) := by
  have shifted := slice_add (view .arr a) p 0 num
  rwa [Int.add_zero] at shifted

/-- The merged runs are written to `tmp` and back to the array. -/
theorem merging_written {l : List Int} (nonneg1 : 0 ≤ num1) (nonneg2 : 0 ≤ num2)
    (room : num1 + num2 ≤ 100) (enough : (num1 + num2).toNat < fuel)
    (runs : l = merged (cleared a) (part p num1) (part (p + num1) num2) 0 num1 0 num2) :
    merging fuel p num1 (p + num1) num2 a =
      .ended () (written (part p (num1 + num2)) (written tmp (cleared a) 0 l) 0 l) := by
  have apart : ∀ p num i j, (part p num).place i ≠ tmp.place j := fun p num i j => by
    simp [part, tmp]
  have inj : Injective tmp.place := fun i j same => (Prod.mk.inj same).2
  have length := length_merged (cleared a) (part p num1) (part (p + num1) num2) nonneg1 nonneg2
  have there : slice (written tmp (cleared a) 0 l ∘ tmp.place) 0 (0 + l.length) = l :=
    slice_written inj
  have cleared : clear a = .ended () (cleared a) := rfl
  rw [← runs] at length
  rw [merging, bind_ended cleared, bind_ended (mergeRuns_spec (apart p num1) (apart (p + num1) num2)
    nonneg1 nonneg2 (Int.le_refl 0) (Int.le_refl _) (Int.le_refl 0) (Int.le_refl _) (Int.le_refl 0)
    (show _ ≤ (100 : Int) by omega) (by omega)), ← runs, ← length]
  rw [bind_ended (copyLoop_spec (fun i j => (apart p (num1 + num2) j i).symm) (by omega)
    (Int.le_refl 0) (show _ ≤ (100 : Int) by omega) (Int.le_refl 0)
    (show _ ≤ num1 + num2 by omega) (by omega)), there]
  rfl

/-- A merge that has room in `tmp` puts the merged runs where the runs were. -/
theorem merging_spec (nonneg1 : 0 ≤ num1) (nonneg2 : 0 ≤ num2) (room : num1 + num2 ≤ 100)
    (enough : (num1 + num2).toNat < fuel)
    (order1 : (slice (view .arr a) p (p + num1)).Pairwise (· ≤ ·))
    (order2 : (slice (view .arr a) (p + num1) (p + num1 + num2)).Pairwise (· ≤ ·)) :
    ∃ b, merging fuel p num1 (p + num1) num2 a = .ended () b ∧
      Sorted p (p + num1 + num2) (view .arr a) (view .arr b) := by
  obtain ⟨l, runs⟩ :
      ∃ l, l = merged (cleared a) (part p num1) (part (p + num1) num2) 0 num1 0 num2 := ⟨_, rfl⟩
  have length := length_merged (cleared a) (part p num1) (part (p + num1) num2) nonneg1 nonneg2
  rw [← runs] at length
  have same : view .arr (cleared a) = view .arr a := rfl
  have inj : Injective (part p (num1 + num2)).place := fun i j same =>
    Int.add_left_cancel (Prod.mk.inj same).2
  refine ⟨_, merging_written nonneg1 nonneg2 room enough runs, ?_⟩
  have there := slice_written (a := written tmp (cleared a) 0 l) (k := 0) (l := l) inj
  have back := slice_part (written (part p (num1 + num2)) (written tmp (cleared a) 0 l) 0 l) p
    (num1 + num2)
  rw [show (0 : Int) + l.length = num1 + num2 by omega] at there
  rw [show p + (num1 + num2) = p + num1 + num2 by omega] at back
  have result := back.symm.trans there
  refine ⟨?_, ?_, fun i off => ?_⟩
  · have perm := merged_perm (cleared a) (part p num1) (part (p + num1) num2) 0 num1 0 num2
    rw [← runs, slice_part, slice_part, same,
      ← slice_append (p + num1) (by omega) (by omega)] at perm
    rwa [result]
  · rw [result, runs]
    refine merged_pairwise ?_ ?_
    · rwa [slice_part, same]
    · rwa [slice_part, same]
  · rw [view, written_of_ne fun j low high eq => ?_, written_of_ne fun j low high eq => ?_]
    · rfl
    · cases eq
    · have here : i = p + j := (Prod.mk.inj eq).2
      omega

/-- A merge that ends has had room in `tmp`. -/
theorem merging_ended {arr1 arr2 : Int} (nonneg1 : 0 ≤ num1) (nonneg2 : 0 ≤ num2)
    (ran : merging fuel arr1 num1 arr2 num2 a = .ended () b) : num1 + num2 ≤ 100 := by
  obtain ⟨_, c, -, ran⟩ := bind_eq_ended.mp ran
  obtain ⟨k, d, merged, -⟩ := bind_eq_ended.mp ran
  have room := mergeRuns_ended nonneg1 nonneg2 merged
  have hundred : tmp.hi = 100 := rfl
  omega

/-- Two sorted parts, one after the other. -/
theorem Sorted.both {lo mid hi : Int} {a b c : Int → Int} (first : Sorted lo mid a b)
    (second : Sorted mid hi b c) (le : lo ≤ mid) (le' : mid ≤ hi) :
    (slice c lo hi).Perm (slice a lo hi) ∧ (slice c lo mid).Pairwise (· ≤ ·) ∧
      ∀ i, i < lo ∨ hi ≤ i → c i = a i := by
  have same : slice c lo mid = slice b lo mid :=
    slice_congr fun i _ high => second.frame i (.inl high)
  have same' : slice b mid hi = slice a mid hi :=
    slice_congr fun i low _ => first.frame i (.inr low)
  refine ⟨?_, same ▸ first.order, fun i off => ?_⟩
  · rw [slice_append mid le le', slice_append (a := a) mid le le', same, ← same']
    exact first.perm.append second.perm
  · rw [second.frame i (by omega), first.frame i (by omega)]

theorem mergeSortRecursive_spec (nonneg : 0 ≤ num) (room : num ≤ 100)
    (enough : num + 1 < fuel) :
    ∃ b, mergeSortRecursive fuel p num a = .ended () b ∧
      Sorted p (p + num) (view .arr a) (view .arr b) := by
  induction fuel generalizing p num a with
  | zero => omega
  | succ fuel ih =>
      rw [mergeSortRecursive]
      by_cases short : num < 2
      · rw [if_pos short]
        refine ⟨a, rfl, .refl _, pairwise_slice_iff.mpr fun i j low le high => ?_, fun _ _ => rfl⟩
        rw [show i = j by omega]
      rw [if_neg short]
      obtain ⟨count, half⟩ : ∃ count, count = num / 2 := ⟨_, rfl⟩
      rw [← half]
      obtain ⟨b, ranL, sortedL⟩ := @ih a p count (by omega) (by omega) (by omega)
      obtain ⟨c, ranR, sortedR⟩ := @ih b (p + count) (num - count) (by omega) (by omega) (by omega)
      rw [bind_ended ranL, bind_ended ranR]
      rw [show p + count + (num - count) = p + num by omega] at sortedR
      obtain ⟨perm, order, frame⟩ := sortedL.both sortedR (by omega) (by omega)
      obtain ⟨d, ran, sorted⟩ := @merging_spec c p count (num - count) fuel (by omega) (by omega)
        (by omega) (by omega) order (by
          rw [show p + count + (num - count) = p + num by omega]
          exact sortedR.order)
      rw [show p + count + (num - count) = p + num by omega] at sorted
      exact ⟨d, ran, sorted.perm.trans perm, sorted.order,
        fun i off => (sorted.frame i off).trans (frame i off)⟩

/-- The last merge is of the whole array. -/
theorem mergeSortRecursive_ended (ran : mergeSortRecursive fuel p num a = .ended () b) :
    num ≤ 100 := by
  cases fuel with
  | zero => cases ran
  | succ fuel =>
      rw [mergeSortRecursive] at ran
      by_cases short : num < 2
      · omega
      · rw [if_neg short] at ran
        obtain ⟨_, c, -, ran⟩ := bind_eq_ended.mp ran
        obtain ⟨_, d, -, ran⟩ := bind_eq_ended.mp ran
        have room := merging_ended (by omega) (by omega) ran
        omega

/-- The array is sorted when it fits into `tmp`, and only then. -/
theorem mergeSortRecursive_sorted_iff (nonneg : 0 ≤ num) (enough : num + 1 < fuel)
    (a : Place → Int) :
    (∃ b, mergeSortRecursive fuel 0 num a = .ended () b ∧
      Sorted 0 num (view .arr a) (view .arr b)) ↔ num ≤ 100 := by
  constructor
  · rintro ⟨b, ran, -⟩
    exact mergeSortRecursive_ended ran
  · intro room
    obtain ⟨b, ran, sorted⟩ := @mergeSortRecursive_spec a 0 num fuel nonneg room enough
    rw [Int.zero_add] at sorted
    exact ⟨b, ran, sorted⟩

theorem mergeSortRecursive_sorted_three :
    (∃ b, mergeSortRecursive 5 0 3 (fun p => -p.2) = .ended () b ∧
      Sorted 0 3 (view .arr fun p => -p.2) (view .arr b)) ↔ (3 : Int) ≤ 100 :=
  mergeSortRecursive_sorted_iff (by decide) (by decide) _

/-- An array of 101 elements does not fit into `tmp`. -/
theorem mergeSortRecursive_overflow :
    ¬ ∃ fuel b, mergeSortRecursive fuel 0 101 (fun _ => 0) = .ended () b ∧
      Sorted 0 101 (view .arr fun _ => 0) (view .arr b) := by
  rintro ⟨fuel, b, ran, -⟩
  exact absurd (mergeSortRecursive_ended ran) (by decide)

/-! ## The sort in passes -/

variable {arr1 arr2 : Buf} {seg start : Int} {v : Int → Int}

theorem int_eq {σ : Type} {x : Int} (isInt : IsInt x) (s : σ) : int x s = .ended x s := by
  rw [int, if_pos isInt]
  rfl

/-- The parts of `seg` elements are in order, and so is what is left behind the last of them. -/
def Runs (seg num : Int) (v : Int → Int) : Prop :=
  ∀ start, 0 ≤ start → seg ∣ start → (slice v start (min (start + seg) num)).Pairwise (· ≤ ·)

theorem Runs.one (num : Int) (v : Int → Int) : Runs 1 num v := by
  intro start low _
  refine pairwise_slice_iff.mpr fun i j lowI le high => ?_
  rw [show i = j by omega]

/-- The values of one buffer, put in order in the other one. -/
theorem mergeSegs_spec (ne : arr1 ≠ arr2) (small : 3 * num ≤ 2147483647) (pos : 0 < seg)
    (more : seg < num) (low : 0 ≤ start) (inside : start < num)
    (runs : Runs seg num (view arr1 a)) (dvd : seg ∣ start)
    (enough : (num - start).toNat < fuel) :
    ∃ b, mergeSegs fuel arr1 arr2 num seg start a = .ended () b ∧ view arr1 b = view arr1 a ∧
      (slice (view arr2 b) start (min (start + 2 * seg) num)).Perm
        (slice (view arr1 a) start (min (start + 2 * seg) num)) ∧
      (slice (view arr2 b) start (min (start + 2 * seg) num)).Pairwise (· ≤ ·) ∧
      ∀ i, i < start ∨ min (start + 2 * seg) num ≤ i → view arr2 b i = view arr2 a i := by
  obtain ⟨mid, isMid⟩ : ∃ mid, mid = min (start + seg) num := ⟨_, rfl⟩
  obtain ⟨high, isHigh⟩ : ∃ high, high = min (start + seg + seg) num := ⟨_, rfl⟩
  have same : min (start + 2 * seg) num = high := by omega
  have apart : ∀ i j, (whole arr1 num).place i ≠ (whole arr2 num).place j := fun i j eq =>
    ne (Prod.mk.inj eq).1
  have inj : Injective (whole arr2 num).place := fun i j eq => (Prod.mk.inj eq).2
  obtain ⟨l, merging⟩ : ∃ l, l = merged a (whole arr1 num) (whole arr1 num) start mid mid high :=
    ⟨_, rfl⟩
  have length := length_merged a (whole arr1 num) (whole arr1 num)
    (show start ≤ mid by omega) (show mid ≤ high by omega)
  rw [← merging] at length
  have order1 : (slice (view arr1 a) start mid).Pairwise (· ≤ ·) := isMid ▸ runs start low dvd
  have order2 : (slice (view arr1 a) mid high).Pairwise (· ≤ ·) := by
    by_cases second : start + seg < num
    · have behind := runs (start + seg) (by omega) (Int.dvd_add dvd (Int.dvd_refl seg))
      rwa [show start + seg = mid by omega, show min (mid + seg) num = high by omega] at behind
    · rw [slice_eq_nil (by omega)]
      exact .nil
  have there : slice (view arr2 (written (whole arr2 num) a start l)) start high = l := by
    have written := slice_written (a := a) (k := start) (l := l) inj
    rwa [show start + l.length = high by omega] at written
  rw [same]
  refine ⟨written (whole arr2 num) a start l, ?_, written_comp apart, ?_, ?_, fun i off => ?_⟩
  · rw [mergeSegs, bind_ended (int_eq ⟨by omega, by omega⟩ a),
      bind_ended (int_eq ⟨by omega, by omega⟩ a), ← isMid, ← isHigh,
      bind_ended (mergeRuns_spec apart apart (by omega) (by omega) low (show mid ≤ num by omega)
        (show 0 ≤ mid by omega) (show high ≤ num by omega) low (show _ ≤ num by omega)
        (by omega)), ← merging]
    rfl
  · have perm := merged_perm a (whole arr1 num) (whole arr1 num) start mid mid high
    rw [← merging, ← slice_append mid (by omega) (by omega)] at perm
    rwa [there]
  · rw [there, merging]
    exact merged_pairwise order1 order2
  · refine written_of_ne fun j lowJ highJ eq => ?_
    have here : i = j := (Prod.mk.inj eq).2
    omega

/-- A pass from `start` on: the parts of twice as many elements are in order. -/
theorem startLoop_spec (ne : arr1 ≠ arr2) (small : 3 * num ≤ 2147483647) (pos : 0 < seg)
    (more : seg < num) (low : 0 ≤ start) (runs : Runs seg num (view arr1 a))
    (dvd : 2 * seg ∣ start) (enough : (num - start).toNat + 1 < fuel) :
    ∃ b, startLoop arr1 arr2 num seg fuel start a = .ended () b ∧ view arr1 b = view arr1 a ∧
      (slice (view arr2 b) start num).Perm (slice (view arr1 a) start num) ∧
      (∀ next, start ≤ next → 2 * seg ∣ next →
        (slice (view arr2 b) next (min (next + 2 * seg) num)).Pairwise (· ≤ ·)) ∧
      ∀ i, i < start ∨ num ≤ i → view arr2 b i = view arr2 a i := by
  induction fuel generalizing start a with
  | zero => omega
  | succ fuel ih =>
      rw [startLoop]
      by_cases inside : start < num
      · rw [if_pos inside]
        obtain ⟨b, merged, kept, perm, order, frame⟩ :
            ∃ b, mergeSegs fuel arr1 arr2 num seg start a = .ended () b ∧ _ ∧ _ ∧ _ ∧ _ :=
          mergeSegs_spec ne small pos more low inside runs
            (Int.dvd_trans (Int.dvd_mul_left 2 seg) dvd) (by omega)
        have next : 2 * seg ∣ start + seg * 2 := Int.dvd_add dvd ⟨1, by omega⟩
        obtain ⟨c, rest, kept', perm', order', frame'⟩ :=
          @ih b (start + seg * 2) (by omega) (kept ▸ runs) next (by omega)
        rw [bind_ended merged, bind_ended (int_eq ⟨by omega, by omega⟩ b),
          bind_ended (int_eq ⟨by omega, by omega⟩ b)]
        obtain ⟨high, isHigh⟩ : ∃ high, high = min (start + 2 * seg) num := ⟨_, rfl⟩
        rw [← isHigh] at perm order frame
        have stays : slice (view arr2 c) start high = slice (view arr2 b) start high :=
          slice_congr fun i _ less => frame' i (.inl (by omega))
        have behind : (slice (view arr2 c) high num).Perm (slice (view arr1 a) high num) := by
          by_cases last : num ≤ start + seg * 2
          · rw [slice_eq_nil (by omega), slice_eq_nil (by omega)]
          · rwa [show high = start + seg * 2 by omega, ← kept]
        refine ⟨c, rest, kept'.trans kept, ?_, fun next le dvd' => ?_, fun i off => ?_⟩
        · rw [slice_append high (by omega) (by omega), stays,
            slice_append (a := view arr1 a) high (by omega) (by omega)]
          exact perm.append behind
        · by_cases first : next = start
          · rw [first, ← isHigh, stays]
            exact order
          · have far := Int.le_of_dvd (show 0 < next - start by omega) (Int.dvd_sub dvd' dvd)
            exact order' next (by omega) dvd'
        · rw [frame' i (by omega), frame i (by omega)]
      · rw [if_neg inside]
        refine ⟨a, rfl, rfl, ?_, fun next le _ => ?_, fun _ _ => rfl⟩
        · rw [slice_eq_nil (by omega), slice_eq_nil (by omega)]
        · rw [slice_eq_nil (by omega)]
          exact .nil

theorem Buf.eq_or_eq (ne : arr1 ≠ arr2) (c : Buf) : c = arr1 ∨ c = arr2 := by
  cases c <;> cases arr1 <;> cases arr2 <;> simp_all

/-- The passes: what is sorted moves between the buffers until its parts are the whole array. -/
theorem segLoop_spec (ne : arr1 ≠ arr2) (nonneg : 0 ≤ num) (small : 3 * num ≤ 2147483647)
    (pos : 0 < seg) (runs : Runs seg num (view arr1 a))
    (enough : (num - seg).toNat + num.toNat + 2 < fuel) :
    ∃ b c₁ c₂, segLoop num fuel seg arr1 arr2 a = .ended (c₁, c₂) b ∧ c₁ ≠ c₂ ∧
      (slice (view c₁ b) 0 num).Perm (slice (view arr1 a) 0 num) ∧
      (slice (view c₁ b) 0 num).Pairwise (· ≤ ·) ∧
      ∀ c i, i < 0 ∨ num ≤ i → view c b i = view c a i := by
  induction fuel generalizing seg arr1 arr2 a with
  | zero => omega
  | succ fuel ih =>
      rw [segLoop]
      by_cases more : seg < num
      · rw [if_pos more]
        obtain ⟨b, passed, kept, perm, order, frame⟩ :
            ∃ b, startLoop arr1 arr2 num seg fuel 0 a = .ended () b ∧ _ ∧ _ ∧ _ ∧ _ :=
          startLoop_spec ne small pos more (Int.le_refl 0) runs (Int.dvd_zero _) (by omega)
        have wider : Runs (seg * 2) num (view arr2 b) := fun next low dvd => by
          rw [Int.mul_comm] at dvd ⊢
          exact order next low dvd
        obtain ⟨d, c₁, c₂, rest, apart, perm', order', frame'⟩ :=
          ih ne.symm (by omega) wider (by omega)
        rw [bind_ended passed, bind_ended (int_eq ⟨by omega, by omega⟩ b)]
        refine ⟨d, c₁, c₂, rest, apart, perm'.trans perm, order', fun c i off => ?_⟩
        rw [frame' c i off]
        rcases Buf.eq_or_eq ne c with rfl | rfl
        · exact congrFun kept i
        · exact frame i off
      · rw [if_neg more]
        have whole := runs 0 (Int.le_refl 0) (Int.dvd_zero seg)
        rw [show min (0 + seg) num = num by omega] at whole
        exact ⟨a, arr1, arr2, rfl, ne, .refl _, whole, fun _ _ _ => rfl⟩

/-- Whichever buffer the sorted values are in, they get to the array, and the other buffer is the
one that is freed. -/
theorem bringBack_spec (ne : arr1 ≠ arr2) (nonneg : 0 ≤ num) (enough : num < fuel) :
    ∃ b, bringBack fuel num arr1 arr2 a = .ended .aux b ∧
      slice (view .arr b) 0 num = slice (view arr1 a) 0 num ∧
      ∀ i, i < 0 ∨ num ≤ i → view .arr b i = view .arr a i := by
  cases arr1 with
  | arr =>
      cases arr2 with
      | arr => exact absurd rfl ne
      | aux => exact ⟨a, rfl, rfl, fun _ _ => rfl⟩
  | aux =>
      cases arr2 with
      | aux => exact absurd rfl ne
      | arr =>
          have inj : Injective (whole .arr num).place := fun i j eq => (Prod.mk.inj eq).2
          obtain ⟨l, values⟩ : ∃ l, l = slice (view .aux a) 0 num := ⟨_, rfl⟩
          have length := length_slice (view .aux a) 0 num
          rw [← values] at length
          have copied : copyLoop (whole .aux num) (whole .arr num) num fuel 0 0 a = _ :=
            copyLoop_spec (fun i j eq => by cases eq) nonneg (Int.le_refl 0) (Int.le_refl num)
              (Int.le_refl 0) (show _ ≤ num by omega) (by omega)
          have there := slice_written (a := a) (k := 0) (l := l) inj
          rw [length, show (0 : Int) + ((num - 0).toNat : Int) = num by omega] at there
          refine ⟨written (whole .arr num) a 0 l, ?_, there.trans values, fun i off => ?_⟩
          · rw [bringBack, if_pos (by decide), bind_ended copied, values]
            rfl
          · refine written_of_ne fun j low high eq => ?_
            have here : i = j := (Prod.mk.inj eq).2
            omega

/-- `merge_sort_while` sorts the array, stays within both buffers and frees the one that it
allocated. -/
theorem mergeSortWhile_sorted (nonneg : 0 ≤ num) (small : 3 * num ≤ 2147483647)
    (enough : 2 * num + 2 < fuel) (a : Place → Int) :
    ∃ b, mergeSortWhile fuel num a = .ended .aux b ∧
      Sorted 0 num (view .arr a) (view .arr b) := by
  have apart : Buf.arr ≠ .aux := by decide
  obtain ⟨b, c₁, c₂, passed, ne, perm, order, frame⟩ :
      ∃ b c₁ c₂, segLoop num fuel 1 .arr .aux a = .ended (c₁, c₂) b ∧ _ ∧ _ ∧ _ ∧ _ :=
    segLoop_spec apart nonneg small Int.one_pos (.one num (view .arr a)) (by omega)
  obtain ⟨c, brought, same, frame'⟩ : ∃ c, bringBack fuel num c₁ c₂ b = .ended .aux c ∧ _ ∧ _ :=
    bringBack_spec ne nonneg (by omega)
  refine ⟨c, ?_, same ▸ perm, same ▸ order, fun i off => (frame' i off).trans (frame .arr i off)⟩
  rw [mergeSortWhile, bind_ended passed]
  exact brought

/-- Three passes, of which the last one has a short second run. -/
theorem mergeSortWhile_sorted_five :
    ∃ b, mergeSortWhile 13 5 (fun p => -p.2) = .ended .aux b ∧
      Sorted 0 5 (view .arr fun p => -p.2) (view .arr b) :=
  mergeSortWhile_sorted (by decide) (by decide) (by decide) _

end Shang.Sort
