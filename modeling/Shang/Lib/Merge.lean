import Shang.Lib.Places
import Mathlib.Order.Defs.LinearOrder

/-!
# Merging runs of arrays

The loops that merge two runs into a third array: as long as both runs have an
element, the one of the first run goes first if it is less than the other. What is
left of a run is copied behind. The result is `List.merge` of the runs, with the
second one as the first argument, since it goes first when the two are equal.
-/

namespace Shang.Lib

open Function

variable {ι α : Type} {arr src dst left right : Arr ι} {a : ι → α} {i j k stop endL endR : Int}

/-! ## Merged runs -/

section merged

variable [LinearOrder α]

/-- The two runs merged; of two equal values the one of the second run comes first. -/
def merged (a : ι → α) (left right : Arr ι) (i endL j endR : Int) : List α :=
  (slice (a ∘ right.place) j endR).merge (slice (a ∘ left.place) i endL) (· ≤ ·)

theorem length_merged (a : ι → α) (left right : Arr ι) (leL : i ≤ endL) (leR : j ≤ endR) :
    ((merged a left right i endL j endR).length : Int) = endL - i + (endR - j) := by
  rw [merged, List.length_merge, length_slice, length_slice]
  omega

theorem merged_left (more : i < endL ∧ j < endR)
    (less : a (left.place i) < a (right.place j)) :
    merged a left right i endL j endR =
      a (left.place i) :: merged a left right (i + 1) endL j endR := by
  have second := slice_succ (a := a ∘ right.place) more.2
  rw [merged, slice_succ more.1, second, List.cons_merge_cons_neg, merged, second]
  · rfl
  · simpa using less

theorem merged_right (more : i < endL ∧ j < endR)
    (le : ¬ a (left.place i) < a (right.place j)) :
    merged a left right i endL j endR =
      a (right.place j) :: merged a left right i endL (j + 1) endR := by
  have first := slice_succ (a := a ∘ left.place) more.1
  rw [merged, first, slice_succ more.2, List.cons_merge_cons_pos, merged, first]
  · rfl
  · simpa using le

theorem merged_of_end (stop : i = endL ∨ j = endR) :
    merged a left right i endL j endR =
      slice (a ∘ left.place) i endL ++ slice (a ∘ right.place) j endR := by
  rcases stop with rfl | rfl
  · rw [merged, slice_eq_nil (a := a ∘ left.place) (Int.le_refl i)]
    simp
  · rw [merged, slice_eq_nil (a := a ∘ right.place) (Int.le_refl j)]
    simp

theorem merged_perm (a : ι → α) (left right : Arr ι) (i endL j endR : Int) :
    (merged a left right i endL j endR).Perm
      (slice (a ∘ left.place) i endL ++ slice (a ∘ right.place) j endR) :=
  (List.merge_perm_append _).trans List.perm_append_comm

theorem merged_pairwise (sortedL : (slice (a ∘ left.place) i endL).Pairwise (· ≤ ·))
    (sortedR : (slice (a ∘ right.place) j endR).Pairwise (· ≤ ·)) :
    (merged a left right i endL j endR).Pairwise (· ≤ ·) := by
  have trans : ∀ x y z : α, decide (x ≤ y) → decide (y ≤ z) → decide (x ≤ z) :=
    fun x y z => by simpa using le_trans
  have total : ∀ x y : α, decide (x ≤ y) || decide (y ≤ x) :=
    fun x y => by simpa using le_total x y
  have sorted := List.pairwise_merge trans total _ _ (by simpa using sortedR)
    (by simpa using sortedL)
  simpa only [merged, decide_eq_true_eq] using sorted

end merged

/-! ## Lists in arrays -/

variable [DecidableEq ι]

/-- The memory with the list in the array, from the index `k` on. -/
def written (arr : Arr ι) : (ι → α) → Int → List α → ι → α
  | a, _, [] => a
  | a, k, x :: l => written arr (update a (arr.place k) x) (k + 1) l

variable {l : List α}

theorem written_append (l m : List α) :
    written arr a k (l ++ m) = written arr (written arr a k l) (k + l.length) m := by
  induction l generalizing a k with
  | nil => simp [written]
  | cons x l ih =>
      rw [List.cons_append, written, ih, written, List.length_cons]
      congr 1
      omega

theorem written_of_ne {p : ι} (off : ∀ i, k ≤ i → i < k + l.length → p ≠ arr.place i) :
    written arr a k l p = a p := by
  induction l generalizing a k with
  | nil => rfl
  | cons x l ih =>
      rw [List.length_cons] at off
      rw [written, ih fun i low high => off i (by omega) (by omega),
        update_of_ne (off k (by omega) (by omega))]

/-- What was written is there. -/
theorem slice_written (inj : Injective arr.place) :
    slice (fun i => written arr a k l (arr.place i)) k (k + l.length) = l := by
  induction l generalizing a k with
  | nil => exact slice_eq_nil (by simp)
  | cons x l ih =>
      have length : k + ((x :: l).length : Int) = k + 1 + l.length := by
        rw [List.length_cons]
        omega
      rw [length, slice_succ (by omega)]
      simp only [written]
      rw [written_of_ne fun i low high => inj.ne (by omega), update_self, ih]

/-- Another array is not changed. -/
theorem written_comp (apart : ∀ i j, src.place i ≠ dst.place j) :
    written dst a k l ∘ src.place = a ∘ src.place := by
  funext i
  exact written_of_ne fun j _ _ => apart i j

/-! ## The loops -/

namespace Act

/-- `dst[k] = src[i]` -/
def move (src : Arr ι) (i : Int) (dst : Arr ι) (k : Int) : Act (ι → α) Unit := do
  let x ← load src i
  store dst k x

/-- `while (i < stop) dst[k++] = src[i++]`, with `k` in the end. -/
def copyLoop (src dst : Arr ι) (stop : Int) : Nat → Int → Int → Act (ι → α) Int
  | 0, _, _ => spent
  | fuel + 1, i, k =>
      if i < stop then do
        move src i dst k
        copyLoop src dst stop fuel (i + 1) (k + 1)
      else pure k

variable [LinearOrder α]

/-- `while (i < endL && j < endR)`: the smaller one of `left[i]` and `right[j]` is moved to
`dst[k]`. -/
def mergeLoop (left right dst : Arr ι) (endL endR : Int) :
    Nat → Int → Int → Int → Act (ι → α) (Int × Int × Int)
  | 0, _, _, _ => spent
  | fuel + 1, i, j, k =>
      if i < endL ∧ j < endR then do
        let x ← load left i
        let y ← load right j
        if x < y then do
          move left i dst k
          mergeLoop left right dst endL endR fuel (i + 1) j (k + 1)
        else do
          move right j dst k
          mergeLoop left right dst endL endR fuel i (j + 1) (k + 1)
      else pure (i, j, k)

/-- The loop, and one for what is left of each run; `k` in the end. -/
def mergeRuns (left right dst : Arr ι) (endL endR : Int) (fuel : Nat) (i j k : Int) :
    Act (ι → α) Int := do
  let (i, j, k) ← mergeLoop left right dst endL endR fuel i j k
  let k ← copyLoop left dst endL fuel i k
  copyLoop right dst endR fuel j k

end Act

/-! ## What they write, and the room they need -/

variable {fuel : Nat}

theorem move_eq (srcLow : src.lo ≤ i) (srcHigh : i < src.hi) (dstLow : dst.lo ≤ k)
    (dstHigh : k < dst.hi) :
    Act.move src i dst k a = .ended () (update a (dst.place k) (a (src.place i))) := by
  rw [Act.move, Act.bind_ended (Act.load_eq srcLow srcHigh a), Act.store_eq dstLow dstHigh]

theorem move_ended {b : ι → α} (ran : Act.move src i dst k a = .ended () b) :
    dst.lo ≤ k ∧ k < dst.hi := by
  obtain ⟨x, c, -, stored⟩ := Act.bind_eq_ended.mp ran
  exact Act.store_ended stored

theorem copyLoop_spec (apart : ∀ i j, src.place i ≠ dst.place j) (le : i ≤ stop)
    (srcLow : src.lo ≤ i) (srcHigh : stop ≤ src.hi) (dstLow : dst.lo ≤ k)
    (dstHigh : k + (stop - i) ≤ dst.hi) (enough : (stop - i).toNat < fuel) :
    Act.copyLoop src dst stop fuel i k a =
      .ended (k + (stop - i)) (written dst a k (slice (a ∘ src.place) i stop)) := by
  induction fuel generalizing i k a with
  | zero => omega
  | succ fuel ih =>
      rw [Act.copyLoop]
      by_cases more : i < stop
      · have rest := written_comp (a := a) (k := k) (l := [a (src.place i)]) apart
        rw [written, written] at rest
        rw [if_pos more, Act.bind_ended (move_eq srcLow (by omega) dstLow (by omega)),
          ih (by omega) (by omega) (by omega) (by omega) (by omega), rest, slice_succ more, written]
        congr 1
        omega
      · obtain rfl : i = stop := by omega
        rw [if_neg more, slice_eq_nil (Int.le_refl _), written, Int.sub_self, Int.add_zero,
          Act.pure_eq]

/-- A loop that comes to its end has had room for what it wrote. -/
theorem copyLoop_ended {b : ι → α} {k' : Int} (le : i ≤ stop)
    (ran : Act.copyLoop src dst stop fuel i k a = .ended k' b) :
    k' = k + (stop - i) ∧ (k < k' → k' ≤ dst.hi) := by
  induction fuel generalizing i k a with
  | zero => cases ran
  | succ fuel ih =>
      rw [Act.copyLoop] at ran
      by_cases more : i < stop
      · rw [if_pos more] at ran
        obtain ⟨_, c, moved, rest⟩ := Act.bind_eq_ended.mp ran
        have room := move_ended moved
        have behind := ih (by omega) rest
        omega
      · rw [if_neg more] at ran
        cases ran
        omega

variable [LinearOrder α]

/-- Values that are moved from elsewhere leave the runs as they are. -/
theorem merged_update (apartL : ∀ i j, left.place i ≠ dst.place j)
    (apartR : ∀ i j, right.place i ≠ dst.place j) (x : α) :
    merged (update a (dst.place k) x) left right i endL j endR =
      merged a left right i endL j endR := by
  have sameL := written_comp (a := a) (k := k) (l := [x]) apartL
  have sameR := written_comp (a := a) (k := k) (l := [x]) apartR
  rw [written, written] at sameL sameR
  rw [merged, sameL, sameR, merged]

/-- The loop writes the merged runs as far as one of them has come to its end. -/
theorem mergeLoop_spec (apartL : ∀ i j, left.place i ≠ dst.place j)
    (apartR : ∀ i j, right.place i ≠ dst.place j) (leL : i ≤ endL) (leR : j ≤ endR)
    (lowL : left.lo ≤ i) (highL : endL ≤ left.hi) (lowR : right.lo ≤ j) (highR : endR ≤ right.hi)
    (low : dst.lo ≤ k) (high : k + (endL - i + (endR - j)) ≤ dst.hi)
    (enough : (endL - i + (endR - j)).toNat < fuel) :
    ∃ i' j' l, Act.mergeLoop left right dst endL endR fuel i j k a =
        .ended (i', j', k + (i' - i + (j' - j))) (written dst a k l) ∧
      (i ≤ i' ∧ i' ≤ endL ∧ j ≤ j' ∧ j' ≤ endR) ∧ (i' = endL ∨ j' = endR) ∧
      l.length = i' - i + (j' - j) ∧
      merged a left right i endL j endR = l ++ merged a left right i' endL j' endR := by
  induction fuel generalizing i j k a with
  | zero => omega
  | succ fuel ih =>
      rw [Act.mergeLoop]
      by_cases more : i < endL ∧ j < endR
      · rw [if_pos more, Act.bind_ended (Act.load_eq lowL (by omega) a),
          Act.bind_ended (Act.load_eq lowR (by omega) a)]
        by_cases less : a (left.place i) < a (right.place j)
        · obtain ⟨i', j', l, ran, inside, stop, length, rest⟩ :=
            @ih (update a (dst.place k) (a (left.place i))) (i + 1) j (k + 1) (by omega) leR
              (by omega) lowR (by omega) (by omega) (by omega)
          refine ⟨i', j', a (left.place i) :: l, ?_, by omega, stop, ?_, ?_⟩
          · rw [if_pos less, Act.bind_ended (move_eq lowL (by omega) low (by omega)), ran, written]
            congr 3
            omega
          · rw [List.length_cons]
            omega
          · rw [merged_update apartL apartR, merged_update apartL apartR] at rest
            rw [merged_left more less, rest, List.cons_append]
        · obtain ⟨i', j', l, ran, inside, stop, length, rest⟩ :=
            @ih (update a (dst.place k) (a (right.place j))) i (j + 1) (k + 1) leL (by omega)
              lowL (by omega) (by omega) (by omega) (by omega)
          refine ⟨i', j', a (right.place j) :: l, ?_, by omega, stop, ?_, ?_⟩
          · rw [if_neg less, Act.bind_ended (move_eq lowR (by omega) low (by omega)), ran, written]
            congr 3
            omega
          · rw [List.length_cons]
            omega
          · rw [merged_update apartL apartR, merged_update apartL apartR] at rest
            rw [merged_right more less, rest, List.cons_append]
      · rw [if_neg more]
        refine ⟨i, j, [], ?_, by omega, by omega, ?_, rfl⟩
        · rw [Int.sub_self, Int.sub_self, Int.add_zero, Int.add_zero]
          rfl
        · simp

/-- The two runs are merged into the array from `k` on. -/
theorem mergeRuns_spec (apartL : ∀ i j, left.place i ≠ dst.place j)
    (apartR : ∀ i j, right.place i ≠ dst.place j) (leL : i ≤ endL) (leR : j ≤ endR)
    (lowL : left.lo ≤ i) (highL : endL ≤ left.hi) (lowR : right.lo ≤ j) (highR : endR ≤ right.hi)
    (low : dst.lo ≤ k) (high : k + (endL - i + (endR - j)) ≤ dst.hi)
    (enough : (endL - i + (endR - j)).toNat < fuel) :
    Act.mergeRuns left right dst endL endR fuel i j k a =
      .ended (k + (endL - i + (endR - j)))
        (written dst a k (merged a left right i endL j endR)) := by
  obtain ⟨i', j', l, ran, inside, stop, length, rest⟩ :=
    mergeLoop_spec (a := a) apartL apartR leL leR lowL highL lowR highR low high enough
  have lengthL := length_slice (a ∘ left.place) i' endL
  rw [Act.mergeRuns, Act.bind_ended ran]
  dsimp only
  rw [Act.bind_ended (copyLoop_spec apartL (by omega) (by omega) (by omega) (by omega) (by omega)
    (by omega)), copyLoop_spec apartR (by omega) (by omega) (by omega) (by omega) (by omega)
    (by omega), written_comp apartR, written_comp apartR, written_comp apartL, rest,
    merged_of_end stop, written_append, written_append, length, lengthL,
    Int.toNat_of_nonneg (by omega)]
  congr 1
  omega

theorem mergeLoop_ended {b : ι → α} {i' j' k' : Int} (leL : i ≤ endL) (leR : j ≤ endR)
    (ran : Act.mergeLoop left right dst endL endR fuel i j k a = .ended (i', j', k') b) :
    i' ≤ endL ∧ j' ≤ endR ∧ i' + j' - k' = i + j - k ∧ (k < k' → k' ≤ dst.hi) := by
  induction fuel generalizing i j k a with
  | zero => cases ran
  | succ fuel ih =>
      rw [Act.mergeLoop] at ran
      by_cases more : i < endL ∧ j < endR
      · rw [if_pos more] at ran
        obtain ⟨x, c, -, ran⟩ := Act.bind_eq_ended.mp ran
        obtain ⟨y, d, -, ran⟩ := Act.bind_eq_ended.mp ran
        by_cases less : x < y
        · rw [if_pos less] at ran
          obtain ⟨_, e, moved, rest⟩ := Act.bind_eq_ended.mp ran
          have room := move_ended moved
          have behind := ih (by omega) leR rest
          omega
        · rw [if_neg less] at ran
          obtain ⟨_, e, moved, rest⟩ := Act.bind_eq_ended.mp ran
          have room := move_ended moved
          have behind := ih leL (by omega) rest
          omega
      · rw [if_neg more] at ran
        cases ran
        omega

theorem mergeRuns_ended {b : ι → α} {k' : Int} (leL : i ≤ endL) (leR : j ≤ endR)
    (ran : Act.mergeRuns left right dst endL endR fuel i j k a = .ended k' b) :
    k' = k + (endL - i + (endR - j)) ∧ (k < k' → k' ≤ dst.hi) := by
  obtain ⟨⟨i', j', k₁⟩, c, looped, ran⟩ := Act.bind_eq_ended.mp ran
  obtain ⟨k₂, d, copied, ran⟩ := Act.bind_eq_ended.mp ran
  have first := mergeLoop_ended leL leR looped
  have second := copyLoop_ended first.1 copied
  have third := copyLoop_ended first.2.1 ran
  omega

end Shang.Lib
