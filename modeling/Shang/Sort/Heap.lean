import Shang.Lib.Heap
import Shang.Sort.Func
import Mathlib

/-!
# Heap sorts

`5.heap.c`. `heap_sort1` sorts `arr[1]` to `arr[num]`, `heap_sort2` sorts `arr[0]` to
`arr[num - 1]`; the two write out the same algorithm for the children `2 * i` and
`2 * i + 1`, and `2 * i + 1` and `2 * i + 2`. An `int` has 32 bits and wraps around.
The second one counts comparisons and moves, and prints the counts.
-/

namespace Shang.Sort

open Shang.Lib Shang.Lib.Act Function

/-- The `int`s in memory: those around the array, and the two that are static. -/
inductive Cell
  | elem (i : Int)
  | compareTimes
  | moveTimes
  deriving DecidableEq

/-- `arr`, of which `arr[lo]` to `arr[hi - 1]` may be used. -/
def ints (lo hi : Int) : Arr Cell := ⟨.elem, lo, hi⟩

def get (c : Cell) : Act (Cell → Int) Int := fun a => .ended (a c) a

def set (c : Cell) (x : Int) : Act (Cell → Int) Unit := fun a => .ended () (update a c x)

/-- `c += n` -/
def add (c : Cell) (n : Int) : Act (Cell → Int) Unit := do
  let x ← get c
  set c (wrap (x + n))

/-! ## The functions -/

/-- What `heap_adjust1` and `heap_adjust2` differ in: where the first child is, the conditions on
the index `i` for the given `num`, and the counting. -/
structure Variant where
  child : Int → Int
  inHeap : Int → Int → Bool
  hasNext : Int → Int → Bool
  compared : Act (Cell → Int) Unit
  moved : Act (Cell → Int) Unit

section Program

variable (v : Variant) (arr : Arr Cell)

/-- `if (... && arr[i]<arr[i+1]) i++` -/
def greater (num i : Int) : Act (Cell → Int) Int :=
  if v.hasNext i num then do
    let x ← load arr i
    let y ← load arr (i + 1)
    if x < y then pure (i + 1) else pure i
  else pure i

/-- The loop, with `start` in the end. -/
def adjustLoop (num tmp : Int) : Nat → Int → Int → Act (Cell → Int) Int
  | 0, _, _ => spent
  | fuel + 1, start, i =>
      if v.inHeap i num then do
        v.compared
        let i ← greater v arr num i
        let x ← load arr i
        if tmp ≥ x then pure start
        else do
          store arr start x
          v.moved
          adjustLoop num tmp fuel i (wrap (v.child i))
      else pure start

def heapAdjust (fuel : Nat) (start num : Int) : Act (Cell → Int) Unit := do
  let tmp ← load arr start
  let start ← adjustLoop v arr num tmp fuel start (wrap (v.child start))
  store arr start tmp
  v.moved

end Program

def variant1 : Variant where
  child i := 2 * i
  inHeap i num := i ≤ num
  hasNext i num := i < num
  compared := pure ()
  moved := pure ()

def variant2 : Variant where
  child i := 2 * i + 1
  inHeap i num := i < num
  hasNext i num := i + 1 < num
  compared := add .compareTimes 1
  moved := add .moveTimes 1

/-- `heap_adjust1(arr, start, num)` -/
def heapAdjust1 : Arr Cell → Nat → Int → Int → Act (Cell → Int) Unit := heapAdjust variant1

/-- `heap_adjust2(arr, start, num)` -/
def heapAdjust2 : Arr Cell → Nat → Int → Int → Act (Cell → Int) Unit := heapAdjust variant2

/-- `for (; go(i); i--) body(i)` -/
def downLoop (go : Int → Bool) (body : Nat → Int → Act (Cell → Int) Unit) :
    Nat → Int → Act (Cell → Int) Unit
  | 0, _ => spent
  | fuel + 1, i =>
      if go i then do
        body fuel i
        downLoop go body fuel (i - 1)
      else pure ()

/-- The body of the second loop of `heap_sort1`. -/
def takeOff1 (arr : Arr Cell) (fuel : Nat) (i : Int) : Act (Cell → Int) Unit := do
  swap arr 1 i
  heapAdjust1 arr fuel 1 (i - 1)

/-- `heap_sort1(arr, num)` -/
def heapSort1 (fuel : Nat) (num : Int) : Act (Cell → Int) Unit := do
  let arr := ints 1 (num + 1)
  downLoop (fun i => i > 0) (fun fuel i => heapAdjust1 arr fuel i num) fuel (num / 2)
  downLoop (fun i => i > 1) (takeOff1 arr) fuel num

/-- The body of the second loop of `heap_sort2`. -/
def takeOff2 (arr : Arr Cell) (fuel : Nat) (i : Int) : Act (Cell → Int) Unit := do
  swap arr 0 i
  add .moveTimes 3
  heapAdjust2 arr fuel 0 i

/-- `heap_sort2(arr, num)`, with the three numbers that it prints. -/
def heapSort2 (fuel : Nat) (num : Int) : Act (Cell → Int) (Int × Int × Int) := do
  let arr := ints 0 num
  set .compareTimes 0
  set .moveTimes 0
  downLoop (fun i => i ≥ 0) (fun fuel i => heapAdjust2 arr fuel i num) fuel (num / 2 - 1)
  downLoop (fun i => i > 0) (takeOff2 arr) fuel (num - 1)
  let compares ← get .compareTimes
  let moves ← get .moveTimes
  pure (compares, moves, wrap (compares + moves))

/-! ## Memory and keys -/

variable {base num lo hi i j x tmp : Int} {a b : Cell → Int} {w : Int → Int} {n N c k : Nat}
  {fuel : Nat}

/-- The elements, without what is counted. -/
def elems (a : Cell → Int) : Int → Int := fun i => a (.elem i)

theorem load_ints (low : lo ≤ i) (high : i < hi) (a : Cell → Int) :
    load (ints lo hi) i a = .ended (elems a i) a := load_eq low high a

theorem elems_store (low : lo ≤ i) (high : i < hi) (x : Int) (a : Cell → Int) :
    ∃ b, store (ints lo hi) i x a = .ended () b ∧ elems b = update (elems a) i x :=
  ⟨_, store_eq low high x a, update_comp_eq_of_injective a (fun _ _ => Cell.elem.inj) i x⟩

theorem elems_swap (lowI : lo ≤ i) (highI : i < hi) (lowJ : lo ≤ j) (highJ : j < hi)
    (a : Cell → Int) :
    ∃ b, swap (ints lo hi) i j a = .ended () b ∧
      elems b = update (update (elems a) i (elems a j)) j (elems a i) := by
  have inj : Injective Cell.elem := fun _ _ => Cell.elem.inj
  refine ⟨_, swap_eq lowI highI lowJ highJ a, ?_⟩
  exact (update_comp_eq_of_injective _ inj j _).trans
    (congrArg (update · j _) (update_comp_eq_of_injective a inj i _))

/-- The program ends, and changes no element. -/
def Silent (p : Act (Cell → Int) Unit) : Prop := ∀ a, ∃ b, p a = .ended () b ∧ elems b = elems a

theorem silent_pure : Silent (pure ()) := fun a => ⟨a, rfl, rfl⟩

theorem silent_set {c : Cell} (off : ∀ i, Cell.elem i ≠ c) (x : Int) : Silent (set c x) :=
  fun _ => ⟨_, rfl, funext fun i => update_of_ne (off i) _ _⟩

theorem silent_add {c : Cell} (off : ∀ i, Cell.elem i ≠ c) (n : Int) : Silent (add c n) :=
  fun a => silent_set off (wrap (a c + n)) a

/-- The array as a heap: the greatest element is the first in the order of the keys. -/
def keys (base : Int) (w : Int → Int) (n : Nat) : Intᵒᵈ := OrderDual.toDual (w (base + n))

theorem keys_le {m n : Nat} : keys base w m ≤ keys base w n ↔ w (base + n) ≤ w (base + m) := .rfl

theorem keys_update : keys base (update w (base + n) x) = update (keys base w) n (.toDual x) := by
  funext m
  by_cases here : m = n
  · rw [here, update_self, keys, update_self]
  · rw [update_of_ne here, keys, update_of_ne (by omega)]
    rfl

theorem keys_exchange :
    keys base (update (update w (base + n) (w (base + c))) (base + c) (w (base + n))) =
      exchange (keys base w) n c := by
  rw [keys_update, keys_update]
  rfl

/-- The value tmp of a hole and that of another cell change places. -/
theorem hole_moves (ne : i ≠ j) :
    update (update (update w i tmp) i (update w i tmp j)) j (update w i tmp i) =
      update (update w i (w j)) j tmp := by
  rw [update_of_ne ne.symm, update_self, update_idem]

/-- The least child is in front of every child of the hole, whatever the hole holds. -/
theorem below_hole
    (least : ∀ i, i = 2 * n + 1 ∨ i = 2 * n + 1 + 1 → i < N → keys base w c ≤ keys base w i) :
    ∀ i, 0 < i → i < N → parent i = n → keys base w c ≤ keys base (update w (base + n) tmp) i := by
  intro i pos inside here
  have above := parent_lt pos
  rw [keys_update, update_of_ne (by omega)]
  exact least i ((parent_eq_iff pos).mp here) inside

/-- The greater child goes up into the hole, when `tmp` may not stand there. -/
theorem hole_descends (down : DownHeap (keys base (update w (base + n) tmp)) N k n)
    (which : c = 2 * n + 1 ∨ c = 2 * n + 1 + 1) (bound : c < N) (from_ : k ≤ n)
    (least : ∀ i, i = 2 * n + 1 ∨ i = 2 * n + 1 + 1 → i < N → keys base w c ≤ keys base w i)
    (greater : tmp < w (base + c)) :
    DownHeap (keys base (update (update w (base + n) (w (base + c))) (base + c) tmp)) N k c ∧
      Rearranged (Set.Ico (base + (k : Int)) (base + N)) (update w (base + n) tmp)
        (update (update w (base + n) (w (base + c))) (base + c) tmp) := by
  have under : parent c = n := (parent_eq_iff (by omega)).mpr which
  have apart : base + (n : Int) ≠ base + c := by omega
  have hole : keys base (update w (base + n) tmp) n = .toDual tmp := by
    rw [keys_update, update_self]
  have child : keys base (update w (base + n) tmp) c = keys base w c := by
    rw [keys_update, update_of_ne (by omega)]
  have later : keys base w c ≤ .toDual tmp := Int.le_of_lt greater
  have descended := down.descend (by omega) bound under
    (fun i pos inside here => child ▸ below_hole least i pos inside here)
    (child ▸ hole ▸ later) from_
  have memN : base + (n : Int) ∈ Set.Ico (base + (k : Int)) (base + N) := ⟨by omega, by omega⟩
  have memC : base + (c : Int) ∈ Set.Ico (base + (k : Int)) (base + N) := ⟨by omega, by omega⟩
  have exchanged := Rearranged.exchange memN memC (update w (base + n) tmp)
  rw [hole_moves apart] at exchanged
  rw [← keys_exchange, hole_moves apart] at descended
  exact ⟨descended, exchanged⟩

/-- What the two variants have in common: element `n` of the heap has the index `base + n`. -/
structure Layout (base : Int) (v : Variant) : Prop where
  child : ∀ n : Nat, v.child (base + n) = base + (2 * n + 1 : Nat)
  inHeap : ∀ n N : Nat, v.inHeap (base + n) N = true ↔ n < N
  hasNext : ∀ n N : Nat, v.hasNext (base + n) N = true ↔ n + 1 < N
  compared : Silent v.compared
  moved : Silent v.moved

theorem layout1 : Layout 1 variant1 where
  child n := by
    show 2 * (1 + (n : Int)) = 1 + (2 * n + 1 : Nat)
    omega
  inHeap n N := by
    refine decide_eq_true_iff.trans ?_
    omega
  hasNext n N := by
    refine decide_eq_true_iff.trans ?_
    omega
  compared := silent_pure
  moved := silent_pure

theorem layout2 : Layout 0 variant2 where
  child n := by
    show 2 * (0 + (n : Int)) + 1 = 0 + (2 * n + 1 : Nat)
    omega
  inHeap n N := by
    refine decide_eq_true_iff.trans ?_
    omega
  hasNext n N := by
    refine decide_eq_true_iff.trans ?_
    omega
  compared := silent_add (fun i eq => by cases eq) 1
  moved := silent_add (fun i eq => by cases eq) 1

/-! ## Sifting down -/

section Sift

variable {v : Variant} (layout : Layout base v)

include layout

theorem greater_spec (low : lo ≤ base) (high : base + N ≤ hi) (inside : n < N) :
    ∃ c : Nat, greater v (ints lo hi) N (base + n) a = .ended (base + c) a ∧
      (c = n ∨ c = n + 1) ∧ c < N ∧
      ∀ i, i = n ∨ i = n + 1 → i < N → keys base (elems a) c ≤ keys base (elems a) i := by
  rw [greater]
  by_cases more : n + 1 < N
  · have next : base + n + 1 = base + (n + 1 : Nat) := by omega
    rw [if_pos ((layout.hasNext n N).mpr more), next,
      bind_ended (load_ints (by omega) (by omega) a),
      bind_ended (load_ints (by omega) (by omega) a)]
    by_cases less : elems a (base + n) < elems a (base + (n + 1 : Nat))
    · rw [if_pos less]
      refine ⟨n + 1, rfl, .inr rfl, more, fun i which _ => ?_⟩
      rcases which with rfl | rfl
      · exact keys_le.mpr (Int.le_of_lt less)
      · exact le_refl _
    · rw [if_neg less]
      refine ⟨n, rfl, .inl rfl, inside, fun i which _ => ?_⟩
      rcases which with rfl | rfl
      · exact le_refl _
      · exact keys_le.mpr (Int.not_lt.mp less)
  · rw [if_neg (mt (layout.hasNext n N).mp more)]
    refine ⟨n, rfl, .inl rfl, inside, fun i which bound => ?_⟩
    rcases which with rfl | rfl
    · exact le_refl _
    · exact absurd bound more

/-- The loop ends with the hole where `tmp` may stand. -/
theorem adjustLoop_spec (nonneg : 0 ≤ base) (small : base + 2 * N ≤ 2147483648) (low : lo ≤ base)
    (high : base + N ≤ hi) (inside : n < N) (from_ : k ≤ n)
    (down : DownHeap (keys base (update (elems a) (base + n) tmp)) N k n)
    (enough : N - n < fuel) :
    ∃ (m : Nat) (b : Cell → Int),
      adjustLoop v (ints lo hi) N tmp fuel (base + n) (wrap (v.child (base + n))) a =
        .ended (base + m) b ∧ m < N ∧
      HeapFrom (keys base (update (elems b) (base + m) tmp)) N k ∧
      Rearranged (Set.Ico (base + k) (base + N)) (update (elems a) (base + n) tmp)
        (update (elems b) (base + m) tmp) := by
  have child : ∀ m : Nat, m < N → wrap (v.child (base + m)) = base + (2 * m + 1 : Nat) := by
    intro m inside
    rw [layout.child]
    exact wrap_eq ⟨by omega, by omega⟩
  rw [child n inside]
  induction fuel generalizing a n with
  | zero => omega
  | succ fuel ih =>
      rw [adjustLoop]
      by_cases more : 2 * n + 1 < N
      case neg =>
        rw [if_neg (mt (layout.inHeap _ N).mp more)]
        refine ⟨n, a, rfl, inside, down.settle fun i pos bound here => ?_, .refl _ _⟩
        have which := (parent_eq_iff pos).mp here
        omega
      rw [if_pos ((layout.inHeap _ N).mpr more)]
      obtain ⟨a₁, compared, same₁⟩ := layout.compared a
      obtain ⟨c, picked, which, bound, least⟩ := greater_spec (a := a₁) layout low high more
      rw [bind_ended compared, bind_ended picked,
        bind_ended (load_ints (by omega) (by omega) a₁), same₁]
      rw [same₁] at least
      by_cases settled : tmp ≥ elems a (base + c)
      · rw [if_pos settled]
        refine ⟨n, a₁, rfl, inside, ?_, by rw [same₁]; exact .refl _ _⟩
        have hole : keys base (update (elems a) (base + n) tmp) n = .toDual tmp := by
          rw [keys_update, update_self]
        rw [same₁]
        refine down.settle fun i pos inside' here => ?_
        rw [hole]
        exact le_trans settled (below_hole least i pos inside' here)
      · rw [if_neg settled]
        obtain ⟨a₂, stored, same₂⟩ : ∃ a₂, store (ints lo hi) (base + n) (elems a (base + c)) a₁ =
            .ended () a₂ ∧ _ := elems_store (by omega) (by omega) _ a₁
        obtain ⟨a₃, moved, same₃⟩ := layout.moved a₂
        rw [same₂, same₁] at same₃
        obtain ⟨descended, exchanged⟩ :=
          hole_descends down which bound from_ least (Int.not_le.mp settled)
        rw [← same₃] at descended exchanged
        obtain ⟨m, b, ran, inside', heap, rearranged⟩ :=
          ih bound (by omega) descended (by omega)
        rw [bind_ended stored, bind_ended moved, child c bound]
        exact ⟨m, b, ran, inside', heap, exchanged.trans rearranged⟩

/-- An element is sifted down to its place. -/
theorem heapAdjust_spec (nonneg : 0 ≤ base) (small : base + 2 * N ≤ 2147483648) (low : lo ≤ base)
    (high : base + N ≤ hi) (inside : k < N) (heap : HeapFrom (keys base (elems a)) N (k + 1))
    (enough : N < fuel) :
    ∃ b, heapAdjust v (ints lo hi) fuel (base + k) N a = .ended () b ∧
      HeapFrom (keys base (elems b)) N k ∧
      Rearranged (Set.Ico (base + k) (base + N)) (elems a) (elems b) := by
  have down : DownHeap (keys base (update (elems a) (base + k) (elems a (base + k)))) N k k := by
    rw [update_eq_self]
    refine ⟨fun i pos bound from_ other => heap i pos bound (by omega), fun pos from_ => ?_⟩
    have above := parent_lt pos
    omega
  obtain ⟨m, b, ran, bound, heap', rearranged⟩ : ∃ (m : Nat) (b : Cell → Int),
      adjustLoop v (ints lo hi) N (elems a (base + k)) fuel (base + k)
        (wrap (v.child (base + k))) a = .ended (base + m) b ∧ _ ∧ _ ∧ _ :=
    adjustLoop_spec layout nonneg small low high inside (Nat.le_refl k) down (by omega)
  rw [update_eq_self] at rearranged
  obtain ⟨c, stored, same⟩ : ∃ c, store (ints lo hi) (base + m) (elems a (base + k)) b =
      .ended () c ∧ _ := elems_store (by omega) (by omega) _ b
  obtain ⟨d, moved, same'⟩ := layout.moved c
  refine ⟨d, ?_, ?_, ?_⟩
  · rw [heapAdjust, bind_ended (load_ints (by omega) (by omega) a), bind_ended ran,
      bind_ended stored]
    exact moved
  · rwa [same', same]
  · rwa [same', same]

/-- The first loop makes a heap of the part above `k`, and then of the rest. -/
theorem build_step (nonneg : 0 ≤ base) (small : base + 2 * N ≤ 2147483648) (low : lo ≤ base)
    (high : base + N ≤ hi) (enough : N < fuel)
    (built : k + 1 ≤ N ∧ HeapFrom (keys base (elems a)) N (k + 1) ∧
      Rearranged (Set.Ico base (base + N)) w (elems a)) :
    ∃ b, heapAdjust v (ints lo hi) fuel (base - 1 + (k + 1 : Nat)) N a = .ended () b ∧
      k ≤ N ∧ HeapFrom (keys base (elems b)) N k ∧
      Rearranged (Set.Ico base (base + N)) w (elems b) := by
  obtain ⟨inside, heap, moved⟩ := built
  obtain ⟨b, ran, heap', moved'⟩ :=
    heapAdjust_spec layout nonneg small low high inside heap enough
  have place : base - 1 + ((k + 1 : Nat) : Int) = base + k := by omega
  rw [place]
  exact ⟨b, ran, by omega, heap',
    moved.trans (moved'.mono (Set.Ico_subset_Ico_left (by omega)))⟩

end Sift

/-! ## The second loop -/

/-- The elements up to `k` are a heap, and none of them is greater than one behind it; behind it,
the elements are in order. -/
structure Sorting (base : Int) (N : Nat) (w₀ : Int → Int) (k : Nat) (w : Int → Int) : Prop where
  inside : k < N
  heap : HeapFrom (keys base w) (k + 1) 0
  moved : Rearranged (Set.Ico base (base + N)) w₀ w
  above : ∀ i j : Nat, i ≤ j → k < j → j < N → w (base + i) ≤ w (base + j)

namespace Sorting

variable {w₀ w' w'' : Int → Int}

/-- The greatest element goes behind the heap; the first one may not fit in there. -/
theorem rest (sorting : Sorting base N w₀ (k + 1) w)
    (swapped : w' = update (update w base (w (base + (k + 1 : Nat)))) (base + (k + 1 : Nat))
      (w base)) : HeapFrom (keys base w') (k + 1) 1 := by
  have kept : ∀ i : Nat, 0 < i → i < k + 1 → keys base w' i = keys base w i := fun i pos bound => by
    rw [keys, swapped, update_of_ne (by omega), update_of_ne (by omega), keys]
  intro i pos bound from_
  have above := parent_lt pos
  rw [kept i pos bound, kept (parent i) (by omega) (by omega)]
  exact sorting.heap i pos (by omega) (Nat.zero_le _)

/-- The elements before the one that was taken off are all from the old heap. -/
theorem values
    (swapped : w' = update (update w base (w (base + (k + 1 : Nat)))) (base + (k + 1 : Nat))
      (w base)) :
    ∀ y ∈ Set.Ico base (base + (k + 1 : Nat)), ∃ i : Nat, i < k + 2 ∧ w' y = w (base + i) := by
  intro y ⟨low, high⟩
  by_cases here : y = base
  · refine ⟨k + 1, by omega, ?_⟩
    rw [swapped, here, update_of_ne (by omega), update_self]
  · refine ⟨(y - base).toNat, by omega, ?_⟩
    rw [swapped, update_of_ne (by omega), update_of_ne here]
    congr 1
    omega

/-- The exchange and what the heap does after it change only the places of the elements. -/
theorem rearranged (sorting : Sorting base N w₀ (k + 1) w)
    (swapped : w' = update (update w base (w (base + (k + 1 : Nat)))) (base + (k + 1 : Nat))
      (w base))
    (moved : Rearranged (Set.Ico base (base + (k + 1 : Nat))) w' w'') :
    Rearranged (Set.Ico base (base + N)) w₀ w'' := by
  have inside := sorting.inside
  have start : base ∈ Set.Ico base (base + (N : Int)) := ⟨by omega, by omega⟩
  have last : base + (k + 1 : Nat) ∈ Set.Ico base (base + (N : Int)) := ⟨by omega, by omega⟩
  have exchanged := Rearranged.exchange start last w
  rw [← swapped] at exchanged
  exact (sorting.moved.trans exchanged).trans (moved.mono (Set.Ico_subset_Ico_right (by omega)))

theorem step (sorting : Sorting base N w₀ (k + 1) w)
    (swapped : w' = update (update w base (w (base + (k + 1 : Nat)))) (base + (k + 1 : Nat))
      (w base))
    (heap : HeapFrom (keys base w'') (k + 1) 0)
    (moved : Rearranged (Set.Ico base (base + (k + 1 : Nat))) w' w'') :
    Sorting base N w₀ k w'' := by
  have inside := sorting.inside
  have first : w (base + (0 : Nat)) = w base := congrArg w (Int.add_zero base)
  have top : w' (base + (k + 1 : Nat)) = w base := by
    rw [swapped, update_self]
  have beyond : ∀ j : Nat, k + 1 < j → w' (base + j) = w (base + j) := fun j far => by
    rw [swapped, update_of_ne (by omega), update_of_ne (by omega)]
  have stays : ∀ j : Nat, k < j → w'' (base + j) = w' (base + j) :=
    fun j far => moved.of_notMem fun mem => absurd mem.2 (by omega)
  refine ⟨by omega, heap, sorting.rearranged swapped moved, fun i j le far bound => ?_⟩
  have within : i < k + 1 → base + (i : Int) ∈ Set.Ico base (base + (k + 1 : Nat)) :=
    fun less => ⟨by omega, by omega⟩
  rw [stays j far]
  rcases Nat.lt_or_ge (k + 1) j with behind | here
  · rw [beyond j behind]
    rcases Nat.lt_trichotomy i (k + 1) with less | rfl | more
    · refine moved.forall_mem (p := (· ≤ w (base + j))) (fun y mem => ?_) _ (within less)
      obtain ⟨i', bound', value⟩ := values swapped y mem
      rw [value]
      exact sorting.above i' j (by omega) behind bound
    · rw [stays _ (Nat.lt_succ_self k), top, ← first]
      exact sorting.above 0 j (Nat.zero_le j) behind bound
    · rw [stays i (by omega), beyond i more]
      exact sorting.above i j le behind bound
  · obtain rfl : j = k + 1 := by omega
    rw [top]
    rcases Nat.lt_or_ge i (k + 1) with less | same
    · refine moved.forall_mem (p := (· ≤ w base)) (fun y mem => ?_) _ (within less)
      obtain ⟨i', bound', value⟩ := values swapped y mem
      rw [value, ← first]
      exact keys_le.mp (sorting.heap.root_le bound')
    · obtain rfl : i = k + 1 := by omega
      rw [stays _ (Nat.lt_succ_self k), top]

theorem sorted (sorting : Sorting base N w₀ 0 w) : Sorted base (base + N) w₀ w := by
  refine .of_rearranged sorting.moved (fun _ mem => mem)
    (pairwise_slice_iff.mpr fun i j low le high => ?_)
  rcases Int.le_iff_eq_or_lt.mp le with rfl | less
  · exact Int.le_refl _
  · have ordered := sorting.above (i - base).toNat (j - base).toNat (by omega) (by omega)
      (by omega)
    rwa [show base + ((i - base).toNat : Int) = i by omega,
      show base + ((j - base).toNat : Int) = j by omega] at ordered

end Sorting

/-- A step of the second loop, with anything between its two calls that changes no element. -/
theorem Sorting.swap_adjust {v : Variant} {w₀ : Int → Int} (layout : Layout base v)
    (nonneg : 0 ≤ base) (small : base + 2 * N ≤ 2147483648) (low : lo ≤ base)
    (high : base + N ≤ hi) (enough : N < fuel) (sorting : Sorting base N w₀ (k + 1) (elems a)) :
    ∃ b, swap (ints lo hi) base (base + (k + 1 : Nat)) a = .ended () b ∧
      ∀ b', elems b' = elems b →
        ∃ c, heapAdjust v (ints lo hi) fuel base (k + 1 : Nat) b' = .ended () c ∧
          Sorting base N w₀ k (elems c) := by
  have inside := sorting.inside
  obtain ⟨b, swapped, values⟩ :
      ∃ b, swap (ints lo hi) base (base + (k + 1 : Nat)) a = .ended () b ∧ _ :=
    elems_swap low (by omega) (by omega) (by omega) a
  refine ⟨b, swapped, fun b' same => ?_⟩
  rw [← same] at values
  obtain ⟨c, ran, heap, moved⟩ :
      ∃ c, heapAdjust v (ints lo hi) fuel (base + (0 : Nat)) (k + 1 : Nat) b' = .ended () c ∧
        _ ∧ _ :=
    heapAdjust_spec layout nonneg (by omega) low (by omega) (Nat.succ_pos k) (sorting.rest values)
      (by omega)
  rw [show base + ((0 : Nat) : Int) = base from Int.add_zero base] at ran moved
  exact ⟨c, ran, sorting.step values heap moved⟩

/-- What the body of a loop keeps holds in the end, and the loop comes to its end. -/
theorem downLoop_spec {go : Int → Bool} {body : Nat → Int → Act (Cell → Int) Unit}
    (I : Nat → (Cell → Int) → Prop) (need : Nat)
    (goes : ∀ k : Nat, go (base + k) = true ↔ 0 < k)
    (step : ∀ k fuel a, need < fuel → I (k + 1) a →
      ∃ b, body fuel (base + (k + 1 : Nat)) a = .ended () b ∧ I k b)
    (start : I k a) (enough : need + k < fuel) :
    ∃ b, downLoop go body fuel (base + k) a = .ended () b ∧ I 0 b := by
  induction k generalizing a fuel with
  | zero =>
      obtain ⟨fuel, rfl⟩ : ∃ n, fuel = n + 1 := ⟨fuel - 1, by omega⟩
      rw [downLoop, if_neg (mt (goes 0).mp (Nat.lt_irrefl 0))]
      exact ⟨a, rfl, start⟩
  | succ k ih =>
      obtain ⟨fuel, rfl⟩ : ∃ n, fuel = n + 1 := ⟨fuel - 1, by omega⟩
      obtain ⟨b, ran, next⟩ := step k fuel a (by omega) start
      obtain ⟨c, rest, done⟩ := @ih b fuel next (by omega)
      refine ⟨c, ?_, done⟩
      rw [downLoop, if_pos ((goes (k + 1)).mpr (Nat.succ_pos k)), bind_ended ran,
        show base + ((k + 1 : Nat) : Int) - 1 = base + k by omega]
      exact rest

/-! ## The sorts -/

theorem heapFrom_half (key : Nat → Intᵒᵈ) (N : Nat) : HeapFrom key N (N / 2) := by
  intro i pos bound from_
  unfold parent at from_
  omega

/-- The first loop, from the last element that has a child on. -/
theorem build_spec {v : Variant} {go : Int → Bool} (layout : Layout base v) (nonneg : 0 ≤ base)
    (small : base + 2 * N ≤ 2147483648) (low : lo ≤ base) (high : base + N ≤ hi)
    (goes : ∀ k : Nat, go (base - 1 + k) = true ↔ 0 < k) (enough : 2 * N < fuel)
    (a : Cell → Int) :
    ∃ b, downLoop go (fun fuel i => heapAdjust v (ints lo hi) fuel i N) fuel
        (base - 1 + (N / 2 : Nat)) a = .ended () b ∧
      HeapFrom (keys base (elems b)) N 0 ∧
      Rearranged (Set.Ico base (base + N)) (elems a) (elems b) := by
  have start : N / 2 ≤ N ∧ HeapFrom (keys base (elems a)) N (N / 2) ∧
      Rearranged (Set.Ico base (base + N)) (elems a) (elems a) :=
    ⟨by omega, heapFrom_half _ N, .refl _ _⟩
  obtain ⟨b, ran, -, built⟩ :
      ∃ b, downLoop go (fun fuel i => heapAdjust v (ints lo hi) fuel i N) fuel
        (base - 1 + (N / 2 : Nat)) a = .ended () b ∧ _ :=
    downLoop_spec (fun k b => k ≤ N ∧ HeapFrom (keys base (elems b)) N k ∧
      Rearranged (Set.Ico base (base + N)) (elems a) (elems b)) N goes
      (fun k fuel c enough built => build_step layout nonneg small low high enough built) start
      (by omega)
  exact ⟨b, ran, built⟩

/-- The second loop, from the last element on. -/
theorem sort_spec {w₀ : Int → Int} {go : Int → Bool} {body : Nat → Int → Act (Cell → Int) Unit}
    (goes : ∀ k : Nat, go (base + k) = true ↔ 0 < k) (idle : go (base - 1) = false)
    (step : ∀ k fuel a, N < fuel → Sorting base N w₀ (k + 1) (elems a) →
      ∃ b, body fuel (base + (k + 1 : Nat)) a = .ended () b ∧ Sorting base N w₀ k (elems b))
    (heap : HeapFrom (keys base (elems a)) N 0)
    (moved : Rearranged (Set.Ico base (base + N)) w₀ (elems a)) (enough : 2 * N < fuel) :
    ∃ b, downLoop go body fuel (base + N - 1) a = .ended () b ∧
      Sorted base (base + N) w₀ (elems b) := by
  rcases Nat.eq_zero_or_pos N with rfl | some
  · obtain ⟨fuel, rfl⟩ : ∃ n, fuel = n + 1 := ⟨fuel - 1, by omega⟩
    have none : slice w₀ base (base + (0 : Nat)) = [] := slice_eq_nil (by omega)
    rw [downLoop, show base + ((0 : Nat) : Int) - 1 = base - 1 by omega, idle]
    refine ⟨a, rfl, .of_rearranged moved (fun _ mem => mem) ?_⟩
    rw [slice_eq_nil (by omega)]
    exact .nil
  · have sorting : Sorting base N w₀ (N - 1) (elems a) := by
      refine ⟨by omega, ?_, moved, fun i j _ far bound => by omega⟩
      rwa [Nat.sub_add_cancel some]
    obtain ⟨b, ran, done⟩ :
        ∃ b, downLoop go body fuel (base + (N - 1 : Nat)) a = .ended () b ∧ _ :=
      downLoop_spec (fun k b => Sorting base N w₀ k (elems b)) N goes step sorting (by omega)
    rw [show base + ((N - 1 : Nat) : Int) = base + N - 1 by omega] at ran
    exact ⟨b, ran, done.sorted⟩

theorem takeOff1_step {w₀ : Int → Int} (small : 1 + 2 * N ≤ 2147483648) (enough : N < fuel)
    (sorting : Sorting 1 N w₀ (k + 1) (elems a)) :
    ∃ b, takeOff1 (ints 1 (N + 1)) fuel (1 + (k + 1 : Nat)) a = .ended () b ∧
      Sorting 1 N w₀ k (elems b) := by
  obtain ⟨b, swapped, rest⟩ :
      ∃ b, swap (ints 1 (N + 1)) 1 (1 + (k + 1 : Nat)) a = .ended () b ∧ _ :=
    sorting.swap_adjust layout1 (by omega) (by omega) (Int.le_refl 1) (by omega) enough
  obtain ⟨c, ran, sorting'⟩ := rest b rfl
  refine ⟨c, ?_, sorting'⟩
  rw [takeOff1, bind_ended swapped, show 1 + ((k + 1 : Nat) : Int) - 1 = (k + 1 : Nat) by omega]
  exact ran

theorem takeOff2_step {w₀ : Int → Int} (small : 2 * (N : Int) ≤ 2147483648) (enough : N < fuel)
    (sorting : Sorting 0 N w₀ (k + 1) (elems a)) :
    ∃ b, takeOff2 (ints 0 N) fuel (0 + (k + 1 : Nat)) a = .ended () b ∧
      Sorting 0 N w₀ k (elems b) := by
  obtain ⟨b, swapped, rest⟩ :
      ∃ b, swap (ints 0 N) 0 (0 + (k + 1 : Nat)) a = .ended () b ∧ _ :=
    sorting.swap_adjust layout2 (by omega) (by omega) (Int.le_refl 0) (by omega) enough
  obtain ⟨b', counted, same⟩ := silent_add (c := .moveTimes) (fun i eq => by cases eq) 3 b
  obtain ⟨c, ran, sorting'⟩ := rest b' same
  refine ⟨c, ?_, sorting'⟩
  rw [takeOff2, bind_ended swapped, bind_ended counted, Int.zero_add]
  exact ran

theorem heapSort1_sorted (nonneg : 0 ≤ num) (small : num < 2 ^ 30) (enough : 2 * num < fuel)
    (a : Cell → Int) :
    ∃ b, heapSort1 fuel num a = .ended () b ∧ Sorted 1 (num + 1) (elems a) (elems b) := by
  obtain ⟨N, rfl⟩ : ∃ N : Nat, num = N := ⟨num.toNat, by omega⟩
  obtain ⟨b, first, heap, moved⟩ :
      ∃ b, downLoop (fun i => i > 0) (fun fuel i => heapAdjust variant1 (ints 1 (N + 1)) fuel i N)
        fuel (1 - 1 + (N / 2 : Nat)) a = .ended () b ∧ _ ∧ _ :=
    build_spec layout1 (by omega) (by omega) (by omega) (by omega)
      (fun k => decide_eq_true_iff.trans (by omega)) (by omega) a
  obtain ⟨c, second, sorted⟩ :
      ∃ c, downLoop (fun i => i > 1) (takeOff1 (ints 1 (N + 1))) fuel (1 + N - 1) b =
        .ended () c ∧ _ :=
    sort_spec (fun k => decide_eq_true_iff.trans (by omega)) (by decide)
      (fun k fuel a enough sorting => takeOff1_step (by omega) enough sorting) heap moved (by omega)
  refine ⟨c, ?_, Int.add_comm 1 N ▸ sorted⟩
  rw [show (1 : Int) - 1 + (N / 2 : Nat) = N / 2 by omega] at first
  rw [show (1 : Int) + N - 1 = N by omega] at second
  exact (bind_ended first).trans second

theorem heapSort2_sorted (nonneg : 0 ≤ num) (small : num ≤ 2 ^ 30) (enough : 2 * num < fuel)
    (a : Cell → Int) :
    ∃ r b, heapSort2 fuel num a = .ended r b ∧ Sorted 0 num (elems a) (elems b) := by
  obtain ⟨N, rfl⟩ : ∃ N : Nat, num = N := ⟨num.toNat, by omega⟩
  obtain ⟨a₁, reset, same₁⟩ := silent_set (c := .compareTimes) (fun i eq => by cases eq) 0 a
  obtain ⟨a₂, reset', same₂⟩ := silent_set (c := .moveTimes) (fun i eq => by cases eq) 0 a₁
  obtain ⟨b, first, heap, moved⟩ :
      ∃ b, downLoop (fun i => i ≥ 0) (fun fuel i => heapAdjust variant2 (ints 0 N) fuel i N)
        fuel (0 - 1 + (N / 2 : Nat)) a₂ = .ended () b ∧ _ ∧ _ :=
    build_spec layout2 (by omega) (by omega) (by omega) (by omega)
      (fun k => decide_eq_true_iff.trans (by omega)) (by omega) a₂
  obtain ⟨c, second, sorted⟩ :
      ∃ c, downLoop (fun i => i > 0) (takeOff2 (ints 0 N)) fuel (0 + N - 1) b = .ended () c ∧ _ :=
    sort_spec (fun k => decide_eq_true_iff.trans (by omega)) (by decide)
      (fun k fuel a enough sorting => takeOff2_step (by omega) enough sorting) heap moved (by omega)
  rw [same₂, same₁, Int.zero_add] at sorted
  rw [show (0 : Int) - 1 + (N / 2 : Nat) = N / 2 - 1 by omega] at first
  rw [Int.zero_add] at second
  refine ⟨(c .compareTimes, c .moveTimes, wrap (c .compareTimes + c .moveTimes)), c, ?_, sorted⟩
  rw [heapSort2]
  exact (bind_ended reset).trans ((bind_ended reset').trans ((bind_ended first).trans
    ((bind_ended second).trans rfl)))

/-! ## Both sorts -/

/-- Both functions sort, touching nothing else, and they agree on an array and the array that is
shifted by one. -/
def SortAlike (fuel : Nat) (num : Int) : Prop :=
  ∀ a a' : Cell → Int, (∀ i, 0 ≤ i → i < num → elems a' (i + 1) = elems a i) →
    ∃ r b c, heapSort2 fuel num a = .ended r b ∧ heapSort1 fuel num a' = .ended () c ∧
      Sorted 0 num (elems a) (elems b) ∧ Sorted 1 (num + 1) (elems a') (elems c) ∧
      ∀ i, 0 ≤ i → i < num → elems c (i + 1) = elems b i

/-- An index that has wrapped around is still below `num`, but not in the array. -/
theorem adjustLoop_negative {m start : Int} (nonneg : 0 ≤ num) (negative : i < 0) :
    adjustLoop variant1 (ints 1 hi) num tmp fuel start i a ≠ .ended m b := by
  intro ran
  have inHeap : variant1.inHeap i num = true := decide_eq_true (by omega)
  have hasNext : variant1.hasNext i num = true := decide_eq_true (by omega)
  cases fuel with
  | zero => cases ran
  | succ fuel =>
      rw [adjustLoop, if_pos inHeap] at ran
      obtain ⟨_, c, -, ran⟩ := bind_eq_ended.mp ran
      obtain ⟨j, d, picked, -⟩ := bind_eq_ended.mp ran
      rw [greater, if_pos hasNext] at picked
      obtain ⟨x, e, loaded, -⟩ := bind_eq_ended.mp picked
      have low : 1 ≤ i := (load_ended loaded).1
      omega

/-- All elements are 1, but for one that is 0. -/
def dip (i : Int) : Cell → Int := fun c => if c = .elem i then 0 else 1

theorem dip_self : elems (dip i) i = 0 := if_pos rfl

theorem dip_of_ne (ne : j ≠ i) : elems (dip i) j = 1 := if_neg fun eq => ne (Cell.elem.inj eq)

/-- The element that is 0 is sifted down below an index whose double is no `int`. -/
theorem heapAdjust1_overruns (large : 2 ^ 30 ≤ num) (isInt : IsInt num) :
    heapAdjust1 (ints 1 (num + 1)) fuel (num / 2) num (dip (num / 2)) ≠ .ended () b := by
  intro ran
  have upper := isInt.2
  obtain ⟨h, half⟩ : ∃ h, h = num / 2 := ⟨_, rfl⟩
  have twice : IsInt (2 * h) := ⟨by omega, by omega⟩
  have child : wrap (variant1.child h) = 2 * h := wrap_eq twice
  have inHeap : variant1.inHeap (2 * h) num = true := decide_eq_true (by omega)
  rw [← half, heapAdjust1, heapAdjust, bind_ended (load_ints (by omega) (by omega) _), dip_self,
    child] at ran
  obtain ⟨start, c, looped, -⟩ := bind_eq_ended.mp ran
  have picked : greater variant1 (ints 1 (num + 1)) num (2 * h) (dip h) =
      .ended (2 * h) (dip h) := by
    rw [greater]
    by_cases more : variant1.hasNext (2 * h) num = true
    · have inside : 2 * h < num := of_decide_eq_true more
      rw [if_pos more, bind_ended (load_ints (by omega) (by omega) _),
        bind_ended (load_ints (by omega) (by omega) _), dip_of_ne (by omega),
        dip_of_ne (by omega), if_neg (Int.lt_irrefl 1)]
      rfl
    · rw [if_neg more]
      rfl
  obtain ⟨d, stored, -⟩ : ∃ d, store (ints 1 (num + 1)) h 1 (dip h) = .ended () d ∧ _ :=
    elems_store (by omega) (by omega) 1 (dip h)
  have compared : ∀ a, variant1.compared a = .ended () a := fun _ => rfl
  have moved : ∀ a, variant1.moved a = .ended () a := fun _ => rfl
  have negative : wrap (variant1.child (2 * h)) < 0 := by
    rw [show variant1.child (2 * h) = 2 * (2 * h) from rfl, wrap, Int.bmod]
    omega
  cases fuel with
  | zero => cases looped
  | succ fuel =>
      rw [adjustLoop, if_pos inHeap, bind_ended (compared _), bind_ended picked,
        bind_ended (load_ints (by omega) (by omega) _), dip_of_ne (by omega), if_neg (by decide),
        bind_ended stored, bind_ended (moved _)] at looped
      exact adjustLoop_negative (by omega) negative looped

theorem heapSort1_overruns (large : 2 ^ 30 ≤ num) (isInt : IsInt num) :
    heapSort1 fuel num (dip (num / 2)) ≠ .ended () b := by
  intro ran
  obtain ⟨_, c, first, -⟩ := bind_eq_ended.mp ran
  have go : decide (num / 2 > 0) = true := decide_eq_true (by omega)
  cases fuel with
  | zero => cases first
  | succ fuel =>
      rw [downLoop, if_pos go] at first
      obtain ⟨_, d, adjusted, -⟩ := bind_eq_ended.mp first
      exact heapAdjust1_overruns large isInt adjusted

/-- Two sorted arrays with the same elements are the same. -/
theorem Sorted.agree {u u' w w' : Int → Int} (sorted : Sorted 0 num u w)
    (sorted' : Sorted 1 (num + 1) u' w') (same : ∀ i, 0 ≤ i → i < num → u' (i + 1) = u i) :
    ∀ i, 0 ≤ i → i < num → w' (i + 1) = w i := by
  have shift : ∀ f : Int → Int, slice (fun i => f (i + 1)) 0 num = slice f 1 (num + 1) := by
    intro f
    have added := slice_add f 1 0 num
    rw [Int.add_zero, Int.add_comm 1 num] at added
    rw [← added]
    exact slice_congr fun i _ _ => congrArg f (Int.add_comm i 1)
  have input : slice u' 1 (num + 1) = slice u 0 num := by
    rw [← shift]
    exact slice_congr same
  have perm : (slice w' 1 (num + 1)).Perm (slice w 0 num) :=
    (sorted'.perm.trans (.of_eq input)).trans sorted.perm.symm
  have output : slice (fun i => w' (i + 1)) 0 num = slice w 0 num := by
    rw [shift]
    exact perm.eq_of_pairwise (fun x y _ _ => Int.le_antisymm) sorted'.order sorted.order
  exact fun i low high => eq_of_slice_eq output low high

/-- Both sorts do what they should as long as twice an index is an `int`. -/
theorem sortAlike_iff (nonneg : 0 ≤ num) (isInt : IsInt num) (enough : 2 * num < fuel) :
    SortAlike fuel num ↔ num < 2 ^ 30 := by
  constructor
  · intro alike
    by_contra large
    have shifted : ∃ a : Cell → Int, ∀ i, 0 ≤ i → i < num →
        elems (dip (num / 2)) (i + 1) = elems a i :=
      ⟨fun c => match c with
        | .elem i => elems (dip (num / 2)) (i + 1)
        | _ => 0, fun _ _ _ => rfl⟩
    obtain ⟨a, same⟩ := shifted
    obtain ⟨r, b, c, -, ran, -⟩ := alike a _ same
    exact heapSort1_overruns (Int.not_lt.mp large) isInt ran
  · intro small a a' same
    obtain ⟨r, b, ran, sorted⟩ := heapSort2_sorted nonneg (Int.le_of_lt small) enough a
    obtain ⟨c, ran', sorted'⟩ := heapSort1_sorted nonneg small enough a'
    exact ⟨r, b, c, ran, ran', sorted, sorted', sorted.agree sorted' same⟩

theorem sortAlike_six : SortAlike 13 6 ↔ (6 : Int) < 2 ^ 30 :=
  sortAlike_iff (by decide) (by decide) (by decide)

/-- The double of the index 1073741824 wraps around. -/
theorem heapSort1_large :
    ¬ ∃ fuel b, heapSort1 fuel 1073741824 (dip 536870912) = .ended () b ∧
      Sorted 1 1073741825 (elems (dip 536870912)) (elems b) := by
  rintro ⟨fuel, b, ran, -⟩
  have half : (536870912 : Int) = 1073741824 / 2 := by decide
  rw [half] at ran
  exact heapSort1_overruns (by decide) (by decide) ran

end Shang.Sort
