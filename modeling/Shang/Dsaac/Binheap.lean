import Mathlib
import Shang.Lib.Run
import Shang.Lib.Heap

/-!
# The priority queue in `binheap.c`

The elements are in `arr[1..size]`, and `arr[0]` is a sentinel below all of
them that ends the loop of `Insert`. Both loops move elements into a hole and
put the element that belongs there down at the end. The library's heaps begin
at cell 0, so they are about `arr` without the sentinel.

Fuel bounds the rounds of the loops; `none` stands for a loop that does not end
and for `exit(1)`.
-/

namespace Shang.Binheap

open Shang.Lib Function

/-! ## The program -/

def MIN_PQ_CAPACITY : Int := 10

def MIN_DATA : Int := -32767

/-- `struct HeapStruct` -/
structure HeapStruct where
  capacity : Int
  size : Nat
  arr : Nat → Int

/-- `Init(capacity)`, where `malloc` finds what is in `memory`. -/
def init (capacity : Int) (memory : Nat → Int) : Option HeapStruct :=
  if capacity < MIN_PQ_CAPACITY then none
  else some { capacity := capacity, size := 0, arr := update memory 0 MIN_DATA }

/-- `MakeEmpty(H)` -/
def makeEmpty (H : HeapStruct) : HeapStruct := { H with size := 0 }

/-- `IsEmpty(H)` -/
def isEmpty (H : HeapStruct) : Bool := H.size = 0

/-- `IsFull(H)` -/
def isFull (H : HeapStruct) : Bool := (H.size : Int) = H.capacity

/-- The loop of `Insert`. -/
def insertLoop (val : Int) : Nat → (Nat → Int) → Nat → Option ((Nat → Int) × Nat)
  | 0, _, _ => none
  | fuel + 1, arr, i =>
      if val < arr (i / 2) then insertLoop val fuel (update arr i (arr (i / 2))) (i / 2)
      else some (arr, i)

/-- `Insert(val, H)` -/
def insert (val : Int) (H : HeapStruct) : Option HeapStruct :=
  if isFull H then none
  else do
    let size := H.size + 1
    let (arr, i) ← insertLoop val (size + 1) H.arr size
    some { H with size := size, arr := update arr i val }

/-- The child of `i` that moves up. -/
def child (arr : Nat → Int) (size i : Nat) : Nat :=
  if 2 * i < size ∧ arr (2 * i) > arr (2 * i + 1) then 2 * i + 1 else 2 * i

/-- The loop of `DeleteMin`. -/
def deleteLoop (LastElement : Int) (size : Nat) :
    Nat → (Nat → Int) → Nat → Option ((Nat → Int) × Nat)
  | 0, _, _ => none
  | fuel + 1, arr, i =>
      if 2 * i ≤ size then
        let child := child arr size i
        if LastElement > arr child then
          deleteLoop LastElement size fuel (update arr i (arr child)) child
        else some (arr, i)
      else some (arr, i)

/-- `DeleteMin(H)` -/
def deleteMin (H : HeapStruct) : Option (HeapStruct × Int) :=
  if isEmpty H then none
  else do
    let MinElement := H.arr 1
    let LastElement := H.arr H.size
    let size := H.size - 1
    let (arr, i) ← deleteLoop LastElement size (size + 1) H.arr 1
    some ({ H with size := size, arr := update arr i LastElement }, MinElement)

/-- `FindMin(H)` -/
def findMin (H : HeapStruct) : Option Int :=
  if isEmpty H then none else some (H.arr 1)

/-- A call of the interface. -/
inductive Op
  | insert (val : Int)
  | deleteMin
  | findMin
  | makeEmpty
  deriving DecidableEq

/-- A queue with the calls so far and what they returned. -/
structure World where
  H : HeapStruct
  log : List (Op × Option Int)

/-- The call `op`: the queue it leaves and what it returns. -/
def call (H : HeapStruct) : Op → Option (HeapStruct × Option Int)
  | .insert val => (insert val H).map fun H => (H, none)
  | .deleteMin => (deleteMin H).map fun r => (r.1, some r.2)
  | .findMin => (findMin H).map fun x => (H, some x)
  | .makeEmpty => some (makeEmpty H, none)

def step (w : World) (op : Op) : Option World :=
  (call w.H op).map fun r => ⟨r.1, w.log ++ [(op, r.2)]⟩

/-- What a caller must not do: insert into a full queue or a value below the sentinel, and
ask an empty one. -/
def Allowed (w : World) : Op → Prop
  | .insert val => MIN_DATA ≤ val ∧ isFull w.H = false
  | .deleteMin => isEmpty w.H = false
  | .findMin => isEmpty w.H = false
  | .makeEmpty => True

instance (w : World) : ∀ op, Decidable (Allowed w op)
  | .insert val => inferInstanceAs (Decidable (MIN_DATA ≤ val ∧ isFull w.H = false))
  | .deleteMin => inferInstanceAs (Decidable (isEmpty w.H = false))
  | .findMin => inferInstanceAs (Decidable (isEmpty w.H = false))
  | .makeEmpty => isTrue trivial

/-! ## What a priority queue is for -/

/-- A call on a bag of values: what it returns and the bag it leaves. -/
inductive Served : Multiset Int → Op → Option Int → Multiset Int → Prop
  | insert (m : Multiset Int) (val : Int) : Served m (.insert val) none (val ::ₘ m)
  | deleteMin (m : Multiset Int) (x : Int) (least : ∀ y ∈ m, x ≤ y) :
      Served (x ::ₘ m) .deleteMin (some x) m
  | findMin (m : Multiset Int) (x : Int) (mem : x ∈ m) (least : ∀ y ∈ m, x ≤ y) :
      Served m .findMin (some x) m
  | makeEmpty (m : Multiset Int) : Served m .makeEmpty none 0

/-- The calls of a log, one after the other, lead from the empty bag to this one. -/
inductive Serves : List (Op × Option Int) → Multiset Int → Prop
  | nil : Serves [] 0
  | snoc {log : List (Op × Option Int)} {m m' : Multiset Int} {op : Op} {ret : Option Int} :
      Serves log m → Served m op ret m' → Serves (log ++ [(op, ret)]) m'

/-! ## The array behind the sentinel -/

/-- `arr[1]` and what follows. -/
def tail (arr : Nat → Int) (k : Nat) : Int := arr (k + 1)

variable {arr : Nat → Int} {val x : Int} {n i k : Nat}

/-- The sentinel stays where it is. -/
theorem update_sentinel : update arr (k + 1) x 0 = arr 0 :=
  update_of_ne (Nat.succ_ne_zero k).symm _ _

theorem tail_update : tail (update arr (k + 1) x) = update (tail arr) k x := by
  funext j
  unfold tail
  rcases eq_or_ne j k with rfl | other
  · rw [update_self, update_self]
  · rw [update_of_ne other, update_of_ne (by omega)]

/-- A round of a loop moves the element of the cell `p` into the hole `k`, which is an
exchange once the hole counts as the element to be put down. -/
theorem tail_move (arr : Nat → Int) (x : Int) {p : Nat} (ne : k ≠ p) :
    update (tail (update arr (k + 1) (arr (p + 1)))) p x =
      exchange (update (tail arr) k x) k p := by
  rw [tail_update, exchange, update_of_ne ne.symm, update_self, update_idem]
  rfl

theorem parent_succ (pos : 0 < k) : (k + 1) / 2 = parent k + 1 := by
  unfold parent
  omega

/-! ## The loop of `Insert` -/

/-- The sentinel ends the loop at the top if nothing ends it before. -/
theorem insertLoop_spec (fuel : Nat) (sentinel : arr 0 ≤ val) (inside : k < n)
    (enough : k < fuel) (up : UpHeap (update (tail arr) k val) n k) :
    ∃ arr' k', insertLoop val fuel arr (k + 1) = some (arr', k' + 1) ∧ arr' 0 = arr 0 ∧
      HeapFrom (update (tail arr') k' val) n 0 ∧
      cells n (update (tail arr') k' val) = cells n (update (tail arr) k val) := by
  induction k using Nat.strong_induction_on generalizing arr fuel with
  | _ k ih =>
      obtain ⟨fuel, rfl⟩ : ∃ f, fuel = f + 1 := ⟨fuel - 1, by omega⟩
      rw [insertLoop]
      rcases Nat.eq_zero_or_pos k with rfl | pos
      · rw [if_neg (Int.not_lt.mpr sentinel)]
        exact ⟨arr, 0, rfl, rfl, up.settle fun low => absurd low (lt_irrefl 0), rfl⟩
      · have less := parent_lt pos
        rw [parent_succ pos]
        split
        · next earlier =>
            have up' := up.ascend pos inside (by
              rw [update_self, update_of_ne less.ne]
              exact le_of_lt earlier)
            have move := tail_move arr val less.ne'
            rw [← move] at up'
            obtain ⟨arr', k', ran, low, heap, same⟩ :=
              ih (parent k) less fuel (by rwa [update_sentinel]) (by omega)
                (by omega) up'
            refine ⟨arr', k', ran, low.trans update_sentinel, heap, ?_⟩
            rw [same, move, cells_exchange inside (less.trans inside)]
        · next later =>
            refine ⟨arr, k, rfl, rfl, up.settle fun _ => ?_, rfl⟩
            rw [update_self, update_of_ne less.ne]
            exact Int.not_lt.mp later

/-! ## The loop of `DeleteMin` -/

theorem child_spec (arr : Nat → Int) (more : 2 * (k + 1) ≤ n) :
    ∃ c, child arr n (k + 1) = c + 1 ∧ c < n ∧ parent c = k ∧ 0 < c ∧
      ∀ j, 0 < j → j < n → parent j = k → tail arr c ≤ tail arr j := by
  unfold child
  split
  · next right =>
      refine ⟨2 * (k + 1), rfl, by omega, by unfold parent; omega, by omega,
        fun j pos inside here => ?_⟩
      rcases (parent_eq_iff pos).mp here with rfl | rfl
      · exact le_of_lt right.2
      · exact le_refl _
  · next left =>
      refine ⟨2 * k + 1, rfl, by omega, by unfold parent; omega, by omega,
        fun j pos inside here => ?_⟩
      rcases (parent_eq_iff pos).mp here with rfl | rfl
      · exact le_refl _
      · exact Int.not_lt.mp fun greater => left ⟨by omega, greater⟩

theorem deleteLoop_spec (fuel : Nat) {LastElement : Int} (inside : k < n ∨ k = 0)
    (enough : n < fuel + k) (down : DownHeap (update (tail arr) k LastElement) n 0 k) :
    ∃ arr' k', deleteLoop LastElement n fuel arr (k + 1) = some (arr', k' + 1) ∧
      arr' 0 = arr 0 ∧ HeapFrom (update (tail arr') k' LastElement) n 0 ∧
      cells n (update (tail arr') k' LastElement) =
        cells n (update (tail arr) k LastElement) := by
  induction fuel generalizing arr k with
  | zero => omega
  | succ fuel ih =>
      rw [deleteLoop]
      split
      · next more =>
          obtain ⟨c, eq, bound, here, pos, least⟩ := child_spec arr more
          have above : k < c := here ▸ parent_lt pos
          have others : ∀ j, 0 < j → parent j = k →
              update (tail arr) k LastElement j = tail arr j :=
            fun j pos under => update_of_ne (by have := parent_lt pos; omega) _ _
          dsimp only
          rw [eq]
          split
          · next later =>
              have down' := down.descend pos bound here
                (fun j pos' inside' under => by
                  rw [others c pos here, others j pos' under]
                  exact least j pos' inside' under)
                (by
                  rw [others c pos here, update_self]
                  exact le_of_lt later) (Nat.zero_le k)
              have move := tail_move arr LastElement above.ne
              rw [← move] at down'
              obtain ⟨arr', k', ran, low, heap, same⟩ := ih (.inl bound) (by omega) down'
              refine ⟨arr', k', ran, low.trans update_sentinel, heap, ?_⟩
              rw [same, move, cells_exchange (above.trans bound) bound]
          · next fits =>
              refine ⟨arr, k, rfl, rfl, down.settle fun j pos' inside' under => ?_, rfl⟩
              rw [update_self, others j pos' under]
              exact (Int.not_lt.mp fits).trans (least j pos' inside' under)
      · next leaf =>
          refine ⟨arr, k, rfl, rfl, down.settle fun j pos' inside' under => ?_, rfl⟩
          rcases (parent_eq_iff pos').mp under with rfl | rfl <;> omega

/-! ## The functions -/

/-- The multiset of `arr[1..size]`. -/
def elements (H : HeapStruct) : Multiset Int := cells H.size (tail H.arr)

/-- The sentinel, the heap order and the elements' bound. -/
structure Sound (H : HeapStruct) : Prop where
  sentinel : H.arr 0 = MIN_DATA
  heap : HeapFrom (tail H.arr) H.size 0
  low : ∀ x ∈ elements H, MIN_DATA ≤ x

variable {H H' : HeapStruct}

/-- The order in the words of the array. -/
theorem Sound.order (sound : Sound H) (pos : 1 ≤ i) (inside : i ≤ H.size) :
    H.arr (i / 2) ≤ H.arr i := by
  obtain ⟨k, rfl⟩ : ∃ k, i = k + 1 := ⟨i - 1, by omega⟩
  rcases Nat.eq_zero_or_pos k with rfl | above
  · have low := sound.low _ (mem_cells.mpr ⟨0, by omega, rfl⟩)
    rw [← sound.sentinel] at low
    exact low
  · rw [parent_succ above]
    exact sound.heap k above (by omega) (Nat.zero_le _)

theorem Sound.least (sound : Sound H) (x : Int) (mem : x ∈ elements H) : H.arr 1 ≤ x := by
  obtain ⟨k, inside, rfl⟩ := mem_cells.mp mem
  exact sound.heap.root_le inside

theorem mem_top (some : isEmpty H = false) : H.arr 1 ∈ elements H := by
  simp only [isEmpty, decide_eq_false_iff_not] at some
  exact mem_cells.mpr ⟨0, by omega, rfl⟩

theorem insert_spec (sound : Sound H) (low : MIN_DATA ≤ val) (room : isFull H = false) :
    ∃ H', insert val H = some H' ∧ Sound H' ∧ elements H' = val ::ₘ elements H ∧
      H'.capacity = H.capacity := by
  have up : UpHeap (update (tail H.arr) H.size val) (H.size + 1) H.size := by
    refine ⟨fun j pos inside other => ?_, fun _ j pos inside under => ?_⟩
    · have above := parent_lt pos
      rw [update_of_ne other, update_of_ne (by omega)]
      exact sound.heap j pos (by omega) (Nat.zero_le _)
    · have above := parent_lt pos
      omega
  obtain ⟨arr, k, ran, top, heap, same⟩ := insertLoop_spec (H.size + 1 + 1)
    (by rw [sound.sentinel]; exact low) (Nat.lt_succ_self _) (by omega) up
  have added : cells (H.size + 1) (tail (update arr (k + 1) val)) = val ::ₘ elements H := by
    rw [tail_update, same, cells_succ, update_self]
    exact congrArg _ (cells_congr fun j inside => update_of_ne inside.ne _ _)
  refine ⟨⟨H.capacity, H.size + 1, update arr (k + 1) val⟩, ?_, ⟨?_, ?_, fun x mem => ?_⟩, added,
    rfl⟩
  · simp [insert, room, ran]
  · dsimp only
    rw [update_sentinel, top, sound.sentinel]
  · rw [tail_update]
    exact heap
  · rw [elements, added, Multiset.mem_cons] at mem
    rcases mem with rfl | old
    · exact low
    · exact sound.low x old

theorem deleteMin_spec (sound : Sound H) (some_ : isEmpty H = false) :
    ∃ H', deleteMin H = some (H', H.arr 1) ∧ Sound H' ∧ elements H = H.arr 1 ::ₘ elements H' ∧
      H'.capacity = H.capacity := by
  obtain ⟨n, size⟩ : ∃ n, H.size = n + 1 := by
    simp only [isEmpty, decide_eq_false_iff_not] at some_
    exact ⟨H.size - 1, by omega⟩
  have heap := sound.heap
  rw [size] at heap
  have down : DownHeap (update (tail H.arr) 0 (H.arr (n + 1))) n 0 0 := by
    refine ⟨fun j pos inside _ other => ?_, fun pos => absurd pos (lt_irrefl 0)⟩
    rw [update_of_ne other, update_of_ne (by omega)]
    exact heap j pos (by omega) (Nat.zero_le _)
  obtain ⟨arr, k, ran, top, heap', same⟩ :=
    deleteLoop_spec (n + 1) (.inr rfl) (by omega) down
  -- the last element takes the place of the first one
  have removed : elements H =
      H.arr 1 ::ₘ cells n (tail (update arr (k + 1) (H.arr (n + 1)))) := by
    rw [tail_update, same, elements, size, cells_succ]
    rcases Nat.eq_zero_or_pos n with rfl | pos
    · rfl
    · exact (cells_update pos).symm
  refine ⟨⟨H.capacity, n, update arr (k + 1) (H.arr (n + 1))⟩, ?_, ⟨?_, ?_, fun x mem => ?_⟩,
    removed, rfl⟩
  · simp [deleteMin, some_, size, ran]
  · dsimp only
    rw [update_sentinel, top, sound.sentinel]
  · rw [tail_update]
    exact heap'
  · exact sound.low x (removed ▸ Multiset.mem_cons_of_mem mem)

theorem findMin_spec (some_ : isEmpty H = false) : findMin H = some (H.arr 1) := by
  simp [findMin, some_]

/-! ## Every sequence of calls -/

/-- The queue is in order and its elements are what the calls so far leave. -/
structure Inv (w : World) : Prop where
  sound : Sound w.H
  serves : Serves w.log (elements w.H)

theorem inv_init {capacity : Int} {memory : Nat → Int} (made : init capacity memory = some H) :
    Inv ⟨H, []⟩ := by
  unfold init at made
  split at made <;> [cases made; skip]
  obtain rfl := Option.some.inj made
  refine ⟨⟨update_self (0 : Nat) MIN_DATA memory,
    fun i _ inside => absurd inside (Nat.not_lt_zero i), fun x mem => ?_⟩, .nil⟩
  exact absurd mem (Multiset.notMem_zero x)

theorem Inv.step {w : World} {op : Op} (inv : Inv w) (allowed : Allowed w op) :
    ∃ w', step w op = some w' ∧ Inv w' := by
  obtain ⟨sound, serves⟩ := inv
  cases op with
  | insert val =>
      obtain ⟨H', ran, sound', added, -⟩ := insert_spec sound allowed.1 allowed.2
      refine ⟨⟨H', w.log ++ [(.insert val, none)]⟩, ?_, sound', ?_⟩
      · simp [Binheap.step, call, ran]
      · exact serves.snoc (added ▸ .insert _ val)
  | deleteMin =>
      obtain ⟨H', ran, sound', removed, -⟩ := deleteMin_spec sound allowed
      refine ⟨⟨H', w.log ++ [(.deleteMin, some (w.H.arr 1))]⟩, ?_, sound', ?_⟩
      · simp [Binheap.step, call, ran]
      · apply (removed ▸ serves).snoc
        exact .deleteMin _ _ fun y mem => sound.least y (removed ▸ Multiset.mem_cons_of_mem mem)
  | findMin =>
      refine ⟨⟨w.H, w.log ++ [(.findMin, some (w.H.arr 1))]⟩, ?_, sound, ?_⟩
      · simp [Binheap.step, call, findMin_spec allowed]
      · exact serves.snoc (.findMin _ _ (mem_top allowed) sound.least)
  | makeEmpty =>
      refine ⟨⟨makeEmpty w.H, w.log ++ [(.makeEmpty, none)]⟩, rfl, ⟨sound.sentinel, ?_, ?_⟩, ?_⟩
      · exact fun i _ inside => absurd inside (Nat.not_lt_zero i)
      · exact fun x mem => absurd mem (Multiset.notMem_zero x)
      · exact serves.snoc (.makeEmpty _)

theorem log_step {w w' : World} {op : Op} (stepped : step w op = some w') :
    w'.log.map Prod.fst = w.log.map Prod.fst ++ [op] := by
  obtain ⟨r, -, rfl⟩ := Option.map_eq_some_iff.mp stepped
  simp

theorem log_run {w w' : World} {ops : List Op} (ran : run step w ops = some w') :
    w'.log.map Prod.fst = w.log.map Prod.fst ++ ops := by
  induction ops generalizing w with
  | nil =>
      cases ran
      simp
  | cons op ops ih =>
      obtain ⟨u, stepped, ran⟩ := run_cons_eq_some.mp ran
      rw [ih ran, log_step stepped, List.append_assoc, List.singleton_append]

/-- Allowed calls on a queue from `Init` all return, the array keeps its sentinel and its order,
and what the calls return and leave is what they return and leave on a bag of values. -/
theorem priorityQueue {capacity : Int} {memory : Nat → Int} {ops : List Op}
    (made : init capacity memory = some H) (allowed : Along step Allowed ⟨H, []⟩ ops) :
    ∃ w, run step ⟨H, []⟩ ops = some w ∧ w.log.map Prod.fst = ops ∧ w.H.arr 0 = MIN_DATA ∧
      (∀ i, 1 ≤ i → i ≤ w.H.size → w.H.arr (i / 2) ≤ w.H.arr i) ∧
      Serves w.log (elements w.H) := by
  obtain ⟨w, ran, inv⟩ := run_total (fun inv allowed => inv.step allowed) (inv_init made) allowed
  exact ⟨w, ran, log_run ran, inv.sound.sentinel, fun i pos inside => inv.sound.order pos inside,
    inv.serves⟩

theorem priorityQueue_ten :
    ∃ H w, init 10 (fun _ => 7) = some H ∧
      run step ⟨H, []⟩ [.insert 5, .insert 3, .insert 4, .insert 3, .deleteMin, .findMin,
        .makeEmpty, .insert MIN_DATA, .deleteMin] = some w ∧ Serves w.log (elements w.H) := by
  have made : init 10 (fun _ => 7) = some ⟨10, 0, update (fun _ => 7) 0 MIN_DATA⟩ := rfl
  have allowed : Along step Allowed ⟨⟨10, 0, update (fun _ => 7) 0 MIN_DATA⟩, []⟩
      [.insert 5, .insert 3, .insert 4, .insert 3, .deleteMin, .findMin, .makeEmpty,
        .insert MIN_DATA, .deleteMin] := by
    decide +kernel
  obtain ⟨w, ran, -, -, -, serves⟩ := priorityQueue made allowed
  exact ⟨_, w, made, ran, serves⟩

/-! ## Below the sentinel -/

/-- With a value below all that is above it the loop goes on at the sentinel. -/
theorem insertLoop_below (fuel : Nat) (below : ∀ j ≤ i / 2, val < arr j) :
    insertLoop val fuel arr i = none := by
  induction fuel generalizing arr i with
  | zero => rfl
  | succ fuel ih =>
      rw [insertLoop, if_pos (below _ (Nat.le_refl _))]
      refine ih fun j inside => ?_
      by_cases here : j = i
      · rw [here, update_self]
        exact below _ (Nat.le_refl _)
      · rw [update_of_ne here]
        exact below j (by omega)

/-- The loop does not reach beyond where it begins. -/
theorem insertLoop_frame {fuel : Nat} {arr' : Nat → Int} {i' : Nat}
    (ran : insertLoop val fuel arr i = some (arr', i')) :
    i' ≤ i ∧ ∀ j, i < j → arr' j = arr j := by
  induction fuel generalizing arr i with
  | zero => cases ran
  | succ fuel ih =>
      rw [insertLoop] at ran
      by_cases earlier : val < arr (i / 2)
      · rw [if_pos earlier] at ran
        obtain ⟨inside, frame⟩ := ih ran
        refine ⟨by omega, fun j far => ?_⟩
        rw [frame j (by omega), update_of_ne far.ne']
      · rw [if_neg earlier] at ran
        cases ran
        exact ⟨Nat.le_refl _, fun _ _ => rfl⟩

theorem Sound.insertLoop_none (sound : Sound H) (below : val < MIN_DATA) (fuel : Nat) :
    insertLoop val fuel H.arr (H.size + 1) = none := by
  refine insertLoop_below fuel fun j inside => below.trans_le ?_
  rcases j with _ | k
  · exact sound.sentinel.ge
  · exact sound.low _ (mem_cells.mpr ⟨k, by omega, rfl⟩)

theorem Sound.insert_none (sound : Sound H) (below : val < MIN_DATA) : insert val H = none := by
  rw [insert]
  split
  · rfl
  · simp [sound.insertLoop_none below]

/-- A call that returns is one that a caller may make. -/
theorem Sound.allowed {w w' : World} {op : Op} (sound : Sound w.H) (stepped : step w op = some w') :
    Allowed w op := by
  obtain ⟨r, called, -⟩ := Option.map_eq_some_iff.mp stepped
  cases op with
  | insert val =>
      obtain ⟨H', inserted, -⟩ := Option.map_eq_some_iff.mp called
      constructor
      · by_contra below
        rw [sound.insert_none (Int.not_le.mp below)] at inserted
        cases inserted
      · by_contra full
        rw [insert, if_pos (by simpa using full)] at inserted
        cases inserted
  | deleteMin =>
      obtain ⟨r, deleted, -⟩ := Option.map_eq_some_iff.mp called
      by_contra allowed
      have empty : isEmpty w.H = true := Bool.of_not_eq_false allowed
      rw [deleteMin, if_pos empty] at deleted
      cases deleted
  | findMin =>
      obtain ⟨x, found, -⟩ := Option.map_eq_some_iff.mp called
      by_contra allowed
      have empty : isEmpty w.H = true := Bool.of_not_eq_false allowed
      rw [findMin, if_pos empty] at found
      cases found
  | makeEmpty => trivial

theorem inv_run {w w' : World} {ops : List Op} (inv : Inv w) (ran : run step w ops = some w') :
    Inv w' := by
  induction ops generalizing w with
  | nil =>
      cases ran
      exact inv
  | cons op ops ih =>
      obtain ⟨u, stepped, rest⟩ := run_cons_eq_some.mp ran
      obtain ⟨u', stepped', inv'⟩ := inv.step (inv.sound.allowed stepped)
      cases stepped.symm.trans stepped'
      exact ih inv' rest

/-- `Insert(val, H)` returns, has written to `arr[1..size]` only and has added `val` once. -/
def Inserts (val : Int) (H : HeapStruct) : Prop :=
  ∃ H', insert val H = some H' ∧ H'.size = H.size + 1 ∧
    (∀ j, j = 0 ∨ H'.size < j → H'.arr j = H.arr j) ∧ elements H' = val ::ₘ elements H

theorem Sound.inserts (sound : Sound H) (low : MIN_DATA ≤ val) (room : isFull H = false) :
    Inserts val H := by
  obtain ⟨H', inserted, sound', added, -⟩ := insert_spec sound low room
  have made := inserted
  simp only [insert, room, Bool.false_eq_true, if_false, Option.bind_eq_bind,
    Option.bind_eq_some_iff, Prod.exists, Option.some.injEq] at made
  obtain ⟨arr, i, looped, rfl⟩ := made
  obtain ⟨inside, frame⟩ := insertLoop_frame looped
  refine ⟨_, inserted, rfl, fun j out => ?_, added⟩
  rcases out with rfl | far
  · rw [sound'.sentinel, sound.sentinel]
  · dsimp only at far ⊢
    rw [update_of_ne (by omega), frame j far]

/-- After any calls that have returned, a call of `Insert` on a queue with room does what it is for
if and only if the value is not below the sentinel; if it is, the loop does not end. -/
theorem insert_iff {capacity : Int} {memory : Nat → Int} {ops : List Op} {w : World}
    (made : init capacity memory = some H) (ran : run step ⟨H, []⟩ ops = some w)
    (room : isFull w.H = false) (val : Int) :
    (Inserts val w.H ↔ MIN_DATA ≤ val) ∧
      (val < MIN_DATA → ∀ fuel, insertLoop val fuel w.H.arr (w.H.size + 1) = none) := by
  have sound := (inv_run (inv_init made) ran).sound
  refine ⟨⟨fun inserts => ?_, fun low => sound.inserts low room⟩, sound.insertLoop_none⟩
  by_contra below
  obtain ⟨H', inserted, -⟩ := inserts
  rw [sound.insert_none (Int.not_le.mp below)] at inserted
  cases inserted

theorem insert_iff_one :
    ∃ H w, init 10 (fun _ => 7) = some H ∧ run step ⟨H, []⟩ [.insert 5] = some w ∧
      (Inserts 4 w.H ↔ MIN_DATA ≤ 4) := by
  have made : init 10 (fun _ => 7) = some ⟨10, 0, update (fun _ => 7) 0 MIN_DATA⟩ := rfl
  have ran : run step ⟨⟨10, 0, update (fun _ => 7) 0 MIN_DATA⟩, []⟩ [.insert 5] =
      some ⟨⟨10, 1, update (update (fun _ => 7) 0 MIN_DATA) 1 5⟩, [(.insert 5, none)]⟩ := rfl
  exact ⟨_, _, made, ran, (insert_iff made ran rfl 4).1⟩

/-- The value next to the sentinel, inserted into the empty queue. -/
theorem insert_below :
    ∃ H, init 10 (fun _ => 7) = some H ∧ isFull H = false ∧ ¬ Inserts (-32768) H ∧
      ∀ fuel, insertLoop (-32768) fuel H.arr (H.size + 1) = none := by
  have made : init 10 (fun _ => 7) = some ⟨10, 0, update (fun _ => 7) 0 MIN_DATA⟩ := rfl
  have sound := (inv_init made).sound
  refine ⟨_, made, rfl, fun inserts => ?_, sound.insertLoop_none (by decide)⟩
  obtain ⟨H', inserted, -⟩ := inserts
  rw [sound.insert_none (by decide)] at inserted
  cases inserted

end Shang.Binheap
