import Shang.Lib.Run
import Shang.Lib.Heap
import Mathlib

/-!
# The timer heap

`time_heap` of `11-6.heap_timer`: pointers to timers in an array that should be
a binary heap on `expire`. The `expire` and `cb_func` fields of the timer
objects are part of the modelled state; a deleted timer keeps them until its
address is allocated again. Comparisons with `cur_size - 1` are written without
the subtraction, which is signed in the source. Counters are unbounded.

`percolate_down` compares the addresses `array[hole]` and `array[child]` where
it should compare the `expire` of the moved timer with that of the child. The
addresses decide only how far the timer moves, so the heap order survives when
they happen to decide as the `expire` fields would: `DownAgrees`. Taking a
timer out of the middle has a second gap: the last timer, which replaces it,
may have to move up, and only `percolate_down` is called.
-/

namespace Shang.Timer.HeapTimer

open Shang.Lib Function

/-- The address of a timer or of a callback; `NULL` is 0. -/
abbrev Ptr := Nat

/-- `time_heap`, with the fields of the `heap_timer` objects. -/
structure TimeHeap where
  curSize : Nat
  capacity : Nat
  array : Nat → Ptr
  expire : Ptr → Int
  cbFunc : Ptr → Ptr

namespace TimeHeap

/-- The child that `percolate_down` looks at: the earlier one, the left one of two equal ones. -/
def minChild (s : TimeHeap) (hole : Nat) : Nat :=
  let child := 2 * hole + 1
  if child + 1 < s.curSize ∧ s.expire (s.array child) > s.expire (s.array (child + 1)) then
    child + 1
  else child

theorem minChild_eq (s : TimeHeap) (hole : Nat) :
    s.minChild hole = 2 * hole + 1 ∨
      s.minChild hole = 2 * hole + 2 ∧ 2 * hole + 2 < s.curSize := by
  rw [minChild]
  split
  · rename_i right
    exact Or.inr ⟨rfl, right.1⟩
  · exact Or.inl rfl

/-- The loop of `percolate_down` and the store after it. -/
def percolateDownLoop (s : TimeHeap) (timer : Ptr) (hole : Nat) : TimeHeap :=
  if 2 * hole + 1 < s.curSize then
    let child := s.minChild hole
    if s.array hole > s.array child then
      percolateDownLoop { s with array := update s.array hole (s.array child) } timer child
    else { s with array := update s.array hole timer }
  else { s with array := update s.array hole timer }
termination_by s.curSize - hole
decreasing_by
  have := s.minChild_eq hole
  show s.curSize - s.minChild hole < s.curSize - hole
  omega

/-- `percolate_down`. -/
def percolateDown (s : TimeHeap) (hole : Nat) : TimeHeap :=
  s.percolateDownLoop (s.array hole) hole

/-- The constructor `time_heap(cap)`. -/
def construct (expire : Ptr → Int) (cbFunc : Ptr → Ptr) (cap : Nat) : TimeHeap :=
  ⟨0, cap, fun _ => 0, expire, cbFunc⟩

/-- The loop of the second constructor that makes the array into a heap: `percolate_down(i)`
for `i` from `k - 1` down to 0. -/
def heapify : Nat → TimeHeap → TimeHeap
  | 0, s => s
  | k + 1, s => heapify k (s.percolateDown k)

/-- The array of the second constructor before it is made into a heap. -/
def fill (expire : Ptr → Int) (cbFunc : Ptr → Ptr) (initArray : List Ptr) (cap : Nat) :
    TimeHeap :=
  ⟨initArray.length, cap, fun i => initArray.getD i 0, expire, cbFunc⟩

/-- The constructor `time_heap(init_array, size, cap)`: undefined if it throws. -/
def constructFrom (expire : Ptr → Int) (cbFunc : Ptr → Ptr) (initArray : List Ptr) (cap : Nat) :
    Option TimeHeap :=
  if cap < initArray.length then none
  else
    let s := fill expire cbFunc initArray cap
    if initArray.length = 0 then some s
    else some (heapify ((initArray.length - 1) / 2 + 1) s)

/-- `resize`. The cells from `cur_size` on are not initialized; they are not
read before they are written, and are 0 here. -/
def resize (s : TimeHeap) : TimeHeap :=
  { s with
    capacity := s.capacity * 2
    array := fun i => if i < s.curSize then s.array i else 0 }

/-- The loop of `add_timer` and the store after it, with the cell it returns. -/
def addTimerLoop (s : TimeHeap) (timer : Ptr) (hole : Nat) : TimeHeap × Nat :=
  if 0 < hole then
    if s.expire timer < s.expire (s.array (parent hole)) then
      addTimerLoop { s with array := update s.array hole (s.array (parent hole)) } timer
        (parent hole)
    else ({ s with array := update s.array hole timer }, hole)
  else ({ s with array := update s.array hole timer }, hole)
termination_by hole
decreasing_by exact parent_lt ‹_›

/-- `add_timer`: undefined if it throws. -/
def addTimer (s : TimeHeap) (timer : Ptr) : Option (TimeHeap × Nat) :=
  if timer = 0 then none
  else
    let s := if s.curSize ≥ s.capacity then s.resize else s
    let hole := s.curSize
    some (addTimerLoop { s with curSize := s.curSize + 1 } timer hole)

/-- `find_timer`, with `none` for -1. -/
def findTimer (s : TimeHeap) (timer : Ptr) : Option Nat :=
  (List.range s.curSize).find? fun i => timer = s.array i

/-- `array[num] = array[--cur_size]`. -/
def replaceByLast (s : TimeHeap) (num : Nat) : TimeHeap :=
  { s with
    curSize := s.curSize - 1
    array := update s.array num (s.array (s.curSize - 1)) }

/-- `del_timer`: undefined on an empty heap, where `num` is not initialized. -/
def delTimer (s : TimeHeap) (timer : Ptr) : Option TimeHeap :=
  if timer = 0 then some s
  else if s.curSize = 0 then none
  else
    match s.findTimer timer with
    | none => some s
    | some num => some ((s.replaceByLast num).percolateDown num)

/-- `adjust_timer`: undefined on an empty heap, where `num` is not initialized,
and if the timer is not found, where the process exits. -/
def adjustTimer (s : TimeHeap) (timer : Ptr) (delay : Int) : Option TimeHeap :=
  if s.curSize = 0 then none
  else
    match s.findTimer timer with
    | none => none
    | some num =>
        let tmpTimer := s.array num
        let s := { s with expire := update s.expire tmpTimer (s.expire tmpTimer + delay) }
        let s := (s.replaceByLast num).percolateDown num
        (s.addTimer tmpTimer).map fun (s, _) => s

/-- `top`. -/
def top (s : TimeHeap) : Ptr := if s.curSize = 0 then 0 else s.array 0

/-- `pop_timer`. -/
def popTimer (s : TimeHeap) : TimeHeap :=
  if s.curSize = 0 then s
  else if s.array 0 ≠ 0 then (s.replaceByLast 0).percolateDown 0
  else s

/-! ## What sifting keeps -/

variable {s t : TimeHeap} {timer p : Ptr} {hole lo : Nat}

theorem minChild_pos : 0 < s.minChild hole := by
  have := s.minChild_eq hole
  omega

theorem parent_minChild : parent (s.minChild hole) = hole := by
  have := s.minChild_eq hole
  rw [parent_eq_iff minChild_pos]
  omega

theorem lt_minChild : hole < s.minChild hole := by
  have := s.minChild_eq hole
  omega

theorem minChild_lt (inner : 2 * hole + 1 < s.curSize) : s.minChild hole < s.curSize := by
  have := s.minChild_eq hole
  omega

/-- No other child expires earlier. -/
theorem minChild_le {i : Nat} (pos : 0 < i) (bound : i < s.curSize) (here : parent i = hole) :
    s.expire (s.array (s.minChild hole)) ≤ s.expire (s.array i) := by
  rw [parent_eq_iff pos] at here
  rw [minChild]
  split
  · rename_i right
    rcases here with rfl | rfl
    · exact right.2.le
    · exact le_refl _
  · rename_i left
    rcases here with rfl | rfl
    · exact le_refl _
    · exact not_lt.mp fun earlier => left ⟨bound, earlier⟩

theorem percolateDownLoop_descend (inner : 2 * hole + 1 < s.curSize)
    (descend : s.array hole > s.array (s.minChild hole)) :
    s.percolateDownLoop timer hole =
      percolateDownLoop { s with array := update s.array hole (s.array (s.minChild hole)) } timer
        (s.minChild hole) := by
  rw [percolateDownLoop, if_pos inner, if_pos descend]

theorem percolateDownLoop_stay (inner : 2 * hole + 1 < s.curSize)
    (stay : ¬ s.array hole > s.array (s.minChild hole)) :
    s.percolateDownLoop timer hole = { s with array := update s.array hole timer } := by
  rw [percolateDownLoop, if_pos inner, if_neg stay]

theorem percolateDownLoop_leaf (outer : ¬ 2 * hole + 1 < s.curSize) :
    s.percolateDownLoop timer hole = { s with array := update s.array hole timer } := by
  rw [percolateDownLoop, if_neg outer]

/-- The array with the moved timer back in the hole. -/
def filled (s : TimeHeap) (timer : Ptr) (hole : Nat) : Nat → Ptr := update s.array hole timer

/-- The state after a move of a timer from one cell to another, with the hole there. -/
theorem filled_move {next : Nat} (ne : hole ≠ next) :
    filled { s with array := update s.array hole (s.array next) } timer next =
      exchange (s.filled timer hole) hole next := by
  rw [filled, exchange, filled, update_self, update_of_ne ne.symm, update_idem]

/-- Sifting down changes the array only. -/
structure SameTimers (s t : TimeHeap) : Prop where
  expire : t.expire = s.expire
  cbFunc : t.cbFunc = s.cbFunc
  curSize : t.curSize = s.curSize
  capacity : t.capacity = s.capacity

theorem percolateDownLoop_same (s : TimeHeap) (timer : Ptr) (hole : Nat) :
    SameTimers s (s.percolateDownLoop timer hole) := by
  induction s, hole using percolateDownLoop.induct with
  | case1 s hole inner child descend ih =>
      rw [percolateDownLoop_descend inner descend]
      exact ⟨ih.expire, ih.cbFunc, ih.curSize, ih.capacity⟩
  | case2 s hole inner child stay =>
      rw [percolateDownLoop_stay inner stay]
      exact ⟨rfl, rfl, rfl, rfl⟩
  | case3 s hole outer =>
      rw [percolateDownLoop_leaf outer]
      exact ⟨rfl, rfl, rfl, rfl⟩

/-- Sifting down keeps the stored timers. -/
theorem percolateDownLoop_cells (timer : Ptr) (bound : hole < s.curSize) :
    cells s.curSize (s.percolateDownLoop timer hole).array =
      cells s.curSize (s.filled timer hole) := by
  induction s, hole using percolateDownLoop.induct with
  | case1 s hole inner child descend ih =>
      have childBound : child < s.curSize := minChild_lt inner
      rw [percolateDownLoop_descend inner descend]
      refine (ih childBound).trans ?_
      rw [filled_move lt_minChild.ne]
      exact cells_exchange bound childBound
  | case2 s hole inner child stay =>
      rw [percolateDownLoop_stay inner stay]
      rfl
  | case3 s hole outer =>
      rw [percolateDownLoop_leaf outer]
      rfl

/-- Sifting down leaves the cells above the hole alone. -/
theorem percolateDownLoop_above {i : Nat} (above : i < hole) :
    (s.percolateDownLoop timer hole).array i = s.array i := by
  induction s, hole using percolateDownLoop.induct with
  | case1 s hole inner child descend ih =>
      rw [percolateDownLoop_descend inner descend, ih (above.trans lt_minChild)]
      exact update_of_ne above.ne _ _
  | case2 s hole inner child stay =>
      rw [percolateDownLoop_stay inner stay]
      exact update_of_ne above.ne _ _
  | case3 s hole outer =>
      rw [percolateDownLoop_leaf outer]
      exact update_of_ne above.ne _ _

/-! ## When sifting down restores the order -/

/-- The order of the timers stored from a cell on. -/
def Ordered (s : TimeHeap) (lo : Nat) : Prop := HeapFrom (s.expire ∘ s.array) s.curSize lo

/-- Along the way of the moved timer, each comparison of addresses decides as a
comparison of `expire` would: where the addresses descend, the child does not
expire later than the timer, and where they first do not, it does not expire
earlier. The way runs through cells that were not written yet, so all of this
is about the array as it was. -/
def DownAgrees (s : TimeHeap) (timer : Ptr) (hole : Nat) : Prop :=
  if 2 * hole + 1 < s.curSize then
    let child := s.minChild hole
    if s.array hole > s.array child then
      s.expire (s.array child) ≤ s.expire timer ∧ DownAgrees s timer child
    else s.expire timer ≤ s.expire (s.array child)
  else True
termination_by s.curSize - hole
decreasing_by
  have := s.minChild_eq hole
  show s.curSize - s.minChild hole < s.curSize - hole
  omega

theorem minChild_congr (size : t.curSize = s.curSize) (inner : 2 * hole + 1 < s.curSize)
    (same : ∀ i, hole < i → i < s.curSize → t.expire (t.array i) = s.expire (s.array i)) :
    t.minChild hole = s.minChild hole := by
  simp only [minChild]
  refine if_congr ?_ rfl rfl
  rw [size]
  refine and_congr_right fun two => ?_
  rw [same _ (by omega) inner, same _ (by omega) two]

/-- The condition reads the array from the hole on only. -/
theorem DownAgrees.congr (size : t.curSize = s.curSize) (expire : t.expire = s.expire)
    (same : ∀ i, hole ≤ i → t.array i = s.array i) :
    DownAgrees t timer hole ↔ DownAgrees s timer hole := by
  induction hole using DownAgrees.induct s with
  | case1 hole inner child descend ih =>
      have childSame : t.minChild hole = s.minChild hole :=
        minChild_congr size inner fun i above _ => by rw [expire, same i above.le]
      have below : hole < s.minChild hole := lt_minChild
      have rest := ih fun i above => same i (below.le.trans above)
      rw [DownAgrees, DownAgrees, size, expire]
      simp only [childSame, same hole le_rfl, same _ below.le]
      rw [rest]
  | case2 hole inner child stay =>
      have childSame : t.minChild hole = s.minChild hole :=
        minChild_congr size inner fun i above _ => by rw [expire, same i above.le]
      have below : hole < s.minChild hole := lt_minChild
      rw [DownAgrees, DownAgrees, size, expire, if_pos inner, if_pos inner]
      simp only [childSame, same hole le_rfl, same _ below.le]
      rw [if_neg stay, if_neg stay]
  | case3 hole outer =>
      rw [DownAgrees, DownAgrees, size, if_neg outer, if_neg outer]

theorem comp_exchange {K : Type*} (f : Ptr → K) (a : Nat → Ptr) (i j : Nat) :
    f ∘ exchange a i j = exchange (f ∘ a) i j := by
  rw [exchange, comp_update, comp_update, exchange, comp_apply, comp_apply]

/-- After a move, the condition is the one for the rest of the way. -/
theorem DownAgrees.move {x : Ptr} :
    DownAgrees { s with array := update s.array hole x } timer (s.minChild hole) ↔
      DownAgrees s timer (s.minChild hole) :=
  DownAgrees.congr rfl rfl fun _ above => update_of_ne (lt_minChild.trans_le above).ne' _ _

theorem filled_expire_child {i : Nat} (below : hole < i) :
    (s.expire ∘ s.filled timer hole) i = s.expire (s.array i) := by
  rw [comp_apply, filled, update_of_ne below.ne']

theorem filled_expire_hole : (s.expire ∘ s.filled timer hole) hole = s.expire timer := by
  rw [comp_apply, filled, update_self]

/-- The child that is looked at is the earliest one with the timer in the hole, too. -/
theorem filled_minChild_le {i : Nat} (pos : 0 < i) (bound : i < s.curSize)
    (here : parent i = hole) :
    (s.expire ∘ s.filled timer hole) (s.minChild hole) ≤
      (s.expire ∘ s.filled timer hole) i := by
  rw [filled_expire_child lt_minChild, filled_expire_child (here ▸ parent_lt pos)]
  exact minChild_le pos bound here

/-- Sifting down restores the order if the comparisons agree. -/
theorem percolateDownLoop_ordered (from_ : lo ≤ hole) (agrees : s.DownAgrees timer hole)
    (down : DownHeap (s.expire ∘ s.filled timer hole) s.curSize lo hole) :
    (s.percolateDownLoop timer hole).Ordered lo := by
  induction s, hole using percolateDownLoop.induct with
  | case1 s hole inner child descend ih =>
      rw [DownAgrees, if_pos inner, if_pos descend] at agrees
      obtain ⟨later, rest⟩ := agrees
      have below : hole < child := lt_minChild
      rw [percolateDownLoop_descend inner descend]
      refine ih (from_.trans below.le) (DownAgrees.move.mpr rest) ?_
      rw [filled_move below.ne, comp_exchange]
      refine down.descend minChild_pos (minChild_lt inner) parent_minChild
        (fun i pos bound here => filled_minChild_le pos bound here) ?_ from_
      rw [filled_expire_child below, filled_expire_hole]
      exact later
  | case2 s hole inner child stay =>
      rw [DownAgrees, if_pos inner, if_neg stay] at agrees
      rw [percolateDownLoop_stay inner stay]
      refine down.settle fun i pos bound here => ?_
      refine le_trans ?_ (filled_minChild_le pos bound here)
      rw [filled_expire_child lt_minChild, filled_expire_hole]
      exact agrees
  | case3 s hole outer =>
      rw [percolateDownLoop_leaf outer]
      refine down.settle fun i pos bound here => ?_
      rw [parent_eq_iff pos] at here
      omega

theorem Ordered.edge {i : Nat} (ordered : t.Ordered lo) (pos : 0 < i) (bound : i < t.curSize)
    (from_ : lo ≤ parent i) : t.expire (t.array (parent i)) ≤ t.expire (t.array i) :=
  ordered i pos bound from_

/-- In an ordered result, what is stored where the hole was is no later than the timer. -/
theorem percolateDownLoop_hole_le (from_ : lo ≤ hole)
    (ordered : (s.percolateDownLoop timer hole).Ordered lo) :
    s.expire ((s.percolateDownLoop timer hole).array hole) ≤ s.expire timer := by
  induction s, hole using percolateDownLoop.induct with
  | case1 s hole inner child descend ih =>
      have below : hole < child := lt_minChild
      have same := s.percolateDownLoop_same timer hole
      have edge := ordered.edge minChild_pos (same.curSize ▸ minChild_lt inner)
        (from_.trans parent_minChild.ge)
      rw [same.expire, parent_minChild, percolateDownLoop_descend inner descend] at edge
      rw [percolateDownLoop_descend inner descend] at ordered ⊢
      exact edge.trans (ih (from_.trans below.le) ordered)
  | case2 s hole inner child stay =>
      rw [percolateDownLoop_stay inner stay]
      exact (congrArg s.expire (update_self hole timer s.array)).le
  | case3 s hole outer =>
      rw [percolateDownLoop_leaf outer]
      exact (congrArg s.expire (update_self hole timer s.array)).le

/-- Sifting down restores the order only if the comparisons agree. -/
theorem DownAgrees.of_ordered (from_ : lo ≤ hole)
    (ordered : (s.percolateDownLoop timer hole).Ordered lo) : s.DownAgrees timer hole := by
  induction s, hole using percolateDownLoop.induct with
  | case1 s hole inner child descend ih =>
      have below : hole < child := lt_minChild
      have holeLe := percolateDownLoop_hole_le from_ ordered
      rw [percolateDownLoop_descend inner descend] at ordered holeLe
      rw [DownAgrees, if_pos inner, if_pos descend]
      rw [percolateDownLoop_above below] at holeLe
      simp only [update_self] at holeLe
      exact ⟨holeLe, DownAgrees.move.mp (ih (from_.trans below.le) ordered)⟩
  | case2 s hole inner child stay =>
      have below : hole < s.minChild hole := lt_minChild
      have same := s.percolateDownLoop_same timer hole
      have edge := ordered.edge minChild_pos (same.curSize ▸ minChild_lt inner)
        (from_.trans parent_minChild.ge)
      rw [parent_minChild, percolateDownLoop_stay inner stay] at edge
      simp only [update_self, update_of_ne below.ne'] at edge
      rw [DownAgrees, if_pos inner, if_neg stay]
      exact edge
  | case3 s hole outer =>
      rw [DownAgrees, if_neg outer]
      trivial

theorem filled_self : s.filled (s.array hole) hole = s.array := update_eq_self hole s.array

/-- `percolate_down` restores the order exactly if its comparisons agree. -/
theorem percolateDown_ordered_iff (from_ : lo ≤ hole)
    (down : DownHeap (s.expire ∘ s.array) s.curSize lo hole) :
    (s.percolateDown hole).Ordered lo ↔ s.DownAgrees (s.array hole) hole := by
  rw [percolateDown]
  constructor
  · exact DownAgrees.of_ordered from_
  · intro agrees
    refine percolateDownLoop_ordered from_ agrees ?_
    rw [filled_self]
    exact down

/-! ## Taking a timer out -/

/-- The last timer can take the place of the timer in a cell: it is no earlier
than the timer above the cell, and sifting it down compares correctly. -/
def RemoveMeets (s : TimeHeap) (num : Nat) : Prop :=
  let u := s.replaceByLast num
  u.DownAgrees (u.array num) num ∧
    (0 < num → num < u.curSize → u.expire (u.array (parent num)) ≤ u.expire (u.array num))

/-- `array[num] = array[--cur_size]; percolate_down(num)`. -/
def remove (s : TimeHeap) (num : Nat) : TimeHeap := (s.replaceByLast num).percolateDown num

variable {num : Nat}

theorem remove_same (s : TimeHeap) (num : Nat) :
    (s.remove num).expire = s.expire ∧ (s.remove num).cbFunc = s.cbFunc ∧
    (s.remove num).curSize = s.curSize - 1 ∧ (s.remove num).capacity = s.capacity := by
  obtain ⟨expire, cbFunc, curSize, capacity⟩ :=
    (s.replaceByLast num).percolateDownLoop_same ((s.replaceByLast num).array num) num
  exact ⟨expire, cbFunc, curSize, capacity⟩

/-- The replacing timer in the hole, and a heap order around it. -/
theorem replaceByLast_downHeap (ordered : s.Ordered 0) (bound : num < s.curSize)
    (above : 0 < num → num < s.curSize - 1 →
      (s.replaceByLast num).expire ((s.replaceByLast num).array (parent num)) ≤
        (s.replaceByLast num).expire ((s.replaceByLast num).array num)) :
    DownHeap ((s.replaceByLast num).expire ∘ (s.replaceByLast num).array)
      (s.replaceByLast num).curSize 0 num := by
  have off : ∀ i, i ≠ num → (s.replaceByLast num).array i = s.array i := fun i other =>
    update_of_ne other _ _
  refine ⟨fun i pos bound' _ other => ?_, fun pos _ i iPos bound' here => ?_⟩
  · have bound'' : i < s.curSize - 1 := bound'
    by_cases same : i = num
    · subst same
      exact above pos bound'
    · show s.expire _ ≤ s.expire _
      rw [off _ other, off i same]
      exact ordered.edge pos (by omega) (Nat.zero_le _)
  · have bound'' : i < s.curSize - 1 := bound'
    have below := parent_lt iPos
    have above := parent_lt pos
    show s.expire _ ≤ s.expire _
    rw [off _ above.ne, off i (by omega)]
    have lower := ordered.edge iPos (by omega) (Nat.zero_le _)
    rw [here] at lower
    exact (ordered.edge pos bound (Nat.zero_le _)).trans lower

/-- Taking a timer out keeps the order exactly if the last timer can take its place. -/
theorem remove_ordered_iff (ordered : s.Ordered 0) (bound : num < s.curSize) :
    (s.remove num).Ordered 0 ↔ s.RemoveMeets num := by
  constructor
  · intro after
    refine ⟨DownAgrees.of_ordered (Nat.zero_le _) after, fun pos inside => ?_⟩
    have edge := after.edge pos (by rw [(remove_same _ _).2.2.1]; exact inside) (Nat.zero_le _)
    rw [(remove_same _ _).1, remove, percolateDown, percolateDownLoop_above (parent_lt pos)] at edge
    exact edge.trans (percolateDownLoop_hole_le (Nat.zero_le _) after)
  · rintro ⟨agrees, above⟩
    exact (percolateDown_ordered_iff (Nat.zero_le _)
      (replaceByLast_downHeap ordered bound above)).mpr agrees

theorem percolateDown_cells (s : TimeHeap) (hole : Nat) :
    cells s.curSize (s.percolateDown hole).array = cells s.curSize s.array := by
  rw [percolateDown]
  by_cases inside : hole < s.curSize
  · rw [percolateDownLoop_cells _ inside, filled_self]
  · have outer : ¬ 2 * hole + 1 < s.curSize := by omega
    rw [percolateDownLoop_leaf outer]
    exact congrArg (cells s.curSize) filled_self

theorem replaceByLast_cells (bound : num < s.curSize) :
    cells s.curSize s.array =
      s.array num ::ₘ cells (s.replaceByLast num).curSize (s.replaceByLast num).array := by
  obtain ⟨n, size⟩ : ∃ n, s.curSize = n + 1 := Nat.exists_eq_succ_of_ne_zero (by omega)
  simp only [replaceByLast, size, Nat.add_sub_cancel, cells_succ]
  by_cases inside : num < n
  · rw [cells_update inside]
  · obtain rfl : num = n := by omega
    rw [update_eq_self]

/-- Taking a timer out leaves the others stored. -/
theorem remove_cells (bound : num < s.curSize) :
    cells s.curSize s.array =
      s.array num ::ₘ cells (s.remove num).curSize (s.remove num).array := by
  rw [replaceByLast_cells bound, ← percolateDown_cells (s.replaceByLast num) num,
    (remove_same _ _).2.2.1]
  rfl

/-- `pop_timer` of a heap without null pointers. -/
theorem popTimer_eq (nonempty : s.curSize ≠ 0) (nonnull : s.array 0 ≠ 0) :
    s.popTimer = s.remove 0 := by
  rw [popTimer, if_neg nonempty, if_pos nonnull, remove]

/-! ## The clock -/

/-- `tick`, called when `time(NULL)` is `cur`, with the timers whose callbacks
ran. The variable `timer` of the source is `array[0]` whenever it is tested. -/
def tick (s : TimeHeap) (cur : Int) : TimeHeap × List Ptr :=
  if s.curSize = 0 then (s, [])
  else if s.array 0 = 0 then (s, [])
  else if s.expire (s.array 0) > cur then (s, [])
  else
    let ran := if s.cbFunc (s.array 0) ≠ 0 then [s.array 0] else []
    let rest := tick s.popTimer cur
    (rest.1, ran ++ rest.2)
termination_by s.curSize
decreasing_by
  rename_i nonempty nonnull _
  rw [popTimer_eq nonempty nonnull, (remove_same _ _).2.2.1]
  omega

/-- Every removal that a tick makes meets the condition. -/
def TickMeets (s : TimeHeap) (cur : Int) : Prop :=
  if s.curSize = 0 then True
  else if s.array 0 = 0 then True
  else if s.expire (s.array 0) > cur then True
  else s.RemoveMeets 0 ∧ TickMeets s.popTimer cur
termination_by s.curSize
decreasing_by
  rename_i nonempty nonnull _
  rw [popTimer_eq nonempty nonnull, (remove_same _ _).2.2.1]
  omega

/-- A heap in order that stores exactly the timers of `live`. -/
structure Good (s : TimeHeap) (live : Multiset Ptr) : Prop where
  ordered : s.Ordered 0
  stored : cells s.curSize s.array = live
  nodup : live.Nodup
  nonnull : 0 ∉ live
  fits : s.curSize ≤ s.capacity
  room : 0 < s.capacity

variable {live : Multiset Ptr} {cur : Int}

/-- The top is the earliest timer. -/
theorem Good.top_le (good : s.Good live) (mem : p ∈ live) : s.expire (s.array 0) ≤ s.expire p := by
  rw [← good.stored] at mem
  obtain ⟨i, bound, rfl⟩ := mem_cells.mp mem
  exact good.ordered.root_le bound

theorem Good.top_mem (good : s.Good live) (nonempty : s.curSize ≠ 0) : s.array 0 ∈ live := by
  rw [← good.stored]
  exact mem_cells.mpr ⟨0, Nat.pos_of_ne_zero nonempty, rfl⟩

theorem Good.empty_iff (good : s.Good live) : s.curSize = 0 ↔ live = 0 := by
  rw [← good.stored, ← Multiset.card_eq_zero, card_cells]

/-- Taking a timer out of a heap that meets the condition. -/
theorem Good.remove (good : s.Good live) (bound : num < s.curSize) (meets : s.RemoveMeets num) :
    ∃ rest, live = s.array num ::ₘ rest ∧ (s.remove num).Good rest := by
  have split := good.stored ▸ remove_cells bound
  obtain ⟨expire, cbFunc, curSize, capacity⟩ := s.remove_same num
  refine ⟨_, split, (remove_ordered_iff good.ordered bound).mpr meets, rfl, ?_, ?_, ?_, ?_⟩
  · have nodup := good.nodup
    rw [split] at nodup
    exact (Multiset.nodup_cons.mp nodup).2
  · have nonnull := good.nonnull
    rw [split] at nonnull
    exact fun mem => nonnull (Multiset.mem_cons_of_mem mem)
  · rw [curSize, capacity]
    exact (Nat.sub_le _ _).trans good.fits
  · rw [capacity]
    exact good.room

/-- A tick whose removals meet the condition takes out exactly the timers that
have expired, and runs their callbacks. -/
theorem tick_spec (good : s.Good live) (meets : s.TickMeets cur) :
    ((s.tick cur).2 : Multiset Ptr) =
        live.filter (fun p => s.expire p ≤ cur ∧ s.cbFunc p ≠ 0) ∧
      (s.tick cur).1.expire = s.expire ∧ (s.tick cur).1.cbFunc = s.cbFunc ∧
      (s.tick cur).1.Good (live.filter (cur < s.expire ·)) := by
  induction s using tick.induct cur generalizing live with
  | case1 s empty =>
      obtain rfl : live = 0 := good.empty_iff.mp empty
      rw [tick, if_pos empty]
      exact ⟨rfl, rfl, rfl, good⟩
  | case2 s nonempty null =>
      exact absurd (null ▸ good.top_mem nonempty) good.nonnull
  | case3 s nonempty nonnull later =>
      have all : ∀ p ∈ live, cur < s.expire p := fun p mem => later.trans_le (good.top_le mem)
      have fired : live.filter (fun p => s.expire p ≤ cur ∧ s.cbFunc p ≠ 0) = 0 :=
        Multiset.filter_eq_nil.mpr fun p mem expired => (all p mem).not_ge expired.1
      have kept : live.filter (cur < s.expire ·) = live := Multiset.filter_eq_self.mpr all
      rw [tick, if_neg nonempty, if_neg nonnull, if_pos later, fired, kept]
      exact ⟨rfl, rfl, rfl, good⟩
  | case4 s nonempty nonnull later ih =>
      rw [TickMeets, if_neg nonempty, if_neg nonnull, if_neg later] at meets
      rw [popTimer_eq nonempty nonnull] at meets ih
      obtain ⟨others, split, good'⟩ := good.remove (Nat.pos_of_ne_zero nonempty) meets.1
      obtain ⟨expire, cbFunc, -, -⟩ := s.remove_same 0
      obtain ⟨fired, expire', cbFunc', good''⟩ := ih good' meets.2
      rw [expire] at fired expire' good''
      rw [cbFunc] at fired cbFunc'
      have expired : s.expire (s.array 0) ≤ cur := not_lt.mp later
      rw [tick, if_neg nonempty, if_neg nonnull, if_neg later, popTimer_eq nonempty nonnull, split]
      refine ⟨?_, expire', cbFunc', ?_⟩
      · by_cases null : s.cbFunc (s.array 0) = 0
        · have silent : ¬ (s.expire (s.array 0) ≤ cur ∧ s.cbFunc (s.array 0) ≠ 0) :=
            fun both => both.2 null
          rw [Multiset.filter_cons_of_neg (p := fun p => s.expire p ≤ cur ∧ s.cbFunc p ≠ 0) _
            silent, ← fired]
          simp only [if_neg (not_not.mpr null), List.nil_append]
        · rw [Multiset.filter_cons_of_pos (p := fun p => s.expire p ≤ cur ∧ s.cbFunc p ≠ 0) _
            ⟨expired, null⟩, ← fired]
          simp only [if_pos null]
          rfl
      · rw [Multiset.filter_cons_of_neg (p := fun p => cur < s.expire p) _ (not_lt.mpr expired)]
        exact good''

/-! ## Adding a timer -/

theorem addTimerLoop_same (s : TimeHeap) (timer : Ptr) (hole : Nat) :
    SameTimers s (s.addTimerLoop timer hole).1 := by
  induction s, hole using addTimerLoop.induct timer with
  | case1 s hole pos earlier ih =>
      rw [addTimerLoop, if_pos pos, if_pos earlier]
      exact ⟨ih.expire, ih.cbFunc, ih.curSize, ih.capacity⟩
  | case2 s hole pos later =>
      rw [addTimerLoop, if_pos pos, if_neg later]
      exact ⟨rfl, rfl, rfl, rfl⟩
  | case3 s hole root =>
      rw [addTimerLoop, if_neg root]
      exact ⟨rfl, rfl, rfl, rfl⟩

/-- Sifting up stores the timer and keeps the others. -/
theorem addTimerLoop_cells (timer : Ptr) (bound : hole < s.curSize) :
    cells s.curSize (s.addTimerLoop timer hole).1.array =
      cells s.curSize (s.filled timer hole) := by
  induction s, hole using addTimerLoop.induct timer with
  | case1 s hole pos earlier ih =>
      have above := parent_lt pos
      rw [addTimerLoop, if_pos pos, if_pos earlier]
      refine (ih (above.trans bound)).trans ?_
      rw [filled_move above.ne']
      exact cells_exchange bound (above.trans bound)
  | case2 s hole pos later =>
      rw [addTimerLoop, if_pos pos, if_neg later]
      rfl
  | case3 s hole root =>
      rw [addTimerLoop, if_neg root]
      rfl

/-- Sifting up restores the order. -/
theorem addTimerLoop_ordered (bound : hole < s.curSize)
    (up : UpHeap (s.expire ∘ s.filled timer hole) s.curSize hole) :
    (s.addTimerLoop timer hole).1.Ordered 0 := by
  have filledParent : ∀ {s : TimeHeap} {hole}, 0 < hole →
      (s.expire ∘ s.filled timer hole) (parent hole) = s.expire (s.array (parent hole)) := by
    intro s hole pos
    rw [comp_apply, filled, update_of_ne (parent_lt pos).ne]
  induction s, hole using addTimerLoop.induct timer with
  | case1 s hole pos earlier ih =>
      have above := parent_lt pos
      rw [addTimerLoop, if_pos pos, if_pos earlier]
      refine ih (above.trans bound) ?_
      rw [filled_move above.ne', comp_exchange]
      refine up.ascend pos bound ?_
      rw [filledParent pos, filled_expire_hole]
      exact earlier.le
  | case2 s hole pos later =>
      rw [addTimerLoop, if_pos pos, if_neg later]
      refine up.settle fun _ => ?_
      rw [filledParent pos, filled_expire_hole]
      exact not_lt.mp later
  | case3 s hole root =>
      rw [addTimerLoop, if_neg root]
      exact up.settle fun pos => absurd pos root

/-- `resize` when the array is full: there is room, and the same timers are stored. -/
theorem Good.resized (good : s.Good live) :
    ∃ u, (if s.curSize ≥ s.capacity then s.resize else s) = u ∧ u.Good live ∧
      u.curSize < u.capacity ∧ u.expire = s.expire ∧ u.cbFunc = s.cbFunc := by
  have fits := good.fits
  have room := good.room
  by_cases full : s.curSize ≥ s.capacity
  · have copied : ∀ i, i < s.curSize → s.resize.array i = s.array i := fun i bound =>
      if_pos bound
    refine ⟨s.resize, if_pos full, ⟨?_, ?_, good.nodup, good.nonnull, ?_, ?_⟩, ?_, rfl, rfl⟩
    · intro i pos bound from_
      have above := parent_lt pos
      show s.expire _ ≤ s.expire _
      rw [copied i bound, copied _ (above.trans bound)]
      exact good.ordered.edge pos bound from_
    · exact (cells_congr copied).trans good.stored
    · show s.curSize ≤ s.capacity * 2
      omega
    · show 0 < s.capacity * 2
      omega
    · show s.curSize < s.capacity * 2
      omega
  · exact ⟨s, if_neg full, good, not_le.mp full, rfl, rfl⟩

/-- `add_timer` keeps the order. -/
theorem Good.add (good : s.Good live) (nonnull : p ≠ 0) (fresh : p ∉ live) :
    ∃ t num, s.addTimer p = some (t, num) ∧ t.Good (p ::ₘ live) ∧ t.expire = s.expire ∧
      t.cbFunc = s.cbFunc := by
  obtain ⟨u, resized, good', room, expire, cbFunc⟩ := good.resized
  let v : TimeHeap := { u with curSize := u.curSize + 1 }
  have same := v.addTimerLoop_same p u.curSize
  have inside : u.curSize < v.curSize := Nat.lt_succ_self _
  have others : ∀ i, i < u.curSize → v.filled p u.curSize i = u.array i := fun i bound =>
    update_of_ne bound.ne _ _
  refine ⟨(v.addTimerLoop p u.curSize).1, (v.addTimerLoop p u.curSize).2, ?_,
    ⟨addTimerLoop_ordered inside ⟨?_, ?_⟩, ?_, ?_, ?_, ?_, ?_⟩,
    same.expire.trans expire, same.cbFunc.trans cbFunc⟩
  · rw [addTimer, if_neg nonnull, resized]
  · intro i pos bound other
    have bound' : i < u.curSize := lt_of_le_of_ne (Nat.le_of_lt_succ bound) other
    show u.expire _ ≤ u.expire _
    rw [others i bound', others _ ((parent_lt pos).trans bound')]
    exact good'.ordered.edge pos bound' (Nat.zero_le _)
  · intro pos i iPos bound here
    have := parent_lt iPos
    have bound' : i < u.curSize + 1 := bound
    omega
  · rw [same.curSize, addTimerLoop_cells p inside]
    show cells (u.curSize + 1) _ = _
    rw [cells_succ, cells_congr others, good'.stored]
    exact congrArg (· ::ₘ live) (update_self _ _ _)
  · exact Multiset.nodup_cons.mpr ⟨fresh, good.nodup⟩
  · rw [Multiset.mem_cons]
    exact not_or.mpr ⟨nonnull.symm, good.nonnull⟩
  · rw [same.curSize, same.capacity]
    exact room
  · rw [same.capacity]
    exact good'.room

/-! ## Finding, deleting and adjusting -/

/-- A stored timer is found in its cell. -/
theorem Good.find (good : s.Good live) (mem : p ∈ live) :
    ∃ num, s.findTimer p = some num ∧ num < s.curSize ∧ s.array num = p := by
  rw [← good.stored] at mem
  obtain ⟨i, bound, here⟩ := mem_cells.mp mem
  have found : (s.findTimer p).isSome := by
    rw [findTimer, List.find?_isSome]
    exact ⟨i, List.mem_range.mpr bound, decide_eq_true here.symm⟩
  obtain ⟨num, eq⟩ := Option.isSome_iff_exists.mp found
  have holds := List.find?_some eq
  have inside := List.mem_of_find?_eq_some eq
  exact ⟨num, eq, List.mem_range.mp inside, (of_decide_eq_true holds).symm⟩

/-- `p->expire = e`. -/
def setExpire (s : TimeHeap) (p : Ptr) (e : Int) : TimeHeap :=
  { s with expire := update s.expire p e }

/-- Sifting down does not read the `expire` of a timer that is not stored. -/
theorem percolateDownLoop_setExpire {e : Int} (off : ∀ i, i < s.curSize → s.array i ≠ p) :
    (s.setExpire p e).percolateDownLoop timer hole =
      (s.percolateDownLoop timer hole).setExpire p e := by
  have childSame : ∀ {s : TimeHeap} {hole}, 2 * hole + 1 < s.curSize →
      (∀ i, i < s.curSize → s.array i ≠ p) → (s.setExpire p e).minChild hole = s.minChild hole :=
    fun inner off => minChild_congr rfl inner fun i _ bound => update_of_ne (off i bound) _ _
  induction s, hole using percolateDownLoop.induct with
  | case1 s hole inner child descend ih =>
      have bound : child < s.curSize := minChild_lt inner
      have moved : ∀ i, i < s.curSize → update s.array hole (s.array child) i ≠ p := by
        intro i inside
        by_cases same : i = hole
        · rw [same, update_self]
          exact off child bound
        · rw [update_of_ne same]
          exact off i inside
      rw [s.percolateDownLoop_descend inner descend, ← ih moved, percolateDownLoop,
        childSame inner off]
      exact (if_pos inner).trans (if_pos descend)
  | case2 s hole inner child stay =>
      have stay' : ¬ (s.setExpire p e).array hole >
          (s.setExpire p e).array ((s.setExpire p e).minChild hole) := by
        rw [childSame inner off]
        exact stay
      have inner' : 2 * hole + 1 < (s.setExpire p e).curSize := inner
      rw [percolateDownLoop_stay inner stay, percolateDownLoop_stay inner' stay']
      rfl
  | case3 s hole outer =>
      have outer' : ¬ 2 * hole + 1 < (s.setExpire p e).curSize := outer
      rw [percolateDownLoop_leaf outer, percolateDownLoop_leaf outer']
      rfl

/-- A change of the `expire` of a timer that is not stored. -/
theorem Good.setExpire (good : s.Good live) (off : p ∉ live) (e : Int) :
    (s.setExpire p e).Good live := by
  have keep : ∀ i, i < s.curSize → (s.setExpire p e).expire (s.array i) = s.expire (s.array i) := by
    intro i bound
    refine update_of_ne (fun same => off ?_) _ _
    rw [← good.stored, ← same]
    exact mem_cells.mpr ⟨i, bound, rfl⟩
  refine ⟨fun i pos bound from_ => ?_, good.stored, good.nodup, good.nonnull, good.fits, good.room⟩
  have above := parent_lt pos
  show (s.setExpire p e).expire (s.array _) ≤ (s.setExpire p e).expire (s.array _)
  rw [keep i bound, keep _ (above.trans bound)]
  exact good.ordered.edge pos bound from_

/-- `del_timer` of a stored timer. -/
theorem Good.del (good : s.Good live) (mem : p ∈ live)
    (meets : ∀ num, s.findTimer p = some num → s.RemoveMeets num) :
    ∃ t, s.delTimer p = some t ∧ t.Good (live.erase p) ∧ t.expire = s.expire ∧
      t.cbFunc = s.cbFunc := by
  obtain ⟨num, found, bound, here⟩ := good.find mem
  obtain ⟨rest, split, good'⟩ := good.remove bound (meets num found)
  have nonnull : p ≠ 0 := fun same => good.nonnull (same ▸ mem)
  have nonempty : s.curSize ≠ 0 := Nat.ne_of_gt (Nat.zero_lt_of_lt bound)
  refine ⟨s.remove num, ?_, ?_, (remove_same _ _).1, (remove_same _ _).2.1⟩
  · rw [delTimer, if_neg nonnull, if_neg nonempty, found]
    rfl
  · rw [split, here, Multiset.erase_cons_head]
    exact good'

/-- `adjust_timer` of a stored timer. -/
theorem Good.adjust (good : s.Good live) (mem : p ∈ live) (delay : Int)
    (meets : ∀ num, s.findTimer p = some num → s.RemoveMeets num) :
    ∃ t, s.adjustTimer p delay = some t ∧ t.Good live ∧
      t.expire = update s.expire p (s.expire p + delay) ∧ t.cbFunc = s.cbFunc := by
  obtain ⟨num, found, bound, here⟩ := good.find mem
  obtain ⟨rest, split, good'⟩ := good.remove bound (meets num found)
  rw [here] at split
  have nonnull : p ≠ 0 := fun same => good.nonnull (same ▸ mem)
  have nonempty : s.curSize ≠ 0 := Nat.ne_of_gt (Nat.zero_lt_of_lt bound)
  have off : p ∉ rest := by
    have nodup := good.nodup
    rw [split] at nodup
    exact (Multiset.nodup_cons.mp nodup).1
  have stored : cells (s.replaceByLast num).curSize (s.replaceByLast num).array = rest := by
    have cons := replaceByLast_cells bound
    rw [good.stored, here, split] at cons
    exact ((Multiset.cons_inj_right p).mp cons).symm
  have offCells : ∀ i, i < (s.replaceByLast num).curSize → (s.replaceByLast num).array i ≠ p := by
    intro i inside same
    exact off (stored ▸ mem_cells.mpr ⟨i, inside, same⟩)
  have commute : ((s.setExpire p (s.expire p + delay)).replaceByLast num).percolateDown num =
      (s.remove num).setExpire p (s.expire p + delay) :=
    percolateDownLoop_setExpire offCells
  obtain ⟨t, cell, added, good'', expire, cbFunc⟩ :=
    (good'.setExpire off (s.expire p + delay)).add nonnull off
  refine ⟨t, ?_, split ▸ good'', ?_, ?_⟩
  · rw [adjustTimer, if_neg nonempty, found]
    simp only [here]
    show Option.map _ ((((s.setExpire p (s.expire p + delay)).replaceByLast num).percolateDown
      num).addTimer p) = some t
    rw [commute, added]
    rfl
  · rw [expire]
    show update (s.remove num).expire p _ = _
    rw [(remove_same _ _).1]
  · rw [cbFunc]
    exact (remove_same _ _).2.1

/-! ## Building a heap from an array -/

/-- Each `percolate_down` of the second constructor compares correctly. -/
def HeapifyMeets : Nat → TimeHeap → Prop
  | 0, _ => True
  | k + 1, s => s.DownAgrees (s.array k) k ∧ HeapifyMeets k (s.percolateDown k)

theorem heapify_same (k : Nat) (s : TimeHeap) :
    SameTimers s (heapify k s) ∧ cells s.curSize (heapify k s).array = cells s.curSize s.array := by
  induction k generalizing s with
  | zero => exact ⟨⟨rfl, rfl, rfl, rfl⟩, rfl⟩
  | succ k ih =>
      have first := s.percolateDownLoop_same (s.array k) k
      obtain ⟨rest, stored⟩ := ih (s.percolateDown k)
      refine ⟨⟨rest.expire.trans first.expire, rest.cbFunc.trans first.cbFunc,
        rest.curSize.trans first.curSize, rest.capacity.trans first.capacity⟩, ?_⟩
      have size : (s.percolateDown k).curSize = s.curSize := first.curSize
      rw [size] at stored
      exact stored.trans (percolateDown_cells s k)

/-- The array is ordered from a cell on once the cells from there on were sifted down. -/
theorem heapify_ordered {k : Nat} (ordered : s.Ordered k) (meets : HeapifyMeets k s) :
    (heapify k s).Ordered 0 := by
  induction k generalizing s with
  | zero => exact ordered
  | succ k ih =>
      refine ih ((percolateDown_ordered_iff le_rfl ⟨fun i pos bound from_ other => ?_, ?_⟩).mpr
        meets.1) meets.2
      · exact ordered.edge pos bound (lt_of_le_of_ne from_ (Ne.symm other))
      · intro pos from_
        exact absurd from_ (not_le.mpr (parent_lt pos))

end TimeHeap

open TimeHeap

/-! ## Runs -/

/-- How a heap is built. -/
inductive Start
  | empty (cap : Nat)
  | filled (initArray : List Ptr) (cap : Nat)

/-- The new heap: undefined if the constructor throws. -/
def Start.heap (expire : Ptr → Int) (cbFunc : Ptr → Ptr) : Start → Option TimeHeap
  | .empty cap => some (construct expire cbFunc cap)
  | .filled initArray cap => constructFrom expire cbFunc initArray cap

/-- The timers that a heap is built from. -/
def Start.timers : Start → List Ptr
  | .empty _ => []
  | .filled initArray _ => initArray

/-- The capacity that a heap is built with. -/
def Start.cap : Start → Nat
  | .empty cap => cap
  | .filled _ cap => cap

/-- There is room for a timer, and the array holds different timers. -/
def Start.Valid (start : Start) : Prop := 1 ≤ start.cap ∧ start.timers.Nodup ∧ 0 ∉ start.timers

/-- The constructor compares correctly. -/
def Start.Meets (expire : Ptr → Int) (cbFunc : Ptr → Ptr) : Start → Prop
  | .empty _ => True
  | .filled initArray cap =>
      HeapifyMeets ((initArray.length - 1) / 2 + 1) (fill expire cbFunc initArray cap)

/-- An operation; a timer is added with some `expire` and `cb_func`. -/
inductive Op
  | add (timer : Ptr) (expire : Int) (cbFunc : Ptr)
  | del (timer : Ptr)
  | adjust (timer : Ptr) (delay : Int)
  | pop
  | tick (cur : Int)

/-- The heap and the timers a client holds as live: those added, without those
deleted, popped and those a tick found expired. -/
structure World where
  heap : TimeHeap
  live : Multiset Ptr

/-- One operation. -/
def step (w : World) : Op → Option World
  | .add timer expire cbFunc =>
      let heap := { w.heap with
        expire := update w.heap.expire timer expire
        cbFunc := update w.heap.cbFunc timer cbFunc }
      (heap.addTimer timer).map fun (heap, _) => ⟨heap, timer ::ₘ w.live⟩
  | .del timer => (w.heap.delTimer timer).map (⟨·, w.live.erase timer⟩)
  | .adjust timer delay => (w.heap.adjustTimer timer delay).map (⟨·, w.live⟩)
  | .pop => some ⟨w.heap.popTimer, w.live.erase w.heap.top⟩
  | .tick cur => some ⟨(w.heap.tick cur).1, w.live.filter (cur < w.heap.expire ·)⟩

/-- What the client keeps to: it adds fresh timers, and deletes and adjusts live ones. -/
def Allowed (w : World) : Op → Prop
  | .add timer _ _ => timer ≠ 0 ∧ timer ∉ w.live
  | .del timer => timer ∈ w.live
  | .adjust timer delay => timer ∈ w.live ∧ 0 ≤ delay
  | .pop => True
  | .tick _ => True

/-- Every removal of the operation meets the condition. -/
def Meets (w : World) : Op → Prop
  | .add _ _ _ => True
  | .del timer => ∀ num, w.heap.findTimer timer = some num → w.heap.RemoveMeets num
  | .adjust timer _ => ∀ num, w.heap.findTimer timer = some num → w.heap.RemoveMeets num
  | .pop => w.heap.curSize ≠ 0 → w.heap.RemoveMeets 0
  | .tick cur => w.heap.TickMeets cur

variable {expire : Ptr → Int} {cbFunc : Ptr → Ptr} {s : TimeHeap} {w : World}

theorem fill_cells {initArray : List Ptr} {cap : Nat} :
    cells initArray.length (fill expire cbFunc initArray cap).array =
      (initArray : Multiset Ptr) := by
  rw [cells, ← Multiset.coe_range, Multiset.map_coe]
  refine congrArg _ (List.ext_getElem (by simp) fun i _ bound => ?_)
  simp [TimeHeap.fill, bound]

/-- A constructor that compares correctly builds a heap. -/
theorem Start.good {start : Start} (valid : start.Valid) (meets : start.Meets expire cbFunc)
    (built : start.heap expire cbFunc = some s) : s.Good start.timers := by
  obtain ⟨room, nodup, nonnull⟩ := valid
  cases start with
  | empty cap =>
      cases built
      exact ⟨fun i _ bound => absurd bound (Nat.not_lt_zero i), rfl, Multiset.nodup_zero,
        Multiset.notMem_zero 0, Nat.zero_le _, room⟩
  | filled initArray cap =>
      have fits : ¬ cap < initArray.length := by
        intro exceeds
        rw [Start.heap, constructFrom, if_pos exceeds] at built
        cases built
      have bare : (fill expire cbFunc initArray cap).Ordered
          ((initArray.length - 1) / 2 + 1) := by
        intro i pos bound from_
        have bound' : i < initArray.length := bound
        unfold parent at from_
        omega
      obtain ⟨same, stored⟩ := heapify_same ((initArray.length - 1) / 2 + 1)
        (fill expire cbFunc initArray cap)
      have ordered := heapify_ordered bare meets
      rw [Start.heap, constructFrom, if_neg fits] at built
      by_cases empty : initArray.length = 0
      · rw [if_pos empty] at built
        cases built
        exact ⟨fun i _ bound => absurd (empty ▸ bound) (Nat.not_lt_zero i), fill_cells, nodup,
          nonnull, Nat.le_of_not_lt fits, room⟩
      · rw [if_neg empty] at built
        cases built
        refine ⟨ordered, ?_, nodup, nonnull, ?_, ?_⟩
        · rw [same.curSize]
          exact stored.trans fill_cells
        · rw [same.curSize, same.capacity]
          exact Nat.le_of_not_lt fits
        · rw [same.capacity]
          exact room

/-- The heap is in order and stores exactly the live timers. -/
def World.Good (w : World) : Prop := w.heap.Good w.live

/-- An allowed operation that meets the condition is defined and keeps the order. -/
theorem step_good {op : Op} (good : w.Good) (allowed : Allowed w op) (meets : Meets w op) :
    ∃ w', step w op = some w' ∧ w'.Good := by
  cases op with
  | add timer expire cbFunc =>
      obtain ⟨nonnull, fresh⟩ := allowed
      have good' : TimeHeap.Good { w.heap with
          expire := update w.heap.expire timer expire
          cbFunc := update w.heap.cbFunc timer cbFunc } w.live :=
        { good.setExpire fresh expire with }
      obtain ⟨t, num, added, good'', -⟩ := good'.add nonnull fresh
      refine ⟨⟨t, timer ::ₘ w.live⟩, ?_, good''⟩
      rw [step, added, Option.map_some]
  | del timer =>
      obtain ⟨t, deleted, good', -⟩ := good.del allowed meets
      refine ⟨⟨t, w.live.erase timer⟩, ?_, good'⟩
      rw [step, deleted, Option.map_some]
  | adjust timer delay =>
      obtain ⟨t, adjusted, good', -⟩ := good.adjust allowed.1 delay meets
      refine ⟨⟨t, w.live⟩, ?_, good'⟩
      rw [step, adjusted, Option.map_some]
  | pop =>
      refine ⟨_, rfl, ?_⟩
      by_cases empty : w.heap.curSize = 0
      · have same : w.heap.popTimer = w.heap := if_pos empty
        have none : w.live = 0 := TimeHeap.Good.empty_iff good |>.mp empty
        show TimeHeap.Good w.heap.popTimer (w.live.erase w.heap.top)
        rw [same, none, Multiset.erase_zero]
        exact none ▸ good
      · have nonnull : w.heap.array 0 ≠ 0 := fun null => good.nonnull (null ▸ good.top_mem empty)
        have topEq : w.heap.top = w.heap.array 0 := if_neg empty
        obtain ⟨rest, split, good'⟩ := good.remove (Nat.pos_of_ne_zero empty) (meets empty)
        show TimeHeap.Good w.heap.popTimer (w.live.erase w.heap.top)
        rw [popTimer_eq empty nonnull, topEq, split, Multiset.erase_cons_head]
        exact good'
  | tick cur =>
      exact ⟨_, rfl, (tick_spec good meets).2.2.2⟩

end Shang.Timer.HeapTimer
