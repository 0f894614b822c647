import Shang.Lib.Heap
import Mathlib.Order.Basic

/-!
# The timer heap of libevent

`minheap-internal.h`: an array of pointers to events that is a binary heap on
`ev_timeout`. Every event knows its cell, `min_heap_idx`, which is -1 outside the
heap, so that `min_heap_erase` needs no search. The fields of the events are part of
the modelled state. Counters are unbounded.

Both loops carry a hole and the event that will be put into one. `Sifting` is what
holds of the other cells meanwhile, and `Sifted` what the loops do.
-/

namespace Shang.Libevent

open Lib Function

/-! ## Time values -/

/-- `struct timeval` -/
structure Timeval where
  tvSec : Int
  tvUsec : Int
  deriving DecidableEq

namespace Timeval

/-- `evutil_timercmp(a, b, >)` -/
def gt (a b : Timeval) : Bool :=
  if a.tvSec = b.tvSec then decide (a.tvUsec > b.tvUsec) else decide (a.tvSec > b.tvSec)

/-- By the seconds, and then by the microseconds. -/
instance : Preorder Timeval where
  le a b := a.tvSec < b.tvSec ∨ a.tvSec = b.tvSec ∧ a.tvUsec ≤ b.tvUsec
  lt a b := a.tvSec < b.tvSec ∨ a.tvSec = b.tvSec ∧ a.tvUsec < b.tvUsec
  le_refl a := .inr ⟨rfl, le_refl _⟩
  le_trans a b c := by omega
  lt_iff_le_not_ge a b := by omega

theorem le_iff {a b : Timeval} :
    a ≤ b ↔ a.tvSec < b.tvSec ∨ a.tvSec = b.tvSec ∧ a.tvUsec ≤ b.tvUsec := Iff.rfl

theorem lt_iff {a b : Timeval} :
    a < b ↔ a.tvSec < b.tvSec ∨ a.tvSec = b.tvSec ∧ a.tvUsec < b.tvUsec := Iff.rfl

theorem gt_iff {a b : Timeval} : a.gt b = true ↔ b < a := by
  rw [gt, lt_iff]
  split
  · next same =>
    rw [decide_eq_true_iff]
    omega
  · next other =>
    rw [decide_eq_true_iff]
    omega

theorem not_gt_iff {a b : Timeval} : ¬ a.gt b = true ↔ a ≤ b := by
  rw [gt_iff, lt_iff, le_iff]
  omega

end Timeval

/-! ## The program -/

/-- The address of an event; `NULL` is 0. -/
abbrev Ptr := Nat

/-- `min_heap_t`, with the fields of the events. -/
structure MinHeap where
  p : Nat → Ptr
  n : Nat
  a : Nat
  evTimeout : Ptr → Timeval
  minHeapIdx : Ptr → Int

namespace MinHeap

/-- `min_heap_ctor`, when every event has been through `min_heap_elem_init`. -/
def ctor (evTimeout : Ptr → Timeval) : MinHeap := ⟨fun _ => 0, 0, 0, evTimeout, fun _ => -1⟩

/-- `min_heap_elem_greater` -/
def elemGreater (s : MinHeap) (x y : Ptr) : Bool := (s.evTimeout x).gt (s.evTimeout y)

/-- `min_heap_top` -/
def top (s : MinHeap) : Ptr := if s.n ≠ 0 then s.p 0 else 0

/-- `min_heap_elt_is_top` -/
def eltIsTop (s : MinHeap) (e : Ptr) : Bool := s.minHeapIdx e = 0

/-- `(s->p[hole_index] = e)->ev_timeout_pos.min_heap_idx = hole_index` -/
def place (s : MinHeap) (holeIndex : Nat) (e : Ptr) : MinHeap :=
  { s with p := update s.p holeIndex e, minHeapIdx := update s.minHeapIdx e holeIndex }

/-- `min_heap_shift_up_` -/
def shiftUp (s : MinHeap) (holeIndex : Nat) (e : Ptr) : MinHeap :=
  if 0 < holeIndex ∧ s.elemGreater (s.p (parent holeIndex)) e = true then
    shiftUp (s.place holeIndex (s.p (parent holeIndex))) (parent holeIndex) e
  else s.place holeIndex e
termination_by holeIndex
decreasing_by exact parent_lt (by omega)

/-- The child that `min_heap_shift_down_` looks at, below a cell with a child. -/
def minChild (s : MinHeap) (holeIndex : Nat) : Nat :=
  let minChild := 2 * (holeIndex + 1)
  if minChild = s.n ∨ s.elemGreater (s.p minChild) (s.p (minChild - 1)) = true then minChild - 1
  else minChild

theorem minChild_eq (s : MinHeap) (hole : Nat) :
    s.minChild hole = 2 * hole + 1 ∨ s.minChild hole = 2 * hole + 2 ∧ 2 * hole + 2 ≠ s.n := by
  rw [minChild]
  split
  · exact .inl (by omega)
  · next right => exact .inr ⟨rfl, fun full => right (.inl full)⟩

/-- `min_heap_shift_down_` -/
def shiftDown (s : MinHeap) (holeIndex : Nat) (e : Ptr) : MinHeap :=
  if 2 * (holeIndex + 1) ≤ s.n then
    let minChild := s.minChild holeIndex
    if s.elemGreater e (s.p minChild) = true then
      shiftDown (s.place holeIndex (s.p minChild)) minChild e
    else s.place holeIndex e
  else s.place holeIndex e
termination_by s.n - holeIndex
decreasing_by
  have := s.minChild_eq holeIndex
  show s.n - s.minChild holeIndex < s.n - holeIndex
  omega

/-- `min_heap_reserve`; `none` is its -1, when `mm_realloc` fails. -/
def reserve (s : MinHeap) (n : Nat) (mmRealloc : Bool) : Option MinHeap :=
  if s.a < n then
    let a := if s.a ≠ 0 then s.a * 2 else 8
    let a := if a < n then n else a
    if mmRealloc then some { s with a := a } else none
  else some s

/-- `min_heap_push`; `none` is its -1. -/
def push (s : MinHeap) (e : Ptr) (mmRealloc : Bool) : Option MinHeap :=
  (s.reserve (s.n + 1) mmRealloc).map fun s => shiftUp { s with n := s.n + 1 } s.n e

/-- `e->ev_timeout_pos.min_heap_idx = -1` -/
def elemInit (s : MinHeap) (e : Ptr) : MinHeap :=
  { s with minHeapIdx := update s.minHeapIdx e (-1) }

/-- `min_heap_pop`, with the pointer it returns. -/
def pop (s : MinHeap) : Ptr × MinHeap :=
  if s.n ≠ 0 then
    let e := s.p 0
    (e, (shiftDown { s with n := s.n - 1 } 0 (s.p (s.n - 1))).elemInit e)
  else (0, s)

/-- `min_heap_erase`, with the number it returns. -/
def erase (s : MinHeap) (e : Ptr) : Int × MinHeap :=
  if s.minHeapIdx e ≠ -1 then
    let last := s.p (s.n - 1)
    let hole := (s.minHeapIdx e).toNat
    let shorter := { s with n := s.n - 1 }
    let moved :=
      if s.minHeapIdx e > 0 ∧ s.elemGreater (s.p (parent hole)) last = true then
        shorter.shiftUp hole last
      else shorter.shiftDown hole last
    (0, moved.elemInit e)
  else (-1, s)

/-! ## Sifting -/

variable {s t : MinHeap} {hole c : Nat} {e x : Ptr}

/-- The times in the cells. -/
def time (s : MinHeap) (i : Nat) : Timeval := s.evTimeout (s.p i)

/-- The times when `e` is in the hole. -/
def timeWith (s : MinHeap) (hole : Nat) (e : Ptr) (i : Nat) : Timeval :=
  s.evTimeout (update s.p hole e i)

theorem timeWith_hole : s.timeWith hole e hole = s.evTimeout e := by
  rw [timeWith, update_self]

theorem timeWith_of_ne {i : Nat} (ne : i ≠ hole) : s.timeWith hole e i = s.time i := by
  rw [timeWith, update_of_ne ne, time]

theorem time_place : (s.place hole e).time = s.timeWith hole e := rfl

theorem timeWith_move (ne : hole ≠ c) :
    (s.place hole (s.p c)).timeWith c e = exchange (s.timeWith hole e) hole c := by
  have cells : (fun i => s.evTimeout (update (update s.p hole (s.p c)) c e i)) =
      exchange (fun i => s.evTimeout (update s.p hole e i)) hole c := by
    rw [update_update_eq_exchange ne]
    exact comp_exchange_apply fun x => s.evTimeout x
  exact cells

/-- Beside the hole every event of the heap knows its cell, and none is the one to come. -/
structure Sifting (s : MinHeap) (hole : Nat) (e : Ptr) : Prop where
  bound : hole < s.n
  own : ∀ i, i < s.n → i ≠ hole → s.minHeapIdx (s.p i) = i
  other : ∀ i, i < s.n → i ≠ hole → s.p i ≠ e

/-- The event is in the heap, and every event of the heap knows its cell. -/
structure Sifted (s t : MinHeap) (hole : Nat) (e : Ptr) : Prop where
  n : t.n = s.n
  a : t.a = s.a
  evTimeout : t.evTimeout = s.evTimeout
  cells : cells s.n t.p = cells s.n (update s.p hole e)
  own : ∀ i, i < s.n → t.minHeapIdx (t.p i) = i
  off : ∀ x, x ∉ Lib.cells s.n t.p → t.minHeapIdx x = s.minHeapIdx x

theorem Sifting.settle (h : s.Sifting hole e) : Sifted s (s.place hole e) hole e where
  n := rfl
  a := rfl
  evTimeout := rfl
  cells := rfl
  own i bound := by
    by_cases here : i = hole
    · simp [place, here]
    · simp only [place, update_of_ne here, update_of_ne (h.other i bound here)]
      exact h.own i bound here
  off x out := by
    have ne : x ≠ e := fun same => out (mem_cells.mpr ⟨hole, h.bound, by simp [place, same]⟩)
    simp [place, update_of_ne ne]

theorem Sifting.move (h : s.Sifting hole e) (bound : c < s.n) (ne : c ≠ hole) :
    (s.place hole (s.p c)).Sifting c e where
  bound := bound
  own i iBound apart := by
    by_cases here : i = hole
    · simp [place, here]
    · have differ : s.p i ≠ s.p c := by
        intro same
        have left := h.own i iBound here
        rw [same, h.own c bound ne] at left
        exact apart (by omega)
      simp only [place, update_of_ne here, update_of_ne differ]
      exact h.own i iBound here
  other i iBound apart := by
    by_cases here : i = hole
    · simp only [place, here, update_self]
      exact h.other c bound ne
    · simp only [place, update_of_ne here]
      exact h.other i iBound here

theorem Sifted.of_move (bound : c < s.n) (inside : hole < s.n) (ne : c ≠ hole)
    (h : Sifted (s.place hole (s.p c)) t c e) : Sifted s t hole e where
  n := h.n
  a := h.a
  evTimeout := h.evTimeout
  cells := by
    refine h.cells.trans ?_
    change Lib.cells s.n (update (update s.p hole (s.p c)) c e) = _
    rw [update_update_eq_exchange ne.symm]
    exact cells_exchange inside bound
  own := h.own
  off x out := by
    have apart : x ≠ s.p c := by
      intro same
      refine out ?_
      rw [show Lib.cells s.n t.p = _ from h.cells]
      refine mem_cells.mpr ⟨hole, inside, ?_⟩
      simp [place, update_of_ne ne.symm, same]
    refine (h.off x out).trans ?_
    simp [place, update_of_ne apart]

theorem shiftUp_sifted (h : s.Sifting hole e) : Sifted s (s.shiftUp hole e) hole e := by
  induction s, hole using shiftUp.induct e with
  | case1 s hole up ih =>
      have above := parent_lt up.1
      have bound := above.trans h.bound
      rw [shiftUp, if_pos up]
      exact .of_move bound h.bound above.ne (ih (h.move bound above.ne))
  | case2 s hole stay =>
      rw [shiftUp, if_neg stay]
      exact h.settle

/-- Sifting up restores the order. -/
theorem shiftUp_ordered (bound : hole < s.n) (up : UpHeap (s.timeWith hole e) s.n hole) :
    HeapFrom (s.shiftUp hole e).time s.n 0 := by
  induction s, hole using shiftUp.induct e with
  | case1 s hole moves ih =>
      have above := parent_lt moves.1
      rw [shiftUp, if_pos moves]
      refine ih (above.trans bound) ?_
      rw [timeWith_move above.ne']
      refine up.ascend moves.1 bound ?_
      rw [timeWith_hole, timeWith_of_ne above.ne]
      exact (Timeval.gt_iff.mp moves.2).le
  | case2 s hole stays =>
      rw [shiftUp, if_neg stays, time_place]
      refine up.settle fun pos => ?_
      rw [timeWith_hole, timeWith_of_ne (parent_lt pos).ne]
      exact Timeval.not_gt_iff.mp fun greater => stays ⟨pos, greater⟩

theorem lt_minChild : hole < s.minChild hole := by
  have := s.minChild_eq hole
  omega

theorem minChild_lt (inner : 2 * (hole + 1) ≤ s.n) : s.minChild hole < s.n := by
  have := s.minChild_eq hole
  omega

theorem parent_minChild : parent (s.minChild hole) = hole := by
  have := s.minChild_eq hole
  unfold parent
  omega

theorem minChild_le {i : Nat} (pos : 0 < i) (bound : i < s.n) (here : parent i = hole) :
    s.time (s.minChild hole) ≤ s.time i := by
  rw [minChild]
  split
  · next left =>
    rcases (parent_eq_iff pos).mp here with first | second
    · rw [first]
      exact le_refl _
    · rcases left with full | greater
      · omega
      · have same : 2 * (hole + 1) = i := by omega
        rw [same] at greater ⊢
        exact (Timeval.gt_iff.mp greater).le
  · next right =>
    rcases (parent_eq_iff pos).mp here with first | second
    · have smaller : ¬ s.elemGreater (s.p (2 * (hole + 1))) (s.p i) = true := by
        intro greater
        refine right (.inr ?_)
        rw [show 2 * (hole + 1) - 1 = i by omega]
        exact greater
      exact Timeval.not_gt_iff.mp smaller
    · rw [show 2 * (hole + 1) = i by omega]

theorem shiftDown_moves (inner : 2 * (hole + 1) ≤ s.n)
    (moves : s.elemGreater e (s.p (s.minChild hole)) = true) :
    s.shiftDown hole e =
      (s.place hole (s.p (s.minChild hole))).shiftDown (s.minChild hole) e := by
  rw [shiftDown, if_pos inner]
  exact if_pos moves

theorem shiftDown_stays (inner : 2 * (hole + 1) ≤ s.n)
    (stays : ¬ s.elemGreater e (s.p (s.minChild hole)) = true) :
    s.shiftDown hole e = s.place hole e := by
  rw [shiftDown, if_pos inner]
  exact if_neg stays

theorem shiftDown_leaf (outer : ¬ 2 * (hole + 1) ≤ s.n) : s.shiftDown hole e = s.place hole e := by
  rw [shiftDown, if_neg outer]

theorem shiftDown_sifted (h : s.Sifting hole e) : Sifted s (s.shiftDown hole e) hole e := by
  induction s, hole using shiftDown.induct e with
  | case1 s hole inner child moves ih =>
      have bound : child < s.n := minChild_lt inner
      have ne : child ≠ hole := lt_minChild.ne'
      rw [shiftDown_moves inner moves]
      exact .of_move bound h.bound ne (ih (h.move bound ne))
  | case2 s hole inner child stays =>
      rw [shiftDown_stays inner stays]
      exact h.settle
  | case3 s hole outer =>
      rw [shiftDown_leaf outer]
      exact h.settle

/-- Sifting down restores the order. -/
theorem shiftDown_ordered (bound : hole < s.n) (down : DownHeap (s.timeWith hole e) s.n 0 hole) :
    HeapFrom (s.shiftDown hole e).time s.n 0 := by
  induction s, hole using shiftDown.induct e with
  | case1 s hole inner child moves ih =>
      have childBound : child < s.n := minChild_lt inner
      have below : hole < child := lt_minChild
      rw [shiftDown_moves inner moves]
      refine ih childBound ?_
      rw [timeWith_move below.ne]
      refine down.descend (by omega) childBound parent_minChild (fun i pos iBound here => ?_) ?_
        (Nat.zero_le _)
      · rw [timeWith_of_ne below.ne', timeWith_of_ne (here ▸ parent_lt pos).ne']
        exact minChild_le pos iBound here
      · rw [timeWith_hole, timeWith_of_ne below.ne']
        exact (Timeval.gt_iff.mp moves).le
  | case2 s hole inner child stays =>
      rw [shiftDown_stays inner stays, time_place]
      refine down.settle fun i pos iBound here => ?_
      rw [timeWith_hole, timeWith_of_ne (here ▸ parent_lt pos).ne']
      exact (Timeval.not_gt_iff.mp stays).trans (minChild_le pos iBound here)
  | case3 s hole outer =>
      rw [shiftDown_leaf outer, time_place]
      refine down.settle fun i pos iBound here => ?_
      have := (parent_eq_iff pos).mp here
      omega

theorem shiftUp_a : (s.shiftUp hole e).a = s.a := by
  induction s, hole using shiftUp.induct e with
  | case1 s hole up ih =>
      rw [shiftUp, if_pos up]
      exact ih
  | case2 s hole stay =>
      rw [shiftUp, if_neg stay]
      rfl

theorem shiftDown_a : (s.shiftDown hole e).a = s.a := by
  induction s, hole using shiftDown.induct e with
  | case1 s hole inner child moves ih =>
      rw [shiftDown_moves inner moves]
      exact ih
  | case2 s hole inner child stays =>
      rw [shiftDown_stays inner stays]
      rfl
  | case3 s hole outer =>
      rw [shiftDown_leaf outer]
      rfl

theorem erase_a : (s.erase e).2.a = s.a := by
  rw [erase]
  split
  · dsimp only [elemInit]
    split
    · exact shiftUp_a
    · exact shiftDown_a
  · rfl

/-! ## The operations -/

/-- The heap holds the events of `live`, in order, and every event knows whether it is in the
heap, and where. -/
structure Good (s : MinHeap) (live : Multiset Ptr) : Prop where
  cells : cells s.n s.p = live
  order : HeapFrom s.time s.n 0
  own : ∀ i, i < s.n → s.minHeapIdx (s.p i) = i
  off : ∀ e, e ∉ live → s.minHeapIdx e = -1
  room : s.n ≤ s.a

variable {live : Multiset Ptr}

theorem good_ctor (evTimeout : Ptr → Timeval) : (ctor evTimeout).Good 0 where
  cells := rfl
  order i _ bound _ := by simp [ctor] at bound
  own i bound := by simp [ctor] at bound
  off _ _ := rfl
  room := le_refl 0

theorem Good.mem_iff (h : s.Good live) : e ∈ live ↔ ∃ i, i < s.n ∧ s.p i = e := by
  rw [← h.cells, mem_cells]

/-- The index says whether an event is in the heap. -/
theorem Good.idx_iff (h : s.Good live) : s.minHeapIdx e ≠ -1 ↔ e ∈ live := by
  constructor
  · intro inside
    by_contra out
    exact inside (h.off e out)
  · intro mem
    obtain ⟨i, bound, rfl⟩ := h.mem_iff.mp mem
    rw [h.own i bound]
    omega

/-- An event is in one cell only. -/
theorem Good.inj (h : s.Good live) {i j : Nat} (left : i < s.n) (right : j < s.n)
    (same : s.p i = s.p j) : i = j := by
  have eq := h.own i left
  rw [same, h.own j right] at eq
  omega

theorem Good.size (h : s.Good live) : s.n = live.card := by
  rw [← h.cells, card_cells]

/-- The event on top is one with the earliest time. -/
theorem Good.top_le (h : s.Good live) (mem : e ∈ live) :
    s.top ∈ live ∧ s.evTimeout s.top ≤ s.evTimeout e := by
  obtain ⟨i, bound, rfl⟩ := h.mem_iff.mp mem
  have some_ : s.n ≠ 0 := by omega
  rw [top, if_pos some_]
  exact ⟨h.mem_iff.mpr ⟨0, by omega, rfl⟩, h.order.root_le bound⟩

theorem Good.eltIsTop_iff (h : s.Good live) : s.eltIsTop e = true ↔ live ≠ 0 ∧ e = s.top := by
  rw [eltIsTop, decide_eq_true_iff]
  constructor
  · intro first
    obtain ⟨i, bound, rfl⟩ := h.mem_iff.mp ((h.idx_iff (e := e)).mp (by omega))
    have zero := h.own i bound
    rw [first] at zero
    obtain rfl : i = 0 := by omega
    rw [top, if_pos bound.ne']
    refine ⟨fun none_ => ?_, rfl⟩
    rw [h.size, none_] at bound
    simp at bound
  · rintro ⟨some_, rfl⟩
    have pos : s.n ≠ 0 := fun none_ => some_ (Multiset.card_eq_zero.mp (h.size ▸ none_))
    rw [top, if_pos pos]
    exact h.own 0 (by omega)

/-- What sifting makes of a heap. -/
theorem Good.of_sifted (done : Sifted s t hole e)
    (order : HeapFrom t.time s.n 0) (cells : Lib.cells s.n (update s.p hole e) = live)
    (off : ∀ x, x ∉ live → s.minHeapIdx x = -1) (room : s.n ≤ s.a) : t.Good live where
  cells := by rw [done.n, done.cells, cells]
  order := done.n ▸ order
  own := done.n ▸ done.own
  off x out := by
    rw [done.off x (by rwa [done.cells, cells]), off x out]
  room := by rw [done.n, done.a]; exact room

theorem Good.reserve (h : s.Good live) {n : Nat} {mmRealloc : Bool} {t : MinHeap}
    (ran : s.reserve n mmRealloc = some t) :
    t.Good live ∧ n ≤ t.a ∧ t.n = s.n ∧ t.evTimeout = s.evTimeout := by
  simp only [MinHeap.reserve] at ran
  split at ran
  · split at ran
    · cases ran
      refine ⟨⟨h.cells, h.order, h.own, h.off, ?_⟩, ?_, rfl, rfl⟩
      · have room := h.room
        split <;> split <;> dsimp only <;> omega
      · split <;> split <;> dsimp only <;> omega
    · cases ran
  · next enough =>
    cases ran
    exact ⟨h, not_lt.mp enough, rfl, rfl⟩

theorem reserve_eq_none {n : Nat} {mmRealloc : Bool} (ran : s.reserve n mmRealloc = none) :
    mmRealloc = false := by
  simp only [MinHeap.reserve] at ran
  split at ran
  · split at ran
    · cases ran
    · next failed => exact Bool.eq_false_iff.mpr failed
  · cases ran

/-- A new event goes in. -/
theorem Good.push (h : s.Good live) (fresh : e ∉ live) {mmRealloc : Bool} {t : MinHeap}
    (ran : s.push e mmRealloc = some t) :
    t.Good (e ::ₘ live) ∧ t.evTimeout = s.evTimeout := by
  obtain ⟨u, reserved, rfl⟩ := Option.map_eq_some_iff.mp ran
  obtain ⟨good, room, n, times⟩ := h.reserve reserved
  have sifting : Sifting { u with n := u.n + 1 } u.n e := by
    refine ⟨Nat.lt_succ_self _, fun i bound ne => good.own i ?_, fun i bound ne same => ?_⟩
    · dsimp only at bound
      omega
    · dsimp only at bound same
      exact fresh (good.mem_iff.mpr ⟨i, by omega, same⟩)
  have done := shiftUp_sifted sifting
  refine ⟨.of_sifted done (shiftUp_ordered (Nat.lt_succ_self _) ⟨fun i pos bound ne => ?_,
    fun pos i iPos bound above => ?_⟩) ?_ (fun x out => ?_) ?_, done.evTimeout.trans times⟩
  · dsimp only at bound
    have above := parent_lt pos
    rw [timeWith_of_ne ne, timeWith_of_ne (by omega)]
    exact good.order i pos (by omega) (Nat.zero_le _)
  · dsimp only at bound
    have := parent_lt iPos
    omega
  · dsimp only
    rw [cells_succ, update_self, ← good.cells]
    refine congrArg _ (cells_congr fun i bound => ?_)
    rw [update_of_ne bound.ne]
  · exact good.off x fun mem => out (Multiset.mem_cons_of_mem mem)
  · dsimp only
    omega

theorem Good.nodup (h : s.Good live) : live.Nodup := by
  rw [← h.cells]
  refine Multiset.Nodup.map_on (fun i left j right same => ?_) (Multiset.nodup_range s.n)
  exact h.inj (Multiset.mem_range.mp left) (Multiset.mem_range.mp right) same

/-- The heap without an event, while the event still has an index. -/
theorem Good.elemInit {n : Nat} (h : s.Good live) (size : t.n = n) (room : n ≤ t.a)
    (cells : Lib.cells n t.p = live.erase e) (order : HeapFrom t.time n 0)
    (own : ∀ i, i < n → t.p i ≠ e → t.minHeapIdx (t.p i) = i)
    (off : ∀ x, x ∉ live → x ≠ e → t.minHeapIdx x = -1) :
    (t.elemInit e).Good (live.erase e) where
  cells := size ▸ cells
  order := size ▸ order
  own i bound := by
    have inside : t.p i ∈ live.erase e := by
      rw [← cells]
      exact mem_cells.mpr ⟨i, size ▸ bound, rfl⟩
    have ne : t.p i ≠ e := fun same => (h.nodup.mem_erase_iff.mp inside).1 same
    simp only [MinHeap.elemInit, update_of_ne ne]
    exact own i (size ▸ bound) ne
  off x out := by
    by_cases same : x = e
    · simp [MinHeap.elemInit, same]
    · simp only [MinHeap.elemInit, update_of_ne same]
      exact off x (fun mem => out ((Multiset.mem_erase_of_ne same).mpr mem)) same
  room := size ▸ room

/-- The last event is erased: nothing moves. -/
theorem Good.erase_last (h : s.Good live) {m : Nat} (size : s.n = m + 1) :
    ((shiftDown { s with n := m } m (s.p m)).elemInit (s.p m)).Good (live.erase (s.p m)) := by
  rw [shiftDown_leaf (by dsimp only; omega)]
  have same : update s.p m (s.p m) = s.p := update_eq_self m s.p
  refine h.elemInit rfl ?_ ?_ ?_ (fun i bound ne => ?_) fun x out ne => ?_
  · have room := h.room
    simp only [place]
    omega
  · simp only [place, same]
    rw [← h.cells, size, cells_succ, Multiset.erase_cons_head]
  · rw [time_place]
    intro i pos bound _
    change i < m at bound
    have above := parent_lt pos
    rw [timeWith_of_ne bound.ne, timeWith_of_ne (by omega)]
    exact h.order i pos (by omega) (Nat.zero_le _)
  · change i < m at bound
    simp only [place, same] at ne ⊢
    rw [update_of_ne ne]
    exact h.own i (by omega)
  · simp only [place, update_of_ne ne]
    exact h.off x out

theorem Good.erase_inner (h : s.Good live) {m k : Nat} (size : s.n = m + 1) (inner : k < m) :
    let moved := if (k : Int) > 0 ∧ s.elemGreater (s.p (parent k)) (s.p m) = true then
      shiftUp { s with n := m } k (s.p m) else shiftDown { s with n := m } k (s.p m)
    (moved.elemInit (s.p k)).Good (live.erase (s.p k)) ∧ moved.evTimeout = s.evTimeout := by
  intro moved
  have bound : k < s.n := by omega
  have sifting : Sifting { s with n := m } k (s.p m) := by
    refine ⟨inner, fun i iBound _ => h.own i (by dsimp only at iBound; omega),
      fun i iBound _ same => ?_⟩
    dsimp only at iBound same
    have := h.inj (by omega) (by omega) same
    omega
  have edge : ∀ i, 0 < i → i < m → parent i ≠ k → i ≠ k →
      timeWith { s with n := m } k (s.p m) (parent i) ≤
        timeWith { s with n := m } k (s.p m) i := by
    intro i pos iBound above here
    rw [timeWith_of_ne here, timeWith_of_ne above]
    exact h.order i pos (by omega) (Nat.zero_le _)
  -- a child of the cell is no earlier than the parent of the cell
  have bridge : 0 < k → ∀ i, 0 < i → i < m → parent i = k → s.time (parent k) ≤ s.time i := by
    intro pos i iPos iBound here
    exact (h.order k pos bound (Nat.zero_le _)).trans
      (here ▸ h.order i iPos (by omega) (Nat.zero_le _))
  have done : Sifted { s with n := m } moved k (s.p m) ∧ HeapFrom moved.time m 0 := by
    by_cases up : (k : Int) > 0 ∧ s.elemGreater (s.p (parent k)) (s.p m) = true
    · have pos : 0 < k := by omega
      have earlier : s.evTimeout (s.p m) ≤ s.time (parent k) :=
        (Timeval.gt_iff.mp up.2).le
      simp only [moved, if_pos up]
      refine ⟨shiftUp_sifted sifting, shiftUp_ordered inner ⟨fun i iPos iBound ne => ?_,
        fun _ i iPos iBound here => ?_⟩⟩
      · by_cases here : parent i = k
        · rw [here, timeWith_hole, timeWith_of_ne ne]
          exact earlier.trans (bridge pos i iPos iBound here)
        · exact edge i iPos iBound here ne
      · have below := here ▸ parent_lt iPos
        rw [timeWith_of_ne (parent_lt pos).ne, timeWith_of_ne below.ne']
        exact bridge pos i iPos iBound here
    · simp only [moved, if_neg up]
      refine ⟨shiftDown_sifted sifting, shiftDown_ordered inner ⟨fun i iPos iBound _ above => ?_,
        fun pos _ i iPos iBound here => ?_⟩⟩
      · by_cases here : i = k
        · subst here
          rw [timeWith_hole, timeWith_of_ne (parent_lt iPos).ne]
          exact Timeval.not_gt_iff.mp fun greater => up ⟨by omega, greater⟩
        · exact edge i iPos iBound above here
      · have below := here ▸ parent_lt iPos
        rw [timeWith_of_ne (parent_lt pos).ne, timeWith_of_ne below.ne']
        exact bridge pos i iPos iBound here
  obtain ⟨sifted, order⟩ := done
  have cells : Lib.cells m moved.p = live.erase (s.p k) := by
    rw [sifted.cells, ← h.cells, size, cells_succ, ← cells_update inner,
      Multiset.erase_cons_head]
  refine ⟨h.elemInit sifted.n ?_ cells order (fun i iBound _ => sifted.own i iBound)
    fun x out ne => ?_, sifted.evTimeout⟩
  · rw [sifted.a]
    have room := h.room
    dsimp only
    omega
  · rw [sifted.off x]
    · exact h.off x out
    · rw [show Lib.cells _ moved.p = _ from cells, Multiset.mem_erase_of_ne ne]
      exact out

/-- An event of the heap is taken out, wherever it is; any other is refused. -/
theorem Good.erase (h : s.Good live) (e : Ptr) :
    (s.erase e).2.Good (live.erase e) ∧ (s.erase e).2.evTimeout = s.evTimeout ∧
      (s.erase e).1 = if e ∈ live then 0 else -1 := by
  rw [MinHeap.erase]
  by_cases mem : e ∈ live
  · obtain ⟨k, bound, rfl⟩ := h.mem_iff.mp mem
    have inside := h.idx_iff.mpr mem
    obtain ⟨m, size⟩ : ∃ m, s.n = m + 1 := ⟨s.n - 1, by omega⟩
    rw [if_pos inside, if_pos mem]
    simp only [h.own k bound, size, Nat.add_sub_cancel, Int.toNat_natCast]
    rcases Nat.lt_or_ge k m with inner | last
    · obtain ⟨good, times⟩ := h.erase_inner size inner
      exact ⟨good, times, trivial⟩
    · obtain rfl : k = m := by omega
      have stays : ¬ ((k : Int) > 0 ∧ s.elemGreater (s.p (parent k)) (s.p k) = true) := by
        intro ⟨pos, greater⟩
        exact Timeval.not_gt_iff.mpr (h.order k (by omega) bound (Nat.zero_le _)) greater
      rw [if_neg stays]
      refine ⟨h.erase_last size, ?_, trivial⟩
      rw [shiftDown_leaf (by dsimp only; omega)]
      rfl
  · have outside : ¬ s.minHeapIdx e ≠ -1 := fun inside => mem (h.idx_iff.mp inside)
    rw [if_neg outside, if_neg mem, Multiset.erase_of_notMem mem]
    exact ⟨h, rfl, rfl⟩

/-- What is erased leaves its room. -/
theorem Good.erase_room (h : s.Good live) (mem : e ∈ live) :
    (s.erase e).2.n + 1 ≤ (s.erase e).2.a := by
  obtain ⟨good, _, _⟩ := h.erase e
  have fewer : (s.erase e).2.n + 1 = s.n := by
    rw [good.size, h.size, Multiset.card_erase_add_one mem]
  rw [fewer, erase_a]
  exact h.room

/-- An event goes in without `mm_realloc` where there is room. -/
theorem push_of_room (room : s.n + 1 ≤ s.a) (mmRealloc : Bool) :
    s.push e mmRealloc = some (shiftUp { s with n := s.n + 1 } s.n e) := by
  rw [push, reserve, if_neg (not_lt.mpr room)]
  rfl

/-- New times in the order of the old ones. -/
theorem Good.retime (h : s.Good live) {evTimeout : Ptr → Timeval}
    (mono : ∀ x ∈ live, ∀ y ∈ live, s.evTimeout x ≤ s.evTimeout y →
      evTimeout x ≤ evTimeout y) : Good { s with evTimeout := evTimeout } live where
  cells := h.cells
  order i pos bound above := by
    have inner := (parent_lt pos).trans bound
    exact mono _ (h.mem_iff.mpr ⟨parent i, inner, rfl⟩) _ (h.mem_iff.mpr ⟨i, bound, rfl⟩)
      (h.order i pos bound above)
  own := h.own
  off := h.off
  room := h.room

/-- The time of an event that is not in the heap is set. -/
theorem Good.setTimeout (h : s.Good live) (out : e ∉ live) (tv : Timeval) :
    Good { s with evTimeout := update s.evTimeout e tv } live := by
  refine h.retime fun x memX y memY le => ?_
  have apart : ∀ z ∈ live, z ≠ e := fun z mem same => out (same ▸ mem)
  rwa [update_of_ne (apart x memX), update_of_ne (apart y memY)]

/-- `min_heap_pop` is `min_heap_erase` of the event on top. -/
theorem Good.pop_eq (h : s.Good live) (some_ : live ≠ 0) : s.pop = (s.top, (s.erase s.top).2) := by
  have pos : s.n ≠ 0 := fun none_ => some_ (Multiset.card_eq_zero.mp (h.size ▸ none_))
  have first := h.own 0 (by omega)
  rw [pop, top, if_pos pos, if_pos pos, MinHeap.erase, if_pos (by omega)]
  simp only [first]
  rfl

end MinHeap

end Shang.Libevent
