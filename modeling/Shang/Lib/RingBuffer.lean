import Mathlib.Logic.Function.Basic
import Mathlib.Data.List.Basic
import Mathlib.Data.Nat.ModEq

/-!
# Ring buffers with one free cell

A ring of `size` cells with a `head` and a `tail` index, one cell always kept
free: the ring is empty when the indices agree and full when the tail is one
step behind the head. Both operations advance an index first and use the cell
it then names, so the stored items are the cells after `head` up to and
including `tail`. `contents` lists them in order; `contents_push` and
`contents_pop` are the queue behaviour.
-/

namespace Shang.Lib

variable {α : Type*} {size : Nat}

/-- The cells and the two indices of a ring. -/
structure RingBuffer (α : Type*) where
  data : Nat → α
  head : Nat
  tail : Nat

namespace RingBuffer

/-- Both indices name a cell. -/
structure InBounds (size : Nat) (q : RingBuffer α) : Prop where
  head_lt : q.head < size
  tail_lt : q.tail < size

/-- The number of stored items. -/
def count (size : Nat) (q : RingBuffer α) : Nat := (q.tail + size - q.head) % size

/-- The stored items, oldest first. -/
def contents (size : Nat) (q : RingBuffer α) : List α :=
  (List.range (q.count size)).map fun i => q.data ((q.head + 1 + i) % size)

/-- Store an item in the cell after the tail. -/
def push (size : Nat) (q : RingBuffer α) (x : α) : RingBuffer α :=
  { q with tail := (q.tail + 1) % size, data := Function.update q.data ((q.tail + 1) % size) x }

/-- Drop the item after the head. -/
def pop (size : Nat) (q : RingBuffer α) : RingBuffer α := { q with head := (q.head + 1) % size }

variable {q : RingBuffer α} {x : α}

@[simp] theorem push_head : (q.push size x).head = q.head := rfl

@[simp] theorem push_tail : (q.push size x).tail = (q.tail + 1) % size := rfl

@[simp] theorem pop_head : (q.pop size).head = (q.head + 1) % size := rfl

@[simp] theorem pop_tail : (q.pop size).tail = q.tail := rfl

theorem InBounds.push (h : q.InBounds size) : (q.push size x).InBounds size :=
  ⟨h.head_lt, Nat.mod_lt _ (by have := h.head_lt; omega)⟩

theorem InBounds.pop (h : q.InBounds size) : (q.pop size).InBounds size :=
  ⟨Nat.mod_lt _ (by have := h.head_lt; omega), h.tail_lt⟩

@[simp] theorem length_contents : (q.contents size).length = q.count size := by
  simp [contents]

theorem count_lt (h : q.InBounds size) : q.count size < size :=
  Nat.mod_lt _ (by have := h.head_lt; omega)

/-- The count is the distance of the indices, across the wrap or not. -/
theorem count_eq (h : q.InBounds size) :
    q.head ≤ q.tail ∧ q.count size = q.tail - q.head ∨
      q.tail < q.head ∧ q.count size = q.tail + size - q.head := by
  obtain ⟨head, tail⟩ := h
  unfold count
  rcases Nat.lt_or_ge q.tail q.head with wrapped | order
  · exact Or.inr ⟨wrapped, Nat.mod_eq_of_lt (by omega)⟩
  · refine Or.inl ⟨order, ?_⟩
    rw [show q.tail + size - q.head = (q.tail - q.head) + size by omega, Nat.add_mod_right]
    exact Nat.mod_eq_of_lt (by omega)

theorem succ_mod {i : Nat} (h : i < size) :
    i + 1 = size ∧ (i + 1) % size = 0 ∨ i + 1 < size ∧ (i + 1) % size = i + 1 := by
  rcases Nat.lt_or_ge (i + 1) size with inner | last
  · exact Or.inr ⟨inner, Nat.mod_eq_of_lt inner⟩
  · have last : i + 1 = size := by omega
    exact Or.inl ⟨last, by rw [last, Nat.mod_self]⟩

theorem contents_eq_nil_iff (h : q.InBounds size) : q.contents size = [] ↔ q.head = q.tail := by
  have count := count_eq h
  obtain ⟨head, tail⟩ := h
  rw [← List.length_eq_zero_iff, length_contents]
  omega

/-- A ring that holds fewer items than it has room for is not full. -/
theorem ne_of_count_lt (h : q.InBounds size) (few : q.count size + 1 < size) :
    (q.tail + 1) % size ≠ q.head := by
  have tail := succ_mod h.tail_lt
  have count := count_eq h
  have := h.head_lt
  omega

/-- A ring that is not full stores a further item last. -/
theorem contents_push (h : q.InBounds size) (room : (q.tail + 1) % size ≠ q.head) :
    (q.push size x).contents size = q.contents size ++ [x] := by
  have tail := succ_mod h.tail_lt
  have old := count_eq h
  have grown : (q.push size x).count size = q.count size + 1 := by
    have new := count_eq (h.push (x := x))
    have := h.head_lt
    rw [push_head, push_tail] at new
    omega
  have last : (q.head + 1 + q.count size) % size = (q.tail + 1) % size := by
    rcases old with ⟨order, count⟩ | ⟨wrapped, count⟩
    · rw [count, show q.head + 1 + (q.tail - q.head) = q.tail + 1 by omega]
    · have := h.head_lt
      rw [count, show q.head + 1 + (q.tail + size - q.head) = q.tail + 1 + size by omega,
        Nat.add_mod_right]
  unfold contents
  rw [grown, List.range_succ, List.map_append, List.map_singleton]
  congr 1
  · apply List.map_congr_left
    intro i inside
    have before : i < q.count size := List.mem_range.mp inside
    have bound := count_lt h
    refine Function.update_of_ne ?_ _ _
    intro same
    have same : (q.head + 1 + i) % size = (q.head + 1 + q.count size) % size :=
      same.trans last.symm
    have := Nat.ModEq.add_left_cancel' (q.head + 1) (show _ ≡ _ [MOD size] from same)
    have := this.eq_of_lt_of_lt (by omega) bound
    omega
  · simp only [push, last, Function.update_self]

/-- A ring that is not empty gives up its oldest item. -/
theorem contents_pop (h : q.InBounds size) (stored : q.head ≠ q.tail) :
    q.contents size = q.data ((q.head + 1) % size) :: (q.pop size).contents size := by
  have shrunk : q.count size = (q.pop size).count size + 1 := by
    have old := count_eq h
    have new := count_eq h.pop
    have head := succ_mod h.head_lt
    have := h.tail_lt
    rw [pop_head, pop_tail] at new
    omega
  unfold contents
  rw [shrunk, List.range_succ_eq_map, List.map_cons, List.map_map]
  congr 1
  apply List.map_congr_left
  intro i _
  simp only [pop, Function.comp_apply]
  rw [show q.head + 1 + (i + 1) = (q.head + 1) % size + 1 + i + size * ((q.head + 1) / size) by
    have := Nat.mod_add_div (q.head + 1) size
    omega, Nat.add_mul_mod_self_left]

end RingBuffer

end Shang.Lib
