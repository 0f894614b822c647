import Mathlib.Logic.Function.Basic
import Mathlib.Data.List.Basic

/-!
# Array stacks with a top index

A stack of cells with the index `top` of the item stored last, -1 when there is
none. `items` lists what is stored, the item stored last first.
-/

namespace Shang.Lib

variable {α : Type*}

/-- The cells and the index of the item stored last. -/
structure Stack (α : Type*) where
  data : Nat → α
  top : Int

namespace Stack

/-- The index is that of a cell, or -1. -/
def InBounds (st : Stack α) : Prop := -1 ≤ st.top

/-- The stored items, newest first. -/
def items (st : Stack α) : List α := ((List.range (st.top + 1).toNat).map st.data).reverse

/-- Store an item in the cell after the top. -/
def push (st : Stack α) (x : α) : Stack α :=
  ⟨Function.update st.data (st.top + 1).toNat x, st.top + 1⟩

/-- Drop the item at the top. -/
def pop (st : Stack α) : Stack α := { st with top := st.top - 1 }

variable {st : Stack α} {x : α}

theorem InBounds.push (h : st.InBounds) : (st.push x).InBounds := by
  rw [InBounds] at h
  simp only [InBounds, Stack.push]
  omega

@[simp] theorem length_items : st.items.length = (st.top + 1).toNat := by
  simp [items]

theorem top_eq (h : st.InBounds) : st.top = st.items.length - 1 := by
  rw [InBounds] at h
  rw [length_items]
  omega

theorem items_push (h : st.InBounds) : (st.push x).items = x :: st.items := by
  rw [InBounds] at h
  obtain ⟨n, count⟩ := Int.eq_ofNat_of_zero_le (show 0 ≤ st.top + 1 by omega)
  have next : (st.top + 1 + 1).toNat = n + 1 := by omega
  have here : (st.top + 1).toNat = n := by omega
  simp only [items, push, next, here]
  rw [List.range_succ, List.map_append, List.reverse_append, List.map_singleton,
    Function.update_self, List.reverse_singleton, List.singleton_append]
  congr 2
  apply List.map_congr_left
  intro i mem
  exact Function.update_of_ne (Nat.ne_of_lt (List.mem_range.mp mem)) x st.data

/-- A stack that is not empty gives up its newest item. -/
theorem items_pop (h : st.InBounds) (stored : st.top ≠ -1) :
    st.items = st.data st.top.toNat :: st.pop.items ∧ st.pop.InBounds := by
  rw [InBounds] at h
  obtain ⟨n, count⟩ := Int.eq_ofNat_of_zero_le (show 0 ≤ st.top by omega)
  have next : (st.top + 1).toNat = n + 1 := by omega
  have here : (st.top - 1 + 1).toNat = n := by omega
  constructor
  · simp only [items, pop, next, here]
    rw [List.range_succ, List.map_append, List.reverse_append, List.map_singleton,
      List.reverse_singleton, List.singleton_append, count, Int.toNat_natCast]
  · simp only [InBounds, pop]
    omega

end Stack

end Shang.Lib
