import Mathlib.Data.Multiset.Range
import Mathlib.Data.Multiset.MapFold
import Mathlib.Order.Basic

/-!
# Binary heaps in an array

Cell `i` has the cells `2 * i + 1` and `2 * i + 2` below it. Keys are given as
a function on cells, so that an order on stored objects and the array that
stores them are one composition away.

The two sifting loops keep a heap order with one hole in it. `DownHeap` allows
the hole to be later than the cells below it, `UpHeap` allows it to be earlier
than the cell above it; in both the cells below the hole still fit the cell
above it, so that the hole can move on. `HeapFrom` is the order of the cells
from some cell on, as it grows while an array is made into a heap.
-/

namespace Shang.Lib

open Function

/-- The cell above. -/
def parent (i : Nat) : Nat := (i - 1) / 2

variable {K : Type*} [Preorder K] {key : Nat → K} {n lo hole c i : Nat}

theorem parent_lt (pos : 0 < i) : parent i < i := by
  unfold parent
  omega

theorem parent_eq_iff (pos : 0 < i) : parent i = hole ↔ i = 2 * hole + 1 ∨ i = 2 * hole + 2 := by
  unfold parent
  omega

/-- The cells from `lo` on are no later than the cells below them. -/
def HeapFrom (key : Nat → K) (n lo : Nat) : Prop :=
  ∀ i, 0 < i → i < n → lo ≤ parent i → key (parent i) ≤ key i

/-- A whole heap has its least key on top. -/
theorem HeapFrom.root_le (heap : HeapFrom key n 0) (bound : i < n) : key 0 ≤ key i := by
  induction i using Nat.strong_induction_on with
  | _ i ih =>
      rcases Nat.eq_zero_or_pos i with rfl | pos
      · exact le_refl _
      · have above := parent_lt pos
        exact (ih (parent i) above (above.trans bound)).trans
          (heap i pos bound (Nat.zero_le _))

/-- The keys with two cells exchanged. -/
def exchange {α : Type*} (a : Nat → α) (i j : Nat) : Nat → α := update (update a i (a j)) j (a i)

section exchange

variable {α : Type*} {a : Nat → α} {i j k : Nat}

theorem exchange_right : exchange a i j j = a i := by rw [exchange, update_self]

theorem exchange_left (ne : i ≠ j) : exchange a i j i = a j := by
  rw [exchange, update_of_ne ne, update_self]

theorem exchange_of_ne (left : k ≠ i) (right : k ≠ j) : exchange a i j k = a k := by
  rw [exchange, update_of_ne right, update_of_ne left]

/-- A value that moves from one hole to the next one. -/
theorem update_update_eq_exchange {x : α} (ne : i ≠ j) :
    update (update a i (a j)) j x = exchange (update a i x) i j := by
  rw [exchange, update_self, update_of_ne ne.symm, update_idem]

theorem comp_exchange_apply {β : Type*} (f : α → β) :
    (fun k => f (exchange a i j k)) = exchange (fun k => f (a k)) i j := by
  funext k
  by_cases right : k = j
  · rw [right, exchange_right, exchange_right]
  · by_cases left : k = i
    · rw [left] at right ⊢
      rw [exchange_left right, exchange_left right]
    · rw [exchange_of_ne left right, exchange_of_ne left right]

end exchange

/-! ## Sifting down -/

/-- A heap from `lo` on, except that the hole may be later than the cells below it. -/
structure DownHeap (key : Nat → K) (n lo hole : Nat) : Prop where
  edge : ∀ i, 0 < i → i < n → lo ≤ parent i → parent i ≠ hole → key (parent i) ≤ key i
  bridge : 0 < hole → lo ≤ parent hole → ∀ i, 0 < i → i < n → parent i = hole →
    key (parent hole) ≤ key i

/-- The hole settles above cells that are no earlier. -/
theorem DownHeap.settle (down : DownHeap key n lo hole)
    (below : ∀ i, 0 < i → i < n → parent i = hole → key hole ≤ key i) : HeapFrom key n lo := by
  intro i pos bound from_
  by_cases here : parent i = hole
  · rw [here]
    exact below i pos bound here
  · exact down.edge i pos bound from_ here

/-- The hole changes places with the least cell below it. -/
theorem DownHeap.descend (down : DownHeap key n lo hole) (pos : 0 < c) (bound : c < n)
    (here : parent c = hole) (least : ∀ i, 0 < i → i < n → parent i = hole → key c ≤ key i)
    (later : key c ≤ key hole) (from_ : lo ≤ hole) : DownHeap (exchange key hole c) n lo c := by
  have below : hole < c := here ▸ parent_lt pos
  refine ⟨fun i iPos iBound iFrom other => ?_, fun _ _ i iPos iBound under => ?_⟩
  · have iAbove := parent_lt iPos
    by_cases fromHole : parent i = hole
    · rw [fromHole, exchange_left below.ne]
      by_cases same : i = c
      · rw [same, exchange_right]
        exact later
      · rw [exchange_of_ne (by omega) same]
        exact least i iPos iBound fromHole
    · rw [exchange_of_ne fromHole other]
      by_cases toHole : i = hole
      · rw [toHole, exchange_left below.ne]
        rw [toHole] at iPos iFrom
        exact down.bridge iPos iFrom c pos bound here
      · have notC : i ≠ c := fun same => fromHole (same ▸ here)
        rw [exchange_of_ne toHole notC]
        exact down.edge i iPos iBound iFrom fromHole
  · have iAbove := parent_lt iPos
    rw [here, exchange_left below.ne, exchange_of_ne (by omega) (by omega), ← under]
    exact down.edge i iPos iBound (by omega) (by omega)

/-! ## Sifting up -/

/-- A whole heap, except that the hole may be earlier than the cell above it. -/
structure UpHeap (key : Nat → K) (n hole : Nat) : Prop where
  edge : ∀ i, 0 < i → i < n → i ≠ hole → key (parent i) ≤ key i
  bridge : 0 < hole → ∀ i, 0 < i → i < n → parent i = hole → key (parent hole) ≤ key i

/-- The hole settles below a cell that is no later. -/
theorem UpHeap.settle (up : UpHeap key n hole)
    (above : 0 < hole → key (parent hole) ≤ key hole) : HeapFrom key n 0 := by
  intro i pos bound _
  by_cases here : i = hole
  · subst here
    exact above pos
  · exact up.edge i pos bound here

/-- The hole changes places with the cell above it. -/
theorem UpHeap.ascend (up : UpHeap key n hole) (pos : 0 < hole) (bound : hole < n)
    (earlier : key hole ≤ key (parent hole)) :
    UpHeap (exchange key hole (parent hole)) n (parent hole) := by
  have above := parent_lt pos
  refine ⟨fun i iPos iBound other => ?_, fun pPos i iPos iBound under => ?_⟩
  · have iAbove := parent_lt iPos
    by_cases toHole : i = hole
    · rw [toHole, exchange_right, exchange_left above.ne']
      exact earlier
    · rw [exchange_of_ne toHole other]
      by_cases fromHole : parent i = hole
      · rw [fromHole, exchange_left above.ne']
        exact up.bridge pos i iPos iBound fromHole
      · by_cases sibling : parent i = parent hole
        · rw [sibling, exchange_right]
          exact earlier.trans (sibling ▸ up.edge i iPos iBound toHole)
        · rw [exchange_of_ne fromHole sibling]
          exact up.edge i iPos iBound toHole
  · have pAbove := parent_lt pPos
    have top := up.edge (parent hole) pPos (above.trans bound) above.ne
    rw [exchange_of_ne (by omega) pAbove.ne]
    by_cases toHole : i = hole
    · rw [toHole, exchange_left above.ne']
      exact top
    · rw [exchange_of_ne toHole (by have := parent_lt iPos; omega)]
      exact top.trans (under ▸ up.edge i iPos iBound toHole)

/-! ## What is stored -/

section cells

variable {α : Type*} {a b : Nat → α} {n i j : Nat} {x : α}

/-- The contents of the first `n` cells. -/
def cells (n : Nat) (a : Nat → α) : Multiset α := (Multiset.range n).map a

theorem cells_succ : cells (n + 1) a = a n ::ₘ cells n a := by
  rw [cells, Multiset.range_succ, Multiset.map_cons, cells]

theorem mem_cells : x ∈ cells n a ↔ ∃ i, i < n ∧ a i = x := by
  simp only [cells, Multiset.mem_map, Multiset.mem_range]

theorem card_cells : (cells n a).card = n := by
  rw [cells, Multiset.card_map, Multiset.card_range]

theorem cells_congr (same : ∀ i, i < n → a i = b i) : cells n a = cells n b :=
  Multiset.map_congr rfl fun i mem => same i (Multiset.mem_range.mp mem)

theorem cells_eq_cons (bound : i < n) :
    cells n a = a i ::ₘ ((Multiset.range n).erase i).map a := by
  rw [← Multiset.map_cons, Multiset.cons_erase (Multiset.mem_range.mpr bound), cells]

/-- Overwriting a cell exchanges its old content for the new one. -/
theorem cells_update (bound : i < n) : a i ::ₘ cells n (update a i x) = x ::ₘ cells n a := by
  have others : ((Multiset.range n).erase i).map (update a i x) =
      ((Multiset.range n).erase i).map a := by
    refine Multiset.map_congr rfl fun j mem => ?_
    rw [update_of_ne ((Multiset.nodup_range n).mem_erase_iff.mp mem).1]
  rw [cells_eq_cons bound, update_self, others, cells_eq_cons (a := a) bound, Multiset.cons_swap]

theorem cells_exchange (left : i < n) (right : j < n) : cells n (exchange a i j) = cells n a := by
  by_cases same : i = j
  · rw [same, exchange, update_idem, update_eq_self]
  · have second : update a i (a j) j = a j := update_of_ne (Ne.symm same) _ _
    have outer := cells_update (a := update a i (a j)) (x := a i) right
    rw [second, cells_update left] at outer
    exact (Multiset.cons_inj_right _).mp outer

end cells

end Shang.Lib
