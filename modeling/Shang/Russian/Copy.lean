import Mathlib.Data.Nat.Find
import Shang.Lib.Rows
import Shang.Russian.Placement

/-!
# The complete rows under a block

The last part of `copy` empties all complete rows in one sweep and then moves the
rows above the highest one of them down, by as many rows as were complete. That is right
when they are next to each other.
-/

namespace Shang.Russian

open Lib

/-- The elements of a row. -/
def row (g : Grid) (i : Nat) : List Bool := (List.range COL).map (g i)

/-- The rows from the top. -/
def rows (g : Grid) : List (List Bool) := (List.range ROW).map (row g)

/-- The row is complete. -/
def full (r : List Bool) : Bool := r.all id

def emptyRow : List Bool := List.replicate COL false

variable {g : Grid} {d : Deletion} {i j k n r : Nat} {s t : World}

theorem full_row : full (row g i) = complete g i := by
  rw [full, row, List.all_map]
  rfl

theorem row_eq_emptyRow (none_ : ∀ j < COL, g i j = false) : row g i = emptyRow := by
  refine List.eq_replicate_iff.mpr ⟨by rw [row, List.length_map, List.length_range], ?_⟩
  intro b mem
  obtain ⟨j, col, rfl⟩ := List.mem_map.mp mem
  exact none_ j (List.mem_range.mp col)

/-! ## The rows that are emptied -/

theorem complete_congr {g' : Grid} (same : ∀ j < COL, g i j = g' i j) :
    complete g i = complete g' i := by
  rw [← full_row, ← full_row, row, row,
    List.map_congr_left fun j mem => same j (List.mem_range.mp mem)]

theorem deleteRow_of_ne (other : i ≠ k) (j : Nat) :
    (deleteRow d k).board i j = d.board i j := by
  unfold deleteRow
  split
  · exact if_neg fun both => other both.1
  · rfl

theorem deleteRow_self (col : j < COL) :
    (deleteRow d k).board k j = (!complete d.board k && d.board k j) := by
  unfold deleteRow
  split
  · next full =>
      rw [full]
      exact if_pos ⟨rfl, col⟩
  · next other =>
      rw [Bool.not_eq_true] at other
      rw [other]
      rfl

theorem deleteRows_of_lt (outside : k < i) (j : Nat) :
    (deleteRows d k).board i j = d.board i j := by
  induction k generalizing d with
  | zero => rfl
  | succ k ih => rw [deleteRows, ih (by omega), deleteRow_of_ne (by omega)]

/-- Each complete row is empty afterwards, and the others are as before. -/
theorem deleteRows_board (below : 1 ≤ i) (inside : i ≤ k) (col : j < COL) :
    (deleteRows d k).board i j = (!complete d.board i && d.board i j) := by
  induction k generalizing d with
  | zero => omega
  | succ k ih =>
      rw [deleteRows]
      rcases Nat.lt_or_eq_of_le inside with less | rfl
      · have same (j : Nat) : (deleteRow d (k + 1)).board i j = d.board i j :=
          deleteRow_of_ne (by omega) j
        rw [ih (Nat.le_of_lt_succ less), same, complete_congr fun j _ => same j]
      · rw [deleteRows_of_lt (Nat.lt_succ_self k), deleteRow_self col]

theorem deleteRows_num : (deleteRows d k).deleteNum =
    d.deleteNum + (List.range k).countP fun i => complete d.board (i + 1) := by
  induction k generalizing d with
  | zero => rfl
  | succ k ih =>
      have same : (List.range k).countP (fun i => complete (deleteRow d (k + 1)).board (i + 1)) =
          (List.range k).countP fun i => complete d.board (i + 1) := by
        refine List.countP_congr fun i mem => ?_
        have := List.mem_range.mp mem
        rw [complete_congr fun j _ => deleteRow_of_ne (by omega) j]
      rw [deleteRows, ih, same, List.range_succ, List.countP_append, List.countP_singleton]
      unfold deleteRow
      split
      · simp only []
        omega
      · rfl

/-- What the sweep comes to. -/
def swept (g : Grid) : Deletion := deleteRows ⟨g, 0, 0⟩ (ROW - 1)

/-- The highest complete row is emptied last. -/
theorem deleteRows_last (below : 1 ≤ r) (inside : r ≤ k) (here : complete d.board r = true)
    (highest : ∀ i, 1 ≤ i → i < r → complete d.board i = false) :
    (deleteRows d k).lastDeleteRow = r := by
  induction k generalizing d with
  | zero => omega
  | succ k ih =>
      have same (i : Nat) (less : i ≤ k) :
          complete (deleteRow d (k + 1)).board i = complete d.board i :=
        complete_congr fun j _ => deleteRow_of_ne (by omega) j
      rw [deleteRows]
      rcases Nat.lt_or_eq_of_le inside with less | rfl
      · apply ih (Nat.le_of_lt_succ less)
        · rw [same r (by omega), here]
        · intro i low high
          rw [same i (by omega), highest i low high]
      · rw [deleteRows_of_none, deleteRow, if_pos here]
        intro i low high
        rw [same i high, highest i low (by omega)]

/-! ## What comes down -/

theorem moveDown_to : moveDown g n i j (i + n) j = (g i j || g (i + n) j) := by
  unfold moveDown
  split
  · next fixed =>
      rw [fixed]
      exact if_pos ⟨rfl, rfl⟩
  · next free =>
      rw [Bool.not_eq_true] at free
      rw [free, Bool.false_or]

/-- The elements above the row `i` leave their places for the ones that are `n` rows below. -/
theorem dropColumn_apply (pos : 0 < n) (k : Nat) : dropColumn g n j i k j =
    (!decide (k < i) && g k j || decide (n ≤ k ∧ k < i + n) && g (k - n) j) := by
  induction i generalizing g with
  | zero =>
      have none_ : ¬ (n ≤ k ∧ k < 0 + n) := by omega
      rw [dropColumn, decide_eq_false (Nat.not_lt_zero k), decide_eq_false none_]
      simp
  | succ i ih =>
      have rest : (decide (n ≤ k ∧ k < i + n) && moveDown g n i j (k - n) j) =
          (decide (n ≤ k ∧ k < i + n) && g (k - n) j) := by
        by_cases moved : n ≤ k ∧ k < i + n
        · rw [moveDown_of_row (by omega) (by omega)]
        · rw [decide_eq_false moved, Bool.false_and, Bool.false_and]
      rw [dropColumn, ih, rest]
      by_cases here : k = i
      · subst here
        have own : ¬ (k < k) ∧ k < k + 1 := by omega
        have same : (n ≤ k ∧ k < k + n) ↔ (n ≤ k ∧ k < k + 1 + n) := by omega
        rw [decide_eq_false own.1, decide_eq_true own.2, decide_eq_decide.mpr same,
          moveDown_self pos]
        rfl
      by_cases there : k = i + n
      · subst there
        have own : ¬ (i + n < i) ∧ ¬ (i + n < i + 1) := by omega
        have last : ¬ (n ≤ i + n ∧ i + n < i + n) ∧ n ≤ i + n ∧ i + n < i + 1 + n := by omega
        rw [decide_eq_false own.1, decide_eq_false own.2, decide_eq_false last.1,
          decide_eq_true last.2, moveDown_to, Nat.add_sub_cancel, Bool.or_comm (g i j)]
        simp
      · have own : k < i ↔ k < i + 1 := by omega
        have same : (n ≤ k ∧ k < i + n) ↔ (n ≤ k ∧ k < i + 1 + n) := by omega
        rw [decide_eq_decide.mpr own, decide_eq_decide.mpr same, moveDown_of_row here there]

theorem dropColumns_apply (pos : 0 < n) (col : j < r) (k : Nat) : dropColumns g n i r k j =
    (!decide (k < i) && g k j || decide (n ≤ k ∧ k < i + n) && g (k - n) j) := by
  induction r with
  | zero => omega
  | succ r ih =>
      rw [dropColumns]
      rcases Nat.lt_or_eq_of_le (Nat.le_of_lt_succ col) with less | rfl
      · rw [dropColumn_of_ne (by omega), ih less]
      · rw [dropColumn_apply pos, dropColumns_of_le (Nat.le_refl j),
          dropColumns_of_le (Nat.le_refl j)]

/-! ## Rows next to each other -/

/-- The complete rows are the `n` rows from `r` on. -/
structure Block (g : Grid) (r n : Nat) : Prop where
  below : 1 ≤ r
  some_ : 0 < n
  inside : r + n ≤ ROW
  complete_iff : ∀ i < ROW, complete g i = true ↔ r ≤ i ∧ i < r + n

theorem Block.not_complete (block : Block g r n) (inside : i < ROW)
    (outside : i < r ∨ r + n ≤ i) : complete g i = false := by
  rw [← Bool.not_eq_true, block.complete_iff i inside]
  omega

/-- Above the block, the block, and below it. -/
theorem Block.parts (block : Block g r n) : ∃ m, ROW = r + n + m ∧
    rows g = (List.range r).map (row g) ++
      ((List.range n).map (fun i => row g (r + i)) ++
        (List.range m).map fun i => row g (r + n + i)) ∧
    (∀ x ∈ (List.range r).map (row g), full x = false) ∧
    (∀ x ∈ (List.range n).map fun i => row g (r + i), full x = true) ∧
    ∀ x ∈ (List.range m).map fun i => row g (r + n + i), full x = false := by
  obtain ⟨m, size⟩ := Nat.exists_eq_add_of_le block.inside
  refine ⟨m, size, by rw [rows, size, map_range_add, map_range_add, List.append_assoc],
    ?_, ?_, ?_⟩
  all_goals
    intro x mem
    obtain ⟨i, bound, rfl⟩ := List.mem_map.mp mem
    have := List.mem_range.mp bound
    rw [full_row]
  · exact block.not_complete (by omega) (.inl this)
  · exact (block.complete_iff (r + i) (by omega)).mpr (by omega)
  · exact block.not_complete (by omega) (.inr (by omega))

theorem deleteRows_num_rows (top : complete g 0 = false) :
    (swept g).deleteNum = (rows g).countP full := by
  have size : ROW = ROW - 1 + 1 := rfl
  have first : ¬ (full ∘ row g) 0 = true := by rw [Function.comp_apply, full_row, top]; decide
  rw [swept, deleteRows_num, Nat.zero_add, rows, List.countP_map, size, List.range_succ_eq_map,
    List.countP_cons_of_neg first, List.countP_map]
  refine List.countP_congr fun i _ => ?_
  rw [Function.comp_apply, Function.comp_apply, full_row]

/-- A row that is not complete is not changed by the sweep. -/
theorem swept_of_not (row : i < ROW) (col : j < COL) (other : complete g i = false) :
    (swept g).board i j = g i j := by
  rcases Nat.eq_zero_or_pos i with rfl | pos
  · exact deleteRows_top
  · rw [swept, deleteRows_board pos (Nat.le_sub_one_of_lt row) col, other]
    rfl

theorem swept_of_complete (below : 1 ≤ i) (row : i < ROW) (col : j < COL)
    (here : complete g i = true) : (swept g).board i j = false := by
  rw [swept, deleteRows_board below (Nat.le_sub_one_of_lt row) col, here]
  rfl

/-- With the highest complete row `r`, the rows above it come down by the number of complete
ones. -/
theorem settle_apply (below : 1 ≤ r) (inside : r < ROW) (here : complete g r = true)
    (highest : ∀ i < r, complete g i = false) (col : j < COL) (i : Nat) :
    settle g i j =
      (!decide (i < r) && (swept g).board i j ||
        decide ((rows g).countP full ≤ i ∧ i < r + (rows g).countP full) &&
          g (i - (rows g).countP full) j) := by
  have num := deleteRows_num_rows (highest 0 below)
  have last : (swept g).lastDeleteRow = r :=
    deleteRows_last below (Nat.le_sub_one_of_lt inside) here fun i _ => highest i
  have pos : 0 < (rows g).countP full := by
    refine List.countP_pos_iff.mpr ⟨row g r, List.mem_map_of_mem (List.mem_range.mpr inside), ?_⟩
    rw [full_row, here]
  change (if (swept g).deleteNum ≠ 0 then dropColumns (swept g).board (swept g).deleteNum
    (swept g).lastDeleteRow COL else (swept g).board) i j = _
  rw [num, last, if_pos (Nat.ne_of_gt pos), dropColumns_apply pos col]
  congr 1
  by_cases moved : (rows g).countP full ≤ i ∧ i < r + (rows g).countP full
  · rw [swept_of_not (by omega) col (highest _ (by omega))]
  · rw [decide_eq_false moved, Bool.false_and, Bool.false_and]

theorem Block.countP (block : Block g r n) : (rows g).countP full = n := by
  obtain ⟨m, -, split, above, here, below⟩ := block.parts
  rw [split, List.countP_append, List.countP_append, countP_eq_zero_iff.mpr above,
    countP_eq_zero_iff.mpr below, List.countP_eq_length.mpr here, List.length_map,
    List.length_range, Nat.zero_add, Nat.add_zero]

theorem Block.first (block : Block g r n) :
    r < ROW ∧ complete g r = true ∧ ∀ i < r, complete g i = false := by
  have := block.some_
  have := block.inside
  refine ⟨by omega, (block.complete_iff r (by omega)).mpr (by omega), fun i less => ?_⟩
  exact block.not_complete (by omega) (.inl less)

/-- Where the rows come to when the complete ones are next to each other. -/
theorem Block.settle_apply (block : Block g r n) (inside : i < ROW) (col : j < COL) :
    settle g i j = if i < n then false else if i < r + n then g (i - n) j else g i j := by
  obtain ⟨row, here, highest⟩ := block.first
  have below := block.below
  have gone (low : r ≤ i) (high : i < r + n) : (swept g).board i j = false :=
    swept_of_complete (by omega) inside col ((block.complete_iff i inside).mpr ⟨low, high⟩)
  rw [Russian.settle_apply below row here highest col, block.countP]
  by_cases low : i < r
  · by_cases new : i < n
    · have off : ¬ (n ≤ i ∧ i < r + n) := by omega
      rw [if_pos new, decide_eq_true low, decide_eq_false off]
      rfl
    · have moved : n ≤ i ∧ i < r + n := by omega
      rw [if_neg new, if_pos moved.2, decide_eq_true low, decide_eq_true moved]
      rfl
  by_cases high : i < r + n
  · rw [gone (by omega) high]
    rw [Bool.and_false, Bool.false_or]
    by_cases new : i < n
    · have off : ¬ (n ≤ i ∧ i < r + n) := by omega
      rw [if_pos new, decide_eq_false off]
      rfl
    · have moved : n ≤ i ∧ i < r + n := by omega
      rw [if_neg new, if_pos high, decide_eq_true moved]
      rfl
  · have kept : (swept g).board i j = g i j :=
      swept_of_not inside col (block.not_complete inside (.inr (by omega)))
    have new : ¬ i < n := by omega
    have off : ¬ (n ≤ i ∧ i < r + n) := fun both => high both.2
    rw [if_neg new, if_neg high, decide_eq_false low, decide_eq_false off, kept]
    simp

/-- Complete rows that are next to each other are cleared. -/
theorem Block.clears (block : Block g r n) :
    rows (settle g) = Lib.settled full emptyRow (rows g) := by
  obtain ⟨m, size, split, above, here, below⟩ := block.parts
  have size' : ROW = n + r + m := by omega
  rw [split, settled_block above here below, List.length_map, List.length_range, rows, size',
    map_range_add, map_range_add, List.append_assoc]
  congr 1
  · refine List.eq_replicate_iff.mpr ⟨by rw [List.length_map, List.length_range], ?_⟩
    intro x mem
    obtain ⟨i, bound, rfl⟩ := List.mem_map.mp mem
    have new := List.mem_range.mp bound
    refine row_eq_emptyRow fun j col => ?_
    rw [block.settle_apply (by omega) col, if_pos new]
  congr 1
  · refine List.map_congr_left fun i mem => List.map_congr_left fun j col => ?_
    have := List.mem_range.mp mem
    rw [block.settle_apply (by omega) (List.mem_range.mp col), if_neg (by omega),
      if_pos (by omega), Nat.add_sub_cancel_left]
  · refine List.map_congr_left fun i mem => List.map_congr_left fun j col => ?_
    have := List.mem_range.mp mem
    rw [block.settle_apply (by omega) (List.mem_range.mp col), if_neg (by omega),
      if_neg (by omega), Nat.add_comm n]

/-! ## Rows apart -/

/-- An incomplete row is between two complete ones. -/
def Gap (g : Grid) : Prop :=
  ∃ i k j, i < k ∧ k < j ∧ j < ROW ∧ complete g i = true ∧ complete g k = false ∧
    complete g j = true

/-- Without such a row the complete ones are next to each other, if there are any. -/
theorem exists_block (top : complete g 0 = false) (whole : ¬ Gap g) :
    (∀ i < ROW, complete g i = false) ∨ ∃ r n, Block g r n := by
  by_cases some_ : ∃ i, i < ROW ∧ complete g i = true
  · right
    -- the first complete row, and the first one after it that is not
    obtain ⟨r, ⟨row, here⟩, least⟩ : ∃ r, (r < ROW ∧ complete g r = true) ∧
        ∀ i < r, ¬ (i < ROW ∧ complete g i = true) :=
      ⟨Nat.find some_, Nat.find_spec some_, fun i => Nat.find_min some_⟩
    have ends : ∃ k, r < k ∧ (k = ROW ∨ complete g k = false) := ⟨ROW, row, .inl rfl⟩
    obtain ⟨k, ⟨after, stop⟩, first⟩ : ∃ k, (r < k ∧ (k = ROW ∨ complete g k = false)) ∧
        ∀ i < k, ¬ (r < i ∧ (i = ROW ∨ complete g i = false)) :=
      ⟨Nat.find ends, Nat.find_spec ends, fun i => Nat.find_min ends⟩
    have inside : k ≤ ROW := by
      by_contra out
      exact first ROW (Nat.lt_of_not_le out) ⟨row, .inl rfl⟩
    have below : r ≠ 0 := by
      rintro rfl
      cases top.symm.trans here
    refine ⟨r, k - r, Nat.one_le_iff_ne_zero.mpr below, by omega, by omega, fun i bound => ?_⟩
    have size : r + (k - r) = k := by omega
    rw [size]
    constructor
    · intro full
      refine ⟨Nat.le_of_not_lt fun less => least i less ⟨bound, full⟩, ?_⟩
      by_contra later
      rcases stop with rfl | other
      · exact later bound
      rcases Nat.lt_or_eq_of_le (Nat.le_of_not_lt later) with less | rfl
      · exact whole ⟨r, k, i, after, less, bound, here, other, full⟩
      · cases other.symm.trans full
    · intro ⟨low, high⟩
      rcases Nat.lt_or_eq_of_le low with less | rfl
      · by_contra other
        exact first i high ⟨less, .inr (Bool.eq_false_iff.mpr other)⟩
      · exact here
  · refine .inl fun i inside => ?_
    rw [← Bool.not_eq_true]
    exact fun here => some_ ⟨i, inside, here⟩

/-- A row between two complete ones that has a fixed element comes down too far: the element
leaves it, and nothing comes to it. -/
theorem not_clears (pos : 1 ≤ r) (inside : r + 2 < ROW) (upper : complete g r = true)
    (between : complete g (r + 1) = false) (lower : complete g (r + 2) = true)
    (only : ∀ i < ROW, complete g i = true → i = r ∨ i = r + 2)
    (used : row g (r + 1) ≠ emptyRow) :
    rows (settle g) ≠ Lib.settled full emptyRow (rows g) := by
  obtain ⟨m, size⟩ := Nat.exists_eq_add_of_le (Nat.succ_le_of_lt inside)
  have size' : ROW = r + (3 + m) := by omega
  have other (i : Nat) (bound : i < ROW) (outside : i ≠ r ∧ i ≠ r + 2) :
      full (row g i) = false := by
    rw [full_row, ← Bool.not_eq_true]
    intro here
    rcases only i bound here with rfl | rfl
    · exact outside.1 rfl
    · exact outside.2 rfl
  have split : rows g = (List.range r).map (row g) ++ row g r :: row g (r + 1) :: row g (r + 2) ::
      (List.range m).map fun i => row g (r + (3 + i)) := by
    rw [rows, size', map_range_add, map_range_add]
    rfl
  have above : ∀ x ∈ (List.range r).map (row g), full x = false := by
    intro x mem
    obtain ⟨i, bound, rfl⟩ := List.mem_map.mp mem
    have := List.mem_range.mp bound
    exact other i (by omega) (by omega)
  have below : ∀ x ∈ (List.range m).map fun i => row g (r + (3 + i)), full x = false := by
    intro x mem
    obtain ⟨i, bound, rfl⟩ := List.mem_map.mp mem
    have := List.mem_range.mp bound
    exact other _ (by omega) (by omega)
  have twice : (rows g).countP full = 2 := by
    rw [split, countP_apart above (full_row.trans upper) (full_row.trans between)
      (full_row.trans lower) below]
  intro same
  have there : (rows (settle g))[r + 2]? = some (row g (r + 1)) := by
    rw [same, split, settled_apart above (full_row.trans upper) (full_row.trans between)
      (full_row.trans lower) below]
    simp
  have empty : row (settle g) (r + 2) = emptyRow := by
    refine row_eq_emptyRow fun j col => ?_
    have highest (i : Nat) (less : i < r) : complete g i = false :=
      full_row.symm.trans (other i (by omega) (by omega))
    have low : ¬ r + 2 < r := by omega
    have past : ¬ (2 ≤ r + 2 ∧ r + 2 < r + 2) := by omega
    rw [settle_apply pos (by omega) upper highest col, twice, decide_eq_false low,
      decide_eq_false past, swept_of_complete (by omega) inside col lower]
    rfl
  rw [rows, List.getElem?_map, List.getElem?_range inside] at there
  exact used ((Option.some.inj there).symm.trans empty)

/-! ## The block that is fixed -/

/-- The board with the cells of the block on it. -/
def stamped (s : World) : Grid := fun i j =>
  s.russian i j || (shape s.pos).any fun c =>
    decide (s.x c = j * DRAW_BLOCK_SIZE) && decide (s.y c = i * DRAW_BLOCK_SIZE)

/-- The block is on the board, below the top row, and not on fixed elements; no row is complete
without it. -/
structure Landed (s : World) : Prop where
  arr : s.arr = drawn s.pos
  placed : Placed s
  low : ∀ c ∈ shape s.pos, s.y c ≠ 0
  incomplete : ∀ i < ROW, complete s.russian i = false

/-- After `copy` the complete rows are gone, those that remain are at the bottom in their order, and
as many empty ones are above them. -/
def Clears (s : World) : Prop :=
  ∃ t, copy s = some t ∧ rows t.russian = settled full emptyRow (rows (stamped s))

theorem stamped_iff : stamped s i j = true ↔ s.russian i j = true ∨
    ∃ c ∈ shape s.pos, s.x c = j * DRAW_BLOCK_SIZE ∧ s.y c = i * DRAW_BLOCK_SIZE := by
  simp only [stamped, Bool.or_eq_true, List.any_eq_true, Bool.and_eq_true, decide_eq_true_eq]

theorem Landed.lands_iff (landed : Landed s) : lands s i j = true ↔
    ∃ c ∈ shape s.pos, s.x c = j * DRAW_BLOCK_SIZE ∧ s.y c = i * DRAW_BLOCK_SIZE := by
  simp only [lands, List.any_eq_true, Bool.and_eq_true, decide_eq_true_eq, landed.arr, drawn_iff]
  constructor
  · intro ⟨c, _, ⟨across, down⟩, mem⟩
    exact ⟨c, mem, across.symm, down.symm⟩
  · intro ⟨c, mem, across, down⟩
    exact ⟨c, canvas_of_shape mem, ⟨across.symm, down.symm⟩, mem⟩

theorem Landed.fix_apply (landed : Landed s) (inside : i < ROW) (col : j < COL) :
    fix s i j = stamped s i j := by
  rw [Bool.eq_iff_iff, stamped_iff, ← landed.lands_iff, fix, decide_eq_true inside,
    decide_eq_true col, Bool.or_eq_true, Or.comm]
  rfl

theorem Landed.rows_fix (landed : Landed s) : rows (fix s) = rows (stamped s) :=
  List.map_congr_left fun _ inside => List.map_congr_left fun _ col =>
    landed.fix_apply (List.mem_range.mp inside) (List.mem_range.mp col)

theorem Landed.complete_fix (landed : Landed s) (inside : i < ROW) :
    complete (fix s) i = complete (stamped s) i :=
  complete_congr fun _ col => landed.fix_apply inside col

theorem Gap.congr {g' : Grid} (same : ∀ i < ROW, complete g i = complete g' i) (gap : Gap g) :
    Gap g' := by
  obtain ⟨i, k, j, first, last, inside, upper, between, lower⟩ := gap
  rw [same i (by omega)] at upper
  rw [same k (by omega)] at between
  rw [same j inside] at lower
  exact ⟨i, k, j, first, last, inside, upper, between, lower⟩

theorem Landed.gap_fix (landed : Landed s) : Gap (fix s) ↔ Gap (stamped s) :=
  ⟨Gap.congr fun _ => landed.complete_fix,
    Gap.congr fun _ inside => (landed.complete_fix inside).symm⟩

/-- The game goes on. -/
theorem Landed.copy (landed : Landed s) :
    copy s = some { s with russian := settle (fix s) } := by
  have go : ¬ isGameOver s = true := by
    rw [isGameOver_iff]
    intro ⟨j, _, there⟩
    obtain ⟨c, mem, _, top⟩ := landed.lands_iff.mp there
    exact landed.low c mem (top.trans (Int.zero_mul _))
  rw [Russian.copy, if_neg go]

/-- The block has a cell in each row that it completes. -/
theorem Landed.touches (landed : Landed s) (inside : i < ROW)
    (here : complete (fix s) i = true) :
    ∃ c ∈ shape s.pos, s.y c = i * DRAW_BLOCK_SIZE := by
  rw [landed.complete_fix inside] at here
  by_contra none_
  have same : complete (stamped s) i = complete s.russian i := by
    refine complete_congr fun j _ => ?_
    rw [Bool.eq_iff_iff, stamped_iff]
    exact or_iff_left fun ⟨c, mem, _, down⟩ => none_ ⟨c, mem, down⟩
  cases (here.symm.trans same).trans (landed.incomplete i inside)

theorem Landed.top (landed : Landed s) : complete (fix s) 0 = false := by
  rw [← Bool.not_eq_true]
  intro here
  obtain ⟨c, mem, down⟩ := landed.touches (by decide) here
  exact landed.low c mem (down.trans (Int.zero_mul _))

/-- The block has cells in three rows at most, and in the middle one of them. -/
theorem Landed.apart (landed : Landed s) (gap : Gap (fix s)) :
    ∃ r, 1 ≤ r ∧ r + 2 < ROW ∧ complete (fix s) r = true ∧
      complete (fix s) (r + 1) = false ∧ complete (fix s) (r + 2) = true ∧
      (∀ i < ROW, complete (fix s) i = true → i = r ∨ i = r + 2) ∧
      row (fix s) (r + 1) ≠ emptyRow := by
  obtain ⟨r, k, j, first, last, inside, upper, between, lower⟩ := gap
  have three : ∀ c ∈ shape s.pos, c.1 ≤ 2 := by cases s.pos <;> decide
  have middle : (1, 1) ∈ shape s.pos := by cases s.pos <;> decide
  obtain ⟨a, mem, high⟩ := landed.touches (by omega) upper
  obtain ⟨b, mem', low⟩ := landed.touches inside lower
  have := three a mem
  have := three b mem'
  simp only [World.y, DRAW_BLOCK_SIZE] at high low
  obtain rfl : k = r + 1 := by omega
  obtain rfl : j = r + 2 := by omega
  have pos : r ≠ 0 := by
    rintro rfl
    cases landed.top.symm.trans upper
  refine ⟨r, Nat.one_le_iff_ne_zero.mpr pos, inside, upper, between, lower, ?_, ?_⟩
  · intro i bound here
    obtain ⟨c, mem, down⟩ := landed.touches bound here
    have := three c mem
    simp only [World.y, DRAW_BLOCK_SIZE] at down
    have other : i ≠ r + 1 := by
      rintro rfl
      cases between.symm.trans here
    omega
  · intro empty
    obtain ⟨i, _, j, col, across, down⟩ := (landed.placed (1, 1) middle).1
    have own : i = r + 1 := by
      simp only [World.y, DRAW_BLOCK_SIZE] at down
      omega
    have set : fix s (r + 1) j = true := by
      rw [landed.fix_apply (by omega) col, stamped_iff]
      exact .inr ⟨(1, 1), middle, across.symm, own ▸ down.symm⟩
    have mem : true ∈ row (fix s) (r + 1) :=
      List.mem_map.mpr ⟨j, List.mem_range.mpr col, set⟩
    rw [empty] at mem
    cases List.eq_of_mem_replicate mem

theorem Landed.clears_iff (landed : Landed s) :
    Clears s ↔ rows (settle (fix s)) = Lib.settled full emptyRow (rows (fix s)) := by
  rw [Clears, landed.copy, landed.rows_fix]
  constructor
  · intro ⟨t, copied, same⟩
    rwa [← Option.some.inj copied] at same
  · exact fun same => ⟨_, rfl, same⟩

/-- **Clearing.** The complete rows are cleared exactly when no incomplete row is between two of
them. -/
theorem copy_clears_iff (landed : Landed s) : Clears s ↔ ¬ Gap (stamped s) := by
  rw [landed.clears_iff, ← landed.gap_fix]
  constructor
  · intro same gap
    obtain ⟨r, pos, inside, upper, between, lower, only, used⟩ := landed.apart gap
    exact not_clears pos inside upper between lower only used same
  · intro whole
    rcases exists_block landed.top whole with none_ | ⟨r, n, block⟩
    · rw [settle_of_none fun k _ inside => none_ k inside, settled_of_none]
      intro x mem
      obtain ⟨i, inside, rfl⟩ := List.mem_map.mp mem
      exact full_row.trans (none_ i (List.mem_range.mp inside))
    · exact block.clears

/-- Two rows lack the same element, and the row between them is empty. -/
def notched : World := drawPicture
  { start with
    russian := fun i j => decide ((i = 17 ∨ i = 19) ∧ j ≠ 1)
    autodownX := 0
    autodownY := 340
    pos := .right
    arr := fun _ _ => false }

theorem landed_notched : Landed notched where
  arr := (drawn_drawPicture (fun _ _ set => by cases set) (by decide)).arr
  placed := placed_of_pixels (by
    show ∀ c ∈ shape .right, _
    decide +kernel)
  low := by
    have all : ∀ c ∈ shape .right, notched.y c ≠ 0 := by decide +kernel
    exact all
  incomplete := by decide +kernel

theorem copy_clears_iff_notched : Clears notched ↔ ¬ Gap (stamped notched) :=
  copy_clears_iff landed_notched

/-- The block completes both rows. The elements that it has between them are left
above an empty row. -/
theorem copy_leaves : ¬ ∀ s : World, Landed s → Rests s → Clears s := by
  intro clears
  have rests : Rests notched := .inl (by decide +kernel)
  have same := landed_notched.clears_iff.mp (clears notched landed_notched rests)
  have filled : complete (fix notched) 17 = true ∧ complete (fix notched) 18 = false ∧
      complete (fix notched) 19 = true ∧
      ∀ i < ROW, complete (fix notched) i = true → i = 17 ∨ i = 17 + 2 := by
    decide +kernel
  have used : row (fix notched) 18 ≠ emptyRow := by decide +kernel
  obtain ⟨upper, between, lower, only⟩ := filled
  exact not_clears (by decide) (by decide) upper between lower only used same

end Shang.Russian
