import Mathlib.Data.List.Basic

/-!
# The board of the falling blocks

`russian/main.c` keeps the fixed elements in `russian_p` and does all of its geometry in
pixels: an element is found by comparing the pixels of a cell with those of every
element of the board. This module has the board, these comparisons, and the last part of
`copy`, which deletes complete rows and moves the rows above them down.
-/

namespace Shang.Russian

def ROW : Nat := 20

def COL : Nat := 10

def DRAW_BLOCK_SIZE : Int := 20

/-- `russian_p`, and also the grids of a block. -/
abbrev Grid := Nat → Nat → Bool

def Grid.set (g : Grid) (i j : Nat) (v : Bool) : Grid :=
  fun i' j' => if i' = i ∧ j' = j then v else g i' j'

/-! ## Pixels -/

/-- Whether an element at these pixels is fixed. -/
def hits (g : Grid) (x y : Int) : Bool :=
  (List.range ROW).any fun i => (List.range COL).any fun j =>
    decide (j * DRAW_BLOCK_SIZE = x) && decide (i * DRAW_BLOCK_SIZE = y) && g i j

/-- There is an element at these pixels. -/
def Inside (x y : Int) : Prop :=
  ∃ i < ROW, ∃ j < COL, j * DRAW_BLOCK_SIZE = x ∧ i * DRAW_BLOCK_SIZE = y

/-- There is a fixed element at these pixels. -/
def Fixed (g : Grid) (x y : Int) : Prop :=
  ∃ i < ROW, ∃ j < COL, j * DRAW_BLOCK_SIZE = x ∧ i * DRAW_BLOCK_SIZE = y ∧ g i j

variable {g : Grid} {x y : Int} {i j k n : Nat}

theorem hits_iff : hits g x y = true ↔ Fixed g x y := by
  simp [hits, Fixed, and_assoc]

theorem inside_iff : Inside x y ↔ (20 ∣ x ∧ 0 ≤ x ∧ x ≤ 180) ∧ 20 ∣ y ∧ 0 ≤ y ∧ y ≤ 380 := by
  unfold Inside DRAW_BLOCK_SIZE
  constructor
  · intro ⟨i, row, j, col, left, top⟩
    have row : i < 20 := row
    have col : j < 10 := col
    omega
  · intro ⟨across, down⟩
    refine ⟨(y / 20).toNat, ?_, (x / 20).toNat, ?_, ?_, ?_⟩
    · show (y / 20).toNat < 20
      omega
    · show (x / 20).toNat < 10
      omega
    · omega
    · omega

/-- An element of the board has its own pixels. -/
theorem fixed_iff (row : i < ROW) (col : j < COL) :
    Fixed g (j * DRAW_BLOCK_SIZE) (i * DRAW_BLOCK_SIZE) ↔ g i j = true := by
  unfold Fixed DRAW_BLOCK_SIZE
  constructor
  · intro ⟨i', _, j', _, left, top, fixed⟩
    obtain rfl : i' = i := by omega
    obtain rfl : j' = j := by omega
    exact fixed
  · exact fun fixed => ⟨i, row, j, col, rfl, rfl, fixed⟩

/-! ## Complete rows -/

/-- The row has no element that is not fixed. -/
def complete (g : Grid) (i : Nat) : Bool := (List.range COL).all fun j => g i j

/-- What `copy` knows of the rows that it deletes. -/
structure Deletion where
  board : Grid
  deleteNum : Nat
  lastDeleteRow : Nat

def deleteRow (d : Deletion) (i : Nat) : Deletion :=
  if complete d.board i then
    { board := fun i' j => if i' = i ∧ j < COL then false else d.board i' j
      deleteNum := d.deleteNum + 1
      lastDeleteRow := i }
  else d

/-- From the row `i` up to the row 1. -/
def deleteRows (d : Deletion) : Nat → Deletion
  | 0 => d
  | i + 1 => deleteRows (deleteRow d (i + 1)) i

/-- A fixed element goes down by `n` rows. -/
def moveDown (g : Grid) (n i j : Nat) : Grid :=
  if g i j then (g.set i j false).set (i + n) j true else g

/-- The elements of the column `j` that are above the row `i` go down. -/
def dropColumn (g : Grid) (n j : Nat) : Nat → Grid
  | 0 => g
  | i + 1 => dropColumn (moveDown g n i j) n j i

/-- The elements above the row `i` go down, in the first columns. -/
def dropColumns (g : Grid) (n i : Nat) : Nat → Grid
  | 0 => g
  | j + 1 => dropColumn (dropColumns g n i j) n j i

/-- The board after complete rows are deleted. -/
def settle (g : Grid) : Grid :=
  let d := deleteRows ⟨g, 0, 0⟩ (ROW - 1)
  if d.deleteNum ≠ 0 then dropColumns d.board d.deleteNum d.lastDeleteRow COL else d.board

/-! ## What is deleted -/

variable {d : Deletion}

/-- The row that was deleted last is below the top row, and empty. -/
def Deletion.Sound (d : Deletion) : Prop :=
  0 < d.deleteNum → 1 ≤ d.lastDeleteRow ∧ ∀ j < COL, d.board d.lastDeleteRow j = false

theorem Deletion.Sound.deleteRow (sound : d.Sound) (below : 1 ≤ i) :
    (deleteRow d i).Sound := by
  unfold Russian.deleteRow
  split
  · exact fun _ => ⟨below, fun j col => if_pos ⟨rfl, col⟩⟩
  · exact sound

theorem Deletion.Sound.deleteRows (sound : d.Sound) : (deleteRows d i).Sound := by
  induction i generalizing d with
  | zero => exact sound
  | succ i ih => exact ih (sound.deleteRow (Nat.le_add_left 1 i))

theorem deleteRows_top : (deleteRows d i).board 0 j = d.board 0 j := by
  induction i generalizing d with
  | zero => rfl
  | succ i ih =>
      rw [deleteRows, ih]
      unfold deleteRow
      split
      · have other : ¬ (0 = i + 1 ∧ j < COL) := fun both => absurd both.1 (by omega)
        show (if 0 = i + 1 ∧ j < COL then false else d.board 0 j) = d.board 0 j
        exact if_neg other
      · rfl

theorem deleteRows_le : d.deleteNum ≤ (deleteRows d i).deleteNum := by
  induction i generalizing d with
  | zero => exact Nat.le_refl _
  | succ i ih =>
      apply Nat.le_trans _ ih
      unfold deleteRow
      split
      · exact Nat.le_succ _
      · exact Nat.le_refl _

theorem deleteRows_lt (below : 1 ≤ k) (inside : k ≤ i) (full : complete d.board k = true) :
    d.deleteNum < (deleteRows d i).deleteNum := by
  induction i generalizing d with
  | zero => omega
  | succ i ih =>
      rw [deleteRows]
      by_cases here : complete d.board (i + 1) = true
      · apply Nat.lt_of_lt_of_le _ deleteRows_le
        rw [deleteRow, if_pos here]
        exact Nat.lt_succ_self _
      · have other : k ≠ i + 1 := fun same => here (same ▸ full)
        rw [deleteRow, if_neg here]
        exact ih (by omega) full

theorem deleteRows_of_none (none : ∀ k, 1 ≤ k → k ≤ i → complete d.board k = false) :
    deleteRows d i = d := by
  induction i with
  | zero => rfl
  | succ i ih =>
      have here := none (i + 1) (Nat.le_add_left 1 i) (Nat.le_refl _)
      rw [deleteRows, deleteRow, if_neg (by rw [here]; decide)]
      exact ih fun k below inside => none k below (Nat.le_succ_of_le inside)

/-! ## What moves down -/

theorem moveDown_of_ne {i' j' : Nat} (other : j' ≠ j) : moveDown g n i j i' j' = g i' j' := by
  unfold moveDown
  split
  · simp [Grid.set, other]
  · rfl

theorem dropColumn_of_ne {i' j' : Nat} (other : j' ≠ j) : dropColumn g n j i i' j' = g i' j' := by
  induction i generalizing g with
  | zero => rfl
  | succ i ih => rw [dropColumn, ih, moveDown_of_ne other]

/-- A row is changed by elements that leave it or come to it, and by no others. -/
theorem moveDown_of_row {i' : Nat} (from' : i' ≠ i) (to' : i' ≠ i + n) :
    moveDown g n i j i' j = g i' j := by
  unfold moveDown
  split
  · simp [Grid.set, from', to']
  · rfl

theorem moveDown_self (pos : 0 < n) : moveDown g n i j i j = false := by
  unfold moveDown
  split
  · have other : n ≠ 0 := Nat.ne_of_gt pos
    simp [Grid.set, other]
  · rename_i free
    simpa using free

/-- Two rows at the top become empty, unless it is the row 1 that is deleted last, which is
empty then. -/
theorem dropColumn_top (pos : 0 < n) (top : g 0 j = false)
    (next : g 1 j = false ∨ 2 ≤ i) :
    dropColumn g n j i 0 j = false ∧ dropColumn g n j i 1 j = false := by
  induction i generalizing g with
  | zero => exact ⟨top, next.resolve_right (by omega)⟩
  | succ i ih =>
      rw [dropColumn]
      cases i with
      | zero =>
          have same : moveDown g n 0 j = g := by rw [moveDown, if_neg (by rw [top]; decide)]
          rw [same]
          exact ⟨top, next.resolve_right (by omega)⟩
      | succ i =>
          apply ih
          · rw [moveDown_of_row (by omega) (by omega), top]
          · cases i with
            | zero => exact .inl (moveDown_self pos)
            | succ i => exact .inr (by omega)

theorem dropColumns_of_le {i' j' : Nat} (right : k ≤ j') :
    dropColumns g n i k i' j' = g i' j' := by
  induction k with
  | zero => rfl
  | succ k ih => rw [dropColumns, dropColumn_of_ne (by omega), ih (by omega)]

theorem dropColumns_top (pos : 0 < n) (top : ∀ j < k, g 0 j = false)
    (next : ∀ j < k, g 1 j = false ∨ 2 ≤ i) (inside : j < k) :
    dropColumns g n i k 0 j = false ∧ dropColumns g n i k 1 j = false := by
  induction k with
  | zero => omega
  | succ k ih =>
      rw [dropColumns]
      by_cases last : j = k
      · subst last
        apply dropColumn_top pos
        · rw [dropColumns_of_le (Nat.le_refl j)]
          exact top j inside
        · rw [dropColumns_of_le (Nat.le_refl j)]
          exact next j inside
      · rw [dropColumn_of_ne last, dropColumn_of_ne last]
        exact ih (fun j col => top j (Nat.lt_succ_of_lt col))
          (fun j col => next j (Nat.lt_succ_of_lt col)) (by omega)

/-! ## The board afterwards -/

/-- With no complete row below the top row, nothing changes. -/
theorem settle_of_none (none : ∀ k, 1 ≤ k → k < ROW → complete g k = false) : settle g = g := by
  have same : deleteRows ⟨g, 0, 0⟩ (ROW - 1) = ⟨g, 0, 0⟩ :=
    deleteRows_of_none fun k below inside => none k below (Nat.lt_of_le_pred (by decide) inside)
  unfold settle
  rw [same]
  exact if_neg (not_not_intro rfl)

/-- With a complete row, two rows at the top are empty afterwards. -/
theorem settle_of_complete (top : ∀ j < COL, g 0 j = false) (below : 1 ≤ k) (inside : k < ROW)
    (full : complete g k = true) (col : j < COL) :
    settle g 0 j = false ∧ settle g 1 j = false := by
  have more : 0 < (deleteRows ⟨g, 0, 0⟩ (ROW - 1)).deleteNum :=
    deleteRows_lt (d := ⟨g, 0, 0⟩) below (Nat.le_pred_of_lt inside) full
  have sound : (deleteRows ⟨g, 0, 0⟩ (ROW - 1)).Sound :=
    Deletion.Sound.deleteRows fun pos => absurd pos (Nat.lt_irrefl 0)
  obtain ⟨low, empty⟩ := sound more
  rw [settle, if_pos (Nat.ne_of_gt more)]
  apply dropColumns_top more _ _ col
  · intro j col
    rw [deleteRows_top]
    exact top j col
  · intro j col
    rcases Nat.eq_or_lt_of_le low with one | two
    · have last := empty j col
      rw [← one] at last
      exact .inl last
    · exact .inr two

end Shang.Russian
