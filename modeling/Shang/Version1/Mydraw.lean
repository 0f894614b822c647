import Shang.Lib.Rows
import Shang.Version1.Shapes

/-!
# The complete rows of version 1

`deleteone` looks for the lowest complete row and moves the rows above it down by one.
It is called once when a piece is locked, which may complete up to four rows.
-/

namespace Shang.Version1

open Function Shang.Lib

/-! ## The program -/

/-- `ret` after the inner loop of `is_oneline`. -/
def complete (p : Board) (j : Nat) : Bool :=
  (List.range XNUM.toNat).all fun (i : Nat) => p (j, i)

/-- The loop of `is_oneline` from `j` on; the top row and no row are both 0. -/
def onelineFrom (p : Board) : Nat → Nat
  | 0 => 0
  | j + 1 => if complete p (j + 1) then j + 1 else onelineFrom p j

/-- `is_oneline(p)` -/
def isOneline (p : Board) : Nat := onelineFrom p (YNUM.toNat - 1)

/-- `for(j = ret; j > 0; j--)` of `deleteone` -/
def dropColumn (p : Board) (i : Nat) : Nat → Board
  | 0 => p
  | j + 1 => dropColumn (update p ((j + 1 : Nat), i) (p (j, i))) i j

/-- The first columns of `for(i = 0; i < XNUM; i++)`. -/
def dropColumns (p : Board) (ret : Nat) : Nat → Board
  | 0 => p
  | i + 1 => dropColumn (dropColumns p ret i) i ret

/-- `deleteone(p)` -/
def deleteone (p : Board) : Board :=
  let ret := isOneline p
  if ret ≠ 0 then dropColumns p ret XNUM.toNat else p

/-! ## Rows -/

/-- The cells of a row. -/
def row (p : Board) (j : Nat) : List Bool := (List.range XNUM.toNat).map fun (i : Nat) => p (j, i)

/-- The rows from the top. -/
def rows (p : Board) : List (List Bool) := (List.range YNUM.toNat).map (row p)

/-- The row is complete. -/
def full (r : List Bool) : Bool := r.all id

def emptyRow : List Bool := List.replicate XNUM.toNat false

variable {p q : Board} {i j k ret type : Nat} {c : Cell} {x y : Int}

theorem full_row : full (row p j) = complete p j := by
  rw [full, row, List.all_map]
  rfl

/-! ## Moving down -/

/-- A column from the row `ret` on upwards moves down by one. -/
theorem dropColumn_apply : dropColumn p i ret c =
    if c.2 = i ∧ 1 ≤ c.1 ∧ c.1 ≤ ret then p (c.1 - 1, c.2) else p c := by
  induction ret generalizing p with
  | zero => rw [dropColumn, if_neg (by omega)]
  | succ j ih =>
      rw [dropColumn, ih]
      by_cases own : c.2 = i ∧ 1 ≤ c.1 ∧ c.1 ≤ j
      · have other : (c.1 - 1, c.2) ≠ (((j + 1 : Nat) : Int), (i : Int)) := fun same => by
          have := congrArg Prod.fst same
          omega
        rw [if_pos own, if_pos (by omega), update_of_ne other]
      · rw [if_neg own]
        by_cases last : c = (((j + 1 : Nat) : Int), (i : Int))
        · have above : ((j + 1 : Nat) : Int) - 1 = j := by omega
          rw [last, update_self, if_pos ⟨rfl, by omega, Int.le_refl _⟩, above]
        · have outside : ¬ (c.2 = i ∧ 1 ≤ c.1 ∧ c.1 ≤ (j + 1 : Nat)) := fun inside =>
            last (Prod.ext (by omega) inside.1)
          rw [update_of_ne last, if_neg outside]

theorem dropColumns_apply : dropColumns p ret k c =
    if (0 ≤ c.2 ∧ c.2 < k) ∧ 1 ≤ c.1 ∧ c.1 ≤ ret then p (c.1 - 1, c.2) else p c := by
  induction k generalizing c with
  | zero => rw [dropColumns, if_neg (by omega)]
  | succ k ih =>
      rw [dropColumns, dropColumn_apply, ih, ih]
      by_cases last : c.2 = k ∧ 1 ≤ c.1 ∧ c.1 ≤ ret
      · rw [if_pos last, if_neg (by omega), if_pos (by omega)]
      · rw [if_neg last]
        congr 1
        apply propext
        omega

theorem row_dropColumns_moved (inside : j + 1 ≤ ret) :
    row (dropColumns p ret XNUM.toNat) (j + 1) = row p j := by
  refine List.map_congr_left fun i mem => ?_
  have col := List.mem_range.mp mem
  have above : ((j + 1 : Nat) : Int) - 1 = j := by omega
  rw [dropColumns_apply, if_pos ⟨⟨by omega, by omega⟩, by omega, by omega⟩, above]

theorem row_dropColumns_kept (outside : j = 0 ∨ ret < j) :
    row (dropColumns p ret XNUM.toNat) j = row p j := by
  refine List.map_congr_left fun i _ => ?_
  rw [dropColumns_apply, if_neg (by omega)]

/-- The row `ret` is gone, and the top row is there twice. -/
theorem rows_dropColumns (inside : ret < YNUM.toNat) :
    ∃ above below, rows p = above ++ row p ret :: below ∧
      rows (dropColumns p ret XNUM.toNat) = row p 0 :: (above ++ below) := by
  obtain ⟨k, size⟩ := Nat.exists_eq_add_of_lt inside
  have size₁ : YNUM.toNat = ret + 1 + k := by omega
  have size₂ : YNUM.toNat = 1 + ret + k := by omega
  refine ⟨(List.range ret).map (row p), (List.range k).map fun i => row p (ret + 1 + i), ?_, ?_⟩
  · rw [rows, size₁, map_range_add, map_range_add, List.append_assoc]
    rfl
  · have first : row (dropColumns p ret XNUM.toNat) 0 = row p 0 :=
      row_dropColumns_kept (.inl rfl)
    have moved : (List.range ret).map (fun j => row (dropColumns p ret XNUM.toNat) (1 + j)) =
        (List.range ret).map (row p) := by
      refine List.map_congr_left fun j mem => ?_
      have := List.mem_range.mp mem
      rw [Nat.add_comm]
      exact row_dropColumns_moved (by omega)
    have kept : (List.range k).map (fun i => row (dropColumns p ret XNUM.toNat) (1 + ret + i)) =
        (List.range k).map fun i => row p (ret + 1 + i) := by
      refine List.map_congr_left fun i _ => ?_
      rw [Nat.add_comm 1]
      exact row_dropColumns_kept (by omega)
    rw [rows, size₂, map_range_add, map_range_add, moved, kept, List.append_assoc, ← first]
    rfl

/-! ## What is deleted -/

theorem onelineFrom_le : onelineFrom p j ≤ j := by
  induction j with
  | zero => exact Nat.le_refl _
  | succ j ih =>
      rw [onelineFrom]
      split
      · exact Nat.le_refl _
      · exact Nat.le_succ_of_le ih

theorem onelineFrom_complete (found : onelineFrom p j ≠ 0) :
    complete p (onelineFrom p j) = true := by
  induction j with
  | zero => exact absurd rfl found
  | succ j ih =>
      rw [onelineFrom] at found ⊢
      split
      · assumption
      · next other =>
          rw [if_neg other] at found
          exact ih found

theorem onelineFrom_lowest (below : onelineFrom p j < k) (inside : k ≤ j) :
    complete p k = false := by
  induction j with
  | zero => omega
  | succ j ih =>
      rw [onelineFrom] at below
      split at below
      · omega
      · next other =>
          rcases Nat.lt_or_eq_of_le inside with less | rfl
          · exact ih below (Nat.le_of_lt_succ less)
          · simpa using other

/-! ## A locked piece -/

/-- A piece has been locked on a board without complete rows, below the top row. -/
structure Locked (p q : Board) (x y : Int) (type : Nat) : Prop where
  known : type ≤ 14
  placed : Fits p (flag x y type)
  before : ∀ r ∈ rows p, full r = false
  marked : drawFlag x y type p = some q
  top : row q 0 = emptyRow

/-- The complete rows are gone, and the others are at the bottom in their order. -/
def Cleared (p q : Board) : Prop :=
  (∀ r ∈ rows q, full r = false) ∧ rows q = settled full emptyRow (rows p)

theorem cleared_iff (top : row p 0 = emptyRow) :
    Cleared p (deleteone p) ↔ (rows p).countP full ≤ 1 := by
  have notFull : full emptyRow = false := by decide
  have clears : Cleared p (deleteone p) ↔ rows (deleteone p) = settled full emptyRow (rows p) :=
    and_iff_right_of_imp fun same r mem => not_full_of_mem_settled notFull (same ▸ mem)
  rw [clears, deleteone]
  by_cases none_ : isOneline p = 0
  · have all : ∀ r ∈ rows p, full r = false := by
      intro r mem
      obtain ⟨j, bound, rfl⟩ := List.mem_map.mp mem
      rcases Nat.eq_zero_or_pos j with rfl | pos
      · rw [top, notFull]
      · have below : isOneline p < j := none_.symm ▸ pos
        rw [full_row]
        exact onelineFrom_lowest below (Nat.le_pred_of_lt (List.mem_range.mp bound))
    rw [if_neg (not_not_intro none_), settled_of_none all, countP_eq_zero_iff.mpr all]
    exact iff_of_true rfl (Nat.zero_le 1)
  · have here : full (row p (isOneline p)) = true := full_row ▸ onelineFrom_complete none_
    have inside : isOneline p < YNUM.toNat := Nat.lt_succ_of_le onelineFrom_le
    obtain ⟨above, below, before, after⟩ := rows_dropColumns inside
    rw [if_pos none_, after, before, top, settled_one_iff notFull here]

/-- `deleteone` is enough if and only if the piece has completed at most one row. -/
theorem deleteone_clears_iff (locked : Locked p q x y type) :
    Cleared q (deleteone q) ↔ (rows q).countP full ≤ 1 :=
  cleared_iff locked.top

/-- The two lowest rows, without their first cells. -/
def twoRows : Board := fun c => decide (18 ≤ c.1 ∧ 1 ≤ c.2)

/-- A standing bar has been locked at the first cells. -/
theorem locked_twoRows : ∃ q, Locked twoRows q 0 16 13 ∧ (rows q).countP full = 2 :=
  ⟨_, ⟨by decide, by unfold Fits; decide, by decide +kernel, rfl, by decide⟩, by decide +kernel⟩

theorem deleteone_clears_iff_twoRows :
    ∃ q, drawFlag 0 16 13 twoRows = some q ∧
      (Cleared q (deleteone q) ↔ (rows q).countP full ≤ 1) := by
  obtain ⟨q, locked, -⟩ := locked_twoRows
  exact ⟨q, locked.marked, deleteone_clears_iff locked⟩

/-- With two complete rows one of them stays. -/
theorem deleteone_leaves :
    ¬ ∀ (p q : Board) (x y : Int) (type : Nat), Locked p q x y type → Cleared q (deleteone q) := by
  intro clears
  obtain ⟨q, locked, two⟩ := locked_twoRows
  have one := (cleared_iff locked.top).mp (clears _ q _ _ _ locked)
  omega

end Shang.Version1
