import Mathlib.Data.List.Basic
import Mathlib.Logic.Function.Basic

/-!
# Pieces on the board

The board of `version1` and the cells of its pieces. `draw_flag` and `detect.c` name cells
by their distance from the place of the piece, so that every access is one to a cell that
may be outside of the array; such an access has no result.
-/

namespace Shang.Version1

open Function

/-- `XSIZE/SIZE` -/
def XNUM : Int := 15

/-- `YSIZE/SIZE` -/
def YNUM : Int := 20

/-- The row and the column in `p[y][x]`. -/
abbrev Cell := Int × Int

/-- `char (*p)[XNUM]`, which holds 0 and 1. -/
abbrev Board := Cell → Bool

/-- The cell is in the array. -/
def OnBoard (c : Cell) : Prop := (0 ≤ c.1 ∧ c.1 < YNUM) ∧ 0 ≤ c.2 ∧ c.2 < XNUM

instance : DecidablePred OnBoard := fun _ => inferInstanceAs (Decidable (_ ∧ _))

/-- `p[y][x]` -/
def look (p : Board) (c : Cell) : Option Bool := if OnBoard c then some (p c) else none

/-- `p[y][x] = 1` -/
def mark (p : Board) (c : Cell) : Option Board :=
  if OnBoard c then some (update p c true) else none

/-- The cells that `draw_flag` marks. -/
def flag (x y : Int) : Nat → List Cell
  | 0 => [(y, x), (y + 1, x), (y + 1, x + 1), (y + 1, x - 1)]
  | 1 => [(y, x), (y + 1, x), (y + 1, x + 1), (y + 2, x)]
  | 2 => [(y, x), (y + 1, x), (y + 1, x - 1), (y + 2, x)]
  | 3 => [(y, x), (y, x - 1), (y, x + 1), (y + 1, x)]
  | 4 => [(y, x), (y, x - 1), (y + 1, x), (y + 1, x + 1)]
  | 5 => [(y, x), (y + 1, x - 1), (y + 1, x), (y + 2, x - 1)]
  | 6 => [(y, x), (y, x + 1), (y + 1, x - 1), (y + 1, x)]
  | 7 => [(y, x), (y + 1, x), (y + 1, x + 1), (y + 2, x + 1)]
  | 8 => [(y, x), (y + 1, x), (y + 1, x + 1), (y + 1, x + 2)]
  | 9 => [(y, x), (y + 1, x), (y + 2, x - 1), (y + 2, x)]
  | 10 => [(y, x), (y, x + 1), (y, x + 2), (y + 1, x + 2)]
  | 11 => [(y, x), (y, x + 1), (y + 1, x), (y + 2, x)]
  | 12 => [(y, x), (y, x + 1), (y + 1, x), (y + 1, x + 1)]
  | 13 => [(y, x), (y + 1, x), (y + 2, x), (y + 3, x)]
  | 14 => [(y, x), (y, x + 1), (y, x + 2), (y, x + 3)]
  | _ => []

/-- `draw_flag(x, y, type, p)` -/
def drawFlag (x y : Int) (type : Nat) (p : Board) : Option Board := (flag x y type).foldlM mark p

/-- The cells are in the array, and not fixed. -/
def Fits (p : Board) (cells : List Cell) : Prop := ∀ c ∈ cells, OnBoard c ∧ p c = false

variable {p : Board} {cells old new ahead : List Cell} {c : Cell} {x y : Int} {type : Nat}

/-! ## Conditions -/

/-- `!p[y][x]` for each of the cells, in this order. -/
def free (p : Board) : List Cell → Option Bool
  | [] => some true
  | c :: cells => do
      let taken ← look p c
      if taken then some false else free p cells

/-- `if (guard && !p[..][..] && ..) return 1; else return 0;` -/
def test (guard : Prop) [Decidable guard] (p : Board) (cells : List Cell) : Option Bool :=
  if guard then free p cells else some false

/-- The function returns 1 if and only if `P` holds, and reads no cell outside of the array. -/
def Tells (r : Option Bool) (P : Prop) : Prop := ∃ b, r = some b ∧ (b = true ↔ P)

theorem free_tells (inside : ∀ c ∈ cells, OnBoard c) :
    Tells (free p cells) (∀ c ∈ cells, p c = false) := by
  induction cells with
  | nil => exact ⟨true, rfl, iff_of_true rfl (List.forall_mem_nil _)⟩
  | cons c cells ih =>
      obtain ⟨here, inside⟩ := List.forall_mem_cons.mp inside
      obtain ⟨b, ran, iff⟩ := ih inside
      rw [free, look, if_pos here, Option.bind_eq_bind, Option.bind_some]
      cases taken : p c with
      | true =>
          refine ⟨false, rfl, iff_of_false Bool.false_ne_true fun all => ?_⟩
          rw [all c List.mem_cons_self] at taken
          cases taken
      | false =>
          rw [if_neg Bool.false_ne_true, ran]
          exact ⟨b, rfl, iff.trans (by rw [List.forall_mem_cons, and_iff_right taken])⟩

theorem test_reads {guard : Prop} [Decidable guard]
    (inside : guard → ∀ c ∈ cells, OnBoard c) :
    Tells (test guard p cells) (guard ∧ ∀ c ∈ cells, p c = false) := by
  by_cases holds : guard
  · obtain ⟨b, ran, iff⟩ := free_tells (p := p) (inside holds)
    exact ⟨b, by rw [test, if_pos holds, ran], iff.trans (and_iff_right holds).symm⟩
  · exact ⟨false, by rw [test, if_neg holds],
      iff_of_false Bool.false_ne_true fun both => holds both.1⟩

theorem Tells.iff {r : Option Bool} {P Q : Prop} (tells : Tells r Q) :
    Tells r P ↔ (Q ↔ P) := by
  obtain ⟨b, ran, iff⟩ := tells
  constructor
  · rintro ⟨b', ran', iff'⟩
    cases ran.symm.trans ran'
    exact iff.symm.trans iff'
  · exact fun same => ⟨b, ran, iff.trans same⟩

/-- To come from its `old` cells to the `new` ones, a piece that is in the array needs the cells
`ahead`, and the guard for the array. -/
def Needs (old new : List Cell) (guard : Prop) (ahead : List Cell) : Prop :=
  ((∀ c ∈ ahead, c ∈ new) ∧ ∀ c ∈ new, c ∈ old ∨ c ∈ ahead) ∧
    ((∀ c ∈ old, OnBoard c) → (guard ↔ ∀ c ∈ new, OnBoard c))

theorem Needs.fits_iff {guard : Prop} (needs : Needs old new guard ahead)
    (placed : Fits p old) : Fits p new ↔ guard ∧ ∀ c ∈ ahead, p c = false := by
  obtain ⟨⟨named, all⟩, inside⟩ := needs
  have inside := inside fun c mem => (placed c mem).1
  constructor
  · intro fits
    exact ⟨inside.mpr fun c mem => (fits c mem).1, fun c mem => (fits c (named c mem)).2⟩
  · intro ⟨holds, unfixed⟩ c mem
    refine ⟨inside.mp holds c mem, ?_⟩
    rcases all c mem with before | new
    · exact (placed c before).2
    · exact unfixed c new

/-- A condition that asks for what the piece needs is right. -/
theorem Needs.tells {guard : Prop} [Decidable guard] (needs : Needs old new guard ahead)
    (placed : Fits p old) : Tells (test guard p ahead) (Fits p new) := by
  have onBoard := needs.2 fun c mem => (placed c mem).1
  refine (test_reads fun holds c mem => ?_).iff.mpr (needs.fits_iff placed).symm
  exact onBoard.mp holds c (needs.1.1 c mem)

end Shang.Version1
