import Shang.Version1.Shapes
import Mathlib.Tactic.IntervalCases

/-!
# The move checks of version 1

`detect.c` has one condition for each of the 15 pieces and each move: a bound on the
place of the piece, and the cells that must be free. Three of them name cells that the
piece has itself or does not come to: `canleft` for the lying bar, and `canchange` for
the pieces 2 and 7.
-/

namespace Shang.Version1

/-! ## The program -/

/-- `canleft(x, y, type, p)` -/
def canleft (x y : Int) (type : Nat) (p : Board) : Option Bool :=
  match type with
  | 0 => test (x - 1 > 0) p [(y, x - 1), (y + 1, x - 2)]
  | 1 => test (x > 0) p [(y, x - 1), (y + 1, x - 1), (y + 2, x - 1)]
  | 2 => test (x - 1 > 0) p [(y, x - 1), (y + 1, x - 2), (y + 2, x - 1)]
  | 3 => test (x - 1 > 0) p [(y, x - 2), (y + 1, x - 1)]
  | 4 => test (x - 1 > 0) p [(y, x - 2), (y + 1, x - 1)]
  | 5 => test (x - 1 > 0) p [(y, x - 1), (y + 1, x - 2), (y + 2, x - 2)]
  | 6 => test (x - 1 > 0) p [(y, x - 1), (y + 1, x - 2)]
  | 7 => test (x > 0) p [(y, x - 1), (y + 1, x - 1), (y + 2, x)]
  | 8 => test (x > 0) p [(y, x - 1), (y + 1, x - 1)]
  | 9 => test (x - 1 > 0) p [(y, x - 1), (y + 1, x - 1), (y + 2, x - 2)]
  | 10 => test (x > 0) p [(y, x - 1), (y + 1, x + 1)]
  | 11 => test (x > 0) p [(y, x - 1), (y + 1, x - 1), (y + 2, x - 1)]
  | 12 => test (x > 0) p [(y, x - 1), (y + 1, x - 1)]
  | 13 => test (x > 0) p [(y, x - 1), (y + 1, x - 1), (y + 2, x - 1), (y + 3, x - 1)]
  | 14 => test (x > 0) p [(y, x)]
  | _ => none

/-- `canright(x, y, type, p)` -/
def canright (x y : Int) (type : Nat) (p : Board) : Option Bool :=
  match type with
  | 0 => test (x + 1 < XNUM - 1) p [(y, x + 1), (y + 1, x + 2)]
  | 1 => test (x + 1 < XNUM - 1) p [(y, x + 1), (y + 1, x + 2), (y + 2, x + 1)]
  | 2 => test (x < XNUM - 1) p [(y, x + 1), (y + 1, x + 1), (y + 2, x + 1)]
  | 3 => test (x + 1 < XNUM - 1) p [(y, x + 2), (y + 1, x + 1)]
  | 4 => test (x + 1 < XNUM - 1) p [(y, x + 1), (y + 1, x + 2)]
  | 5 => test (x < XNUM - 1) p [(y, x + 1), (y + 1, x + 1), (y + 2, x)]
  | 6 => test (x + 1 < XNUM - 1) p [(y, x + 2), (y + 1, x + 1)]
  | 7 => test (x + 1 < XNUM - 1) p [(y, x + 1), (y + 1, x + 2), (y + 2, x + 2)]
  | 8 => test (x + 2 < XNUM - 1) p [(y, x + 1), (y + 1, x + 3)]
  | 9 => test (x < XNUM - 1) p [(y, x + 1), (y + 1, x + 1), (y + 2, x + 1)]
  | 10 => test (x + 2 < XNUM - 1) p [(y, x + 3), (y + 1, x + 3)]
  | 11 => test (x + 1 < XNUM - 1) p [(y, x + 2), (y + 1, x + 1), (y + 2, x + 1)]
  | 12 => test (x + 1 < XNUM - 1) p [(y, x + 2), (y + 1, x + 2)]
  | 13 => test (x < XNUM - 1) p [(y, x + 1), (y + 1, x + 1), (y + 2, x + 1), (y + 3, x + 1)]
  | 14 => test (x + 3 < XNUM - 1) p [(y, x + 4)]
  | _ => none

/-- `candown(x, y, type, p)` -/
def candown (x y : Int) (type : Nat) (p : Board) : Option Bool :=
  match type with
  | 0 => test (y + 1 < YNUM - 1) p [(y + 2, x), (y + 2, x - 1), (y + 2, x + 1)]
  | 1 => test (y + 2 < YNUM - 1) p [(y + 3, x), (y + 2, x + 1)]
  | 2 => test (y + 2 < YNUM - 1) p [(y + 3, x), (y + 2, x - 1)]
  | 3 => test (y + 1 < YNUM - 1) p [(y + 1, x - 1), (y + 2, x), (y + 1, x + 1)]
  | 4 => test (y + 1 < YNUM - 1) p [(y + 1, x - 1), (y + 2, x), (y + 2, x + 1)]
  | 5 => test (y + 2 < YNUM - 1) p [(y + 3, x - 1), (y + 2, x)]
  | 6 => test (y + 1 < YNUM - 1) p [(y + 2, x - 1), (y + 2, x), (y + 1, x + 1)]
  | 7 => test (y + 2 < YNUM - 1) p [(y + 2, x), (y + 3, x + 1)]
  | 8 => test (y + 1 < YNUM - 1) p [(y + 2, x), (y + 2, x + 1), (y + 2, x + 2)]
  | 9 => test (y + 2 < YNUM - 1) p [(y + 3, x - 1), (y + 3, x)]
  | 10 => test (y + 1 < YNUM - 1) p [(y + 1, x), (y + 1, x + 1), (y + 2, x + 2)]
  | 11 => test (y + 2 < YNUM - 1) p [(y + 3, x), (y + 1, x + 1)]
  | 12 => test (y + 1 < YNUM - 1) p [(y + 2, x), (y + 2, x + 1)]
  | 13 => test (y + 3 < YNUM - 1) p [(y + 4, x)]
  | 14 => test (y < YNUM - 1) p [(y + 1, x), (y + 1, x + 1), (y + 1, x + 2), (y + 1, x + 3)]
  | _ => none

/-- `canchange(x, y, type, p)` -/
def canchange (x y : Int) (type : Nat) (p : Board) : Option Bool :=
  match type with
  | 0 => test (y + 1 < YNUM - 1) p [(y + 2, x)]
  | 1 => test (x > 0) p [(y + 1, x - 1)]
  | 2 => test (x < XNUM - 1) p [(y + 1, x + 1)]
  | 3 => test True p [(y + 1, x - 1), (y + 1, x + 1)]
  | 4 => test (y + 1 < YNUM - 1) p [(y + 1, x - 1), (y + 2, x - 1)]
  | 5 => test (x < XNUM - 1) p [(y, x - 1), (y + 1, x + 1)]
  | 6 => test (y + 1 < YNUM - 1) p [(y + 1, x + 1), (y + 2, x + 1)]
  | 7 => test (x > 0) p [(y, x + 1), (y + 1, x + 1)]
  | 8 => test (x > 0 ∧ y + 1 < YNUM - 1) p [(y + 2, x - 1), (y + 2, x)]
  | 9 => test (x + 1 < XNUM - 1) p [(y, x + 1), (y, x + 2), (y + 1, x + 2)]
  | 10 => test (y + 1 < YNUM - 1) p [(y + 1, x), (y + 2, x)]
  | 11 => test (x + 1 < XNUM - 1) p [(y + 1, x + 1), (y + 1, x + 2)]
  | 12 => some true
  | 13 => test (x + 2 < XNUM - 1) p [(y, x + 1), (y, x + 2), (y, x + 3)]
  | 14 => test (y + 2 < YNUM - 1) p [(y + 1, x), (y + 2, x), (y + 3, x)]
  | _ => none

/-- `type_chg(&type)` -/
def typeChg (type : Nat) : Nat :=
  if type = 3 then 0
  else if type = 5 then 4
  else if type = 7 then 6
  else if type = 11 then 8
  else if type = 12 then 12
  else if type = 14 then 13
  else type + 1

/-! ## Moves -/

/-- The cells `down` rows below and `right` columns to the right of these. -/
def shift (down right : Int) (cells : List Cell) : List Cell :=
  cells.map fun c => (c.1 + down, c.2 + right)

variable {p : Board} {x y : Int} {type : Nat}

theorem canleft_tells (known : type ≤ 13) (placed : Fits p (flag x y type)) :
    Tells (canleft x y type p) (Fits p (shift 0 (-1) (flag x y type))) := by
  interval_cases type
  all_goals
    refine Needs.tells ⟨?_, ?_⟩ placed
    · simp only [flag, shift, List.map_cons, List.map_nil, List.mem_cons, List.not_mem_nil]
      grind
    · simp only [flag, shift, List.map_cons, List.map_nil, List.forall_mem_cons, OnBoard, XNUM,
        YNUM]
      grind

theorem canright_tells (known : type ≤ 14) (placed : Fits p (flag x y type)) :
    Tells (canright x y type p) (Fits p (shift 0 1 (flag x y type))) := by
  interval_cases type
  all_goals
    refine Needs.tells ⟨?_, ?_⟩ placed
    · simp only [flag, shift, List.map_cons, List.map_nil, List.mem_cons, List.not_mem_nil]
      grind
    · simp only [flag, shift, List.map_cons, List.map_nil, List.forall_mem_cons, OnBoard, XNUM,
        YNUM]
      grind

theorem candown_tells (known : type ≤ 14) (placed : Fits p (flag x y type)) :
    Tells (candown x y type p) (Fits p (shift 1 0 (flag x y type))) := by
  interval_cases type
  all_goals
    refine Needs.tells ⟨?_, ?_⟩ placed
    · simp only [flag, shift, List.map_cons, List.map_nil, List.mem_cons, List.not_mem_nil]
      grind
    · simp only [flag, shift, List.map_cons, List.map_nil, List.forall_mem_cons, OnBoard, XNUM,
        YNUM]
      grind

/-- The pieces 2 and 7 apart. -/
theorem canchange_tells (known : type ≤ 14) (usual : type ≠ 2 ∧ type ≠ 7)
    (placed : Fits p (flag x y type)) :
    Tells (canchange x y type p) (Fits p (flag x y (typeChg type))) := by
  by_cases square : type = 12
  · rw [square] at placed ⊢
    exact ⟨true, rfl, iff_of_true rfl placed⟩
  interval_cases type
  all_goals
    try omega
  all_goals
    simp only [typeChg, reduceCtorEq, Nat.reduceEqDiff, ↓reduceIte, Nat.reduceAdd, Nat.zero_add]
    refine Needs.tells ⟨?_, ?_⟩ placed
    · simp only [flag, List.mem_cons, List.not_mem_nil]
      grind
    · simp only [flag, List.forall_mem_cons, OnBoard, XNUM, YNUM]
      grind

/-! ## The conditions that name other cells -/

/-- `canleft` looks at the first cell of the lying bar and not at the one before it. -/
theorem canleft_bar (placed : Fits p (flag x y 14)) :
    Tells (canleft x y 14 p) (Fits p (shift 0 (-1) (flag x y 14))) ↔
      ¬ (0 < x ∧ p (y, x - 1) = true) := by
  obtain ⟨here, own⟩ := placed (y, x) List.mem_cons_self
  have reads : Tells (canleft x y 14 p) (x > 0 ∧ ∀ c ∈ [(y, x)], p c = false) :=
    test_reads fun _ c mem => List.mem_singleton.mp mem ▸ here
  have needs : Needs (flag x y 14) (shift 0 (-1) (flag x y 14)) (x > 0) [(y, x - 1)] := by
    constructor
    · simp only [flag, shift, List.map_cons, List.map_nil, List.mem_cons, List.not_mem_nil]
      grind
    · simp only [flag, shift, List.map_cons, List.map_nil, List.forall_mem_cons, OnBoard, XNUM,
        YNUM]
      grind
  rw [reads.iff, needs.fits_iff placed, List.forall_mem_singleton, List.forall_mem_singleton, own]
  simp

/-- `canchange` looks at a cell that the turned piece 2 does not have, and not at its ends. -/
theorem canchange_two (placed : Fits p (flag x y 2)) :
    Tells (canchange x y 2 p) (Fits p (flag x y (typeChg 2))) ↔
      (x < XNUM - 1 →
        (p (y + 1, x + 1) = true ↔ p (y, x - 1) = true ∨ p (y, x + 1) = true)) := by
  have low := (placed (y + 1, x) (by simp [flag])).1
  have reads : Tells (canchange x y 2 p)
      (x < XNUM - 1 ∧ ∀ c ∈ [(y + 1, x + 1)], p c = false) := by
    refine test_reads fun more c mem => ?_
    obtain rfl := List.mem_singleton.mp mem
    simp only [OnBoard, XNUM] at low more ⊢
    omega
  have needs : Needs (flag x y 2) (flag x y 3) (x < XNUM - 1) [(y, x - 1), (y, x + 1)] := by
    constructor
    · simp only [flag, List.mem_cons, List.not_mem_nil]
      grind
    · simp only [flag, List.forall_mem_cons, OnBoard, XNUM, YNUM]
      grind
  have turned : typeChg 2 = 3 := rfl
  rw [reads.iff, turned, needs.fits_iff placed, and_congr_right_iff, List.forall_mem_singleton,
    List.forall_mem_cons, List.forall_mem_singleton]
  simp only [← Bool.not_eq_true]
  rw [← not_or, not_iff_not]

/-- `canchange` looks at a cell of the piece 7 and not at the lower one it needs. -/
theorem canchange_seven (placed : Fits p (flag x y 7)) :
    Tells (canchange x y 7 p) (Fits p (flag x y (typeChg 7))) ↔
      (0 < x → p (y + 1, x - 1) = true → p (y, x + 1) = true) := by
  obtain ⟨here, -⟩ := placed (y, x) (by simp [flag])
  obtain ⟨low, own⟩ := placed (y + 1, x + 1) (by simp [flag])
  have reads : Tells (canchange x y 7 p)
      (x > 0 ∧ ∀ c ∈ [(y, x + 1), (y + 1, x + 1)], p c = false) := by
    refine test_reads fun _ c mem => ?_
    simp only [OnBoard] at here low ⊢
    simp only [List.mem_cons, List.not_mem_nil, or_false] at mem
    rcases mem with rfl | rfl
    · exact ⟨here.1, low.2⟩
    · exact low
  have needs : Needs (flag x y 7) (flag x y 6) (x > 0) [(y, x + 1), (y + 1, x - 1)] := by
    constructor
    · simp only [flag, List.mem_cons, List.not_mem_nil]
      grind
    · simp only [flag, List.forall_mem_cons, OnBoard, XNUM, YNUM]
      grind
  have turned : typeChg 7 = 6 := rfl
  rw [reads.iff, turned, needs.fits_iff placed, and_congr_right_iff]
  simp only [List.forall_mem_cons, own]
  cases p (y, x + 1) <;> cases p (y + 1, x - 1) <;> simp

/-! ## All pieces -/

/-- The three moves are allowed if and only if the piece fits where it comes to. -/
def MovesTell (p : Board) (x y : Int) (type : Nat) : Prop :=
  Tells (canleft x y type p) (Fits p (shift 0 (-1) (flag x y type))) ∧
    Tells (canright x y type p) (Fits p (shift 0 1 (flag x y type))) ∧
      Tells (candown x y type p) (Fits p (shift 1 0 (flag x y type)))

/-- The moves are checked as they should be, but for the lying bar that has a fixed cell to its
left. -/
theorem movesTell_iff (known : type ≤ 14) (placed : Fits p (flag x y type)) :
    MovesTell p x y type ↔ ¬ (type = 14 ∧ 0 < x ∧ p (y, x - 1) = true) := by
  rw [MovesTell, and_iff_left ⟨canright_tells known placed, candown_tells known placed⟩]
  by_cases bar : type = 14
  · subst bar
    rw [canleft_bar placed, and_iff_right rfl]
  · exact iff_of_true (canleft_tells (by omega) placed) fun both => bar both.1

theorem movesTell_iff_empty :
    MovesTell (fun _ => false) 7 0 14 ↔ ¬ (14 = 14 ∧ (0 : Int) < 7 ∧ false = true) :=
  movesTell_iff (by decide) (by unfold Fits; decide)

/-- A bar is said to be able to move to the left onto a fixed cell. -/
theorem canleft_wrong :
    ¬ ∀ (p : Board) (type : Nat) (x y : Int), type ≤ 14 → Fits p (flag x y type) →
      MovesTell p x y type := by
  intro tells
  have placed : Fits (fun c => c == (0, 0)) (flag 1 0 14) := by unfold Fits; decide
  have left := (tells _ 14 1 0 (by decide) placed).1
  exact (canleft_bar placed).mp left (by decide)

/-- Rotation is checked as it should be, but for the pieces 2 and 7 where it matters that they
look at another cell. -/
theorem canchange_tells_iff (known : type ≤ 14) (placed : Fits p (flag x y type)) :
    Tells (canchange x y type p) (Fits p (flag x y (typeChg type))) ↔
      (type = 2 → x < XNUM - 1 →
          (p (y + 1, x + 1) = true ↔ p (y, x - 1) = true ∨ p (y, x + 1) = true)) ∧
        (type = 7 → 0 < x → p (y + 1, x - 1) = true → p (y, x + 1) = true) := by
  by_cases two : type = 2
  · subst two
    rw [canchange_two placed, forall_prop_of_true rfl]
    exact (and_iff_left fun seven => nomatch seven).symm
  by_cases seven : type = 7
  · subst seven
    rw [canchange_seven placed, forall_prop_of_true (p := 7 = 7) rfl]
    exact (and_iff_right fun two => nomatch two).symm
  · exact iff_of_true (canchange_tells known ⟨two, seven⟩ placed)
      ⟨fun same => absurd same two, fun same => absurd same seven⟩

theorem canchange_tells_iff_empty :
    Tells (canchange 7 0 2 fun _ => false) (Fits (fun _ => false) (flag 7 0 (typeChg 2))) ↔
      (2 = 2 → 7 < XNUM - 1 → (false = true ↔ false = true ∨ false = true)) ∧
        (2 = 7 → (0 : Int) < 7 → false = true → false = true) :=
  canchange_tells_iff (by decide) (by unfold Fits; decide)

/-- A piece is said to be able to turn into a fixed cell. -/
theorem canchange_wrong :
    ¬ ∀ (p : Board) (type : Nat) (x y : Int), type ≤ 14 → Fits p (flag x y type) →
      Tells (canchange x y type p) (Fits p (flag x y (typeChg type))) := by
  intro tells
  have placed : Fits (fun c => c == (0, 0)) (flag 1 0 2) := by unfold Fits; decide
  have iff := (canchange_two placed).mp (tells _ 2 1 0 (by decide) placed) (by decide)
  exact absurd (iff.mpr (by decide)) (by decide)

end Shang.Version1
