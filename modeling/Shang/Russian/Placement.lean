import Shang.Russian.Game

/-!
# Where the block is

The block is on the board, and not on fixed elements, as long as two of its moves are
harmless. `verify` does not compare the lowest cell of the position `LEFT` with the
board, and so lets a block in the two lowest rows be turned out of it. And a new block
appears in the second row even if there are fixed elements in it: the game is over only
when one is fixed in the top row.
-/

namespace Shang.Russian

open Lib

/-- The cells of the block are on the board, and none of them is at a fixed element. -/
def Placed (s : World) : Prop :=
  ∀ c ∈ shape s.pos, Inside (s.x c) (s.y c) ∧ ¬ Fixed s.russian (s.x c) (s.y c)

/-- The two moves that nothing keeps from going wrong. A block in the position `DOWN` with its
lower row at the bottom must meet a fixed element when it is turned. When a block rests
and no row is complete, there is room for the next one. -/
def Safe (s : World) : Move → Prop
  | .left | .right => True
  | .change =>
    s.pos = .down → s.autodownY + 2 * DRAW_BLOCK_SIZE > bounds.maxY →
      ∃ c ∈ canvas, (s.tmp c.1 c.2 ∨ c ∈ shape .left) ∧ Fixed s.russian (s.x c) (s.y c)
  | .down =>
    Rests s → isGameOver s = false →
      (∀ i, 1 ≤ i → i < ROW → complete (fix s) i = false) → ∀ j < 3, fix s 1 j = false

/-! ## The tables -/

/-- The cells of a position. -/
def drawn (pos : Position) : Grid := fun i j => (shape pos).contains (i, j)

/-- The extreme coordinates of a position. -/
def extremes (pos : Position) : Extremes where
  maxX := (maxX pos).2 * DRAW_BLOCK_SIZE
  maxY := (maxY pos).1 * DRAW_BLOCK_SIZE
  minX := (minX pos).2 * DRAW_BLOCK_SIZE

variable {s t : World} {pos : Position} {e : Move} {c : Cell} {cs : List Cell}

theorem drawn_iff : drawn pos c.1 c.2 = true ↔ c ∈ shape pos := by simp [drawn]

theorem canvas_of_shape (mem : c ∈ shape pos) : c ∈ canvas := by
  have all : ∀ c ∈ shape pos, c ∈ canvas := by cases pos <;> decide
  exact all c mem

theorem nodup_canvas : canvas.Nodup := by decide

/-- The tables name cells of the position. -/
theorem extreme_mem (pos : Position) :
    maxX pos ∈ shape pos ∧ maxY pos ∈ shape pos ∧ minX pos ∈ shape pos := by
  cases pos <;> decide

/-- They are extreme. -/
theorem inside_shape (s : World) (pos : Position) :
    (∀ c ∈ shape pos, Inside (s.x c) (s.y c)) ↔
      (20 ∣ s.autodownX ∧ 0 ≤ (extremes pos).minX + s.autodownX ∧
        (extremes pos).maxX + s.autodownX ≤ 180) ∧
      20 ∣ s.autodownY ∧ 0 ≤ s.autodownY ∧ (extremes pos).maxY + s.autodownY ≤ 380 := by
  cases pos
  all_goals
    simp [shape, inside_iff, World.x, World.y, extremes, maxX, maxY, minX, DRAW_BLOCK_SIZE]
    omega

/-- The pixels of the four cells say whether the block is where it should be. -/
theorem placed_of_pixels
    (all : ∀ c ∈ shape s.pos, ((20 ∣ s.x c ∧ 0 ≤ s.x c ∧ s.x c ≤ 180) ∧
      20 ∣ s.y c ∧ 0 ≤ s.y c ∧ s.y c ≤ 380) ∧ ¬ hits s.russian (s.x c) (s.y c) = true) :
    Placed s := by
  intro c mem
  rw [inside_iff, ← hits_iff]
  exact all c mem

/-! ## The scans -/

/-- A scan notes an extreme coordinate when it comes to its cell. -/
theorem foldl_note (set : Cell → Bool) (e : Extremes) :
    cs.foldl (fun e c => if set c then e.note pos c else e) e =
      { maxX := if maxX pos ∈ cs ∧ set (maxX pos) then (extremes pos).maxX else e.maxX
        maxY := if maxY pos ∈ cs ∧ set (maxY pos) then (extremes pos).maxY else e.maxY
        minX := if minX pos ∈ cs ∧ set (minX pos) then (extremes pos).minX else e.minX } := by
  induction cs generalizing e with
  | nil => simp
  | cons c cs ih =>
      rw [List.foldl_cons, ih]
      by_cases here : set c
      · rw [if_pos here]
        simp only [Extremes.note, extremes, Extremes.mk.injEq]
        refine ⟨?_, ?_, ?_⟩
        · by_cases own : maxX pos = c
          · simp [own, here]
          · simp [own]
        · by_cases own : maxY pos = c
          · simp [own, here]
          · simp [own]
        · by_cases own : minX pos = c
          · simp [own, here]
          · simp [own]
      · rw [if_neg here]
        have other (k : Cell) : k ∈ c :: cs ∧ set k ↔ k ∈ cs ∧ set k := by
          rw [List.mem_cons, or_and_right]
          apply or_iff_right
          intro ⟨own, there⟩
          exact here (own ▸ there)
        simp only [other]

/-- A scan of all the cells of a position finds its extreme coordinates. -/
theorem foldl_note_shape (set : Cell → Bool) (all : ∀ c ∈ shape pos, set c) (e : Extremes) :
    canvas.foldl (fun e c => if set c then e.note pos c else e) e = extremes pos := by
  obtain ⟨right, low, left⟩ := extreme_mem pos
  rw [foldl_note, if_pos ⟨canvas_of_shape right, all _ right⟩,
    if_pos ⟨canvas_of_shape low, all _ low⟩, if_pos ⟨canvas_of_shape left, all _ left⟩]

/-- What `draw_picture` leaves behind. -/
structure Drawn (s : World) : Prop where
  arr : s.arr = drawn s.pos
  current : s.current = extremes s.pos
  top : ∀ j < COL, s.russian 0 j = false

theorem drawn_drawPicture (clean : ∀ i j, s.arr i j = true → (i, j) ∈ shape s.pos)
    (top : ∀ j < COL, s.russian 0 j = false) : Drawn (drawPicture s) where
  arr := by
    funext i j
    show (s.arr i j || drawn s.pos i j) = drawn s.pos i j
    cases set : s.arr i j with
    | false => rfl
    | true => exact (drawn_iff.mpr (clean i j set)).symm
  current := by
    apply foldl_note_shape fun c => stamp s.arr s.pos c.1 c.2
    intro c mem
    have cell : drawn s.pos c.1 c.2 = true := drawn_iff.mpr mem
    show (s.arr c.1 c.2 || drawn s.pos c.1 c.2) = true
    rw [cell, Bool.or_true]
  top := top

/-- Only the block's own cells are set in its canvas. -/
theorem Drawn.clean (drawn : Drawn s) (i j : Nat) (set : s.arr i j = true) :
    (i, j) ∈ shape s.pos := by
  rw [drawn.arr] at set
  exact drawn_iff.mp set

theorem Drawn.isStop_iff (drawn : Drawn s) (type : MoveVerifyType) :
    isStop s type = true ↔
      ∃ c ∈ shape s.pos, Fixed s.russian (s.x c + type.offset.1) (s.y c + type.offset.2) := by
  simp only [isStop, List.any_eq_true, Bool.and_eq_true, hits_iff, drawn.arr, drawn_iff]
  constructor
  · intro ⟨c, _, mem, fixed⟩
    exact ⟨c, mem, fixed⟩
  · intro ⟨c, mem, fixed⟩
    exact ⟨c, canvas_of_shape mem, mem, fixed⟩

/-- The scan of `verify` finds a fixed element, or notes all cells. -/
theorem scan_fst (s : World) (pos : Position) (nodup : cs.Nodup) (tmp : Grid) (e : Extremes) :
    (∃ c ∈ cs, tmp c.1 c.2 ∧ Fixed s.russian (s.x c) (s.y c)) ∧ (scan s pos cs tmp e).1 = none ∨
      (∀ c ∈ cs, tmp c.1 c.2 → ¬ Fixed s.russian (s.x c) (s.y c)) ∧
        (scan s pos cs tmp e).1 =
          some (cs.foldl (fun e c => if tmp c.1 c.2 then e.note pos c else e) e) := by
  induction cs generalizing tmp e with
  | nil => exact .inr ⟨List.forall_mem_nil _, rfl⟩
  | cons c cs ih =>
      obtain ⟨fresh, nodup⟩ := List.nodup_cons.mp nodup
      rw [scan, List.foldl_cons]
      by_cases set : tmp c.1 c.2
      · rw [if_pos set, if_pos set]
        by_cases fixed : hits s.russian (s.x c) (s.y c)
        · rw [if_pos fixed]
          exact .inl ⟨⟨c, List.mem_cons_self, set, hits_iff.mp fixed⟩, rfl⟩
        · rw [if_neg fixed]
          have kept (d : Cell) (mem : d ∈ cs) : tmp.set c.1 c.2 false d.1 d.2 = tmp d.1 d.2 := by
            have other : ¬ (d.1 = c.1 ∧ d.2 = c.2) := fun same =>
              fresh (Prod.ext same.1 same.2 ▸ mem)
            exact if_neg other
          have notes (e : Extremes) :
              cs.foldl (fun e d => if tmp.set c.1 c.2 false d.1 d.2 then e.note pos d else e) e =
                cs.foldl (fun e d => if tmp d.1 d.2 then e.note pos d else e) e :=
            List.foldl_ext _ _ e fun e d mem => by rw [kept d mem]
          rcases ih nodup (tmp.set c.1 c.2 false) (e.note pos c) with
            ⟨⟨d, mem, there, found⟩, same⟩ | ⟨none, same⟩
          · exact .inl ⟨⟨d, List.mem_cons_of_mem c mem, kept d mem ▸ there, found⟩, same⟩
          · refine .inr ⟨List.forall_mem_cons.mpr ⟨?_, ?_⟩, same.trans ?_⟩
            · exact fun _ found => fixed (hits_iff.mpr found)
            · exact fun d mem there => none d mem (kept d mem ▸ there)
            · rw [notes]
      · rw [if_neg set, if_neg set]
        rcases ih nodup tmp e with ⟨⟨d, mem, found⟩, same⟩ | ⟨none, same⟩
        · exact .inl ⟨⟨d, List.mem_cons_of_mem c mem, found⟩, same⟩
        · exact .inr ⟨List.forall_mem_cons.mpr ⟨fun there => absurd there set, none⟩, same⟩

theorem verify_iff (s : World) (pos : Position) :
    (verify s pos).1 = true ↔
      (∀ c ∈ canvas, (s.tmp c.1 c.2 ∨ c ∈ shape pos) → ¬ Fixed s.russian (s.x c) (s.y c)) ∧
        within s pos (extremes pos) = true := by
  have set (c : Cell) : stamp s.tmp pos c.1 c.2 = true ↔ s.tmp c.1 c.2 ∨ c ∈ shape pos := by
    rw [← drawn_iff, ← Bool.or_eq_true]
    rfl
  have either := scan_fst s pos nodup_canvas (stamp s.tmp pos) ⟨0, 0, 0⟩
  unfold verify
  rcases scanned : scan s pos canvas (stamp s.tmp pos) ⟨0, 0, 0⟩ with ⟨test, tmp⟩
  rw [scanned] at either
  rcases either with ⟨⟨c, mem, there, fixed⟩, same⟩ | ⟨none, same⟩
  · obtain rfl : test = none := same
    constructor
    · exact fun allowed => absurd allowed Bool.false_ne_true
    · exact fun allowed => absurd fixed (allowed.1 c mem ((set c).mp there))
  · have all := foldl_note_shape (fun c => stamp s.tmp pos c.1 c.2)
      (fun c mem => (set c).mpr (.inr mem)) ⟨0, 0, 0⟩
    obtain rfl : test = some (extremes pos) := same.trans (congrArg some all)
    constructor
    · exact fun within => ⟨fun c mem there => none c mem ((set c).mpr there), within⟩
    · exact fun allowed => allowed.2

/-! ## Moves -/

theorem drawn_start : Drawn start := by
  apply drawn_drawPicture
  · intro i j set
    cases set
  · exact fun _ _ => rfl

theorem placed_start : Placed start := by
  intro c mem
  refine ⟨(inside_shape start .up).mpr (by decide) c mem, ?_⟩
  intro ⟨_, _, _, _, _, _, fixed⟩
  cases fixed

/-- The block is moved. -/
theorem placed_move (drawn : Drawn s) (type : MoveVerifyType) (free : ¬ isStop s type = true)
    (pos : t.pos = s.pos) (russian : t.russian = s.russian)
    (across : t.autodownX = s.autodownX + type.offset.1)
    (down : t.autodownY = s.autodownY + type.offset.2)
    (inside : ∀ c ∈ shape t.pos, Inside (t.x c) (t.y c)) : Placed t := by
  intro c mem
  refine ⟨inside c mem, fun fixed => free ((drawn.isStop_iff type).mpr ⟨c, pos ▸ mem, ?_⟩)⟩
  have x : t.x c = s.x c + type.offset.1 := by rw [World.x, across, World.x, Int.add_assoc]
  have y : t.y c = s.y c + type.offset.2 := by rw [World.y, down, World.y, Int.add_assoc]
  rwa [russian, x, y] at fixed

/-- The block is drawn where it is, and again where it comes to. -/
theorem Drawn.move (drawn : Drawn s) (x y : Int) :
    Drawn (drawPicture { drawPicture s with autodownX := x, autodownY := y }) := by
  have before := drawn_drawPicture drawn.clean drawn.top
  exact drawn_drawPicture before.clean before.top

theorem Drawn.left (drawn : Drawn s) : Drawn (left s) := by
  unfold Russian.left
  split
  · exact drawn
  · exact drawn.move (s.autodownX - DRAW_BLOCK_SIZE) s.autodownY

theorem Drawn.right (drawn : Drawn s) : Drawn (right s) := by
  unfold Russian.right
  split
  · exact drawn
  · exact drawn.move (s.autodownX + DRAW_BLOCK_SIZE) s.autodownY

theorem Drawn.change (drawn : Drawn s) : Drawn (change s) := by
  have clean (i j : Nat) (set : (resetBlock s).arr i j = true) : False := by
    unfold resetBlock at set
    dsimp only at set
    split at set
    · cases set
    · rename_i outside
      have inside : ∀ c ∈ shape s.pos, c.1 < ROW_CANVAS ∧ c.2 < COL_CANVAS := by
        cases s.pos <;> decide
      exact outside (inside _ (drawn.clean i j set))
  unfold Russian.change
  dsimp only
  split
  · exact drawn_drawPicture (fun i j set => (clean i j set).elim) drawn.top
  · exact { drawn with }

theorem Placed.left (placed : Placed s) (drawn : Drawn s) : Placed (left s) := by
  unfold Russian.left
  split
  · exact placed
  · rename_i go
    obtain ⟨room, free⟩ := not_or.mp go
    obtain ⟨across, down⟩ := (inside_shape s s.pos).mp fun c mem => (placed c mem).1
    refine placed_move drawn .left free rfl rfl rfl (Int.add_zero _).symm ?_
    apply (inside_shape _ s.pos).mpr
    rw [drawn.current, bounds_eq] at room
    simp only [drawPicture, DRAW_BLOCK_SIZE] at room ⊢
    omega

theorem Placed.right (placed : Placed s) (drawn : Drawn s) : Placed (right s) := by
  unfold Russian.right
  split
  · exact placed
  · rename_i go
    obtain ⟨room, free⟩ := not_or.mp go
    obtain ⟨across, down⟩ := (inside_shape s s.pos).mp fun c mem => (placed c mem).1
    refine placed_move drawn .right free rfl rfl rfl (Int.add_zero _).symm ?_
    apply (inside_shape _ s.pos).mpr
    rw [drawn.current, bounds_eq] at room
    simp only [drawPicture, DRAW_BLOCK_SIZE] at room ⊢
    omega

/-- The block goes down by one row. -/
theorem Placed.down (placed : Placed s) (drawn : Drawn s) (falls : ¬ Rests s) :
    Placed (drawPicture
      { drawPicture s with autodownY := s.autodownY + DRAW_BLOCK_SIZE }) := by
  obtain ⟨room, free⟩ := not_or.mp falls
  obtain ⟨across, down⟩ := (inside_shape s s.pos).mp fun c mem => (placed c mem).1
  refine placed_move drawn .down free rfl rfl (Int.add_zero _).symm rfl ?_
  apply (inside_shape _ s.pos).mpr
  rw [drawn.current, bounds_eq] at room
  simp only [drawPicture, DRAW_BLOCK_SIZE] at room ⊢
  omega

/-- The block is turned within the board, unless it is in the two lowest rows and gets the
position `LEFT`. -/
theorem inside_next (placed : Placed s) (room : within s s.pos.next (extremes s.pos.next) = true) :
    (∀ c ∈ shape s.pos.next, Inside (s.x c) (s.y c)) ↔
      (s.pos = .down → s.autodownY + 2 * DRAW_BLOCK_SIZE ≤ bounds.maxY) := by
  obtain ⟨across, down⟩ := (inside_shape s s.pos).mp fun c mem => (placed c mem).1
  rw [inside_shape, bounds_eq]
  cases pos : s.pos with
  | up | right | left | down =>
      rw [pos] at across down room
      simp [Position.next, within, bounds_eq, extremes, maxX, maxY, minX,
        DRAW_BLOCK_SIZE] at across down room ⊢
      omega

/-- A block that is turned stays where it should be exactly when the turn is harmless. -/
theorem placed_change (placed : Placed s) : Placed (change s) ↔ Safe s .change := by
  have next := verify_iff s s.pos.next
  unfold change
  dsimp only
  by_cases allowed : (verify s s.pos.next).1 = true
  · obtain ⟨free, room⟩ := next.mp allowed
    have inside := inside_next placed room
    rw [if_pos allowed]
    have turned : Placed (drawPicture
        { resetBlock { s with tmp := (verify s s.pos.next).2 } with pos := s.pos.next }) ↔
          ∀ c ∈ shape s.pos.next, Inside (s.x c) (s.y c) := by
      constructor
      · exact fun placed c mem => (placed c mem).1
      · exact fun inside c mem => ⟨inside c mem, free c (canvas_of_shape mem) (.inr mem)⟩
    rw [turned, inside]
    constructor
    · intro above low out
      exact absurd (above low) (Int.not_le.mpr out)
    · intro safe low
      by_contra out
      obtain ⟨c, mem, there, fixed⟩ := safe low (Int.not_le.mp out)
      have there : s.tmp c.1 c.2 ∨ c ∈ shape s.pos.next := by rwa [low]
      exact free c mem there fixed
  · rw [if_neg allowed]
    refine iff_of_true placed fun low _ => ?_
    by_contra none
    apply allowed (next.mpr ⟨?_, by rw [low]; rfl⟩)
    intro c mem there fixed
    exact none ⟨c, mem, by rwa [low] at there, fixed⟩

/-! ## The next block -/

theorem isGameOver_iff :
    isGameOver s = true ↔ ∃ j < COL, lands s 0 j = true := by
  simp only [isGameOver, cells, List.any_flatMap, List.any_map, List.any_eq_true,
    List.mem_range, Function.comp_apply, Bool.and_eq_true, beq_iff_eq]
  constructor
  · intro ⟨i, _, j, col, lands, k, _, first, _⟩
    subst first
    exact ⟨j, col, lands⟩
  · intro ⟨j, col, lands⟩
    exact ⟨0, by decide, j, col, lands, j, col, rfl, rfl⟩

theorem copy_cases (copied : copy s = some t) :
    isGameOver s = false ∧ t = { s with russian := settle (fix s) } := by
  unfold copy at copied
  split at copied
  · cases copied
  · rename_i go
    cases copied
    exact ⟨by simpa using go, rfl⟩

/-- As long as the game is not over, the top row is empty. -/
theorem fix_top (top : ∀ j < COL, s.russian 0 j = false) (go : isGameOver s = false) :
    ∀ j < COL, fix s 0 j = false := by
  intro j col
  have free : lands s 0 j = false := by
    by_contra land
    have over' := isGameOver_iff.mpr ⟨j, col, by simpa using land⟩
    rw [go] at over'
    cases over'
  unfold fix
  rw [free, top j col, Bool.and_false, Bool.or_false]

/-- Either two rows at the top are empty afterwards, or the board has the block and no more. -/
theorem settle_fix (top : ∀ j < COL, fix s 0 j = false) :
    (∃ i, 1 ≤ i ∧ i < ROW ∧ complete (fix s) i = true) ∧
      (∀ j < COL, settle (fix s) 0 j = false ∧ settle (fix s) 1 j = false) ∨
    (∀ i, 1 ≤ i → i < ROW → complete (fix s) i = false) ∧ settle (fix s) = fix s := by
  by_cases full : ∃ i, 1 ≤ i ∧ i < ROW ∧ complete (fix s) i = true
  · obtain ⟨i, below, inside, row⟩ := full
    refine .inl ⟨⟨i, below, inside, row⟩, fun j col => ?_⟩
    exact settle_of_complete top below inside row col
  · have none (i : Nat) (below : 1 ≤ i) (inside : i < ROW) : complete (fix s) i = false := by
      by_contra row
      exact full ⟨i, below, inside, by simpa using row⟩
    exact .inr ⟨none, settle_of_none none⟩

/-- The next block is where it should be when its four elements are free. -/
theorem placed_initCurrentBlock (top : ∀ j < COL, s.russian 0 j = false) :
    Placed (drawPicture (initCurrentBlock s)) ↔ ∀ j < 3, s.russian 1 j = false := by
  have inside : ∀ c ∈ shape .up, Inside ((initCurrentBlock s).x c) ((initCurrentBlock s).y c) := by
    apply (inside_shape (initCurrentBlock s) .up).mpr
    simp only [initCurrentBlock]
    decide
  have at' (i j : Nat) (row : i < ROW) (col : j < COL) :
      Fixed s.russian ((initCurrentBlock s).x (i, j)) ((initCurrentBlock s).y (i, j)) ↔
        s.russian i j = true := by
    rw [World.x, World.y, ← fixed_iff row col]
    simp only [initCurrentBlock, Int.add_zero]
  constructor
  · intro placed j col
    have mem : (1, j) ∈ shape .up := by
      have all : ∀ j < 3, (1, j) ∈ shape .up := by decide
      exact all j col
    have free := (placed (1, j) mem).2
    by_contra fixed
    exact free ((at' 1 j (by decide) (Nat.lt_trans col (by decide))).mpr (by simpa using fixed))
  · intro free c mem
    refine ⟨inside c mem, ?_⟩
    have rows : ∀ c ∈ shape .up, c.1 = 0 ∧ c.2 < COL ∨ c.1 = 1 ∧ c.2 < 3 := by decide
    obtain ⟨i, j⟩ := c
    rcases rows _ mem with ⟨rfl, col⟩ | ⟨rfl, col⟩
    · intro fixed
      have fixed := (at' 0 j (by decide) col).mp fixed
      rw [top j col] at fixed
      cases fixed
    · intro fixed
      have fixed := (at' 1 j (by decide) (Nat.lt_trans col (by decide))).mp fixed
      rw [free j col] at fixed
      cases fixed

/-! ## Runs -/

/-- A block that rests with its game not over is replaced. -/
theorem down_cases (downed : down s = some t) :
    Rests s ∧ isGameOver s = false ∧
        t = drawPicture (initCurrentBlock { s with russian := settle (fix s) }) ∨
      ¬ Rests s ∧
        t = drawPicture { drawPicture s with autodownY := s.autodownY + DRAW_BLOCK_SIZE } := by
  unfold down at downed
  split at downed
  · rename_i rests
    obtain ⟨u, copied, rfl⟩ := Option.map_eq_some_iff.mp downed
    obtain ⟨go, rfl⟩ := copy_cases copied
    exact .inl ⟨rests, go, rfl⟩
  · rename_i falls
    cases downed
    exact .inr ⟨falls, rfl⟩

theorem settle_top (top : ∀ j < COL, fix s 0 j = false) :
    ∀ j < COL, settle (fix s) 0 j = false := by
  intro j col
  rcases settle_fix top with ⟨-, empty⟩ | ⟨-, same⟩
  · exact (empty j col).1
  · rw [same]
    exact top j col

theorem Drawn.step (drawn : Drawn s) (stepped : step s e = some t) : Drawn t := by
  cases e with
  | left =>
      obtain rfl := Option.some.inj stepped
      exact drawn.left
  | right =>
      obtain rfl := Option.some.inj stepped
      exact drawn.right
  | change =>
      obtain rfl := Option.some.inj stepped
      exact drawn.change
  | down =>
      rcases down_cases stepped with ⟨-, go, rfl⟩ | ⟨-, rfl⟩
      · apply drawn_drawPicture
        · intro i j set
          cases set
        · exact settle_top (fix_top drawn.top go)
      · exact drawn.move s.autodownX (s.autodownY + DRAW_BLOCK_SIZE)

theorem placed_down (drawn : Drawn s) (placed : Placed s) (downed : down s = some t) :
    Placed t ↔ Safe s .down := by
  rcases down_cases downed with ⟨rests, go, rfl⟩ | ⟨falls, rfl⟩
  · have top := fix_top drawn.top go
    rw [placed_initCurrentBlock (settle_top top)]
    rcases settle_fix top with ⟨⟨i, below, inside, full⟩, empty⟩ | ⟨none, same⟩
    · have free : ∀ j < 3, settle (fix s) 1 j = false :=
        fun j col => (empty j (Nat.lt_trans col (by decide))).2
      refine iff_of_true free fun _ _ none => ?_
      rw [none i below inside] at full
      cases full
    · show (∀ j < 3, settle (fix s) 1 j = false) ↔ _
      rw [same]
      exact ⟨fun free _ _ _ => free, fun safe => safe rests go none⟩
  · exact iff_of_true (placed.down drawn falls) fun rests => absurd rests falls

/-- **One move.** The block stays where it should be exactly when the move is harmless. -/
theorem placed_step (drawn : Drawn s) (placed : Placed s) (stepped : step s e = some t) :
    Placed t ↔ Safe s e := by
  cases e with
  | left =>
      obtain rfl := Option.some.inj stepped
      exact iff_of_true (placed.left drawn) trivial
  | right =>
      obtain rfl := Option.some.inj stepped
      exact iff_of_true (placed.right drawn) trivial
  | change =>
      obtain rfl := Option.some.inj stepped
      exact placed_change placed
  | down => exact placed_down drawn placed stepped

/-- A move that ends the game is harmless. -/
theorem safe_of_none (ended : step s e = none) : Safe s e := by
  cases e with
  | left | right | change => cases ended
  | down =>
      intro rests go
      have copied : copy s = some { s with russian := settle (fix s) } := by
        rw [copy, if_neg (by rw [go]; decide)]
      rw [step, down, if_pos rests, copied] at ended
      cases ended

/-- **Position.** Until the game is over, the block is on the board and not on fixed elements
after every move exactly when every move is harmless. -/
theorem placed_iff (es : List Move) :
    (∀ fs s, fs <+: es → run step start fs = some s → Placed s) ↔ Along step Safe start es := by
  apply along_iff_reached (l := ()) (fun _ _ => ()) (fun _ s => Drawn s ∧ Placed s)
    fun _ s => Placed s
  · intro _ s e t ⟨drawn, placed⟩ safe stepped
    exact ⟨drawn.step stepped, (placed_step drawn placed stepped).mpr safe⟩
  · exact fun good => good.2
  · intro _ s e t ⟨drawn, placed⟩ harm stepped still
    exact harm ((placed_step drawn placed stepped).mp still)
  · exact safe_of_none
  · exact ⟨drawn_start, placed_start⟩

/-- A block that has fallen to the bottom in the position `DOWN`, and is turned. -/
def sinking : List Move := [.change, .change] ++ List.replicate 18 .down ++ [.change]

/-- One of its cells is below the board then. -/
theorem placed_fails :
    ¬ ∀ (es : List Move) (s : World), run step start es = some s → Placed s := by
  intro placed
  have out : (run step start sinking).map (fun s => (s.pos, s.autodownY)) = some (.left, 360) := by
    decide +kernel
  obtain ⟨s, ran, where'⟩ := Option.map_eq_some_iff.mp out
  have pos : s.pos = .left := congrArg Prod.fst where'
  have low : s.autodownY = 360 := congrArg Prod.snd where'
  have mem : (2, 1) ∈ shape s.pos := by
    rw [pos]
    decide
  have inside := (inside_iff.mp (placed sinking s ran (2, 1) mem).1).2.2.2
  simp [World.y, low, DRAW_BLOCK_SIZE] at inside

end Shang.Russian
