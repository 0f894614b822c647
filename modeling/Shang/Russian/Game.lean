import Shang.Lib.Run
import Shang.Russian.Board

/-!
# The falling block

The current block of `russian/main.c`: where it is (`autodown_x`, `autodown_y`, in
pixels), how it is turned, and the moves. The moves ask three different things before
they are made. `left`, `right` and `down` compare the extreme coordinates that
`draw_picture` keeps with those of the board, and `is_stop` looks for fixed elements
beside the block. `change` has `verify` look at the cells of the turned block, with a
scratch grid that is not empty again when it finds a fixed element. The block that
appears when another one rests is not compared with anything.

`init_current_block` makes no other piece than the one whose tables are given here.
-/

namespace Shang.Russian

open Lib

def ROW_CANVAS : Nat := 4

def COL_CANVAS : Nat := 4

/-- `enum POSITION` -/
inductive Position
  | up
  | right
  | down
  | left
  deriving DecidableEq

/-- `(pos+1)%4` -/
def Position.next : Position → Position
  | .up => .right
  | .right => .down
  | .down => .left
  | .left => .up

/-- `enum MOVE_VERIFY_TYPE` -/
inductive MoveVerifyType
  | down
  | left
  | right

/-- A cell of the canvas, or an element of the board: its row and its column. -/
abbrev Cell := Nat × Nat

/-- The cells that `draw_picture` and `verify` set. -/
def shape : Position → List Cell
  | .up => [(0, 1), (1, 0), (1, 1), (1, 2)]
  | .right => [(0, 1), (1, 1), (1, 2), (2, 1)]
  | .down => [(0, 0), (0, 1), (0, 2), (1, 1)]
  | .left => [(1, 0), (0, 1), (1, 1), (2, 1)]

/-- `max_x_i` and `max_x_j` -/
def maxX : Position → Cell
  | .up => (1, 2)
  | .right => (1, 2)
  | .down => (0, 2)
  | .left => (0, 1)

/-- `max_y_i` and `max_y_j` -/
def maxY : Position → Cell
  | .up => (1, 2)
  | .right => (2, 1)
  | .down => (1, 1)
  | .left => (2, 1)

/-- `min_x_i` and `min_x_j` -/
def minX : Position → Cell
  | .up => (1, 0)
  | .right => (0, 1)
  | .down => (0, 0)
  | .left => (1, 0)

/-- `current_max_x`, `current_max_y` and `current_min_x`. -/
structure Extremes where
  maxX : Int
  maxY : Int
  minX : Int

/-- What the scan of a canvas notes of a cell that is set. -/
def Extremes.note (pos : Position) (e : Extremes) (c : Cell) : Extremes where
  maxX := if Russian.maxX pos = c then c.2 * DRAW_BLOCK_SIZE else e.maxX
  maxY := if Russian.maxY pos = c then c.1 * DRAW_BLOCK_SIZE else e.maxY
  minX := if Russian.minX pos = c then c.2 * DRAW_BLOCK_SIZE else e.minX

/-- Two nested loops over rows and columns. -/
def cells (rows cols : Nat) : List Cell :=
  (List.range rows).flatMap fun i => (List.range cols).map fun j => (i, j)

def canvas : List Cell := cells ROW_CANVAS COL_CANVAS

/-- `max_x`, `max_y`, `min_x` and `min_y`. -/
structure Bounds where
  maxX : Int
  maxY : Int
  minX : Int
  minY : Int
  deriving DecidableEq

/-- `init` with an element of the board; `isInit` says that it is not the first one. -/
def Bounds.note : Bool × Bounds → Cell → Bool × Bounds
  | (isInit, b), c =>
    let x := c.2 * DRAW_BLOCK_SIZE
    let y := c.1 * DRAW_BLOCK_SIZE
    if isInit = false then (true, ⟨x, y, x, y⟩)
    else (isInit,
      { maxX := if x > b.maxX then x else b.maxX
        maxY := if y > b.maxY then y else b.maxY
        minX := if x < b.minX then x else b.minX
        minY := if y < b.minY then y else b.minY })

/-- What `init` finds. -/
def bounds : Bounds := ((cells ROW COL).foldl Bounds.note (false, ⟨0, 0, 0, 0⟩)).2

theorem bounds_eq : bounds = ⟨180, 380, 0, 0⟩ := by decide +kernel

/-- The variables of the program. -/
structure World where
  russian : Grid
  autodownX : Int
  autodownY : Int
  pos : Position
  arr : Grid
  current : Extremes
  tmp : Grid

/-- The pixels of a cell of the current block. -/
def World.x (s : World) (c : Cell) : Int := c.2 * DRAW_BLOCK_SIZE + s.autodownX

def World.y (s : World) (c : Cell) : Int := c.1 * DRAW_BLOCK_SIZE + s.autodownY

/-- A grid with the cells of a position set. -/
def stamp (g : Grid) (pos : Position) : Grid := fun i j => g i j || (shape pos).contains (i, j)

/-- `draw_picture` -/
def drawPicture (s : World) : World :=
  let arr := stamp s.arr s.pos
  let note (e : Extremes) (c : Cell) := if arr c.1 c.2 then e.note s.pos c else e
  { s with
    arr := arr
    current := canvas.foldl note s.current }

/-- `reset_block` -/
def resetBlock (s : World) : World :=
  { s with arr := fun i j => if i < ROW_CANVAS ∧ j < COL_CANVAS then false else s.arr i j }

/-- `init_current_block` -/
def initCurrentBlock (s : World) : World :=
  { s with
    arr := fun _ _ => false
    pos := .up
    autodownY := 0
    autodownX := 0 }

/-- Where `is_stop` looks, from a cell of the block. -/
def MoveVerifyType.offset : MoveVerifyType → Int × Int
  | .down => (0, DRAW_BLOCK_SIZE)
  | .left => (-DRAW_BLOCK_SIZE, 0)
  | .right => (DRAW_BLOCK_SIZE, 0)

def isStop (s : World) (type : MoveVerifyType) : Bool :=
  canvas.any fun c =>
    s.arr c.1 c.2 && hits s.russian (s.x c + type.offset.1) (s.y c + type.offset.2)

/-- The scan of `verify`, which ends when it finds a fixed element. -/
def scan (s : World) (pos : Position) : List Cell → Grid → Extremes → Option Extremes × Grid
  | [], tmp, e => (some e, tmp)
  | c :: cs, tmp, e =>
    if tmp c.1 c.2 then
      let e := e.note pos c
      let tmp := tmp.set c.1 c.2 false
      if hits s.russian (s.x c) (s.y c) then (none, tmp) else scan s pos cs tmp e
    else scan s pos cs tmp e

/-- The comparison of `verify` with the bounds of the board. -/
def within (s : World) (pos : Position) (test : Extremes) : Bool :=
  match pos with
  | .down => ¬ test.minX + s.autodownX < bounds.minX
  | .up => ¬ test.maxX + s.autodownX > bounds.maxX
  | .right => ¬ test.maxY + s.autodownY > bounds.maxY
  | .left => true

/-- `verify`: whether the block may be turned, and what it leaves in `tmp_arr`. Its extreme
coordinates are not initialized; it notes each of them before it compares it. -/
def verify (s : World) (pos : Position) : Bool × Grid :=
  match scan s pos canvas (stamp s.tmp pos) ⟨0, 0, 0⟩ with
  | (none, tmp) => (false, tmp)
  | (some test, tmp) => (within s pos test, tmp)

def change (s : World) : World :=
  let next := s.pos.next
  let (allow, tmp) := verify s next
  let s := { s with tmp := tmp }
  if allow then drawPicture { resetBlock s with pos := next } else s

def left (s : World) : World :=
  if s.current.minX + s.autodownX - DRAW_BLOCK_SIZE < bounds.minX ∨ isStop s .left then s
  else
    let s := drawPicture s
    drawPicture { s with autodownX := s.autodownX - DRAW_BLOCK_SIZE }

def right (s : World) : World :=
  if s.current.maxX + s.autodownX + DRAW_BLOCK_SIZE > bounds.maxX ∨ isStop s .right then s
  else
    let s := drawPicture s
    drawPicture { s with autodownX := s.autodownX + DRAW_BLOCK_SIZE }

/-- Whether `copy` finds the block at an element of the board. -/
def lands (s : World) (i j : Nat) : Bool :=
  canvas.any fun c =>
    decide (j * DRAW_BLOCK_SIZE = s.x c) && decide (i * DRAW_BLOCK_SIZE = s.y c) &&
      s.arr c.1 c.2

/-- `is_game_over`: the block is at an element of the top row. -/
def isGameOver (s : World) : Bool :=
  (cells ROW COL).any fun c =>
    lands s c.1 c.2 && (List.range COL).any fun k => c.1 == 0 && c.2 == k

/-- The board with the block fixed. -/
def fix (s : World) : Grid :=
  fun i j => decide (i < ROW) && decide (j < COL) && lands s i j || s.russian i j

/-- `copy`. The program ends when the game is over. -/
def copy (s : World) : Option World :=
  if isGameOver s then none else some { s with russian := settle (fix s) }

/-- The block cannot go down. -/
def Rests (s : World) : Prop :=
  s.current.maxY + s.autodownY + DRAW_BLOCK_SIZE > bounds.maxY ∨ isStop s .down

instance (s : World) : Decidable (Rests s) := by
  unfold Rests
  infer_instance

def down (s : World) : Option World :=
  if Rests s then (copy s).map fun s => drawPicture (initCurrentBlock s)
  else
    let s := drawPicture s
    some (drawPicture { s with autodownY := s.autodownY + DRAW_BLOCK_SIZE })

/-- The keys `a`, `d`, `w` and `s`; the timer does what `s` does. -/
inductive Move
  | left
  | right
  | change
  | down
  deriving DecidableEq

/-- Nothing more happens when the game is over. -/
def step (s : World) : Move → Option World
  | .left => some (left s)
  | .right => some (right s)
  | .change => some (change s)
  | .down => down s

/-- The block appears on the empty board. -/
def start : World :=
  drawPicture (initCurrentBlock
    { russian := fun _ _ => false
      autodownX := 0
      autodownY := 0
      pos := .up
      arr := fun _ _ => false
      current := ⟨0, 0, 0⟩
      tmp := fun _ _ => false })

end Shang.Russian
