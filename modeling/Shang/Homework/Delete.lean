import Shang.Lib.Act
import Shang.Lib.Lines

/-!
# Deletion of a line in place

`delete.c` opens one file twice. It copies the third line to where the second one is,
the fourth to behind that, and so on, and cuts the last line off. For each line both
descriptors are set by counting newlines from the start of the file, which is no longer
the file that it was: a line that is shorter than the room for it leaves a rest behind,
and the rest is counted.
-/

namespace Shang.Delete

open Lib

/-- `'\n'` -/
def LF : UInt8 := 10

/-- `fd1` and `fd2`. -/
inductive Fd
  | fd1
  | fd2

/-- The bytes of `1.txt`, and the offsets of the descriptors. -/
structure World where
  file : List UInt8
  off1 : Nat
  off2 : Nat

def World.off (s : World) : Fd → Nat
  | .fd1 => s.off1
  | .fd2 => s.off2

/-- `lseek(fd, n, SEEK_SET)` -/
def World.seek (s : World) (n : Nat) : Fd → World
  | .fd1 => { s with off1 := n }
  | .fd2 => { s with off2 := n }

/-- `read(fd, buf, 1)`; no byte at the end of the file. -/
def read (fd : Fd) : Act World (Option UInt8) := fun s =>
  match s.file[s.off fd]? with
  | some x => .ended (some x) (s.seek (s.off fd + 1) fd)
  | none => .ended none s

/-- The bytes of a file after one is written at `n`; a gap before it is filled with zeros. -/
def writeAt (file : List UInt8) (n : Nat) (x : UInt8) : List UInt8 :=
  file.take n ++ List.replicate (n - file.length) 0 ++ x :: file.drop (n + 1)

/-- `write(fd, buf, 1)` -/
def write (fd : Fd) (x : UInt8) : Act World Unit := fun s =>
  .ended () { s.seek (s.off fd + 1) fd with file := writeAt s.file (s.off fd) x }

/-- `ftruncate(fd2, n)` -/
def ftruncate (n : Nat) : Act World Unit := fun s =>
  .ended () { s with file := s.file.take n ++ List.replicate (n - s.file.length) 0 }

/-- What the functions find that open the file anew. -/
def content : Act World (List UInt8) := fun s => .ended s.file s

/-- The loop of `get_fliesize`, with these bytes left to read. -/
def getFliesize : List UInt8 → Nat → Option Nat
  | [], size => some size
  | _ :: bytes, size => do
      let size ← succInt size
      getFliesize bytes size

/-- The loop of `get_rownum` -/
def getRownum : List UInt8 → Nat → Option Nat
  | [], rownum => some rownum
  | x :: bytes, rownum => do
      let rownum ← if x = LF then succInt rownum else some rownum
      getRownum bytes rownum

/-- The loop of `get_rowsize` -/
def getRowsize (wantRow : Nat) : List UInt8 → Nat → Nat → Option Nat
  | [], _, _ => some 0
  | x :: bytes, currentRow, size => do
      let size ← succInt size
      if x = LF then
        let currentRow ← succInt currentRow
        if wantRow = currentRow then some size else getRowsize wantRow bytes currentRow 0
      else getRowsize wantRow bytes currentRow size

/-- The loop of `get_line` on the bytes from `off` on: the result and the offset that is set. -/
def scanLine (wantRow : Nat) : List UInt8 → Nat → Nat → Nat → Option (Int × Nat)
  | [], off, _, _ => some (-1, off)
  | x :: bytes, off, rowNum, wordNum => do
      let wordNum ← succInt wordNum
      if x = LF then
        let rowNum ← succInt rowNum
        if rowNum = wantRow then some (1, off + 1 - wordNum)
        else scanLine wantRow bytes (off + 1) rowNum 0
      else scanLine wantRow bytes (off + 1) rowNum wordNum

/-- `get_line` -/
def getLine (fd : Fd) (wantRow : Nat) : Act World Int := fun s =>
  match scanLine wantRow s.file 0 0 0 with
  | some (ret, off) => .ended ret (s.seek off fd)
  | none => .stopped s

/-- The inner loop of `main`: whether it came to the end of the file. -/
def copyLine : Nat → Act World Bool
  | 0 => Act.spent
  | fuel + 1 => do
      match ← read .fd1 with
      | none => pure true
      | some x => do
          write .fd2 x
          if x = LF then pure false else copyLine fuel

/-- The outer loop of `main`, with `need_truncate` as its result. -/
def mainLoop (fuel : Nat) : Nat → Nat → Nat → Bool → Act World Bool
  | 0, _, _, _ => Act.spent
  | n + 1, bigLine, smallLine, needTruncate => do
      if (← getLine .fd1 bigLine) < 0 then pure needTruncate
      else if (← getLine .fd2 smallLine) < 0 then pure needTruncate
      else if ← copyLine fuel then pure true
      else do
        let bigLine ← Act.ofOption (succInt bigLine)
        let smallLine ← Act.ofOption (succInt smallLine)
        mainLoop fuel n bigLine smallLine true

/-- What `main` does at `after`. The last row is a part of the file, so that the new length is not
negative. -/
def after (needTruncate : Bool) : Act World Unit :=
  if needTruncate then do
    let file ← content
    let totalSize ← Act.ofOption (getFliesize file 0)
    let rowNum ← Act.ofOption (getRownum file 0)
    let lastrowSize ← Act.ofOption (getRowsize rowNum file 0 0)
    ftruncate (totalSize - lastrowSize)
  else pure ()

/-- `main`, with fuel for each of its loops. -/
def main (fuel : Nat) : Act World Int := do
  let needTruncate ← mainLoop fuel fuel 3 2 false
  after needTruncate
  pure 0

/-- The file before the descriptors are used. -/
def opened (file : List UInt8) : World := ⟨file, 0, 0⟩

/-! ## Counting -/

variable {body bytes l w : List UInt8} {front : List (List UInt8)} {off row size want word : Nat}

theorem getFliesize_eq (fits : size + bytes.length ≤ intMax) :
    getFliesize bytes size = some (size + bytes.length) := by
  induction bytes generalizing size with
  | nil => rfl
  | cons x bytes ih =>
      rw [List.length_cons] at fits
      rw [getFliesize, succInt_of_lt (by omega), Option.bind_eq_bind, Option.bind_some,
        ih (by omega), List.length_cons, Nat.add_right_comm, Nat.add_assoc]

theorem getFliesize_large (fits : size ≤ intMax) (large : intMax < size + bytes.length) :
    getFliesize bytes size = none := by
  induction bytes generalizing size with
  | nil =>
      rw [List.length_nil] at large
      omega
  | cons x bytes ih =>
      rw [List.length_cons] at large
      rw [getFliesize, succInt]
      split
      · exact ih (by omega) (by omega)
      · rfl

theorem scanLine_body (plain : LF ∉ body) (fits : word + body.length ≤ intMax) :
    scanLine want (body ++ bytes) off row word =
      scanLine want bytes (off + body.length) row (word + body.length) := by
  induction body generalizing off word with
  | nil => rfl
  | cons x body ih =>
      obtain ⟨other, plain⟩ := not_or.mp (List.mem_cons.not.mp plain)
      rw [List.length_cons] at fits
      rw [List.cons_append, scanLine, succInt_of_lt (by omega), Option.bind_eq_bind,
        Option.bind_some, if_neg (Ne.symm other), ih plain (by omega), List.length_cons,
        Nat.add_right_comm off 1, Nat.add_right_comm word 1]
      rfl

/-- `get_line` goes back to the start of a line, or on to the next one. -/
theorem scanLine_line (line : IsLine LF l) (fits : l.length ≤ intMax) (few : row < intMax) :
    scanLine want (l ++ bytes) off row 0 =
      if row + 1 = want then some (1, off)
      else scanLine want bytes (off + l.length) (row + 1) 0 := by
  obtain ⟨body, rfl, plain⟩ := line
  rw [List.length_append, List.length_singleton] at fits
  rw [List.append_assoc, scanLine_body plain (by omega), List.singleton_append, scanLine,
    succInt_of_lt (by omega), Option.bind_eq_bind, Option.bind_some, if_pos rfl,
    succInt_of_lt few, Option.bind_some, Nat.zero_add, Nat.add_assoc, Nat.add_sub_cancel,
    List.length_append, List.length_singleton]

/-- The line behind the others, counted from the second one. -/
theorem row_cons (row : Nat) (k : List UInt8) (front : List (List UInt8)) :
    row + (k :: front).length + 1 = row + 1 + front.length + 1 := by
  rw [List.length_cons]
  omega

theorem scanLine_found (bytes : List UInt8) (off row : Nat) (lines : ∀ l ∈ front, IsLine LF l)
    (line : IsLine LF l) (fits : row + front.flatten.length + l.length ≤ intMax) :
    scanLine (row + front.length + 1) (front.flatten ++ (l ++ bytes)) off row 0 =
      some (1, off + front.flatten.length) := by
  induction front generalizing off row with
  | nil =>
      rw [List.flatten_nil, List.length_nil] at fits
      have := line.pos
      rw [List.flatten_nil, List.nil_append, scanLine_line line (by omega) (by omega)]
      exact if_pos rfl
  | cons k front ih =>
      obtain ⟨first, lines⟩ := List.forall_mem_cons.mp lines
      have := first.pos
      rw [List.flatten_cons, List.length_append] at fits
      have later : row + 1 ≠ row + (k :: front).length + 1 := by
        rw [List.length_cons]
        omega
      have want := row_cons row k front
      rw [List.flatten_cons, List.append_assoc, scanLine_line first (by omega) (by omega),
        if_neg later, want, ih _ (row + 1) lines (by omega), List.length_append, Nat.add_assoc]

theorem scanLine_missing (off row : Nat) (lines : ∀ l ∈ front, IsLine LF l)
    (fits : row + front.flatten.length ≤ intMax) (few : row + front.length < want) :
    scanLine want front.flatten off row 0 = some (-1, off + front.flatten.length) := by
  induction front generalizing off row with
  | nil => rfl
  | cons k front ih =>
      obtain ⟨first, lines⟩ := List.forall_mem_cons.mp lines
      have := first.pos
      rw [List.flatten_cons, List.length_append] at fits
      rw [List.length_cons] at few
      have later : row + 1 ≠ want := by omega
      rw [List.flatten_cons, scanLine_line first (by omega) (by omega), if_neg later,
        ih _ (row + 1) lines (by omega) (by omega), List.length_append, Nat.add_assoc]

theorem getRownum_body (plain : LF ∉ body) :
    getRownum (body ++ bytes) row = getRownum bytes row := by
  induction body with
  | nil => rfl
  | cons x body ih =>
      obtain ⟨other, plain⟩ := not_or.mp (List.mem_cons.not.mp plain)
      rw [List.cons_append, getRownum, if_neg (Ne.symm other), Option.bind_eq_bind,
        Option.bind_some]
      exact ih plain

theorem getRownum_lines (lines : ∀ l ∈ front, IsLine LF l) (fits : row + front.length ≤ intMax) :
    getRownum front.flatten row = some (row + front.length) := by
  induction front generalizing row with
  | nil => rfl
  | cons k front ih =>
      obtain ⟨⟨body, rfl, plain⟩, rest⟩ := List.forall_mem_cons.mp lines
      rw [List.length_cons] at fits
      rw [List.flatten_cons, List.append_assoc, getRownum_body plain, List.singleton_append,
        getRownum, if_pos rfl, succInt_of_lt (by omega), Option.bind_eq_bind, Option.bind_some]
      refine (ih rest (by omega)).trans ?_
      rw [List.length_cons, Nat.add_right_comm, Nat.add_assoc]

theorem getRowsize_body (plain : LF ∉ body) (fits : size + body.length ≤ intMax) :
    getRowsize want (body ++ bytes) row size =
      getRowsize want bytes row (size + body.length) := by
  induction body generalizing size with
  | nil => rfl
  | cons x body ih =>
      obtain ⟨other, plain⟩ := not_or.mp (List.mem_cons.not.mp plain)
      rw [List.length_cons] at fits
      rw [List.cons_append, getRowsize, succInt_of_lt (by omega), Option.bind_eq_bind,
        Option.bind_some, if_neg (Ne.symm other), ih plain (by omega), List.length_cons,
        Nat.add_right_comm, Nat.add_assoc]

theorem getRowsize_line (line : IsLine LF l) (fits : l.length ≤ intMax) (few : row < intMax) :
    getRowsize want (l ++ bytes) row 0 =
      if want = row + 1 then some l.length else getRowsize want bytes (row + 1) 0 := by
  obtain ⟨body, rfl, plain⟩ := line
  rw [List.length_append, List.length_singleton] at fits
  rw [List.append_assoc, getRowsize_body plain (by omega), List.singleton_append, getRowsize,
    succInt_of_lt (by omega), Option.bind_eq_bind, Option.bind_some, if_pos rfl,
    succInt_of_lt few, Option.bind_some, Nat.zero_add, List.length_append, List.length_singleton]

theorem getRowsize_last (row : Nat) (lines : ∀ l ∈ front, IsLine LF l) (line : IsLine LF l)
    (fits : row + front.flatten.length + l.length ≤ intMax) :
    getRowsize (row + front.length + 1) (front.flatten ++ l) row 0 = some l.length := by
  induction front generalizing row with
  | nil =>
      rw [List.flatten_nil, List.length_nil] at fits
      have := line.pos
      have alone : ([] : List (List UInt8)).flatten ++ l = l ++ [] := by simp
      rw [alone, getRowsize_line line (by omega) (by omega)]
      exact if_pos rfl
  | cons k front ih =>
      obtain ⟨first, lines⟩ := List.forall_mem_cons.mp lines
      have := first.pos
      rw [List.flatten_cons, List.length_append] at fits
      have later : row + (k :: front).length + 1 ≠ row + 1 := by
        rw [List.length_cons]
        omega
      have want := row_cons row k front
      rw [List.flatten_cons, List.append_assoc, getRowsize_line first (by omega) (by omega),
        if_neg later, want, ih (row + 1) lines (by omega)]

/-! ## Copying a line -/

variable {a b t : List UInt8} {x : UInt8} {g o fuel : Nat}

theorem read_fd1 (here : b.drop g = x :: t) :
    read .fd1 ⟨a ++ b, a.length + g, o⟩ = .ended (some x) ⟨a ++ b, a.length + g + 1, o⟩ := by
  have at_ : (a ++ b)[a.length + g]? = some x := by
    rw [List.getElem?_append_right (Nat.le_add_right _ _), Nat.add_sub_cancel_left,
      ← List.head?_drop, here, List.head?_cons]
  unfold read
  dsimp only [World.off]
  rw [at_]
  rfl

theorem write_fd2 : write .fd2 x ⟨a ++ b, o, a.length⟩ =
    .ended () ⟨a ++ x :: b.drop 1, o, a.length + 1⟩ := by
  have file : writeAt (a ++ b) a.length x = a ++ x :: b.drop 1 := by
    have none_ : a.length - (a ++ b).length = 0 := by simp
    rw [writeAt, none_, List.take_left, List.replicate_zero, List.append_nil,
      List.drop_append, List.drop_eq_nil_of_le (Nat.le_succ _), Nat.add_sub_cancel_left,
      List.nil_append]
  unfold write
  dsimp only [World.off, World.seek]
  rw [file]

/-- The line that starts `g` bytes ahead is written over what is here. -/
theorem copyLine_line (ahead : b.drop g = body ++ LF :: t) (plain : LF ∉ body)
    (enough : body.length < fuel) : copyLine fuel ⟨a ++ b, a.length + g, a.length⟩ =
      .ended false ⟨a ++ (body ++ LF :: b.drop (body.length + 1)),
        a.length + (body.length + 1) + g, a.length + (body.length + 1)⟩ := by
  induction body generalizing a b fuel with
  | nil =>
      obtain ⟨fuel, rfl⟩ := Nat.exists_eq_succ_of_ne_zero (Nat.ne_of_gt enough)
      rw [copyLine, Act.bind_ended (read_fd1 ahead)]
      dsimp only
      rw [Act.bind_ended write_fd2, if_pos rfl, List.nil_append, List.length_nil, Nat.zero_add,
        Nat.add_right_comm]
      rfl
  | cons x body ih =>
      obtain ⟨fuel, rfl⟩ := Nat.exists_eq_succ_of_ne_zero (Nat.ne_of_gt (Nat.zero_lt_of_lt enough))
      obtain ⟨other, plain⟩ := not_or.mp (List.mem_cons.not.mp plain)
      have next : (b.drop 1).drop g = body ++ LF :: t := by
        rw [List.drop_drop, Nat.add_comm, ← List.drop_drop, ahead]
        rfl
      have less : body.length < fuel := by
        rw [List.length_cons] at enough
        omega
      have moved := ih (a := a ++ [x]) next plain less
      have size : (a ++ [x]).length = a.length + 1 := by simp
      have file : (a ++ [x]) ++ b.drop 1 = a ++ x :: b.drop 1 := by simp
      have rest : (b.drop 1).drop (body.length + 1) = b.drop ((x :: body).length + 1) := by
        rw [List.drop_drop, List.length_cons]
        congr 1
        omega
      have len : a.length + 1 + (body.length + 1) = a.length + ((x :: body).length + 1) := by
        rw [List.length_cons]
        omega
      rw [size, file] at moved
      rw [copyLine, Act.bind_ended (read_fd1 ahead)]
      dsimp only
      rw [Act.bind_ended write_fd2, if_neg (Ne.symm other), Nat.add_right_comm, moved, rest, len,
        List.append_assoc]
      rfl

/-! ## A round -/

variable {done rest : List (List UInt8)} {r w' : List UInt8} {o1 o2 n : Nat} {s : World}
  {need : Bool}

theorem getLine_found (fd : Fd) (lines : ∀ l ∈ front, IsLine LF l) (line : IsLine LF l)
    (file : s.file = front.flatten ++ (l ++ bytes)) (fits : s.file.length ≤ intMax) :
    getLine fd (front.length + 1) s = .ended 1 (s.seek front.flatten.length fd) := by
  rw [file, List.length_append, List.length_append] at fits
  have scanned := scanLine_found bytes 0 0 lines line (by omega)
  rw [Nat.zero_add, Nat.zero_add] at scanned
  unfold getLine
  rw [file, scanned]

theorem getLine_missing (fd : Fd) (lines : ∀ l ∈ front, IsLine LF l)
    (file : s.file = front.flatten) (fits : s.file.length ≤ intMax) (few : front.length < want) :
    ∃ t, getLine fd want s = .ended (-1) t ∧ t.file = s.file := by
  rw [file] at fits
  have scanned := scanLine_missing 0 0 lines (by omega) (by rwa [Nat.zero_add])
  unfold getLine
  rw [file, scanned]
  cases fd with
  | fd1 => exact ⟨_, rfl, file⟩
  | fd2 => exact ⟨_, rfl, file⟩

/-- The line `r` is copied to where the room `w` is. -/
theorem mainLoop_round (lines : ∀ l ∈ done, IsLine LF l) (room : IsLine LF w) (line : IsLine LF r)
    (fits : (done.flatten ++ (w ++ (r ++ bytes))).length ≤ intMax) (enough : r.length ≤ fuel) :
    mainLoop fuel (n + 1) (done.length + 2) (done.length + 1) need
        ⟨done.flatten ++ (w ++ (r ++ bytes)), o1, o2⟩ =
      (do
        let bigLine ← Act.ofOption (succInt (done.length + 2))
        let smallLine ← Act.ofOption (succInt (done.length + 1))
        mainLoop fuel n bigLine smallLine true)
        ⟨done.flatten ++ (r ++ (w ++ (r ++ bytes)).drop r.length),
          done.flatten.length + r.length + w.length, done.flatten.length + r.length⟩ := by
  have two : ∀ l ∈ done ++ [w], IsLine LF l :=
    List.forall_mem_append.mpr ⟨lines, List.forall_mem_singleton.mpr room⟩
  have flat : (done ++ [w]).flatten = done.flatten ++ w := by simp
  have size : (done ++ [w]).length = done.length + 1 := by simp
  have length : (done.flatten ++ w).length = done.flatten.length + w.length := List.length_append
  have split : done.flatten ++ (w ++ (r ++ bytes)) =
      (done ++ [w]).flatten ++ (r ++ bytes) := by rw [flat, List.append_assoc]
  have big := getLine_found (s := ⟨done.flatten ++ (w ++ (r ++ bytes)), o1, o2⟩) .fd1 two line
    split fits
  rw [size, flat, length] at big
  have small := getLine_found (s := ⟨done.flatten ++ (w ++ (r ++ bytes)),
    done.flatten.length + w.length, o2⟩) .fd2 lines room rfl fits
  have positive : ¬ (1 : Int) < 0 := by decide
  obtain ⟨body, rfl, plain⟩ := line
  have ahead : (w ++ ((body ++ [LF]) ++ bytes)).drop w.length = body ++ LF :: bytes := by
    rw [List.drop_left, List.append_assoc, List.singleton_append]
  have enough' : body.length < fuel := by
    rw [List.length_append, List.length_singleton] at enough
    omega
  have copied := copyLine_line (a := done.flatten) ahead plain enough'
  rw [mainLoop, Act.bind_ended big, if_neg positive]
  dsimp only [World.seek]
  rw [Act.bind_ended small, if_neg positive]
  dsimp only [World.seek]
  rw [Act.bind_ended copied]
  have rsize : (body ++ [LF]).length = body.length + 1 := by simp
  have shape (c : List UInt8) : (body ++ [LF]) ++ c = body ++ LF :: c := by simp
  rw [if_neg Bool.false_ne_true, rsize, shape, shape, Nat.add_right_comm]

/-! ## All rounds -/

/-- What becomes of the lines: those that are in place, the room behind them, and those that
follow. A line that is shorter than the room is copied again. -/
inductive Shifts : List (List UInt8) → List UInt8 → List (List UInt8) → List (List UInt8) →
    List UInt8 → Prop
  | last {done : List (List UInt8)} {w : List UInt8} : Shifts done w [] done w
  | short {done rest done' : List (List UInt8)} {w r w' : List UInt8}
      (less : r.length < w.length)
      (more : Shifts (done ++ [r]) (w.drop r.length) (r :: rest) done' w') :
      Shifts done w (r :: rest) done' w'
  | long {done rest done' : List (List UInt8)} {w r w' : List UInt8}
      (fills : w.length ≤ r.length)
      (more : Shifts (done ++ [r]) (r.drop (r.length - w.length)) rest done' w') :
      Shifts done w (r :: rest) done' w'

variable {done' : List (List UInt8)}

theorem exists_shifts (done : List (List UInt8)) (room : IsLine LF w)
    (lines : ∀ l ∈ rest, IsLine LF l) : ∃ done' w', Shifts done w rest done' w' := by
  induction size : w.length + rest.length using Nat.strongRecOn generalizing done w rest with
  | ind size' ih =>
      cases rest with
      | nil => exact ⟨done, w, .last⟩
      | cons r rest =>
          obtain ⟨line, more⟩ := List.forall_mem_cons.mp lines
          have := line.pos
          have := room.pos
          rcases Nat.lt_or_ge r.length w.length with less | fills
          · have shorter : (w.drop r.length).length + (r :: rest).length < size' := by
              rw [← size, List.length_drop]
              omega
            obtain ⟨done', w', shifts⟩ := ih _ shorter (done ++ [r]) (room.drop less) lines rfl
            exact ⟨done', w', .short less shifts⟩
          · have shorter : (r.drop (r.length - w.length)).length + rest.length < size' := by
              rw [← size, List.length_drop, List.length_cons]
              omega
            obtain ⟨done', w', shifts⟩ := ih _ shorter (done ++ [r]) (line.drop (by omega)) more rfl
            exact ⟨done', w', .long fills shifts⟩

theorem Shifts.length_le (shifts : Shifts done w rest done' w') :
    done.length ≤ done'.length := by
  induction shifts with
  | last => exact Nat.le_refl _
  | short less more ih =>
      rw [List.length_append] at ih
      exact Nat.le_of_add_right_le ih
  | long fills more ih =>
      rw [List.length_append] at ih
      exact Nat.le_of_add_right_le ih

/-- There are lines again. -/
theorem Shifts.lines (shifts : Shifts done w rest done' w') (lines : ∀ l ∈ done, IsLine LF l)
    (room : IsLine LF w) (more : ∀ l ∈ rest, IsLine LF l) :
    (∀ l ∈ done', IsLine LF l) ∧ IsLine LF w' := by
  induction shifts with
  | last => exact ⟨lines, room⟩
  | short less _ ih =>
      obtain ⟨line, -⟩ := List.forall_mem_cons.mp more
      exact ih (List.forall_mem_append.mpr ⟨lines, List.forall_mem_singleton.mpr line⟩)
        (room.drop less) more
  | long fills _ ih =>
      obtain ⟨line, more⟩ := List.forall_mem_cons.mp more
      have := line.pos
      have := room.pos
      exact ih (List.forall_mem_append.mpr ⟨lines, List.forall_mem_singleton.mpr line⟩)
        (line.drop (by omega)) more

/-- The room is as large as at first exactly when no line was shorter. -/
theorem Shifts.room (shifts : Shifts done w rest done' w') (more : ∀ l ∈ rest, IsLine LF l) :
    w'.length ≤ w.length ∧ (w'.length = w.length ↔ ∀ r ∈ rest, w.length ≤ r.length) := by
  induction shifts with
  | last => exact ⟨Nat.le_refl _, iff_of_true rfl (List.forall_mem_nil _)⟩
  | short less _ ih =>
      obtain ⟨line, -⟩ := List.forall_mem_cons.mp more
      have := line.pos
      obtain ⟨smaller, -⟩ := ih more
      rw [List.length_drop] at smaller
      refine ⟨by omega, iff_of_false (by omega) fun long => ?_⟩
      have := long _ List.mem_cons_self
      omega
  | long fills _ ih =>
      obtain ⟨-, more⟩ := List.forall_mem_cons.mp more
      obtain ⟨smaller, same⟩ := ih more
      rw [List.length_drop, Nat.sub_sub_self fills] at smaller same
      rw [List.forall_mem_cons, and_iff_right fills]
      exact ⟨smaller, same⟩

theorem Shifts.done_eq (shifts : Shifts done w rest done' w')
    (long : ∀ r ∈ rest, w.length ≤ r.length) : done' = done ++ rest := by
  induction shifts with
  | last => rw [List.append_nil]
  | short less _ ih =>
      have := long _ List.mem_cons_self
      omega
  | long fills _ ih =>
      obtain ⟨-, long⟩ := List.forall_mem_cons.mp long
      rw [ih (by rwa [List.length_drop, Nat.sub_sub_self fills]), List.append_assoc,
        List.singleton_append]

/-- The file with these lines, this room and these lines. -/
def text (done : List (List UInt8)) (w : List UInt8) (rest : List (List UInt8)) : List UInt8 :=
  done.flatten ++ (w ++ rest.flatten)

theorem text_short (less : r.length < w.length) :
    done.flatten ++ (r ++ (w ++ (r ++ rest.flatten)).drop r.length) =
      text (done ++ [r]) (w.drop r.length) (r :: rest) := by
  rw [text, List.drop_append_of_le_length (Nat.le_of_lt less)]
  simp

theorem text_long (fills : w.length ≤ r.length) :
    done.flatten ++ (r ++ (w ++ (r ++ rest.flatten)).drop r.length) =
      text (done ++ [r]) (r.drop (r.length - w.length)) rest := by
  rw [text, List.drop_append, List.drop_eq_nil_of_le fills, List.nil_append,
    List.drop_append_of_le_length (Nat.sub_le _ _)]
  simp

theorem length_copied (done : List (List UInt8)) (w r : List UInt8) (rest : List (List UInt8)) :
    (done.flatten ++ (r ++ (w ++ (r ++ rest.flatten)).drop r.length)).length =
    (text done w (r :: rest)).length := by
  simp only [text, List.flatten_cons, List.length_append, List.length_drop]
  omega

/-- With enough fuel, the loop of `main` comes from these lines to the others, or it stops because
their number is not an `int`. -/
def Runs (need : Bool) (done : List (List UInt8)) (w : List UInt8) (rest done' : List (List UInt8))
    (w' : List UInt8) : Prop :=
  ∃ N, ∀ n ≥ N, ∀ fuel ≥ (text done w rest).length, ∀ o1 o2, ∃ t,
    mainLoop fuel n (done.length + 2) (done.length + 1) need ⟨text done w rest, o1, o2⟩ =
        (if done'.length + 1 < intMax then .ended true t else .stopped t) ∧
      (done'.length + 1 < intMax → t.file = text done' w' [])

theorem runs_last (lines : ∀ l ∈ done, IsLine LF l) (room : IsLine LF w)
    (fits : (text done w []).length ≤ intMax) (few : done.length + 1 < intMax) :
    Runs true done w [] done w := by
  refine ⟨1, fun n enough fuel _ o1 o2 => ?_⟩
  obtain ⟨n, rfl⟩ := Nat.exists_eq_add_of_le' enough
  have two : ∀ l ∈ done ++ [w], IsLine LF l :=
    List.forall_mem_append.mpr ⟨lines, List.forall_mem_singleton.mpr room⟩
  obtain ⟨t, missing, same⟩ := getLine_missing (s := ⟨text done w [], o1, o2⟩) .fd1 two
    (by simp [text]) fits (show (done ++ [w]).length < done.length + 2 by simp)
  refine ⟨t, ?_, fun _ => same⟩
  rw [mainLoop, Act.bind_ended missing, if_pos (by decide), if_pos few]
  rfl

/-- A round, and those that follow. -/
theorem runs_round {rest' : List (List UInt8)} {v : List UInt8} (lines : ∀ l ∈ done, IsLine LF l)
    (room : IsLine LF w) (line : IsLine LF r) (fits : (text done w (r :: rest)).length ≤ intMax)
    (few : done.length + 1 < intMax) (longer : (done ++ [r]).length ≤ done'.length)
    (copied : done.flatten ++ (r ++ (w ++ (r ++ rest.flatten)).drop r.length) =
      text (done ++ [r]) v rest')
    (following : (text (done ++ [r]) v rest').length ≤ intMax →
      (done ++ [r]).length + 1 < intMax → Runs true (done ++ [r]) v rest' done' w') :
    Runs need done w (r :: rest) done' w' := by
  have size : (done ++ [r]).length = done.length + 1 := by simp
  have same := length_copied done w r rest
  rw [copied] at same
  have whole : r.length ≤ (text done w (r :: rest)).length := by
    simp only [text, List.flatten_cons, List.length_append]
    omega
  have round (n fuel o1 o2) (enough : r.length ≤ fuel) :
      mainLoop fuel (n + 1) (done.length + 2) (done.length + 1) need
          ⟨text done w (r :: rest), o1, o2⟩ = _ :=
    mainLoop_round lines room line fits enough
  rw [copied] at round
  by_cases small : done.length + 2 < intMax
  · obtain ⟨N, runs⟩ := following (by rw [same]; exact fits) (by rw [size]; exact small)
    refine ⟨N + 1, fun n enough fuel large o1 o2 => ?_⟩
    obtain ⟨n, rfl⟩ := Nat.exists_eq_add_of_le' (Nat.le_trans (Nat.le_add_left 1 N) enough)
    obtain ⟨t, ran, file⟩ := runs n (Nat.le_of_succ_le_succ enough) fuel (by rw [same]; exact large)
      (done.flatten.length + r.length + w.length) (done.flatten.length + r.length)
    rw [size] at ran
    refine ⟨t, ?_, file⟩
    rw [round n fuel o1 o2 (Nat.le_trans whole large), succInt_of_lt small, succInt_of_lt few]
    exact ran
  · refine ⟨1, fun n enough fuel large o1 o2 => ?_⟩
    obtain ⟨n, rfl⟩ := Nat.exists_eq_add_of_le' enough
    have many : ¬ done'.length + 1 < intMax := by omega
    refine ⟨⟨text (done ++ [r]) v rest', done.flatten.length + r.length + w.length,
      done.flatten.length + r.length⟩, ?_, fun few => absurd few many⟩
    rw [round n fuel o1 o2 (Nat.le_trans whole large), if_neg many, succInt, if_neg small]
    rfl

theorem Shifts.runs (shifts : Shifts done w rest done' w') (lines : ∀ l ∈ done, IsLine LF l)
    (room : IsLine LF w) (more : ∀ l ∈ rest, IsLine LF l)
    (fits : (text done w rest).length ≤ intMax) (few : done.length + 1 < intMax)
    (starts : rest = [] → need = true) : Runs need done w rest done' w' := by
  induction shifts generalizing need with
  | last =>
      rw [starts rfl]
      exact runs_last lines room fits few
  | short less rest ih =>
      obtain ⟨line, -⟩ := List.forall_mem_cons.mp more
      have next := List.forall_mem_append.mpr ⟨lines, List.forall_mem_singleton.mpr line⟩
      exact runs_round lines room line fits few rest.length_le (text_short less)
        fun fits few => ih next (room.drop less) more fits few fun _ => rfl
  | long fills rest ih =>
      obtain ⟨line, more⟩ := List.forall_mem_cons.mp more
      have next := List.forall_mem_append.mpr ⟨lines, List.forall_mem_singleton.mpr line⟩
      have inside : _ := line.pos
      have := room.pos
      exact runs_round lines room line fits few rest.length_le (text_long fills)
        fun fits few => ih next (line.drop (by omega)) more fits few fun _ => rfl

/-! ## The end of the file -/

theorem after_lines {t : World} (lines : ∀ l ∈ done, IsLine LF l) (room : IsLine LF w)
    (file : t.file = text done w []) (fits : t.file.length ≤ intMax) :
    after true t = .ended () { t with file := done.flatten } := by
  have flat : t.file = done.flatten ++ w := by rw [file, text, List.flatten_nil, List.append_nil]
  have flat' : t.file = (done ++ [w]).flatten := by rw [flat]; simp
  have two : ∀ l ∈ done ++ [w], IsLine LF l :=
    List.forall_mem_append.mpr ⟨lines, List.forall_mem_singleton.mpr room⟩
  have rows : getRownum t.file 0 = some (done.length + 1) := by
    have few := length_le_flatten two
    rw [← flat'] at few
    rw [flat', getRownum_lines two (by omega), Nat.zero_add, List.length_append,
      List.length_singleton]
  have last : getRowsize (done.length + 1) t.file 0 0 = some w.length := by
    have found := getRowsize_last 0 lines room (by
      rw [Nat.zero_add, ← List.length_append, ← flat]
      exact fits)
    rwa [Nat.zero_add, ← flat] at found
  have total : getFliesize t.file 0 = some t.file.length := by
    rw [getFliesize_eq (by omega), Nat.zero_add]
  have cut : t.file.length - w.length = done.flatten.length := by
    rw [flat, List.length_append, Nat.add_sub_cancel]
  have kept : t.file.take done.flatten.length ++
      List.replicate (done.flatten.length - t.file.length) 0 = done.flatten := by
    have none_ : done.flatten.length - t.file.length = 0 := by omega
    rw [none_, List.replicate_zero, List.append_nil, flat, List.take_left]
  have opened : content t = .ended t.file t := rfl
  rw [after, if_pos rfl, Act.bind_ended opened, total, rows]
  show (Act.ofOption (getRowsize (done.length + 1) t.file 0 0) >>= fun lastrowSize =>
    ftruncate (t.file.length - lastrowSize)) t = _
  rw [last]
  show ftruncate (t.file.length - w.length) t = _
  rw [cut, ftruncate, kept]

theorem after_large {t : World} (large : intMax < t.file.length) :
    after true t = .stopped t := by
  have opened : content t = .ended t.file t := rfl
  rw [after, if_pos rfl, Act.bind_ended opened,
    getFliesize_large (Nat.zero_le _) (by rwa [Nat.zero_add])]
  rfl

/-- A file does not become shorter. -/
def Grows (s t : World) : Prop := s.file.length ≤ t.file.length

theorem grows_read (fd : Fd) : Act.Keeps Grows (read fd) := by
  intro s
  unfold read
  split
  · cases fd with
    | fd1 => exact Nat.le_refl _
    | fd2 => exact Nat.le_refl _
  · exact Nat.le_refl _

theorem grows_write (fd : Fd) (x : UInt8) : Act.Keeps Grows (write fd x) := by
  intro s
  show s.file.length ≤ (writeAt s.file (s.off fd) x).length
  simp only [writeAt, List.length_append, List.length_take, List.length_replicate,
    List.length_cons, List.length_drop]
  omega

theorem grows_getLine (fd : Fd) (want : Nat) : Act.Keeps Grows (getLine fd want) := by
  intro s
  unfold getLine
  split
  · cases fd with
    | fd1 => exact Nat.le_refl _
    | fd2 => exact Nat.le_refl _
  · exact Nat.le_refl _

theorem grows_refl (s : World) : Grows s s := Nat.le_refl _

theorem grows_copyLine (fuel : Nat) : Act.Keeps Grows (copyLine fuel) := by
  induction fuel with
  | zero => exact Act.Keeps.spent grows_refl
  | succ fuel ih =>
      refine Act.Keeps.bind Nat.le_trans (grows_read .fd1) fun byte => ?_
      cases byte with
      | none => exact Act.Keeps.pure grows_refl true
      | some x =>
          refine Act.Keeps.bind Nat.le_trans (grows_write .fd2 x) fun _ => ?_
          split
          · exact Act.Keeps.pure grows_refl false
          · exact ih

theorem grows_mainLoop (fuel n big small : Nat) (need : Bool) :
    Act.Keeps Grows (mainLoop fuel n big small need) := by
  induction n generalizing big small need with
  | zero => exact Act.Keeps.spent grows_refl
  | succ n ih =>
      refine Act.Keeps.bind Nat.le_trans (grows_getLine .fd1 big) fun ret => ?_
      split
      · exact Act.Keeps.pure grows_refl need
      refine Act.Keeps.bind Nat.le_trans (grows_getLine .fd2 small) fun ret => ?_
      split
      · exact Act.Keeps.pure grows_refl need
      refine Act.Keeps.bind Nat.le_trans (grows_copyLine fuel) fun eof => ?_
      split
      · exact Act.Keeps.pure grows_refl true
      refine Act.Keeps.bind Nat.le_trans (Act.Keeps.ofOption grows_refl _) fun big => ?_
      refine Act.Keeps.bind Nat.le_trans (Act.Keeps.ofOption grows_refl _) fun small => ?_
      exact ih big small true

/-! ## The program -/

variable {lines : List (List UInt8)}

/-- The program ends, and the file is without its second line. -/
def Deletes (lines : List (List UInt8)) : Prop :=
  ∃ N, ∀ fuel ≥ N, ∃ t, main fuel (opened lines.flatten) = .ended 0 t ∧
    t.file = (lines.eraseIdx 1).flatten

theorem Shifts.total (shifts : Shifts done w rest done' w') :
    (text done' w' []).length = (text done w rest).length := by
  induction shifts with
  | last => rfl
  | short less _ ih =>
      rw [ih, ← text_short less, length_copied]
  | long fills _ ih =>
      rw [ih, ← text_long fills, length_copied]

/-- What the program comes to. -/
theorem main_of_shifts {first : List UInt8} (line : IsLine LF first) (room : IsLine LF w)
    (more : ∀ l ∈ r :: rest, IsLine LF l) (fits : (text [first] w (r :: rest)).length ≤ intMax)
    (shifts : Shifts [first] w (r :: rest) done' w') :
    ∃ N, ∀ fuel ≥ N, ∃ t, main fuel (opened (text [first] w (r :: rest))) =
        (if done'.length + 1 < intMax then .ended 0 t else .stopped t) ∧
      (done'.length + 1 < intMax → t.file = done'.flatten) := by
  have one : ∀ l ∈ [first], IsLine LF l := List.forall_mem_singleton.mpr line
  have started : Runs false [first] w (r :: rest) done' w' :=
    shifts.runs one room more fits (by show 2 < intMax; decide) (by simp)
  obtain ⟨N, runs⟩ := started
  obtain ⟨lines', room'⟩ := shifts.lines one room more
  refine ⟨max N (text [first] w (r :: rest)).length, fun fuel enough => ?_⟩
  obtain ⟨t, ran, file⟩ := runs fuel (by omega) fuel (by omega) 0 0
  by_cases few : done'.length + 1 < intMax
  · have file := file few
    have fits' : t.file.length ≤ intMax := by
      rw [file, shifts.total]
      exact fits
    rw [if_pos few] at ran
    refine ⟨{ t with file := done'.flatten }, ?_, fun _ => rfl⟩
    rw [if_pos few]
    exact (Act.bind_ended ran).trans (Act.bind_ended (after_lines lines' room' file fits'))
  · rw [if_neg few] at ran
    refine ⟨t, ?_, fun less => absurd less few⟩
    rw [if_neg few]
    exact Act.bind_stopped ran

/-- A file whose size is not an `int` is not counted to its end. -/
theorem not_deletes_large {first : List UInt8} (room : IsLine LF w)
    (large : intMax < (first :: w :: rest).flatten.length) : ¬ Deletes (first :: w :: rest) := by
  intro ⟨N, ends⟩
  obtain ⟨t, ran, file⟩ := ends N (Nat.le_refl N)
  have grows := grows_mainLoop N N 3 2 false (opened (first :: w :: rest).flatten)
  obtain ⟨need, u, looped, behind⟩ := Act.bind_eq_ended.mp ran
  rw [looped] at grows
  have longer : (first :: w :: rest).flatten.length ≤ u.file.length := grows
  cases need with
  | true =>
      obtain ⟨_, v, cut, -⟩ := Act.bind_eq_ended.mp behind
      cases (after_large (Nat.lt_of_lt_of_le large longer)).symm.trans cut
  | false =>
      obtain rfl : u = t := (Outcome.ended.inj behind).2
      have := room.pos
      rw [file] at longer
      simp only [List.eraseIdx_cons_succ, List.eraseIdx_cons_zero, List.flatten_cons,
        List.length_append] at longer
      omega

/-- **Deletion.** The second line is deleted exactly when no later line is shorter, and the size of
the file and the number behind its last line are an `int`. -/
theorem deletes_iff (three : 3 ≤ lines.length) (all : ∀ l ∈ lines, IsLine LF l) :
    Deletes lines ↔ (∀ l ∈ lines.drop 2, (lines.getD 1 []).length ≤ l.length) ∧
      lines.flatten.length ≤ intMax ∧ lines.length < intMax := by
  rcases lines with _ | ⟨first, _ | ⟨w, _ | ⟨r, rest⟩⟩⟩
  · cases three
  · simp at three
  · simp at three
  obtain ⟨line, room, more⟩ : IsLine LF first ∧ IsLine LF w ∧ ∀ l ∈ r :: rest, IsLine LF l := by
    obtain ⟨line, others⟩ := List.forall_mem_cons.mp all
    exact ⟨line, List.forall_mem_cons.mp others⟩
  have whole : (first :: w :: r :: rest).flatten = text [first] w (r :: rest) := by simp [text]
  have without : (first :: w :: r :: rest).eraseIdx 1 = first :: r :: rest := rfl
  show _ ↔ (∀ l ∈ r :: rest, w.length ≤ l.length) ∧ _
  by_cases fits : (first :: w :: r :: rest).flatten.length ≤ intMax
  case neg =>
    exact iff_of_false (not_deletes_large room (Nat.lt_of_not_le fits)) fun good => fits good.2.1
  rw [and_iff_right fits, Deletes, whole, without]
  rw [whole] at fits
  obtain ⟨done', w', shifts⟩ := exists_shifts [first] room more
  obtain ⟨N, ends⟩ := main_of_shifts line room more fits shifts
  have count (long : ∀ l ∈ r :: rest, w.length ≤ l.length) :
      done' = first :: r :: rest ∧ done'.length + 1 = (first :: w :: r :: rest).length := by
    have same := shifts.done_eq long
    rw [same]
    exact ⟨rfl, rfl⟩
  constructor
  · intro ⟨N', deletes⟩
    obtain ⟨t, ran, file⟩ := ends (max N N') (Nat.le_max_left N N')
    obtain ⟨t', ran', file'⟩ := deletes (max N N') (Nat.le_max_right N N')
    by_cases few : done'.length + 1 < intMax
    · rw [if_pos few] at ran
      obtain rfl : t = t' := (Outcome.ended.inj (ran.symm.trans ran')).2
      have lengths := shifts.total
      have sizes := congrArg List.length ((file few).symm.trans file')
      simp only [text, List.flatten_nil, List.append_nil, List.flatten_cons,
        List.length_append] at lengths sizes
      have long := (shifts.room more).2.mp (by omega)
      rw [(count long).2] at few
      exact ⟨long, few⟩
    · rw [if_neg few] at ran
      cases ran.symm.trans ran'
  · intro ⟨long, few⟩
    refine ⟨N, fun fuel enough => ?_⟩
    obtain ⟨t, ran, file⟩ := ends fuel enough
    obtain ⟨same, number⟩ := count long
    rw [number, if_pos few] at ran
    rw [number] at file
    exact ⟨t, ran, by rw [file few, same]⟩

theorem deletes_iff_three : Deletes [[97, LF], [98, LF], [99, LF]] ↔
    (∀ l ∈ [[99, LF]], 2 ≤ l.length) ∧ 6 ≤ intMax ∧ 3 < intMax :=
  deletes_iff (by decide) (by
    intro l mem
    rcases List.mem_cons.mp mem with rfl | mem
    · exact ⟨[97], rfl, by decide⟩
    rcases List.mem_cons.mp mem with rfl | mem
    · exact ⟨[98], rfl, by decide⟩
    obtain rfl := List.mem_singleton.mp mem
    exact ⟨[99], rfl, by decide⟩)

/-- An empty line behind the second one is there twice in the end. -/
theorem deletes_short : ¬ ∀ lines : List (List UInt8), 3 ≤ lines.length →
    (∀ l ∈ lines, IsLine LF l) → Deletes lines := by
  intro deletes
  have line : IsLine LF [120, LF] := ⟨[120], rfl, by decide⟩
  have room : IsLine LF [97, LF] := ⟨[97], rfl, by decide⟩
  have more : ∀ l ∈ [[LF]], IsLine LF l := List.forall_mem_singleton.mpr ⟨[], rfl, by decide⟩
  have shifts : Shifts [[120, LF]] [97, LF] [[LF]] [[120, LF], [LF], [LF]] [LF] :=
    .short (by decide) (.long (by decide) .last)
  obtain ⟨N, ends⟩ := main_of_shifts line room more (by decide) shifts
  obtain ⟨N', ends'⟩ := deletes [[120, LF], [97, LF], [LF]] (by decide)
    (List.forall_mem_cons.mpr ⟨line, List.forall_mem_cons.mpr ⟨room, more⟩⟩)
  obtain ⟨t, ran, file⟩ := ends (max N N') (Nat.le_max_left N N')
  obtain ⟨t', ran', file'⟩ := ends' (max N N') (Nat.le_max_right N N')
  rw [if_pos (by decide)] at ran
  obtain rfl : t = t' := (Outcome.ended.inj (ran.symm.trans ran')).2
  cases (file (by decide)).symm.trans file'

end Shang.Delete
