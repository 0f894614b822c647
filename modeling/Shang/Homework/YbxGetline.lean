import Shang.Lib.Lines

/-!
# A line reader that reads twice

`ybx_getline` counts the bytes up to the newline, makes room for them, goes back and has
`fgets` read them again. It returns -1 when the file ends before the newline, and what it
has counted by then is lost.
-/

namespace Shang.YbxGetline

open Lib

/-- `'\n'` -/
def LF : UInt8 := 10

def LEN : Nat := 120

/-- The bytes of the file, the position of the stream, `*lineptr` and `*n`. -/
structure World where
  file : List UInt8
  pos : Nat
  lineptr : Option (List UInt8)
  n : Nat

/-- The first loop, with these bytes left in the file: `ret`, or nothing at the end of the file.
The outer level is for an `int` that overflows. -/
def scan : List UInt8 → Nat → Option (Option Nat)
  | [], _ => some none
  | tmp :: bytes, ret => do
      let ret ← succInt ret
      if tmp = LF then some (some ret) else scan bytes ret

/-- `realloc(buf, n)` with `LEN` more bytes. Nothing is known of them. -/
def enlarge (fresh : Nat → UInt8) (buf : List UInt8) (n : Nat) : List UInt8 :=
  buf ++ (List.range LEN).map fun i => fresh (n + i)

/-- The second loop, up to where the buffer is large enough. -/
def grow (fresh : Nat → UInt8) (ret : Nat) (buf : List UInt8) (n : Nat) : List UInt8 × Nat :=
  if ret < n then (buf, n) else grow fresh ret (enlarge fresh buf n) (n + LEN)
termination_by ret + 1 - n
decreasing_by
  unfold LEN
  omega

/-- The bytes that `fgets` reads when there is room for as many. -/
def line : Nat → List UInt8 → List UInt8
  | 0, _ => []
  | _ + 1, [] => []
  | m + 1, x :: bytes => x :: if x = LF then [] else line m bytes

/-- `fgets(buf, n, stream)`, with `n` as an `int`. The buffer is as it was if there are no bytes
to read. -/
def fgets (buf : List UInt8) (n : Nat) (bytes : List UInt8) : Option (List UInt8 × Nat) :=
  if intMax < n then none
  else
    let read := line (n - 1) bytes
    if read = [] then some (buf, 0)
    else some (read ++ 0 :: buf.drop (read.length + 1), read.length)

/-- `*lineptr` and `*n` when there is a buffer. -/
def World.buffer (fresh : Nat → UInt8) (s : World) : List UInt8 × Nat :=
  match s.lineptr with
  | none => ((List.range LEN).map fresh, LEN)
  | some buf => (buf, s.n)

/-- `ybx_getline`; `fresh` has what is in memory that was not used before. -/
def ybxGetline (fresh : Nat → UInt8) (s : World) : Option (Int × World) := do
  let (buf, n) := s.buffer fresh
  match ← scan (s.file.drop s.pos) 0 with
  | none => some (-1, ⟨s.file, s.file.length, some buf, n⟩)
  | some ret =>
      let (buf, n) := grow fresh ret buf n
      let pos := s.pos + ret - ret
      let (buf, read) ← fgets buf n (s.file.drop pos)
      some (ret, ⟨s.file, pos + read, some buf, n⟩)

/-- The file is open, and there is no buffer. -/
def opened (file : List UInt8) : World := ⟨file, 0, none, 0⟩

/-- One call after the other returns the length of one of the lines, which is in the buffer then
with a NUL behind it, and the last call returns -1. -/
def Reads (fresh : Nat → UInt8) : List (List UInt8) → World → Prop
  | [], s => ∃ t, ybxGetline fresh s = some (-1, t)
  | l :: ls, s => ∃ t buf, ybxGetline fresh s = some ((l.length : Int), t) ∧ t.lineptr = some buf ∧
      buf.length = t.n ∧ l ++ [0] <+: buf ∧ Reads fresh ls t

variable {fresh : Nat → UInt8} {body bytes buf l rest : List UInt8} {n m ret : Nat} {s t : World}

/-! ## The loops -/

/-- The bytes up to the newline are counted, as long as their number is an `int`. -/
theorem scan_body (plain : LF ∉ body) (small : ret ≤ intMax) : scan (body ++ LF :: rest) ret =
    if ret + body.length < intMax then some (some (ret + body.length + 1)) else none := by
  induction body generalizing ret with
  | nil =>
      show scan (LF :: rest) ret = if ret < intMax then some (some (ret + 1)) else none
      rw [scan, succInt]
      by_cases more : ret < intMax
      · rw [if_pos more, if_pos more, Option.bind_eq_bind, Option.bind_some, if_pos rfl]
      · rw [if_neg more, if_neg more]
        rfl
  | cons x body ih =>
      obtain ⟨other, plain⟩ := not_or.mp (List.mem_cons.not.mp plain)
      rw [List.cons_append, scan, succInt, List.length_cons]
      by_cases more : ret < intMax
      · have size : ret + 1 + body.length = ret + (body.length + 1) := by omega
        rw [if_pos more, Option.bind_eq_bind, Option.bind_some, if_neg (Ne.symm other),
          ih plain more, size]
      · rw [if_neg more, if_neg (by omega)]
        rfl

theorem scan_line (isLine : IsLine LF l) (rest : List UInt8) :
    scan (l ++ rest) 0 = if l.length ≤ intMax then some (some l.length) else none := by
  obtain ⟨body, rfl, plain⟩ := isLine
  rw [List.append_assoc, List.singleton_append, scan_body plain (Nat.zero_le _), Nat.zero_add,
    List.length_append, List.length_singleton]
  rfl

/-- Without a newline there is no line. -/
theorem scan_open (plain : LF ∉ body) : scan body ret = none ∨ scan body ret = some none := by
  induction body generalizing ret with
  | nil => exact .inr rfl
  | cons x body ih =>
      obtain ⟨other, plain⟩ := not_or.mp (List.mem_cons.not.mp plain)
      rw [scan, succInt]
      split
      · rw [Option.bind_eq_bind, Option.bind_some, if_neg (Ne.symm other)]
        exact ih plain
      · exact .inl rfl

/-- `fgets` reads a line that there is room for. -/
theorem line_body (plain : LF ∉ body) (room : body.length < m) :
    line m (body ++ LF :: rest) = body ++ [LF] := by
  induction body generalizing m with
  | nil =>
      obtain ⟨m, rfl⟩ := Nat.exists_eq_add_of_le' room
      exact congrArg _ (if_pos rfl)
  | cons x body ih =>
      obtain ⟨other, plain⟩ := not_or.mp (List.mem_cons.not.mp plain)
      obtain ⟨m, rfl⟩ := Nat.exists_eq_add_of_le' (Nat.zero_lt_of_lt room)
      rw [List.cons_append, line, if_neg (Ne.symm other), ih plain (Nat.lt_of_succ_lt_succ room),
        List.cons_append]

theorem line_line (isLine : IsLine LF l) (room : l.length ≤ m) : line m (l ++ rest) = l := by
  obtain ⟨body, rfl, plain⟩ := isLine
  rw [List.length_append, List.length_singleton] at room
  rw [List.append_assoc, List.singleton_append, line_body plain room]

/-- What `grow` comes to: the buffer is large enough, and not by more than `LEN`. -/
structure Grown (ret n : Nat) (r : List UInt8 × Nat) : Prop where
  length : r.1.length = r.2
  room : ret < r.2
  step : LEN ∣ r.2
  least : r.2 = n ∨ r.2 ≤ ret + LEN

theorem grown (fresh : Nat → UInt8) (ret : Nat) (length : buf.length = n) (step : LEN ∣ n) :
    Grown ret n (grow fresh ret buf n) := by
  induction buf, n using grow.induct fresh ret with
  | case1 buf n enough =>
      rw [grow, if_pos enough]
      exact ⟨length, enough, step, .inl rfl⟩
  | case2 buf n more ih =>
      have longer : (enlarge fresh buf n).length = n + LEN := by
        rw [enlarge, List.length_append, List.length_map, List.length_range, length]
      obtain ⟨length, room, step', least⟩ := ih longer (Nat.dvd_add step (Nat.dvd_refl LEN))
      rw [grow, if_neg more]
      refine ⟨length, room, step', .inr ?_⟩
      rcases least with same | bound
      · omega
      · exact bound

/-! ## A call -/

/-- The largest size of a buffer that is an `int`. -/
def largest : Nat := 2147483640

/-- The buffer between calls: it has the size that is known of it. -/
structure Ready (s : World) : Prop where
  length : ∀ buf, s.lineptr = some buf → buf.length = s.n
  step : ∀ buf, s.lineptr = some buf → LEN ∣ s.n
  small : ∀ buf, s.lineptr = some buf → s.n ≤ largest

/-- A line that is read, and the stream behind it. -/
structure ReadLine (fresh : Nat → UInt8) (s : World) (l : List UInt8) (t : World) : Prop where
  call : ybxGetline fresh s = some ((l.length : Int), t)
  buffer : ∃ buf, t.lineptr = some buf ∧ buf.length = t.n ∧ l ++ [0] <+: buf
  ready : Ready t
  file : t.file = s.file
  pos : t.pos = s.pos + l.length

theorem ybxGetline_eof (fresh : Nat → UInt8) (none_ : scan (s.file.drop s.pos) 0 = some none) :
    ∃ t, ybxGetline fresh s = some (-1, t) := by
  rw [ybxGetline, none_]
  exact ⟨_, rfl⟩

theorem ybxGetline_stuck (none_ : scan (s.file.drop s.pos) 0 = none) :
    ybxGetline fresh s = none := by
  rw [ybxGetline, none_]
  rfl

theorem Ready.buffer (ready : Ready s) (fresh : Nat → UInt8) :
    (s.buffer fresh).1.length = (s.buffer fresh).2 ∧ LEN ∣ (s.buffer fresh).2 ∧
      (s.buffer fresh).2 ≤ largest := by
  unfold World.buffer
  cases given : s.lineptr with
  | none =>
      have small : LEN ≤ largest := by decide
      exact ⟨by simp, Nat.dvd_refl LEN, small⟩
  | some buf => exact ⟨ready.length buf given, ready.step buf given, ready.small buf given⟩

/-- Where the file goes on with a line, it is for `fgets` to read it again. -/
theorem ybxGetline_line {n' : Nat} {buf' : List UInt8} (here : s.file.drop s.pos = l ++ rest)
    (isLine : IsLine LF l) (fits : l.length ≤ intMax) (given : s.buffer fresh = (buf, n))
    (grows : grow fresh l.length buf n = (buf', n')) : ybxGetline fresh s =
      (fgets buf' n' (l ++ rest)).map fun r =>
        ((l.length : Int), ⟨s.file, s.pos + r.2, some r.1, n'⟩) := by
  rw [ybxGetline, here, scan_line isLine, if_pos fits, given]
  show ((fgets (grow fresh l.length buf n).1 (grow fresh l.length buf n).2
    (s.file.drop (s.pos + l.length - l.length))).bind _) = _
  rw [grows, Nat.add_sub_cancel, here]
  cases fgets buf' n' (l ++ rest) with
  | none => rfl
  | some r => rfl

/-- A line that is not too long is read. -/
theorem exists_readLine (fresh : Nat → UInt8) (ready : Ready s)
    (here : s.file.drop s.pos = l ++ rest) (isLine : IsLine LF l) (short : l.length < largest) :
    ∃ t, ReadLine fresh s l t := by
  have room : largest ≤ intMax := by decide
  rcases given : s.buffer fresh with ⟨buf, n⟩
  obtain ⟨length, step, small⟩ := ready.buffer fresh
  rw [given] at length step small
  rcases grows : grow fresh l.length buf n with ⟨buf', n'⟩
  have grown := grown fresh l.length length step
  rw [grows] at grown
  obtain ⟨length', large, step', least⟩ := grown
  dsimp only at length step small length' large step' least
  have small' : n' ≤ largest := by
    obtain ⟨k, rfl⟩ := step'
    unfold LEN largest at *
    omega
  have some_ : l ≠ [] := List.ne_nil_of_length_pos isLine.pos
  have read : fgets buf' n' (l ++ rest) = some (l ++ 0 :: buf'.drop (l.length + 1), l.length) := by
    rw [fgets, if_neg (by omega), line_line isLine (by omega)]
    exact if_neg some_
  have called := ybxGetline_line here isLine (by omega) given grows
  rw [read] at called
  have size : (l ++ 0 :: buf'.drop (l.length + 1)).length = n' := by
    rw [List.length_append, List.length_cons, List.length_drop]
    omega
  refine ⟨_, called, ⟨_, rfl, size, ?_⟩, ⟨?_, ?_, ?_⟩, rfl, rfl⟩
  · exact ⟨buf'.drop (l.length + 1), by simp⟩
  · rintro buf ⟨⟩
    exact size
  · exact fun _ _ => step'
  · exact fun _ _ => small'

/-- For a line that is too long `n` is not an `int`. -/
theorem ybxGetline_long (fresh : Nat → UInt8) (ready : Ready s)
    (here : s.file.drop s.pos = l ++ rest) (isLine : IsLine LF l) (long : largest ≤ l.length) :
    ybxGetline fresh s = none := by
  by_cases fits : l.length ≤ intMax
  case neg =>
    apply ybxGetline_stuck
    rw [here, scan_line isLine, if_neg fits]
  rcases given : s.buffer fresh with ⟨buf, n⟩
  obtain ⟨length, step, -⟩ := ready.buffer fresh
  rw [given] at length step
  rcases grows : grow fresh l.length buf n with ⟨buf', n'⟩
  have grown := grown fresh l.length length step
  rw [grows] at grown
  obtain ⟨-, large, ⟨k, rfl⟩, -⟩ := grown
  have beyond : intMax < LEN * k := by
    unfold LEN largest intMax at *
    omega
  rw [ybxGetline_line here isLine fits given grows, fgets, if_pos beyond]
  rfl

/-! ## The whole file -/

theorem reads_iff_of_ready (ready : Ready s) :
    Reads fresh (linesOf LF (s.file.drop s.pos)) s ↔
      ∀ l ∈ linesOf LF (s.file.drop s.pos), IsLine LF l ∧ l.length < largest := by
  induction size : (s.file.drop s.pos).length using Nat.strongRecOn generalizing s with
  | ind size' ih =>
      rcases exists_line LF (s.file.drop s.pos) with
        none_ | ⟨some_, plain⟩ | ⟨l, rest, here, isLine⟩
      · rw [none_]
        refine iff_of_true (ybxGetline_eof fresh ?_) (List.forall_mem_nil _)
        rw [none_]
        rfl
      · rw [linesOf_open some_ plain]
        refine iff_of_false ?_ fun all => ?_
        · intro ⟨t, buf, called, _⟩
          rcases scan_open plain with none_ | none_
          · cases (ybxGetline_stuck none_).symm.trans called
          · obtain ⟨u, eof⟩ := ybxGetline_eof fresh none_
            cases eof.symm.trans called
        · obtain ⟨⟨body, split, -⟩, -⟩ := all _ (List.mem_singleton_self _)
          rw [split] at plain
          exact plain (List.mem_append_right _ (List.mem_singleton_self LF))
      · rw [here, linesOf_line isLine, List.forall_mem_cons, and_iff_right isLine]
        by_cases short : l.length < largest
        case neg =>
          have stuck := ybxGetline_long fresh ready here isLine (Nat.le_of_not_lt short)
          refine iff_of_false ?_ fun all => short all.1
          intro ⟨t, buf, called, _⟩
          cases stuck.symm.trans called
        obtain ⟨t, called, buffer, ready', file, pos⟩ := exists_readLine fresh ready here isLine
          short
        have behind : t.file.drop t.pos = rest := by
          rw [file, pos, ← List.drop_drop, here, List.drop_left]
        have less : (t.file.drop t.pos).length < size' := by
          have := isLine.pos
          rw [← size, here, behind, List.length_append]
          omega
        have others := ih _ less ready' rfl
        rw [behind] at others
        rw [and_iff_right short, ← others]
        constructor
        · intro ⟨u, buf, called', _, _, _, reads⟩
          obtain rfl : t = u := congrArg Prod.snd (Option.some.inj (called.symm.trans called'))
          exact reads
        · intro reads
          obtain ⟨buf, given, length, holds⟩ := buffer
          exact ⟨t, buf, called, given, length, holds, reads⟩

theorem ready_opened (file : List UInt8) : Ready (opened file) where
  length _ given := by cases given
  step _ given := by cases given
  small _ given := by cases given

/-- The calls return the lines of the file, which are the whole file. -/
def ReadsLines (fresh : Nat → UInt8) (file : List UInt8) : Prop :=
  (linesOf LF file).flatten = file ∧ Reads fresh (linesOf LF file) (opened file)

/-- **Lines.** A file is read line by line exactly when it has a newline at its end, or nothing at
all, and no line is so long that the size of its buffer is not an `int`. -/
theorem readsLines_iff (fresh : Nat → UInt8) (file : List UInt8) :
    ReadsLines fresh file ↔ (file = [] ∨ file.getLast? = some LF) ∧
      ∀ l ∈ linesOf LF file, l.length < largest := by
  have reads : Reads fresh (linesOf LF file) (opened file) ↔ _ :=
    reads_iff_of_ready (ready_opened file)
  rw [ReadsLines, and_iff_right (flatten_linesOf LF file), reads, forall₂_and,
    ← forall_isLine_linesOf]
  rfl

/-- A last line without a newline is not returned. -/
theorem readsLines_open : ¬ ∀ (fresh : Nat → UInt8) (file : List UInt8), ReadsLines fresh file := by
  intro reads
  obtain ⟨-, t, buf, called, -⟩ := reads (fun _ => 0) [97]
  have eof : scan ((opened [97]).file.drop (opened [97]).pos) 0 = some none := by decide
  obtain ⟨u, eof⟩ := ybxGetline_eof (fun _ => 0) eof
  cases eof.symm.trans called

end Shang.YbxGetline
