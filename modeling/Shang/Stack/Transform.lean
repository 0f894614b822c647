import Shang.Lib.CString
import Shang.Lib.Arith
import Shang.Stack.LinkStack

/-!
# From infix to prefix notation

`transform` of `example/transform.c` reads an infix expression from its end. The
operands go to the stack `res`, the operators and the right brackets wait on
`tmp`, and in the end `res` holds the prefix notation, first character on top.

The local variables `data` and `num` are not initialized, so that their first
values are parameters. Fuel bounds the rounds of the inner loops, of which the
two `while (1)` need not end; `none` also stands for a write behind the end of
`buf`.
-/

namespace Shang.Transform

open Shang.Lib Shang.LinkStack

/-! ## The program -/

/-- `isNumber(ch)` -/
def isNumber (ch : UInt8) : Bool := 48 ≤ ch && ch ≤ 57

/-- `isOperator(ch)`: one of `+`, `-`, `*` and `/`. -/
def isOperator (ch : UInt8) : Bool := ch = 43 || ch = 45 || ch = 42 || ch = 47

/-- `isLeft(ch)` -/
def isLeft (ch : UInt8) : Bool := ch = 40

/-- `isRight(ch)` -/
def isRight (ch : UInt8) : Bool := ch = 41

/-- `priority(ch)` -/
def priority (ch : UInt8) : Nat :=
  let ret := 0
  let ret := if ch = 43 ∨ ch = 45 then 1 else ret
  if ch = 42 ∨ ch = 47 then 2 else ret

/-- The stacks and the variables of `transform`. -/
structure Vars where
  res : ByteStack
  tmp : ByteStack
  data : UInt8
  num : UInt8

/-- The `while (1)` for the operator at `end`. -/
def operatorLoop (op : UInt8) : Nat → Vars → Option Vars
  | 0, _ => none
  | fuel + 1, v =>
      let (status, mem) := getTop v.tmp [v.data]
      let v := { v with data := char mem }
      if status ≠ .OK then some { v with tmp := pushStack v.tmp [op] }
      else if priority op < priority v.data then
        let (tmp, _, mem) := popStack v.tmp [v.num]
        let v := { v with tmp := tmp, num := char mem }
        operatorLoop op fuel { v with res := pushStack v.res [v.num] }
      else some { v with tmp := pushStack v.tmp [op] }

/-- The `while (1)` for a left bracket. -/
def bracketLoop : Nat → Vars → Option Vars
  | 0, _ => none
  | fuel + 1, v =>
      let (tmp, _, mem) := popStack v.tmp [v.num]
      let v := { v with tmp := tmp, num := char mem }
      if v.num = 41 then some v
      else bracketLoop fuel { v with res := pushStack v.res [v.num] }

/-- The loop over `end`, for the characters from `ptr` to `end` in the order in which they are
read, with the ones that are left when it ends. -/
def scanLoop (fuel : Nat) : List UInt8 → Vars → Option (Vars × List UInt8)
  | [], v => some (v, [])
  | c :: front, v =>
      if isNumber c then scanLoop fuel front { v with res := pushStack v.res [c] }
      else if isOperator c then (operatorLoop c fuel v).bind (scanLoop fuel front)
      else if isRight c then scanLoop fuel front { v with tmp := pushStack v.tmp [c] }
      else if isLeft c then (bracketLoop fuel v).bind (scanLoop fuel front)
      else some (v, c :: front)

/-- The loop that moves what is left on `tmp`. -/
def flushLoop : Nat → Vars → Option Vars
  | 0, _ => none
  | fuel + 1, v =>
      if emptyStack v.tmp then some v
      else
        let (tmp, _, mem) := popStack v.tmp [v.num]
        let v := { v with tmp := tmp, num := char mem }
        flushLoop fuel { v with res := pushStack v.res [v.num] }

/-- The loop that writes `res` to `buf` from `i` on. -/
def emitLoop : Nat → ByteStack → List UInt8 → Nat → Option (List UInt8)
  | 0, _, _, _ => none
  | fuel + 1, res, buf, i =>
      if emptyStack res then some buf
      else if i < buf.length then
        let (res, _, mem) := popStack res (buf.drop i)
        emitLoop fuel res (buf.take i ++ mem) (i + 1)
      else none

/-- `transform(ptr, buf)` -/
def transform (fuel : Nat) (ptr buf : List UInt8) (data num : UInt8) :
    Option (Int × List UInt8) := do
  let (v, front) ← scanLoop fuel ptr.reverse ⟨initStack 1, initStack 1, data, num⟩
  if front ≠ [] then some (-1, buf)
  else do
    let v ← flushLoop fuel v
    let buf ← emitLoop fuel v.res buf 0
    some (0, buf)

/-! ## The loops on stacks of characters -/

/-- The variables with these characters on the stacks. -/
def vars (res tmp : List UInt8) (data num : UInt8) : Vars := ⟨chars res, chars tmp, data, num⟩

variable {op c data num : UInt8} {R T ops : List UInt8} {fuel : Nat}

theorem operatorLoop_nil :
    operatorLoop op (fuel + 1) (vars R [] data num) = some (vars R [op] data num) := rfl

theorem operatorLoop_moves (binds : priority op < priority c) :
    operatorLoop op (fuel + 1) (vars R (c :: T) data num) =
      operatorLoop op fuel (vars (c :: R) T c c) :=
  if_pos binds

theorem operatorLoop_stops (weak : ¬ priority op < priority c) :
    operatorLoop op (fuel + 1) (vars R (c :: T) data num) =
      some (vars R (op :: c :: T) c num) :=
  if_neg weak

theorem bracketLoop_here :
    bracketLoop (fuel + 1) (vars R (41 :: T) data num) = some (vars R T data 41) := rfl

theorem bracketLoop_moves (other : c ≠ 41) :
    bracketLoop (fuel + 1) (vars R (c :: T) data num) =
      bracketLoop fuel (vars (c :: R) T data c) :=
  if_neg other

theorem bracketLoop_empty (other : num ≠ 41) :
    bracketLoop (fuel + 1) (vars R [] data num) =
      bracketLoop fuel (vars (num :: R) [] data num) :=
  if_neg other

/-- The operator `o` is moved before `op` is pushed. -/
def stronger (op o : UInt8) : Bool := priority op < priority o

/-- The operators above the first one that does not bind more than the new one are moved. -/
theorem operatorLoop_spec (op : UInt8) (R : List UInt8) (data num : UInt8)
    (enough : T.length < fuel) :
    ∃ data', operatorLoop op fuel (vars R T data num) =
      some (vars ((T.takeWhile (stronger op)).reverse ++ R) (op :: T.dropWhile (stronger op)) data'
        ((T.takeWhile (stronger op)).getLastD num)) := by
  induction fuel generalizing R T data num with
  | zero => exact absurd enough (Nat.not_lt_zero _)
  | succ fuel ih =>
      cases T with
      | nil => exact ⟨data, operatorLoop_nil⟩
      | cons c T =>
          by_cases binds : priority op < priority c
          · rw [operatorLoop_moves binds]
            obtain ⟨data', ran⟩ := ih (c :: R) c c (Nat.lt_of_succ_lt_succ enough)
            refine ⟨data', ran.trans ?_⟩
            have strong : stronger op c = true := decide_eq_true binds
            rw [List.takeWhile_cons_of_pos strong, List.dropWhile_cons_of_pos strong,
              List.reverse_cons, List.append_assoc, List.singleton_append, List.getLastD_cons]
          · have weak : ¬ stronger op c = true := by simpa [stronger] using binds
            refine ⟨c, (operatorLoop_stops binds).trans ?_⟩
            rw [List.takeWhile_cons_of_neg weak, List.dropWhile_cons_of_neg weak]
            rfl

/-- Everything above the right bracket is moved, and the bracket is dropped. -/
theorem bracketLoop_closed (R : List UInt8) (data num : UInt8) (plain : 41 ∉ ops)
    (enough : ops.length < fuel) :
    bracketLoop fuel (vars R (ops ++ 41 :: T) data num) =
      some (vars (ops.reverse ++ R) T data 41) := by
  induction ops generalizing R num fuel with
  | nil =>
      obtain ⟨fuel, rfl⟩ : ∃ f, fuel = f + 1 := ⟨fuel - 1, by simp at enough; omega⟩
      exact bracketLoop_here
  | cons o ops ih =>
      rw [List.length_cons] at enough
      obtain ⟨fuel, rfl⟩ : ∃ f, fuel = f + 1 := ⟨fuel - 1, by omega⟩
      rw [List.mem_cons, not_or] at plain
      rw [List.cons_append, bracketLoop_moves (Ne.symm plain.1),
        ih (o :: R) o plain.2 (by omega), List.reverse_cons, List.append_assoc,
        List.singleton_append]

/-- Without a right bracket on the stack the loop goes on for ever, unless the stack is empty
and the bracket of an earlier round is still in `num`. -/
theorem bracketLoop_open (fuel : Nat) (R : List UInt8) (data num : UInt8) (plain : 41 ∉ T)
    (other : T = [] → num ≠ 41) : bracketLoop fuel (vars R T data num) = none := by
  induction fuel generalizing R T num with
  | zero => rfl
  | succ fuel ih =>
      cases T with
      | nil =>
          rw [bracketLoop_empty (other rfl)]
          exact ih _ _ plain other
      | cons c T =>
          rw [List.mem_cons, not_or] at plain
          rw [bracketLoop_moves (Ne.symm plain.1)]
          exact ih _ _ plain.2 fun _ => Ne.symm plain.1

theorem flushLoop_spec (R : List UInt8) (data num : UInt8) (enough : T.length < fuel) :
    flushLoop fuel (vars R T data num) = some (vars (T.reverse ++ R) [] data (T.getLastD num)) := by
  induction fuel generalizing R T num with
  | zero => exact absurd enough (Nat.not_lt_zero _)
  | succ fuel ih =>
      cases T with
      | nil => rfl
      | cons c T =>
          have moves : flushLoop (fuel + 1) (vars R (c :: T) data num) =
              flushLoop fuel (vars (c :: R) T data c) := rfl
          rw [moves, ih _ _ (Nat.lt_of_succ_lt_succ enough), List.reverse_cons, List.append_assoc,
            List.singleton_append, List.getLastD_cons]

theorem emitLoop_cons {buf : List UInt8} {i : Nat} (inside : i < buf.length) :
    emitLoop (fuel + 1) (chars (c :: R)) buf i =
      emitLoop fuel (chars R) (splice buf i [c]) (i + 1) := by
  obtain ⟨b, rest, cut⟩ : ∃ b rest, buf.drop i = b :: rest :=
    List.exists_cons_of_length_pos (by rw [List.length_drop]; omega)
  have one : splice buf i [c] = buf.take i ++ c :: rest := by
    rw [splice, List.length_singleton, ← List.drop_drop, cut, List.append_assoc]
    rfl
  rw [emitLoop, if_neg (by simp), if_pos inside, cut, one]
  rfl

/-- The stack is written to the buffer from the top. -/
theorem emitLoop_spec {buf : List UInt8} {i : Nat} (enough : R.length < fuel)
    (room : i + R.length ≤ buf.length) : emitLoop fuel (chars R) buf i = some (splice buf i R) := by
  induction fuel generalizing R buf i with
  | zero => exact absurd enough (Nat.not_lt_zero _)
  | succ fuel ih =>
      cases R with
      | nil =>
          rw [splice_nil]
          rfl
      | cons c R =>
          rw [List.length_cons] at room enough
          have fits : i + [c].length ≤ buf.length := by
            rw [List.length_singleton]
            omega
          rw [emitLoop_cons (by omega), ih (by omega) (by rw [length_splice fits]; omega)]
          exact congrArg some (splice_splice fits)

/-! ## Well-formed expressions -/

/-- A digit as a character. -/
def digit (n : Fin 10) : UInt8 := UInt8.ofNat (48 + n)

/-- The digit that a character stands for. -/
def digit? (c : UInt8) : Option (Fin 10) :=
  if small : 48 ≤ c.toNat ∧ c.toNat < 58 then some ⟨c.toNat - 48, by omega⟩ else none

/-- Infix notation over digits. -/
def infixGrammar : Grammar UInt8 Arith (Fin 10) where
  literal w n := w = [digit n]
  sym := Arith.char
  prec := Arith.prec
  factor := 2
  opening := 40
  closing := 41

/-- Prefix notation over digits. -/
def prefixForm (t : Expr Arith (Fin 10)) : List UInt8 := t.toPrefix Arith.char digit

theorem priority_char (o : Arith) : priority o.char = o.prec + 1 := by
  cases o <;> rfl

theorem isOperator_char (o : Arith) : isOperator o.char = true ∧ isNumber o.char = false := by
  cases o <;> exact ⟨rfl, rfl⟩

theorem isNumber_digit (n : Fin 10) : isNumber (digit n) = true := by
  revert n
  decide

/-- The operators in an expression of a level bind at least as much, so none of them lets go of
one that waits from before. -/
def Waits (k : Nat) (T : List UInt8) : Prop := ∀ o ∈ T.head?, priority o ≤ k + 1

theorem scanLoop_operator (o : Arith) (front : List UInt8) (v : Vars) :
    scanLoop fuel (o.char :: front) v =
      (operatorLoop o.char fuel v).bind (scanLoop fuel front) := by
  rw [scanLoop, (isOperator_char o).1, (isOperator_char o).2]
  rfl

theorem scanLoop_right (front : List UInt8) :
    scanLoop fuel (41 :: front) (vars R T data num) =
      scanLoop fuel front (vars R (41 :: T) data num) := rfl

theorem scanLoop_left (front : List UInt8) (v : Vars) :
    scanLoop fuel (40 :: front) v = (bracketLoop fuel v).bind (scanLoop fuel front) := rfl

/-- The operators on top bind more than the new one, and the one below them does not. -/
theorem takeWhile_stronger {o : Arith} (above : ∀ x ∈ ops, o.prec + 2 ≤ priority x)
    (waits : Waits o.prec T) :
    (ops ++ T).takeWhile (stronger o.char) = ops ∧ (ops ++ T).dropWhile (stronger o.char) = T := by
  have strong : ∀ x ∈ ops, stronger o.char x = true := by
    intro x mem
    have := above x mem
    rw [stronger, priority_char, decide_eq_true_eq]
    omega
  rw [List.takeWhile_append_of_pos strong, List.dropWhile_append_of_pos strong]
  cases T with
  | nil => simp
  | cons x T =>
      have weak : ¬ stronger o.char x = true := by
        have := waits x rfl
        rw [stronger, priority_char, decide_eq_true_eq]
        omega
      rw [List.takeWhile_cons_of_neg weak, List.dropWhile_cons_of_neg weak, List.append_nil]
      exact ⟨rfl, rfl⟩

/-- Reading an expression moves its prefix form to `res`, except for some of its operators, which
are left on top of `tmp` and would come next in front of it. -/
theorem scanLoop_derives {k : Nat} {w : List UInt8} {t : Expr Arith (Fin 10)}
    (wf : infixGrammar.Derives k w t) (front R : List UInt8) {T : List UInt8} (data num : UInt8)
    (waits : Waits k T) (enough : T.length + w.length < fuel) :
    ∃ ops R' data' num', scanLoop fuel (w.reverse ++ front) (vars R T data num) =
        scanLoop fuel front (vars R' (ops ++ T) data' num') ∧
      (∀ o ∈ ops, k + 1 ≤ priority o) ∧ ops.length ≤ w.length ∧
      ops.reverse ++ R' = prefixForm t ++ R := by
  induction wf generalizing front R T data num with
  | @literal w n word =>
      obtain rfl : w = [digit n] := word
      refine ⟨[], digit n :: R, data, num, ?_, by simp, Nat.zero_le _, rfl⟩
      rw [List.reverse_singleton, List.singleton_append, scanLoop, if_pos (isNumber_digit n)]
      rfl
  | @bracket w t inner ih =>
      simp only [List.length_cons, List.length_append, List.length_nil] at enough
      obtain ⟨ops, R', data', num', ran, above, few, same⟩ :=
        ih (40 :: front) R (T := 41 :: T) data num (fun x top => by cases top; decide)
          (by rw [List.length_cons]; omega)
      have plain : 41 ∉ ops := fun mem => absurd (above 41 mem) (by decide)
      refine ⟨[], prefixForm t ++ R, data', 41, ?_, by simp, Nat.zero_le _, rfl⟩
      have turned : (infixGrammar.opening :: (w ++ [infixGrammar.closing])).reverse ++ front =
          41 :: (w.reverse ++ 40 :: front) := by
        simp [infixGrammar]
      rw [turned, scanLoop_right, ran, scanLoop_left,
        bracketLoop_closed R' data' num' plain (by omega), same]
      rfl
  | @binary o u v l r left right ihl ihr =>
      simp only [List.length_cons, List.length_append] at enough
      obtain ⟨ops, R', data', num', ran, above, few, same⟩ :=
        ihr (o.char :: (u.reverse ++ front)) R data num
          (fun x top => Nat.le_succ_of_le (waits x top)) (by omega)
      obtain ⟨taken, dropped⟩ := takeWhile_stronger (o := o) above waits
      have room : (ops ++ T).length < fuel := by
        rw [List.length_append]
        omega
      obtain ⟨data'', pushed⟩ := operatorLoop_spec o.char R' data' num' room
      rw [taken, dropped, same] at pushed
      obtain ⟨ops', R'', data₃, num₃, ran', above', few', same'⟩ :=
        ihl front (prefixForm r ++ R) (T := o.char :: T) data'' (ops.getLastD num')
          (fun x top => by cases top; exact (priority_char o).le)
          (by rw [List.length_cons]; omega)
      refine ⟨ops' ++ [o.char], R'', data₃, num₃, ?_, fun x mem => ?_, ?_, ?_⟩
      · have turned : (u ++ infixGrammar.sym o :: v).reverse ++ front =
            v.reverse ++ o.char :: (u.reverse ++ front) := by
          simp [infixGrammar]
        rw [turned, ran, scanLoop_operator, pushed, Option.bind_some, ran', List.append_assoc]
        rfl
      · rcases List.mem_append.mp mem with mem | mem
        · exact above' x mem
        · rw [List.mem_singleton.mp mem]
          exact (priority_char o).ge
      · simp only [List.length_append, List.length_cons, List.length_nil]
        omega
      · rw [List.reverse_append, List.reverse_singleton, List.singleton_append, List.cons_append,
          same', prefixForm, prefixForm, prefixForm, Expr.toPrefix, List.cons_append,
          List.append_assoc]
  | weaken _ ih =>
      obtain ⟨ops, R', data', num', ran, above, few, same⟩ :=
        ih front R data num (fun x top => Nat.le_succ_of_le (waits x top)) enough
      exact ⟨ops, R', data', num', ran, fun x mem => Nat.le_of_succ_le (above x mem), few, same⟩

theorem size_le_length {k : Nat} {w : List UInt8} {t : Expr Arith (Fin 10)}
    (wf : infixGrammar.Derives k w t) : t.size ≤ w.length := by
  induction wf with
  | @literal w n word =>
      obtain rfl : w = [digit n] := word
      exact Nat.le_refl 1
  | bracket _ ih =>
      simp only [List.length_cons, List.length_append, List.length_nil]
      omega
  | binary _ _ _ ihl ihr =>
      simp only [Expr.size, List.length_cons, List.length_append]
      omega
  | weaken _ ih => exact ih

/-- `transform` of a well-formed expression writes its prefix form to `buf`. -/
theorem transform_derives {e buf : List UInt8} {t : Expr Arith (Fin 10)}
    (wf : infixGrammar.Derives 0 e t) (room : e.length < buf.length) (data num : UInt8)
    (enough : e.length < fuel) :
    transform fuel e buf data num = some (0, splice buf 0 (prefixForm t)) := by
  have fits : ([] : List UInt8).length + e.length < fuel := by
    rw [List.length_nil]
    omega
  obtain ⟨ops, R, data', num', ran, -, few, same⟩ :=
    scanLoop_derives wf [] [] data num (fun x top => by cases top) fits
  simp only [List.append_nil] at ran same
  have size := size_le_length wf
  have small : (prefixForm t).length = t.size := Expr.length_toPrefix t
  have waiting : ops.length < fuel := by omega
  have flushed := flushLoop_spec R data' num' waiting
  have whole : (prefixForm t).length < fuel := by omega
  have written := emitLoop_spec whole (show 0 + (prefixForm t).length ≤ buf.length by omega)
  rw [same] at flushed
  have start : (⟨initStack 1, initStack 1, data, num⟩ : Vars) = vars [] [] data num := rfl
  rw [transform, start, ran, scanLoop, Option.bind_eq_bind, Option.bind_some]
  simp only [ne_eq, not_true_eq_false, ↓reduceIte, flushed, Option.bind_eq_bind, Option.bind_some]
  simp only [vars, written, Option.bind_some]

/-! ## The prefix form -/

theorem digit?_digit (n : Fin 10) : digit? (digit n) = some n := by
  revert n
  decide

theorem ofChar_digit (n : Fin 10) : Arith.ofChar (digit n) = none := by
  revert n
  decide

/-- Read prefix notation over digits. -/
def readPrefix (s : List UInt8) : Option (Expr Arith (Fin 10) × List UInt8) :=
  parsePrefix Arith.ofChar digit? s.length s

theorem readPrefix_prefixForm (t : Expr Arith (Fin 10)) :
    readPrefix (prefixForm t) = some (t, []) := by
  have size : (prefixForm t).length = t.size := Expr.length_toPrefix t
  have back := parsePrefix_toPrefix Arith.ofChar_char ofChar_digit digit?_digit t [] size.ge
  rwa [List.append_nil] at back

/-- There is no NUL in it. -/
theorem zero_not_mem_prefixForm (t : Expr Arith (Fin 10)) : 0 ∉ prefixForm t := by
  induction t with
  | lit n =>
      intro mem
      have zero := List.mem_singleton.mp mem
      revert n
      decide
  | bin op l r ihl ihr =>
      intro mem
      rcases List.mem_cons.mp mem with zero | mem
      · cases op <;> cases zero
      · rcases List.mem_append.mp mem with mem | mem
        · exact ihl mem
        · exact ihr mem

/-- In a buffer of zeros that is longer than the expression, it ends with a NUL. -/
theorem string_prefixForm {k n : Nat} {e : List UInt8} {t : Expr Arith (Fin 10)}
    (wf : infixGrammar.Derives k e t) (room : e.length < n) :
    cstr (splice (List.replicate n 0) 0 (prefixForm t)) 0 = prefixForm t := by
  have size := size_le_length wf
  have small : (prefixForm t).length = t.size := Expr.length_toPrefix t
  exact cstr_replicate (by omega) (zero_not_mem_prefixForm t)

/-- `transform` translates a well-formed expression: the string in the buffer is its prefix form,
and reading it as prefix notation gives the expression back, with nothing left. -/
theorem transform_prefix {e : List UInt8} {t : Expr Arith (Fin 10)}
    (wf : infixGrammar.Derives 0 e t) {n : Nat} (room : e.length < n) (data num : UInt8)
    (enough : e.length < fuel) :
    ∃ buf, transform fuel e (List.replicate n 0) data num = some (0, buf) ∧
      cstr buf 0 = prefixForm t ∧ readPrefix (cstr buf 0) = some (t, []) := by
  have string := string_prefixForm wf room
  refine ⟨_, transform_derives wf (by rwa [List.length_replicate]) data num enough, string, ?_⟩
  rw [string, readPrefix_prefixForm]

theorem transform_prefix_brackets :
    ∃ buf, transform 8 (ascii "9-(2-1)") (List.replicate 32 0) 7 7 = some (0, buf) ∧
      cstr buf 0 = ascii "-9-21" := by
  have inner : infixGrammar.Derives 0 (ascii "2" ++ Arith.char .sub :: ascii "1")
      (.bin .sub (.lit 2) (.lit 1)) :=
    .binary Arith.sub (.weaken (.weaken (.literal rfl))) (.weaken (.literal rfl))
  have whole := Grammar.Derives.binary (g := infixGrammar) Arith.sub
    (.weaken (.weaken (.literal (w := ascii "9") (n := 9) rfl))) (.weaken (.bracket inner))
  obtain ⟨buf, ran, string, -⟩ :=
    transform_prefix (e := ascii "9-(2-1)") whole (n := 32) (by decide) 7 7 (show _ < 8 by decide)
  exact ⟨buf, ran, string⟩

end Shang.Transform
