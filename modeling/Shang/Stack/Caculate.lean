import Shang.Stack.TransformEnds

/-!
# Prefix evaluation

`caculate` of `example/transform.c` reads a prefix expression from its end and
keeps values on a stack of `sizeof(char)`. So of an `int` that is pushed only the
low byte is stored, and an operand is popped into a `char`. The last value is
popped into the variable it was pushed from, of which it replaces the low byte,
so that the result of the outermost operator is returned as it is.

The first values of the local variables are parameters. `none` stands for a call
of `exit`, and for an operation whose result is undefined.
-/

namespace Shang.Caculate

open Shang.Lib Shang.LinkStack
open Shang.Transform (isNumber isOperator isNumber_digit isOperator_char digit infixGrammar
  prefixForm transform transform_derives transform_mono string_prefixForm)

/-! ## The program -/

/-- `cal_num(op, left, right)` -/
def calNum (op : UInt8) (left right : Int) : Option Int :=
  match op with
  | 43 => Arith.add.apply left right
  | 45 => Arith.sub.apply left right
  | 42 => Arith.mul.apply left right
  | 47 => Arith.div.apply left right
  | _ => none

/-- The stack and the variables of `caculate`. -/
structure Vars where
  res : ByteStack
  tmp : Int
  left : UInt8
  right : UInt8

/-- The loop over `i`, for the characters up to `i` in the order in which they are read, with the
ones that are left when it ends. -/
def evalLoop : List UInt8 → Vars → Option (Vars × List UInt8)
  | [], v => some (v, [])
  | c :: front, v =>
      if isNumber c then
        let v := { v with tmp := c.toNat - 48 }
        evalLoop front { v with res := pushStack v.res (intBytes v.tmp) }
      else if isOperator c then
        if emptyStack v.res then some (v, c :: front)
        else
          let (res, _, mem) := popStack v.res [v.left]
          let v := { v with res := res, left := char mem }
          if emptyStack v.res then some (v, c :: front)
          else
            let (res, _, mem) := popStack v.res [v.right]
            let v := { v with res := res, right := char mem }
            (calNum c (signed v.left) (signed v.right)).bind fun tmp =>
              let v := { v with tmp := tmp }
              evalLoop front { v with res := pushStack v.res (intBytes v.tmp) }
      else some (v, c :: front)

/-- `caculate(ptr)` -/
def caculate (ptr : List UInt8) (tmp : Int) (left right : UInt8) : Option Int := do
  let (v, front) ← evalLoop ptr.reverse ⟨initStack 1, tmp, left, right⟩
  if front = [] ∧ ¬ emptyStack v.res then
    let (res, _, mem) := popStack v.res (intBytes v.tmp)
    if emptyStack res then some (intOfBytes mem) else none
  else none

/-! ## Values -/

/-- The value of an expression over digits. -/
def value (t : Expr Arith (Fin 10)) : Option Int := t.eval Arith.apply fun n => some (n.val : Int)

/-- The value when the operands go through a `signed char`. -/
def truncated (t : Expr Arith (Fin 10)) : Option Int :=
  t.eval (fun op x y => op.apply (Int.bmod x 256) (Int.bmod y 256)) fun n => some (n.val : Int)

/-- The values of a `signed char`. -/
def IsChar (x : Int) : Prop := -128 ≤ x ∧ x ≤ 127

/-- Reducing the operands changes the quotient by a multiple of 256 at most. -/
def QuotientFits (x y : Int) : Prop :=
  y.bmod 256 ≠ 0 ∧ ((x.bmod 256).tdiv (y.bmod 256)).bmod 256 = (x.tdiv y).bmod 256

/-- This is so for every division in the expression. -/
def DivisionsFit : Expr Arith (Fin 10) → Prop
  | .lit _ => True
  | .bin op l r => DivisionsFit l ∧ DivisionsFit r ∧
      (op = .div → ∀ x ∈ value l, ∀ y ∈ value r, QuotientFits x y)

/-- The outermost operator has the same result on operands that were reduced to a `signed char`. -/
def OutermostFits : Expr Arith (Fin 10) → Prop
  | .lit _ => True
  | .bin op l r => ∀ x ∈ value l, ∀ y ∈ value r,
      op.result (x.bmod 256) (y.bmod 256) = op.result x y

variable {t : Expr Arith (Fin 10)} {x y v tmp : Int} {left right : UInt8} {cs front : List UInt8}

theorem calNum_char (op : Arith) : calNum op.char x y = op.apply x y := by
  cases op <;> rfl

theorem truncated_bin (op : Arith) (l r : Expr Arith (Fin 10)) :
    truncated (.bin op l r) = (truncated l).bind fun x => (truncated r).bind fun y =>
      op.apply (x.bmod 256) (y.bmod 256) := rfl

theorem value_bin (op : Arith) (l r : Expr Arith (Fin 10)) :
    value (.bin op l r) = (value l).bind fun x => (value r).bind fun y => op.apply x y := rfl

theorem isInt_of_truncated (defined : truncated t = some x) : IsInt x := by
  cases t with
  | lit n =>
      obtain rfl := Option.some.inj defined
      have small := n.isLt
      exact ⟨by omega, by omega⟩
  | bin op l r =>
      rw [truncated_bin, Option.bind_eq_some_iff] at defined
      obtain ⟨a, -, defined⟩ := defined
      obtain ⟨b, -, defined⟩ := Option.bind_eq_some_iff.mp defined
      exact Arith.isInt_of_apply defined

/-! ## What the loop computes -/

theorem evalLoop_digit (n : Fin 10) :
    evalLoop (digit n :: front) ⟨chars cs, tmp, left, right⟩ =
      evalLoop front ⟨chars (byte n :: cs), n, left, right⟩ := by
  have number : ((digit n).toNat : Int) - 48 = (n.val : Int) := by
    revert n
    decide
  rw [evalLoop, if_pos (isNumber_digit n)]
  dsimp only
  rw [number]
  rfl

/-- The operand pushed last is the left one. -/
theorem evalLoop_operator (op : Arith) :
    evalLoop (op.char :: front) ⟨chars (byte x :: byte y :: cs), tmp, left, right⟩ =
      (op.apply (x.bmod 256) (y.bmod 256)).bind fun z =>
        evalLoop front ⟨chars (byte z :: cs), z, byte x, byte y⟩ := by
  rw [evalLoop, (isOperator_char op).1, (isOperator_char op).2, ← signed_byte, ← signed_byte,
    ← calNum_char]
  rfl

/-- Reading a prefix expression pushes the low byte of its value. -/
theorem evalLoop_prefixForm (t : Expr Arith (Fin 10)) (front cs : List UInt8) (tmp : Int)
    (left right : UInt8) :
    ∃ left' right', evalLoop ((prefixForm t).reverse ++ front) ⟨chars cs, tmp, left, right⟩ =
      (truncated t).bind fun x => evalLoop front ⟨chars (byte x :: cs), x, left', right'⟩ := by
  induction t generalizing front cs tmp left right with
  | lit n => exact ⟨left, right, evalLoop_digit n⟩
  | bin op l r ihl ihr =>
      have turned : (prefixForm (.bin op l r)).reverse ++ front =
          (prefixForm r).reverse ++ ((prefixForm l).reverse ++ op.char :: front) := by
        simp [prefixForm, Expr.toPrefix]
      obtain ⟨left₁, right₁, ran⟩ :=
        ihr ((prefixForm l).reverse ++ op.char :: front) cs tmp left right
      rw [turned, ran, truncated_bin]
      cases truncated r with
      | none => exact ⟨left₁, right₁, by cases truncated l <;> rfl⟩
      | some y =>
          obtain ⟨left₂, right₂, ran⟩ := ihl (op.char :: front) (byte y :: cs) y left₁ right₁
          rw [Option.bind_some, ran]
          cases truncated l with
          | none => exact ⟨left₂, right₂, rfl⟩
          | some x => exact ⟨byte x, byte y, evalLoop_operator op⟩

theorem caculate_prefixForm (t : Expr Arith (Fin 10)) (tmp : Int) (left right : UInt8) :
    caculate (prefixForm t) tmp left right = truncated t := by
  obtain ⟨left', right', ran⟩ := evalLoop_prefixForm t [] [] tmp left right
  rw [List.append_nil] at ran
  rw [caculate, initStack_chars, ran]
  cases whole : truncated t with
  | none => rfl
  | some x =>
      have low : overwrite (intBytes x) [byte x] = intBytes x := rfl
      have back := intOfBytes_intBytes (isInt_of_truncated whole)
      rw [← low] at back
      exact congrArg some back

/-! ## When the truncation does no harm -/

theorem isChar_bmod (x : Int) : IsChar (x.bmod 256) := by
  have reduced := Int.bmod_def x 256
  constructor <;> omega

theorem bmod_of_isChar (small : IsChar x) : x.bmod 256 = x := by
  obtain ⟨low, high⟩ := small
  exact Int.bmod_eq_of_le (by omega) (by omega)

/-- Operands that are values of a `signed char` are not changed. -/
theorem quotientFits_of_isChar (small : IsChar x) (small' : IsChar y) (nonzero : y ≠ 0) :
    QuotientFits x y := by
  rw [QuotientFits, bmod_of_isChar small, bmod_of_isChar small']
  exact ⟨nonzero, rfl⟩

/-- No operation on values of a `signed char` overflows. -/
theorem apply_of_isChar {op : Arith} (small : IsChar x) (small' : IsChar y)
    (defined : ¬ (op = .div ∧ y = 0)) : op.apply x y = some (op.result x y) := by
  obtain ⟨lowX, highX⟩ := small
  obtain ⟨lowY, highY⟩ := small'
  have small : (op.result x y).natAbs ≤ 16384 := by
    cases op with
    | add =>
        change (x + y).natAbs ≤ _
        omega
    | sub =>
        change (x - y).natAbs ≤ _
        omega
    | mul =>
        change (x * y).natAbs ≤ _
        rw [Int.natAbs_mul]
        exact Nat.mul_le_mul (show x.natAbs ≤ 128 by omega) (show y.natAbs ≤ 128 by omega)
    | div =>
        have quotient := Int.natAbs_tdiv_le_natAbs x y
        change (x.tdiv y).natAbs ≤ _
        omega
  have int : IsInt (op.result x y) := ⟨by omega, by omega⟩
  exact if_neg (not_or.mpr ⟨defined, not_not.mpr int⟩)

/-- Reducing the operands changes the result by a multiple of 256. -/
theorem result_bmod {op : Arith} (fits : op = .div → QuotientFits x y) :
    (op.result (x.bmod 256) (y.bmod 256)).bmod 256 = (op.result x y).bmod 256 := by
  cases op with
  | add => exact (Int.add_bmod x y 256).symm
  | sub => exact (Int.sub_bmod x y 256).symm
  | mul => exact (Int.mul_bmod x y 256).symm
  | div => exact (fits rfl).2

theorem result_of_apply {op : Arith} (defined : op.apply x y = some v) : op.result x y = v := by
  unfold Arith.apply at defined
  split at defined
  · cases defined
  · exact Option.some.inj defined

/-- An operator on operands with values. -/
theorem value_bin_eq_some {op : Arith} {l r : Expr Arith (Fin 10)}
    (defined : value (.bin op l r) = some v) :
    ∃ x y, value l = some x ∧ value r = some y ∧ op.apply x y = some v := by
  rw [value_bin] at defined
  obtain ⟨x, leftEq, defined⟩ := Option.bind_eq_some_iff.mp defined
  obtain ⟨y, rightEq, defined⟩ := Option.bind_eq_some_iff.mp defined
  exact ⟨x, y, leftEq, rightEq, defined⟩

/-- An operator on operands of which only multiples of 256 were lost. -/
theorem truncated_bin_eq {op : Arith} {l r : Expr Arith (Fin 10)} {a b : Int}
    (fits : op = .div → QuotientFits x y) (leftRan : truncated l = some a)
    (rightRan : truncated r = some b) (leftLow : a.bmod 256 = x.bmod 256)
    (rightLow : b.bmod 256 = y.bmod 256) :
    truncated (.bin op l r) = some (op.result (x.bmod 256) (y.bmod 256)) := by
  rw [truncated_bin, leftRan, rightRan, Option.bind_some, Option.bind_some, leftLow, rightLow]
  exact apply_of_isChar (isChar_bmod x) (isChar_bmod y) fun zero => (fits zero.1).1 zero.2

/-- If the divisions fit, only multiples of 256 are lost. -/
theorem truncated_bmod (fits : DivisionsFit t) (defined : value t = some v) :
    ∃ w, truncated t = some w ∧ w.bmod 256 = v.bmod 256 := by
  induction t generalizing v with
  | lit n => exact ⟨v, defined, rfl⟩
  | bin op l r ihl ihr =>
      obtain ⟨fitsL, fitsR, divides⟩ := fits
      obtain ⟨x, y, leftEq, rightEq, applied⟩ := value_bin_eq_some defined
      obtain ⟨a, leftRan, leftLow⟩ := ihl fitsL leftEq
      obtain ⟨b, rightRan, rightLow⟩ := ihr fitsR rightEq
      have quotient := fun isDiv => divides isDiv x leftEq y rightEq
      refine ⟨_, truncated_bin_eq quotient leftRan rightRan leftLow rightLow, ?_⟩
      rw [← result_of_apply applied]
      exact result_bmod quotient

/-- Then the value is right if and only if the outermost operator does not lose any. -/
theorem truncated_eq_iff (fits : DivisionsFit t) (defined : value t = some v) :
    truncated t = some v ↔ OutermostFits t := by
  cases t with
  | lit n => exact iff_of_true defined trivial
  | bin op l r =>
      obtain ⟨fitsL, fitsR, divides⟩ := fits
      obtain ⟨x, y, leftEq, rightEq, applied⟩ := value_bin_eq_some defined
      obtain ⟨a, leftRan, leftLow⟩ := truncated_bmod fitsL leftEq
      obtain ⟨b, rightRan, rightLow⟩ := truncated_bmod fitsR rightEq
      have quotient := fun isDiv => divides isDiv x leftEq y rightEq
      rw [truncated_bin_eq quotient leftRan rightRan leftLow rightLow, ← result_of_apply applied,
        Option.some_inj, OutermostFits, leftEq, rightEq]
      simp only [Option.mem_some_iff, forall_eq']

/-- For a well-formed expression with a value whose divisions fit, `caculate` returns that value
for what `transform` wrote if and only if reducing the operands of the outermost operator does not
change its result. -/
theorem caculate_transform {e buf : List UInt8} {fuel n : Nat} {data num : UInt8}
    (wf : infixGrammar.Derives 0 e t) (defined : value t = some v) (room : e.length < n)
    (ran : transform fuel e (List.replicate n 0) data num = some (0, buf))
    (fits : DivisionsFit t) (tmp : Int) (left right : UInt8) :
    caculate (cstr buf 0) tmp left right = some v ↔ OutermostFits t := by
  have enough : e.length < fuel + (e.length + 1) := by omega
  have again := transform_mono (e.length + 1) ran
  rw [transform_derives wf (by rwa [List.length_replicate]) data num enough] at again
  obtain ⟨-, rfl⟩ := Prod.mk.inj (Option.some.inj again)
  rw [string_prefixForm wf room, caculate_prefixForm]
  exact truncated_eq_iff fits defined

theorem caculate_transform_division :
    ∃ buf, transform 20 (ascii "9/2*9") (List.replicate 32 0) 0 0 = some (0, buf) ∧
      caculate (cstr buf 0) 0 0 0 = some 36 := by
  have quotient : infixGrammar.Derives 1 (ascii "9" ++ Arith.char .div :: ascii "2")
      (.bin .div (.lit 9) (.lit 2)) :=
    .binary (g := infixGrammar) Arith.div (.weaken (.literal rfl)) (.literal rfl)
  have product : infixGrammar.Derives 1 (ascii "9/2" ++ Arith.char .mul :: ascii "9")
      (.bin .mul (.bin .div (.lit 9) (.lit 2)) (.lit 9)) :=
    .binary (g := infixGrammar) Arith.mul quotient (.literal rfl)
  have whole : infixGrammar.Derives 0 (ascii "9/2*9")
      (.bin .mul (.bin .div (.lit 9) (.lit 2)) (.lit 9)) :=
    .weaken product
  have fits : DivisionsFit (.bin .mul (.bin .div (.lit 9) (.lit 2)) (.lit 9)) := by
    refine ⟨⟨trivial, trivial, fun _ x leftEq y rightEq => ?_⟩, trivial, fun isDiv => ?_⟩
    on_goal 2 => cases isDiv
    cases leftEq
    cases rightEq
    exact quotientFits_of_isChar ⟨by decide, by decide⟩ ⟨by decide, by decide⟩ (by decide)
  have outermost : OutermostFits (.bin .mul (.bin .div (.lit 9) (.lit 2)) (.lit 9)) := by
    intro x leftEq y rightEq
    cases leftEq
    cases rightEq
    decide
  have room : (ascii "9/2*9").length < 32 := by decide
  have size : (ascii "9/2*9").length < (List.replicate 32 (0 : UInt8)).length := by decide
  have ran := transform_derives whole size 0 0
    (show (ascii "9/2*9").length < 20 by decide)
  exact ⟨_, ran, (caculate_transform whole (by decide) room ran fits 0 0 0).mpr outermost⟩

/-- The value of `9*9*2` does not fit a `char`: `9*9*2+0` is -94. -/
theorem caculate_truncates :
    ¬ ∀ (t : Expr Arith (Fin 10)) (v tmp : Int) (e buf : List UInt8) (fuel n : Nat)
        (data num left right : UInt8),
      infixGrammar.Derives 0 e t → value t = some v → e.length < n →
      transform fuel e (List.replicate n 0) data num = some (0, buf) →
      caculate (cstr buf 0) tmp left right = some v := by
  intro claim
  have square : infixGrammar.Derives 1 (ascii "9" ++ Arith.char .mul :: ascii "9")
      (.bin .mul (.lit 9) (.lit 9)) :=
    .binary (g := infixGrammar) Arith.mul (.weaken (.literal rfl)) (.literal rfl)
  have product : infixGrammar.Derives 1 (ascii "9*9" ++ Arith.char .mul :: ascii "2")
      (.bin .mul (.bin .mul (.lit 9) (.lit 9)) (.lit 2)) :=
    .binary (g := infixGrammar) Arith.mul square (.literal rfl)
  have sum : infixGrammar.Derives 0 (ascii "9*9*2" ++ Arith.char .add :: ascii "0")
      (.bin .add (.bin .mul (.bin .mul (.lit 9) (.lit 9)) (.lit 2)) (.lit 0)) :=
    .binary (g := infixGrammar) Arith.add (.weaken product) (.weaken (.literal rfl))
  have whole : infixGrammar.Derives 0 (ascii "9*9*2+0")
      (.bin .add (.bin .mul (.bin .mul (.lit 9) (.lit 9)) (.lit 2)) (.lit 0)) :=
    sum
  have room : (ascii "9*9*2+0").length < 32 := by decide
  have size : (ascii "9*9*2+0").length < (List.replicate 32 (0 : UInt8)).length := by decide
  have ran := transform_derives whole size 0 0
    (show (ascii "9*9*2+0").length < 20 by decide)
  have same := claim _ 162 0 _ _ 20 32 0 0 0 0 whole (by decide) room ran
  rw [string_prefixForm whole room, caculate_prefixForm] at same
  revert same
  decide

end Shang.Caculate
