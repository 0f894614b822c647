import Shang.Lib.Arith
import Shang.Lib.Stack

/-!
# The infix calculator

`main.c` of `3.ex/1.computer` with its array stacks `sqstack.c`. Digits add up to
the literal `val`, which is pushed when the character behind it is read. An
operator waits on `st_op` until one comes that does not bind more, until its
bracket is closed, or until the end. The stacks have `MAXSIZE` cells; a push on a
full one is refused, and nothing looks at that.

A local variable without a value is `none`. So is a run that reads one, or whose
arithmetic is undefined. Fuel bounds the rounds of the inner loops.
-/

namespace Shang.Computer

open Shang.Lib

/-! ## The stacks -/

/-- `MAXSIZE` -/
def MAXSIZE : Nat := 5

/-- `SK` -/
abbrev SK := Stack Int

/-- `st_isempty` -/
def stIsempty (st : SK) : Bool := st.top = -1

/-- `st_isfull` -/
def stIsfull (st : SK) : Bool := st.top = (MAXSIZE : Int) - 1

/-- `st_push` -/
def stPush (st : SK) (data : Int) : SK × Int :=
  if stIsfull st then (st, -1)
  else
    let top := st.top + 1
    (⟨Function.update st.data top.toNat data, top⟩, 0)

/-- `st_pop`, where `*data` holds `data`; with what it holds afterwards. -/
def stPop (st : SK) (data : Option Int) : SK × Option Int × Int :=
  if stIsempty st then (st, data, -1)
  else ({ st with top := st.top - 1 }, some (st.data st.top.toNat), 0)

/-- `st_top`, where `*data` holds `data`; with what it holds afterwards. -/
def stTop (st : SK) (data : Option Int) : Option Int × Int :=
  if stIsempty st then (data, -1) else (some (st.data st.top.toNat), 0)

/-! ## The program -/

/-- `get_pri(op)` -/
def getPri (op : Int) : Nat :=
  match op with
  | 40 => 0
  | 43 => 1
  | 45 => 1
  | 42 => 2
  | 47 => 2
  | _ => 0

/-- `compute(s_num, op)` -/
def compute (sNum : SK) (op : Int) : Option SK := do
  let (sNum, v1, _) := stPop sNum none
  let (sNum, v2, _) := stPop sNum none
  let v1 ← v1
  let v2 ← v2
  let v3 ← match op with
    | 43 => Arith.add.apply v1 v2
    | 45 => Arith.sub.apply v2 v1
    | 42 => Arith.mul.apply v2 v1
    | 47 => Arith.div.apply v2 v1
    | _ => none
  some (stPush sNum v3).1

/-- The loop of `deal_bracket`. -/
def bracketLoop : Nat → SK → SK → Option Int → Option (SK × SK × Option Int)
  | 0, _, _, _ => none
  | fuel + 1, sOp, sNum, oldOp => do
      if (← oldOp) ≠ 40 then
        let (sOp, oldOp, _) := stPop sOp oldOp
        let sNum ← compute sNum (← oldOp)
        let (oldOp, _) := stTop sOp oldOp
        bracketLoop fuel sOp sNum oldOp
      else some (sOp, sNum, oldOp)

/-- `deal_bracket(s_op, s_num)` -/
def dealBracket (fuel : Nat) (sOp sNum : SK) : Option (SK × SK) := do
  let (oldOp, _) := stTop sOp none
  let (sOp, sNum, oldOp) ← bracketLoop fuel sOp sNum oldOp
  let (sOp, _, _) := stPop sOp oldOp
  some (sOp, sNum)

/-- The loop of `deal_op`. -/
def opLoop (op : Int) : Nat → SK → SK → Option Int → Option (SK × SK)
  | 0, _, _, _ => none
  | fuel + 1, sOp, sNum, oldOp => do
      if getPri op ≤ getPri (← oldOp) then
        let (sOp, oldOp, _) := stPop sOp oldOp
        let sNum ← compute sNum (← oldOp)
        if stIsempty sOp then some (sOp, sNum)
        else
          let (oldOp, _) := stTop sOp oldOp
          opLoop op fuel sOp sNum oldOp
      else some (sOp, sNum)

/-- `deal_op(s_op, s_num, op)` -/
def dealOp (fuel : Nat) (sOp sNum : SK) (op : Int) : Option (SK × SK) := do
  if stIsempty sOp ∨ op = 40 then some ((stPush sOp op).1, sNum)
  else
    let (oldOp, _) := stTop sOp none
    if getPri op > getPri (← oldOp) then some ((stPush sOp op).1, sNum)
    else
      let (sOp, sNum) ← opLoop op fuel sOp sNum oldOp
      some ((stPush sOp op).1, sNum)

/-- What `main` keeps. -/
structure Vars where
  stOp : SK
  stNum : SK
  val : Int

/-- `isdigit(c)` -/
def isdigit (c : UInt8) : Bool := 48 ≤ c && c ≤ 57

/-- `if (val) { st_push(st_num, &val); val = 0; }` -/
def pushVal (v : Vars) : Vars :=
  if v.val ≠ 0 then { v with stNum := (stPush v.stNum v.val).1, val := 0 } else v

/-- The main loop, for the characters from `str[i]` on. -/
def mainLoop (fuel : Nat) : List UInt8 → Vars → Option Vars
  | [], v => some v
  | c :: str, v =>
      if isdigit c then
        let val := v.val * 10 + (signed c - 48)
        if IsInt val then mainLoop fuel str { v with val := val } else none
      else do
        let v := pushVal v
        let (stOp, stNum) ←
          if c = 41 then dealBracket fuel v.stOp v.stNum
          else dealOp fuel v.stOp v.stNum (signed c)
        mainLoop fuel str { v with stOp := stOp, stNum := stNum }

/-- The loop behind the main loop. -/
def endLoop : Nat → SK → SK → Option SK
  | 0, _, _ => none
  | fuel + 1, stOp, stNum => do
      if stIsempty stOp then some stNum
      else
        let (stOp, oldOp, _) := stPop stOp none
        let stNum ← compute stNum (← oldOp)
        endLoop fuel stOp stNum

/-- `st_create()`: the cells are not initialized. -/
def stCreate (data : Nat → Int) : SK := ⟨data, -1⟩

/-- `main` up to the last `st_pop`: what is on `st_num`. -/
def main (fuel : Nat) (str : List UInt8) (op num : Nat → Int) : Option SK := do
  let v ← mainLoop fuel str ⟨stCreate op, stCreate num, 0⟩
  let v := pushVal v
  endLoop fuel v.stOp v.stNum

/-! ## What is on a stack -/

/-- These are the numbers on the stack, from the top. -/
structure Holds (st : SK) (xs : List Int) : Prop where
  inBounds : st.InBounds
  items : st.items = xs
  fits : xs.length ≤ MAXSIZE

variable {st sOp sNum : SK} {x y z : Int} {xs nums T : List Int} {fuel : Nat}

theorem holds_stCreate (cells : Nat → Int) : Holds (stCreate cells) [] :=
  ⟨Int.le_refl _, rfl, Nat.zero_le _⟩

theorem Holds.top (h : Holds st xs) : st.top = xs.length - 1 := by
  rw [← h.items]
  exact Stack.top_eq h.inBounds

theorem Holds.stIsempty_nil (h : Holds st []) : stIsempty st = true :=
  decide_eq_true h.top

theorem Holds.stIsempty_cons (h : Holds st (x :: xs)) : stIsempty st = false := by
  have top := h.top
  rw [List.length_cons] at top
  exact decide_eq_false (by omega)

theorem Holds.not_full (h : Holds st xs) (room : xs.length < MAXSIZE) : ¬ stIsfull st = true := by
  have top := h.top
  rw [stIsfull, decide_eq_true_eq]
  omega

theorem Holds.stPush (h : Holds st xs) (room : xs.length < MAXSIZE) (x : Int) :
    Holds (stPush st x).1 (x :: xs) := by
  have top := h.top
  rw [Computer.stPush, if_neg (h.not_full room)]
  refine ⟨h.inBounds.push, ?_, room⟩
  rw [← h.items]
  exact Stack.items_push h.inBounds

theorem Holds.stPush_ret (h : Holds st xs) (room : xs.length < MAXSIZE) (x : Int) :
    (Computer.stPush st x).2 = 0 := by
  rw [Computer.stPush, if_neg (h.not_full room)]

/-- A push on a full stack is refused. -/
theorem Holds.stPush_full (h : Holds st xs) (full : xs.length = MAXSIZE) (x : Int) :
    Computer.stPush st x = (st, -1) := by
  have top := h.top
  have filled : stIsfull st = true := by
    rw [stIsfull, decide_eq_true_eq]
    omega
  rw [Computer.stPush, if_pos filled]

theorem Holds.stPop (h : Holds st (x :: xs)) (data : Option Int) :
    ∃ st', stPop st data = (st', some x, 0) ∧ Holds st' xs := by
  have top := h.top
  rw [List.length_cons] at top
  obtain ⟨same, inBounds⟩ := Stack.items_pop h.inBounds (show st.top ≠ -1 by omega)
  rw [h.items, List.cons.injEq] at same
  obtain ⟨head, tail⟩ := same
  refine ⟨st.pop, ?_, inBounds, tail.symm, Nat.le_of_succ_le h.fits⟩
  rw [Computer.stPop, h.stIsempty_cons, head]
  rfl

theorem Holds.stTop (h : Holds st (x :: xs)) (data : Option Int) : stTop st data = (some x, 0) := by
  obtain ⟨st', popped, -⟩ := h.stPop data
  rw [Computer.stPop, h.stIsempty_cons] at popped
  rw [Computer.stTop, h.stIsempty_cons]
  have same := congrArg (fun r => r.2.1) popped
  exact congrArg (·, (0 : Int)) same

/-! ## The loops -/

/-- An operator as an `int`. -/
def code : Arith → Int
  | .add => 43
  | .sub => 45
  | .mul => 42
  | .div => 47

theorem signed_char (op : Arith) : signed op.char = code op := by
  cases op <;> decide

theorem getPri_code (op : Arith) : getPri (code op) = op.prec + 1 := by
  cases op <;> rfl

theorem code_ne_bracket (op : Arith) : code op ≠ 40 := by
  cases op <;> decide

/-- `compute` adds the other way round. -/
theorem add_apply_comm (x y : Int) : Arith.add.apply y x = Arith.add.apply x y := by
  simp [Arith.apply, Arith.result, Int.add_comm]

theorem compute_code {op : Arith} (h : Holds sNum (y :: x :: nums))
    (defined : op.apply x y = some z) :
    ∃ sNum', compute sNum (code op) = some sNum' ∧ Holds sNum' (z :: nums) := by
  obtain ⟨s₁, first, h₁⟩ := h.stPop none
  obtain ⟨s₂, second, h₂⟩ := h₁.stPop none
  have room := h.fits
  rw [List.length_cons, List.length_cons] at room
  refine ⟨(Computer.stPush s₂ z).1, ?_, h₂.stPush (by omega) z⟩
  have ran : compute sNum (code op) = (op.apply x y).bind fun v3 => some (stPush s₂ v3).1 := by
    rw [compute, first]
    dsimp only
    rw [second]
    cases op with
    | add =>
        rw [← add_apply_comm]
        rfl
    | sub => rfl
    | mul => rfl
    | div => rfl
  rw [ran, defined, Option.bind_some]

/-- Every loop pops an operator and applies it. -/
theorem apply_top {op : Arith} {ops : List Arith} {nums' : List Int}
    (hOp : Holds sOp (code op :: T)) (hNum : Holds sNum nums)
    (done : reduce Arith.apply (op :: ops) nums = some nums') (data : Option Int) :
    ∃ sOp₁ sNum₁ rest, stPop sOp data = (sOp₁, some (code op), 0) ∧
      compute sNum (code op) = some sNum₁ ∧ Holds sOp₁ T ∧ Holds sNum₁ rest ∧
      reduce Arith.apply ops rest = some nums' := by
  obtain ⟨y, x, operands, z, rfl, applied, done⟩ := reduce_cons_eq_some done
  obtain ⟨sOp₁, popped, hOp₁⟩ := hOp.stPop data
  obtain ⟨sNum₁, computed, hNum₁⟩ := compute_code hNum applied
  exact ⟨sOp₁, sNum₁, z :: operands, popped, computed, hOp₁, hNum₁, done⟩

/-- The operators of the pending expression are above the rest of the stack. -/
theorem bracketLoop_spec {ops : List Arith} {nums' : List Int} (fuel : Nat) (data : Option Int)
    (hOp : Holds sOp (ops.map code ++ 40 :: T)) (hNum : Holds sNum nums)
    (done : reduce Arith.apply ops nums = some nums') (enough : ops.length < fuel) :
    ∃ sOp' sNum', bracketLoop fuel sOp sNum (stTop sOp data).1 = some (sOp', sNum', some 40) ∧
      Holds sOp' (40 :: T) ∧ Holds sNum' nums' := by
  induction ops generalizing sOp sNum nums data fuel with
  | nil =>
      obtain ⟨fuel, rfl⟩ : ∃ f, fuel = f + 1 := ⟨fuel - 1, by simp at enough; omega⟩
      cases done
      rw [hOp.stTop]
      exact ⟨sOp, sNum, rfl, hOp, hNum⟩
  | cons op ops ih =>
      rw [List.length_cons] at enough
      obtain ⟨fuel, rfl⟩ : ∃ f, fuel = f + 1 := ⟨fuel - 1, by omega⟩
      obtain ⟨sOp₁, sNum₁, rest, popped, computed, hOp₁, hNum₁, done⟩ :=
        apply_top hOp hNum done (some (code op))
      obtain ⟨sOp', sNum', ran, hOp', hNum'⟩ :=
        ih fuel (some (code op)) hOp₁ hNum₁ done (by omega)
      refine ⟨sOp', sNum', ?_, hOp', hNum'⟩
      rw [Holds.stTop hOp, bracketLoop, Option.bind_eq_bind, Option.bind_some,
        if_pos (code_ne_bracket op), popped]
      dsimp only
      rw [Option.bind_eq_bind, Option.bind_some, computed, Option.bind_some]
      exact ran

/-- The right bracket closes the expression behind the left one. -/
theorem dealBracket_spec {ops : List Arith} {nums' : List Int} (fuel : Nat)
    (hOp : Holds sOp (ops.map code ++ 40 :: T)) (hNum : Holds sNum nums)
    (done : reduce Arith.apply ops nums = some nums') (enough : ops.length < fuel) :
    ∃ sOp' sNum', dealBracket fuel sOp sNum = some (sOp', sNum') ∧ Holds sOp' T ∧
      Holds sNum' nums' := by
  obtain ⟨sOp₁, sNum', ran, hOp₁, hNum'⟩ :=
    bracketLoop_spec fuel none hOp hNum done enough
  obtain ⟨sOp', popped, hOp'⟩ := hOp₁.stPop (some 40)
  refine ⟨sOp', sNum', ?_, hOp', hNum'⟩
  rw [dealBracket]
  dsimp only
  rw [ran, Option.bind_eq_bind, Option.bind_some]
  dsimp only
  rw [popped]

/-- The operators that bind at least as much as the new one are applied. -/
theorem opLoop_spec {op : Arith} {ops : List Arith} {nums' : List Int} (fuel : Nat)
    (data : Option Int) (pending : ops ≠ []) (hOp : Holds sOp (ops.map code ++ T))
    (hNum : Holds sNum nums) (strong : ∀ o ∈ ops, op.prec ≤ o.prec)
    (waits : ∀ t ∈ T.head?, getPri t ≤ op.prec)
    (done : reduce Arith.apply ops nums = some nums') (enough : ops.length < fuel) :
    ∃ sOp' sNum', opLoop (code op) fuel sOp sNum (stTop sOp data).1 = some (sOp', sNum') ∧
      Holds sOp' T ∧ Holds sNum' nums' := by
  induction ops generalizing sOp sNum nums data fuel with
  | nil => exact absurd rfl pending
  | cons o ops ih =>
      rw [List.length_cons] at enough
      obtain ⟨fuel, rfl⟩ : ∃ f, fuel = f + 1 := ⟨fuel - 1, by omega⟩
      obtain ⟨sOp₁, sNum₁, rest, popped, computed, hOp₁, hNum₁, done⟩ :=
        apply_top hOp hNum done (some (code o))
      have binds : getPri (code op) ≤ getPri (code o) := by
        rw [getPri_code, getPri_code]
        exact Nat.succ_le_succ (strong o List.mem_cons_self)
      have round : opLoop (code op) (fuel + 1) sOp sNum (stTop sOp data).1 =
          if stIsempty sOp₁ then some (sOp₁, sNum₁)
          else opLoop (code op) fuel sOp₁ sNum₁ (stTop sOp₁ (some (code o))).1 := by
        rw [Holds.stTop hOp, opLoop, Option.bind_eq_bind, Option.bind_some, if_pos binds, popped]
        dsimp only
        rw [Option.bind_eq_bind, Option.bind_some, computed, Option.bind_some]
      rw [round]
      cases ops with
      | cons o' ops =>
          rw [hOp₁.stIsempty_cons]
          exact ih fuel (some (code o)) (List.cons_ne_nil _ _) hOp₁ hNum₁
            (fun o mem => strong o (List.mem_cons_of_mem _ mem)) done (by omega)
      | nil =>
          cases done
          refine ⟨sOp₁, sNum₁, ?_, hOp₁, hNum₁⟩
          cases T with
          | nil => rw [hOp₁.stIsempty_nil, if_pos rfl]
          | cons t T =>
              obtain ⟨fuel, rfl⟩ : ∃ f, fuel = f + 1 := ⟨fuel - 1, by simp at enough; omega⟩
              have weak : ¬ getPri (code op) ≤ getPri t := by
                have := waits t rfl
                rw [getPri_code]
                omega
              rw [hOp₁.stIsempty_cons, if_neg Bool.false_ne_true, Holds.stTop hOp₁, opLoop,
                Option.bind_eq_bind, Option.bind_some, if_neg weak]

/-- A left bracket waits for its right one. -/
theorem dealOp_bracket (fuel : Nat) (sNum : SK) (hOp : Holds sOp T) (room : T.length < MAXSIZE) :
    ∃ sOp', dealOp fuel sOp sNum 40 = some (sOp', sNum) ∧ Holds sOp' (40 :: T) :=
  ⟨_, if_pos (.inr rfl), hOp.stPush room 40⟩

/-- The pending operators that do not bind less are applied, and the new one waits. -/
theorem dealOp_spec {op : Arith} {ops : List Arith} {nums' : List Int} (fuel : Nat)
    (hOp : Holds sOp (ops.map code ++ T)) (hNum : Holds sNum nums)
    (strong : ∀ o ∈ ops, op.prec ≤ o.prec) (waits : ∀ t ∈ T.head?, getPri t ≤ op.prec)
    (done : reduce Arith.apply ops nums = some nums') (enough : ops.length < fuel)
    (room : T.length < MAXSIZE) :
    ∃ sOp' sNum', dealOp fuel sOp sNum (code op) = some (sOp', sNum') ∧
      Holds sOp' (code op :: T) ∧ Holds sNum' nums' := by
  cases ops with
  | nil =>
      cases done
      refine ⟨_, sNum, ?_, Holds.stPush hOp room (code op), hNum⟩
      cases T with
      | nil => exact if_pos (.inl (Holds.stIsempty_nil hOp))
      | cons t T =>
          have stored : stIsempty sOp = false := Holds.stIsempty_cons hOp
          have weak : getPri (code op) > getPri t := by
            have := waits t rfl
            rw [getPri_code]
            omega
          rw [dealOp, if_neg (by simp [stored, code_ne_bracket]), Holds.stTop hOp]
          exact if_pos weak
  | cons o ops =>
      have stored : stIsempty sOp = false := Holds.stIsempty_cons hOp
      have binds : ¬ getPri (code op) > getPri (code o) := by
        have := strong o List.mem_cons_self
        rw [getPri_code, getPri_code]
        omega
      obtain ⟨sOp₁, sNum', ran, hOp₁, hNum'⟩ :=
        opLoop_spec fuel none (List.cons_ne_nil o ops) hOp hNum strong waits done enough
      refine ⟨(Computer.stPush sOp₁ (code op)).1, sNum', ?_, hOp₁.stPush room (code op), hNum'⟩
      rw [dealOp, if_neg (by simp [stored, code_ne_bracket])]
      have top : (stTop sOp none).1 = some (code o) := by rw [Holds.stTop hOp]
      dsimp only
      rw [ran, top, Option.bind_eq_bind, Option.bind_some, if_neg binds]
      rfl

/-- In the end all operators are applied. -/
theorem endLoop_spec {ops : List Arith} {nums' : List Int} (fuel : Nat)
    (hOp : Holds sOp (ops.map code)) (hNum : Holds sNum nums)
    (done : reduce Arith.apply ops nums = some nums') (enough : ops.length < fuel) :
    ∃ sNum', endLoop fuel sOp sNum = some sNum' ∧ Holds sNum' nums' := by
  induction ops generalizing sOp sNum nums fuel with
  | nil =>
      obtain ⟨fuel, rfl⟩ : ∃ f, fuel = f + 1 := ⟨fuel - 1, by simp at enough; omega⟩
      cases done
      exact ⟨sNum, if_pos (Holds.stIsempty_nil hOp), hNum⟩
  | cons op ops ih =>
      rw [List.length_cons] at enough
      obtain ⟨fuel, rfl⟩ : ∃ f, fuel = f + 1 := ⟨fuel - 1, by omega⟩
      have stored : stIsempty sOp = false := Holds.stIsempty_cons hOp
      obtain ⟨sOp₁, sNum₁, rest, popped, computed, hOp₁, hNum₁, done⟩ :=
        apply_top hOp hNum done none
      obtain ⟨sNum', ran, hNum'⟩ := ih fuel hOp₁ hNum₁ done (by omega)
      refine ⟨sNum', ?_, hNum'⟩
      rw [endLoop, stored, if_neg Bool.false_ne_true, popped]
      dsimp only
      rw [Option.bind_eq_bind, Option.bind_some, computed, Option.bind_eq_bind, Option.bind_some,
        ran]

end Shang.Computer
