import Shang.Lib.CString
import Shang.Stack.Computer

/-!
# The calculator on expressions

What the main loop does with a well-formed expression over positive decimal
literals. `Needs` is the grammar with the entries that the expression takes on
either stack, which are the ones that are there at some time, `needs_reached`.
When they fit, nothing is refused: between two characters the stacks hold what
waits below the expression that is read, and behind it they hold operators and
operands that amount to its value, `mainLoop_needs`.
-/

namespace Shang.Computer

open Shang.Lib

variable {x : Int} {nums T : List Int} {fuel : Nat}

/-! ## Expressions and what they need -/

/-- The number with one more digit. -/
def addDigit (val : Int) (c : UInt8) : Int := val * 10 + ((c.toNat : Int) - 48)

/-- The number that decimal digits stand for. -/
def decimal (w : List UInt8) : Int := w.foldl addDigit 0

/-- Infix notation over positive decimal literals. -/
def infixGrammar : Grammar UInt8 Arith Nat where
  literal w n := w.all isdigit = true ∧ decimal w = n ∧ 0 < n
  sym := Arith.char
  prec := Arith.prec
  factor := 2
  opening := 40
  closing := 41

/-- The value of an expression over literals that are an `int`. -/
def value (t : Expr Arith Nat) : Option Int :=
  t.eval Arith.apply fun n : Nat => if IsInt n then some (n : Int) else none

/-- The word is an expression of the level, and the two numbers are the most operators and the
most operands that wait at a time while it is read. The operands of an operator are read one after
the other; the right one finds the operator and the value of the left one on the stacks. -/
inductive Needs : Nat → List UInt8 → Expr Arith Nat → Nat → Nat → Prop
  | literal {w : List UInt8} {n : Nat} : infixGrammar.literal w n → Needs 2 w (.lit n) 0 1
  | bracket {w : List UInt8} {t : Expr Arith Nat} {ops nums : Nat} : Needs 0 w t ops nums →
      Needs 2 (40 :: (w ++ [41])) t (ops + 1) nums
  | binary (op : Arith) {u v : List UInt8} {l r : Expr Arith Nat} {ops nums ops' nums' : Nat} :
      Needs op.prec u l ops nums → Needs (op.prec + 1) v r ops' nums' →
      Needs op.prec (u ++ op.char :: v) (.bin op l r) (max ops (ops' + 1)) (max nums (nums' + 1))
  | weaken {k : Nat} {w : List UInt8} {t : Expr Arith Nat} {ops nums : Nat} :
      Needs (k + 1) w t ops nums → Needs k w t ops nums

theorem derives_iff_needs {k : Nat} {w : List UInt8} {t : Expr Arith Nat} :
    infixGrammar.Derives k w t ↔ ∃ ops nums, Needs k w t ops nums := by
  constructor
  · intro wf
    induction wf with
    | literal word => exact ⟨0, 1, .literal word⟩
    | bracket _ ih =>
        obtain ⟨ops, nums, needs⟩ := ih
        exact ⟨ops + 1, nums, .bracket needs⟩
    | binary op _ _ ihl ihr =>
        obtain ⟨ops, nums, needs⟩ := ihl
        obtain ⟨ops', nums', needs'⟩ := ihr
        exact ⟨_, _, .binary op needs needs'⟩
    | weaken _ ih =>
        obtain ⟨ops, nums, needs⟩ := ih
        exact ⟨ops, nums, .weaken needs⟩
  · rintro ⟨ops, nums, needs⟩
    induction needs with
    | literal word => exact .literal word
    | bracket _ ih => exact .bracket ih
    | binary op _ _ ihl ihr => exact .binary op ihl ihr
    | weaken _ ih => exact .weaken ih

/-! ## The main loop -/

variable {v : Vars} {w str : List UInt8} {c : UInt8}

theorem isdigit_iff : isdigit c = true ↔ 48 ≤ c.toNat ∧ c.toNat ≤ 57 := by
  rw [isdigit, Bool.and_eq_true, decide_eq_true_eq, decide_eq_true_eq, UInt8.le_iff_toNat_le,
    UInt8.le_iff_toNat_le]
  exact Iff.rfl

theorem signed_digit (digit : isdigit c = true) : signed c = c.toNat := by
  have := isdigit_iff.mp digit
  exact Int.bmod_eq_of_le (by omega) (by omega)

theorem le_addDigit (digit : isdigit c = true) (nonneg : 0 ≤ x) : x ≤ addDigit x c := by
  have := isdigit_iff.mp digit
  rw [addDigit]
  omega

/-- A literal grows with its digits. -/
theorem le_foldl (digits : w.all isdigit = true) (nonneg : 0 ≤ x) : x ≤ w.foldl addDigit x := by
  induction w generalizing x with
  | nil => exact Int.le_refl x
  | cons c w ih =>
      rw [List.all_cons, Bool.and_eq_true] at digits
      have grown := le_addDigit digits.1 nonneg
      exact Int.le_trans grown (ih digits.2 (Int.le_trans nonneg grown))

theorem mainLoop_digits (fuel : Nat) (digits : w.all isdigit = true) (nonneg : 0 ≤ v.val)
    (int : IsInt (w.foldl addDigit v.val)) :
    mainLoop fuel (w ++ str) v = mainLoop fuel str { v with val := w.foldl addDigit v.val } := by
  induction w generalizing v with
  | nil => rfl
  | cons c w ih =>
      rw [List.all_cons, Bool.and_eq_true] at digits
      rw [List.foldl_cons] at int ⊢
      have grown := le_addDigit digits.1 nonneg
      have later := le_foldl digits.2 (Int.le_trans nonneg grown)
      have small : IsInt (addDigit v.val c) := ⟨by omega, Int.le_trans later int.2⟩
      have same : v.val * 10 + (signed c - 48) = addDigit v.val c := by
        rw [signed_digit digits.1, addDigit]
      rw [List.cons_append, mainLoop, if_pos digits.1]
      dsimp only
      rw [same, if_pos small]
      exact ih digits.2 (Int.le_trans nonneg grown) int

theorem pushVal_stOp (v : Vars) : (pushVal v).stOp = v.stOp := by
  unfold pushVal
  split <;> rfl

theorem pushVal_val (v : Vars) : (pushVal v).val = 0 := by
  unfold pushVal
  split
  · rfl
  · next zero => exact not_not.mp zero

theorem pushVal_zero (zero : v.val = 0) : pushVal v = v := if_neg (not_not.mpr zero)

theorem mainLoop_left (fuel : Nat) :
    mainLoop fuel (40 :: str) v =
      (dealOp fuel (pushVal v).stOp (pushVal v).stNum 40).bind fun r =>
        mainLoop fuel str ⟨r.1, r.2, (pushVal v).val⟩ := by
  have bracket : signed 40 = 40 := by decide
  rw [mainLoop, if_neg (by decide), if_neg (by decide), bracket]
  rfl

theorem mainLoop_right (fuel : Nat) :
    mainLoop fuel (41 :: str) v =
      (dealBracket fuel (pushVal v).stOp (pushVal v).stNum).bind fun r =>
        mainLoop fuel str ⟨r.1, r.2, (pushVal v).val⟩ := rfl

theorem mainLoop_operator (fuel : Nat) (op : Arith) :
    mainLoop fuel (op.char :: str) v =
      (dealOp fuel (pushVal v).stOp (pushVal v).stNum (code op)).bind fun r =>
        mainLoop fuel str ⟨r.1, r.2, (pushVal v).val⟩ := by
  have other : isdigit op.char = false ∧ op.char ≠ 41 := by
    cases op <;> decide
  rw [mainLoop, other.1, if_neg Bool.false_ne_true, if_neg other.2, signed_char]
  rfl

/-- Between two characters, when there is no literal. -/
structure Stands (v : Vars) (T nums : List Int) : Prop where
  stOp : Holds v.stOp T
  stNum : Holds v.stNum nums
  val : v.val = 0

/-- An expression with this value was read: applying the operators that wait on the rest of the
stack gives it. -/
structure Pending (k : Nat) (T nums : List Int) (x : Int) (v : Vars) (ops : List Arith)
    (operands : List Int) : Prop where
  stOp : Holds v.stOp (ops.map code ++ T)
  stNum : Holds (pushVal v).stNum operands
  above : ∀ o ∈ ops, k ≤ o.prec
  value : reduce Arith.apply ops operands = some (x :: nums)

variable {k : Nat} {ops : List Arith} {operands : List Int} {op : Arith}

theorem Stands.pending (h : Stands v T (x :: nums)) : Pending k T nums x v [] (x :: nums) where
  stOp := h.stOp
  stNum := by
    rw [pushVal_zero h.val]
    exact h.stNum
  above := by simp
  value := rfl

/-- The inner loops have enough fuel for a whole stack. -/
theorem Pending.length_lt (h : Pending k T nums x v ops operands) (enough : MAXSIZE < fuel) :
    ops.length < fuel := by
  have fits := h.stOp.fits
  rw [List.length_append, List.length_map] at fits
  omega

theorem Stands.literal {n : Nat} (h : Stands v T nums) (word : infixGrammar.literal w n)
    (int : IsInt n) (room : nums.length < MAXSIZE) :
    ∃ v', (∀ str, mainLoop fuel (w ++ str) v = mainLoop fuel str v') ∧
      Pending k T nums n v' [] (n :: nums) := by
  obtain ⟨digits, number, positive⟩ := word
  have whole : w.foldl addDigit v.val = n := by rw [h.val, ← number, decimal]
  refine ⟨{ v with val := n }, fun str => ?_, h.stOp, ?_, by simp, rfl⟩
  · rw [mainLoop_digits fuel digits (Int.le_of_eq h.val.symm) (by rwa [whole]), whole]
  · rw [pushVal, if_pos (show (n : Int) ≠ 0 by omega)]
    exact h.stNum.stPush room n

theorem Stands.left (h : Stands v T nums) (room : T.length < MAXSIZE) :
    ∃ v', (∀ str, mainLoop fuel (40 :: str) v = mainLoop fuel str v') ∧
      Stands v' (40 :: T) nums := by
  obtain ⟨sOp', opened, hOp'⟩ := dealOp_bracket fuel v.stNum h.stOp room
  refine ⟨⟨sOp', v.stNum, 0⟩, fun str => ?_, hOp', h.stNum, rfl⟩
  rw [mainLoop_left, pushVal_zero h.val, opened, Option.bind_some, h.val]

theorem Pending.right (h : Pending k (40 :: T) nums x v ops operands) (enough : MAXSIZE < fuel) :
    ∃ v', (∀ str, mainLoop fuel (41 :: str) v = mainLoop fuel str v') ∧
      Stands v' T (x :: nums) := by
  obtain ⟨sOp', sNum', closed, hOp', hNum'⟩ :=
    dealBracket_spec fuel h.stOp h.stNum h.value (h.length_lt enough)
  refine ⟨⟨sOp', sNum', 0⟩, fun str => ?_, hOp', hNum', rfl⟩
  rw [mainLoop_right, pushVal_stOp, pushVal_val, closed, Option.bind_some]

theorem Pending.operator (h : Pending op.prec T nums x v ops operands) (enough : MAXSIZE < fuel)
    (waits : ∀ c ∈ T.head?, getPri c ≤ op.prec) (room : T.length < MAXSIZE) :
    ∃ v', (∀ str, mainLoop fuel (op.char :: str) v = mainLoop fuel str v') ∧
      Stands v' (code op :: T) (x :: nums) := by
  obtain ⟨sOp', sNum', waited, hOp', hNum'⟩ :=
    dealOp_spec fuel h.stOp h.stNum h.above waits h.value (h.length_lt enough) room
  refine ⟨⟨sOp', sNum', 0⟩, fun str => ?_, hOp', hNum', rfl⟩
  rw [mainLoop_operator, pushVal_stOp, pushVal_val, waited, Option.bind_some]

theorem value_lit {n : Nat} (defined : value (.lit n) = some x) : IsInt n ∧ (n : Int) = x := by
  rw [value, Expr.eval] at defined
  split at defined
  · next int => exact ⟨int, Option.some.inj defined⟩
  · cases defined

/-- Reading an expression whose operators bind more than the one that waits. -/
theorem mainLoop_needs {t : Expr Arith Nat} {o n : Nat} (needs : Needs k w t o n)
    (defined : value t = some x) (enough : MAXSIZE < fuel) (h : Stands v T nums)
    (waits : ∀ c ∈ T.head?, getPri c ≤ k) (roomOp : T.length + o ≤ MAXSIZE)
    (roomNum : nums.length + n ≤ MAXSIZE) :
    ∃ v' ops operands, (∀ str, mainLoop fuel (w ++ str) v = mainLoop fuel str v') ∧
      Pending k T nums x v' ops operands := by
  induction needs generalizing v T nums x with
  | @literal w n word =>
      obtain ⟨int, rfl⟩ := value_lit defined
      obtain ⟨v', read, pending⟩ := h.literal word int roomNum
      exact ⟨v', [], n :: nums, read, pending⟩
  | @bracket w t o n inner ih =>
      rw [← Nat.add_assoc, Nat.add_right_comm] at roomOp
      obtain ⟨v₁, opened, h₁⟩ := h.left (show T.length < MAXSIZE by omega)
      obtain ⟨v₂, ops, operands, read, pending⟩ :=
        ih defined h₁ (fun c top => by cases top; exact Nat.le_refl 0) roomOp roomNum
      obtain ⟨v₃, closed, h₃⟩ := pending.right enough
      refine ⟨v₃, [], x :: nums, fun str => ?_, h₃.pending⟩
      rw [List.cons_append, List.append_assoc, opened, read]
      exact closed str
  | @binary op u w l r o n o' n' left right ihl ihr =>
      obtain ⟨a, leftEq, defined⟩ := Option.bind_eq_some_iff.mp defined
      obtain ⟨b, rightEq, applied⟩ := Option.bind_eq_some_iff.mp defined
      obtain ⟨v₁, ops₁, operands₁, read₁, pending₁⟩ :=
        ihl leftEq h waits (by omega) (by omega)
      obtain ⟨v₂, waited, h₂⟩ := pending₁.operator enough waits (by omega)
      obtain ⟨v₃, ops₃, operands₃, read₃, pending₃⟩ :=
        ihr rightEq h₂ (fun c top => by cases top; exact (getPri_code op).le)
          (by rw [List.length_cons]; omega) (by rw [List.length_cons]; omega)
      refine ⟨v₃, ops₃ ++ [op], operands₃, fun str => ?_, ?_, pending₃.stNum, fun o mem => ?_, ?_⟩
      · rw [List.append_assoc, List.cons_append, read₁, waited, read₃]
      · rw [List.map_append, List.append_assoc]
        exact pending₃.stOp
      · rcases List.mem_append.mp mem with mem | mem
        · exact Nat.le_of_succ_le (pending₃.above o mem)
        · rw [List.mem_singleton.mp mem]
      · rw [reduce_append, pending₃.value, Option.bind_some, reduce, applied]
        rfl
  | weaken _ ih =>
      obtain ⟨v', ops, operands, read, stOp, stNum, above, whole⟩ :=
        ih defined h (fun c top => Nat.le_succ_of_le (waits c top)) roomOp roomNum
      exact ⟨v', ops, operands, read, stOp, stNum, fun o mem => Nat.le_of_succ_le (above o mem),
        whole⟩

/-- After some of the characters this stack has so many entries. -/
def Reaches (fuel : Nat) (v : Vars) (w : List UInt8) (stack : Vars → SK) (entries : Nat) : Prop :=
  ∃ p s v' xs, w = p ++ s ∧ (∀ str, mainLoop fuel (p ++ str) v = mainLoop fuel str v') ∧
    Holds (stack v') xs ∧ xs.length = entries

variable {stack : Vars → SK} {entries : Nat}

theorem Reaches.before (h : Reaches fuel v w stack entries) (str : List UInt8) :
    Reaches fuel v (w ++ str) stack entries := by
  obtain ⟨p, s, v', xs, rfl, read, holds, count⟩ := h
  exact ⟨p, s ++ str, v', xs, List.append_assoc p s str, read, holds, count⟩

theorem Reaches.behind {v₁ : Vars} {u : List UInt8} (h : Reaches fuel v₁ w stack entries)
    (read₁ : ∀ str, mainLoop fuel (u ++ str) v = mainLoop fuel str v₁) :
    Reaches fuel v (u ++ w) stack entries := by
  obtain ⟨p, s, v', xs, rfl, read, holds, count⟩ := h
  refine ⟨u ++ p, s, v', xs, (List.append_assoc u p s).symm, fun str => ?_, holds, count⟩
  rw [List.append_assoc, read₁, read]

/-- The needs are no more than what there is on the stacks at some time. -/
theorem needs_reached {t : Expr Arith Nat} {o n : Nat} (needs : Needs k w t o n)
    (defined : value t = some x) (enough : MAXSIZE < fuel) (h : Stands v T nums)
    (waits : ∀ c ∈ T.head?, getPri c ≤ k) (roomOp : T.length + o ≤ MAXSIZE)
    (roomNum : nums.length + n ≤ MAXSIZE) :
    Reaches fuel v w Vars.stOp (T.length + o) ∧
      Reaches fuel v w (fun v => (pushVal v).stNum) (nums.length + n) := by
  induction needs generalizing v T nums x with
  | @literal w n word =>
      obtain ⟨int, rfl⟩ := value_lit defined
      obtain ⟨v', read, pending⟩ := h.literal (k := 2) word int roomNum
      refine ⟨⟨[], w, v, T, rfl, fun _ => rfl, h.stOp, rfl⟩, w, [], v', n :: nums, ?_, read,
        pending.stNum, rfl⟩
      exact (List.append_nil w).symm
  | @bracket w t o n inner ih =>
      rw [← Nat.add_assoc, Nat.add_right_comm] at roomOp ⊢
      obtain ⟨v₁, opened, h₁⟩ := h.left (show T.length < MAXSIZE by omega)
      obtain ⟨reachedOp, reachedNum⟩ :=
        ih defined h₁ (fun c top => by cases top; exact Nat.le_refl 0) roomOp roomNum
      exact ⟨(reachedOp.before [41]).behind (u := [40]) opened,
        (reachedNum.before [41]).behind (u := [40]) opened⟩
  | @binary op u w l r o n o' n' left right ihl ihr =>
      obtain ⟨a, leftEq, defined⟩ := Option.bind_eq_some_iff.mp defined
      obtain ⟨b, rightEq, applied⟩ := Option.bind_eq_some_iff.mp defined
      obtain ⟨v₁, ops₁, operands₁, read₁, pending₁⟩ :=
        mainLoop_needs left leftEq enough h waits (by omega) (by omega)
      obtain ⟨v₂, waited, h₂⟩ := pending₁.operator enough waits (by omega)
      obtain ⟨leftOp, leftNum⟩ := ihl leftEq h waits (by omega) (by omega)
      obtain ⟨rightOp, rightNum⟩ :=
        ihr rightEq h₂ (fun c top => by cases top; exact (getPri_code op).le)
          (by rw [List.length_cons]; omega) (by rw [List.length_cons]; omega)
      rw [List.length_cons, Nat.add_assoc, Nat.add_comm 1] at rightOp rightNum
      have rightOp := (rightOp.behind (u := [op.char]) waited).behind read₁
      have rightNum := (rightNum.behind (u := [op.char]) waited).behind read₁
      constructor
      · rcases Nat.le_total o (o' + 1) with more | more
        · rw [Nat.max_eq_right more]
          exact rightOp
        · rw [Nat.max_eq_left more]
          exact leftOp.before _
      · rcases Nat.le_total n (n' + 1) with more | more
        · rw [Nat.max_eq_right more]
          exact rightNum
        · rw [Nat.max_eq_left more]
          exact leftNum.before _
  | weaken _ ih => exact ih defined h (fun c top => Nat.le_succ_of_le (waits c top)) roomOp roomNum

/-- For a well-formed expression over positive literals that has a value and needs no more than
`MAXSIZE` entries on either stack, the operand stack holds the value in the end, and nothing
else. -/
theorem main_value {e : List UInt8} {t : Expr Arith Nat} {o n : Nat} (needs : Needs 0 e t o n)
    (defined : value t = some x) (roomOp : o ≤ MAXSIZE) (roomNum : n ≤ MAXSIZE)
    (op num : Nat → Int) (enough : MAXSIZE < fuel) :
    ∃ st, main fuel e op num = some st ∧ st.items = [x] := by
  have start : Stands ⟨stCreate op, stCreate num, 0⟩ [] [] :=
    ⟨holds_stCreate op, holds_stCreate num, rfl⟩
  obtain ⟨v, ops, operands, read, pending⟩ :=
    mainLoop_needs needs defined enough start (fun c top => by cases top)
      (by rwa [List.length_nil, Nat.zero_add]) (by rwa [List.length_nil, Nat.zero_add])
  have few := pending.length_lt enough
  obtain ⟨stOp, stNum, above, whole⟩ := pending
  rw [List.append_nil] at stOp
  have done := read []
  rw [List.append_nil, mainLoop] at done
  obtain ⟨st, ran, result⟩ := endLoop_spec fuel stOp stNum whole few
  refine ⟨st, ?_, result.items⟩
  rw [main, done, Option.bind_eq_bind, Option.bind_some]
  dsimp only
  rw [pushVal_stOp, ran]

theorem main_value_literal :
    ∃ st, main 6 (ascii "10+(11+3)*2-5") (fun _ => 0) (fun _ => 0) = some st ∧ st.items = [33] := by
  have lit : ∀ w : List UInt8, ∀ n : Nat, w.all isdigit = true → decimal w = n → 0 < n →
      Needs 2 w (.lit n) 0 1 := fun w n digits number positive =>
    .literal ⟨digits, number, positive⟩
  have sum : Needs 0 (ascii "11" ++ Arith.char .add :: ascii "3")
      (.bin .add (.lit 11) (.lit 3)) 1 2 :=
    .binary Arith.add (.weaken (.weaken (lit _ 11 (by decide) (by decide) (by decide))))
      (.weaken (lit _ 3 (by decide) (by decide) (by decide)))
  have product : Needs 1 (ascii "(11+3)" ++ Arith.char .mul :: ascii "2")
      (.bin .mul (.bin .add (.lit 11) (.lit 3)) (.lit 2)) 2 2 :=
    .binary Arith.mul (.weaken (.bracket sum)) (lit _ 2 (by decide) (by decide) (by decide))
  have total : Needs 0 (ascii "10" ++ Arith.char .add :: ascii "(11+3)*2")
      (.bin .add (.lit 10) (.bin .mul (.bin .add (.lit 11) (.lit 3)) (.lit 2))) 3 3 :=
    .binary Arith.add (.weaken (.weaken (lit _ 10 (by decide) (by decide) (by decide)))) product
  have whole : Needs 0 (ascii "10+(11+3)*2" ++ Arith.char .sub :: ascii "5")
      (.bin .sub (.bin .add (.lit 10) (.bin .mul (.bin .add (.lit 11) (.lit 3)) (.lit 2)))
        (.lit 5)) 3 3 :=
    .binary Arith.sub total (.weaken (lit _ 5 (by decide) (by decide) (by decide)))
  exact main_value (e := ascii "10+(11+3)*2-5") whole (by decide) (by decide) (by decide) _ _
    (by decide)

end Shang.Computer
