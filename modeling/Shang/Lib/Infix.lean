import Mathlib.Data.List.Basic

/-!
# Infix and prefix notation

Expressions over binary operators, the grammar of their infix notation with
precedences, in which operators of one precedence group to the left, and their
prefix notation with its parser. `parsePrefix_toPrefix` is the round trip: the
parser reads the prefix form of an expression back, whatever follows it.

`Derives k` are the words that can stand where the operators around bind less
than those of level `k`: level 0 is any expression, and the last level has the
literals and the brackets.

A reader that goes from left to right keeps operators and operands on two stacks;
`reduce` is what becomes of them when the pending operators are applied.
-/

namespace Shang.Lib

/-- An expression with operators of `ω` and literals of `ν`. -/
inductive Expr (ω ν : Type)
  | lit (n : ν)
  | bin (op : ω) (left right : Expr ω ν)
  deriving DecidableEq

variable {χ ω ν β : Type}

/-- How expressions are written with the characters of `χ`. -/
structure Grammar (χ ω ν : Type) where
  literal : List χ → ν → Prop
  sym : ω → χ
  prec : ω → Nat
  factor : Nat
  opening : χ
  closing : χ

/-- The word is an expression of the level, with this structure. -/
inductive Grammar.Derives (g : Grammar χ ω ν) : Nat → List χ → Expr ω ν → Prop
  | literal {w : List χ} {n : ν} : g.literal w n → g.Derives g.factor w (.lit n)
  | bracket {w : List χ} {t : Expr ω ν} : g.Derives 0 w t →
      g.Derives g.factor (g.opening :: (w ++ [g.closing])) t
  | binary (op : ω) {u v : List χ} {l r : Expr ω ν} : g.Derives (g.prec op) u l →
      g.Derives (g.prec op + 1) v r → g.Derives (g.prec op) (u ++ g.sym op :: v) (.bin op l r)
  | weaken {k : Nat} {w : List χ} {t : Expr ω ν} : g.Derives (k + 1) w t → g.Derives k w t

namespace Expr

/-- The number of operators and literals. -/
def size : Expr ω ν → Nat
  | .lit _ => 1
  | .bin _ l r => l.size + r.size + 1

/-- The literals, in the order of the infix notation. -/
def literals : Expr ω ν → List ν
  | .lit n => [n]
  | .bin _ l r => l.literals ++ r.literals

/-- The value, where an operation may fail. -/
def eval (apply : ω → β → β → Option β) (leaf : ν → Option β) : Expr ω ν → Option β
  | .lit n => leaf n
  | .bin op l r => (l.eval apply leaf).bind fun x => (r.eval apply leaf).bind fun y => apply op x y

/-- The prefix notation, with one character for a literal. -/
def toPrefix (sym : ω → χ) (word : ν → χ) : Expr ω ν → List χ
  | .lit n => [word n]
  | .bin op l r => sym op :: (l.toPrefix sym word ++ r.toPrefix sym word)

variable {sym : ω → χ} {word : ν → χ}

@[simp] theorem length_toPrefix (t : Expr ω ν) : (t.toPrefix sym word).length = t.size := by
  induction t with
  | lit n => rfl
  | bin op l r ihl ihr =>
      simp only [toPrefix, size, List.length_cons, List.length_append, ihl, ihr]

end Expr

/-- Read an expression in prefix notation: the expression and what follows it. -/
def parsePrefix (op? : χ → Option ω) (lit? : χ → Option ν) :
    Nat → List χ → Option (Expr ω ν × List χ)
  | 0, _ => none
  | _, [] => none
  | fuel + 1, c :: s =>
      match op? c with
      | some op => do
          let (l, s) ← parsePrefix op? lit? fuel s
          let (r, s) ← parsePrefix op? lit? fuel s
          some (.bin op l r, s)
      | none => (lit? c).map fun n => (.lit n, s)

/-- The parser reads back what was written. -/
theorem parsePrefix_toPrefix {sym : ω → χ} {word : ν → χ} {op? : χ → Option ω}
    {lit? : χ → Option ν} (ops : ∀ op, op? (sym op) = some op)
    (others : ∀ n, op? (word n) = none) (lits : ∀ n, lit? (word n) = some n)
    (t : Expr ω ν) (rest : List χ) {fuel : Nat} (enough : t.size ≤ fuel) :
    parsePrefix op? lit? fuel (t.toPrefix sym word ++ rest) = some (t, rest) := by
  induction t generalizing rest fuel with
  | lit n =>
      obtain ⟨fuel, rfl⟩ : ∃ f, fuel = f + 1 := ⟨fuel - 1, by rw [Expr.size] at enough; omega⟩
      rw [Expr.toPrefix, List.singleton_append, parsePrefix, others, lits]
      rfl
  | bin op l r ihl ihr =>
      rw [Expr.size] at enough
      obtain ⟨fuel, rfl⟩ : ∃ f, fuel = f + 1 := ⟨fuel - 1, by omega⟩
      rw [Expr.toPrefix, List.cons_append, List.append_assoc, parsePrefix, ops]
      dsimp only
      rw [ihl _ (by omega), Option.bind_eq_bind, Option.bind_some, ihr _ (by omega)]
      rfl

/-! ## Pending operators -/

/-- Apply the operators to the topmost operands, the right one on top. -/
def reduce (apply : ω → β → β → Option β) : List ω → List β → Option (List β)
  | [], operands => some operands
  | op :: ops, y :: x :: operands =>
      (apply op x y).bind fun z => reduce apply ops (z :: operands)
  | _ :: _, _ => none

theorem reduce_append {apply : ω → β → β → Option β} (ops rest : List ω) (operands : List β) :
    reduce apply (ops ++ rest) operands =
      (reduce apply ops operands).bind (reduce apply rest) := by
  induction ops generalizing operands with
  | nil => rfl
  | cons op ops ih =>
      match operands with
      | [] => rfl
      | [_] => rfl
      | y :: x :: operands =>
          rw [List.cons_append, reduce, reduce]
          cases apply op x y with
          | none => rfl
          | some z => exact ih (z :: operands)

/-- An operator that can be applied has two operands. -/
theorem reduce_cons_eq_some {apply : ω → β → β → Option β} {op : ω} {ops : List ω}
    {operands result : List β} (done : reduce apply (op :: ops) operands = some result) :
    ∃ y x operands' z, operands = y :: x :: operands' ∧ apply op x y = some z ∧
      reduce apply ops (z :: operands') = some result := by
  match operands with
  | [] => cases done
  | [_] => cases done
  | y :: x :: operands' =>
      obtain ⟨z, applied, done⟩ := Option.bind_eq_some_iff.mp done
      exact ⟨y, x, operands', z, rfl, applied, done⟩

end Shang.Lib
