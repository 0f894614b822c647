import Shang.Lib.Brackets
import Shang.Lib.CString
import Shang.Stack.LinkStack

/-!
# The bracket scanner

`bolan/scanner.c` checks that the brackets of a string match: it pushes the left
ones and takes one from the stack for every right one. It reads the memory from
`p` on up to the first NUL; `none` is a read behind the end of the memory.
-/

namespace Shang.Scanner

open Shang.Lib Shang.LinkStack

/-! ## The program -/

/-- `isleft(ch)`: one of `{`, `[`, `(` and `<`. -/
def isleft (ch : UInt8) : Bool := ch = 123 || ch = 91 || ch = 40 || ch = 60

/-- `isright(ch)`: one of `}`, `]`, `)` and `>`. -/
def isright (ch : UInt8) : Bool := ch = 125 || ch = 93 || ch = 41 || ch = 62

/-- `ismatch(left, right)` -/
def ismatch (left right : UInt8) : Bool :=
  match left with
  | 91 => right = 93
  | 123 => right = 125
  | 60 => right = 62
  | 40 => right = 41
  | _ => false

/-- The loop of `scanner`: the stack behind it, and `*p`. -/
def scannerLoop (stack : ByteStack) (tmp : UInt8) : List UInt8 → Option (ByteStack × UInt8)
  | [] => none
  | c :: p =>
      if c = 0 then some (stack, c)
      else if isleft c then scannerLoop (pushStack stack (c :: p)) tmp p
      else if isright c then
        if emptyStack stack then some (stack, c)
        else
          let (stack, _, mem) := popStack stack [tmp]
          let tmp := char mem
          if ismatch tmp c then scannerLoop stack tmp p else some (stack, c)
      else scannerLoop stack tmp p

/-- `scanner(p)`; the variable `tmp` holds anything at first. -/
def scanner (p : List UInt8) (tmp : UInt8) : Option Int := do
  let (stack, c) ← scannerLoop (initStack 1) tmp p
  some (if c = 0 ∧ emptyStack stack then 0 else -1)

/-! ## The brackets of a string -/

/-- The four kinds of brackets. -/
inductive Kind
  | brace
  | square
  | round
  | angle
  deriving DecidableEq

/-- The left bracket of a kind. -/
def Kind.left : Kind → UInt8
  | .brace => 123
  | .square => 91
  | .round => 40
  | .angle => 60

/-- The bracket a character is. -/
def bracket (ch : UInt8) : Option (Bracket Kind) :=
  match ch with
  | 123 => some (.left .brace)
  | 91 => some (.left .square)
  | 40 => some (.left .round)
  | 60 => some (.left .angle)
  | 125 => some (.right .brace)
  | 93 => some (.right .square)
  | 41 => some (.right .round)
  | 62 => some (.right .angle)
  | _ => none

variable {c tmp : UInt8} {k : Kind} {text rest : List UInt8}

/-- What the tests of `scanner` say of a character. -/
inductive Tested (c : UInt8) : Option (Bracket Kind) → Prop
  | left (k : Kind) (left : isleft c = true) (char : c = k.left) : Tested c (some (.left k))
  | right (k : Kind) (left : isleft c = false) (right : isright c = true)
      (matches_ : ∀ k' : Kind, ismatch k'.left c = decide (k' = k)) : Tested c (some (.right k))
  | none (left : isleft c = false) (right : isright c = false) : Tested c none

theorem tested (c : UInt8) : Tested c (bracket c) := by
  unfold bracket
  split
  · exact .left .brace rfl rfl
  · exact .left .square rfl rfl
  · exact .left .round rfl rfl
  · exact .left .angle rfl rfl
  · exact .right .brace rfl rfl fun k' => by cases k' <;> rfl
  · exact .right .square rfl rfl fun k' => by cases k' <;> rfl
  · exact .right .round rfl rfl fun k' => by cases k' <;> rfl
  · exact .right .angle rfl rfl fun k' => by cases k' <;> rfl
  · exact .none (by simp_all [isleft]) (by simp_all [isright])

/-- The loop has the left brackets of the machine on its stack and stops before the end of the
string where the machine does. -/
theorem scannerLoop_spec (st : List Kind) (tmp : UInt8) (text rest : List UInt8)
    (nonzero : 0 ∉ text) :
    ∃ stack c, scannerLoop (chars (st.map Kind.left)) tmp (text ++ 0 :: rest) = some (stack, c) ∧
      (c = 0 ∧ emptyStack stack = true ↔ unmatched st (text.filterMap bracket) = some []) := by
  induction text generalizing st tmp with
  | nil =>
      refine ⟨_, 0, rfl, ?_⟩
      cases st <;> simp [unmatched]
  | cons c text ih =>
      have nonzero' : 0 ∉ text := fun mem => nonzero (List.mem_cons_of_mem c mem)
      have more : c ≠ 0 := fun zero => nonzero (zero ▸ List.mem_cons_self)
      rw [List.cons_append, scannerLoop, if_neg more, List.filterMap_cons]
      have cases_ := tested c
      generalize bracket c = b at cases_ ⊢
      cases cases_ with
      | left k left char =>
          simp only [left, ↓reduceIte, pushStack_chars, unmatched]
          rw [char, ← List.map_cons]
          exact ih (k :: st) tmp nonzero'
      | right k left right matches_ =>
          simp only [left, right, Bool.false_eq_true, ↓reduceIte, emptyStack_chars]
          cases st with
          | nil => exact ⟨_, c, rfl, by simp [more, unmatched]⟩
          | cons k' st =>
              simp only [List.map_cons, List.isEmpty_cons, popStack_chars_cons, char,
                List.headD_cons, matches_, decide_eq_true_eq, Bool.false_eq_true, ↓reduceIte,
                unmatched]
              split
              · exact ih st k'.left nonzero'
              · exact ⟨_, c, rfl, by simp [more]⟩
      | none left right =>
          simp only [left, right, Bool.false_eq_true, ↓reduceIte]
          exact ih st tmp nonzero'

/-- `scanner` returns 0 for a string whose brackets form a word of the grammar, and -1 for any
other. -/
theorem scanner_spec (text rest : List UInt8) (tmp : UInt8) (nonzero : 0 ∉ text) :
    (scanner (text ++ 0 :: rest) tmp = some 0 ↔ WellBracketed (text.filterMap bracket)) ∧
      (¬ WellBracketed (text.filterMap bracket) →
        scanner (text ++ 0 :: rest) tmp = some (-1)) := by
  obtain ⟨stack, c, ran, accepts⟩ := scannerLoop_spec [] tmp text rest nonzero
  rw [unmatched_iff] at accepts
  have result : scanner (text ++ 0 :: rest) tmp =
      some (if c = 0 ∧ emptyStack stack = true then 0 else -1) := by
    simp only [scanner, initStack_chars]
    rw [List.map_nil] at ran
    rw [ran]
    rfl
  rw [result, ← accepts]
  constructor
  · split <;> simp_all
  · intro other
    rw [if_neg other]

theorem scanner_spec_main :
    scanner (ascii "hel<lo(world) \x7bgood\x7d[boy]>>" ++ [0]) 7 = some (-1) := by
  apply (scanner_spec _ [] 7 (by decide)).2
  rw [← unmatched_iff]
  decide

end Shang.Scanner
