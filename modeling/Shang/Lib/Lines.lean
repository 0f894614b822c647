import Mathlib.Data.List.Basic
import Mathlib.Algebra.BigOperators.Group.List.Basic

/-!
# Lines of a file

A line is what ends at the first separator. A file of lines is their
concatenation, so that a place between two lines is the length of the lines
before it.
-/

namespace Shang.Lib

/-- The largest value of an `int`. -/
def intMax : Nat := 2147483647

/-- `n++` for an `int` that is not negative, which may overflow. -/
def succInt (n : Nat) : Option Nat := if n < intMax then some (n + 1) else none

theorem succInt_of_lt {n : Nat} (small : n < intMax) : succInt n = some (n + 1) := if_pos small

variable {α : Type} {sep : α} {l body : List α} {ls : List (List α)} {k : Nat}

/-- The separator is at the end, and nowhere else. -/
def IsLine (sep : α) (l : List α) : Prop := ∃ body, l = body ++ [sep] ∧ sep ∉ body

theorem IsLine.pos (line : IsLine sep l) : 0 < l.length := by
  obtain ⟨body, rfl, -⟩ := line
  simp

/-- What is left of a line is a line. -/
theorem IsLine.drop (line : IsLine sep l) (inside : k < l.length) : IsLine sep (l.drop k) := by
  obtain ⟨body, rfl, plain⟩ := line
  have short : k ≤ body.length := by
    rw [List.length_append, List.length_singleton] at inside
    exact Nat.le_of_lt_succ inside
  refine ⟨body.drop k, List.drop_append_of_le_length short, fun mem => ?_⟩
  exact plain (List.mem_of_mem_drop mem)

/-- There are not more lines than bytes. -/
theorem length_le_flatten (lines : ∀ l ∈ ls, IsLine sep l) : ls.length ≤ ls.flatten.length := by
  induction ls with
  | nil => exact Nat.le_refl 0
  | cons l ls ih =>
      obtain ⟨line, lines⟩ := List.forall_mem_cons.mp lines
      have := line.pos
      have := ih lines
      rw [List.length_cons, List.flatten_cons, List.length_append]
      omega

variable [DecidableEq α] {bytes rest : List α}

/-- The lines of a file. The last one may lack the separator. -/
def linesOf (sep : α) : List α → List (List α)
  | [] => []
  | x :: bytes =>
    if x = sep then [x] :: linesOf sep bytes
    else match linesOf sep bytes with
      | [] => [[x]]
      | l :: ls => (x :: l) :: ls

theorem flatten_linesOf (sep : α) (bytes : List α) : (linesOf sep bytes).flatten = bytes := by
  induction bytes with
  | nil => rfl
  | cons x bytes ih =>
      rw [linesOf]
      split
      · rw [List.flatten_cons, ih, List.singleton_append]
      · split
        · next none_ =>
            rw [none_] at ih
            rw [← ih]
            rfl
        · next l ls some_ =>
            rw [some_] at ih
            rw [← ih]
            rfl

theorem linesOf_line (line : IsLine sep l) (rest : List α) :
    linesOf sep (l ++ rest) = l :: linesOf sep rest := by
  obtain ⟨body, rfl, plain⟩ := line
  induction body with
  | nil => exact if_pos rfl
  | cons x body ih =>
      obtain ⟨other, plain⟩ := not_or.mp (List.mem_cons.not.mp plain)
      rw [List.cons_append, List.cons_append, linesOf, if_neg (Ne.symm other), ih plain]

/-- Bytes without a separator are one line. -/
theorem linesOf_open (some_ : body ≠ []) (plain : sep ∉ body) : linesOf sep body = [body] := by
  induction body with
  | nil => exact absurd rfl some_
  | cons x body ih =>
      obtain ⟨other, plain⟩ := not_or.mp (List.mem_cons.not.mp plain)
      rw [linesOf, if_neg (Ne.symm other)]
      cases body with
      | nil => rfl
      | cons y body => rw [ih (List.cons_ne_nil y body) plain]

/-- A file is empty, or it has a first line. -/
theorem exists_line (sep : α) (bytes : List α) : bytes = [] ∨ bytes ≠ [] ∧ sep ∉ bytes ∨
    ∃ l rest, bytes = l ++ rest ∧ IsLine sep l := by
  induction bytes with
  | nil => exact .inl rfl
  | cons x bytes ih =>
      right
      by_cases ends : x = sep
      · exact .inr ⟨[x], bytes, rfl, [], by rw [ends]; rfl, List.not_mem_nil⟩
      rcases ih with rfl | ⟨-, plain⟩ | ⟨l, rest, rfl, body, rfl, plain⟩
      · exact .inl ⟨List.cons_ne_nil x [], by simpa using Ne.symm ends⟩
      · exact .inl ⟨List.cons_ne_nil x bytes, by simpa using ⟨Ne.symm ends, plain⟩⟩
      · exact .inr ⟨x :: (body ++ [sep]), rest, rfl, x :: body, rfl,
          by simpa using ⟨Ne.symm ends, plain⟩⟩

/-- All lines are complete exactly when the file ends with a separator. -/
theorem forall_isLine_linesOf :
    (∀ l ∈ linesOf sep bytes, IsLine sep l) ↔ bytes = [] ∨ bytes.getLast? = some sep := by
  induction size : bytes.length using Nat.strongRecOn generalizing bytes with
  | ind size' ih =>
      rcases exists_line sep bytes with rfl | ⟨some_, plain⟩ | ⟨l, rest, rfl, line⟩
      · exact iff_of_true (List.forall_mem_nil _) (.inl rfl)
      · rw [linesOf_open some_ plain, List.forall_mem_singleton]
        refine iff_of_false ?_ ?_
        · intro ⟨body, split, _⟩
          rw [split] at plain
          exact plain (List.mem_append_right _ (List.mem_singleton_self sep))
        · intro ends
          exact plain (List.mem_of_getLast? (ends.resolve_left some_))
      · have less : rest.length < size' := by
          have := line.pos
          rw [← size, List.length_append]
          omega
        rw [linesOf_line line, List.forall_mem_cons, and_iff_right line, ih _ less rfl]
        obtain ⟨body, rfl, -⟩ := line
        cases rest with
        | nil => simp
        | cons x rest => simp [List.getLast?_append]

end Shang.Lib
