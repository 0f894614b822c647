import Mathlib.Data.List.Basic

/-!
# Words of brackets

Brackets of several kinds, the grammar of the words in which they match, and
the machine that keeps the kinds of the open ones on a stack. `unmatched_iff` is
the equivalence: the machine ends with an empty stack on exactly the words of
the grammar. For a stack that is not empty the words are the ones of `Closes`,
which close the open brackets one by one.
-/

namespace Shang.Lib

/-- A bracket of some kind. -/
inductive Bracket (κ : Type*)
  | left (k : κ)
  | right (k : κ)
  deriving DecidableEq

variable {κ : Type*}

/-- `S -> empty | S ( S )` for every kind of brackets. -/
inductive WellBracketed : List (Bracket κ) → Prop
  | empty : WellBracketed []
  | wrap (k : κ) {u v : List (Bracket κ)} : WellBracketed u → WellBracketed v →
      WellBracketed (u ++ .left k :: (v ++ [.right k]))

/-- The open brackets after a word, the last one first, if all right ones match. -/
def unmatched [DecidableEq κ] : List κ → List (Bracket κ) → Option (List κ)
  | st, [] => some st
  | st, .left k :: w => unmatched (k :: st) w
  | [], .right _ :: _ => none
  | k :: st, .right k' :: w => if k = k' then unmatched st w else none

/-- The words that close the open brackets of a stack. -/
inductive Closes : List κ → List (Bracket κ) → Prop
  | nil {w : List (Bracket κ)} : WellBracketed w → Closes [] w
  | cons (k : κ) {st : List κ} {u w : List (Bracket κ)} : WellBracketed u → Closes st w →
      Closes (k :: st) (u ++ .right k :: w)

variable {u v w : List (Bracket κ)} {st : List κ} {k : κ}

theorem WellBracketed.append (left : WellBracketed u) (right : WellBracketed v) :
    WellBracketed (u ++ v) := by
  induction right with
  | empty => rwa [List.append_nil]
  | wrap k _ inner ih _ =>
      rw [← List.append_assoc]
      exact ih.wrap k inner

theorem Closes.prepend (word : WellBracketed u) (closes : Closes st w) : Closes st (u ++ w) := by
  cases closes with
  | nil rest => exact .nil (word.append rest)
  | cons k first rest =>
      rw [← List.append_assoc]
      exact .cons k (word.append first) rest

/-- A bracket in front of what closes it and the others. -/
theorem Closes.open (closes : Closes (k :: st) w) : Closes st (.left k :: w) := by
  cases closes with
  | @cons _ _ u v inner rest =>
      have word : WellBracketed (.left k :: (u ++ [.right k])) := WellBracketed.empty.wrap k inner
      have joined := rest.prepend word
      rwa [List.cons_append, List.append_assoc, List.singleton_append] at joined

variable [DecidableEq κ]

/-- The machine comes back to its stack behind a word of the grammar. -/
theorem WellBracketed.unmatched_append (word : WellBracketed u) (st : List κ)
    (rest : List (Bracket κ)) : unmatched st (u ++ rest) = unmatched st rest := by
  induction word generalizing st rest with
  | empty => rfl
  | wrap k _ _ ihu ihv =>
      rw [List.append_assoc, ihu, List.cons_append, unmatched, List.append_assoc, ihv,
        List.singleton_append, unmatched, if_pos rfl]

theorem closes_of_unmatched (ends : unmatched st w = some []) : Closes st w := by
  induction w generalizing st with
  | nil =>
      obtain rfl := Option.some.inj ends
      exact .nil .empty
  | cons b w ih =>
      cases b with
      | left k => exact (ih ends).open
      | right k' =>
          cases st with
          | nil => cases ends
          | cons k st =>
              rw [unmatched] at ends
              split at ends
              · next same =>
                  subst same
                  exact .cons k .empty (ih ends)
              · cases ends

/-- The machine accepts the words of the grammar and no others. -/
theorem unmatched_iff : unmatched [] w = some [] ↔ WellBracketed w := by
  constructor
  · intro ends
    cases closes_of_unmatched ends with
    | nil word => exact word
  · intro word
    have back := word.unmatched_append [] []
    rwa [List.append_nil] at back

end Shang.Lib
