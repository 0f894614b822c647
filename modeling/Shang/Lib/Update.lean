import Mathlib.Logic.Function.Basic

/-!
# Tables with empty entries

A table is a function to `Option`: what an entry is after one of them was emptied
or filled. The last lemma is about any table.
-/

namespace Shang.Lib

variable {α β : Type*} [DecidableEq α] {f : α → Option β} {a x : α} {v w : β}

/-- An entry that is there after `a` was emptied. -/
theorem update_none_eq_some :
    Function.update f a none x = some w ↔ x ≠ a ∧ f x = some w := by
  by_cases same : x = a
  · rw [same, Function.update_self]
    simp
  · rw [Function.update_of_ne same]
    simp [same]

/-- An entry that is there after `a` was filled. -/
theorem update_some_eq_some :
    Function.update f a (some v) x = some w ↔ x = a ∧ v = w ∨ x ≠ a ∧ f x = some w := by
  by_cases same : x = a
  · rw [same, Function.update_self]
    simp
  · rw [Function.update_of_ne same]
    simp [same]

/-- What an update does not change. -/
theorem apply_update_of_eq {γ : Type*} {g : α → β} (p : β → γ) (same : p v = p (g a)) :
    p (Function.update g a v x) = p (g x) := by
  by_cases here : x = a
  · rw [here, Function.update_self, same]
  · rw [Function.update_of_ne here]

end Shang.Lib
