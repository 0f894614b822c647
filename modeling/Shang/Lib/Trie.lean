import Mathlib.Logic.Function.Basic
import Mathlib.Data.List.Basic

/-!
# Tries

A node has a child for every letter and a value of its own, so that a key leads
to the node that stands for it. `upsert` changes the value at a key; where the
trie ends before the key does, it makes nodes with fresh values, which may be
others at every depth. `val?_find_upsert` says what every key finds afterwards:
the key itself the changed value, its beginnings a node that is there, and all
other keys what they found before.
-/

namespace Shang.Lib

open Function

/-- `null` is the empty trie. -/
inductive Trie (ι β : Type*)
  | null
  | node (ch : ι → Trie ι β) (val : β)

namespace Trie

variable {ι β : Type*}

/-- The part of the trie that a key leads to. -/
def find : Trie ι β → List ι → Trie ι β
  | .null, _ => .null
  | .node ch val, [] => .node ch val
  | .node ch _, i :: key => (ch i).find key

/-- The value at the root. -/
def val? : Trie ι β → Option β
  | .null => none
  | .node _ val => some val

/-- Change the value at a key. -/
def upsert [DecidableEq ι] (store : β → β) : (Nat → β) → Trie ι β → List ι → Trie ι β
  | fresh, .null, [] => .node (fun _ => .null) (store (fresh 0))
  | _, .node ch val, [] => .node ch (store val)
  | fresh, .null, i :: key =>
      .node (update (fun _ => .null) i (upsert store (fun n => fresh (n + 1)) .null key)) (fresh 0)
  | fresh, .node ch val, i :: key =>
      .node (update ch i (upsert store (fun n => fresh (n + 1)) (ch i) key)) val

@[simp] theorem find_null (key : List ι) : (null : Trie ι β).find key = .null := by
  rw [find]

@[simp] theorem val?_null : (null : Trie ι β).val? = none := rfl

@[simp] theorem val?_node (ch : ι → Trie ι β) (val : β) : (node ch val).val? = some val := rfl

theorem val?_eq_none {t : Trie ι β} : t.val? = none ↔ t = .null := by
  cases t <;> simp

variable [DecidableEq ι] (store : β → β) (fresh : Nat → β)

/-- A key that begins with the letter of an updated child, and any other key. -/
theorem find_update {ch : ι → Trie ι β} {t : Trie ι β} {val : β} {i j : ι} {k : List ι} :
    (node (update ch i t) val).find (j :: k) = if j = i then t.find k else (ch j).find k := by
  rw [find]
  split
  · next same => rw [same, update_self]
  · next other => rw [update_of_ne other]

/-- What a key finds after the value at `key` was changed. -/
theorem val?_find_upsert (t : Trie ι β) (key k : List ι) :
    ((t.upsert store fresh key).find k).val? =
      if k = key then some (store ((t.find key).val?.getD (fresh key.length)))
      else if k <+: key then some ((t.find k).val?.getD (fresh k.length))
      else (t.find k).val? := by
  induction key generalizing t fresh k with
  | nil =>
      cases k with
      | nil => cases t <;> rfl
      | cons j k =>
          rw [if_neg (List.cons_ne_nil j k), if_neg (by simp)]
          cases t <;> simp [upsert, find]
  | cons i key ih =>
      cases k with
      | nil =>
          rw [if_neg (List.cons_ne_nil i key).symm, if_pos List.nil_prefix]
          cases t <;> rfl
      | cons j k =>
          by_cases same : j = i
          · subst same
            simp only [List.cons.injEq, true_and, List.prefix_cons_inj, List.length_cons]
            cases t with
            | null =>
                rw [upsert, find_update, if_pos rfl, ih]
                simp only [find_null]
            | node ch val =>
                rw [upsert, find_update, if_pos rfl, ih]
                simp only [find]
          · have apart : ¬ (j :: k = i :: key) := fun eq => same (List.cons.inj eq).1
            have apart' : ¬ (j :: k <+: i :: key) :=
              fun pre => same (List.cons_prefix_cons.mp pre).1
            rw [if_neg apart, if_neg apart']
            cases t with
            | null =>
                rw [upsert, find_update, if_neg same]
                simp only [find_null]
            | node ch val =>
                rw [upsert, find_update, if_neg same]
                simp only [find]

end Trie

end Shang.Lib
