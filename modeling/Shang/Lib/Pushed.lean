import Mathlib.Data.Finset.Card
import Mathlib.Data.Finset.Dedup
import Mathlib.Data.List.Infix

/-!
# New values at the front of a bounded list

Values are put in front of a list that does not have them yet, as long as there is
room. All of them get there exactly if the number of different new values fits.
-/

namespace Shang.Lib

variable {α : Type*} [DecidableEq α] {n : Nat} {l xs : List α} {x y : α}

/-- Put `x` in front, unless it is there or `n` values are. -/
def pushNew (n : Nat) (l : List α) (x : α) : List α :=
  if x ∈ l then l else if l.length < n then x :: l else l

/-- Put the values of `xs` in front, one after the other. -/
def pushAll (n : Nat) (l xs : List α) : List α := xs.foldl (pushNew n) l

theorem pushNew_of_mem (mem : x ∈ l) : pushNew n l x = l := if_pos mem

theorem pushNew_of_room (new : x ∉ l) (room : l.length < n) : pushNew n l x = x :: l := by
  rw [pushNew, if_neg new, if_pos room]

theorem pushNew_of_full (full : n ≤ l.length) : pushNew n l x = l := by
  rw [pushNew, if_neg (Nat.not_lt.mpr full), ite_self]

theorem pushAll_nil : pushAll n l [] = l := rfl

theorem pushAll_cons : pushAll n l (x :: xs) = pushAll n (pushNew n l x) xs := rfl

theorem suffix_pushNew : l <:+ pushNew n l x := by
  rw [pushNew]
  split
  · exact List.suffix_refl l
  · split
    · exact List.suffix_cons x l
    · exact List.suffix_refl l

/-- The list is the end of what comes out. -/
theorem suffix_pushAll : l <:+ pushAll n l xs := by
  induction xs generalizing l with
  | nil => exact List.suffix_refl l
  | cons x xs ih => exact suffix_pushNew.trans ih

theorem length_pushNew_le (short : l.length ≤ n) : (pushNew n l x).length ≤ n := by
  rw [pushNew]
  split
  · exact short
  · split
    · assumption
    · exact short

theorem length_pushAll_le (short : l.length ≤ n) : (pushAll n l xs).length ≤ n := by
  induction xs generalizing l with
  | nil => exact short
  | cons x xs ih => exact ih (length_pushNew_le short)

/-- A value that is not there twice does not get there twice. -/
theorem count_pushAll_le (once : l.count x ≤ 1) : (pushAll n l xs).count x ≤ 1 := by
  induction xs generalizing l with
  | nil => exact once
  | cons y xs ih =>
      refine ih ?_
      rw [pushNew]
      split
      · exact once
      · rename_i new
        split
        · rcases eq_or_ne x y with rfl | other
          · rw [List.count_cons_self, List.count_eq_zero.mpr new]
          · rwa [List.count_cons_of_ne other.symm]
        · exact once

theorem mem_pushAll_of_mem (mem : x ∈ l) : x ∈ pushAll n l xs := suffix_pushAll.mem mem

/-- With room for all that is new, all gets there. -/
theorem mem_pushAll (room : l.length + (xs.toFinset \ l.toFinset).card ≤ n) :
    ∀ x ∈ xs, x ∈ pushAll n l xs := by
  induction xs generalizing l with
  | nil => exact fun x mem => absurd mem List.not_mem_nil
  | cons y xs ih =>
      rw [List.toFinset_cons] at room
      rw [List.forall_mem_cons, pushAll_cons]
      by_cases old : y ∈ l
      · rw [Finset.insert_sdiff_of_mem _ (List.mem_toFinset.mpr old)] at room
        rw [pushNew_of_mem old]
        exact ⟨mem_pushAll_of_mem old, ih room⟩
      · have new : y ∉ l.toFinset := fun mem => old (List.mem_toFinset.mp mem)
        have fewer : ((xs.toFinset \ (y :: l).toFinset)).card + 1 =
            (insert y xs.toFinset \ l.toFinset).card := by
          have here : y ∈ insert y xs.toFinset \ l.toFinset :=
            Finset.mem_sdiff.mpr ⟨Finset.mem_insert_self _ _, new⟩
          rw [List.toFinset_cons, ← Finset.card_erase_add_one here]
          congr 2
          ext z
          simp only [Finset.mem_sdiff, Finset.mem_erase, Finset.mem_insert]
          tauto
        rw [pushNew_of_room old (by omega)]
        exact ⟨mem_pushAll_of_mem List.mem_cons_self, ih (by rw [List.length_cons]; omega)⟩

/-- All gets there if and only if there is room for all that is new. -/
theorem mem_pushAll_iff (short : l.length ≤ n) :
    (∀ x ∈ xs, x ∈ pushAll n l xs) ↔ l.length + (xs.toFinset \ l.toFinset).card ≤ n := by
  refine ⟨fun all => ?_, mem_pushAll⟩
  obtain ⟨added, split⟩ : l <:+ pushAll n l xs := suffix_pushAll
  have inside : xs.toFinset \ l.toFinset ⊆ added.toFinset := fun x mem => by
    obtain ⟨inXs, new⟩ := Finset.mem_sdiff.mp mem
    have there := all x (List.mem_toFinset.mp inXs)
    rw [← split] at there
    exact List.mem_toFinset.mpr ((List.mem_append.mp there).resolve_right fun old =>
      new (List.mem_toFinset.mpr old))
  have few := (Finset.card_le_card inside).trans added.toFinset_card_le
  have total : (pushAll n l xs).length ≤ n := length_pushAll_le short
  rw [← split, List.length_append] at total
  omega

end Shang.Lib
