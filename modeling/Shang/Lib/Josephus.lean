import Mathlib.Data.List.Rotate

/-!
# Counting out

Elements stand in a circle, given as a list that begins where the count begins. Every
`k`-th of those that remain is counted out, and the next count begins behind it. The
place of the one that remains at last satisfies the recurrence `survivor`.
-/

namespace Shang.Lib

open List

variable {α β : Type*} {k m : Nat} {l : List α}

/-- Count out `m` elements: these in their order, and the circle that remains. -/
def countOut (k : Nat) : Nat → List α → List α × List α
  | 0, l => ([], l)
  | m + 1, l =>
      match l.rotate (k - 1) with
      | [] => ([], [])
      | x :: rest => (x :: (countOut k m rest).1, (countOut k m rest).2)

/-- The place of the last one in a circle of so many, from 0 on. -/
def survivor (k : Nat) : Nat → Nat
  | 0 => 0
  | 1 => 0
  | m + 2 => (survivor k (m + 1) + k) % (m + 2)

theorem countOut_succ {x : α} {rest : List α} (turned : l.rotate (k - 1) = x :: rest) (m : Nat) :
    countOut k (m + 1) l = (x :: (countOut k m rest).1, (countOut k m rest).2) := by
  rw [countOut, turned]

/-- A circle with more than one element has one to be counted out. -/
theorem exists_turned (k : Nat) (size : l.length = m + 1) :
    ∃ x rest, l.rotate (k - 1) = x :: rest ∧ rest.length = m := by
  have turned : (l.rotate (k - 1)).length = m + 1 := by rw [List.length_rotate, size]
  obtain ⟨x, rest, split⟩ := List.exists_cons_of_length_eq_add_one turned
  rw [split, List.length_cons] at turned
  exact ⟨x, rest, split, Nat.succ.inj turned⟩

/-- Everyone is counted out once or remains. -/
theorem countOut_perm (enough : m ≤ l.length) :
    ((countOut k m l).2 ++ (countOut k m l).1).Perm l := by
  induction m generalizing l with
  | zero => rw [countOut, List.append_nil]
  | succ m ih =>
      obtain ⟨n, size⟩ := Nat.exists_eq_add_of_le' enough
      obtain ⟨x, rest, turned, left⟩ := exists_turned k (size.trans (Nat.add_assoc n m 1).symm)
      rw [countOut_succ turned]
      calc (countOut k m rest).2 ++ x :: (countOut k m rest).1
        _ ~ x :: ((countOut k m rest).2 ++ (countOut k m rest).1) := List.perm_middle
        _ ~ x :: rest := (ih (by omega)).cons x
        _ ~ l := turned ▸ l.rotate_perm (k - 1)

theorem countOut_map (f : α → β) (m : Nat) (l : List α) :
    countOut k m (l.map f) = ((countOut k m l).1.map f, (countOut k m l).2.map f) := by
  induction m generalizing l with
  | zero => rfl
  | succ m ih =>
      rw [countOut, countOut, ← List.map_rotate]
      cases l.rotate (k - 1) with
      | nil => rfl
      | cons x rest => simp only [List.map_cons, ih]

theorem survivor_lt (k m : Nat) : survivor k (m + 1) < m + 1 := by
  cases m with
  | zero => exact Nat.one_pos
  | succ m => exact Nat.mod_lt _ (Nat.succ_pos _)

/-- The one that remains stands at `survivor`. -/
theorem countOut_survivor (some : 0 < k) (size : l.length = m + 1) :
    (countOut k m l).2 = l[survivor k (m + 1)]?.toList := by
  induction m generalizing l with
  | zero =>
      obtain ⟨x, rfl⟩ := List.length_eq_one_iff.mp size
      rfl
  | succ m ih =>
      obtain ⟨x, rest, turned, left⟩ := exists_turned k size
      rw [countOut_succ turned]
      dsimp only
      have inside := survivor_lt k m
      calc (countOut k m rest).2
        _ = (x :: rest)[survivor k (m + 1) + 1]?.toList := ih left
        _ = l[(survivor k (m + 1) + 1 + (k - 1)) % l.length]?.toList := by
            rw [← turned, List.getElem?_rotate (by omega)]
        _ = l[survivor k (m + 2)]?.toList := by
            rw [size, survivor, Nat.add_assoc, Nat.add_sub_cancel' some]

end Shang.Lib
