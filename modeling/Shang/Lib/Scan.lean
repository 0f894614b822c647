import Shang.Lib.Places

/-!
# Scans

An index goes up or down an array as long as it meets values with a property, and not
past a bound. The property is tested first, so the value at the bound is read, too.
Where a scan ends does not depend on how much of the memory belongs to the array.
-/

namespace Shang.Lib.Act

variable {α : Type}

section Program

variable (arr : Arr Int) (p : α → Prop) [DecidablePred p] (bound : Int)

/-- `while (p(arr[i]) && i < bound) i++`, with `i` in the end. -/
def scanUp : Nat → Int → Act (Int → α) Int
  | 0, _ => spent
  | fuel + 1, i => do
      let x ← load arr i
      if p x ∧ i < bound then scanUp fuel (i + 1) else pure i

/-- `while (p(arr[i]) && bound < i) i--`, with `i` in the end. -/
def scanDown : Nat → Int → Act (Int → α) Int
  | 0, _ => spent
  | fuel + 1, i => do
      let x ← load arr i
      if p x ∧ bound < i then scanDown fuel (i - 1) else pure i

end Program

variable {p : α → Prop} [DecidablePred p] {bound i lo hi : Int} {fuel : Nat} {a : Int → α}

theorem scanUp_stop (low : lo ≤ i) (high : i < hi) (some : 0 < fuel)
    (stop : ¬ (p (a i) ∧ i < bound)) : scanUp (.plain lo hi) p bound fuel i a = .ended i a := by
  obtain ⟨fuel, rfl⟩ := Nat.exists_eq_add_one.mpr some
  rw [scanUp, bind_ended (load_plain low high a), if_neg stop]
  rfl

theorem scanUp_succ (low : lo ≤ i) (high : i < hi) (goesOn : p (a i)) (less : i < bound) :
    scanUp (.plain lo hi) p bound (fuel + 1) i a =
      scanUp (.plain lo hi) p bound fuel (i + 1) a := by
  rw [scanUp, bind_ended (load_plain low high a), if_pos ⟨goesOn, less⟩]

theorem scanDown_stop (low : lo ≤ i) (high : i < hi) (some : 0 < fuel)
    (stop : ¬ (p (a i) ∧ bound < i)) : scanDown (.plain lo hi) p bound fuel i a = .ended i a := by
  obtain ⟨fuel, rfl⟩ := Nat.exists_eq_add_one.mpr some
  rw [scanDown, bind_ended (load_plain low high a), if_neg stop]
  rfl

theorem scanDown_succ (low : lo ≤ i) (high : i < hi) (goesOn : p (a i)) (less : bound < i) :
    scanDown (.plain lo hi) p bound (fuel + 1) i a =
      scanDown (.plain lo hi) p bound fuel (i - 1) a := by
  rw [scanDown, bind_ended (load_plain low high a), if_pos ⟨goesOn, less⟩]

/-- A scan up ends at the bound or at the first value without the property. -/
theorem scanUp_ended (p : α → Prop) [DecidablePred p] (a : Int → α) (le : i ≤ bound) :
    ∃ k, (∀ {lo hi : Int} {fuel : Nat}, lo ≤ i → bound < hi → bound - i < fuel →
        scanUp (.plain lo hi) p bound fuel i a = .ended k a) ∧
      (i ≤ k ∧ k ≤ bound) ∧ (∀ l, i ≤ l → l < k → p (a l)) ∧ (k = bound ∨ ¬ p (a k)) := by
  obtain ⟨n, rest⟩ : ∃ n : Nat, bound = i + n := ⟨(bound - i).toNat, by omega⟩
  induction n generalizing i with
  | zero =>
      refine ⟨i, fun low high enough => ?_, by omega, fun l low less => by omega, by omega⟩
      exact scanUp_stop low (by omega) (by omega) (by omega)
  | succ n ih =>
      by_cases goesOn : p (a i)
      · obtain ⟨k, ran, inside, passed, stop⟩ := ih (i := i + 1) (by omega) (by omega)
        refine ⟨k, fun {_ _ fuel} low high enough => ?_, by omega, fun l low less => ?_, stop⟩
        · obtain ⟨fuel, rfl⟩ : ∃ f, fuel = f + 1 := ⟨fuel - 1, by omega⟩
          rw [scanUp_succ low (by omega) goesOn (by omega)]
          exact ran (by omega) high (by omega)
        · rcases Int.le_iff_eq_or_lt.mp low with rfl | later
          · exact goesOn
          · exact passed l later less
      · refine ⟨i, fun low high enough => ?_, by omega, fun l low less => by omega, .inr goesOn⟩
        exact scanUp_stop low (by omega) (by omega) fun both => goesOn both.1

/-- A scan down ends at the bound or at the first value without the property. -/
theorem scanDown_ended (p : α → Prop) [DecidablePred p] (a : Int → α) (le : bound ≤ i) :
    ∃ k, (∀ {lo hi : Int} {fuel : Nat}, lo ≤ bound → i < hi → i - bound < fuel →
        scanDown (.plain lo hi) p bound fuel i a = .ended k a) ∧
      (bound ≤ k ∧ k ≤ i) ∧ (∀ l, k < l → l ≤ i → p (a l)) ∧ (k = bound ∨ ¬ p (a k)) := by
  obtain ⟨n, rest⟩ : ∃ n : Nat, i = bound + n := ⟨(i - bound).toNat, by omega⟩
  induction n generalizing i with
  | zero =>
      refine ⟨i, fun low high enough => ?_, by omega, fun l less high => by omega, by omega⟩
      exact scanDown_stop (by omega) high (by omega) (by omega)
  | succ n ih =>
      by_cases goesOn : p (a i)
      · obtain ⟨k, ran, inside, passed, stop⟩ := ih (i := i - 1) (by omega) (by omega)
        refine ⟨k, fun {_ _ fuel} low high enough => ?_, by omega, fun l less high => ?_, stop⟩
        · obtain ⟨fuel, rfl⟩ : ∃ f, fuel = f + 1 := ⟨fuel - 1, by omega⟩
          rw [scanDown_succ (by omega) high goesOn (by omega)]
          exact ran low (by omega) (by omega)
        · rcases Int.le_iff_eq_or_lt.mp high with rfl | earlier
          · exact goesOn
          · exact passed l less (by omega)
      · refine ⟨i, fun low high enough => ?_, by omega, fun l less high => by omega, .inr goesOn⟩
        exact scanDown_stop (by omega) high (by omega) fun both => goesOn both.1

end Shang.Lib.Act
