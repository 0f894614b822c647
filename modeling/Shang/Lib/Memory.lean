import Mathlib.Algebra.Order.Group.Nat
import Mathlib.Tactic.Ring

/-!
# Byte memories

A memory maps addresses to bytes. `load` reads a number of `n` bytes, least
significant byte first, and `store` writes one; `fill` sets every byte of a
range to zero. Each operation has one lemma for the addresses it writes and one
for those it leaves alone, so that facts about overlapping and disjoint ranges
come down to inequalities between addresses.
-/

namespace Shang.Lib

/-- A byte for every address. -/
abbrev Memory := Nat → UInt8

variable {m m' : Memory} {n k a b v x i : Nat}

/-- The number in the `n` bytes from `a` on. -/
def load (m : Memory) : Nat → Nat → Nat
  | 0, _ => 0
  | n + 1, a => (m a).toNat + 256 * load m n (a + 1)

/-- Write `v` to the `n` bytes from `a` on. -/
def store (m : Memory) : Nat → Nat → Nat → Memory
  | 0, _, _ => m
  | n + 1, a, v => fun x => if x = a then UInt8.ofNat v else store m n (a + 1) (v / 256) x

/-- Set the `n` bytes from `a` on to zero. -/
def fill (m : Memory) (n a : Nat) : Memory :=
  fun x => if a ≤ x ∧ x < a + n then 0 else m x

theorem fill_off (off : x < a ∨ a + n ≤ x) : fill m n a x = m x :=
  if_neg (by omega)

@[simp] theorem fill_zero : fill m 0 a = m :=
  funext fun _ => fill_off (by omega)

/-- Zeroing a range is zeroing its first byte and then the rest. -/
theorem fill_succ : fill m (n + 1) a = fill (store m 1 a 0) n (a + 1) := by
  funext x
  unfold fill store store
  by_cases first : x = a
  · rw [if_pos (by omega), if_neg (by omega), if_pos first]
    rfl
  · simp only [if_neg first]
    exact if_congr (by omega) rfl rfl

theorem store_off (off : x < a ∨ a + n ≤ x) : store m n a v x = m x := by
  induction n generalizing a v with
  | zero => rfl
  | succ n ih =>
      unfold store
      rw [if_neg (by omega)]
      exact ih (by omega)

/-- A load reads its own bytes only. -/
theorem load_congr (same : ∀ i < n, m' (a + i) = m (a + i)) : load m' n a = load m n a := by
  induction n generalizing a with
  | zero => rfl
  | succ n ih =>
      have first : m' a = m a := same 0 (by omega)
      have rest : load m' n (a + 1) = load m n (a + 1) := by
        apply ih
        intro i inside
        have next := same (i + 1) (by omega)
        rwa [show a + 1 + i = a + (i + 1) by omega]
      unfold load
      rw [first, rest]

theorem load_lt : load m n a < 256 ^ n := by
  induction n generalizing a with
  | zero => exact Nat.one_pos
  | succ n ih =>
      have byte := (m a).toNat_lt
      have rest := @ih (a + 1)
      unfold load
      rw [pow_succ]
      omega

/-- What was stored is loaded again, up to the width. -/
theorem load_store_self : load (store m n a v) n a = v % 256 ^ n := by
  induction n generalizing a v with
  | zero => exact (Nat.mod_one v).symm
  | succ n ih =>
      have rest : load (store m (n + 1) a v) n (a + 1)
          = load (store m n (a + 1) (v / 256)) n (a + 1) :=
        load_congr fun i _ => if_neg (by omega)
      have first : store m (n + 1) a v a = UInt8.ofNat v := if_pos rfl
      unfold load
      rw [rest, first, ih, UInt8.toNat_ofNat', pow_succ' 256, Nat.mod_mul (a := 256)]

theorem load_store_off (off : b + k ≤ a ∨ a + n ≤ b) :
    load (store m n a v) k b = load m k b :=
  load_congr fun _ _ => store_off (by omega)

theorem load_fill_off (off : b + k ≤ a ∨ a + n ≤ b) : load (fill m n a) k b = load m k b :=
  load_congr fun _ _ => fill_off (by omega)

/-- Storing what was loaded copies the bytes. -/
theorem store_load (inside : i < n) : store m n a (load m' n b) (a + i) = m' (b + i) := by
  induction n generalizing a b i with
  | zero => omega
  | succ n ih =>
      unfold load store
      rcases i with _ | i
      · rw [if_pos (Nat.add_zero a), Nat.add_zero b]
        apply UInt8.toNat_inj.mp
        rw [UInt8.toNat_ofNat']
        have byte := (m' b).toNat_lt
        omega
      · have byte := (m' b).toNat_lt
        rw [if_neg (by omega), show a + (i + 1) = a + 1 + i by omega,
          show ((m' b).toNat + 256 * load m' n (b + 1)) / 256 = load m' n (b + 1) by omega,
          ih (by omega)]
        exact congrArg m' (by omega)

end Shang.Lib
