import Shang.Lib.Infix
import Mathlib.Algebra.GroupWithZero.Nat

/-!
# The arithmetic operators of C on `int`

The four binary operators with their characters, precedences and results. An
operation is undefined when it divides by zero or when its result is not an
`int` of 32 bits. A quotient is rounded towards zero.

In memory an `int` has four bytes, the low one first. A `signed char` holds what
its low byte stands for, which is the balanced remainder.
-/

namespace Shang.Lib

inductive Arith
  | add
  | sub
  | mul
  | div
  deriving DecidableEq

/-- The values of an `int`. -/
def IsInt (x : Int) : Prop := -2147483648 ≤ x ∧ x ≤ 2147483647

instance (x : Int) : Decidable (IsInt x) := inferInstanceAs (Decidable (_ ∧ _))

namespace Arith

/-- `+`, `-`, `*` and `/`. -/
def char : Arith → UInt8
  | add => 43
  | sub => 45
  | mul => 42
  | div => 47

def prec : Arith → Nat
  | add => 0
  | sub => 0
  | mul => 1
  | div => 1

/-- The operator that a character stands for. -/
def ofChar (c : UInt8) : Option Arith :=
  match c with
  | 43 => some add
  | 45 => some sub
  | 42 => some mul
  | 47 => some div
  | _ => none

/-- The result without a bound. -/
def result : Arith → Int → Int → Int
  | add, x, y => x + y
  | sub, x, y => x - y
  | mul, x, y => x * y
  | div, x, y => x.tdiv y

/-- The result as an `int`. -/
def apply (op : Arith) (x y : Int) : Option Int :=
  if (op = div ∧ y = 0) ∨ ¬ IsInt (op.result x y) then none else some (op.result x y)

theorem ofChar_char (op : Arith) : ofChar op.char = some op := by
  cases op <;> rfl

theorem isInt_of_apply {op : Arith} {x y z : Int} (defined : op.apply x y = some z) : IsInt z := by
  unfold apply at defined
  split at defined
  · cases defined
  · next sound =>
      obtain rfl := Option.some.inj defined
      exact of_not_not (mt .inr sound)

end Arith

/-! ## Integers in memory -/

/-- The low byte. -/
def byte (x : Int) : UInt8 := UInt8.ofNat (x % 256).toNat

/-- The bytes of an `int`. -/
def intBytes (x : Int) : List UInt8 :=
  [byte x, byte (x / 256), byte (x / 65536), byte (x / 16777216)]

/-- The `int` with these bytes. -/
def intOfBytes (mem : List UInt8) : Int :=
  (mem.foldr (fun b n => (b.toNat : Int) + 256 * n) 0).bmod 4294967296

/-- The value of a `signed char`. -/
def signed (c : UInt8) : Int := (c.toNat : Int).bmod 256

theorem toNat_byte (x : Int) : ((byte x).toNat : Int) = x % 256 := by
  have low := Int.emod_nonneg x (show (256 : Int) ≠ 0 by decide)
  have high := Int.emod_lt_of_pos x (show (0 : Int) < 256 by decide)
  rw [byte, UInt8.toNat_ofNat', Nat.mod_eq_of_lt (by omega), Int.toNat_of_nonneg low]

theorem intOfBytes_intBytes {x : Int} (int : IsInt x) : intOfBytes (intBytes x) = x := by
  rw [IsInt] at int
  have sum : (intBytes x).foldr (fun b n => (b.toNat : Int) + 256 * n) 0 = x % 4294967296 := by
    simp only [intBytes, List.foldr_cons, List.foldr_nil, toNat_byte]
    omega
  rw [intOfBytes, sum, Int.bmod_def]
  split <;> omega

theorem signed_byte (x : Int) : signed (byte x) = x.bmod 256 := by
  calc signed (byte x) = (x % 256).bmod 256 := congrArg (Int.bmod · 256) (toNat_byte x)
    _ = x.bmod 256 := by
      have reduced := Int.bmod_def (x % 256) 256
      have whole := Int.bmod_def x 256
      omega

/-! ## Words in memory -/

/-- The bytes of a word of `n` bytes. -/
def wordBytes : Nat → Nat → List UInt8
  | 0, _ => []
  | n + 1, x => UInt8.ofNat (x % 256) :: wordBytes n (x / 256)

/-- The word with these bytes. -/
def wordOf (mem : List UInt8) : Nat := mem.foldr (fun b x => b.toNat + 256 * x) 0

theorem length_wordBytes (n x : Nat) : (wordBytes n x).length = n := by
  induction n generalizing x with
  | zero => rfl
  | succ n ih => rw [wordBytes, List.length_cons, ih]

theorem wordOf_wordBytes {n x : Nat} (fits : x < 256 ^ n) : wordOf (wordBytes n x) = x := by
  induction n generalizing x with
  | zero => exact (Nat.lt_one_iff.mp fits).symm
  | succ n ih =>
      have high : x / 256 < 256 ^ n := Nat.div_lt_of_lt_mul (by rwa [Nat.pow_succ'] at fits)
      have low : (UInt8.ofNat (x % 256)).toNat = x % 256 := by
        rw [UInt8.toNat_ofNat', Nat.mod_eq_of_lt (Nat.mod_lt x (by decide))]
      calc wordOf (wordBytes (n + 1) x)
          = (UInt8.ofNat (x % 256)).toNat + 256 * wordOf (wordBytes n (x / 256)) := rfl
        _ = x % 256 + 256 * (x / 256) := by rw [low, ih high]
        _ = x := Nat.mod_add_div x 256

end Shang.Lib
