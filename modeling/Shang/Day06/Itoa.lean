import Mathlib.Data.List.Induction
import Mathlib.Tactic.Ring
import Shang.Lib.Arith
import Shang.Lib.CString

/-!
# Writing a number as text

`itoa.c` of `day06`: `itoa_r` recurses to the first digit, `itoa` writes the digits
from the last one on and then reverses them in place. Both take the remainders as they
are, so that the digits of a negative number are the characters before `'0'`.

A buffer is the list of its bytes. An access outside of it and a sum that is not an
`int` are undefined.
-/

namespace Shang.Day06

open Lib

def SIZE : Nat := 11

/-- A value that must be an `int`. -/
def checked (x : Int) : Option Int := if IsInt x then some x else none

/-- `p[i]` -/
def peek (p : List UInt8) (i : Int) : Option UInt8 :=
  if i < 0 then none else p[i.toNat]?

/-- `p[i] = c` -/
def poke (p : List UInt8) (i : Int) (c : UInt8) : Option (List UInt8) :=
  if i < 0 ∨ p.length ≤ i then none else some (p.set i.toNat c)

theorem natAbs_tdiv_lt {n : Int} (some : n ≠ 0) : (n.tdiv 10).natAbs < n.natAbs := by
  rw [Int.natAbs_tdiv]
  exact Nat.div_lt_self (Int.natAbs_pos.mpr some) (by decide)

/-- `_itoa_r`, with what it returns. -/
def itoaRec (p : List UInt8) (data : Int) : Option (List UInt8 × Int) :=
  if data = 0 then some (p, 0)
  else do
    let ch ← checked (data.tmod 10 + 48)
    let (p, index) ← itoaRec p (data.tdiv 10)
    let p ← poke p index (byte ch)
    let index ← checked (index + 1)
    some (p, index)
termination_by data.natAbs
decreasing_by exact natAbs_tdiv_lt ‹_›

/-- `itoa_r` -/
def itoaR (p : List UInt8) (num : Int) : Option (List UInt8) :=
  if num = 0 then do
    let p ← poke p 0 48
    poke p 1 0
  else do
    let (p, ind) ← itoaRec p num
    poke p ind 0

/-- The three assignments of `reverse`. -/
def xorSwap (p : List UInt8) (i j : Int) : Option (List UInt8) := do
  let p ← poke p i ((← peek p i) ^^^ (← peek p j))
  let p ← poke p j ((← peek p i) ^^^ (← peek p j))
  poke p i ((← peek p i) ^^^ (← peek p j))

/-- The loop of `reverse`, with the two pointers at `i` and `j`. -/
def reverseLoop (p : List UInt8) (i j : Int) : Option (List UInt8) :=
  if i < j then do
    let p ← xorSwap p i j
    reverseLoop p (i + 1) (j - 1)
  else some p
termination_by (j - i).toNat
decreasing_by omega

def reverse (p : List UInt8) (len : Int) : Option (List UInt8) := reverseLoop p 0 (0 + len - 1)

/-- The loop of `itoa`, with its pointer at `i`. -/
def itoaLoop (p : List UInt8) (i num : Int) : Option (List UInt8 × Int) :=
  if num = 0 then some (p, i)
  else do
    let c ← checked (num.tmod 10 + 48)
    let p ← poke p i (byte c)
    itoaLoop p (i + 1) (num.tdiv 10)
termination_by num.natAbs
decreasing_by exact natAbs_tdiv_lt ‹_›

/-- `strlen`; there must be a NUL in the buffer. -/
def strlen (p : List UInt8) : Option Int := if 0 ∈ p then some (cstr p 0).length else none

def itoa (p : List UInt8) (num : Int) : Option (List UInt8) := do
  let (p, i) ← itoaLoop p 0 num
  let p ← poke p i 0
  let len ← strlen p
  reverse p len

/-! ## The digits -/

/-- The characters of a number, none for zero. -/
def chars (n : Int) : List UInt8 :=
  if n = 0 then [] else chars (n.tdiv 10) ++ [byte (n.tmod 10 + 48)]
termination_by n.natAbs
decreasing_by exact natAbs_tdiv_lt ‹_›

variable {n : Int} {front rest mid back p q : List UInt8} {c x y : UInt8} {k : Nat}

@[simp] theorem chars_zero : chars 0 = [] := by
  rw [chars, if_pos rfl]

theorem chars_of_ne (some : n ≠ 0) : chars n = chars (n.tdiv 10) ++ [byte (n.tmod 10 + 48)] := by
  rw [chars, if_neg some]

/-- A remainder is a digit or the negative of one. -/
theorem tmod_bounds (n : Int) : -9 ≤ n.tmod 10 ∧ n.tmod 10 ≤ 9 := by
  have low := Int.lt_tmod_of_pos n (show (0 : Int) < 10 by decide)
  have high := Int.tmod_lt_of_pos n (show (0 : Int) < 10 by decide)
  omega

theorem byte_digit_toNat (n : Int) : ((byte (n.tmod 10 + 48)).toNat : Int) = n.tmod 10 + 48 := by
  obtain ⟨low, high⟩ := tmod_bounds n
  rw [toNat_byte]
  omega

theorem zero_notMem_chars (n : Int) : 0 ∉ chars n := by
  induction n using chars.induct with
  | case1 => simp
  | case2 n some ih =>
      rw [chars_of_ne some]
      intro mem
      rcases List.mem_append.mp mem with before | last
      · exact ih before
      · have value := byte_digit_toNat n
        rw [← List.mem_singleton.mp last] at value
        obtain ⟨low, -⟩ := tmod_bounds n
        rw [UInt8.toNat_zero] at value
        omega

theorem length_chars_le (small : n.natAbs < 10 ^ k) : (chars n).length ≤ k := by
  induction k generalizing n with
  | zero =>
      have zero : n = 0 := by
        rw [pow_zero] at small
        omega
      rw [zero, chars_zero]
      exact Nat.le_refl 0
  | succ k ih =>
      by_cases zero : n = 0
      · rw [zero, chars_zero]
        exact Nat.zero_le _
      · have fewer : (n.tdiv 10).natAbs < 10 ^ k := by
          rw [Int.natAbs_tdiv]
          exact Nat.div_lt_of_lt_mul (by rwa [pow_succ'] at small)
        rw [chars_of_ne zero, List.length_append, List.length_singleton]
        exact Nat.succ_le_succ (ih fewer)

/-- The text of an `int` fits, with the NUL behind it. -/
theorem length_chars_lt (int : IsInt n) : (chars n).length < SIZE := by
  obtain ⟨low, high⟩ := int
  have small : n.natAbs < 10 ^ 10 := by omega
  exact Nat.lt_succ_of_le (length_chars_le small)

theorem tdiv_add_tmod (n : Int) : n.tdiv 10 * 10 + n.tmod 10 = n := by
  rw [Int.add_comm, Int.tmod_add_tdiv_mul]

theorem isInt_tdiv (int : IsInt n) : IsInt (n.tdiv 10) := by
  have whole := tdiv_add_tmod n
  have bounds := tmod_bounds n
  unfold IsInt at *
  omega

theorem checked_eq {i : Int} (int : IsInt i) : checked i = some i := if_pos int

theorem checked_digit (n : Int) : checked (n.tmod 10 + 48) = some (n.tmod 10 + 48) := by
  have bounds := tmod_bounds n
  refine checked_eq ?_
  unfold IsInt
  omega

/-! ## Access -/

theorem peek_eq {i : Int} (at' : i = front.length) : peek (front ++ x :: rest) i = some x := by
  subst at'
  rw [peek, if_neg (by omega), Int.toNat_natCast]
  rw [List.getElem?_append_right (Nat.le_refl _), Nat.sub_self, List.getElem?_cons_zero]

theorem poke_eq {i : Int} (at' : i = front.length) :
    poke (front ++ x :: rest) i c = some (front ++ c :: rest) := by
  subst at'
  have inside : ¬ ((front.length : Int) < 0 ∨
      ((front ++ x :: rest).length : Int) ≤ front.length) := by
    rw [List.length_append, List.length_cons]
    omega
  rw [poke, if_neg inside, Int.toNat_natCast, List.set_append_right _ _ (Nat.le_refl _),
    Nat.sub_self, List.set_cons_zero]

/-- The first of the bytes behind `k` others. -/
theorem exists_drop (room : k < p.length) : ∃ x, p.drop k = x :: p.drop (k + 1) :=
  ⟨p[k], List.drop_eq_getElem_cons room⟩

/-- One more byte behind the ones written at the start of the buffer. -/
theorem poke_drop {i : Int} (at' : i = front.length) (room : front.length < p.length) :
    poke (front ++ p.drop front.length) i c =
      some (front ++ [c] ++ p.drop (front ++ [c]).length) := by
  obtain ⟨x, rest⟩ := exists_drop room
  rw [rest, poke_eq at', List.append_assoc, List.length_append, List.length_singleton,
    List.singleton_append]

/-! ## The recursion -/

theorem itoaRec_eq (int : IsInt n) (room : SIZE ≤ p.length) :
    itoaRec p n = some (chars n ++ p.drop (chars n).length, ((chars n).length : Int)) := by
  induction n using chars.induct with
  | case1 =>
      rw [itoaRec, if_pos rfl, chars_zero]
      rfl
  | case2 n some_ ih =>
      have fits := length_chars_lt int
      have more : (chars n).length = (chars (n.tdiv 10)).length + 1 := by
        rw [chars_of_ne some_, List.length_append, List.length_singleton]
      have next : IsInt ((chars (n.tdiv 10)).length + 1 : Int) := by
        unfold IsInt SIZE at *
        omega
      rw [itoaRec, if_neg some_, checked_digit, ih (isInt_tdiv int)]
      simp only [Option.bind_eq_bind, Option.bind_some]
      rw [poke_drop rfl (by omega), Option.bind_some, checked_eq next, Option.bind_some,
        ← chars_of_ne some_, more, Int.natCast_succ]

/-- The text of a number. -/
def text (n : Int) : List UInt8 := if n = 0 then [48] else chars n

theorem text_of_ne (some : n ≠ 0) : text n = chars n := if_neg some

/-- The last digit of the text, also of zero. -/
theorem text_eq (n : Int) : text n = chars (n.tdiv 10) ++ [byte (n.tmod 10 + 48)] := by
  by_cases zero : n = 0
  · rw [text, if_pos zero, zero, Int.zero_tdiv, Int.zero_tmod, chars_zero]
    rfl
  · rw [text_of_ne zero, chars_of_ne zero]

theorem length_text_lt (int : IsInt n) : (text n).length < SIZE := by
  unfold text
  split
  · decide
  · exact length_chars_lt int

theorem zero_notMem_text (n : Int) : 0 ∉ text n := by
  unfold text
  split
  · decide
  · exact zero_notMem_chars n

/-- A buffer with room for a text and the NUL. -/
theorem exists_drop_of_lt (fits : k < SIZE) (room : SIZE ≤ p.length) :
    ∃ x, p.drop k = x :: p.drop (k + 1) :=
  exists_drop (Nat.lt_of_lt_of_le fits room)

/-- `itoa_r` writes the text and the NUL. -/
theorem itoaR_eq (int : IsInt n) (room : SIZE ≤ p.length) :
    itoaR p n = some (text n ++ 0 :: p.drop ((text n).length + 1)) := by
  unfold itoaR
  by_cases zero : n = 0
  · obtain ⟨x, rest⟩ := exists_drop_of_lt (k := 0) (by decide) room
    obtain ⟨y, rest'⟩ := exists_drop_of_lt (k := 1) (by decide) room
    rw [List.drop_zero, rest'] at rest
    rw [if_pos zero, text, if_pos zero, rest]
    rfl
  · obtain ⟨x, rest⟩ := exists_drop_of_lt (length_chars_lt int) room
    rw [if_neg zero, itoaRec_eq int room, text_of_ne zero]
    simp only [Option.bind_eq_bind, Option.bind_some]
    rw [rest, poke_eq rfl]

/-! ## The loop and the reversal -/

/-- The loop writes the digits from the last one on. -/
theorem itoaLoop_eq (front rest : List UInt8) (room : (chars n).length ≤ rest.length) :
    itoaLoop (front ++ rest) front.length n =
      some (front ++ (chars n).reverse ++ rest.drop (chars n).length,
        ((front.length + (chars n).length : Nat) : Int)) := by
  induction n using chars.induct generalizing front rest with
  | case1 =>
      rw [itoaLoop, if_pos rfl, chars_zero]
      simp
  | case2 n some_ ih =>
      have more : (chars n).length = (chars (n.tdiv 10)).length + 1 := by
        rw [chars_of_ne some_, List.length_append, List.length_singleton]
      rcases rest with _ | ⟨x, rest⟩
      · rw [List.length_nil] at room
        omega
      · rw [List.length_cons] at room
        rw [itoaLoop, if_neg some_, checked_digit]
        simp only [Option.bind_eq_bind, Option.bind_some]
        have next := ih (front ++ [byte (n.tmod 10 + 48)]) rest (by omega)
        rw [List.length_append, List.length_singleton, Nat.cast_succ, List.append_assoc,
          List.singleton_append] at next
        rw [poke_eq rfl, Option.bind_some, next, more, List.drop_succ_cons, chars_of_ne some_]
        simp [Nat.add_assoc, Nat.add_comm]

/-- The exclusive disjunctions exchange two different bytes. -/
theorem xorSwap_eq {i j : Int} (left : i = front.length)
    (right : j = front.length + mid.length + 1) :
    xorSwap (front ++ x :: (mid ++ y :: back)) i j = some (front ++ y :: (mid ++ x :: back)) := by
  have inner (a b : UInt8) :
      front ++ a :: (mid ++ b :: back) = (front ++ a :: mid) ++ b :: back := by
    simp
  have atRight (a : UInt8) : j = ((front ++ a :: mid).length : Nat) := by
    rw [right, List.length_append, List.length_cons]
    omega
  have peekRight (a b : UInt8) : peek (front ++ a :: (mid ++ b :: back)) j = some b := by
    rw [inner, peek_eq (atRight a)]
  have pokeRight (a b c : UInt8) : poke (front ++ a :: (mid ++ b :: back)) j c =
      some (front ++ a :: (mid ++ c :: back)) := by
    rw [inner, poke_eq (atRight a), inner]
  have first : x ^^^ y ^^^ y = x := by rw [UInt8.xor_assoc, UInt8.xor_self, UInt8.xor_zero]
  have second : x ^^^ y ^^^ x = y := by
    rw [UInt8.xor_comm x y, UInt8.xor_assoc, UInt8.xor_self, UInt8.xor_zero]
  simp only [xorSwap, peek_eq left, poke_eq left, peekRight, pokeRight, Option.bind_eq_bind,
    Option.bind_some, first, second]

/-- The two pointers meet in the middle. -/
theorem reverseLoop_eq (front mid back : List UInt8) {i j : Int} (left : i = front.length)
    (right : j = front.length + mid.length - 1) :
    reverseLoop (front ++ mid ++ back) i j = some (front ++ mid.reverse ++ back) := by
  induction mid using List.bidirectionalRec generalizing front back i j with
  | nil =>
      rw [List.length_nil] at right
      rw [reverseLoop, if_neg (by omega), List.reverse_nil]
  | singleton x =>
      rw [List.length_singleton] at right
      rw [reverseLoop, if_neg (by omega), List.reverse_singleton]
  | cons_append x mid y ih =>
      rw [List.length_cons, List.length_append, List.length_singleton] at right
      have apart : front ++ x :: (mid ++ [y]) ++ back = front ++ x :: (mid ++ y :: back) := by simp
      have next := ih (front ++ [y]) (x :: back) (i := i + 1) (j := j - 1)
        (by rw [left, List.length_append, List.length_singleton, Nat.cast_succ])
        (by rw [right, List.length_append, List.length_singleton]; omega)
      have swapped : front ++ [y] ++ mid ++ x :: back = front ++ y :: (mid ++ x :: back) := by simp
      rw [swapped] at next
      rw [reverseLoop, if_pos (by omega), apart, xorSwap_eq left (by omega)]
      simp only [Option.bind_eq_bind, Option.bind_some]
      rw [next]
      simp

/-- `itoa` writes the digits and the NUL, and no digit for zero. -/
theorem itoa_eq (int : IsInt n) (room : SIZE ≤ p.length) :
    itoa p n = some (chars n ++ 0 :: p.drop ((chars n).length + 1)) := by
  have fits := length_chars_lt int
  obtain ⟨x, rest⟩ := exists_drop_of_lt fits room
  have looped := itoaLoop_eq [] p (Nat.le_trans (Nat.le_of_lt fits) room)
  rw [List.nil_append, List.nil_append, List.length_nil, Nat.zero_add, Nat.cast_zero,
    rest] at looped
  have text : 0 ∉ (chars n).reverse := mt List.mem_reverse.mp (zero_notMem_chars n)
  have length : strlen ((chars n).reverse ++ 0 :: p.drop ((chars n).length + 1)) =
      some ((chars n).length : Int) := by
    rw [strlen, if_pos (by simp), cstr, List.drop_zero, takeWhile_text_append text,
      List.length_reverse]
  have reversed := reverseLoop_eq [] (chars n).reverse (0 :: p.drop ((chars n).length + 1))
    (i := 0) rfl rfl
  rw [List.nil_append, List.nil_append, List.reverse_reverse, List.length_reverse] at reversed
  rw [itoa, looped]
  simp only [Option.bind_eq_bind, Option.bind_some]
  rw [poke_eq (by rw [List.length_reverse]), Option.bind_some, length, Option.bind_some, reverse]
  exact reversed

/-! ## The two functions -/

/-- In any two buffers with room, `itoa` and `itoa_r` leave the same string. -/
def Agree (n : Int) : Prop :=
  ∀ p q : List UInt8, SIZE ≤ p.length → SIZE ≤ q.length → ∃ p' q', itoa p n = some p' ∧
    itoaR q n = some q' ∧ 0 ∈ p' ∧ 0 ∈ q' ∧ cstr p' 0 = cstr q' 0

theorem isInt_toInt (n : Int32) : IsInt n.toInt := ⟨n.le_toInt, Int.le_of_lt_add_one n.toInt_lt⟩

theorem cstr_text (text : 0 ∉ p) : cstr (p ++ 0 :: q) 0 = p := by
  rw [cstr, List.drop_zero, takeWhile_text_append text]

/-- The strings are the digits and the text. -/
theorem agree_iff_chars (int : IsInt n) : Agree n ↔ chars n = text n := by
  constructor
  · intro agree
    obtain ⟨p, q, wrote, wrote', -, -, same⟩ :=
      agree (.replicate SIZE 0) (.replicate SIZE 0) (by simp) (by simp)
    rw [itoa_eq int (by simp)] at wrote
    rw [itoaR_eq int (by simp)] at wrote'
    cases wrote
    cases wrote'
    rwa [cstr_text (zero_notMem_chars n), cstr_text (zero_notMem_text n)] at same
  · intro same p q room room'
    refine ⟨_, _, itoa_eq int room, itoaR_eq int room', by simp, by simp, ?_⟩
    rw [cstr_text (zero_notMem_chars n), cstr_text (zero_notMem_text n), same]

/-- **Two ways to write a number.** They agree on every number but zero. -/
theorem agree_iff (n : Int32) : Agree n.toInt ↔ n ≠ 0 := by
  rw [agree_iff_chars (isInt_toInt n)]
  constructor
  · rintro same rfl
    rw [Int32.toInt_zero, chars_zero] at same
    cases same
  · intro some
    have some : n.toInt ≠ 0 := fun zero => some (Int32.toInt_inj.mp zero)
    rw [text_of_ne some]

/-- Zero is the empty string, or `"0"`. -/
theorem agree_fails : ¬ Agree (0 : Int32).toInt := by
  rw [agree_iff_chars (isInt_toInt 0), Int32.toInt_zero, chars_zero]
  decide

end Shang.Day06
