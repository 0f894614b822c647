import Shang.Day06.Itoa

/-!
# Reading a number back

`atoi.c` of `day06` reads what `itoa.c` writes, also the characters that are no digits.
It adds the character before it takes `'0'` away, so that a sum is reached on the way
that is larger than the number by the code of `'0'`.
-/

namespace Shang.Day06

open Lib

/-- The loop of `myatoi`, with the bytes from its pointer to the end of the buffer. -/
def atoiLoop (num : Int) : List UInt8 → Option Int
  | [] => none
  | c :: rest =>
    if c = 0 then some num
    else do
      let x ← checked (num * 10)
      let x ← checked (x + signed c)
      let x ← checked (x - 48)
      atoiLoop x rest

def myatoi (p : List UInt8) : Option Int := atoiLoop 0 p

/-- In every buffer with room, `itoa_r` writes the number and a NUL into the first `SIZE` bytes,
and `myatoi` reads the number back. Neither does anything undefined. -/
def RoundTrips (n : Int) : Prop :=
  ∀ p : List UInt8, SIZE ≤ p.length → ∃ q, itoaR p n = some q ∧ q.length = p.length ∧
    0 ∈ q.take SIZE ∧ q.drop SIZE = p.drop SIZE ∧ myatoi q = some n

variable {n num : Int} {rest p : List UInt8}

theorem signed_digit (n : Int) : signed (byte (n.tmod 10 + 48)) = n.tmod 10 + 48 := by
  obtain ⟨low, high⟩ := tmod_bounds n
  rw [signed_byte, Int.bmod_def]
  split <;> omega

/-- A remainder has the sign of the number. -/
theorem tmod_sign (n : Int) : 0 ≤ n ∧ 0 ≤ n.tmod 10 ∨ n ≤ 0 ∧ n.tmod 10 ≤ 0 := by
  rcases Int.le_total 0 n with pos | neg
  · exact .inl ⟨pos, Int.tmod_nonneg 10 pos⟩
  · have flipped := Int.tmod_nonneg 10 (show 0 ≤ -n by omega)
    rw [Int.neg_tmod] at flipped
    exact .inr ⟨neg, by omega⟩

theorem byte_digit_ne_zero (n : Int) : byte (n.tmod 10 + 48) ≠ 0 := by
  intro zero
  have value := byte_digit_toNat n
  obtain ⟨low, -⟩ := tmod_bounds n
  rw [zero, UInt8.toNat_zero] at value
  omega

/-- One more digit: the largest value on the way is `'0'` more than the number. -/
theorem atoiLoop_digit (int : IsInt n) :
    atoiLoop (n.tdiv 10) (byte (n.tmod 10 + 48) :: rest) =
      if IsInt (n + 48) then atoiLoop n rest else none := by
  have whole := tdiv_add_tmod n
  have bounds := tmod_bounds n
  have product : IsInt (n.tdiv 10 * 10) := by
    have sign := tmod_sign n
    unfold IsInt at *
    omega
  have sum : n.tdiv 10 * 10 + signed (byte (n.tmod 10 + 48)) = n + 48 := by
    rw [signed_digit]
    omega
  rw [atoiLoop, if_neg (byte_digit_ne_zero n), checked_eq product]
  simp only [Option.bind_eq_bind, Option.bind_some]
  rw [sum]
  split
  · next fits =>
      rw [checked_eq fits, Option.bind_some, Int.add_sub_cancel, checked_eq int, Option.bind_some]
  · next large => rw [checked, if_neg large, Option.bind_none]

/-- The beginnings of a number are small enough. -/
theorem isInt_tdiv_add (int : IsInt n) : IsInt (n.tdiv 10 + 48) := by
  have whole := tdiv_add_tmod n
  have bounds := tmod_bounds n
  unfold IsInt at *
  omega

theorem atoiLoop_chars (int : IsInt n) (fits : IsInt (n + 48)) :
    atoiLoop 0 (chars n ++ rest) = atoiLoop n rest := by
  induction n using chars.induct generalizing rest with
  | case1 => rw [chars_zero, List.nil_append]
  | case2 n some ih =>
      rw [chars_of_ne some, List.append_assoc, List.singleton_append,
        ih (isInt_tdiv int) (isInt_tdiv_add int), atoiLoop_digit int, if_pos fits]

/-- What is read of the text of a number. -/
theorem myatoi_text (int : IsInt n) :
    myatoi (text n ++ 0 :: rest) = if IsInt (n + 48) then some n else none := by
  rw [myatoi, text_eq, List.append_assoc, List.singleton_append,
    atoiLoop_chars (isInt_tdiv int) (isInt_tdiv_add int), atoiLoop_digit int]
  rfl

theorem roundTrips_iff_isInt (int : IsInt n) : RoundTrips n ↔ IsInt (n + 48) := by
  have fits := length_text_lt int
  constructor
  · intro trips
    obtain ⟨q, wrote, -, -, -, read⟩ := trips (.replicate SIZE 0) (by simp)
    rw [itoaR_eq int (by simp)] at wrote
    cases wrote
    rw [myatoi_text int] at read
    by_contra large
    rw [if_neg large] at read
    cases read
  · intro small p room
    obtain ⟨k, more⟩ : ∃ k, SIZE - (text n).length = k + 1 :=
      Nat.exists_eq_add_one_of_ne_zero (Nat.sub_ne_zero_of_lt fits)
    refine ⟨_, itoaR_eq int room, ?_, ?_, ?_, ?_⟩
    · rw [List.length_append, List.length_cons, List.length_drop]
      omega
    · rw [List.take_append, more, List.take_succ_cons]
      exact List.mem_append_right _ List.mem_cons_self
    · rw [List.drop_append, List.drop_eq_nil_of_le (Nat.le_of_lt fits), List.nil_append, more,
        List.drop_succ_cons, List.drop_drop]
      congr 1
      omega
    · rw [myatoi_text int, if_pos small]

/-- **Writing and reading.** Every number comes back unless it is one of the 48 largest ones. -/
theorem roundTrips_iff (n : Int32) : RoundTrips n.toInt ↔ n.toInt ≤ 2147483599 := by
  have int := isInt_toInt n
  rw [roundTrips_iff_isInt int]
  unfold IsInt at *
  omega

/-- The largest number is not read without an overflow. -/
theorem roundTrips_fails : ¬ RoundTrips (2147483647 : Int32).toInt := by
  rw [roundTrips_iff_isInt (isInt_toInt _)]
  decide

end Shang.Day06
