import Mathlib.Data.List.Basic
import Mathlib.Data.List.TakeWhile

/-!
# C strings in a buffer

A buffer is the list of its bytes and a pointer into it an index. The string
at a pointer ends before the first NUL, and the functions of `string.h` are
given by that string. `splice b r c` is the buffer after the bytes `c` were
received at `r`.

A string that has a NUL below `r` does not see what is received at `r`, and
neither does a store below `r`: the lemmas here let a computation on finished
text commute with the arrival of more text.
-/

namespace Shang.Lib

variable {b c d accept : List UInt8} {p q r m i : Nat} {x : UInt8}

/-- The string at `p`. -/
def cstr (b : List UInt8) (p : Nat) : List UInt8 := (b.drop p).takeWhile (· ≠ 0)

/-- `strpbrk`: the first byte of the string that is in `accept`. -/
def strpbrk (b : List UInt8) (p : Nat) (accept : List UInt8) : Option Nat :=
  ((cstr b p).findIdx? (· ∈ accept)).map (p + ·)

/-- `strspn`: the length of the start of the string with bytes in `accept`. -/
def strspn (b : List UInt8) (p : Nat) (accept : List UInt8) : Nat :=
  ((cstr b p).takeWhile (· ∈ accept)).length

/-- `strchr`, for a byte other than NUL. -/
def strchr (b : List UInt8) (p : Nat) (x : UInt8) : Option Nat := strpbrk b p [x]

/-- `tolower` in the C locale. -/
def tolower (x : UInt8) : UInt8 := if 65 ≤ x ∧ x ≤ 90 then x + 32 else x

/-- `strcasecmp(s, t) == 0`. -/
def strcasecmp (s t : List UInt8) : Bool := s.map tolower == t.map tolower

/-- `strncasecmp(s, t, n) == 0`. -/
def strncasecmp (s t : List UInt8) (n : Nat) : Bool := strcasecmp (s.take n) (t.take n)

/-- The bytes of a string literal. -/
def ascii (s : String) : List UInt8 := s.toList.map fun c => c.toNat.toUInt8

/-- The buffer with the bytes `c` at `r`. -/
def splice (b : List UInt8) (r : Nat) (c : List UInt8) : List UInt8 :=
  b.take r ++ c ++ b.drop (r + c.length)

/-! ## Receiving -/

theorem splice_nil : splice b r [] = b := by
  rw [splice, List.append_nil, List.length_nil, Nat.add_zero, List.take_append_drop]

theorem length_splice (fits : r + c.length ≤ b.length) : (splice b r c).length = b.length := by
  simp only [splice, List.length_append, List.length_take, List.length_drop]
  omega

/-- Two receptions in a row are one. -/
theorem splice_splice (fits : r + c.length ≤ b.length) :
    splice (splice b r c) (r + c.length) d = splice b r (c ++ d) := by
  have room : (b.take r).length = r := by
    rw [List.length_take]
    omega
  have front : (b.take r ++ c ++ b.drop (r + c.length)).take (r + c.length) = b.take r ++ c := by
    rw [List.take_append_of_le_length (by simp [room]), List.take_of_length_le (by simp [room])]
  have back : (b.take r ++ c ++ b.drop (r + c.length)).drop (r + c.length + d.length) =
      b.drop (r + (c ++ d).length) := by
    rw [List.drop_append, List.drop_eq_nil_of_le (by simp [room]), List.nil_append, List.drop_drop,
      List.length_append, List.length_append, room]
    congr 1
    omega
  rw [splice, splice, splice, front, back]
  simp only [List.append_assoc]

/-- Below `r` the buffer stays as it was. -/
theorem splice_getElem? (below : i < r) (room : r ≤ b.length) :
    (splice b r c)[i]? = b[i]? := by
  have inside : i < (b.take r).length := by
    rw [List.length_take]
    omega
  rw [splice, List.append_assoc, List.getElem?_append_left inside, List.getElem?_take_of_lt below]

theorem splice_getD (below : i < r) (room : r ≤ b.length) :
    (splice b r c).getD i x = b.getD i x := by
  rw [List.getD_eq_getElem?_getD, List.getD_eq_getElem?_getD, splice_getElem? below room]

/-- A store below `r` does not care about what is received at `r`. -/
theorem splice_set (below : i < r) (room : r ≤ b.length) :
    (splice b r c).set i x = splice (b.set i x) r c := by
  have inside : i < (b.take r).length := by
    rw [List.length_take]
    omega
  rw [splice, splice, List.append_assoc, List.set_append_left _ _ inside, List.take_set,
    List.drop_set_of_lt (by omega), List.append_assoc]

theorem takeWhile_text (text : 0 ∉ c) : c.takeWhile (· ≠ 0) = c := by
  refine List.takeWhile_eq_self_iff.mpr fun x mem => ?_
  have other : x ≠ 0 := fun zero => text (zero ▸ mem)
  simpa using other

/-- Text ends at the NUL behind it. -/
theorem takeWhile_text_append (text : 0 ∉ c) (d : List UInt8) :
    (c ++ 0 :: d).takeWhile (· ≠ 0) = c := by
  rw [List.takeWhile_append, takeWhile_text text, if_pos rfl,
    List.takeWhile_cons_of_neg (by simp), List.append_nil]

/-- What is received into a buffer of zeros is the string in it. -/
theorem cstr_replicate {n : Nat} (short : c.length < n) (text : 0 ∉ c) :
    cstr (splice (List.replicate n 0) 0 c) 0 = c := by
  obtain ⟨k, rest⟩ := Nat.exists_eq_add_of_lt short
  have zeros : (List.replicate n (0 : UInt8)).drop (0 + c.length) = List.replicate (k + 1) 0 := by
    rw [List.drop_replicate]
    congr 1
    omega
  rw [cstr, splice, zeros, List.take_zero, List.nil_append, List.drop_zero, List.replicate_succ,
    takeWhile_text_append text]

/-- A string that was copied with its NUL to the front of a buffer. -/
theorem cstr_strcpy (text : 0 ∉ c) : cstr (splice b 0 (c ++ [0])) 0 = c := by
  rw [cstr, splice, List.take_zero, List.nil_append, List.drop_zero, List.append_assoc,
    List.singleton_append, takeWhile_text_append text]

/-! ## Strings that end -/

/-- There is a NUL at `m`. -/
def Nul (b : List UInt8) (m : Nat) : Prop := b[m]? = some 0

theorem Nul.lt_length (nul : Nul b m) : m < b.length := (List.getElem?_eq_some_iff.mp nul).1

theorem Nul.set (nul : Nul b m) : Nul (b.set i 0) m := by
  rw [Nul, List.getElem?_set]
  split
  · rename_i same
    rw [if_pos (same ▸ nul.lt_length)]
  · exact nul

theorem nul_set (bound : i < b.length) : Nul (b.set i 0) i := by
  rw [Nul, List.getElem?_set_self bound]

theorem length_takeWhile_le {f : UInt8 → Bool} {k : Nat} {l : List UInt8} (here : l[k]? = some x)
    (stop : f x = false) : (l.takeWhile f).length ≤ k := by
  induction l generalizing k with
  | nil => simp at here
  | cons y l ih =>
      cases k with
      | zero =>
          obtain rfl := Option.some.inj here
          rw [List.takeWhile_cons_of_neg (by simp [stop])]
          exact Nat.le_refl _
      | succ k =>
          rw [List.takeWhile_cons]
          split
          · exact Nat.succ_le_succ (ih here)
          · exact Nat.zero_le _

theorem takeWhile_take {f : UInt8 → Bool} {k : Nat} {l : List UInt8} (here : l[k]? = some x)
    (stop : f x = false) : (l.take (k + 1)).takeWhile f = l.takeWhile f := by
  induction l generalizing k with
  | nil => simp at here
  | cons y l ih =>
      rw [List.take_succ_cons]
      cases k with
      | zero =>
          obtain rfl := Option.some.inj here
          rw [List.takeWhile_cons_of_neg (by simp [stop]),
            List.takeWhile_cons_of_neg (by simp [stop])]
      | succ k => rw [List.takeWhile_cons, List.takeWhile_cons, ih here]

theorem Nul.drop (nul : Nul b m) (from_ : p ≤ m) : (b.drop p)[m - p]? = some 0 := by
  rw [List.getElem?_drop, Nat.add_sub_cancel' from_]
  exact nul

/-- The string at `p` ends at a NUL behind `p`. -/
theorem length_cstr_le (nul : Nul b m) (from_ : p ≤ m) : p + (cstr b p).length ≤ m := by
  have bound := length_takeWhile_le (f := (· ≠ 0)) (nul.drop from_) rfl
  rw [cstr]
  omega

/-- A string that ends below `r` does not see what is received at `r`. -/
theorem cstr_splice (nul : Nul b m) (from_ : p ≤ m) (below : m < r) (room : r ≤ b.length) :
    cstr (splice b r c) p = cstr b p := by
  have nul' : Nul (splice b r c) m := (splice_getElem? below room).trans nul
  have front : (splice b r c).take (m + 1) = b.take (m + 1) := by
    rw [splice, List.append_assoc, List.take_append_of_le_length, List.take_take,
      Nat.min_eq_left below]
    rw [List.length_take]
    omega
  have size : m - p + 1 = m + 1 - p := by omega
  rw [cstr, cstr, ← takeWhile_take (nul'.drop from_) rfl, ← takeWhile_take (nul.drop from_) rfl,
    size, ← List.drop_take, ← List.drop_take, front]

theorem strpbrk_splice (nul : Nul b m) (from_ : p ≤ m) (below : m < r) (room : r ≤ b.length) :
    strpbrk (splice b r c) p accept = strpbrk b p accept := by
  rw [strpbrk, strpbrk, cstr_splice nul from_ below room]

theorem strspn_splice (nul : Nul b m) (from_ : p ≤ m) (below : m < r) (room : r ≤ b.length) :
    strspn (splice b r c) p accept = strspn b p accept := by
  rw [strspn, strspn, cstr_splice nul from_ below room]

/-- What `strpbrk` finds is before the end of the string. -/
theorem strpbrk_lt (nul : Nul b m) (from_ : p ≤ m) (found : strpbrk b p accept = some q) :
    p ≤ q ∧ q < m := by
  have bound := length_cstr_le nul from_
  obtain ⟨k, at_, rfl⟩ := Option.map_eq_some_iff.mp found
  have inside := (List.findIdx?_eq_some_iff_findIdx_eq.mp at_).1
  omega

/-- `strspn` stays before the end of the string. -/
theorem strspn_le (accept : List UInt8) (nul : Nul b m) (from_ : p ≤ m) :
    p + strspn b p accept ≤ m := by
  have bound := length_cstr_le nul from_
  have part : strspn b p accept ≤ (cstr b p).length := (List.takeWhile_sublist _).length_le
  omega

/-- A string that starts as another one is at least as long. -/
theorem strncasecmp_length {s t : List UInt8} {n : Nat} (equal : strncasecmp s t n = true) :
    (t.take n).length ≤ s.length := by
  have same := congrArg List.length (eq_of_beq equal)
  rw [List.length_map, List.length_map] at same
  rw [← same]
  exact (List.take_sublist n s).length_le

/-! ## Parts of a string -/

variable {a s t w : List UInt8}

theorem takeWhile_of_append {f : UInt8 → Bool} {l : List UInt8} (start : l.takeWhile f = s ++ t) :
    (l.drop s.length).takeWhile f = t := by
  induction s generalizing l with
  | nil => exact start
  | cons x s ih =>
      cases l with
      | nil => cases start
      | cons y l =>
          rw [List.takeWhile_cons] at start
          split at start
          · exact ih (List.cons.inj start).2
          · cases start

/-- A pointer that goes on in a string. -/
theorem cstr_add (start : cstr b p = s ++ t) : cstr b (p + s.length) = t := by
  rw [cstr, ← List.drop_drop]
  exact takeWhile_of_append start

theorem getD_of_cstr (start : cstr b p = x :: t) : b.getD p 0 = x := by
  rw [cstr] at start
  cases rest : b.drop p with
  | nil =>
      rw [rest] at start
      cases start
  | cons y l =>
      rw [rest, List.takeWhile_cons] at start
      split at start
      · have here : b[p]? = some y := by rw [← List.head?_drop, rest, List.head?_cons]
        rw [List.getD_eq_getElem?_getD, here, Option.getD_some, (List.cons.inj start).1]
      · cases start

/-- A string between other bytes. -/
theorem cstr_append (text : 0 ∉ s) : cstr (a ++ (s ++ 0 :: c)) a.length = s := by
  rw [cstr, List.drop_left, takeWhile_text_append text]

/-- A string is cut where a NUL is stored. -/
theorem set_append (x y : UInt8) :
    (a ++ (s ++ x :: c)).set (a.length + s.length) y = a ++ (s ++ y :: c) := by
  rw [List.set_append_right _ _ (Nat.le_add_right _ _), Nat.add_sub_cancel_left,
    List.set_append_right _ _ (Nat.le_refl _), Nat.sub_self, List.set_cons_zero]

/-- Bytes with a NUL behind them hold the string up to the first NUL. -/
theorem exists_behind (s c : List UInt8) :
    ∃ d, s ++ 0 :: c = s.takeWhile (· ≠ 0) ++ 0 :: d := by
  induction s with
  | nil => exact ⟨c, rfl⟩
  | cons x s ih =>
      by_cases zero : x = 0
      · refine ⟨s ++ 0 :: c, ?_⟩
        rw [zero, List.takeWhile_cons_of_neg (by simp), List.nil_append, List.cons_append]
      · obtain ⟨d, same⟩ := ih
        refine ⟨d, ?_⟩
        rw [List.takeWhile_cons_of_pos (by simpa using zero), List.cons_append, same,
          List.cons_append]

theorem zero_notMem_takeWhile (s : List UInt8) : 0 ∉ s.takeWhile (· ≠ 0) := by
  intro mem
  simpa using List.mem_takeWhile_imp mem

theorem strpbrk_of_none (start : cstr b p = s) (none_ : ∀ x ∈ s, x ∉ accept) :
    strpbrk b p accept = none := by
  rw [strpbrk, start, Option.map_eq_none_iff, List.findIdx?_eq_none_iff]
  exact fun x mem => decide_eq_false (none_ x mem)

theorem strpbrk_of_first (start : cstr b p = s ++ x :: t) (none_ : ∀ y ∈ s, y ∉ accept)
    (first : x ∈ accept) : strpbrk b p accept = some (p + s.length) := by
  have before : s.findIdx? (· ∈ accept) = none :=
    List.findIdx?_eq_none_iff.mpr fun y mem => decide_eq_false (none_ y mem)
  rw [strpbrk, start, List.findIdx?_append, before, List.findIdx?_cons, decide_eq_true first]
  simp

theorem strspn_of_append (start : cstr b p = w ++ t) (all : ∀ x ∈ w, x ∈ accept)
    (stop : ∀ x ∈ t.head?, x ∉ accept) : strspn b p accept = w.length := by
  have rest : t.takeWhile (· ∈ accept) = [] := by
    cases t with
    | nil => rfl
    | cons x t => exact List.takeWhile_cons_of_neg (by simpa using stop x rfl)
  rw [strspn, start, List.takeWhile_append_of_pos fun x mem => decide_eq_true (all x mem), rest,
    List.append_nil]

/-- A string has none of some bytes, or a first one of them. -/
theorem exists_first (accept s : List UInt8) : (∀ x ∈ s, x ∉ accept) ∨
    ∃ t x u, s = t ++ x :: u ∧ (∀ y ∈ t, y ∉ accept) ∧ x ∈ accept := by
  induction s with
  | nil => exact .inl (List.forall_mem_nil _)
  | cons x s ih =>
      by_cases here : x ∈ accept
      · exact .inr ⟨[], x, s, rfl, List.forall_mem_nil _, here⟩
      rcases ih with none_ | ⟨t, y, u, rfl, none_, first⟩
      · exact .inl (List.forall_mem_cons.mpr ⟨here, none_⟩)
      · exact .inr ⟨x :: t, y, u, rfl, List.forall_mem_cons.mpr ⟨here, none_⟩, first⟩

/-- A string starts with some of the bytes and goes on with another one. -/
theorem exists_span (accept s : List UInt8) : ∃ w t, s = w ++ t ∧ (∀ x ∈ w, x ∈ accept) ∧
    ∀ x ∈ t.head?, x ∉ accept := by
  induction s with
  | nil => exact ⟨[], [], rfl, List.forall_mem_nil _, fun _ mem => by cases mem⟩
  | cons x s ih =>
      by_cases here : x ∈ accept
      · obtain ⟨w, t, rfl, all, stop⟩ := ih
        exact ⟨x :: w, t, rfl, List.forall_mem_cons.mpr ⟨here, all⟩, stop⟩
      · refine ⟨[], x :: s, rfl, List.forall_mem_nil _, fun y same => ?_⟩
        rwa [← Option.some.inj same]

/-! ## Strings that are equal but for case -/

theorem length_of_strcasecmp (equal : strcasecmp s t = true) : s.length = t.length := by
  have same := congrArg List.length (eq_of_beq equal)
  rwa [List.length_map, List.length_map] at same

theorem tolower_mem (equal : strcasecmp s t = true) (mem : x ∈ s) :
    tolower x ∈ t.map tolower := by
  rw [← eq_of_beq equal]
  exact List.mem_map_of_mem mem

end Shang.Lib
