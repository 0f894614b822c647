import Shang.Lib.Run
import Mathlib.Data.List.Perm.Basic
import Mathlib.Data.List.Pairwise

/-!
# The sorted dynamic array

`darr/lib4/seqlist.c`: elements of any type are kept in the order of a
comparison function by a binary search for the place of a new one. The array is
the list of its elements, of which there are `num`, and `none` stands for a
read outside of it or for a value that was never assigned.

`realloc` succeeds, except that a request for zero bytes frees the array and
returns `NULL`; the functions then return `FAIL`.
-/

namespace Shang.Darr

open Shang.Lib

/-! ## The program -/

/-- `compare_t` for a key and an element. -/
abbrev Compare (κ α : Type) := κ → α → Int

inductive Status
  | OK
  | FAIL
  deriving DecidableEq

variable {α κ : Type}

/-- `struct seq_st`; `cmp` may be `NULL`. -/
structure SeqSt (α : Type) where
  arr : List α
  size : Nat
  cmp : Option (Compare α α)

/-- `num` -/
def SeqSt.num (ptr : SeqSt α) : Nat := ptr.arr.length

/-- `init_darr(size, cmp)` -/
def initDarr (size : Nat) (cmp : Option (Compare α α)) : SeqSt α := ⟨[], size, cmp⟩

/-- The element at `arr + i * size`. -/
def read (arr : List α) (i : Int) : Option α := if 0 ≤ i then arr[i.toNat]? else none

/-- The loop of `bsearch_near`, with the value of `mid`, and the value that is returned. -/
def bsearchLoop (cmp : Compare α α) (arr : List α) (data : α) :
    Nat → Int → Int → Option Int → Option Int
  | 0, _, _, _ => none
  | fuel + 1, start, end_, mid =>
      if start ≤ end_ then do
        let mid := (start + end_).tdiv 2
        let elem ← read arr mid
        let ret := cmp data elem
        if ret = 0 then some mid
        else if ret > 0 then bsearchLoop cmp arr data fuel (mid + 1) end_ (some mid)
        else bsearchLoop cmp arr data fuel start (mid - 1) (some mid)
      else mid

/-- `bsearch_near(ptr, data)`; every round leaves fewer elements between `start` and `end`. -/
def bsearchNear (cmp : Compare α α) (arr : List α) (data : α) : Option Int :=
  bsearchLoop cmp arr data (arr.length + 1) 0 (arr.length - 1) none

/-- The index at which `insert_darr_sort` puts the new element. -/
def place (ptr : SeqSt α) (data : α) : Option Int :=
  match ptr.cmp with
  | none => some 0
  | some cmp =>
      if ptr.num = 0 then some 0
      else do
        let ind ← bsearchNear cmp ptr.arr data
        let elem ← read ptr.arr ind
        if cmp data elem > 0 then some (ind + 1) else some ind

/-- `insert_darr_sort(ptr, data)` -/
def insertDarrSort (ptr : SeqSt α) (data : α) : Option (SeqSt α × Status) :=
  if (ptr.num + 1) * ptr.size = 0 then some ({ ptr with arr := [] }, .FAIL)
  else do
    let ind ← place ptr data
    let arr := ptr.arr.take ind.toNat ++ data :: ptr.arr.drop ind.toNat
    some ({ ptr with arr := arr }, .OK)

/-- `delete_darr(ptr, key, cmp)` -/
def deleteDarr (ptr : SeqSt α) (key : κ) (cmp : Compare κ α) : SeqSt α × Status :=
  match ptr.arr.findIdx? fun elem => cmp key elem = 0 with
  | none => (ptr, .FAIL)
  | some i =>
      let ptr := { ptr with arr := ptr.arr.take i ++ ptr.arr.drop (i + 1) }
      if ptr.num * ptr.size = 0 then (ptr, .FAIL) else (ptr, .OK)

/-- An array, the elements inserted so far, and for each call of `delete_darr` that had a match
the first element that matched. -/
structure World (α : Type) where
  darr : SeqSt α
  inserted : List α
  removed : List α

inductive Op (α κ : Type)
  | insert (data : α)
  | delete (key : κ) (cmp : Compare κ α)

def step (w : World α) : Op α κ → Option (World α)
  | .insert data => do
      let (darr, status) ← insertDarrSort w.darr data
      let inserted := if status = .OK then w.inserted ++ [data] else w.inserted
      some { w with darr := darr, inserted := inserted }
  | .delete key cmp =>
      some { w with
        darr := (deleteDarr w.darr key cmp).1
        removed := w.removed ++ (w.darr.arr.find? fun elem => cmp key elem = 0).toList }

/-! ## Comparison functions -/

/-- The sign of `cmp a b` compares `a` with `b` in a total preorder. -/
structure TotalPreorder (cmp : Compare α α) : Prop where
  swap : ∀ a b, cmp a b < 0 ↔ 0 < cmp b a
  trans : ∀ a b c, cmp a b ≤ 0 → cmp b c ≤ 0 → cmp a c ≤ 0

/-- Nondecreasing in the order of `cmp`. -/
def Sorted (cmp : Compare α α) (arr : List α) : Prop := arr.Pairwise fun a b => cmp a b ≤ 0

variable {cmp : Compare α α} {arr : List α} {data a b x y : α} {i j : Nat}

namespace TotalPreorder

theorem le_of_ge (order : TotalPreorder cmp) (ge : 0 ≤ cmp a b) : cmp b a ≤ 0 := by
  by_contra greater
  have := (order.swap a b).mpr (by omega)
  omega

theorem self (order : TotalPreorder cmp) (a : α) : cmp a a = 0 := by
  have := order.swap a a
  omega

/-- Greater than an element, greater than all that are not above it. -/
theorem gt_trans (order : TotalPreorder cmp) (greater : 0 < cmp data b) (le : cmp a b ≤ 0) :
    0 < cmp data a := by
  by_contra notGreater
  have := order.trans data a b (by omega) le
  omega

/-- Less than an element, less than all that are not below it. -/
theorem lt_trans (order : TotalPreorder cmp) (less : cmp data a < 0) (le : cmp a b ≤ 0) :
    cmp data b < 0 := by
  rw [order.swap] at less ⊢
  by_contra notGreater
  have := order.trans a b data le (by omega)
  omega

end TotalPreorder

theorem Sorted.le (sorted : Sorted cmp arr) (order : TotalPreorder cmp) (before : i ≤ j)
    (left : arr[i]? = some x) (right : arr[j]? = some y) : cmp x y ≤ 0 := by
  obtain ⟨bound, rfl⟩ := List.getElem?_eq_some_iff.mp left
  obtain ⟨bound', rfl⟩ := List.getElem?_eq_some_iff.mp right
  rcases Nat.eq_or_lt_of_le before with rfl | less
  · exact Int.le_of_eq (order.self _)
  · exact List.pairwise_iff_getElem.mp sorted i j bound bound' less

/-! ## The binary search -/

/-- `data` is not less than what is before the index `m` and not greater than what is behind
it. -/
def Near (cmp : Compare α α) (arr : List α) (data : α) (m : Nat) : Prop :=
  (∀ j x, arr[j]? = some x → j < m → 0 ≤ cmp data x) ∧
    ∀ j x, arr[j]? = some x → m < j → cmp data x ≤ 0

theorem read_natCast : read arr j = arr[j]? := by
  simp [read]

theorem near_of_eq (order : TotalPreorder cmp) (sorted : Sorted cmp arr) (here : arr[i]? = some x)
    (equal : cmp data x = 0) : Near cmp arr data i := by
  constructor
  · intro j y there before
    by_contra less
    have := order.lt_trans (Int.not_le.mp less) (sorted.le order (Nat.le_of_lt before) there here)
    omega
  · intro j y there behind
    exact order.trans data x y (by omega) (sorted.le order (Nat.le_of_lt behind) here there)

/-- The loop between `start` and `end`, outside of which the comparison is decided. When nothing
is left between them, the last probe is next to where they met. -/
theorem bsearchLoop_spec (order : TotalPreorder cmp) (sorted : Sorted cmp arr) {fuel : Nat}
    {start end_ : Int} {mid : Option Int} (low : 0 ≤ start) (high : end_ < arr.length)
    (meet : start ≤ end_ + 1) (enough : end_ + 1 - start < fuel)
    (left : ∀ (j : Nat) x, arr[j]? = some x → j < start → 0 < cmp data x)
    (right : ∀ (j : Nat) x, arr[j]? = some x → end_ < j → cmp data x < 0)
    (probed : start ≤ end_ ∨
      ∃ m : Nat, mid = some (m : Int) ∧ m < arr.length ∧ (m + 1 = start ∨ m = start)) :
    ∃ m : Nat, bsearchLoop cmp arr data fuel start end_ mid = some (m : Int) ∧
      m < arr.length ∧ Near cmp arr data m := by
  induction fuel generalizing start end_ mid with
  | zero => omega
  | succ fuel ih =>
      rw [bsearchLoop]
      split
      · next more =>
          obtain ⟨m, half⟩ : ∃ m : Nat, (start + end_).tdiv 2 = m :=
            ⟨((start + end_) / 2).toNat, by rw [Int.tdiv_eq_ediv_of_nonneg (by omega)]; omega⟩
          have middle : start ≤ m ∧ (m : Int) ≤ end_ := by
            rw [Int.tdiv_eq_ediv_of_nonneg (by omega)] at half
            omega
          have inside : m < arr.length := by omega
          have here : arr[m]? = some arr[m] := List.getElem?_eq_getElem inside
          simp only [half, read_natCast, here, Option.bind_eq_bind, Option.bind_some]
          split
          · next equal => exact ⟨m, rfl, inside, near_of_eq order sorted here equal⟩
          · split
            · next greater =>
                refine ih (by omega) high (by omega) (by omega) (fun j x there before => ?_) right
                  (.inr ⟨m, rfl, inside, .inl rfl⟩)
                exact order.gt_trans greater (sorted.le order (by omega) there here)
            · next notGreater =>
                refine ih low (by omega) (by omega) (by omega) left (fun j x there behind => ?_) ?_
                · exact order.lt_trans (by omega) (sorted.le order (by omega) here there)
                · rcases Int.lt_or_le (m - 1) start with empty | rest
                  · exact .inr ⟨m, rfl, inside, .inr (by omega)⟩
                  · exact .inl rest
      · next met =>
          obtain nonempty | ⟨m, rfl, inside, beside⟩ := probed
          · exact absurd nonempty met
          · refine ⟨m, rfl, inside, fun j x there before => ?_, fun j x there behind => ?_⟩
            · exact Int.le_of_lt (left j x there (by omega))
            · exact Int.le_of_lt (right j x there (by omega))

theorem bsearchNear_spec (order : TotalPreorder cmp) (sorted : Sorted cmp arr)
    (some_ : arr.length ≠ 0) (data : α) :
    ∃ m : Nat, bsearchNear cmp arr data = some (m : Int) ∧ m < arr.length ∧
      Near cmp arr data m := by
  refine bsearchLoop_spec order sorted (Int.le_refl 0) (by omega) (by omega) (by omega)
    (fun j x _ before => ?_) (fun j x there behind => ?_) (.inl (by omega))
  · omega
  · have := (List.getElem?_eq_some_iff.mp there).1
    omega

/-! ## The operations -/

/-- The new element fits at its index. -/
theorem place_spec {ptr : SeqSt α} (order : TotalPreorder cmp) (given : ptr.cmp = some cmp)
    (sorted : Sorted cmp ptr.arr) (data : α) :
    ∃ i : Nat, place ptr data = some (i : Int) ∧
      (∀ j x, ptr.arr[j]? = some x → j < i → 0 ≤ cmp data x) ∧
      ∀ j x, ptr.arr[j]? = some x → i ≤ j → cmp data x ≤ 0 := by
  unfold place
  rw [given]
  dsimp only
  split
  · next empty =>
      refine ⟨0, rfl, fun j x _ before => absurd before (Nat.not_lt_zero j), fun j x there _ => ?_⟩
      have := (List.getElem?_eq_some_iff.mp there).1
      unfold SeqSt.num at empty
      omega
  · next some_ =>
      obtain ⟨m, found, inside, before, behind⟩ := bsearchNear_spec order sorted some_ data
      have here : ptr.arr[m]? = some ptr.arr[m] := List.getElem?_eq_getElem inside
      simp only [found, read_natCast, here, Option.bind_eq_bind, Option.bind_some]
      split
      · next greater =>
          refine ⟨m + 1, rfl, fun j x there less => ?_, fun j x there more => behind j x there more⟩
          rcases Nat.lt_or_eq_of_le (Nat.le_of_lt_succ less) with less | rfl
          · exact before j x there less
          · cases here.symm.trans there
            omega
      · next notGreater =>
          refine ⟨m, rfl, before, fun j x there more => ?_⟩
          rcases Nat.lt_or_eq_of_le more with more | rfl
          · exact behind j x there more
          · cases here.symm.trans there
            omega

theorem sorted_insert (order : TotalPreorder cmp) (sorted : Sorted cmp arr)
    (before : ∀ j x, arr[j]? = some x → j < i → 0 ≤ cmp data x)
    (behind : ∀ j x, arr[j]? = some x → i ≤ j → cmp data x ≤ 0) :
    Sorted cmp (arr.take i ++ data :: arr.drop i) := by
  have less : ∀ x ∈ arr.take i, cmp x data ≤ 0 := by
    intro x mem
    obtain ⟨j, bound, rfl⟩ := List.getElem_of_mem mem
    rw [List.length_take] at bound
    apply order.le_of_ge (before j _ _ (by omega))
    rw [List.getElem_take, List.getElem?_eq_getElem]
  have greater : ∀ x ∈ arr.drop i, cmp data x ≤ 0 := by
    intro x mem
    obtain ⟨j, bound, rfl⟩ := List.getElem_of_mem mem
    rw [List.length_drop] at bound
    apply behind (i + j) _ _ (by omega)
    rw [List.getElem_drop, List.getElem?_eq_getElem]
  have whole := sorted
  rw [← List.take_append_drop i arr, Sorted, List.pairwise_append] at whole
  refine List.pairwise_append.mpr ⟨whole.1, List.pairwise_cons.mpr ⟨greater, whole.2.1⟩, ?_⟩
  intro x left y right
  rcases List.mem_cons.mp right with rfl | right
  · exact less x left
  · exact whole.2.2 x left y right

theorem insertDarrSort_spec {ptr : SeqSt α} (order : TotalPreorder cmp)
    (given : ptr.cmp = some cmp) (sorted : Sorted cmp ptr.arr) (size : 0 < ptr.size) (data : α) :
    ∃ arr, insertDarrSort ptr data = some ({ ptr with arr := arr }, .OK) ∧ Sorted cmp arr ∧
      arr.Perm (data :: ptr.arr) := by
  obtain ⟨i, found, before, behind⟩ := place_spec order given sorted data
  refine ⟨_, ?_, sorted_insert order sorted before behind, ?_⟩
  · have request : (ptr.num + 1) * ptr.size ≠ 0 := Nat.mul_ne_zero (Nat.succ_ne_zero _) (by omega)
    simp only [insertDarrSort, request, found, ↓reduceIte, Option.bind_eq_bind, Option.bind_some,
      Int.toNat_natCast]
  · apply List.perm_middle.trans
    rw [List.take_append_drop]

theorem deleteDarr_spec (ptr : SeqSt α) (key : κ) (cmp : Compare κ α) :
    ((deleteDarr ptr key cmp).1 = ptr ∧ ptr.arr.find? (fun elem => cmp key elem = 0) = none) ∨
      ∃ l x r, ptr.arr = l ++ x :: r ∧
        ptr.arr.find? (fun elem => cmp key elem = 0) = some x ∧
        (deleteDarr ptr key cmp).1 = { ptr with arr := l ++ r } := by
  unfold deleteDarr
  split
  · next none_ =>
      refine .inl ⟨rfl, ?_⟩
      rw [List.find?_eq_none]
      intro x mem equal
      rw [List.findIdx?_eq_none_iff.mp none_ x mem] at equal
      cases equal
  · next i found =>
      obtain ⟨inside, equal, before⟩ := List.findIdx?_eq_some_iff_getElem.mp found
      refine .inr ⟨ptr.arr.take i, ptr.arr[i], ptr.arr.drop (i + 1), ?_, ?_, ?_⟩
      · rw [List.getElem_cons_drop, List.take_append_drop]
      · rw [List.find?_eq_some_iff_getElem]
        exact ⟨equal, i, inside, rfl, fun j less => by simpa using before j less⟩
      · dsimp only
        split <;> rfl

/-! ## Every sequence of operations -/

/-- The array is sorted, and with what was removed it is what was inserted. An array of empty
elements stays empty, because `realloc` returns `NULL` for it. -/
structure Inv (cmp : Compare α α) (w : World α) : Prop where
  given : w.darr.cmp = some cmp
  sorted : Sorted cmp w.darr.arr
  perm : (w.darr.arr ++ w.removed).Perm w.inserted
  empty : w.darr.size = 0 → w.darr.arr = []

theorem inv_init (size : Nat) (cmp : Compare α α) : Inv cmp ⟨initDarr size (some cmp), [], []⟩ where
  given := rfl
  sorted := List.Pairwise.nil
  perm := List.Perm.refl []
  empty _ := rfl

/-- The element an operation inserts. -/
def Op.data? : Op α κ → Option α
  | .insert data => some data
  | .delete _ _ => none

theorem Inv.insert (order : TotalPreorder cmp) {w : World α} (inv : Inv cmp w) (data : α) :
    ∃ w', step w (.insert data : Op α κ) = some w' ∧ Inv cmp w' ∧ w'.darr.size = w.darr.size ∧
      (0 < w.darr.size → w'.inserted = w.inserted ++ [data]) := by
  obtain ⟨given, sorted, perm, empty⟩ := inv
  rcases Nat.eq_zero_or_pos w.darr.size with zero | size
  · have none_ := empty zero
    refine ⟨{ w with darr := { w.darr with arr := [] } }, ?_, ⟨given, .nil, ?_, fun _ => rfl⟩, rfl,
      fun size => absurd zero (by omega)⟩
    · simp [step, insertDarrSort, zero]
    · rwa [none_] at perm
  · obtain ⟨arr, ran, sorted', perm'⟩ := insertDarrSort_spec order given sorted size data
    refine ⟨⟨{ w.darr with arr := arr }, w.inserted ++ [data], w.removed⟩, ?_,
      ⟨given, sorted', ?_, fun zero => absurd zero (Nat.ne_of_gt size)⟩, rfl, fun _ => rfl⟩
    · simp [step, ran]
    · have added := (perm'.append_right w.removed).trans (perm.cons data)
      exact added.trans (List.perm_append_singleton data w.inserted).symm

theorem Inv.delete {w : World α} (inv : Inv cmp w) (key : κ) (cmp' : Compare κ α) :
    ∃ w', step w (.delete key cmp') = some w' ∧ Inv cmp w' ∧ w'.darr.size = w.darr.size ∧
      w'.inserted = w.inserted := by
  obtain ⟨given, sorted, perm, empty⟩ := inv
  refine ⟨_, rfl, ?_⟩
  rcases deleteDarr_spec w.darr key cmp' with ⟨same, none_⟩ | ⟨l, x, r, split_, found, gone⟩
  · rw [same, none_]
    exact ⟨⟨given, sorted, by simpa using perm, empty⟩, rfl, rfl⟩
  · rw [gone, found]
    rw [split_] at sorted perm
    refine ⟨⟨given, ?_, ?_, fun zero => ?_⟩, rfl, rfl⟩
    · exact sorted.sublist (List.Sublist.append_left (List.sublist_cons_self x r) l)
    · have moved : (l ++ r ++ (w.removed ++ [x])).Perm (l ++ x :: r ++ w.removed) := by
        rw [← List.append_assoc]
        apply (List.perm_append_singleton x _).trans
        rw [← List.cons_append]
        exact List.perm_middle.symm.append_right w.removed
      exact moved.trans perm
    · have none_ := empty zero
      rw [split_] at none_
      simp at none_

end Shang.Darr
