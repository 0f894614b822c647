import Shang.Darr.Seqlist

/-!
# The status codes of the dynamic array

`insert_darr_sort` and `delete_darr` when `realloc` may fail. Both store what it
returns in the only pointer to the elements, and `delete_darr` has counted the element
off before that. With enough memory they are the operations on lists of
`seqlist.c`, except that a list of elements is now behind a pointer.
-/

namespace Shang.Darr

variable {α κ : Type}

/-- `struct seq_st`: `none` is `NULL`, and a block is the list of the elements stored in it. -/
structure SeqPtr (α : Type) where
  arr : Option (List α)
  num : Nat
  size : Nat
  cmp : Option (Compare α α)

namespace SeqPtr

/-- What can be read through `arr`. -/
def elements (ptr : SeqPtr α) : List α := ptr.arr.getD []

/-- The array has the elements it counts. -/
def Whole (ptr : SeqPtr α) : Prop := ptr.elements.length = ptr.num

end SeqPtr

/-- `realloc(arr, n)`, which may be refused. A request for no bytes frees the block. -/
def realloc (granted : Bool) (arr : Option (List α)) (n : Nat) : Option (List α) :=
  if n = 0 then none else if granted then some (arr.getD []) else none

/-- `ind` of `insert_darr_sort`, with the elements of the new block. -/
def indexFor (ptr : SeqPtr α) (elems : List α) (data : α) : Option Int :=
  match ptr.cmp with
  | none => some 0
  | some cmp =>
      if ptr.num = 0 then some 0
      else do
        let ind ← bsearchLoop cmp elems data (ptr.num + 1) 0 (ptr.num - 1) none
        let elem ← read elems ind
        if cmp data elem > 0 then some (ind + 1) else some ind

/-- `insert_darr_sort(ptr, data)`; no result stands for a read outside of the block. -/
def insertStatus (granted : Bool) (ptr : SeqPtr α) (data : α) : Option (SeqPtr α × Status) :=
  match realloc granted ptr.arr ((ptr.num + 1) * ptr.size) with
  | none => some ({ ptr with arr := none }, .FAIL)
  | some elems => do
      let ind ← indexFor ptr elems data
      let elems := elems.take ind.toNat ++ data :: elems.drop ind.toNat
      some ({ ptr with arr := some elems, num := ptr.num + 1 }, .OK)

/-- The loop of `delete_darr`, with `n` elements from `i` on left to compare. -/
def deleteLoop (elems : List α) (key : κ) (cmp : Compare κ α) : Nat → Nat → Option (Option Nat)
  | 0, _ => some none
  | n + 1, i => do
      let elem ← read elems i
      if cmp key elem = 0 then some (some i) else deleteLoop elems key cmp n (i + 1)

/-- `delete_darr(ptr, key, cmp)` -/
def deleteStatus (granted : Bool) (ptr : SeqPtr α) (key : κ) (cmp : Compare κ α) :
    Option (SeqPtr α × Status) := do
  match ← deleteLoop ptr.elements key cmp ptr.num 0 with
  | none => some (ptr, .FAIL)
  | some i =>
      let elems := ptr.elements.take i ++ ptr.elements.drop (i + 1)
      let num := ptr.num - 1
      let ptr := { ptr with arr := realloc granted (some elems) (num * ptr.size), num := num }
      if ptr.arr = none then some (ptr, .FAIL) else some (ptr, .OK)

variable {ptr ptr' : SeqPtr α} {elems : List α} {key : κ} {cmp : Compare α α}
  {cmp' : Compare κ α} {granted : Bool} {data : α} {i n : Nat}

/-! ## Every read is of an element -/

/-- Whatever the comparison function says, the last probe is an index of the array. -/
theorem bsearchLoop_inside {fuel : Nat} {start end_ : Int} {mid : Option Int} (low : 0 ≤ start)
    (high : end_ < elems.length) (meet : start ≤ end_ + 1) (enough : end_ + 1 - start < fuel)
    (probed : start ≤ end_ ∨ ∃ m : Nat, mid = some (m : Int) ∧ m < elems.length) :
    ∃ m : Nat, bsearchLoop cmp elems data fuel start end_ mid = some (m : Int) ∧
      m < elems.length := by
  induction fuel generalizing start end_ mid with
  | zero => omega
  | succ fuel ih =>
      rw [bsearchLoop]
      by_cases more : start ≤ end_
      case neg =>
        rw [if_neg more]
        obtain nonempty | found := probed
        · exact absurd nonempty more
        · exact found
      have half : (start + end_).tdiv 2 = (start + end_) / 2 :=
        Int.tdiv_eq_ediv_of_nonneg (by omega)
      obtain ⟨m, isM⟩ : ∃ m : Nat, (start + end_) / 2 = (m : Int) :=
        ⟨((start + end_) / 2).toNat, by omega⟩
      have inside : m < elems.length := by omega
      have here : elems[m]? = some elems[m] := List.getElem?_eq_getElem inside
      simp only [if_pos more, half, isM, read_natCast, here, Option.bind_eq_bind,
        Option.bind_some]
      split
      · exact ⟨m, rfl, inside⟩
      · split
        · exact ih (by omega) high (by omega) (by omega) (.inr ⟨m, rfl, inside⟩)
        · exact ih low (by omega) (by omega) (by omega) (.inr ⟨m, rfl, inside⟩)

/-- The index of a new element is found in the elements that were there. -/
theorem exists_indexFor (same : elems.length = ptr.num) (data : α) :
    ∃ i : Nat, indexFor ptr elems data = some (i : Int) := by
  unfold indexFor
  split
  · exact ⟨0, rfl⟩
  · next cmp given =>
      split
      · exact ⟨0, rfl⟩
      · next some_ =>
          obtain ⟨m, found, inside⟩ : ∃ m : Nat,
              bsearchLoop cmp elems data (ptr.num + 1) 0 (ptr.num - 1) none = some (m : Int) ∧
                m < elems.length :=
            bsearchLoop_inside (Int.le_refl 0) (by omega) (by omega) (by omega) (.inl (by omega))
          have here : elems[m]? = some elems[m] := List.getElem?_eq_getElem inside
          simp only [found, read_natCast, here, Option.bind_eq_bind, Option.bind_some]
          split
          · exact ⟨m + 1, rfl⟩
          · exact ⟨m, rfl⟩

theorem deleteLoop_eq (key : κ) (cmp' : Compare κ α) (inside : i + n = elems.length) :
    deleteLoop elems key cmp' n i =
      some (((elems.drop i).findIdx? fun elem => cmp' key elem = 0).map (i + ·)) := by
  induction n generalizing i with
  | zero =>
      rw [List.drop_eq_nil_of_le (by omega)]
      rfl
  | succ n ih =>
      have here : i < elems.length := by omega
      simp only [deleteLoop, read_natCast, List.getElem?_eq_getElem here, Option.bind_eq_bind,
        Option.bind_some]
      rw [List.drop_eq_getElem_cons here, List.findIdx?_cons]
      split
      · next equal => simp [equal]
      · next other =>
          rw [ih (by omega)]
          simp [other, Option.map_map, Function.comp_def, Nat.add_assoc, Nat.add_comm 1]

/-! ## What a call does -/

theorem realloc_granted {arr : Option (List α)} (some_ : n ≠ 0) :
    realloc true arr n = some (arr.getD []) := by
  rw [realloc, if_neg some_, if_pos rfl]

theorem realloc_refused {arr : Option (List α)} (refused : n = 0 ∨ granted = false) :
    realloc granted arr n = none := by
  rw [realloc]
  rcases refused with none_ | refused
  · rw [if_pos none_]
  · rw [refused]
    split <;> rfl

/-- Without a block there is nothing left of the elements. -/
theorem insertStatus_refused (refused : ptr.size = 0 ∨ granted = false) (data : α) :
    insertStatus granted ptr data = some ({ ptr with arr := none }, .FAIL) := by
  rw [insertStatus, realloc_refused]
  rcases refused with zero | refused
  · exact .inl (by rw [zero, Nat.mul_zero])
  · exact .inr refused

theorem insertStatus_granted (whole : ptr.Whole) (size : ptr.size ≠ 0) (data : α) :
    ∃ i : Nat, indexFor ptr ptr.elements data = some (i : Int) ∧
      insertStatus true ptr data = some ({ ptr with
        arr := some (ptr.elements.take i ++ data :: ptr.elements.drop i)
        num := ptr.num + 1 }, .OK) := by
  obtain ⟨i, found⟩ := exists_indexFor whole data
  have request : (ptr.num + 1) * ptr.size ≠ 0 := Nat.mul_ne_zero (Nat.succ_ne_zero _) size
  refine ⟨i, found, ?_⟩
  rw [insertStatus, realloc_granted request]
  change (do let ind ← indexFor ptr ptr.elements data; _) = _
  rw [found]
  rfl

/-- An array without a match is left alone; otherwise the first match is taken out, and then
`realloc` decides. -/
theorem deleteStatus_spec (whole : ptr.Whole) (granted : Bool) (key : κ) (cmp' : Compare κ α) :
    (∀ x ∈ ptr.elements, cmp' key x ≠ 0) ∧ deleteStatus granted ptr key cmp' = some (ptr, .FAIL) ∨
    ∃ i, ∃ inside : i < ptr.elements.length, cmp' key ptr.elements[i] = 0 ∧
      ptr.elements.findIdx? (fun elem => cmp' key elem = 0) = some i ∧
      ∃ arr, arr = realloc granted (some (ptr.elements.take i ++ ptr.elements.drop (i + 1)))
          ((ptr.num - 1) * ptr.size) ∧
        deleteStatus granted ptr key cmp' =
          some ({ ptr with arr := arr, num := ptr.num - 1 },
            if arr = none then .FAIL else .OK) := by
  have loop := deleteLoop_eq key cmp' ((Nat.zero_add _).trans whole.symm)
  rw [List.drop_zero] at loop
  rcases found : ptr.elements.findIdx? (fun elem => cmp' key elem = 0) with _ | i
  · refine .inl ⟨fun x mem equal => ?_, ?_⟩
    · have other := List.findIdx?_eq_none_iff.mp found x mem
      simp [equal] at other
    · rw [deleteStatus, loop, found]
      rfl
  · obtain ⟨inside, equal, -⟩ := List.findIdx?_eq_some_iff_getElem.mp found
    refine .inr ⟨i, inside, by simpa using equal, rfl, _, rfl, ?_⟩
    rw [deleteStatus, loop, found]
    simp only [Option.map_some, Nat.zero_add, Option.bind_eq_bind, Option.bind_some]
    split <;> rfl

/-! ## With enough memory -/

/-- The list of elements that the operations on lists work with. -/
def SeqPtr.list (ptr : SeqPtr α) : SeqSt α := ⟨ptr.elements, ptr.size, ptr.cmp⟩

theorem indexFor_eq (whole : ptr.Whole) (data : α) :
    indexFor ptr ptr.elements data = place ptr.list data := by
  unfold indexFor place
  change _ = match ptr.cmp with | none => _ | some cmp => _
  cases ptr.cmp with
  | none => rfl
  | some cmp =>
      change (if ptr.num = 0 then _ else _) = if ptr.elements.length = 0 then _ else _
      rw [whole]
      show _ = if ptr.num = 0 then _ else (bsearchLoop cmp ptr.elements data
        (ptr.elements.length + 1) 0 (ptr.elements.length - 1) none).bind _
      rw [whole]
      rfl

theorem insertStatus_list (whole : ptr.Whole) (size : ptr.size ≠ 0) (data : α) :
    (insertStatus true ptr data).map (fun r => (r.1.list, r.2)) =
      insertDarrSort ptr.list data := by
  obtain ⟨i, found, ran⟩ := insertStatus_granted whole size data
  have request : (ptr.list.num + 1) * ptr.list.size ≠ 0 :=
    Nat.mul_ne_zero (Nat.succ_ne_zero _) size
  rw [ran, insertDarrSort, if_neg request, ← indexFor_eq whole, found]
  rfl

theorem deleteStatus_list (whole : ptr.Whole) (size : ptr.size ≠ 0) (key : κ)
    (cmp' : Compare κ α) :
    (deleteStatus true ptr key cmp').map (fun r => (r.1.list, r.2)) =
      some (deleteDarr ptr.list key cmp') := by
  rcases deleteStatus_spec whole true key cmp' with
    ⟨none_, ran⟩ | ⟨i, inside, -, found, arr, isArr, ran⟩
  · have found : ptr.list.arr.findIdx? (fun elem => cmp' key elem = 0) = none :=
      List.findIdx?_eq_none_iff.mpr fun x mem => by simpa using none_ x mem
    rw [ran, deleteDarr, found]
    rfl
  · have rest : (ptr.elements.take i ++ ptr.elements.drop (i + 1)).length = ptr.num - 1 := by
      rw [List.length_append, List.length_take, List.length_drop, ← whole]
      omega
    have found : ptr.list.arr.findIdx? (fun elem => cmp' key elem = 0) = some i := found
    rw [ran, deleteDarr, found]
    dsimp only
    change _ = some (if (ptr.elements.take i ++ ptr.elements.drop (i + 1)).length * ptr.size = 0
      then _ else _)
    rw [rest]
    by_cases last : ptr.num - 1 = 0
    · have request : (ptr.num - 1) * ptr.size = 0 := by rw [last, Nat.zero_mul]
      have none_ : ptr.list.arr.take i ++ ptr.list.arr.drop (i + 1) = [] :=
        List.length_eq_zero_iff.mp (rest.trans last)
      rw [if_pos request, isArr, realloc_refused (.inl request), none_]
      rfl
    · have request : (ptr.num - 1) * ptr.size ≠ 0 := Nat.mul_ne_zero last size
      rw [if_neg request, isArr, realloc_granted request]
      rfl

/-! ## Whether the codes tell the truth -/

/-- The elements and `num` are as before. -/
def Same (ptr ptr' : SeqPtr α) : Prop := ptr'.elements = ptr.elements ∧ ptr'.num = ptr.num

/-- An element that matches the key was removed. -/
def Removes (key : κ) (cmp : Compare κ α) (ptr ptr' : SeqPtr α) : Prop :=
  ∃ l x r, ptr.elements = l ++ x :: r ∧ cmp key x = 0 ∧ ptr'.elements = l ++ r ∧
    ptr'.num + 1 = ptr.num

/-- A call of `insert_darr_sort` that fails has changed nothing. -/
def InsertTells (granted : Bool) (ptr : SeqPtr α) (data : α) : Prop :=
  ∃ ptr' code, insertStatus granted ptr data = some (ptr', code) ∧ (code = .FAIL → Same ptr ptr')

/-- A call of `delete_darr` succeeds if it removes an element, and otherwise has changed nothing. -/
def DeleteTells (granted : Bool) (ptr : SeqPtr α) (key : κ) (cmp : Compare κ α) : Prop :=
  ∃ ptr' code, deleteStatus granted ptr key cmp = some (ptr', code) ∧
    (code = .OK ↔ Removes key cmp ptr ptr') ∧ (code = .FAIL → Same ptr ptr')

theorem insertTells_iff (whole : ptr.Whole) (granted : Bool) (data : α) :
    InsertTells granted ptr data ↔ ptr.num = 0 ∨ granted = true ∧ ptr.size ≠ 0 := by
  by_cases refused : ptr.size = 0 ∨ granted = false
  · have failed := insertStatus_refused refused data
    constructor
    · intro ⟨ptr', code, ran, kept⟩
      cases failed.symm.trans ran
      have lost : [] = ptr.elements := (kept rfl).1
      exact .inl (by rw [← whole, ← lost, List.length_nil])
    · rintro (zero | ⟨granted, size⟩)
      · have empty : ptr.elements = [] := List.length_eq_zero_iff.mp (whole.trans zero)
        exact ⟨_, _, failed, fun _ => ⟨empty.symm, rfl⟩⟩
      · rcases refused with none_ | refused
        · exact absurd none_ size
        · exact absurd granted (by rw [refused]; decide)
  · obtain ⟨size, allowed⟩ := not_or.mp refused
    obtain rfl : granted = true := by simpa using allowed
    obtain ⟨i, -, ran⟩ := insertStatus_granted whole size data
    exact iff_of_true ⟨_, _, ran, fun failed => nomatch failed⟩ (.inr ⟨rfl, size⟩)

theorem deleteTells_iff (whole : ptr.Whole) (granted : Bool) (key : κ) (cmp' : Compare κ α) :
    DeleteTells granted ptr key cmp' ↔ (∀ x ∈ ptr.elements, cmp' key x ≠ 0) ∨
      granted = true ∧ 1 < ptr.num ∧ ptr.size ≠ 0 := by
  rcases deleteStatus_spec whole granted key cmp' with
    ⟨none_, ran⟩ | ⟨i, inside, equal, -, arr, isArr, ran⟩
  · refine iff_of_true ⟨_, _, ran, iff_of_false (fun ok => nomatch ok) ?_, fun _ => ⟨rfl, rfl⟩⟩
      (.inl none_)
    rintro ⟨l, x, r, split_, match_, -⟩
    exact none_ x (by rw [split_]; simp) match_
  · have some_ : ptr.num ≠ 0 := by rw [← whole]; omega
    have matched : ¬ ∀ x ∈ ptr.elements, cmp' key x ≠ 0 := fun none_ =>
      none_ _ (List.getElem_mem inside) equal
    rw [or_iff_right matched]
    by_cases refused : (ptr.num - 1) * ptr.size = 0 ∨ granted = false
    · rw [isArr, realloc_refused refused] at ran
      constructor
      · rintro ⟨ptr', code, ran', -, kept⟩
        cases ran.symm.trans ran'
        have less : ptr.num - 1 = ptr.num := (kept rfl).2
        omega
      · intro ⟨allowed, more, size⟩
        rcases refused with zero | refused
        · exact absurd zero (Nat.mul_ne_zero (by omega) size)
        · cases allowed.symm.trans refused
    · obtain ⟨request, allowed⟩ := not_or.mp refused
      obtain rfl : granted = true := by simpa using allowed
      rw [isArr, realloc_granted request] at ran
      obtain ⟨more, size⟩ := Nat.mul_ne_zero_iff.mp request
      refine iff_of_true ⟨_, _, ran, iff_of_true rfl ?_, fun failed => nomatch failed⟩
        ⟨rfl, by omega, size⟩
      refine ⟨ptr.elements.take i, ptr.elements[i], ptr.elements.drop (i + 1), ?_, equal, rfl, ?_⟩
      · rw [List.getElem_cons_drop, List.take_append_drop]
      · exact Nat.sub_add_cancel (Nat.pos_of_ne_zero some_)

/-- An array of one `int` that compares `int`s. -/
def single : SeqPtr Int := ⟨some [7], 1, 4, some fun a b => a - b⟩

end Shang.Darr
