import Shang.Lib.Nodes
import Shang.Lib.Places
import Shang.Lib.Pushed

/-!
# Lists in arrays

`sqlist.c`: a list is an array of `DATASIZE` data and the index of the last one. The
functions take a datum by its address, which in `sqlist_union` is an element of the
second list. `sqlist_union` does not look at what `sqlist_insert` returns.
-/

namespace Shang.Linear

open Shang.Lib Shang.Lib.Act Shang.Lib.Nodes

/-- `DATASIZE` -/
def DATASIZE : Nat := 1024

/-- `sqlist` -/
structure Sqlist where
  data : Int → Int
  last : Int

section Program

variable {P : Type} [Zero P] [DecidableEq P]

/-- `me->data[i]` -/
def item (me : P) (i : Int) : Act (Nodes P Sqlist) Int := do
  let l ← deref me
  if 0 ≤ i ∧ i < DATASIZE then pure (l.data i) else stop

/-- `me->data[i] = x` -/
def setItem (me : P) (i x : Int) : Act (Nodes P Sqlist) Unit :=
  if 0 ≤ i ∧ i < DATASIZE then assign me fun l => { l with data := Function.update l.data i x }
  else stop

/-- `for (; i <= j; j-- )` of `sqlist_insert` -/
def insertLoop (me : P) (i : Int) : Nat → Int → Act (Nodes P Sqlist) Unit
  | 0, _ => spent
  | fuel + 1, j =>
      if i ≤ j then do
        let x ← item me j
        setItem me (j + 1) x
        insertLoop me i fuel (j - 1)
      else pure ()

/-- `sqlist_insert(me, i, &list->data[k])` -/
def sqlistInsert (me : P) (i : Int) (list : P) (k : Int) (fuel : Nat) :
    Act (Nodes P Sqlist) Int := do
  let l ← deref me
  if l.last = DATASIZE - 1 then pure (-1)
  else if i < 0 ∨ i > l.last + 1 then pure (-2)
  else do
    insertLoop me i fuel l.last
    let x ← item list k
    setItem me i x
    assign me fun l => { l with last := l.last + 1 }
    pure 0

/-- `sqlist_isempty(me)` -/
def sqlistIsempty (me : P) : Act (Nodes P Sqlist) Int := do
  let l ← deref me
  if l.last = -1 then pure 1 else pure 0

/-- `for (i = 0; i <= me->last; i++)` of `sqlist_find` -/
def findLoop (me list : P) (k : Int) : Nat → Int → Act (Nodes P Sqlist) Int
  | 0, _ => spent
  | fuel + 1, i => do
      let l ← deref me
      if i ≤ l.last then do
        let x ← item me i
        let y ← item list k
        if x = y then pure i else findLoop me list k fuel (i + 1)
      else pure (-2)

/-- `sqlist_find(me, &list->data[k])` -/
def sqlistFind (me list : P) (k : Int) (fuel : Nat) : Act (Nodes P Sqlist) Int := do
  let empty ← sqlistIsempty me
  if empty ≠ 0 then pure (-1) else findLoop me list k fuel 0

/-- `for (i = 0; i <= list2->last; i++)` of `sqlist_union`; the loops in the functions it calls
have the fuel `inner`. -/
def unionLoop (list1 list2 : P) (inner : Nat) : Nat → Int → Act (Nodes P Sqlist) Unit
  | 0, _ => spent
  | fuel + 1, i => do
      let l ← deref list2
      if i ≤ l.last then do
        let num ← sqlistFind list1 list2 i inner
        if num < 0 then do
          let _ ← sqlistInsert list1 0 list2 i inner
          unionLoop list1 list2 inner fuel (i + 1)
        else unionLoop list1 list2 inner fuel (i + 1)
      else pure ()

/-- `sqlist_union(list1, list2)` -/
def sqlistUnion (list1 list2 : P) (fuel : Nat) : Act (Nodes P Sqlist) Int := do
  unionLoop list1 list2 fuel fuel 0
  pure 0

end Program

/-! ## Elements -/

/-- What is on the list. -/
def elements (l : Sqlist) : List Int := slice l.data 0 (l.last + 1)

/-- The index of the last element is in the array, or -1. -/
structure Fits (l : Sqlist) : Prop where
  low : -1 ≤ l.last
  high : l.last < DATASIZE

theorem Fits.length_elements {l : Sqlist} (fits : Fits l) :
    ((elements l).length : Int) = l.last + 1 := by
  rw [elements, length_slice]
  have low := fits.low
  omega

variable {P : Type} [Zero P] [DecidableEq P] {s t : Nodes P Sqlist} {me list : P} {l : Sqlist}
  {i j k x : Int}

theorem bind_item {α : Type} (live : me ∈ s.live) (low : 0 ≤ i) (high : i < DATASIZE)
    (rest : Int → Act (Nodes P Sqlist) α) :
    (item me i >>= rest) s = rest ((s.node me).data i) s := by
  refine bind_ended ?_
  rw [item, bind_deref live, if_pos ⟨low, high⟩]
  rfl

theorem bind_setItem {α : Type} (live : me ∈ s.live) (low : 0 ≤ i) (high : i < DATASIZE)
    (rest : Unit → Act (Nodes P Sqlist) α) : (setItem me i x >>= rest) s =
      rest () (s.put me { s.node me with data := Function.update (s.node me).data i x }) := by
  rw [setItem, if_pos ⟨low, high⟩]
  exact bind_assign live _ rest

/-! ## Finding -/

theorem findLoop_past (live : me ∈ s.live) (past : (s.node me).last < i) (n : Nat) :
    ∃ r, (∀ fuel, n < fuel → findLoop me list k fuel i s = .ended r s) ∧
      (r < 0 ↔ (s.node list).data k ∉ slice (s.node me).data i ((s.node me).last + 1)) := by
  refine ⟨-2, fun fuel enough => ?_, ?_⟩
  · obtain ⟨fuel, rfl⟩ := Nat.exists_eq_add_one.mpr (Nat.zero_lt_of_lt enough)
    rw [findLoop, bind_deref live, if_neg (by omega)]
    rfl
  · rw [slice_eq_nil (by omega)]
    simp

/-- The loop finds the datum in the rest of the list, or says that it is not there. -/
theorem findLoop_spec (live : me ∈ s.live) (fits : Fits (s.node me)) (live' : list ∈ s.live)
    (low : 0 ≤ k) (high : k < DATASIZE) {n : Nat} (start : 0 ≤ i)
    (left : (s.node me).last + 1 - i ≤ n) :
    ∃ r, (∀ fuel, n < fuel → findLoop me list k fuel i s = .ended r s) ∧
      (r < 0 ↔ (s.node list).data k ∉ slice (s.node me).data i ((s.node me).last + 1)) := by
  have top := fits.high
  induction n generalizing i with
  | zero => exact findLoop_past live (by omega) 0
  | succ n ih =>
      rcases Int.lt_or_le (s.node me).last i with past | more
      · exact findLoop_past live past _
      have inside : i < DATASIZE := by omega
      have round (fuel : Nat) : findLoop me list k (fuel + 1) i s =
          (if (s.node me).data i = (s.node list).data k then pure i
            else findLoop me list k fuel (i + 1)) s := by
        rw [findLoop, bind_deref live, if_pos more, bind_item live start inside,
          bind_item live' low high]
      rw [slice_succ (by omega), List.mem_cons, not_or]
      rcases eq_or_ne ((s.node me).data i) ((s.node list).data k) with found | other
      · refine ⟨i, fun fuel enough => ?_, fun below => ?_, fun new => absurd found.symm new.1⟩
        · obtain ⟨fuel, rfl⟩ := Nat.exists_eq_add_one.mpr (Nat.zero_lt_of_lt enough)
          rw [round, if_pos found]
          rfl
        · exact absurd start (Int.not_le.mpr below)
      · obtain ⟨r, ran, absent⟩ := @ih (i + 1) (by omega) (by omega)
        refine ⟨r, fun fuel enough => ?_, ?_⟩
        · obtain ⟨fuel, rfl⟩ := Nat.exists_eq_add_one.mpr (Nat.zero_lt_of_lt enough)
          rw [round, if_neg other]
          exact ran fuel (by omega)
        · rw [absent]
          exact ⟨fun new => ⟨other.symm, new⟩, And.right⟩

/-- `sqlist_find` returns a negative number exactly when the datum is not on the list. -/
theorem sqlistFind_spec (live : me ∈ s.live) (fits : Fits (s.node me)) (live' : list ∈ s.live)
    (low : 0 ≤ k) (high : k < DATASIZE) :
    ∃ r, (∀ fuel, DATASIZE < fuel → sqlistFind me list k fuel s = .ended r s) ∧
      (r < 0 ↔ (s.node list).data k ∉ elements (s.node me)) := by
  have top := fits.high
  rcases eq_or_ne (s.node me).last (-1) with empty | some
  · refine ⟨-1, fun fuel _ => ?_, ?_⟩
    · rw [sqlistFind, sqlistIsempty, bind_assoc, bind_deref live, if_pos empty]
      rfl
    · rw [elements, empty, slice_eq_nil (by omega)]
      simp
  · have left : (s.node me).last + 1 - 0 ≤ DATASIZE := by omega
    obtain ⟨r, ran, absent⟩ := findLoop_spec live fits live' low high (Int.le_refl 0) left
    refine ⟨r, fun fuel enough => ?_, absent⟩
    rw [sqlistFind, sqlistIsempty, bind_assoc, bind_deref live, if_neg some]
    exact ran fuel enough

/-! ## Inserting -/

theorem insertLoop_past (past : j < i) (n : Nat) :
    ∃ d, (∀ fuel, n < fuel →
        insertLoop me i fuel j s = .ended () (s.put me ⟨d, (s.node me).last⟩)) ∧
      (∀ k, i < k → k ≤ j + 1 → d k = (s.node me).data (k - 1)) ∧
      ∀ k, k ≤ i ∨ j + 1 < k → d k = (s.node me).data k := by
  refine ⟨(s.node me).data, fun fuel enough => ?_, fun k _ _ => by omega, fun _ _ => rfl⟩
  obtain ⟨fuel, rfl⟩ := Nat.exists_eq_add_one.mpr (Nat.zero_lt_of_lt enough)
  rw [insertLoop, if_neg (by omega)]
  exact congrArg (Outcome.ended ()) put_node.symm

/-- The loop moves the data from `i` on by one place. -/
theorem insertLoop_spec (live : me ∈ s.live) {n : Nat} (low : 0 ≤ i) (high : j + 1 < DATASIZE)
    (left : j + 1 - i ≤ n) :
    ∃ d, (∀ fuel, n < fuel →
        insertLoop me i fuel j s = .ended () (s.put me ⟨d, (s.node me).last⟩)) ∧
      (∀ k, i < k → k ≤ j + 1 → d k = (s.node me).data (k - 1)) ∧
      ∀ k, k ≤ i ∨ j + 1 < k → d k = (s.node me).data k := by
  induction n generalizing s j with
  | zero => exact insertLoop_past (by omega) 0
  | succ n ih =>
      rcases Int.lt_or_le j i with past | more
      · exact insertLoop_past past _
      let moved := Function.update (s.node me).data (j + 1) ((s.node me).data j)
      have round (fuel : Nat) : insertLoop me i (fuel + 1) j s =
          insertLoop me i fuel (j - 1) (s.put me ⟨moved, (s.node me).last⟩) := by
        rw [insertLoop, if_pos more, bind_item live (by omega) (by omega),
          bind_setItem live (by omega) high]
      obtain ⟨d, ran, shifted, kept⟩ :=
        @ih (s.put me ⟨moved, (s.node me).last⟩) (j - 1) live (by omega) (by omega)
      rw [put_self] at ran shifted kept
      refine ⟨d, fun fuel enough => ?_, fun k above inside => ?_, fun k off => ?_⟩
      · obtain ⟨fuel, rfl⟩ := Nat.exists_eq_add_one.mpr (Nat.zero_lt_of_lt enough)
        rw [round, ran fuel (by omega), put_put]
      · rcases Int.lt_or_le j k with last | earlier
        · obtain rfl : k = j + 1 := by omega
          rw [kept (j + 1) (by omega), Int.add_sub_cancel]
          exact Function.update_self _ _ _
        · rw [shifted k above (by omega)]
          exact Function.update_of_ne (by omega) _ _
      · rw [kept k (by omega)]
        exact Function.update_of_ne (by omega) _ _

/-- At the front of a list that is not full `sqlist_insert` puts a datum of another list. -/
theorem sqlistInsert_front (live : me ∈ s.live) (fits : Fits (s.node me)) (live' : list ∈ s.live)
    (low : 0 ≤ k) (high : k < DATASIZE) (other : list ≠ me)
    (room : (elements (s.node me)).length < DATASIZE) :
    ∃ l, (∀ fuel, DATASIZE < fuel → sqlistInsert me 0 list k fuel s = .ended 0 (s.put me l)) ∧
      Fits l ∧ elements l = (s.node list).data k :: elements (s.node me) := by
  have bottom := fits.low
  have size := fits.length_elements
  have left : (s.node me).last + 1 - 0 ≤ DATASIZE := by omega
  obtain ⟨d, ran, shifted, kept⟩ := insertLoop_spec live (Int.le_refl 0) (by omega) left
  let d' := Function.update d 0 ((s.node list).data k)
  refine ⟨⟨d', (s.node me).last + 1⟩, fun fuel enough => ?_, ⟨?_, ?_⟩, ?_⟩
  · rw [sqlistInsert, bind_deref live, if_neg (by omega), if_neg (by omega),
      bind_ended (ran fuel enough), bind_item (by exact live') low high, put_of_ne other,
      bind_setItem (by exact live) (Int.le_refl 0) (by decide), put_self, put_put,
      bind_assign (by exact live), put_self, put_put]
    rfl
  · change -1 ≤ (s.node me).last + 1
    omega
  · change (s.node me).last + 1 < DATASIZE
    omega
  · have here : d' 0 = (s.node list).data k := Function.update_self _ _ _
    have moved : slice d' (0 + 1) ((s.node me).last + 1 + 1) = elements (s.node me) := by
      rw [Int.add_comm 0 1, Int.add_comm ((s.node me).last + 1) 1, ← slice_add, elements]
      refine slice_congr fun i low high => ?_
      have behind : d' (1 + i) = d (1 + i) := Function.update_of_ne (by omega) _ _
      rw [behind, shifted _ (by omega) (by omega)]
      exact congrArg (s.node me).data (by omega)
    rw [elements]
    dsimp only
    rw [slice_succ (by omega), here, moved]

/-- A full list stays as it is. -/
theorem sqlistInsert_full (live : me ∈ s.live) (fits : Fits (s.node me))
    (full : DATASIZE ≤ (elements (s.node me)).length) (fuel : Nat) :
    sqlistInsert me 0 list k fuel s = .ended (-1) s := by
  have size := fits.length_elements
  have top := fits.high
  rw [sqlistInsert, bind_deref live, if_pos (by omega)]
  rfl

/-! ## The union -/

/-- A round of `sqlist_union` puts the datum in front unless it is there or the list is full. -/
theorem unionLoop_next {list1 list2 : P} (live1 : list1 ∈ s.live) (live2 : list2 ∈ s.live)
    (fits : Fits (s.node list1)) (fits2 : Fits (s.node list2)) (low : 0 ≤ i)
    (more : i ≤ (s.node list2).last) :
    ∃ l, (∀ inner fuel, DATASIZE < inner → unionLoop list1 list2 inner (fuel + 1) i s =
        unionLoop list1 list2 inner fuel (i + 1) (s.put list1 l)) ∧ Fits l ∧
      elements l = pushNew DATASIZE (elements (s.node list1)) ((s.node list2).data i) ∧
      (list1 = list2 → l = s.node list1) := by
  have top := fits2.high
  obtain ⟨r, found, absent⟩ := sqlistFind_spec live1 fits live2 low (by omega : i < DATASIZE)
  by_cases old : (s.node list2).data i ∈ elements (s.node list1)
  · refine ⟨s.node list1, fun inner fuel enough => ?_, fits, (pushNew_of_mem old).symm,
      fun _ => rfl⟩
    have stays : ¬ r < 0 := fun below => absent.mp below old
    rw [unionLoop, bind_deref live2, if_pos more, bind_ended (found inner enough), if_neg stays,
      put_node]
  · have new : r < 0 := absent.mpr old
    have apart : list2 ≠ list1 := fun same => by
      subst same
      exact old (mem_slice.mpr ⟨i, ⟨low, by omega⟩, rfl⟩)
    rcases Nat.lt_or_ge (elements (s.node list1)).length DATASIZE with room | full
    · obtain ⟨l, inserted, fits', added⟩ :=
        sqlistInsert_front live1 fits live2 low (by omega) apart room
      refine ⟨l, fun inner fuel enough => ?_, fits', added.trans (pushNew_of_room old room).symm,
        fun same => absurd same.symm apart⟩
      rw [unionLoop, bind_deref live2, if_pos more, bind_ended (found inner enough), if_pos new,
        bind_ended (inserted inner enough)]
    · refine ⟨s.node list1, fun inner fuel enough => ?_, fits, (pushNew_of_full full).symm,
        fun _ => rfl⟩
      rw [unionLoop, bind_deref live2, if_pos more, bind_ended (found inner enough), if_pos new,
        bind_ended (sqlistInsert_full live1 fits full inner), put_node]

theorem unionLoop_past {list1 list2 : P} (live2 : list2 ∈ s.live) (fits : Fits (s.node list1))
    (past : (s.node list2).last < i) (n : Nat) :
    ∃ t, (∀ inner fuel, DATASIZE < inner → n < fuel →
        unionLoop list1 list2 inner fuel i s = .ended () t) ∧ Fits (t.node list1) ∧
      elements (t.node list1) = pushAll DATASIZE (elements (s.node list1))
        (slice (s.node list2).data i ((s.node list2).last + 1)) ∧
      t.node list2 = s.node list2 := by
  refine ⟨s, fun inner fuel _ enough => ?_, fits, ?_, rfl⟩
  · obtain ⟨fuel, rfl⟩ := Nat.exists_eq_add_one.mpr (Nat.zero_lt_of_lt enough)
    rw [unionLoop, bind_deref live2, if_neg (by omega)]
    rfl
  · rw [slice_eq_nil (by omega)]
    rfl

/-- The rounds from `i` on. -/
theorem unionLoop_spec {list1 list2 : P} (live1 : list1 ∈ s.live) (live2 : list2 ∈ s.live)
    (fits : Fits (s.node list1)) (fits2 : Fits (s.node list2)) (low : 0 ≤ i) {n : Nat}
    (left : (s.node list2).last + 1 - i ≤ n) :
    ∃ t, (∀ inner fuel, DATASIZE < inner → n < fuel →
        unionLoop list1 list2 inner fuel i s = .ended () t) ∧ Fits (t.node list1) ∧
      elements (t.node list1) = pushAll DATASIZE (elements (s.node list1))
        (slice (s.node list2).data i ((s.node list2).last + 1)) ∧
      t.node list2 = s.node list2 := by
  induction n generalizing s i with
  | zero => exact unionLoop_past live2 fits (by omega) 0
  | succ n ih =>
      rcases Int.lt_or_le (s.node list2).last i with past | more
      · exact unionLoop_past live2 fits past _
      · obtain ⟨l, round, fitsL, pushed, same⟩ := unionLoop_next live1 live2 fits fits2 low more
        have kept : (s.put list1 l).node list2 = s.node list2 := by
          rcases eq_or_ne list2 list1 with rfl | other
          · rw [put_self, same rfl]
          · rw [put_of_ne other]
        obtain ⟨t, ran, fitsT, all, keptT⟩ := @ih (s.put list1 l) (i + 1) live1 live2
          (by rw [put_self]; exact fitsL) (by rw [kept]; exact fits2) (by omega)
          (by rw [kept]; omega)
        rw [kept, put_self, pushed] at all
        refine ⟨t, fun inner fuel large enough => ?_, fitsT, ?_, keptT.trans kept⟩
        · obtain ⟨fuel, rfl⟩ := Nat.exists_eq_add_one.mpr (Nat.zero_lt_of_lt enough)
          exact (round inner fuel large).trans (ran inner fuel large (by omega))
        · have first : i < (s.node list2).last + 1 := by omega
          rw [all, slice_succ first, pushAll_cons]

/-- `sqlist_union` returns 0 and has put what is new in front, as long as there was room. -/
theorem sqlistUnion_spec {list1 list2 : P} (live1 : list1 ∈ s.live) (live2 : list2 ∈ s.live)
    (fits : Fits (s.node list1)) (fits2 : Fits (s.node list2)) :
    ∃ t, (∀ fuel, DATASIZE < fuel → sqlistUnion list1 list2 fuel s = .ended 0 t) ∧
      elements (t.node list1) =
        pushAll DATASIZE (elements (s.node list1)) (elements (s.node list2)) ∧
      t.node list2 = s.node list2 := by
  have top := fits2.high
  have left : (s.node list2).last + 1 - 0 ≤ DATASIZE := by omega
  obtain ⟨t, ran, -, all, kept⟩ := unionLoop_spec live1 live2 fits fits2 (Int.le_refl 0) left
  refine ⟨t, fun fuel enough => ?_, all, kept⟩
  rw [sqlistUnion, bind_ended (ran fuel fuel enough enough)]
  rfl

/-- If `sqlist_union` returns 0, all of `list2` is on `list1`, which ends as it was, what is new is
there once, and `list2` is as it was. -/
def Unites (s : Nodes P Sqlist) (list1 list2 : P) : Prop :=
  ∃ r t, (∀ fuel, DATASIZE < fuel → sqlistUnion list1 list2 fuel s = .ended r t) ∧
    (r = 0 → (∀ x ∈ elements (s.node list2), x ∈ elements (t.node list1)) ∧
      elements (s.node list1) <:+ elements (t.node list1) ∧
      (∀ x ∈ elements (s.node list2), x ∉ elements (s.node list1) →
        (elements (t.node list1)).count x = 1) ∧
      t.node list2 = s.node list2)

/-- The result 0 is right if and only if there is room for the values of `list2` that are new. -/
theorem sqlistUnion_iff {list1 list2 : P} (live1 : list1 ∈ s.live) (live2 : list2 ∈ s.live)
    (fits : Fits (s.node list1)) (fits2 : Fits (s.node list2)) :
    Unites s list1 list2 ↔ (elements (s.node list1)).length +
      ((elements (s.node list2)).toFinset \ (elements (s.node list1)).toFinset).card ≤
        DATASIZE := by
  obtain ⟨t, ran, all, kept⟩ := sqlistUnion_spec live1 live2 fits fits2
  have size := fits.length_elements
  have top := fits.high
  rw [← mem_pushAll_iff (by omega), ← all]
  constructor
  · intro ⟨r, t', ran', unites⟩
    have same := (ran _ (Nat.lt_succ_self _)).symm.trans (ran' _ (Nat.lt_succ_self _))
    cases same
    exact (unites rfl).1
  · intro there
    refine ⟨0, t, ran, fun _ => ⟨there, ?_, fun x mem new => ?_, kept⟩⟩
    · rw [all]
      exact suffix_pushAll
    · have once : (elements (t.node list1)).count x ≤ 1 := by
        rw [all]
        exact count_pushAll_le (by rw [List.count_eq_zero.mpr new]; exact Nat.zero_le 1)
      exact once.antisymm (List.count_pos_iff.mpr (there x mem))

theorem sqlistUnion_iff_two :
    let s : Nodes Nat Sqlist := ⟨fun p => ⟨fun i => p + i, 1⟩, {1, 2}, by decide, []⟩
    Unites s 1 2 ↔ (elements (s.node 1)).length +
      ((elements (s.node 2)).toFinset \ (elements (s.node 1)).toFinset).card ≤ DATASIZE := by
  intro s
  exact sqlistUnion_iff (by decide : 1 ∈ s.live) (by decide) ⟨by decide, by decide⟩
    ⟨by decide, by decide⟩

/-- A full list of zeros and a list of a one. -/
theorem sqlistUnion_full :
    let s : Nodes Nat Sqlist :=
      ⟨fun p => if p = 1 then ⟨fun _ => 0, 1023⟩ else ⟨fun _ => 1, 0⟩, {1, 2}, by decide, []⟩
    Fits (s.node 1) ∧ Fits (s.node 2) ∧
      ∃ t, sqlistUnion 1 2 1025 s = .ended 0 t ∧ 1 ∈ elements (s.node 2) ∧
        1 ∉ elements (t.node 1) ∧ ¬ Unites s 1 2 := by
  intro s
  have fits : Fits (s.node 1) := ⟨by decide, by decide⟩
  have fits2 : Fits (s.node 2) := ⟨by decide, by decide⟩
  obtain ⟨t, ran, all, -⟩ :=
    sqlistUnion_spec (by decide : 1 ∈ s.live) (by decide : 2 ∈ s.live) fits fits2
  have one : elements (s.node 2) = [1] := rfl
  have absent : 1 ∉ elements (s.node 1) := fun mem => by
    obtain ⟨i, -, zero⟩ := mem_slice.mp mem
    cases zero
  have size : (elements (s.node 1)).length = DATASIZE := length_slice _ _ _
  have missing : 1 ∉ elements (t.node 1) := by
    rw [all, one, pushAll_cons, pushNew_of_full size.ge, pushAll_nil]
    exact absent
  refine ⟨fits, fits2, t, ran 1025 (by decide), by decide, missing, fun ⟨r, t', ran', unites⟩ => ?_⟩
  have same := (ran 1025 (by decide)).symm.trans (ran' 1025 (by decide))
  cases same
  exact missing ((unites rfl).1 1 (by decide))

end Shang.Linear
