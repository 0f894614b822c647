import Shang.Lib.LevelTree
import Shang.Lib.Places
import Mathlib.Algebra.Group.Nat.Defs
import Mathlib.Data.Nat.Log

/-!
# Binary trees in an array

`CreateBiTree` and `Assign` of `bo6-1.c`. Both look at the parent of a cell, at
`T[i-1/2]`. As `1/2` is `0`, that is the cell itself: `CreateBiTree` never finds a
parent missing, and `Assign` refuses a value where the cell has none yet. To clear a
cell, `Assign` looks at both of its children, which the last level does not have.
-/

namespace Shang.Gyf

open Shang.Lib Shang.Lib.Act Function

def MAX_TREE_SIZE : Nat := 100

def Nil : Int := 0

inductive Status
  | OK
  | ERROR
  deriving DecidableEq

/-- What the arrays contain, each of them under its name. -/
abbrev Mem (ν : Type) := ν × Nat → Int

variable {ν : Type} [DecidableEq ν]

/-- `T[i]` -/
def get (t : ν) (i : Nat) : Act (Mem ν) Int := fun m =>
  if i < MAX_TREE_SIZE then .ended (m (t, i)) m else .stopped m

/-- `T[i] = x` -/
def put (t : ν) (i : Nat) (x : Int) : Act (Mem ν) Unit := fun m =>
  if i < MAX_TREE_SIZE then .ended () (update m (t, i) x) else .stopped m

section access

variable {t : ν} {i : Nat} {m : Mem ν} {x : Int}

omit [DecidableEq ν] in
theorem get_eq (bound : i < MAX_TREE_SIZE) : get t i m = .ended (m (t, i)) m := if_pos bound

omit [DecidableEq ν] in
theorem get_stopped (bound : MAX_TREE_SIZE ≤ i) : get t i m = .stopped m :=
  if_neg (Nat.not_lt.mpr bound)

theorem put_eq (bound : i < MAX_TREE_SIZE) : put t i x m = .ended () (update m (t, i) x) :=
  if_pos bound

theorem update_cell {k : Nat} (ne : k ≠ i) : update m (t, i) x (t, k) = m (t, k) :=
  update_of_ne (fun same => ne (Prod.mk.inj same).2) _ _

end access

/-! ## The program -/

/-- `ret = scanf("%d", &T[i])`, and whether `ret` is not `0`. The call finds `input[i]`, a
number or something else, or the end of the file. -/
def scanf (t : ν) (input : List (Option Int)) (i : Nat) : Act (Mem ν) Bool :=
  match input[i]? with
  | some (some v) => do
      put t i v
      pure true
  | some none => pure false
  | none => pure true

/-- The first loop of `CreateBiTree`, which has no result at `return ERROR`. -/
def readLoop (t : ν) (input : List (Option Int)) : Nat → Nat → Act (Mem ν) (Option Nat)
  | 0, i => pure (some i)
  | n + 1, i => do
      let ret ← scanf t input i
      if ret then do
        let x ← get t i
        if x = 999 then pure (some i)
        else if i ≠ 0 ∧ x ≠ Nil then do
          let above ← get t (i - 1 / 2)
          if above = Nil then pure none else readLoop t input n (i + 1)
        else readLoop t input n (i + 1)
      else pure (some i)

/-- `for (; i < MAX_TREE_SIZE; i++)` -/
def fillLoop (t : ν) : Nat → Nat → Act (Mem ν) Unit
  | 0, _ => pure ()
  | n + 1, i => do
      put t i Nil
      fillLoop t n (i + 1)

def createBiTree (t : ν) (input : List (Option Int)) : Act (Mem ν) Status := do
  let i ← readLoop t input MAX_TREE_SIZE 0
  match i with
  | none => pure .ERROR
  | some i => do
      fillLoop t (MAX_TREE_SIZE - i) i
      pure .OK

/-- `position`, of a cell of the array. -/
structure Position where
  level : Nat
  order : Nat
  level_pos : 0 < level
  order_pos : 0 < order
  order_le : order ≤ 2 ^ (level - 1)
  inside : 2 ^ (level - 1) - 1 + order - 1 < MAX_TREE_SIZE

/-- The cell at a position. -/
def Position.index (e : Position) : Nat := 2 ^ (e.level - 1) - 1 + e.order - 1

def assign (t : ν) (e : Position) (value : Int) : Act (Mem ν) Status :=
  let i := e.index
  if value ≠ Nil then do
    let above ← get t (i - 1 / 2)
    if above = Nil then pure .ERROR
    else do
      put t i value
      pure .OK
  else do
    let l ← get t (2 * i + 1)
    if l ≠ Nil then pure .ERROR
    else do
      let r ← get t (2 * i + 2)
      if r ≠ Nil then pure .ERROR
      else do
        put t i value
        pure .OK

theorem Position.index_lt (e : Position) : e.index < MAX_TREE_SIZE := e.inside

/-- Every cell has a position. -/
theorem Position.exists_index {i : Nat} (bound : i < MAX_TREE_SIZE) :
    ∃ e : Position, e.index = i := by
  have low : 2 ^ Nat.log 2 (i + 1) ≤ i + 1 := Nat.pow_log_le_self 2 (by omega)
  have high : i + 1 < 2 ^ (Nat.log 2 (i + 1) + 1) := Nat.lt_pow_succ_log_self (by decide) _
  have here : 2 ^ Nat.log 2 (i + 1) - 1 + (i + 2 - 2 ^ Nat.log 2 (i + 1)) - 1 = i := by omega
  rw [Nat.pow_succ] at high
  exact ⟨⟨Nat.log 2 (i + 1) + 1, i + 2 - 2 ^ Nat.log 2 (i + 1), Nat.succ_pos _, by omega,
    by rw [Nat.add_sub_cancel]; omega, by rw [Nat.add_sub_cancel, here]; exact bound⟩,
    here⟩

/-! ## Well-formed trees -/

/-- Every node of the tree has a parent, the root apart. -/
def WellFormed (t : ν) (m : Mem ν) : Prop :=
  ∀ i, 0 < i → i < MAX_TREE_SIZE → m (t, i) ≠ Nil → m (t, parent i) ≠ Nil

section wellFormed

variable {t : ν} {m : Mem ν} {i : Nat} {x : Int}

/-- A value may be written where there is a parent. -/
theorem WellFormed.update_iff (formed : WellFormed t m) (bound : i < MAX_TREE_SIZE)
    (some : x ≠ Nil) :
    WellFormed t (update m (t, i) x) ↔ (0 < i → m (t, parent i) ≠ Nil) := by
  constructor
  · intro after pos
    have above := after i pos bound (by rwa [update_self])
    rwa [update_cell (parent_lt pos).ne] at above
  · intro above k pos inside here
    have apart : parent k ≠ k := (parent_lt pos).ne
    by_cases up : parent k = i
    · rwa [up, update_self]
    · rw [update_cell up]
      by_cases same : k = i
      · subst same
        exact above pos
      · rw [update_cell same] at here
        exact formed k pos inside here

/-- A value may be cleared where there are no children. -/
theorem WellFormed.clear_iff (formed : WellFormed t m) :
    WellFormed t (update m (t, i) Nil) ↔
      ∀ b, child b i < MAX_TREE_SIZE → m (t, child b i) = Nil := by
  constructor
  · intro after b bound
    by_contra some
    have apart : child b i ≠ i := lt_child.ne'
    have above := after (child b i) (Nat.zero_lt_of_lt lt_child) bound (by rwa [update_cell apart])
    rw [parent_child, update_self] at above
    exact above rfl
  · intro bare k pos inside here
    have apart : k ≠ i := by
      rintro rfl
      exact here (update_self _ _ _)
    rw [update_cell apart] at here
    have up : parent k ≠ i := by
      rintro rfl
      obtain ⟨b, same⟩ := exists_child pos
      exact here (same ▸ bare b (same.symm ▸ inside))
    rw [update_cell up]
    exact formed k pos inside here

end wellFormed

/-! ## `CreateBiTree` -/

/-- A sequence of entries has a value without a parent, before the end of it. -/
def Orphan (entry : Nat → Option Int) : Prop :=
  ∃ i, 0 < i ∧ i < MAX_TREE_SIZE ∧ (∀ k ≤ i, ∃ v, entry k = some v ∧ v ≠ 999) ∧
    entry i ≠ some Nil ∧ entry (parent i) = some Nil

/-- The numbers of the input. -/
def number (input : List (Option Int)) (i : Nat) : Option Int := (input[i]?).join

/-- The numbers of the input, and behind the end of the file what the array had before. -/
def entry (t : ν) (input : List (Option Int)) (m : Mem ν) (i : Nat) : Option Int :=
  match input[i]? with
  | some x => x
  | none => some (m (t, i))

/-- Only a well-formed tree is accepted, and a sequence with a value without a parent is not. -/
def Creates (t : ν) (input : List (Option Int)) (m : Mem ν) : Prop :=
  ∃ s m', createBiTree t input m = .ended s m' ∧ (s = .OK → WellFormed t m') ∧
    (Orphan (number input) → s = .ERROR)

/-- What the first loop has done from `i` on when it ends at `k`. -/
structure ReadTo (t : ν) (input : List (Option Int)) (m : Mem ν) (i k : Nat) (m' : Mem ν) :
    Prop where
  low : i ≤ k
  high : k ≤ MAX_TREE_SIZE
  taken : ∀ l, i ≤ l → l < k → entry t input m l = some (m' (t, l)) ∧ m' (t, l) ≠ 999
  ends : k < MAX_TREE_SIZE → ∀ v, entry t input m k = some v → v = 999
  frame : ∀ l, l < i → m' (t, l) = m (t, l)

section create

variable {t : ν} {input : List (Option Int)} {m : Mem ν} {i k n : Nat}

omit [DecidableEq ν] in
theorem Orphan.entry (orphan : Orphan (number input)) : Orphan (entry t input m) := by
  obtain ⟨i, pos, bound, before, here, above⟩ := orphan
  have same : ∀ k ≤ i, Gyf.entry t input m k = number input k := by
    intro k le
    obtain ⟨v, found, -⟩ := before k le
    unfold number at found ⊢
    unfold Gyf.entry
    cases item : input[k]? with
    | none => rw [item] at found; cases found
    | some x => rfl
  refine ⟨i, pos, bound, fun k le => ?_, ?_, ?_⟩
  · rw [same k le]
    exact before k le
  · rwa [same i (Nat.le_refl i)]
  · rwa [same (parent i) (parent_lt pos).le]

theorem scanf_cases (bound : i < MAX_TREE_SIZE) :
    (entry t input m i = none ∧ scanf t input i m = .ended false m) ∨
      ∃ v, entry t input m i = some v ∧ scanf t input i m = .ended true (update m (t, i) v) := by
  unfold entry scanf
  match input[i]? with
  | some (some v) => exact .inr ⟨v, rfl, bind_ended (put_eq bound)⟩
  | some none => exact .inl ⟨rfl, rfl⟩
  | none => exact .inr ⟨m (t, i), rfl, by rw [update_eq_self]; rfl⟩

/-- The loop never comes to `return ERROR`. -/
theorem readLoop_ended (t : ν) (input : List (Option Int)) (m : Mem ν)
    (size : i + n = MAX_TREE_SIZE) :
    ∃ k m', readLoop t input n i m = .ended (some k) m' ∧ ReadTo t input m i k m' := by
  induction n generalizing i m with
  | zero =>
      exact ⟨i, m, rfl, Nat.le_refl i, by omega, fun l low high => absurd low (by omega),
        fun less => absurd less (by omega), fun _ _ => rfl⟩
  | succ n ih =>
      have bound : i < MAX_TREE_SIZE := by omega
      rcases scanf_cases (t := t) (m := m) bound with ⟨none, ran⟩ | ⟨v, some, ran⟩
      · have ended : readLoop t input (n + 1) i m = .ended (some i) m := by
          rw [readLoop, bind_ended ran, if_neg Bool.false_ne_true]
          rfl
        refine ⟨i, m, ended, Nat.le_refl i, bound.le, fun l low high => ?_,
          fun _ v found => ?_, fun _ _ => rfl⟩
        · exact absurd low (Nat.not_le.mpr high)
        · rw [none] at found
          cases found
      have here : get t i (update m (t, i) v) = .ended v (update m (t, i) v) := by
        rw [get_eq bound, update_self]
      rw [readLoop, bind_ended ran, if_pos rfl, bind_ended here]
      by_cases last : v = 999
      · refine ⟨i, _, by rw [if_pos last]; rfl, Nat.le_refl i, bound.le,
          fun l low high => absurd low (by omega), fun _ w found => ?_, fun l less => ?_⟩
        · rw [some] at found
          exact (Option.some.inj found).symm.trans last
        · exact update_cell less.ne
      · obtain ⟨k, m', rest, read⟩ := ih (m := update m (t, i) v) (i := i + 1) (by omega)
        have goesOn : (if i ≠ 0 ∧ v ≠ Nil then do
            let above ← get t (i - 1 / 2)
            if above = Nil then pure none else readLoop t input n (i + 1)
          else readLoop t input n (i + 1)) (update m (t, i) v) = .ended (.some k) m' := by
          split
          next inner =>
            -- the parent is looked for in the cell itself
            rw [Nat.div_eq_of_lt Nat.one_lt_two, Nat.sub_zero, bind_ended here, if_neg inner.2]
            exact rest
          next => exact rest
        have kept : m' (t, i) = v := by rw [read.frame i (Nat.lt_succ_self i), update_self]
        have same : ∀ l, l ≠ i → entry t input (update m (t, i) v) l = entry t input m l := by
          intro l apart
          unfold entry
          rw [update_cell apart]
        have low := read.low
        refine ⟨k, m', by rw [if_neg last]; exact goesOn, by omega, read.high,
          fun l below less => ?_, fun less w found => ?_, fun l less => ?_⟩
        · rcases Nat.eq_or_lt_of_le below with rfl | later
          · rw [some, kept]
            exact ⟨rfl, last⟩
          · rw [← same l later.ne']
            exact read.taken l later less
        · exact read.ends less w ((same k (by omega)).trans found)
        · rw [read.frame l (by omega)]
          exact update_cell less.ne

theorem fillLoop_ended (size : i + n = MAX_TREE_SIZE) :
    ∃ m', fillLoop t n i m = .ended () m' ∧ (∀ l, l < i → m' (t, l) = m (t, l)) ∧
      ∀ l, i ≤ l → l < MAX_TREE_SIZE → m' (t, l) = Nil := by
  induction n generalizing i m with
  | zero => exact ⟨m, rfl, fun _ _ => rfl, fun l low high => absurd low (by omega)⟩
  | succ n ih =>
      obtain ⟨m', rest, front, filled⟩ := ih (m := update m (t, i) Nil) (i := i + 1) (by omega)
      refine ⟨m', (bind_ended (put_eq (by omega))).trans rest, fun l less => ?_,
        fun l low high => ?_⟩
      · rw [front l (by omega)]
        exact update_cell less.ne
      · rcases Nat.eq_or_lt_of_le low with rfl | later
        · rw [front i (Nat.lt_succ_self i), update_self]
        · exact filled l later high

/-- A tree is always made, of the entries before the end. -/
theorem createBiTree_ended (t : ν) (input : List (Option Int)) (m : Mem ν) :
    ∃ k m₁ m', createBiTree t input m = .ended .OK m' ∧ ReadTo t input m 0 k m₁ ∧
      (∀ l, l < k → m' (t, l) = m₁ (t, l)) ∧
      ∀ l, k ≤ l → l < MAX_TREE_SIZE → m' (t, l) = Nil := by
  obtain ⟨k, m₁, ran, read⟩ := readLoop_ended t input m (i := 0) (n := MAX_TREE_SIZE)
    (Nat.zero_add _)
  have high := read.high
  obtain ⟨m', filled, front, back⟩ := fillLoop_ended (t := t) (m := m₁) (i := k)
    (n := MAX_TREE_SIZE - k) (by omega)
  exact ⟨k, m₁, m', (bind_ended ran).trans (bind_ended filled), read, front, back⟩

/-- The tree is well formed if the entries are. -/
theorem creates_iff : Creates t input m ↔ ¬ Orphan (entry t input m) := by
  obtain ⟨k, m₁, m', ran, read, front, back⟩ := createBiTree_ended t input m
  have given : ∀ l, l < k → entry t input m l = some (m' (t, l)) ∧ m' (t, l) ≠ 999 := by
    intro l less
    rw [front l less]
    exact read.taken l (Nat.zero_le l) less
  constructor
  · rintro ⟨s, m'', ran', formed, -⟩ ⟨i, pos, bound, before, here, above⟩
    obtain ⟨rfl, rfl⟩ : Status.OK = s ∧ m' = m'' := by
      have same := ran.symm.trans ran'
      injection same with first second
      exact ⟨first, second⟩
    have less : i < k := by
      by_contra le
      obtain ⟨v, found, other⟩ := before k (Nat.le_of_not_lt le)
      exact other (read.ends (by omega) v found)
    rw [(given i less).1] at here
    rw [(given (parent i) ((parent_lt pos).trans less)).1] at above
    exact formed rfl i pos bound (fun none => here (congrArg some none)) (Option.some.inj above)
  · intro none
    refine ⟨.OK, m', ran, fun _ i pos bound here above => ?_, fun orphan => ?_⟩
    · have less : i < k := by
        by_contra le
        exact here (back i (Nat.le_of_not_lt le) bound)
      refine none ⟨i, pos, bound, fun l le => ?_, ?_, ?_⟩
      · exact ⟨_, given l (Nat.lt_of_le_of_lt le less)⟩
      · rw [(given i less).1]
        exact fun same => here (Option.some.inj same)
      · rw [(given (parent i) ((parent_lt pos).trans less)).1, above]
    · exact absurd orphan.entry none

end create

/-! ## `Assign` -/

/-- `OK` for a well-formed result, with that cell changed and no other, and otherwise
`ERROR`, with nothing changed. -/
def Assigns (t : ν) (e : Position) (value : Int) (m : Mem ν) : Prop :=
  ∃ s m', assign t e value m = .ended s m' ∧
    (s = .OK ↔ WellFormed t (update m (t, e.index) value)) ∧
    (s = .OK → m' = update m (t, e.index) value) ∧ (s = .ERROR → m' = m)

/-- A value takes the place of another one, or its parent is missing. The cell to be cleared
has both its children in the array, or only a left one, that is there. -/
def Assignable (t : ν) (e : Position) (value : Int) (m : Mem ν) : Prop :=
  (value ≠ Nil ∧ (m (t, e.index) ≠ Nil ∨ (0 < e.index ∧ m (t, parent e.index) = Nil))) ∨
    (value = Nil ∧ (2 * e.index + 2 < MAX_TREE_SIZE ∨
      (2 * e.index + 1 < MAX_TREE_SIZE ∧ m (t, 2 * e.index + 1) ≠ Nil)))

section assign

variable {t : ν} {e : Position} {value : Int} {m : Mem ν}

/-- The answer of `Assign` for a value, which depends on the cell itself. -/
theorem assign_value (some : value ≠ Nil) :
    assign t e value m = if m (t, e.index) = Nil then .ended .ERROR m
      else .ended .OK (update m (t, e.index) value) := by
  have above : get t (e.index - 1 / 2) m = .ended (m (t, e.index)) m := get_eq e.index_lt
  rw [assign, if_pos some, bind_ended above]
  split
  next => rfl
  next => exact bind_ended (put_eq e.index_lt)

/-- The answer of `Assign` for `Nil`. -/
theorem assign_nil :
    assign t e Nil m =
      if 2 * e.index + 1 < MAX_TREE_SIZE then
        if m (t, 2 * e.index + 1) ≠ Nil then .ended .ERROR m
        else if 2 * e.index + 2 < MAX_TREE_SIZE then
          if m (t, 2 * e.index + 2) ≠ Nil then .ended .ERROR m
          else .ended .OK (update m (t, e.index) Nil)
        else .stopped m
      else .stopped m := by
  rw [assign, if_neg fun ne => ne rfl]
  split
  next left =>
    rw [bind_ended (get_eq left)]
    split
    next => rfl
    next =>
      split
      next right =>
        rw [bind_ended (get_eq right)]
        split
        next => rfl
        next => exact bind_ended (put_eq e.index_lt)
      next outside => exact bind_stopped (get_stopped (Nat.le_of_not_lt outside))
  next outside => exact bind_stopped (get_stopped (Nat.le_of_not_lt outside))

theorem assigns_ok (ran : assign t e value m = .ended .OK (update m (t, e.index) value)) :
    Assigns t e value m ↔ WellFormed t (update m (t, e.index) value) := by
  constructor
  · rintro ⟨s, m', ran', ok, -, -⟩
    rw [ran] at ran'
    injection ran' with same
    exact ok.mp same.symm
  · intro formed
    exact ⟨.OK, _, ran, ⟨fun _ => formed, fun _ => rfl⟩, fun _ => rfl, nofun⟩

theorem assigns_error (ran : assign t e value m = .ended .ERROR m) :
    Assigns t e value m ↔ ¬ WellFormed t (update m (t, e.index) value) := by
  constructor
  · rintro ⟨s, m', ran', ok, -, -⟩ formed
    rw [ran] at ran'
    injection ran' with same
    cases same.trans (ok.mpr formed)
  · intro broken
    exact ⟨.ERROR, m, ran, ⟨nofun, fun formed => absurd formed broken⟩, nofun, fun _ => rfl⟩

theorem not_assigns_stopped (ran : assign t e value m = .stopped m) : ¬ Assigns t e value m := by
  rintro ⟨s, m', ran', -⟩
  cases ran.symm.trans ran'

theorem assigns_value_iff (formed : WellFormed t m) (some : value ≠ Nil) :
    Assigns t e value m ↔
      (m (t, e.index) ≠ Nil ∨ (0 < e.index ∧ m (t, parent e.index) = Nil)) := by
  have answer := assign_value (t := t) (e := e) (m := m) some
  have after := formed.update_iff e.index_lt some
  split at answer
  next none =>
    rw [assigns_error answer, after, Classical.not_imp, not_not]
    exact (or_iff_right fun there => there none).symm
  next there =>
    rw [assigns_ok answer, after]
    exact ⟨fun _ => .inl there, fun _ pos => formed _ pos e.index_lt there⟩

theorem assigns_nil_iff (formed : WellFormed t m) :
    Assigns t e Nil m ↔ (2 * e.index + 2 < MAX_TREE_SIZE ∨
      (2 * e.index + 1 < MAX_TREE_SIZE ∧ m (t, 2 * e.index + 1) ≠ Nil)) := by
  have answer := assign_nil (t := t) (e := e) (m := m)
  have after := formed.clear_iff (i := e.index)
  split at answer
  next left =>
    split at answer
    next there =>
      have broken : ¬ WellFormed t (update m (t, e.index) Nil) := fun bare =>
        there (after.mp bare false left)
      exact (iff_of_true ((assigns_error answer).mpr broken) (.inr ⟨left, there⟩))
    next bare =>
      split at answer
      next right =>
        refine iff_of_true ?_ (.inl right)
        split at answer
        next there =>
          exact (assigns_error answer).mpr fun formed => there (after.mp formed true right)
        next bare' =>
          refine (assigns_ok answer).mpr (after.mpr fun b _ => ?_)
          cases b with
          | false => exact not_not.mp bare
          | true => exact not_not.mp bare'
      next outside =>
        exact iff_of_false (not_assigns_stopped answer) (by simp_all)
  next outside =>
    exact iff_of_false (not_assigns_stopped answer) (by simp_all; omega)

theorem assigns_iff (formed : WellFormed t m) :
    Assigns t e value m ↔ Assignable t e value m := by
  by_cases some : value = Nil
  · subst some
    simp [Assignable, assigns_nil_iff formed]
  · simp [Assignable, assigns_value_iff formed some, some]

end assign

/-- A tree that is its root. -/
def single (x : Int) : Mem Unit := update (fun _ => Nil) ((), 0) x

theorem wellFormed_single (x : Int) : WellFormed () (single x) := by
  intro i pos _ here
  exact absurd (update_cell pos.ne') here

end Shang.Gyf
