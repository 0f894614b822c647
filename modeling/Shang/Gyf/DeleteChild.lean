import Shang.Gyf.InsertChild

/-!
# Deleting a subtree of an array tree

`Delete_child1` of `bo6-1.c` clears what is below a child by `Pre_order_delete`, which clears a
cell before it looks at the two cells below. It looks at them also where there is no child to
delete, and leaves the array if one of them is outside (`deleteChild1_iff`).
-/

namespace Shang.Gyf

open Shang.Lib Shang.Lib.Act Function

variable {ν : Type} [DecidableEq ν]

/-- `Delete_child1`; `lr` is 0 for the left child, and 1 for the right one. -/
def deleteChild1 (t : ν) (pos : Position) (lr : Nat) : Act (Mem ν) Status := do
  let x ← get t pos.index
  if x = Nil then pure .ERROR
  else do
    let _ ← preOrderDelete t MAX_TREE_SIZE (2 * pos.index + 1 + lr)
    pure .OK

/-- The cells below cell `i` and below all nodes under it are in the array. -/
def Deep (t : ν) (m : Mem ν) (i : Nat) : Prop :=
  2 * i + 2 < MAX_TREE_SIZE ∧ ∀ w, subtree t m i w ≠ Nil → 2 * below i w + 2 < MAX_TREE_SIZE

/-- What is under cell `i` is gone, and nothing else. -/
structure Erased (t : ν) (i : Nat) (m m' : Mem ν) : Prop where
  gone : ∀ w, below i w < MAX_TREE_SIZE → m' (t, below i w) = Nil
  kept : ∀ p, Off t i p → m' p = m p

variable {t : ν} {m m' m₀ : Mem ν} {i fuel : Nat} {b : Bool}

/-- `Deep`, for one child. -/
def DeepSide (t : ν) (m : Mem ν) (i : Nat) (b : Bool) : Prop :=
  child b i < MAX_TREE_SIZE ∧
    ∀ w, subtree t m i (b :: w) ≠ Nil → 2 * below i (b :: w) + 2 < MAX_TREE_SIZE

omit [DecidableEq ν] in
theorem deep_iff : Deep t m i ↔ DeepSide t m i false ∧ DeepSide t m i true := by
  constructor
  · rintro ⟨bound, nodes⟩
    refine ⟨⟨?_, fun w => nodes (false :: w)⟩, ?_, fun w => nodes (true :: w)⟩
    · rw [child_false]
      omega
    · rwa [child_true]
  · rintro ⟨⟨_, left⟩, bound, right⟩
    rw [child_true] at bound
    refine ⟨bound, fun w there => ?_⟩
    match w with
    | [] => exact bound
    | false :: w => exact left w there
    | true :: w => exact right w there

omit [DecidableEq ν] in
/-- A child that is there is as deep as its side. -/
theorem deep_child (same : ∀ w, m₀ (t, below (child b i) w) = m (t, below (child b i) w))
    (inside : child b i < MAX_TREE_SIZE) (there : m₀ (t, child b i) ≠ Nil) :
    Deep t m₀ (child b i) ↔ DeepSide t m i b := by
  rw [Deep, subtree_congr same]
  constructor
  · exact fun deep => ⟨inside, deep.2⟩
  · refine fun deep => ⟨deep.2 [] ?_, deep.2⟩
    rw [subtree, below_cons, below_nil, node_eq inside]
    exact fun blank => there ((same []).trans blank)

/-- One child: it is deleted if it is there. -/
theorem ifNode_delete (closed : Closed Nil (subtree t m i))
    (same : ∀ w, m₀ (t, below (child b i) w) = m (t, below (child b i) w))
    (down : Closed Nil (subtree t m₀ (child b i)) → child b i < MAX_TREE_SIZE →
      (preOrderDelete t fuel (child b i) m₀).Meets
        (fun _ m' => Deep t m₀ (child b i) ∧ Erased t (child b i) m₀ m')
        (¬ Deep t m₀ (child b i)) False) :
    (ifNode t (child b i) (preOrderDelete t fuel (child b i)) [] m₀).Meets
      (fun _ m' => DeepSide t m i b ∧ Erased t (child b i) m₀ m') (¬ DeepSide t m i b) False := by
  refine ifNode_meets (fun outside deep => ?_) (fun inside blank => ?_) fun inside there => ?_
  · exact Nat.not_lt.mpr outside deep.1
  · have none (w : List Bool) : subtree t m i (b :: w) = Nil := by
      have top : subtree t m i [b] = Nil := (node_eq inside).trans ((same []).symm.trans blank)
      exact closed.eq_blank (w := w) top
    refine ⟨⟨inside, fun w some => absurd (none w) some⟩, fun w bound => ?_, fun _ _ => rfl⟩
    exact (same w).trans ((node_eq bound).symm.trans (none w))
  · have below : Closed Nil (subtree t m₀ (child b i)) := by
      rw [subtree_congr same]
      exact closed.cons b
    exact (down below inside).mono
      (fun done => ⟨(deep_child same inside there).mp done.1, done.2⟩)
      (mt (deep_child same inside there).mpr) id

theorem preOrderDelete_meets (closed : Closed Nil (subtree t m i)) (inside : i < MAX_TREE_SIZE)
    (enough : MAX_TREE_SIZE ≤ i + fuel) :
    (preOrderDelete t fuel i m).Meets (fun _ m' => Deep t m i ∧ Erased t i m m')
      (¬ Deep t m i) False := by
  induction fuel generalizing i m with
  | zero => omega
  | succ fuel ih =>
      have half : ∀ b (m₀ : Mem ν),
          (∀ w, m₀ (t, below (child b i) w) = m (t, below (child b i) w)) →
          (ifNode t (child b i) (preOrderDelete t fuel (child b i)) [] m₀).Meets
            (fun _ m' => DeepSide t m i b ∧ Erased t (child b i) m₀ m') (¬ Deep t m i) False := by
        intro b m₀ same
        have later : i < child b i := lt_child
        refine (ifNode_delete closed same fun closed inside => ih closed inside (by omega)).mono
          id (mt fun deep => ?_) id
        cases b with
        | false => exact (deep_iff.mp deep).1
        | true => exact (deep_iff.mp deep).2
      have root : ∀ b w, update m (t, i) Nil (t, below (child b i) w) =
          m (t, below (child b i) w) := fun b w => update_cell fun same =>
        not_under_child (b := b) ⟨w, same⟩
      refine meets_bind (Q := fun _ m' => m' = update m (t, i) Nil) ?_ ?_
      · rw [erase, bind_ended (put_eq inside)]
        rfl
      rintro _ _ rfl
      refine meets_bind (half false _ (root false)) ?_
      rintro _ m₁ ⟨left, erased₁⟩
      refine meets_bind (Q := fun _ m' => m' = m₁) rfl ?_
      rintro _ m₁ rfl
      refine meets_bind (half true m₁ fun w => ?_) ?_
      · exact (erased₁.kept _ (off_sibling Bool.false_ne_true)).trans (root true w)
      rintro _ m₂ ⟨right, erased₂⟩
      refine meets_bind (Q := fun _ m' => m' = m₂) rfl ?_
      rintro _ m₂ rfl
      refine ⟨deep_iff.mpr ⟨left, right⟩, fun w bound => ?_, fun p off => ?_⟩
      · cases w with
        | nil =>
            have cleared : update m (t, i) Nil (t, i) = Nil := update_self _ _ _
            exact (erased₂.kept _ (off_child t true i)).trans
              ((erased₁.kept _ (off_child t false i)).trans cleared)
        | cons b w =>
            cases b with
            | false =>
                exact (erased₂.kept _ (off_sibling Bool.true_eq_false.mp)).trans
                  (erased₁.gone w bound)
            | true => exact erased₂.gone w bound
      · rw [erased₂.kept p (off.child true), erased₁.kept p (off.child false),
          update_of_ne off.ne]

theorem preOrderDelete_stopped (outside : MAX_TREE_SIZE ≤ i) :
    preOrderDelete t MAX_TREE_SIZE i m = .stopped m := by
  have out : put t i Nil m = .stopped m := if_neg (Nat.not_lt.mpr outside)
  rw [preOrderDelete, show MAX_TREE_SIZE = 99 + 1 from rfl, traverse]
  exact bind_stopped (bind_stopped out)

omit [DecidableEq ν] in
/-- What is left is a tree. -/
theorem Erased.wellFormed (erased : Erased t i m m') (formed : WellFormed t m) :
    WellFormed t m' := by
  intro k pos inside there
  have off : Off t i (t, k) := by
    rintro - ⟨w, rfl⟩
    exact there (erased.gone w inside)
  have above : Off t i (t, parent k) := by
    rintro - under
    obtain ⟨b, same⟩ := exists_child pos
    exact off rfl (same ▸ under.child)
  rw [erased.kept _ off] at there
  rw [erased.kept _ above]
  exact formed k pos inside there

/-- `Delete_child1` refuses an empty position. Elsewhere it does its work exactly if the two cells
below the child, and below every node under it, are in the array: it clears what is under the
child and nothing else, and leaves a tree. Otherwise it leaves the array. -/
theorem deleteChild1_iff {pos : Position} (lr : Nat) (formed : WellFormed t m) :
    (m (t, pos.index) = Nil → deleteChild1 t pos lr m = .ended .ERROR m) ∧
      (m (t, pos.index) ≠ Nil →
        ((∃ m', deleteChild1 t pos lr m = .ended .OK m' ∧ WellFormed t m' ∧
            Erased t (2 * pos.index + 1 + lr) m m') ↔ Deep t m (2 * pos.index + 1 + lr)) ∧
          (¬ Deep t m (2 * pos.index + 1 + lr) → (deleteChild1 t pos lr m).Stopped)) := by
  refine ⟨fun empty => ?_, fun there => ?_⟩
  · rw [deleteChild1, bind_ended (get_eq pos.index_lt), if_pos empty]
    rfl
  · have meets : (deleteChild1 t pos lr m).Meets (fun status m' => status = .OK ∧
        Deep t m (2 * pos.index + 1 + lr) ∧ Erased t (2 * pos.index + 1 + lr) m m')
        (¬ Deep t m (2 * pos.index + 1 + lr)) False := by
      rw [deleteChild1, bind_ended (get_eq pos.index_lt), if_neg there]
      generalize 2 * pos.index + 1 + lr = c
      rcases Nat.lt_or_ge c MAX_TREE_SIZE with inside | outside
      · exact meets_bind (preOrderDelete_meets (formed.closed c) inside (by omega))
          fun _ _ done => ⟨rfl, done⟩
      · rw [bind_stopped (preOrderDelete_stopped outside)]
        exact fun deep => Nat.not_lt.mpr outside (by have := deep.1; omega)
    cases ran : deleteChild1 t pos lr m with
    | ended status m' =>
        rw [ran] at meets
        obtain ⟨rfl, deep, erased⟩ := meets
        exact ⟨iff_of_true ⟨m', rfl, erased.wellFormed formed, erased⟩ deep, absurd deep⟩
    | stopped m' =>
        rw [ran] at meets
        exact ⟨iff_of_false (by simp) meets, fun _ => trivial⟩
    | cut m' =>
        rw [ran] at meets
        exact meets.elim

/-- A node with both its children is deleted. -/
theorem deleteChild1_three : ∃ m', deleteChild1 false
      ⟨1, 1, by decide, by decide, by decide, by decide⟩ 0 (twoTrees 5) = .ended .OK m' ∧
    WellFormed false m' ∧ m' (false, 4) = Nil ∧ m' (false, 0) = 1 := by
  have deep : Deep false (twoTrees 5) 1 := by
    refine ⟨by decide, fun w there => ?_⟩
    match w with
    | [] | [false] | [true] => decide
    | b :: c :: w =>
        refine absurd (((wellFormed_twoTrees 5 false).closed 1).eq_blank (v := [b, c]) ?_) there
        cases b <;> cases c <;> rfl
  have there : twoTrees 5 (false,
      Position.index ⟨1, 1, by decide, by decide, by decide, by decide⟩) ≠ Nil := by decide
  obtain ⟨m', ran, formed, erased⟩ :=
    ((deleteChild1_iff 0 (wellFormed_twoTrees 5 false)).2 there).1.mpr deep
  refine ⟨m', ran, formed, erased.gone [true] (by decide), (erased.kept (false, 0) ?_).trans rfl⟩
  exact fun _ => not_under_child (b := false) (i := 0)

end Shang.Gyf
