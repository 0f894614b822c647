import Shang.Gyf.BiTree

/-!
# Visits to the nodes of an array tree

The three orders and `Pre_order_delete` of `bo6-1.c` go down from a node by one
recursion and differ in what they do at a node, and when. `LeftChild` and `RightChild`
look for a value first. All of them look at `T[2*i+1]` or `T[2*i+2]` for every node,
so that they leave the array if there is a node on its last level.
-/

namespace Shang.Gyf

open Shang.Lib Shang.Lib.Act Function

variable {ν : Type} [DecidableEq ν] {α : Type}

/-! ## The program -/

/-- What is done if `T[k]!=Nil`. -/
def ifNode (t : ν) (k : Nat) (next : Act (Mem ν) α) (otherwise : α) : Act (Mem ν) α := do
  let x ← get t k
  if x ≠ Nil then next else pure otherwise

/-- The recursion, with the values that are visited, in this order. -/
def traverse (t : ν) (before between after : Nat → Act (Mem ν) (List Int)) :
    Nat → Nat → Act (Mem ν) (List Int)
  | 0, _ => spent
  | fuel + 1, i => do
      let first ← before i
      let left ← ifNode t (2 * i + 1) (traverse t before between after fuel (2 * i + 1)) []
      let second ← between i
      let right ← ifNode t (2 * i + 2) (traverse t before between after fuel (2 * i + 2)) []
      let third ← after i
      pure (first ++ left ++ second ++ right ++ third)

/-- `VisitFunc(T[i])` -/
def visit (t : ν) (i : Nat) : Act (Mem ν) (List Int) := do
  let x ← get t i
  pure [x]

def noVisit (_ : Nat) : Act (Mem ν) (List Int) := pure []

/-- `T[i] = Nil` -/
def erase (t : ν) (i : Nat) : Act (Mem ν) (List Int) := do
  put t i Nil
  pure []

def preOrderFunc (t : ν) : Nat → Nat → Act (Mem ν) (List Int) :=
  traverse t (visit t) noVisit noVisit

def inOrderFunc (t : ν) : Nat → Nat → Act (Mem ν) (List Int) :=
  traverse t noVisit (visit t) noVisit

def postOrderFunc (t : ν) : Nat → Nat → Act (Mem ν) (List Int) :=
  traverse t noVisit noVisit (visit t)

def preOrderDelete (t : ν) : Nat → Nat → Act (Mem ν) (List Int) :=
  traverse t (erase t) noVisit noVisit

/-- `if (!BiTreeEmpty(T))`. Every call goes on at a greater index, so that there are fewer
calls in each other than cells. -/
def ifTree (t : ν) (func : Nat → Nat → Act (Mem ν) (List Int)) : Act (Mem ν) (List Int) :=
  ifNode t 0 (func MAX_TREE_SIZE 0) []

def preOrder (t : ν) : Act (Mem ν) (List Int) := ifTree t (preOrderFunc t)

def inOrder (t : ν) : Act (Mem ν) (List Int) := ifTree t (inOrderFunc t)

def postOrder (t : ν) : Act (Mem ν) (List Int) := ifTree t (postOrderFunc t)

/-- The first of the cells from `i` on with this value. -/
def search (t : ν) (node : Int) : Nat → Nat → Act (Mem ν) (Option Nat)
  | 0, _ => pure none
  | n + 1, i => do
      let x ← get t i
      if x = node then pure (some i) else search t node n (i + 1)

/-- The value `side` cells behind the double of the index of a value. -/
def childOf (side : Nat) (t : ν) (node : Int) : Act (Mem ν) Int := do
  let root ← get t 0
  if root = Nil then pure Nil
  else do
    let found ← search t node MAX_TREE_SIZE 0
    match found with
    | some i => get t (2 * i + side)
    | none => pure Nil

def leftChild (t : ν) : Int → Act (Mem ν) Int := childOf 1 t

def rightChild (t : ν) : Int → Act (Mem ν) Int := childOf 2 t

/-! ## Subtrees -/

/-- The content of a cell, with no node outside of the array. -/
def node (t : ν) (m : Mem ν) (k : Nat) : Int := if k < MAX_TREE_SIZE then m (t, k) else Nil

/-- The tree below a cell. -/
def subtree (t : ν) (m : Mem ν) (i : Nat) (w : List Bool) : Int := node t m (below i w)

section subtree

variable {t : ν} {m : Mem ν} {i k : Nat}

omit [DecidableEq ν] in
theorem node_eq (bound : k < MAX_TREE_SIZE) : node t m k = m (t, k) := if_pos bound

omit [DecidableEq ν] in
theorem lt_of_node (some : node t m k ≠ Nil) : k < MAX_TREE_SIZE := by
  by_contra outside
  exact some (if_neg outside)

omit [DecidableEq ν] in
theorem WellFormed.node_parent (formed : WellFormed t m) {b : Bool}
    (some : node t m (child b k) ≠ Nil) : node t m k ≠ Nil := by
  have bound := lt_of_node some
  rw [node_eq bound] at some
  have above := formed (child b k) (Nat.zero_lt_of_lt lt_child) bound some
  rw [parent_child] at above
  rwa [node_eq (lt_child.trans bound)]

omit [DecidableEq ν] in
theorem WellFormed.closed (formed : WellFormed t m) (i : Nat) : Closed Nil (subtree t m i) := by
  intro w b some
  rw [subtree, below_concat] at some
  exact formed.node_parent some

end subtree

/-! ## Runs -/

/-- Every node has both its children in the array. -/
def Shallow (t : ν) (m : Mem ν) : Prop :=
  ∀ k, k < MAX_TREE_SIZE → m (t, k) ≠ Nil → 2 * k + 2 < MAX_TREE_SIZE

section runs

variable {t : ν} {m : Mem ν} {i k n fuel : Nat} {stops cuts : Prop}
  {before between after : Nat → Act (Mem ν) (List Int)}

omit [DecidableEq ν] in
theorem ifNode_meets {next : Act (Mem ν) α} {otherwise : α} {Q : α → Mem ν → Prop}
    (out : MAX_TREE_SIZE ≤ k → stops) (none : k < MAX_TREE_SIZE → m (t, k) = Nil → Q otherwise m)
    (some : k < MAX_TREE_SIZE → m (t, k) ≠ Nil → (next m).Meets Q stops cuts) :
    (ifNode t k next otherwise m).Meets Q stops cuts := by
  rcases Nat.lt_or_ge k MAX_TREE_SIZE with inside | outside
  · rw [ifNode, bind_ended (get_eq inside)]
    split
    next there => exact some inside there
    next blank => exact none inside (not_not.mp blank)
  · rw [ifNode, bind_stopped (get_stopped outside)]
    exact out outside

/-- Never cut off. -/
def Uncut (x : Act (Mem ν) α) : Prop := ∀ m, (x m).Meets (fun _ _ => True) True False

omit [DecidableEq ν] in
/-- There is fuel for every call. -/
theorem traverse_uncut (acts : ∀ act ∈ [before, between, after], ∀ j : Nat, Uncut (act j))
    (inside : i < MAX_TREE_SIZE) (enough : MAX_TREE_SIZE ≤ i + fuel) :
    Uncut (traverse t before between after fuel i) := by
  intro m
  induction fuel generalizing i m with
  | zero => omega
  | succ fuel ih =>
      have down : ∀ k, i < k → Uncut (ifNode t k (traverse t before between after fuel k) []) := by
        intro k later m
        exact ifNode_meets (fun _ => trivial) (fun _ _ => trivial) fun inside _ =>
          ih inside (by omega) m
      refine meets_bind (acts before (by simp) i m) fun _ _ _ => ?_
      refine meets_bind (down _ (by omega) _) fun _ _ _ => ?_
      refine meets_bind (acts between (by simp) i _) fun _ _ _ => ?_
      refine meets_bind (down _ (by omega) _) fun _ _ _ => ?_
      exact meets_bind (acts after (by simp) i _) fun _ _ _ => trivial

omit [DecidableEq ν] in
/-- The recursion stays in the array if what is done at a node does. -/
theorem traverse_shallow
    (acts : ∀ act ∈ [before, between, after], ∀ (j : Nat) (m : Mem ν), j < MAX_TREE_SIZE →
      Shallow t m → (act j m).Meets (fun _ m' => Shallow t m') False False)
    (shallow : Shallow t m) (inner : 2 * i + 2 < MAX_TREE_SIZE)
    (enough : MAX_TREE_SIZE ≤ i + fuel) :
    (traverse t before between after fuel i m).Meets (fun _ m' => Shallow t m') False False := by
  induction fuel generalizing i m with
  | zero => omega
  | succ fuel ih =>
      have down : ∀ k, i < k → k < MAX_TREE_SIZE → ∀ m, Shallow t m →
          (ifNode t k (traverse t before between after fuel k) [] m).Meets
            (fun _ m' => Shallow t m') False False := by
        intro k later inside m shallow
        refine ifNode_meets (fun outside => by omega) (fun _ _ => shallow) fun _ there => ?_
        exact ih shallow (shallow k inside there) (by omega)
      refine meets_bind (acts before (by simp) i m (by omega) shallow) fun _ _ shallow => ?_
      refine meets_bind (down _ (by omega) (by omega) _ shallow) fun _ _ shallow => ?_
      refine meets_bind (acts between (by simp) i _ (by omega) shallow) fun _ _ shallow => ?_
      refine meets_bind (down _ (by omega) inner _ shallow) fun _ _ shallow => ?_
      exact meets_bind (acts after (by simp) i _ (by omega) shallow) fun _ _ shallow => shallow

omit [DecidableEq ν] in
/-- A recursion that only reads comes by every node, and stops unless each of them has both
its children in the array. -/
theorem traverse_visits
    (acts : ∀ act ∈ [before, between, after], ∀ (j : Nat) (m : Mem ν), j < MAX_TREE_SIZE →
      (act j m).Meets (fun _ m' => m' = m) True False)
    (closed : Closed Nil (subtree t m i)) (inside : i < MAX_TREE_SIZE)
    (enough : MAX_TREE_SIZE ≤ i + fuel) :
    (traverse t before between after fuel i m).Meets
      (fun _ m' => m' = m ∧ ∀ w, subtree t m i w ≠ Nil → 2 * below i w + 2 < MAX_TREE_SIZE)
      True False := by
  induction fuel generalizing i with
  | zero => omega
  | succ fuel ih =>
      have down : ∀ b, (ifNode t (child b i) (traverse t before between after fuel (child b i)) []
          m).Meets (fun _ m' => m' = m ∧ child b i < MAX_TREE_SIZE ∧
            ∀ w, subtree t m i (b :: w) ≠ Nil → 2 * below i (b :: w) + 2 < MAX_TREE_SIZE)
            True False := by
        intro b
        have later : i < child b i := lt_child
        refine ifNode_meets (fun _ => trivial) (fun bound blank => ⟨rfl, bound, fun w there => ?_⟩)
          fun bound there => ?_
        · have top : subtree t m i [b] = Nil := (node_eq bound).trans blank
          exact absurd (closed.eq_blank (w := w) top) there
        · exact (ih (closed.cons b) bound (by omega)).mono
            (fun visited => ⟨visited.1, bound, visited.2⟩) id id
      refine meets_bind (acts before (by simp) i m inside) ?_
      rintro _ _ rfl
      refine meets_bind (down false) ?_
      rintro _ _ ⟨rfl, -, left⟩
      refine meets_bind (acts between (by simp) i _ inside) ?_
      rintro _ _ rfl
      refine meets_bind (down true) ?_
      rintro _ _ ⟨rfl, bound, right⟩
      refine meets_bind (acts after (by simp) i _ inside) ?_
      rintro _ _ rfl
      refine ⟨rfl, fun w there => ?_⟩
      match w with
      | [] => exact bound
      | false :: w => exact left w there
      | true :: w => exact right w there

omit [DecidableEq ν] in
theorem visit_meets (inside : i < MAX_TREE_SIZE) (stops : Prop) :
    (visit t i m).Meets (fun _ m' => m' = m) stops False := by
  rw [visit, bind_ended (get_eq inside)]
  exact rfl

omit [DecidableEq ν] in
theorem noVisit_meets (i : Nat) (m : Mem ν) (stops : Prop) :
    (noVisit i m).Meets (fun _ m' => m' = m) stops False := rfl

/-- The actions at the nodes in the three orders. -/
def Visits (t : ν) (act : Nat → Act (Mem ν) (List Int)) : Prop := act = visit t ∨ act = noVisit

omit [DecidableEq ν] in
theorem Visits.meets {act : Nat → Act (Mem ν) (List Int)} (visits : Visits t act)
    (inside : i < MAX_TREE_SIZE) (stops : Prop) :
    (act i m).Meets (fun _ m' => m' = m) stops False := by
  rcases visits with rfl | rfl
  · exact visit_meets inside stops
  · exact noVisit_meets i m stops

omit [DecidableEq ν] in
/-- A visit to all nodes stays in the array exactly if all nodes have both their children
there. -/
theorem ifTree_stopped_iff (formed : WellFormed t m)
    (before between after : Nat → Act (Mem ν) (List Int))
    (visits : ∀ act ∈ [before, between, after], Visits t act) :
    ¬ (ifTree t (traverse t before between after) m).Stopped ↔ Shallow t m := by
  have root : 0 < MAX_TREE_SIZE := by decide
  constructor
  · intro unstopped
    have visited : (ifTree t (traverse t before between after) m).Meets
        (fun _ _ => Shallow t m) True False := by
      refine ifNode_meets (fun _ => trivial) (fun _ blank k inside there => ?_) fun _ _ => ?_
      · obtain ⟨w, rfl⟩ := exists_below_zero k
        have top : subtree t m 0 [] = Nil := (node_eq root).trans blank
        exact absurd ((node_eq inside).symm.trans ((formed.closed 0).eq_blank (w := w) top)) there
      · refine (traverse_visits (fun act mem j m inside => (visits act mem).meets inside True)
          (formed.closed 0) root (by omega)).mono (fun visited k inside there => ?_) id id
        obtain ⟨w, rfl⟩ := exists_below_zero k
        exact visited.2 w (by rwa [subtree, node_eq inside])
    obtain ⟨_, _, -, shallow⟩ := visited.exists_ended unstopped visited.not_cut
    exact shallow
  · intro shallow
    have stays : (ifTree t (traverse t before between after) m).Meets
        (fun _ m' => Shallow t m') False False := by
      refine ifNode_meets (fun outside => by omega) (fun _ _ => shallow) fun inside there => ?_
      refine traverse_shallow (fun act mem j m inside shallow => ?_) shallow
        (shallow 0 inside there) (by omega)
      exact ((visits act mem).meets inside False).mono (fun same => same ▸ shallow) id id
    exact stays.not_stopped

theorem erase_shallow (inside : i < MAX_TREE_SIZE) (shallow : Shallow t m) :
    (erase t i m).Meets (fun _ m' => Shallow t m') False False := by
  rw [erase, bind_ended (put_eq inside)]
  intro k bound there
  rw [update_apply] at there
  split at there
  next => exact absurd rfl there
  next => exact shallow k bound there

theorem preOrderDelete_shallow (shallow : Shallow t m) (inner : 2 * i + 2 < MAX_TREE_SIZE) :
    ¬ (preOrderDelete t MAX_TREE_SIZE i m).Stopped := by
  refine (traverse_shallow (fun act mem j m inside shallow => ?_) shallow inner
    (by omega)).not_stopped
  obtain rfl | rfl : act = erase t ∨ act = noVisit := by simpa using mem
  · exact erase_shallow inside shallow
  · exact shallow

omit [DecidableEq ν] in
theorem search_meets {x : Int} (bound : i + n = MAX_TREE_SIZE) :
    (search t x n i m).Meets (fun found m' => m' = m ∧
      ∀ k, found = some k → k < MAX_TREE_SIZE ∧ m (t, k) = x) False False := by
  induction n generalizing i with
  | zero => exact ⟨rfl, nofun⟩
  | succ n ih =>
      rw [search, bind_ended (get_eq (by omega))]
      split
      next here =>
        refine ⟨rfl, fun k found => ?_⟩
        obtain rfl := Option.some.inj found
        exact ⟨by omega, here⟩
      next => exact ih (by omega)

omit [DecidableEq ν] in
theorem childOf_shallow {side : Nat} {x : Int} (shallow : Shallow t m) (le : side ≤ 2)
    (some : x ≠ Nil) : ¬ (childOf side t x m).Stopped := by
  have stays : (childOf side t x m).Meets (fun _ _ => True) False False := by
    rw [childOf, bind_ended (get_eq (by decide))]
    split
    next => trivial
    next =>
      refine meets_bind (search_meets (Nat.zero_add _)) ?_
      rintro found _ ⟨rfl, here⟩
      match found with
      | none => trivial
      | .some k =>
          obtain ⟨inside, rfl⟩ := here k rfl
          have inner := shallow k inside some
          dsimp only
          rw [get_eq (by omega)]
          trivial
  exact stays.not_stopped

end runs

omit [DecidableEq ν] in
theorem visit_uncut (t : ν) (i : Nat) : Uncut (visit t i) := by
  intro m
  rcases Nat.lt_or_ge i MAX_TREE_SIZE with inside | outside
  · exact (visit_meets inside True).mono (fun _ => trivial) id id
  · rw [visit, bind_stopped (get_stopped outside)]
    trivial

theorem erase_uncut (t : ν) (i : Nat) : Uncut (erase t i) := by
  intro m
  rcases Nat.lt_or_ge i MAX_TREE_SIZE with inside | outside
  · rw [erase, bind_ended (put_eq inside)]
    trivial
  · have stopped : put t i Nil m = .stopped m := if_neg (Nat.not_lt.mpr outside)
    rw [erase, bind_stopped stopped]
    trivial

/-- A run of one of them that does not stop on the way comes to its end. -/
theorem orders_uncut (t : ν) :
    (Uncut (preOrder t) ∧ Uncut (inOrder t) ∧ Uncut (postOrder t)) ∧
      ∀ i, i < MAX_TREE_SIZE → Uncut (preOrderDelete t MAX_TREE_SIZE i) := by
  have none : ∀ i, Uncut (noVisit i : Act (Mem ν) (List Int)) := fun _ _ => trivial
  have tree : ∀ before between after, (∀ act ∈ [before, between, after], ∀ j : Nat,
      Uncut (act j)) → Uncut (ifTree t (traverse t before between after)) := by
    intro before between after acts m
    exact ifNode_meets (fun _ => trivial) (fun _ _ => trivial) fun inside _ =>
      traverse_uncut acts inside (by omega) m
  refine ⟨⟨tree _ _ _ ?_, tree _ _ _ ?_, tree _ _ _ ?_⟩, fun i inside =>
    traverse_uncut ?_ inside (by omega)⟩
  all_goals simp [visit_uncut, erase_uncut, none]

/-! ## The bounds of the array -/

/-- The three orders, `Pre_order_delete` from any node, and `LeftChild` and `RightChild` for
any value that is stored only use cells of the array. -/
def KeepsBounds (t : ν) (m : Mem ν) : Prop :=
  (¬ (preOrder t m).Stopped ∧ ¬ (inOrder t m).Stopped ∧ ¬ (postOrder t m).Stopped) ∧
  (∀ i, i < MAX_TREE_SIZE → m (t, i) ≠ Nil → ¬ (preOrderDelete t MAX_TREE_SIZE i m).Stopped) ∧
  ∀ x, x ≠ Nil → (∃ i, i < MAX_TREE_SIZE ∧ m (t, i) = x) →
    ¬ (leftChild t x m).Stopped ∧ ¬ (rightChild t x m).Stopped

end Shang.Gyf
