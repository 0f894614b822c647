import Mathlib.Algebra.GroupWithZero.Nat
import Mathlib.Data.Tree.Basic
import Mathlib.Data.List.Basic
import Mathlib.Data.List.Perm.Basic
import Mathlib.Data.Nat.Log
import Mathlib.Order.MinMax

/-!
# Binary trees that are balanced by turning

In-order sequences of Mathlib's binary trees, and an operation on them that
moves the root without rotating single edges: `turnLeft` makes the right child
the root and hangs the old root, with its left subtree, under the leftmost
node; `turnRight` is its mirror image. Both keep the in-order sequence.

`settle` turns a tree towards its heavier side until the two subtrees of the
root differ by at most one node. Its termination is not a matter of the
imbalance, which can grow in a turn. The argument is that the current tree is
always a shrinking `core`, a subtree of the start, with the rejected roots of
the low side hung under its leftmost node and those of the high side under its
rightmost node; each of the two hung parts is less than half of the tree.
-/

namespace Shang.Lib.Tree

open BinaryTree

variable {α : Type*}

/-- The values in symmetric order. -/
def inorder : BinaryTree α → List α
  | .nil => []
  | .node a l r => inorder l ++ a :: inorder r

@[simp] theorem inorder_nil : inorder (.nil : BinaryTree α) = [] := rfl

@[simp] theorem inorder_node (a : α) (l r : BinaryTree α) :
    inorder (.node a l r) = inorder l ++ a :: inorder r := rfl

theorem length_inorder (t : BinaryTree α) : (inorder t).length = t.numNodes := by
  induction t with
  | nil => rfl
  | node a l r ihl ihr =>
      simp only [inorder_node, List.length_append, List.length_cons, ihl, ihr, numNodes]
      omega

/-- Hang a tree as the left subtree of the leftmost node. -/
def hangLeft : BinaryTree α → BinaryTree α → BinaryTree α
  | .nil, low => low
  | .node a l r, low => .node a (hangLeft l low) r

/-- Hang a tree as the right subtree of the rightmost node. -/
def hangRight : BinaryTree α → BinaryTree α → BinaryTree α
  | .nil, high => high
  | .node a l r, high => .node a l (hangRight r high)

@[simp] theorem inorder_hangLeft (t low : BinaryTree α) :
    inorder (hangLeft t low) = inorder low ++ inorder t := by
  induction t with
  | nil => simp [hangLeft]
  | node a l r ihl _ => simp [hangLeft, ihl]

@[simp] theorem inorder_hangRight (t high : BinaryTree α) :
    inorder (hangRight t high) = inorder t ++ inorder high := by
  induction t with
  | nil => simp [hangRight]
  | node a l r _ ihr => simp [hangRight, ihr]

@[simp] theorem numNodes_hangLeft (t low : BinaryTree α) :
    (hangLeft t low).numNodes = t.numNodes + low.numNodes := by
  rw [← length_inorder, inorder_hangLeft, List.length_append, length_inorder, length_inorder,
    Nat.add_comm]

@[simp] theorem numNodes_hangRight (t high : BinaryTree α) :
    (hangRight t high).numNodes = t.numNodes + high.numNodes := by
  rw [← length_inorder, inorder_hangRight, List.length_append, length_inorder, length_inorder]

/-- Make the right child the root; there must be one. -/
def turnLeft : BinaryTree α → Option (BinaryTree α)
  | .node a l (.node b rl rr) => some (hangLeft (.node b rl rr) (.node a l .nil))
  | _ => none

/-- Make the left child the root; there must be one. -/
def turnRight : BinaryTree α → Option (BinaryTree α)
  | .node a (.node b ll lr) r => some (hangRight (.node b ll lr) (.node a .nil r))
  | _ => none

theorem inorder_turnLeft {t u : BinaryTree α} (turned : turnLeft t = some u) :
    inorder u = inorder t := by
  rcases t with _ | ⟨a, l, _ | ⟨b, rl, rr⟩⟩
  · cases turned
  · cases turned
  · cases turned
    simp

theorem inorder_turnRight {t u : BinaryTree α} (turned : turnRight t = some u) :
    inorder u = inorder t := by
  rcases t with _ | ⟨a, _ | ⟨b, ll, lr⟩, r⟩
  · cases turned
  · cases turned
  · cases turned
    simp

/-- By how many nodes the left subtree of the root is the larger one. -/
def tilt : BinaryTree α → Int
  | .nil => 0
  | .node _ l r => l.numNodes - r.numNodes

/-- Turn the tree towards its heavier side until the subtrees of the root
differ by at most one node; every turn costs one unit of fuel. -/
def settle : Nat → BinaryTree α → Option (BinaryTree α)
  | 0, _ => none
  | fuel + 1, t =>
      if -1 ≤ tilt t ∧ tilt t ≤ 1 then some t
      else if tilt t < -1 then (turnLeft t).bind (settle fuel)
      else (turnRight t).bind (settle fuel)

/-! ## Termination -/

/-- A core with the rejected low part and the rejected high part hung under
its ends. -/
def hung (core low high : BinaryTree α) : BinaryTree α := hangRight (hangLeft core low) high

theorem hung_node (a : α) (l r low high : BinaryTree α) :
    hung (.node a l r) low high = .node a (hangLeft l low) (hangRight r high) := rfl

theorem turnLeft_hung (a b : α) (l rl rr low high : BinaryTree α) :
    turnLeft (hung (.node a l (.node b rl rr)) low high) =
      some (hung (.node b rl rr) (.node a (hangLeft l low) .nil) high) := rfl

theorem turnRight_hung (a b : α) (ll lr r low high : BinaryTree α) :
    turnRight (hung (.node a (.node b ll lr) r) low high) =
      some (hung (.node b ll lr) low (.node a .nil (hangRight r high))) := rfl

/-- The middle node is the first one on the way down the core that has about as
many nodes before it as behind it. These are the nodes before it, its left
subtree with those that were passed hung below, and the nodes behind it. -/
def halves : BinaryTree α → BinaryTree α → BinaryTree α → BinaryTree α × BinaryTree α
  | .nil, low, high => (low, high)
  | .node a l r, low, high =>
      if l.numNodes + low.numNodes + 1 < r.numNodes + high.numNodes then
        halves r (.node a (hangLeft l low) .nil) high
      else if r.numNodes + high.numNodes + 1 < l.numNodes + low.numNodes then
        halves l low (.node a .nil (hangRight r high))
      else (hangLeft l low, hangRight r high)

/-- The loop ends within as many turns as the core has nodes, as long as each
hung part is less than half of the whole tree, and the middle node is the root
then. -/
theorem settle_hung (fuel : Nat) (core low high : BinaryTree α) (some : core ≠ .nil)
    (lows : 2 * low.numNodes < (hung core low high).numNodes)
    (highs : 2 * high.numNodes < (hung core low high).numNodes)
    (enough : core.numNodes ≤ fuel) :
    ∃ u, settle fuel (hung core low high) = .some u ∧
      (inorder u = inorder (hung core low high) ∧ -1 ≤ tilt u ∧ tilt u ≤ 1) ∧
      ∃ a, u = .node a (halves core low high).1 (halves core low high).2 := by
  induction fuel generalizing core low high with
  | zero =>
      cases core with
      | nil => exact absurd rfl some
      | node a l r => simp at enough
  | succ fuel ih =>
      rcases core with _ | ⟨a, l, r⟩
      · exact absurd rfl some
      rw [hung_node] at lows highs ⊢
      simp only [numNodes, numNodes_hangLeft, numNodes_hangRight] at lows highs enough
      by_cases level : -1 ≤ tilt (.node a (hangLeft l low) (hangRight r high)) ∧
          tilt (.node a (hangLeft l low) (hangRight r high)) ≤ 1
      · refine ⟨_, by rw [settle, if_pos level], ⟨rfl, level⟩, a, ?_⟩
        simp only [tilt, numNodes_hangLeft, numNodes_hangRight] at level
        rw [halves, if_neg (by omega), if_neg (by omega)]
      by_cases left : tilt (.node a (hangLeft l low) (hangRight r high)) < -1
      · rw [settle, if_neg level, if_pos left, ← hung_node]
        simp only [tilt, numNodes_hangLeft, numNodes_hangRight] at left
        rcases r with _ | ⟨b, rl, rr⟩
        · simp only [numNodes] at left highs
          omega
        · rw [turnLeft_hung, Option.bind_some]
          obtain ⟨u, settled, ⟨same, level⟩, root⟩ := ih (.node b rl rr)
            (.node a (hangLeft l low) .nil) high (by simp)
            (by simp [hung] at *; omega) (by simp [hung] at *; omega)
            (by simp only [numNodes] at enough ⊢; omega)
          refine ⟨u, settled, ⟨by rw [same]; simp [hung], level⟩, ?_⟩
          rwa [halves, if_pos (by omega)]
      · rw [settle, if_neg level, if_neg left, ← hung_node]
        simp only [tilt, numNodes_hangLeft, numNodes_hangRight] at level left
        rcases l with _ | ⟨b, ll, lr⟩
        · simp only [numNodes] at level left lows
          omega
        · rw [turnRight_hung, Option.bind_some]
          obtain ⟨u, settled, ⟨same, level'⟩, root⟩ := ih (.node b ll lr) low
            (.node a .nil (hangRight r high)) (by simp)
            (by simp [hung] at *; omega) (by simp [hung] at *; omega)
            (by simp only [numNodes] at enough ⊢; omega)
          refine ⟨u, settled, ⟨by rw [same]; simp [hung], level'⟩, ?_⟩
          rwa [halves, if_neg (by omega), if_pos (by omega)]

theorem hung_nil (t : BinaryTree α) : hung t .nil .nil = t := by
  have left : ∀ u : BinaryTree α, hangLeft u .nil = u := by
    intro u
    induction u with
    | nil => rfl
    | node a l r ihl _ => rw [hangLeft, ihl]
  have right : ∀ u : BinaryTree α, hangRight u .nil = u := by
    intro u
    induction u with
    | nil => rfl
    | node a l r _ ihr => rw [hangRight, ihr]
  rw [hung, left, right]

/-- The loop ends on every non-empty tree with its middle node as the root. -/
theorem settle_halves {fuel : Nat} {t : BinaryTree α} (some : t ≠ .nil)
    (enough : t.numNodes ≤ fuel) :
    ∃ u, settle fuel t = .some u ∧ (inorder u = inorder t ∧ -1 ≤ tilt u ∧ tilt u ≤ 1) ∧
      ∃ a, u = .node a (halves t .nil .nil).1 (halves t .nil .nil).2 := by
  have positive : 0 < t.numNodes := by
    cases t with
    | nil => exact absurd rfl some
    | node a l r => simp
  have settled := settle_hung fuel t .nil .nil some
    (by rw [hung_nil]; simpa using positive) (by rw [hung_nil]; simpa using positive) enough
  rwa [hung_nil] at settled

/-- The loop ends on every non-empty tree, keeps its in-order sequence and
leaves two subtrees that differ by at most one node. -/
theorem settle_total {fuel : Nat} {t : BinaryTree α} (some : t ≠ .nil)
    (enough : t.numNodes ≤ fuel) :
    ∃ u, settle fuel t = .some u ∧ inorder u = inorder t ∧ -1 ≤ tilt u ∧ tilt u ≤ 1 := by
  obtain ⟨u, settled, even, -⟩ := settle_halves some enough
  exact ⟨u, settled, even⟩

/-! ## Balance everywhere -/

/-- The two subtrees of every node differ by at most one node. -/
def Level : BinaryTree α → Prop
  | .nil => True
  | .node a l r => (-1 ≤ tilt (.node a l r) ∧ tilt (.node a l r) ≤ 1) ∧ Level l ∧ Level r

/-- Such a tree is as low as its number of nodes allows. -/
theorem Level.height_eq {t : BinaryTree α} (level : Level t) :
    t.height = Nat.clog 2 (t.numNodes + 1) := by
  induction t with
  | nil => simp
  | node a l r ihl ihr =>
      obtain ⟨even, levelL, levelR⟩ := level
      simp only [tilt] at even
      have larger : max (Nat.clog 2 (l.numNodes + 1)) (Nat.clog 2 (r.numNodes + 1)) =
          Nat.clog 2 (max (l.numNodes + 1) (r.numNodes + 1)) :=
        (Monotone.map_max (Nat.clog_monotone 2)).symm
      have half : max (l.numNodes + 1) (r.numNodes + 1) =
          (l.numNodes + r.numNodes + 1 + 1 + 2 - 1) / 2 := by omega
      have grown : Nat.clog 2 (l.numNodes + r.numNodes + 1 + 1) =
          Nat.clog 2 ((l.numNodes + r.numNodes + 1 + 1 + 2 - 1) / 2) + 1 :=
        Nat.clog_of_two_le (by decide) (by omega)
      rw [height, ihl levelL, ihr levelR, larger, half, numNodes, grown]

/-! ## Rows -/

/-- The values at a depth, from left to right. -/
def row : BinaryTree α → Nat → List α
  | .nil, _ => []
  | .node a _ _, 0 => [a]
  | .node _ l r, d + 1 => row l d ++ row r d

/-- The rows together are the whole tree, and there are no more of them than the tree is high. -/
theorem rows_perm {t : BinaryTree α} {h : Nat} (low : t.height ≤ h) :
    ((List.range h).flatMap (row t)).Perm (inorder t) := by
  induction t generalizing h with
  | nil =>
      have none : (List.range h).flatMap (row (.nil : BinaryTree α)) = [] :=
        List.flatMap_eq_nil_iff.mpr fun _ _ => rfl
      rw [none]
      exact .nil
  | node a l r ihl ihr =>
      rw [height] at low
      obtain ⟨h, rfl⟩ : ∃ e, h = e + 1 := ⟨h - 1, by omega⟩
      have split : (List.range (h + 1)).flatMap (row (.node a l r)) =
          a :: (List.range h).flatMap fun d => row l d ++ row r d := by
        rw [List.range_succ_eq_map, List.flatMap_cons, List.flatMap_map]
        rfl
      have both := (ihl (h := h) (by omega)).append (ihr (h := h) (by omega))
      rw [split, inorder_node]
      exact (((List.flatMap_append_perm _ _ _).symm.trans both).cons a).trans List.perm_middle.symm

/-- The tree, if it has a root. -/
def present : BinaryTree α → List (BinaryTree α)
  | .nil => []
  | .node a l r => [.node a l r]

/-- The trees right below the root of a tree. -/
def children : BinaryTree α → List (BinaryTree α)
  | .nil => []
  | .node _ l r => present l ++ present r

theorem ne_nil_of_mem_present {t u : BinaryTree α} (mem : u ∈ present t) : u = t ∧ u ≠ .nil := by
  cases t with
  | nil => cases mem
  | node a l r =>
      obtain rfl := List.mem_singleton.mp mem
      exact ⟨rfl, by simp⟩

theorem mem_children {a : α} {l r u : BinaryTree α} (mem : u ∈ children (.node a l r)) :
    (u = l ∨ u = r) ∧ u ≠ .nil := by
  rcases List.mem_append.mp mem with mem | mem
  · exact ⟨.inl (ne_nil_of_mem_present mem).1, (ne_nil_of_mem_present mem).2⟩
  · exact ⟨.inr (ne_nil_of_mem_present mem).1, (ne_nil_of_mem_present mem).2⟩

theorem row_present (t : BinaryTree α) (d : Nat) :
    (present t).flatMap (fun u => row u d) = row t d := by
  cases t with
  | nil => rfl
  | node a l r => exact List.flatMap_singleton _ _

/-- A row is the row above of the trees below the root. -/
theorem row_succ (t : BinaryTree α) (d : Nat) :
    row t (d + 1) = (children t).flatMap fun u => row u d := by
  cases t with
  | nil => rfl
  | node a l r => rw [row, children, List.flatMap_append, row_present, row_present]

/-- How many nodes there are in a row of trees. -/
def weight (ts : List (BinaryTree α)) : Nat := (ts.map numNodes).sum

theorem weight_append (ts us : List (BinaryTree α)) :
    weight (ts ++ us) = weight ts + weight us := by
  rw [weight, List.map_append, List.sum_append]
  rfl

theorem weight_present (t : BinaryTree α) : weight (present t) = t.numNodes := by
  cases t with
  | nil => rfl
  | node a l r => exact Nat.add_zero _

theorem weight_children (a : α) (l r : BinaryTree α) :
    weight (children (.node a l r)) = l.numNodes + r.numNodes := by
  rw [children, weight_append, weight_present, weight_present]

end Shang.Lib.Tree
