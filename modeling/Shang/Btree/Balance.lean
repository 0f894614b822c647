import Shang.Btree.Tree

/-!
# What `balance` leaves level

`balance` turns the tree until the subtrees of its root are even and goes on in
the right subtree only; `balance_tree` of the other tree program goes on in both.
A left subtree stays as the turns left it. So the tree is level at every node in
the end exactly if the left halves were level from the start, `balance_level_iff`.
-/

namespace Shang.Btree

open Shang.Lib.Tree

variable {t u : BtNode}

/-- The nodes before the middle node form a level tree: its left subtree, with the nodes that the
way down to it passes to the right hung below. So do the ones before the middle of the nodes behind
it, and so on. -/
inductive Prepared : BtNode → Prop
  | nil : Prepared .nil
  | node {t : BtNode} : t ≠ .nil → Level (halves t .nil .nil).1 →
      Prepared (halves t .nil .nil).2 → Prepared t

theorem prepared_iff (root : t ≠ .nil) :
    Prepared t ↔ Level (halves t .nil .nil).1 ∧ Prepared (halves t .nil .nil).2 := by
  constructor
  · intro prepared
    cases prepared with
    | nil => exact absurd rfl root
    | node _ left right => exact ⟨left, right⟩
  · intro ⟨left, right⟩
    exact .node root left right

/-- Only the right subtrees are changed behind the loop, and not in their numbers. -/
theorem balance_prepared {fuel : Nat} (enough : t.numNodes ≤ fuel) :
    ∃ u, balance fuel t = some u ∧ inorder u = inorder t ∧ (Level u ↔ Prepared t) := by
  induction fuel generalizing t with
  | zero =>
      cases t with
      | nil => exact ⟨.nil, by rw [balance], rfl, iff_of_true trivial .nil⟩
      | node d l r => simp at enough
  | succ fuel ih =>
      rcases t with _ | ⟨d, l, r⟩
      · exact ⟨.nil, by rw [balance], rfl, iff_of_true trivial .nil⟩
      have root : BinaryTree.node d l r ≠ .nil := by simp
      obtain ⟨u, settled, ⟨same, even⟩, a, rfl⟩ := settle_halves root enough
      rw [← balanceLoop_eq (fuel + 1) root] at settled
      rw [prepared_iff root]
      generalize halves (.node d l r) .nil .nil = parts at settled same even ⊢
      have size := congrArg List.length same
      simp only [length_inorder, BinaryTree.numNodes] at size enough
      obtain ⟨right, balanced, sameRight, level⟩ := ih (t := parts.2) (by omega)
      have count : right.numNodes = parts.2.numNodes := by
        rw [← length_inorder, sameRight, length_inorder]
      refine ⟨.node a parts.1 right, ?_, ?_, ?_⟩
      · simp only [balance, settled, balanced, Option.map_some]
      · rw [← same, inorder_node, inorder_node, sameRight]
      · simp only [tilt] at even
        rw [Level, tilt, count, level]
        exact and_iff_right even

/-- For every tree and every fuel that is no less than the number of its nodes, `balance` ends with
the same in-order sequence, and with a tree that is level at every node exactly if the left halves
were. -/
theorem balance_level_iff (t : BtNode) (spare : Nat) :
    (∃ u, balance (t.numNodes + spare) t = some u ∧ inorder u = inorder t ∧ Level u) ↔
      Prepared t := by
  obtain ⟨u, balanced, same, level⟩ := balance_prepared (Nat.le_add_right t.numNodes spare)
  rw [← level]
  constructor
  · rintro ⟨v, balanced', -, even⟩
    rw [balanced] at balanced'
    cases balanced'
    exact even
  · intro even
    exact ⟨u, balanced, same, even⟩

/-- A left subtree is not balanced: three nodes in a row stay so. -/
theorem left_row_stays :
    let leaf (id : Int) : BtNode := .node ⟨id, [], 0, 0⟩ .nil .nil
    let row : BtNode := .node ⟨3, [], 0, 0⟩ (.node ⟨2, [], 0, 0⟩ (leaf 1) .nil) .nil
    let root : BtNode := .node ⟨4, [], 0, 0⟩ row (.node ⟨5, [], 0, 0⟩ .nil (leaf 6))
    balance 6 root = some root ∧ ¬ Level root := by
  refine ⟨rfl, fun level => ?_⟩
  exact absurd level.2.1.1.2 (by decide)

end Shang.Btree
