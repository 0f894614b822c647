import Shang.Lib.Tree

/-!
# Balancing a binary tree at every node

`balance_tree` of `datastruct/tree/bintree`: it turns the tree until the
subtrees of its root differ by at most one node, and then balances both of
them. A `struct node_st *` is a binary tree of records, `NULL` the empty one,
and the pointers to pointers become the recursion on the tree.

The recursive calls in `find_min` and `find_max` lack a `return`. They are taken
to return what they find: `find_max(l)->right = cur` hangs `cur` under the
rightmost node of `l`.
-/

namespace Shang.Bintree

open Shang.Lib.Tree

/-- `struct data_st`; the name is an array of `NAMESIZE` characters. -/
structure Data where
  id : Int
  name : List UInt8

/-- `struct node_st *` -/
abbrev Node := BinaryTree Data

/-- `get_num` -/
def getNum : Node → Int
  | .nil => 0
  | .node _ left right => getNum left + getNum right + 1

/-- `turn_right`, where `find_max` must not be given `NULL`. -/
def turnRight : Node → Option Node
  | .nil => none
  | .node _ .nil _ => none
  | .node data (.node d left right) r =>
    some (hangRight (.node d left right) (.node data .nil r))

/-- `turn_left`, where `find_min` must not be given `NULL`. -/
def turnLeft : Node → Option Node
  | .nil => none
  | .node _ _ .nil => none
  | .node data l (.node d left right) =>
    some (hangLeft (.node d left right) (.node data l .nil))

/-- The `while (1)` of `balance_tree`. -/
def balanceLoop : Nat → Node → Option Node
  | 0, _ => none
  | _ + 1, .nil => none
  | fuel + 1, .node data left right =>
    let num := getNum left - getNum right
    if num > 1 then (turnRight (.node data left right)).bind (balanceLoop fuel)
    else if num < -1 then (turnLeft (.node data left right)).bind (balanceLoop fuel)
    else some (.node data left right)

/-- `balance_tree`; `none` where the fuel does not suffice or `NULL` is
dereferenced. -/
def balanceTree : Nat → Node → Option Node
  | _, .nil => some .nil
  | 0, .node _ _ _ => none
  | fuel + 1, .node data left right => do
    match ← balanceLoop (fuel + 1) (.node data left right) with
    | .nil => none
    | .node data left right =>
      let left ← balanceTree fuel left
      let right ← balanceTree fuel right
      some (.node data left right)

/-! ## The loop at a node -/

theorem getNum_eq (root : Node) : getNum root = root.numNodes := by
  induction root with
  | nil => rfl
  | node data l r ihl ihr =>
      simp only [getNum, ihl, ihr, BinaryTree.numNodes]
      omega

theorem turnRight_eq (root : Node) : turnRight root = Lib.Tree.turnRight root := by
  rcases root with _ | ⟨data, _ | ⟨d, ll, lr⟩, r⟩ <;> rfl

theorem turnLeft_eq (root : Node) : turnLeft root = Lib.Tree.turnLeft root := by
  rcases root with _ | ⟨data, l, _ | ⟨d, rl, rr⟩⟩ <;> rfl

/-- The loop of the source is the library's. A turn leaves a root. -/
theorem balanceLoop_eq (fuel : Nat) (data : Data) (left right : Node) :
    balanceLoop fuel (.node data left right) = settle fuel (.node data left right) := by
  induction fuel generalizing data left right with
  | zero => rfl
  | succ fuel ih =>
      have turnsRight : (turnRight (.node data left right)).bind (balanceLoop fuel) =
          (Lib.Tree.turnRight (.node data left right)).bind (settle fuel) := by
        rw [turnRight_eq]
        rcases left with _ | ⟨d, ll, lr⟩
        · rfl
        · exact ih _ _ _
      have turnsLeft : (turnLeft (.node data left right)).bind (balanceLoop fuel) =
          (Lib.Tree.turnLeft (.node data left right)).bind (settle fuel) := by
        rw [turnLeft_eq]
        rcases right with _ | ⟨d, rl, rr⟩
        · rfl
        · exact ih _ _ _
      have num : tilt (.node data left right) = getNum left - getNum right := by
        rw [getNum_eq, getNum_eq]
        rfl
      rw [balanceLoop, settle, turnsRight, turnsLeft]
      split
      · rw [if_neg (by omega), if_neg (by omega)]
      · split
        · rw [if_neg (by omega), if_pos (by omega)]
        · rw [if_pos (by omega)]

/-! ## The whole tree -/

/-- `balance_tree` ends: the number of nodes bounds the turns at every node and
the depth of the recursion. It keeps the records in order, and leaves a tree
that is level at every node and as low as possible. -/
theorem balanceTree_level (root : Node) (spare : Nat) :
    ∃ balanced, balanceTree (root.numNodes + spare) root = some balanced ∧
      inorder balanced = inorder root ∧ Level balanced ∧
      balanced.height = Nat.clog 2 (root.numNodes + 1) := by
  suffices enough : ∀ fuel (root : Node), root.numNodes ≤ fuel → ∃ balanced,
      balanceTree fuel root = some balanced ∧ inorder balanced = inorder root ∧ Level balanced by
    obtain ⟨balanced, done, same, level⟩ := enough _ root (Nat.le_add_right _ spare)
    refine ⟨balanced, done, same, level, ?_⟩
    rw [level.height_eq, ← length_inorder balanced, same, length_inorder]
  intro fuel
  induction fuel with
  | zero =>
      intro root enough
      cases root with
      | nil => exact ⟨.nil, by rw [balanceTree], rfl, trivial⟩
      | node data l r => simp at enough
  | succ fuel ih =>
      intro root enough
      rcases root with _ | ⟨data, l, r⟩
      · exact ⟨.nil, by rw [balanceTree], rfl, trivial⟩
      obtain ⟨turned, settled, same, even⟩ := settle_total (t := .node data l r) (by simp) enough
      have size := congrArg List.length same
      simp only [length_inorder] at size
      rcases turned with _ | ⟨data', l', r'⟩
      · simp at size
      simp only [BinaryTree.numNodes] at size enough
      obtain ⟨l'', doneL, sameL, levelL⟩ := ih l' (by omega)
      obtain ⟨r'', doneR, sameR, levelR⟩ := ih r' (by omega)
      have sizeL := congrArg List.length sameL
      have sizeR := congrArg List.length sameR
      simp only [length_inorder] at sizeL sizeR
      refine ⟨.node data' l'' r'', ?_, ?_, ?_, levelL, levelR⟩
      · rw [balanceTree, balanceLoop_eq, settled]
        simp only [Option.bind_eq_bind, Option.bind_some, doneL, doneR]
      · rw [← same, inorder_node, inorder_node, sameL, sameR]
      · simp only [tilt, sizeL, sizeR] at even ⊢
        exact even

end Shang.Bintree
