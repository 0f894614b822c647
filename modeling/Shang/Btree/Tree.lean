import Shang.Lib.Run
import Shang.Lib.Tree
import Mathlib.Data.Multiset.AddSub
import Mathlib.Data.List.Induction

/-!
# The balanced search tree of records

`insert`, `find`, `delete` and `balance` of the tree program `1.btree`. A
`BT_NODE *` is a binary tree of records, `NULL` the empty one; the pointers to
pointers that `insert`, `delete` and `balance` descend with become the
recursion on the tree. Records with equal ids are allowed: an insertion puts
them on the left, a turn of `balance` can bring them to either side.
-/

namespace Shang.Btree

open Shang.Lib Shang.Lib.Tree

/-- `SC`; the name is an array of `NAMESIZE` characters. -/
structure SC where
  id : Int
  name : List UInt8
  math : Int
  chinese : Int
  deriving DecidableEq, Repr

/-- `BT_NODE *`. -/
abbrev BtNode := BinaryTree SC

/-- `insert`, with the return value. `allocated` says whether `malloc`
succeeds; the recursive calls' return values are ignored. -/
def insert (allocated : Bool) (root : BtNode) (data : SC) : BtNode × Int :=
  match root with
  | .nil => if allocated then (.node data .nil .nil, 0) else (.nil, -1)
  | .node d l r =>
      if d.id ≥ data.id then (.node d (insert allocated l data).1 r, 0)
      else (.node d l (insert allocated r data).1, 0)

/-- `find`: the subtree at the node it returns. -/
def find (root : BtNode) (id : Int) : BtNode :=
  match root with
  | .nil => .nil
  | .node d l r =>
      if d.id = id then .node d l r
      else if d.id ≥ id then find l id
      else find r id

/-- `get_num`. -/
def getNum : BtNode → Int
  | .nil => 0
  | .node _ l r => getNum l + 1 + getNum r

/-- `find_min(root)->left = sub`. -/
def findMinSetLeft (sub : BtNode) : BtNode → Option BtNode
  | .nil => none
  | .node d .nil r => some (.node d sub r)
  | .node d (.node e ll lr) r =>
      (findMinSetLeft sub (.node e ll lr)).map fun l => .node d l r

/-- `find_max(root)->right = sub`. -/
def findMaxSetRight (sub : BtNode) : BtNode → Option BtNode
  | .nil => none
  | .node d l .nil => some (.node d l sub)
  | .node d l (.node e rl rr) =>
      (findMaxSetRight sub (.node e rl rr)).map fun r => .node d l r

/-- `turn_left`; `none` is a dereferenced `NULL`. -/
def turnLeft : BtNode → Option BtNode
  | .nil => none
  | .node d l r => findMinSetLeft (.node d l .nil) r

/-- `turn_right`; `none` is a dereferenced `NULL`. -/
def turnRight : BtNode → Option BtNode
  | .nil => none
  | .node d l r => findMaxSetRight (.node d .nil r) l

/-- The `while (1)` of `balance` on a non-empty tree. -/
def balanceLoop : Nat → BtNode → Option BtNode
  | 0, _ => none
  | _ + 1, .nil => none
  | fuel + 1, .node d l r =>
      let sub := getNum l - getNum r
      if sub ≥ -1 ∧ sub ≤ 1 then some (.node d l r)
      else if sub < -1 then (turnLeft (.node d l r)).bind (balanceLoop fuel)
      else (turnRight (.node d l r)).bind (balanceLoop fuel)

/-- `balance`: after the loop only the right subtree is balanced. `none` means
that the fuel did not suffice. -/
def balance : Nat → BtNode → Option BtNode
  | _, .nil => some .nil
  | 0, .node _ _ _ => none
  | fuel + 1, .node d l r =>
      match balanceLoop (fuel + 1) (.node d l r) with
      | some (.node d l r) => (balance fuel r).map fun r => .node d l r
      | _ => none

/-- `delete`. A node without a left subtree is replaced by its right one;
otherwise by its left one, with the right one hung under that one's maximum. -/
def delete (root : BtNode) (id : Int) : BtNode :=
  match root with
  | .nil => .nil
  | .node d l r =>
      if d.id ≠ id then
        if d.id > id then .node d (delete l id) r else .node d l (delete r id)
      else
        match l with
        | .nil => r
        | .node e ll lr => (findMaxSetRight r (.node e ll lr)).getD .nil

/-! ## The turns are the library's -/

theorem getNum_eq (t : BtNode) : getNum t = t.numNodes := by
  induction t with
  | nil => rfl
  | node d l r ihl ihr =>
      simp only [getNum, ihl, ihr, BinaryTree.numNodes]
      omega

theorem findMinSetLeft_eq (sub : BtNode) (d : SC) (l r : BtNode) :
    findMinSetLeft sub (.node d l r) = some (hangLeft (.node d l r) sub) := by
  induction l generalizing d r with
  | nil => rfl
  | node e ll lr ihl _ => simp only [findMinSetLeft, ihl, Option.map_some, hangLeft]

theorem findMaxSetRight_eq (sub : BtNode) (d : SC) (l r : BtNode) :
    findMaxSetRight sub (.node d l r) = some (hangRight (.node d l r) sub) := by
  induction r generalizing d l with
  | nil => rfl
  | node e rl rr _ ihr => simp only [findMaxSetRight, ihr, Option.map_some, hangRight]

theorem turnLeft_eq (t : BtNode) : turnLeft t = Tree.turnLeft t := by
  rcases t with _ | ⟨d, l, _ | ⟨e, rl, rr⟩⟩
  · rfl
  · rfl
  · exact findMinSetLeft_eq _ e rl rr

theorem turnRight_eq (t : BtNode) : turnRight t = Tree.turnRight t := by
  rcases t with _ | ⟨d, _ | ⟨e, ll, lr⟩, r⟩
  · rfl
  · rfl
  · exact findMaxSetRight_eq _ e ll lr

theorem turn_ne_nil {t u : BtNode} (turned : turnLeft t = some u ∨ turnRight t = some u) :
    u ≠ .nil := by
  rintro rfl
  rcases turned with turned | turned
  · have := congrArg List.length (inorder_turnLeft ((turnLeft_eq t).symm.trans turned))
    cases t with
    | nil => cases turned
    | node d l r => simp at this
  · have := congrArg List.length (inorder_turnRight ((turnRight_eq t).symm.trans turned))
    cases t with
    | nil => cases turned
    | node d l r => simp at this

theorem balanceLoop_eq (fuel : Nat) {t : BtNode} (root : t ≠ .nil) :
    balanceLoop fuel t = settle fuel t := by
  induction fuel generalizing t with
  | zero => rfl
  | succ fuel ih =>
      rcases t with _ | ⟨d, l, r⟩
      · exact absurd rfl root
      have turns : ∀ v : Option BtNode, (∀ u, v = some u → u ≠ .nil) →
          v.bind (balanceLoop fuel) = v.bind (settle fuel) := by
        intro v turned
        cases v with
        | none => rfl
        | some u => exact ih (turned u rfl)
      rw [balanceLoop, turns _ fun u turned => turn_ne_nil (Or.inl turned),
        turns _ fun u turned => turn_ne_nil (Or.inr turned)]
      simp only [settle, tilt, getNum_eq, turnLeft_eq, turnRight_eq, ge_iff_le]
      rfl

/-- The loop of `balance` ends, keeps the in-order sequence and leaves a root. -/
theorem balanceLoop_total {fuel : Nat} {d : SC} {l r : BtNode}
    (enough : l.numNodes + r.numNodes + 1 ≤ fuel) :
    ∃ d' l' r', balanceLoop fuel (.node d l r) = some (.node d' l' r') ∧
      inorder (.node d' l' r') = inorder (.node d l r) := by
  obtain ⟨u, settled, same, -⟩ := settle_total (t := .node d l r) (by simp) enough
  rw [balanceLoop_eq fuel (by simp)]
  rcases u with _ | ⟨d', l', r'⟩
  · simp at same
  · exact ⟨d', l', r', settled, same⟩

/-- `balance` ends on every tree and keeps the in-order sequence. -/
theorem balance_total {fuel : Nat} {t : BtNode} (enough : t.numNodes ≤ fuel) :
    ∃ u, balance fuel t = some u ∧ inorder u = inorder t := by
  induction fuel generalizing t with
  | zero =>
      cases t with
      | nil => exact ⟨.nil, by rw [balance], rfl⟩
      | node d l r => simp at enough
  | succ fuel ih =>
      rcases t with _ | ⟨d, l, r⟩
      · exact ⟨.nil, by rw [balance], rfl⟩
      obtain ⟨d', l', r', looped, same⟩ := balanceLoop_total (d := d) enough
      have size := congrArg List.length same
      simp only [length_inorder, BinaryTree.numNodes] at size enough
      obtain ⟨u, balanced, right⟩ := ih (t := r') (by omega)
      refine ⟨.node d' l' u, by simp only [balance, looped, balanced, Option.map_some], ?_⟩
      rw [← same, inorder_node, inorder_node, right]

/-! ## Search order -/

/-- The ids are nondecreasing in symmetric order. -/
def Ordered (t : BtNode) : Prop := (inorder t).Pairwise fun a b => a.id ≤ b.id

theorem ordered_node {d : SC} {l r : BtNode} :
    Ordered (.node d l r) ↔ Ordered l ∧ Ordered r ∧
      (∀ a ∈ inorder l, a.id ≤ d.id) ∧ ∀ b ∈ inorder r, d.id ≤ b.id := by
  simp only [Ordered, inorder_node, List.pairwise_append, List.pairwise_cons, List.mem_cons,
    forall_eq_or_imp]
  constructor
  · rintro ⟨left, ⟨above, right⟩, across⟩
    exact ⟨left, right, fun a mem => (across a mem).1, above⟩
  · rintro ⟨left, right, below, above⟩
    exact ⟨left, ⟨above, right⟩, fun a memA =>
      ⟨below a memA, fun b memB => Int.le_trans (below a memA) (above b memB)⟩⟩

variable {t : BtNode} {data : SC}

/-- An insertion adds one occurrence of the record. -/
theorem insert_perm : (inorder (insert true t data).1).Perm (data :: inorder t) := by
  induction t with
  | nil => exact .refl _
  | node d l r ihl ihr =>
      simp only [insert]
      split
      · exact (ihl.append_right _).trans (.refl _)
      · refine (List.Perm.append_left _ (ihr.cons d)).trans ?_
        refine (List.Perm.append_left _ (.swap data d _)).trans ?_
        exact List.perm_middle

theorem insert_ordered (ordered : Ordered t) : Ordered (insert true t data).1 := by
  induction t with
  | nil => simp [Ordered, insert]
  | node d l r ihl ihr =>
      obtain ⟨left, right, below, above⟩ := ordered_node.mp ordered
      simp only [insert]
      split
      next low =>
        refine ordered_node.mpr ⟨ihl left, right, fun a mem => ?_, above⟩
        rcases List.mem_cons.mp (insert_perm.mem_iff.mp mem) with rfl | old
        · exact low
        · exact below a old
      next high =>
        refine ordered_node.mpr ⟨left, ihr right, below, fun b mem => ?_⟩
        rcases List.mem_cons.mp (insert_perm.mem_iff.mp mem) with rfl | old
        · omega
        · exact above b old

/-- What `find` returns in an ordered tree: a node with the id, or `NULL` when
no record has it. -/
theorem find_spec (id : Int) (ordered : Ordered t) :
    (∃ d l r, find t id = .node d l r ∧ d.id = id ∧ d ∈ inorder t) ∨
      find t id = .nil ∧ ∀ d ∈ inorder t, d.id ≠ id := by
  induction t with
  | nil => exact Or.inr ⟨rfl, by simp⟩
  | node d l r ihl ihr =>
      obtain ⟨left, right, below, above⟩ := ordered_node.mp ordered
      by_cases here : d.id = id
      · exact Or.inl ⟨d, l, r, by simp [find, here], here, by simp⟩
      by_cases low : d.id ≥ id
      · have descend : find (.node d l r) id = find l id := by simp [find, here, low]
        rw [descend]
        rcases ihl left with ⟨e, ll, lr, found, same, mem⟩ | ⟨missing, absent⟩
        · exact Or.inl ⟨e, ll, lr, found, same, by simp [mem]⟩
        · refine Or.inr ⟨missing, fun e mem => ?_⟩
          rcases List.mem_append.mp mem with mem | mem
          · exact absent e mem
          · rcases List.mem_cons.mp mem with rfl | mem
            · exact here
            · have := above e mem
              omega
      · have descend : find (.node d l r) id = find r id := by simp [find, here, low]
        rw [descend]
        rcases ihr right with ⟨e, rl, rr, found, same, mem⟩ | ⟨missing, absent⟩
        · exact Or.inl ⟨e, rl, rr, found, same, by simp [mem]⟩
        · refine Or.inr ⟨missing, fun e mem => ?_⟩
          rcases List.mem_append.mp mem with mem | mem
          · have := below e mem
            omega
          · rcases List.mem_cons.mp mem with rfl | mem
            · exact here
            · exact absent e mem

/-- A deletion in an ordered tree takes one record with the id out of the
in-order sequence, or changes nothing when there is none. -/
theorem delete_spec (id : Int) (ordered : Ordered t) :
    (∃ before d after, d.id = id ∧ inorder t = before ++ d :: after ∧
        inorder (delete t id) = before ++ after) ∨
      delete t id = t ∧ ∀ d ∈ inorder t, d.id ≠ id := by
  induction t with
  | nil => exact Or.inr ⟨rfl, by simp⟩
  | node d l r ihl ihr =>
      obtain ⟨left, right, below, above⟩ := ordered_node.mp ordered
      by_cases here : d.id = id
      · refine Or.inl ⟨inorder l, d, inorder r, here, rfl, ?_⟩
        rcases l with _ | ⟨e, ll, lr⟩
        · simp [delete, here]
        · simp only [delete, here, ne_eq, not_true_eq_false, if_false, findMaxSetRight_eq,
            Option.getD_some, inorder_hangRight]
      by_cases low : d.id > id
      · have descend : delete (.node d l r) id = .node d (delete l id) r := by
          simp [delete, here, low]
        rw [descend]
        rcases ihl left with ⟨before, e, after, same, old, new⟩ | ⟨unchanged, absent⟩
        · exact Or.inl ⟨before, e, after ++ d :: inorder r, same, by simp [old], by simp [new]⟩
        · refine Or.inr ⟨by rw [unchanged], fun e mem => ?_⟩
          rcases List.mem_append.mp mem with mem | mem
          · exact absent e mem
          · rcases List.mem_cons.mp mem with rfl | mem
            · exact here
            · have := above e mem
              omega
      · have descend : delete (.node d l r) id = .node d l (delete r id) := by
          simp [delete, here, low]
        rw [descend]
        rcases ihr right with ⟨before, e, after, same, old, new⟩ | ⟨unchanged, absent⟩
        · exact Or.inl ⟨inorder l ++ d :: before, e, after, same, by simp [old], by simp [new]⟩
        · refine Or.inr ⟨by rw [unchanged], fun e mem => ?_⟩
          rcases List.mem_append.mp mem with mem | mem
          · have := below e mem
            omega
          · rcases List.mem_cons.mp mem with rfl | mem
            · exact here
            · exact absent e mem

/-! ## Runs -/

/-- An operation on the tree. -/
inductive Op
  | insert (data : SC)
  | delete (id : Int)
  | balance

/-- One operation; `malloc` succeeds. -/
def step (fuel : Nat) (root : BtNode) : Op → Option BtNode
  | .insert data => some (insert true root data).1
  | .delete id => some (delete root id)
  | .balance => balance fuel root

/-- The records that may be stored after some operations: those inserted,
without one record with the id for every deletion that found one. -/
inductive Stored : List Op → Multiset SC → Prop
  | start : Stored [] 0
  | insert {ops records} (data : SC) :
      Stored ops records → Stored (ops ++ [.insert data]) (data ::ₘ records)
  | delete {ops records} (d : SC) :
      Stored ops (d ::ₘ records) → Stored (ops ++ [.delete d.id]) records
  | deleteAbsent {ops records} (id : Int) :
      Stored ops records → (∀ d ∈ records, d.id ≠ id) → Stored (ops ++ [.delete id]) records
  | balance {ops records} : Stored ops records → Stored (ops ++ [.balance]) records

/-- The records of a tree. -/
def records (t : BtNode) : Multiset SC := ↑(inorder t)

/-- What holds of the tree after the operations `ops`. -/
structure Inv (ops : List Op) (t : BtNode) : Prop where
  ordered : Ordered t
  stored : Stored ops (records t)
  size : t.numNodes ≤ ops.length

/-- Every operation is defined with as much fuel as there were operations, and
keeps the invariant. -/
theorem step_inv {fuel : Nat} {ops : List Op} (op : Op) (inv : Inv ops t)
    (enough : ops.length ≤ fuel) : ∃ u, step fuel t op = some u ∧ Inv (ops ++ [op]) u := by
  have size := inv.size
  cases op with
  | insert data =>
      refine ⟨_, rfl, insert_ordered inv.ordered, ?_, ?_⟩
      · have same : records (insert true t data).1 = data ::ₘ records t :=
          Multiset.coe_eq_coe.mpr insert_perm
        rw [same]
        exact .insert data inv.stored
      · rw [← length_inorder, insert_perm.length_eq, List.length_cons, length_inorder,
          List.length_append, List.length_singleton]
        omega
  | delete id =>
      refine ⟨_, rfl, ?_⟩
      rcases delete_spec id inv.ordered with
        ⟨before, d, after, rfl, old, new⟩ | ⟨unchanged, absent⟩
      · have ordered := inv.ordered
        have stored := inv.stored
        rw [Ordered, old] at ordered
        rw [records, old, ← Multiset.coe_add, ← Multiset.cons_coe, Multiset.add_cons] at stored
        refine ⟨?_, ?_, ?_⟩
        · rw [Ordered, new]
          exact ordered.sublist (.append_left (List.sublist_cons_self d after) before)
        · rw [records, new, ← Multiset.coe_add]
          exact .delete d stored
        · have shorter := congrArg List.length new
          have longer := congrArg List.length old
          simp only [length_inorder, List.length_append, List.length_cons] at shorter longer ⊢
          omega
      · rw [unchanged]
        refine ⟨inv.ordered, .deleteAbsent id inv.stored absent, ?_⟩
        rw [List.length_append]
        omega
  | balance =>
      obtain ⟨u, balanced, same⟩ := balance_total (size.trans enough)
      refine ⟨u, balanced, ?_, ?_, ?_⟩
      · rw [Ordered, same]
        exact inv.ordered
      · rw [records, same]
        exact .balance inv.stored
      · rw [← length_inorder, same, length_inorder, List.length_append]
        omega

theorem run_inv {fuel : Nat} (ops : List Op) (enough : ops.length ≤ fuel) :
    ∃ t, run (step fuel) .nil ops = some t ∧ Inv ops t := by
  induction ops using List.reverseRecOn with
  | nil => exact ⟨.nil, rfl, .nil, .start, le_rfl⟩
  | append_singleton ops op ih =>
      rw [List.length_append, List.length_singleton] at enough
      obtain ⟨t, ran, inv⟩ := ih (by omega)
      obtain ⟨u, stepped, inv'⟩ := step_inv op inv (Nat.le_of_succ_le enough)
      exact ⟨u, run_concat_eq_some.mpr ⟨t, ran, stepped⟩, inv'⟩

/-- After every sequence of insertions, deletions and balancings from `NULL`
the ids are in nondecreasing order, the records are those inserted and not
deleted, and `find` returns a record with an id exactly when one is stored. -/
theorem btree_run (ops : List Op) (fuel : Nat) (enough : ops.length ≤ fuel) :
    ∃ t, run (step fuel) .nil ops = some t ∧ Ordered t ∧ Stored ops (records t) ∧
      ∀ id, ((∃ d l r, find t id = .node d l r ∧ d.id = id ∧ d ∈ records t) ↔
          ∃ d ∈ records t, d.id = id) ∧
        (find t id = .nil ↔ ∀ d ∈ records t, d.id ≠ id) := by
  obtain ⟨t, ran, inv⟩ := run_inv ops enough
  refine ⟨t, ran, inv.ordered, inv.stored, fun id => ?_⟩
  simp only [records, Multiset.mem_coe]
  rcases find_spec id inv.ordered with ⟨d, l, r, found, same, mem⟩ | ⟨missing, absent⟩
  · refine ⟨iff_of_true ⟨d, l, r, found, same, mem⟩ ⟨d, mem, same⟩, iff_of_false ?_ ?_⟩
    · simp [found]
    · exact fun absent => absent d mem same
  · refine ⟨iff_of_false ?_ ?_, iff_of_true missing absent⟩
    · rintro ⟨d, l, r, -, same, mem⟩
      exact absent d mem same
    · rintro ⟨d, mem, same⟩
      exact absent d mem same

/-- Three increasing ids, a balancing and a deletion of the new root. -/
theorem btree_run_deleteRoot :
    ∃ t, run (step 5) .nil
        [.insert ⟨1, [], 0, 0⟩, .insert ⟨2, [], 0, 0⟩, .insert ⟨3, [], 0, 0⟩, .balance,
          .delete 2] = some t ∧ Ordered t := by
  obtain ⟨t, ran, ordered, -⟩ := btree_run
    [.insert ⟨1, [], 0, 0⟩, .insert ⟨2, [], 0, 0⟩, .insert ⟨3, [], 0, 0⟩, .balance,
      .delete 2] 5 (by decide)
  exact ⟨t, ran, ordered⟩

end Shang.Btree
