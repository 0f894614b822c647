import Shang.Btree.Bintree
import Shang.Lib.Run
import Mathlib.Data.List.Sort
import Mathlib.Data.List.Induction

/-!
# The binary tree as a stable sorted list

`insert_tree`, `search_tree` and `delete_tree` of `datastruct/tree/bintree`, in any order
with `balance_tree`. Equal ids are allowed. An insertion puts a record behind all that have its
id, a turn of `balance_tree` keeps the symmetric order: the records with one id stay in the
order in which they came in, however the tree was turned in between.

`delete_tree` has no `return` behind its recursive calls, so only a deletion at the root it is
given returns a number.
-/

namespace Shang.Bintree

open Lib Lib.Tree

/-- `insert_tree`, with the return value. `allocated` says whether `malloc` succeeds. -/
def insertTree (allocated : Bool) (root : Node) (data : Data) : Node × Int :=
  match root with
  | .nil => if allocated then (.node data .nil .nil, 0) else (.nil, -1)
  | .node d l r =>
      if data.id ≥ d.id then
        let (r, ret) := insertTree allocated r data
        (.node d l r, ret)
      else
        let (l, ret) := insertTree allocated l data
        (.node d l r, ret)

/-- `search_tree` -/
def searchTree (root : Node) (id : Int) : Option Data :=
  match root with
  | .nil => none
  | .node d l r =>
      if d.id = id then some d
      else if d.id > id then searchTree l id
      else searchTree r id

/-- `delete__` at a node with these subtrees. -/
def deleteRoot (l r : Node) : Node :=
  match r with
  | .nil => l
  | .node _ _ _ => hangLeft r l

/-- `delete_tree`, with the return value where there is one. -/
def deleteTree (root : Node) (id : Int) : Node × Option Int :=
  match root with
  | .nil => (.nil, some (-1))
  | .node d l r =>
      if d.id = id then (deleteRoot l r, some 0)
      else if d.id < id then (.node d l (deleteTree r id).1, none)
      else (.node d (deleteTree l id).1 r, none)

/-! ## What the tree is for -/

/-- A record goes behind all that are not greater. -/
def insertLast (data : Data) (l : List Data) : List Data :=
  l.orderedInsert (fun a b => a.id < b.id) data

/-- An operation on the tree. -/
inductive Op
  | insert (data : Data)
  | delete (id : Int)
  | balance

/-- The records that came in, in their order. -/
def inserted : List Op → List Data :=
  List.filterMap fun
    | .insert data => some data
    | _ => none

/-- What a list of records may be after some operations. Which of the records with an id a
deletion takes is left open. -/
inductive Holds : List Op → List Data → Prop
  | start : Holds [] []
  | insert {ops l} (data : Data) : Holds ops l → Holds (ops ++ [.insert data]) (insertLast data l)
  | delete {ops before after} (d : Data) :
      Holds ops (before ++ d :: after) → Holds (ops ++ [.delete d.id]) (before ++ after)
  | absent {ops l} (id : Int) :
      Holds ops l → (∀ d ∈ l, d.id ≠ id) → Holds (ops ++ [.delete id]) l
  | balance {ops l} : Holds ops l → Holds (ops ++ [.balance]) l

variable {l m : List Data} {d data : Data} {id : Int} {ops : List Op}

theorem insertLast_cons (d : Data) (l : List Data) :
    insertLast data (d :: l) =
      if data.id < d.id then data :: d :: l else d :: insertLast data l := rfl

theorem insertLast_perm : (insertLast data l).Perm (data :: l) := List.perm_orderedInsert _ _ _

/-- Behind a part that is not greater the insertion goes on. -/
theorem insertLast_append (low : ∀ d ∈ l, d.id ≤ data.id) :
    insertLast data (l ++ m) = l ++ insertLast data m := by
  induction l with
  | nil => rfl
  | cons d l ih =>
      rw [List.cons_append, insertLast_cons,
        if_neg (Int.not_lt.mpr (low d List.mem_cons_self)),
        ih fun d mem => low d (List.mem_cons_of_mem _ mem), List.cons_append]

/-- Behind a greater record nothing changes. -/
theorem insertLast_append_cons (high : data.id < d.id) :
    insertLast data (l ++ d :: m) = insertLast data l ++ d :: m := by
  induction l with
  | nil => rw [List.nil_append, insertLast_cons, if_pos high]; rfl
  | cons e l ih =>
      rw [List.cons_append, insertLast_cons, insertLast_cons, ih]
      split <;> rfl

/-- The ids do not fall. -/
def Sorted (l : List Data) : Prop := l.Pairwise fun a b => a.id ≤ b.id

theorem sorted_append_cons : Sorted (l ++ d :: m) ↔
    Sorted l ∧ Sorted m ∧ (∀ a ∈ l, a.id ≤ d.id) ∧ ∀ b ∈ m, d.id ≤ b.id := by
  simp only [Sorted, List.pairwise_append, List.pairwise_cons, List.mem_cons, forall_eq_or_imp]
  constructor
  · rintro ⟨left, ⟨above, right⟩, across⟩
    exact ⟨left, right, fun a mem => (across a mem).1, above⟩
  · rintro ⟨left, right, below, above⟩
    exact ⟨left, ⟨above, right⟩, fun a memA =>
      ⟨below a memA, fun b memB => Int.le_trans (below a memA) (above b memB)⟩⟩

theorem Sorted.insertLast (sorted : Sorted l) : Sorted (insertLast data l) := by
  induction l with
  | nil => exact List.pairwise_singleton _ _
  | cons d l ih =>
      rw [insertLast_cons]
      split
      · next high =>
        refine List.pairwise_cons.mpr ⟨fun e mem => ?_, sorted⟩
        rcases List.mem_cons.mp mem with rfl | mem
        · exact high.le
        · exact high.le.trans ((List.pairwise_cons.mp sorted).1 e mem)
      · next low =>
        obtain ⟨above, sorted⟩ := List.pairwise_cons.mp sorted
        refine List.pairwise_cons.mpr ⟨fun e mem => ?_, ih sorted⟩
        rcases List.mem_cons.mp (insertLast_perm.mem_iff.mp mem) with rfl | mem
        · exact Int.not_lt.mp low
        · exact above e mem

/-- The records with an id, in their order. -/
def withId (id : Int) (l : List Data) : List Data := l.filter (·.id = id)

theorem withId_append : withId id (l ++ m) = withId id l ++ withId id m :=
  List.filter_append l m

/-- The records with the id of the new one stay in front of it. -/
theorem withId_insertLast (sorted : Sorted l) :
    withId id (insertLast data l) = withId id l ++ withId id [data] := by
  induction l with
  | nil => rfl
  | cons d l ih =>
      obtain ⟨above, rest⟩ := List.pairwise_cons.mp sorted
      rw [insertLast_cons]
      split
      · next high =>
        rw [← List.singleton_append, withId_append]
        by_cases same : data.id = id
        · have others : withId id (d :: l) = [] := by
            refine List.filter_eq_nil_iff.mpr fun e mem => ?_
            have greater : d.id ≤ e.id := by
              rcases List.mem_cons.mp mem with rfl | mem
              · exact le_rfl
              · exact above e mem
            simp only [decide_eq_true_eq]
            omega
          rw [others, List.nil_append, List.append_nil]
        · have alone : withId id [data] = [] := by simp [withId, same]
          rw [alone, List.nil_append, List.append_nil]
      · rw [← List.singleton_append, withId_append, ih rest, ← List.append_assoc, ← withId_append]
        rfl

theorem Holds.sorted (h : Holds ops l) : Sorted l := by
  induction h with
  | start => exact List.Pairwise.nil
  | insert data _ ih => exact ih.insertLast
  | delete d _ ih => exact ih.sublist (.append_left (List.sublist_cons_self d _) _)
  | absent _ _ _ ih => exact ih
  | balance _ ih => exact ih

theorem inserted_append (ops ops' : List Op) :
    inserted (ops ++ ops') = inserted ops ++ inserted ops' := List.filterMap_append

/-- The records with one id are in the order in which they came in. -/
theorem Holds.stable (h : Holds ops l) : (withId id l).Sublist (withId id (inserted ops)) := by
  induction h with
  | start => exact .refl _
  | insert data h ih =>
      rw [withId_insertLast h.sorted, inserted_append, withId_append]
      exact ih.append_right _
  | @delete _ before after d _ ih =>
      rw [inserted_append, withId_append (l := inserted _)]
      have fewer := ((List.sublist_cons_self d after).append_left before).filter (·.id = id)
      exact (fewer.trans ih).trans (List.sublist_append_left _ _)
  | absent _ _ _ ih =>
      rw [inserted_append, withId_append]
      exact ih.trans (List.sublist_append_left _ _)
  | balance _ ih =>
      rw [inserted_append, withId_append]
      exact ih.trans (List.sublist_append_left _ _)

/-! ## The tree -/

theorem insertTree_inorder {t : Node} (sorted : Sorted (inorder t)) :
    inorder (insertTree true t data).1 = insertLast data (inorder t) ∧
      (insertTree true t data).2 = 0 := by
  induction t with
  | nil => exact ⟨rfl, rfl⟩
  | node d l r ihl ihr =>
      obtain ⟨left, right, below, _⟩ := sorted_append_cons.mp sorted
      simp only [insertTree]
      split
      · next high =>
        refine ⟨?_, (ihr right).2⟩
        have low : ∀ e ∈ inorder l ++ [d], e.id ≤ data.id := fun e mem => by
          rcases List.mem_append.mp mem with mem | mem
          · exact (below e mem).trans high
          · rw [List.mem_singleton.mp mem]
            exact high
        rw [inorder_node, inorder_node, List.append_cons, List.append_cons _ _ (inorder r),
          (ihr right).1, insertLast_append low]
      · next low =>
        refine ⟨?_, (ihl left).2⟩
        rw [inorder_node, inorder_node, (ihl left).1,
          insertLast_append_cons (Int.not_le.mp low)]

/-- A search finds a record with the id if there is one. -/
theorem searchTree_eq_none {t : Node} (sorted : Sorted (inorder t)) :
    (searchTree t id = none ↔ ∀ d ∈ inorder t, d.id ≠ id) ∧
      ∀ d, searchTree t id = some d → d ∈ inorder t ∧ d.id = id := by
  induction t with
  | nil => simp [searchTree]
  | node d l r ihl ihr =>
      obtain ⟨left, right, below, above⟩ := sorted_append_cons.mp sorted
      rw [searchTree]
      split
      · next here =>
        refine ⟨iff_of_false (by simp) fun absent => absent d (by simp) here, fun e found => ?_⟩
        cases found
        exact ⟨by simp, here⟩
      · next other =>
        split
        · next high =>
          refine ⟨(ihl left).1.trans ⟨fun absent e mem => ?_, fun absent e mem =>
            absent e (by simp [mem])⟩, fun e found => ?_⟩
          · rcases List.mem_append.mp mem with mem | mem
            · exact absent e mem
            · rcases List.mem_cons.mp mem with rfl | mem
              · exact other
              · have := above e mem
                omega
          · obtain ⟨mem, same⟩ := (ihl left).2 e found
            exact ⟨by simp [mem], same⟩
        · next low =>
          refine ⟨(ihr right).1.trans ⟨fun absent e mem => ?_, fun absent e mem =>
            absent e (by simp [mem])⟩, fun e found => ?_⟩
          · rcases List.mem_append.mp mem with mem | mem
            · have := below e mem
              omega
            · rcases List.mem_cons.mp mem with rfl | mem
              · exact other
              · exact absent e mem
          · obtain ⟨mem, same⟩ := (ihr right).2 e found
            exact ⟨by simp [mem], same⟩

theorem inorder_deleteRoot (l r : Node) : inorder (deleteRoot l r) = inorder l ++ inorder r := by
  cases r with
  | nil => rw [deleteRoot, inorder_nil, List.append_nil]
  | node d rl rr => rw [deleteRoot, inorder_hangLeft]

/-- A deletion takes out one record with the id, if there is one. -/
theorem deleteTree_inorder {t : Node} (sorted : Sorted (inorder t)) (id : Int) :
    (∃ before d after, d.id = id ∧ inorder t = before ++ d :: after ∧
        inorder (deleteTree t id).1 = before ++ after) ∨
      inorder (deleteTree t id).1 = inorder t ∧ ∀ d ∈ inorder t, d.id ≠ id := by
  induction t with
  | nil => exact .inr ⟨rfl, by simp⟩
  | node d l r ihl ihr =>
      obtain ⟨left, right, below, above⟩ := sorted_append_cons.mp sorted
      rw [deleteTree]
      split
      · next here => exact .inl ⟨inorder l, d, inorder r, here, rfl, inorder_deleteRoot l r⟩
      · next other =>
        split
        · next low =>
          rcases ihr right with ⟨before, e, after, same, old, new⟩ | ⟨unchanged, absent⟩
          · exact .inl ⟨inorder l ++ d :: before, e, after, same, by simp [old], by simp [new]⟩
          · refine .inr ⟨by rw [inorder_node, inorder_node, unchanged], fun e mem => ?_⟩
            rcases List.mem_append.mp mem with mem | mem
            · have := below e mem
              omega
            · rcases List.mem_cons.mp mem with rfl | mem
              · exact other
              · exact absent e mem
        · next high =>
          rcases ihl left with ⟨before, e, after, same, old, new⟩ | ⟨unchanged, absent⟩
          · exact .inl ⟨before, e, after ++ d :: inorder r, same, by simp [old], by simp [new]⟩
          · refine .inr ⟨by rw [inorder_node, inorder_node, unchanged], fun e mem => ?_⟩
            rcases List.mem_append.mp mem with mem | mem
            · exact absent e mem
            · rcases List.mem_cons.mp mem with rfl | mem
              · exact other
              · have := above e mem
                omega

/-! ## Runs -/

/-- One operation; `malloc` succeeds. -/
def step (fuel : Nat) (root : Node) : Op → Option Node
  | .insert data => some (insertTree true root data).1
  | .delete id => some (deleteTree root id).1
  | .balance => balanceTree fuel root

theorem step_holds {fuel : Nat} {t : Node} (op : Op) (h : Holds ops (inorder t))
    (size : t.numNodes ≤ ops.length) (enough : ops.length ≤ fuel) :
    ∃ u, step fuel t op = some u ∧ Holds (ops ++ [op]) (inorder u) ∧
      u.numNodes ≤ (ops ++ [op]).length := by
  rw [← length_inorder] at size
  rw [List.length_append, List.length_singleton]
  cases op with
  | insert data =>
      have shape : inorder (insertTree true t data).1 = insertLast data (inorder t) :=
        (insertTree_inorder h.sorted).1
      refine ⟨_, rfl, by rw [shape]; exact .insert data h, ?_⟩
      rw [← length_inorder, shape, insertLast_perm.length_eq, List.length_cons]
      omega
  | delete id =>
      refine ⟨_, rfl, ?_⟩
      rcases deleteTree_inorder h.sorted id with
        ⟨before, d, after, rfl, old, new⟩ | ⟨unchanged, absent⟩
      · refine ⟨by rw [new]; exact .delete d (old ▸ h), ?_⟩
        rw [old] at size
        rw [← length_inorder, new]
        simp only [List.length_append, List.length_cons] at size ⊢
        omega
      · refine ⟨by rw [unchanged]; exact .absent id h absent, ?_⟩
        rw [← length_inorder, unchanged]
        omega
  | balance =>
      obtain ⟨spare, rfl⟩ := Nat.exists_eq_add_of_le ((length_inorder t ▸ size).trans enough)
      obtain ⟨u, balanced, same, _⟩ := balanceTree_level t spare
      refine ⟨u, balanced, by rw [same]; exact .balance h, ?_⟩
      rw [← length_inorder, same]
      omega

theorem run_holds {fuel : Nat} (ops : List Op) (enough : ops.length ≤ fuel) :
    ∃ t, run (step fuel) .nil ops = some t ∧ Holds ops (inorder t) ∧ t.numNodes ≤ ops.length := by
  induction ops using List.reverseRecOn with
  | nil => exact ⟨.nil, rfl, .start, le_rfl⟩
  | append_singleton ops op ih =>
      rw [List.length_append, List.length_singleton] at enough
      obtain ⟨t, ran, h, size⟩ := ih (Nat.le_of_succ_le enough)
      obtain ⟨u, stepped, h', size'⟩ := step_holds op h size (Nat.le_of_succ_le enough)
      exact ⟨u, run_concat_eq_some.mpr ⟨t, ran, stepped⟩, h', size'⟩

end Shang.Bintree
