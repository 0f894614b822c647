import Shang.Btree.Tree
import Shang.Lib.Arith
import Shang.Llist.Queue

/-!
# Level-order traversal of the tree of records

`travel_level` of the tree program `1.btree`, on the nodes in memory and with the
queue on the linked list. The elements of the queue are the bytes of pointers.

The queue always holds the rest of one row of the tree and the beginning of the
next one. Working off the rest of the row prints it and leaves the whole next row,
`travelLoop_row`, so the rows are printed one after the other.
-/

namespace Shang.Btree

open Shang.Lib Shang.Lib.Tree
open Shang.Llist (InnerLlist Node Ptr)
open Shang.Queue

/-- `BT_NODE`, in memory. -/
structure Cell where
  data : SC
  left : Ptr
  right : Ptr

/-- What `malloc` returns when it is called for a node of this list, after so many other calls. It
succeeds: the address is not in use. -/
structure Malloc where
  next : Nat → InnerLlist → Ptr
  fresh : ∀ n s, next n s ≠ 0 ∧ next n s ≠ s.head ∧ next n s ∉ s.live

/-- `if (p) q_enqueue(me, &p)`, after `n` calls of `malloc`; a pointer has `w` bytes. -/
def enqueue (w : Nat) (malloc : Malloc) (p : Ptr) (me : InnerLlist × Nat) : InnerLlist × Nat :=
  if p ≠ 0 then ((qEnqueue me.1 (wordBytes w p) (malloc.next me.2 me.1)).1, me.2 + 1) else me

/-- The loop of `travel_level`: the nodes whose data is printed, and the queue in the end. `none` is
a `NULL` that is dereferenced or a lack of fuel. -/
def travelLoop (w : Nat) (malloc : Malloc) (mem : Ptr → Cell) :
    Nat → InnerLlist × Nat → Option (List Ptr × InnerLlist)
  | 0, _ => none
  | fuel + 1, (me, n) => do
      let (me, ret, re) ← qDequeue (fuel + 1) me
      if ret = 0 then some ([], me)
      else
        let cur ← re.map wordOf
        if cur = 0 then none
        else
          let me := enqueue w malloc (mem cur).left (me, n)
          let me := enqueue w malloc (mem cur).right me
          let (printed, me) ← travelLoop w malloc mem fuel me
          some (cur :: printed, me)

/-- `travel_level(root)`; the list gets the address `head`. -/
def travelLevel (fuel w : Nat) (malloc : Malloc) (mem : Ptr → Cell) (head : Ptr)
    (nodes : Ptr → Node) (root : Ptr) : Option (List Ptr × InnerLlist) := do
  let me := qCreate w head nodes
  let me := (qEnqueue me (wordBytes w root) (malloc.next 0 me)).1
  let (printed, me) ← travelLoop w malloc mem fuel (me, 1)
  let _ ← qDestroy fuel me
  some (printed, me)

/-! ## Trees in memory -/

/-- The pointer to a tree of addresses. -/
def root : BinaryTree Ptr → Ptr
  | .nil => 0
  | .node p _ _ => p

/-- The nodes of the tree are in memory, and linked like this. -/
def Linked (w : Nat) (mem : Ptr → Cell) : BinaryTree Ptr → Prop
  | .nil => True
  | .node p l r => (p ≠ 0 ∧ p < 256 ^ w) ∧ ((mem p).left = root l ∧ (mem p).right = root r) ∧
      Linked w mem l ∧ Linked w mem r

/-- The pointers to the trees, as they are in the queue. -/
def entries (w : Nat) (ts : List (BinaryTree Ptr)) : List (List UInt8) :=
  ts.map fun t => wordBytes w (root t)

variable {w : Nat} {malloc : Malloc} {mem : Ptr → Cell} {me : InnerLlist × Nat}
  {ts us : List (BinaryTree Ptr)} {t l r : BinaryTree Ptr} {p : Ptr} {fuel : Nat}

/-- A queue of pointers to trees. -/
structure Waits (w : Nat) (mem : Ptr → Cell) (me : InnerLlist) (ts : List (BinaryTree Ptr)) :
    Prop where
  queued : Queued me (entries w ts)
  size : me.size = w
  linked : ∀ t ∈ ts, t ≠ .nil ∧ Linked w mem t

theorem Waits.enqueue (h : Waits w mem me.1 ts) (linked : Linked w mem t) (malloc : Malloc) :
    Waits w mem (enqueue w malloc (root t) me).1 (ts ++ present t) := by
  cases t with
  | nil =>
      rw [present, List.append_nil]
      exact h
  | node p l r =>
      obtain ⟨nonnull, offHead, offLive⟩ := malloc.fresh me.2 me.1
      obtain ⟨s, enqueued, size, queued⟩ :=
        h.queued.enqueue nonnull offHead offLive (wordBytes w p)
      rw [Btree.enqueue, root, if_pos linked.1.1, enqueued]
      rw [List.take_of_length_le (by rw [length_wordBytes, h.size])] at queued
      refine ⟨?_, size.trans h.size, fun u mem => ?_⟩
      · rw [entries, List.map_append]
        exact queued
      · rcases List.mem_append.mp mem with mem | mem
        · exact h.linked u mem
        · rw [List.mem_singleton.mp mem]
          exact ⟨by simp, linked⟩

/-- One round: the first node is printed, and its children join the queue. -/
theorem travelLoop_node (h : Waits w mem me.1 (.node p l r :: ts)) (malloc : Malloc)
    (fuel : Nat) :
    ∃ me', travelLoop w malloc mem (fuel + 1) me =
        (travelLoop w malloc mem fuel me').map (fun o => (p :: o.1, o.2)) ∧
      Waits w mem me'.1 (ts ++ children (.node p l r)) := by
  obtain ⟨q, n⟩ := me
  obtain ⟨s, dequeued, size, queued⟩ := h.queued.dequeue_cons fuel
  obtain ⟨-, ⟨nonnull, small⟩, ⟨left, right⟩, linkedL, linkedR⟩ := h.linked _ List.mem_cons_self
  have rest : Waits w mem s ts :=
    ⟨queued, size.trans h.size, fun t mem => h.linked t (List.mem_cons_of_mem _ mem)⟩
  have one : Waits w mem (Btree.enqueue w malloc (root l) (s, n)).1 (ts ++ present l) :=
    Waits.enqueue rest linkedL malloc
  refine ⟨Btree.enqueue w malloc (root r) (Btree.enqueue w malloc (root l) (s, n)), ?_, ?_⟩
  · have read : wordOf (wordBytes w (root (.node p l r))) = p := wordOf_wordBytes small
    rw [travelLoop, dequeued]
    simp only [Option.bind_eq_bind, Option.bind_some, Option.map_some, read, left, right,
      if_neg nonnull, if_neg (show (1 : Int) ≠ 0 by decide)]
    exact Option.map_eq_bind.symm
  · rw [children, ← List.append_assoc]
    exact one.enqueue linkedR malloc

/-- The rest of a row is printed, and the next row is in the queue then. -/
theorem travelLoop_row (h : Waits w mem me.1 (ts ++ us)) (malloc : Malloc) (fuel : Nat) :
    ∃ me', travelLoop w malloc mem (ts.length + fuel) me =
        (travelLoop w malloc mem fuel me').map
          (fun o => (ts.flatMap (row · 0) ++ o.1, o.2)) ∧
      Waits w mem me'.1 (us ++ ts.flatMap children) := by
  induction ts generalizing me us with
  | nil =>
      refine ⟨me, ?_, by simpa using h⟩
      simp
  | cons t ts ih =>
      rcases t with _ | ⟨p, l, r⟩
      · exact absurd rfl (h.linked _ List.mem_cons_self).1
      obtain ⟨me₁, node, waits₁⟩ := travelLoop_node h malloc (ts.length + fuel)
      have later : Waits w mem me₁.1 (ts ++ (us ++ children (.node p l r))) := by
        rw [← List.append_assoc]
        exact waits₁
      obtain ⟨me₂, row, waits₂⟩ := ih later
      refine ⟨me₂, ?_, by simpa using waits₂⟩
      rw [List.length_cons, Nat.add_right_comm, node, row, Option.map_map]
      rfl

/-- The nodes of a row, and those below it. -/
theorem weight_row (present : ∀ t ∈ ts, t ≠ .nil) :
    weight ts = ts.length + weight (ts.flatMap children) := by
  induction ts with
  | nil => rfl
  | cons t ts ih =>
      rcases t with _ | ⟨p, l, r⟩
      · exact absurd rfl (present _ List.mem_cons_self)
      have rest := ih fun u mem => present u (List.mem_cons_of_mem _ mem)
      have first : weight (.node p l r :: ts) = l.numNodes + r.numNodes + 1 + weight ts := rfl
      rw [first, rest, List.flatMap_cons, weight_append, weight_children, List.length_cons]
      omega

/-- The rows are printed one after the other, until there is none. The induction is on a bound on
the number of rows. -/
theorem travelLoop_rows {high : Nat} (h : Waits w mem me.1 ts) (malloc : Malloc)
    (low : ∀ t ∈ ts, t.height ≤ high) (enough : weight ts < fuel) :
    ∃ s, travelLoop w malloc mem fuel me =
        some ((List.range high).flatMap (fun d => ts.flatMap (row · d)), s) ∧
      Waits w mem s [] := by
  induction high generalizing me ts fuel with
  | zero =>
      rcases ts with _ | ⟨t, ts⟩
      case cons =>
        have flat := low t List.mem_cons_self
        rcases t with _ | ⟨p, l, r⟩
        · exact absurd rfl (h.linked _ List.mem_cons_self).1
        · simp at flat
      obtain ⟨fuel, rfl⟩ : ∃ n, fuel = n + 1 := ⟨fuel - 1, by omega⟩
      refine ⟨me.1, ?_, h⟩
      rw [travelLoop, h.queued.dequeue_nil]
      rfl
  | succ high ih =>
      have heavy := weight_row fun t mem => (h.linked t mem).1
      obtain ⟨fuel, rfl⟩ : ∃ n, fuel = ts.length + n := ⟨fuel - ts.length, by omega⟩
      have whole : Waits w mem me.1 (ts ++ []) := by rwa [List.append_nil]
      obtain ⟨me', round, below⟩ := travelLoop_row whole malloc fuel
      rw [List.nil_append] at below
      have lower : ∀ t ∈ ts.flatMap children, t.height ≤ high := by
        intro t mem
        obtain ⟨u, inRow, child⟩ := List.mem_flatMap.mp mem
        have bound := low u inRow
        rcases u with _ | ⟨p, l, r⟩
        · cases child
        rw [BinaryTree.height] at bound
        rcases (mem_children child).1 with rfl | rfl <;> omega
      have light : weight (ts.flatMap children) < fuel := by omega
      obtain ⟨s, done, empty⟩ := ih below lower light
      refine ⟨s, ?_, empty⟩
      rw [round, done, Option.map_some, List.range_succ_eq_map, List.flatMap_cons, List.flatMap_map]
      simp only [row_succ, List.flatMap_assoc]

/-- Every node is printed once, row after row from the top and from left to right, and the queue is
empty then. -/
theorem travelLevel_rows (malloc : Malloc) {head : Ptr} (nodes : Ptr → Node) (some : t ≠ .nil)
    (linked : Linked w mem t) (apart : (inorder t).Nodup) (nonnull : head ≠ 0)
    (enough : t.numNodes < fuel) :
    ∃ printed s, travelLevel fuel w malloc mem head nodes (root t) = .some (printed, s) ∧
      printed = (List.range t.height).flatMap (row t) ∧ printed.Perm (inorder t) ∧
      printed.Nodup ∧ Queued s [] := by
  rcases t with _ | ⟨p, l, r⟩
  · exact absurd rfl some
  have created : Waits w mem (qCreate w head nodes, 0).1 [] :=
    ⟨queued_create nonnull, rfl, fun t mem => nomatch mem⟩
  have started := created.enqueue linked malloc
  have rooted : root (.node p l r) ≠ 0 := linked.1.1
  rw [Btree.enqueue, if_pos rooted, List.nil_append] at started
  have bound : ∀ t ∈ present (.node p l r), t.height ≤ (BinaryTree.node p l r).height :=
    fun t mem => Nat.le_of_eq (congrArg BinaryTree.height (ne_nil_of_mem_present mem).1)
  have light : weight (present (.node p l r)) < fuel := by
    rw [weight_present]
    exact enough
  obtain ⟨s, printed, empty⟩ := travelLoop_rows started malloc bound light
  simp only [row_present] at printed
  obtain ⟨fuel, rfl⟩ : ∃ n, fuel = n + 1 := ⟨fuel - 1, by omega⟩
  have whole := rows_perm (Nat.le_refl (BinaryTree.node p l r).height)
  refine ⟨_, s, ?_, rfl, whole, whole.nodup_iff.mpr apart, empty.queued⟩
  rw [travelLevel]
  dsimp only
  rw [printed]
  simp only [Option.bind_eq_bind, Option.bind_some, empty.queued.destroy_nil]

/-- Addresses that grow are not in use. -/
def Malloc.growing : Malloc where
  next _ s := (s.head :: s.live).max (List.cons_ne_nil _ _) + 1
  fresh _ s := by
    have small : ∀ p ∈ s.head :: s.live, p < (s.head :: s.live).max (List.cons_ne_nil _ _) + 1 :=
      fun p mem => Nat.lt_succ_of_le (List.le_max_of_mem mem)
    refine ⟨Nat.succ_ne_zero _, fun same => ?_, fun mem => ?_⟩
    · exact Nat.lt_irrefl _ (same ▸ small _ List.mem_cons_self)
    · exact Nat.lt_irrefl _ (small _ (List.mem_cons_of_mem _ mem))

/-- A node with two children, of which the left one has a child on its right. -/
theorem travelLevel_rows_four :
    let mem : Ptr → Cell := fun p =>
      if p = 1 then ⟨⟨1, [], 0, 0⟩, 2, 3⟩
      else if p = 2 then ⟨⟨2, [], 0, 0⟩, 0, 4⟩ else ⟨⟨p, [], 0, 0⟩, 0, 0⟩
    ∃ s, travelLevel 5 8 .growing mem 9 (fun _ => ⟨0, 0, []⟩) 1 = some ([1, 2, 3, 4], s) ∧
      Queued s [] := by
  intro mem
  have linked : Linked 8 mem
      (.node 1 (.node 2 .nil (.node 4 .nil .nil)) (.node 3 .nil .nil)) := by
    simp [Linked, mem, root]
  have nonnull : (9 : Ptr) ≠ 0 := by decide
  obtain ⟨printed, s, run, rfl, -, -, empty⟩ := travelLevel_rows .growing (fun _ => ⟨0, 0, []⟩)
    (by simp) linked (by decide) nonnull (show 4 < 5 by decide)
  exact ⟨s, run, empty⟩

end Shang.Btree
