import Shang.Lib.Tree
import Mathlib.Data.List.Induction

/-!
# Binary trees as generalized lists

`tree_to_glist.c`: `save_` writes a tree to a file as a bracketed list, and
`load_` reads it back. A `BT_NODE *` is a binary tree, `NULL` the empty one, and
an open file is the bytes that are written to it or still to be read from it.

`load_` calls itself on what the call before left of the file, so that a call
comes with the bound that it reads no more than there is. The model keeps the
number of nodes `malloc` can still give and the lines written to `stderr`.
-/

namespace Shang.Glist

open BinaryTree Shang.Lib.Tree

/-- `BT_NODE *` -/
abbrev BtNode := BinaryTree Int

/-! ## The file -/

def EOF : Int := -1

/-- `(` -/
def OPEN : Int := 40

/-- `)` -/
def CLOSE : Int := 41

/-- What a call reads and changes: the rest of the file, the nodes left to `malloc`, and the
lines on `stderr`. -/
structure Io where
  fp : List UInt8
  mem : Nat
  err : List String

/-- `fputc(c, fp)` writes `c` as an `unsigned char`. -/
def fputc (c : Int) (fp : List UInt8) : List UInt8 := fp ++ [UInt8.ofInt c]

/-- `c = fgetc(fp)` -/
def fgetc (io : Io) : Int × Io :=
  match io.fp with
  | [] => (EOF, io)
  | c :: fp => (Int.ofNat c.toNat, { io with fp := fp })

/-- `fprintf(stderr, s)` -/
def complain (io : Io) (s : String) : Io := { io with err := io.err ++ [s] }

@[simp] theorem fgetc_cons (c : UInt8) (fp : List UInt8) (mem : Nat) (err : List String) :
    fgetc ⟨c :: fp, mem, err⟩ = ((c.toNat : Int), ⟨fp, mem, err⟩) := rfl

@[simp] theorem complain_fp (io : Io) (s : String) : (complain io s).fp = io.fp := rfl

theorem fgetc_length_le (io : Io) : (fgetc io).2.fp.length ≤ io.fp.length := by
  unfold fgetc
  split <;> simp_all

theorem fgetc_length_lt {io : Io} (more : (fgetc io).1 ≠ EOF) :
    (fgetc io).2.fp.length < io.fp.length := by
  unfold fgetc at more ⊢
  split <;> simp_all

/-! ## The functions -/

/-- `insert(&root, data)` with the nodes left to `malloc`, and its return value, which the
calls inside ignore. -/
def insert (mem : Nat) : BtNode → Int → Int × Nat × BtNode
  | .nil, data => if mem = 0 then (-1, mem, .nil) else (0, mem - 1, .node data .nil .nil)
  | .node d left right, data =>
      if d ≥ data then
        let (_, mem, left) := insert mem left data
        (0, mem, .node d left right)
      else
        let (_, mem, right) := insert mem right data
        (0, mem, .node d left right)

/-- `save_(root, fp)` -/
def save_ : BtNode → List UInt8 → List UInt8
  | .nil, fp => fputc CLOSE (fputc OPEN fp)
  | .node data left right, fp =>
      fputc CLOSE (save_ right (save_ left (fputc data (fputc OPEN fp))))

/-- `load_(fp)` with the bound on what it leaves of the file, which ends the recursion. -/
def loadWithin (io : Io) : { r : BtNode × Io // r.2.fp.length ≤ io.fp.length } :=
  let first := fgetc io
  have read : first.2.fp.length ≤ io.fp.length := fgetc_length_le io
  if opened : first.1 ≠ OPEN then ⟨(.nil, complain first.2 "format error\n"), read⟩
  else
    have less : first.2.fp.length < io.fp.length :=
      fgetc_length_lt (by rw [not_not.mp opened]; decide)
    let second := fgetc first.2
    have read' : second.2.fp.length ≤ first.2.fp.length := fgetc_length_le first.2
    if second.1 = CLOSE then ⟨(.nil, second.2), Nat.le_trans read' read⟩
    else if second.2.mem = 0 then ⟨(.nil, second.2), Nat.le_trans read' read⟩
    else
      let left := loadWithin { second.2 with mem := second.2.mem - 1 }
      let right := loadWithin left.1.2
      let last := fgetc right.1.2
      have read'' : last.2.fp.length ≤ right.1.2.fp.length := fgetc_length_le right.1.2
      have kept : last.2.fp.length ≤ io.fp.length :=
        Nat.le_trans read'' (Nat.le_trans right.2 (Nat.le_trans left.2 (Nat.le_trans read' read)))
      if last.1 ≠ CLOSE then ⟨(.nil, complain last.2 "format error\n"), kept⟩
      else ⟨(.node second.1 left.1.1 right.1.1, last.2), kept⟩
termination_by io.fp.length
decreasing_by
  · exact Nat.lt_of_le_of_lt read' less
  · exact Nat.lt_of_le_of_lt (Nat.le_trans left.2 read') less

/-- `load_(fp)`: the tree and what is left. -/
def load_ (io : Io) : BtNode × Io := (loadWithin io).1

theorem load_eq (io : Io) :
    load_ io =
      let first := fgetc io
      if first.1 ≠ OPEN then (.nil, complain first.2 "format error\n")
      else
        let second := fgetc first.2
        if second.1 = CLOSE then (.nil, second.2)
        else if second.2.mem = 0 then (.nil, second.2)
        else
          let left := load_ { second.2 with mem := second.2.mem - 1 }
          let right := load_ left.2
          let last := fgetc right.2
          if last.1 ≠ CLOSE then (.nil, complain last.2 "format error\n")
          else (.node second.1 left.1 right.1, last.2) := by
  unfold load_
  rw [loadWithin]
  dsimp only
  split_ifs <;> rfl

/-! ## Reading back what was written -/

theorem save_append (t : BtNode) (fp : List UInt8) : save_ t fp = fp ++ save_ t [] := by
  induction t generalizing fp with
  | nil => simp [save_, fputc]
  | node data left right ihl ihr =>
      simp only [save_, fputc, List.nil_append]
      rw [ihr (save_ left _), ihl (fp ++ [_] ++ [_]), ihr (save_ left _), ihl ([_] ++ [_])]
      simp only [List.append_assoc]

/-- The bytes of a node: its brackets around its datum and its subtrees. -/
theorem save_node (data : Int) (left right : BtNode) :
    save_ (.node data left right) [] =
      40 :: UInt8.ofInt data :: (save_ left [] ++ (save_ right [] ++ [41])) := by
  simp only [save_, fputc, List.nil_append]
  rw [save_append right, save_append left]
  simp only [List.append_assoc]
  rfl

/-- A datum that is a byte is written as this byte. -/
theorem toNat_ofInt {data : Int} (low : 0 ≤ data) (high : data ≤ 255) :
    ((UInt8.ofInt data).toNat : Int) = data := by
  rw [UInt8.ofInt, UInt8.toNat_ofNat']
  omega

/-- `load_` at the bytes of `NULL`. -/
theorem load_null (fp : List UInt8) (mem : Nat) (err : List String) :
    load_ ⟨40 :: 41 :: fp, mem, err⟩ = (.nil, ⟨fp, mem, err⟩) := by
  rw [load_eq]
  rfl

/-- `load_` at a node, from what its calls for the two subtrees read. -/
theorem load_node {c : UInt8} {fp fp₁ fp₂ : List UInt8} {mem mem₁ mem₂ : Nat}
    {err err₁ err₂ : List String} {l r : BtNode} (inner : (c.toNat : Int) ≠ CLOSE)
    (left : load_ ⟨fp, mem, err⟩ = (l, ⟨fp₁, mem₁, err₁⟩))
    (right : load_ ⟨fp₁, mem₁, err₁⟩ = (r, ⟨41 :: fp₂, mem₂, err₂⟩)) :
    load_ ⟨40 :: c :: fp, mem + 1, err⟩ = (.node c.toNat l r, ⟨fp₂, mem₂, err₂⟩) := by
  rw [load_eq]
  have opened : ((40 : UInt8).toNat : Int) = OPEN := rfl
  have closed : ((41 : UInt8).toNat : Int) = CLOSE := rfl
  simp only [fgetc_cons, opened, closed, inner, left, right, ne_eq, not_true_eq_false,
    Nat.add_one_ne_zero, Nat.add_sub_cancel, ↓reduceIte]

/-- A tree is read from its bytes with a node from `malloc` for each of its own. -/
theorem load_bytes (t : BtNode) (bytes : ∀ data ∈ inorder t, 0 ≤ data ∧ data ≤ 255 ∧ data ≠ CLOSE)
    (rest : List UInt8) {mem : Nat} (enough : t.numNodes ≤ mem) (err : List String) :
    load_ ⟨save_ t [] ++ rest, mem, err⟩ = (t, ⟨rest, mem - t.numNodes, err⟩) := by
  induction t generalizing rest mem with
  | nil => exact load_null rest mem err
  | node data left right ihl ihr =>
      simp only [inorder_node, List.mem_append, List.mem_cons] at bytes
      have nodes : (node data left right).numNodes = left.numNodes + right.numNodes + 1 := by
        simp only [numNodes]
      rw [nodes] at enough ⊢
      obtain ⟨mem, rfl⟩ : ∃ m, mem = m + 1 := ⟨mem - 1, by omega⟩
      have ofLeft := ihl (fun d member => bytes d (.inl member)) (save_ right [] ++ 41 :: rest)
        (show left.numNodes ≤ mem by omega)
      have ofRight := ihr (fun d member => bytes d (.inr (.inr member))) (41 :: rest)
        (show right.numNodes ≤ mem - left.numNodes by omega)
      obtain ⟨low, high, inner⟩ := bytes data (.inr (.inl rfl))
      have byte := toNat_ofInt low high
      rw [save_node, Nat.add_sub_add_right, ← Nat.sub_sub]
      simp only [List.cons_append, List.append_assoc, List.nil_append]
      rw [load_node (by rwa [byte]) ofLeft ofRight, byte]

/-- What `save_` wrote is read back as the same tree, and nothing behind it is touched, if
`malloc` can give as many nodes. -/
theorem load_save (t : BtNode) (bytes : ∀ data ∈ inorder t, 0 ≤ data ∧ data ≤ 255 ∧ data ≠ CLOSE)
    (rest : List UInt8) (mem : Nat) (err : List String) :
    load_ ⟨save_ t [] ++ rest, t.numNodes + mem, err⟩ = (t, ⟨rest, mem, err⟩) := by
  rw [load_bytes t bytes rest (Nat.le_add_right _ _) err, Nat.add_sub_cancel_left]

theorem load_save_brackets :
    load_ ⟨save_ (.node 40 (.node 255 .nil .nil) .nil) [] ++ [41, 7], 2, []⟩ =
      (.node 40 (.node 255 .nil .nil) .nil, ⟨[41, 7], 0, []⟩) :=
  load_save (.node 40 (.node 255 .nil .nil) .nil) (by decide) [41, 7] 0 []

/-! ## The trees of `main` -/

/-- `insert` adds no other datum than the given one. -/
theorem mem_insert {mem : Nat} {t : BtNode} {data d : Int}
    (member : d ∈ inorder (insert mem t data).2.2) : d = data ∨ d ∈ inorder t := by
  induction t with
  | nil =>
      simp only [insert] at member
      split at member
      · exact .inr member
      · exact .inl (by simpa using member)
  | node a left right ihl ihr =>
      simp only [insert] at member
      split at member <;> simp only [inorder_node, List.mem_append, List.mem_cons] at member ⊢
      · rcases member with inLeft | rest
        · exact (ihl inLeft).imp_right .inl
        · exact .inr (.inr rest)
      · rcases member with inLeft | here | inRight
        · exact .inr (.inl inLeft)
        · exact .inr (.inr (.inl here))
        · exact (ihr inRight).imp_right fun old => .inr (.inr old)

/-- The tree `main` builds from the characters `arr`, with the nodes left to `malloc`. -/
def build (arr : List Int) (mem : Nat) : Nat × BtNode :=
  arr.foldl (fun s data => (insert s.1 s.2 data).2) (mem, .nil)

theorem mem_build {arr : List Int} {mem : Nat} {d : Int}
    (member : d ∈ inorder (build arr mem).2) : d ∈ arr := by
  induction arr using List.reverseRecOn with
  | nil => simp [build] at member
  | append_singleton arr data ih =>
      simp only [build, List.foldl_append, List.foldl_cons, List.foldl_nil] at member
      rcases mem_insert member with rfl | old
      · simp
      · exact List.mem_append_left _ (ih old)

/-- `main` draws the same tree twice. -/
theorem load_save_build {arr : List Int}
    (bytes : ∀ data ∈ arr, 0 ≤ data ∧ data ≤ 255 ∧ data ≠ CLOSE) (mem left : Nat)
    (err : List String) :
    load_ ⟨save_ (build arr mem).2 [], (build arr mem).2.numNodes + left, err⟩ =
      ((build arr mem).2, ⟨[], left, err⟩) := by
  have back := load_bytes (build arr mem).2 (fun d member => bytes d (mem_build member)) []
    (Nat.le_add_right _ left) err
  rwa [List.append_nil, Nat.add_sub_cancel_left] at back

end Shang.Glist
