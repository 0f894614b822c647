import Shang.Lib.CString
import Shang.Lib.Trie
import Mathlib.Data.List.Induction

/-!
# The dictionary in a retrieval tree

`3.retrieval_tree/tree.c`: a node has a pointer for each letter from `a` to `z`
and a buffer for the description of the word that leads to it. A
`struct NODE *` is a trie, and `insert`, which works on a pointer to the
parent's slot, returns what the slot holds afterwards. `malloc` succeeds; what
it finds in the memory for a node is up to the call and to the depth of the
node.
-/

namespace Shang.Retrieval

open Shang.Lib

def DESC_SIZE : Nat := 256

/-- A buffer of `DESC_SIZE` bytes. -/
abbrev Desc := { buf : List UInt8 // buf.length = DESC_SIZE }

/-- `struct NODE *` -/
abbrev Node := Trie (Fin 26) Desc

/-- A character of a key. -/
abbrev Letter := { c : UInt8 // 97 ≤ c ∧ c ≤ 122 }

/-- `*key - 'a'` -/
def index (c : Letter) : Fin 26 := ⟨c.1.toNat - 97, by
  have low := UInt8.le_iff_toNat_le.mp c.2.1
  have high := UInt8.le_iff_toNat_le.mp c.2.2
  simp only [UInt8.reduceToNat] at low high
  omega⟩

/-- `find(root, key)` -/
def find : Node → List Letter → Node
  | .null, _ => .null
  | root, [] => root
  | .node ch _, c :: key => find (ch (index c)) key

/-- The buffer of a new node, where `malloc` finds `block` in its memory. -/
def blank (block : Desc) : Desc := ⟨block.1.set 0 0, by rw [List.length_set, block.2]⟩

/-- `newnode()`: the fields of the node. -/
def newnode (block : Desc) : (Fin 26 → Node) × Desc := (fun _ => .null, blank block)

/-- A string for `strcpy` into a buffer. -/
abbrev Text := { desc : List UInt8 // desc.length < DESC_SIZE ∧ 0 ∉ desc }

/-- `strcpy(buf, desc)` -/
def strcpy (buf : Desc) (desc : Text) : Desc :=
  ⟨splice buf.1 0 (desc.1 ++ [0]), by
    rw [length_splice, buf.2]
    rw [List.length_append, List.length_singleton, buf.2]
    have := desc.2.1
    omega⟩

/-- `insert(&root, key, desc)`, with what `malloc` finds for a new node at each depth. -/
def insert (memory : Nat → Desc) (root : Node) (key : List Letter) (desc : Text) : Node :=
  let (ch, buf) :=
    match root with
    | .null => newnode (memory 0)
    | .node ch buf => (ch, buf)
  match key with
  | [] => .node ch (strcpy buf desc)
  | c :: key =>
      .node (Function.update ch (index c)
        (insert (fun depth => memory (depth + 1)) (ch (index c)) key desc)) buf

/-! ## One insertion -/

theorem index_injective : Function.Injective index := by
  intro c d same
  have low := UInt8.le_iff_toNat_le.mp c.2.1
  have low' := UInt8.le_iff_toNat_le.mp d.2.1
  have value := Fin.val_eq_of_eq same
  simp only [index, UInt8.reduceToNat] at low low' value
  exact Subtype.ext (UInt8.toNat_inj.mp (by omega))

theorem find_eq (root : Node) (key : List Letter) :
    find root key = root.find (key.map index) := by
  induction key generalizing root with
  | nil => cases root <;> rfl
  | cons c key ih =>
      cases root with
      | null => rfl
      | node ch buf => exact ih (ch (index c))

theorem insert_eq (memory : Nat → Desc) (root : Node) (key : List Letter) (desc : Text) :
    insert memory root key desc =
      root.upsert (fun buf => strcpy buf desc) (fun depth => blank (memory depth))
        (key.map index) := by
  induction key generalizing root memory with
  | nil => cases root <;> rfl
  | cons c key ih =>
      cases root with
      | null =>
          rw [insert, List.map_cons, Trie.upsert]
          dsimp only [newnode]
          rw [ih]
      | node ch buf =>
          rw [insert, List.map_cons, Trie.upsert, ih]

/-- The string in the buffer of a node, if there is one. -/
def text (root : Node) : Option (List UInt8) := root.val?.map fun buf => cstr buf.1 0

theorem cstr_blank (block : Desc) : cstr (blank block).1 0 = [] := by
  obtain ⟨block, size⟩ := block
  cases block with
  | nil => cases size
  | cons b block => rfl

/-- What `find` finds after one insertion. -/
theorem text_find_insert (memory : Nat → Desc) (root : Node) (key k : List Letter) (desc : Text) :
    text (find (insert memory root key desc) k) =
      if k = key then some desc.1
      else if k <+: key then some ((text (find root k)).getD [])
      else text (find root k) := by
  have same : k.map index = key.map index ↔ k = key :=
    (List.map_injective_iff.mpr index_injective).eq_iff
  have beginning : k.map index <+: key.map index ↔ k <+: key := by
    rw [List.prefix_map_iff_of_injective index_injective]
  rw [text, find_eq, insert_eq, Trie.val?_find_upsert]
  simp only [same, beginning]
  split
  · exact congrArg some (cstr_strcpy desc.2.2)
  · split
    · rw [Option.map_some, text, find_eq]
      cases (root.find (k.map index)).val? with
      | none => exact congrArg some (cstr_blank _)
      | some buf => rfl
    · rw [text, find_eq]

/-! ## Every history -/

/-- A call of `insert`. -/
structure Insertion where
  key : List Letter
  desc : Text
  memory : Nat → Desc

/-- The tree after some insertions into the empty one. -/
def build (history : List Insertion) : Node :=
  history.foldl (fun root e => insert e.memory root e.key e.desc) .null

/-- The description that was inserted last for the key `k`, or the empty string. -/
def described (history : List Insertion) (k : List Letter) : List UInt8 :=
  ((history.filter fun e => e.key = k).getLast?.map fun e => e.desc.1).getD []

theorem described_append (history : List Insertion) (e : Insertion) (k : List Letter) :
    described (history ++ [e]) k = if k = e.key then e.desc.1 else described history k := by
  unfold described
  rw [List.filter_append]
  split
  · next here =>
      subst here
      simp
  · next other =>
      have none_ : [e].filter (fun e => e.key = k) = [] := by
        simpa using fun eq => other eq.symm
      rw [none_, List.append_nil]

theorem described_of_not_mem {history : List Insertion} {k : List Letter}
    (new : ∀ e ∈ history, ¬ k <+: e.key) : described history k = [] := by
  have none_ : history.filter (fun e => e.key = k) = [] := by
    rw [List.filter_eq_nil_iff]
    intro e mem here
    exact new e mem (of_decide_eq_true here ▸ List.prefix_rfl)
  rw [described, none_]
  rfl

theorem text_find_build (history : List Insertion) (k : List Letter) :
    text (find (build history) k) =
      if ∃ e ∈ history, k <+: e.key then some (described history k) else none := by
  induction history using List.reverseRecOn with
  | nil => simp [build, find, text]
  | append_singleton history e ih =>
      have grown : build (history ++ [e]) = insert e.memory (build history) e.key e.desc := by
        rw [build, List.foldl_append]
        rfl
      have last : k <+: e.key → ∃ e' ∈ history ++ [e], k <+: e'.key :=
        fun passed => ⟨e, List.mem_append_right _ List.mem_cons_self, passed⟩
      rw [grown, text_find_insert, described_append, ih]
      by_cases here : k = e.key
      · rw [if_pos here, if_pos here, if_pos (last (here ▸ List.prefix_rfl))]
      · rw [if_neg here, if_neg here]
        by_cases passed : k <+: e.key
        · rw [if_pos passed, if_pos (last passed)]
          by_cases known : ∃ e' ∈ history, k <+: e'.key
          · rw [if_pos known, Option.getD_some]
          · have new : ∀ e' ∈ history, ¬ k <+: e'.key := by simpa using known
            rw [if_neg known, Option.getD_none, described_of_not_mem new]
        · have older : (∃ e' ∈ history ++ [e], k <+: e'.key) ↔ ∃ e' ∈ history, k <+: e'.key := by
            simp [or_and_right, exists_or, passed]
          rw [if_neg passed]
          simp only [older]

/-- A query finds nothing if no inserted key begins with it, and otherwise a node with the
description inserted last for it. -/
theorem find_build (history : List Insertion) (k : List Letter) :
    (find (build history) k = .null ↔ ∀ e ∈ history, ¬ k <+: e.key) ∧
      ∀ ch buf, find (build history) k = .node ch buf → cstr buf.1 0 = described history k := by
  have found := text_find_build history k
  constructor
  · have empty : find (build history) k = .null ↔ text (find (build history) k) = none := by
      rw [text, Option.map_eq_none_iff, Trie.val?_eq_none]
    rw [empty, found]
    simp
  · intro ch buf node
    rw [node] at found
    have some_ : some (cstr buf.1 0) = _ := found
    split at some_
    · exact Option.some.inj some_
    · cases some_

end Shang.Retrieval
