import Shang.Llist.Llist

/-!
# The linked stack of `linkstack.c`

A `STACK` is an `LLIST` of `llist.c`, a circle of nodes as in the other list
library, whose elements are `size` bytes each. `push_stack` inserts in front and
the others look at the first node. `ByteStack` is the list of the elements, the
top first, and the functions on it are what the programs that use a stack are
modelled with; the theorems at the end say that the pointers do the same.

A variable that a function writes to is the list of its bytes. `pop_stack` and
`get_top` write `size` bytes to it, whatever its own size is, and leave it alone
when the stack is empty. `calloc` succeeds.
-/

namespace Shang.LinkStack

open Shang.Llist

/-- `status_t` -/
inductive Status
  | FAIL
  | OK
  deriving DecidableEq

/-- `way_t` -/
inductive Way
  | FRONT
  | REAR
  deriving DecidableEq

/-- `memcpy(mem, elem, size)` for an element of `size` bytes. -/
def overwrite (mem elem : List UInt8) : List UInt8 := elem ++ mem.drop elem.length

/-! ## The list with its pointers -/

/-- `insert_llist(ptr, data, way)`, where `calloc` returns the node `q`. -/
def insertLlist (ptr : InnerLlist) (data : List UInt8) (way : Way) (q : Ptr) : InnerLlist :=
  let s := (ptr.alloc q).setData q data
  let s :=
    match way with
    | .FRONT =>
        let s := s.setPrev q s.head
        s.setNext q (s.next s.head)
    | .REAR =>
        let s := s.setPrev q (s.prev s.head)
        s.setNext q s.head
  let s := s.setNext (s.prev q) q
  s.setPrev (s.next q) q

/-- The loop of `fetch_llist` with `cmp` given the key; fuel bounds its rounds. -/
def fetchLoop (ptr : InnerLlist) (cmp : List UInt8 → Int) : Nat → Ptr → Option (Option Ptr)
  | 0, _ => none
  | fuel + 1, tmp =>
      if tmp = ptr.head then some none
      else if cmp (ptr.data tmp) = 0 then some (some tmp)
      else fetchLoop ptr cmp fuel (ptr.next tmp)

/-- `fetch_llist(ptr, key, data, cmp)`, with the bytes of the variable behind `data`. -/
def fetchLlist (fuel : Nat) (ptr : InnerLlist) (mem : List UInt8) (cmp : List UInt8 → Int) :
    Option (InnerLlist × Status × List UInt8) := do
  match ← fetchLoop ptr cmp fuel (ptr.next ptr.head) with
  | none => some (ptr, .FAIL, mem)
  | some tmp =>
      let mem := overwrite mem (ptr.data tmp)
      let s ← (ptr.unlink tmp).free tmp
      some (s, .OK, mem)

/-- `get_firstnode(ptr, data)` -/
def getFirstnode (ptr : InnerLlist) (mem : List UInt8) : Status × List UInt8 :=
  if ptr.next ptr.head = ptr.head then (.FAIL, mem)
  else (.OK, overwrite mem (ptr.data (ptr.next ptr.head)))

/-- `empty_llist(ptr)` -/
def emptyLlist (ptr : InnerLlist) : Bool :=
  ptr.next ptr.head = ptr.head && ptr.prev ptr.head = ptr.head

/-- `always` -/
def always (_ : List UInt8) : Int := 0

/-! ## The stack -/

/-- The elements of a stack, the top first. -/
structure ByteStack where
  size : Nat
  elems : List (List UInt8)
  deriving DecidableEq

/-- `init_stack(size)` -/
def initStack (size : Nat) : ByteStack := ⟨size, []⟩

/-- `push_stack(s, data)`, where `mem` is what is stored from `data` on. -/
def pushStack (s : ByteStack) (mem : List UInt8) : ByteStack :=
  { s with elems := mem.take s.size :: s.elems }

/-- `pop_stack(s, data)` -/
def popStack (s : ByteStack) (mem : List UInt8) : ByteStack × Status × List UInt8 :=
  match s.elems with
  | [] => (s, .FAIL, mem)
  | elem :: elems => ({ s with elems := elems }, .OK, overwrite mem elem)

/-- `get_top(s, data)` -/
def getTop (s : ByteStack) (mem : List UInt8) : Status × List UInt8 :=
  match s.elems with
  | [] => (.FAIL, mem)
  | elem :: _ => (.OK, overwrite mem elem)

/-- `empty_stack(s)` -/
def emptyStack (s : ByteStack) : Bool := s.elems.isEmpty

/-- The character in a variable of type `char`. -/
def char (mem : List UInt8) : UInt8 := mem.headD 0

/-! ### Stacks of characters -/

/-- A stack of `sizeof(char)` with these characters. -/
def chars (cs : List UInt8) : ByteStack := ⟨1, cs.map fun c => [c]⟩

variable {c x : UInt8} {cs mem : List UInt8}

@[simp] theorem initStack_chars : initStack 1 = chars [] := rfl

@[simp] theorem pushStack_chars : pushStack (chars cs) (c :: mem) = chars (c :: cs) := rfl

@[simp] theorem popStack_chars_nil : popStack (chars []) mem = (chars [], .FAIL, mem) := rfl

@[simp] theorem popStack_chars_cons :
    popStack (chars (c :: cs)) (x :: mem) = (chars cs, .OK, c :: mem) := rfl

@[simp] theorem getTop_chars_nil : getTop (chars []) mem = (.FAIL, mem) := rfl

@[simp] theorem getTop_chars_cons : getTop (chars (c :: cs)) (x :: mem) = (.OK, c :: mem) := rfl

@[simp] theorem emptyStack_chars : emptyStack (chars cs) = cs.isEmpty := by
  cases cs <;> rfl

/-! ## The pointers implement the stack -/

variable {ptr : InnerLlist} {l : Elems} {s : ByteStack}

/-- The nodes of the list carry the elements of the stack. -/
structure Implements (ptr : InnerLlist) (l : Elems) (s : ByteStack) : Prop where
  rep : Rep ptr l
  size : s.size = ptr.size
  elems : s.elems = l.map Prod.snd

theorem implements_init {size : Nat} {head : Ptr} {nodes : Ptr → Node} (nonnull : head ≠ 0) :
    Implements (InnerLlist.creat size head nodes) [] (initStack size) where
  rep := creat_rep nonnull
  size := rfl
  elems := rfl

/-- A node that is not in use. -/
structure Fresh (ptr : InnerLlist) (q : Ptr) : Prop where
  nonnull : q ≠ 0
  offHead : q ≠ ptr.head
  offLive : q ∉ ptr.live

/-- `push_stack` is `insert_llist` in front. -/
theorem Implements.push {q : Ptr} (h : Implements ptr l s) (fresh : Fresh ptr q)
    (data : List UInt8) :
    Implements (insertLlist ptr data .FRONT q) ((q, data.take ptr.size) :: l)
      (pushStack s data) := by
  obtain ⟨rep, size, elems⟩ := h
  have first := rep.circle.first
  have linked : Rep (insertLlist ptr data .FRONT q) ([] ++ (q, data.take ptr.size) :: l) := by
    rw [← List.nil_append l] at rep
    apply rep.link fresh.nonnull fresh.offHead fresh.offLive rfl first
    all_goals simp [insertLlist, fresh.offHead]
  exact ⟨linked, size, by rw [pushStack, size, elems]; rfl⟩

/-- The first node behind the head. -/
theorem Implements.first {e : Ptr × List UInt8} (h : Implements ptr (e :: l) s) :
    ptr.next ptr.head = e.1 ∧ e.1 ≠ ptr.head ∧ ptr.data e.1 = e.2 := by
  have rep : Rep ptr ([] ++ e :: l) := h.rep
  have walk := rep.walk
  exact ⟨h.rep.circle.first, walk.1, walk.2.2.1⟩

/-- `pop_stack` is `fetch_llist` with `always`: one round is enough. -/
theorem Implements.pop {fuel : Nat} (h : Implements ptr l s) (mem : List UInt8) :
    ∃ t, fetchLlist (fuel + 1) ptr mem always =
        some (t, (popStack s mem).2.1, (popStack s mem).2.2) ∧
      Implements t l.tail (popStack s mem).1 := by
  unfold popStack
  rw [h.elems]
  cases l with
  | nil =>
      have alone : ptr.next ptr.head = ptr.head := h.rep.circle.first
      refine ⟨ptr, ?_, h⟩
      simp [fetchLlist, fetchLoop, alone]
  | cons e l =>
      obtain ⟨first, other, stored⟩ := h.first
      have rep : Rep ptr ([] ++ e :: l) := h.rep
      obtain ⟨t, freed, -, size, rep'⟩ := rep.unlink
      refine ⟨t, ?_, rep', h.size.trans size.symm, rfl⟩
      simp [fetchLlist, fetchLoop, first, other, always, freed, stored]

/-- `get_top` is `get_firstnode`. -/
theorem Implements.top (h : Implements ptr l s) (mem : List UInt8) :
    getFirstnode ptr mem = getTop s mem := by
  unfold getTop
  rw [h.elems]
  cases l with
  | nil =>
      have alone : ptr.next ptr.head = ptr.head := h.rep.circle.first
      simp [getFirstnode, alone]
  | cons e l =>
      obtain ⟨first, other, stored⟩ := h.first
      simp [getFirstnode, first, other, stored]

/-- `empty_stack` is `empty_llist`. -/
theorem Implements.empty (h : Implements ptr l s) : emptyLlist ptr = emptyStack s := by
  rw [emptyStack, h.elems]
  cases l with
  | nil =>
      have alone : ptr.next ptr.head = ptr.head := h.rep.circle.first
      have alone' : ptr.prev ptr.head = ptr.head := h.rep.circle.last
      simp [emptyLlist, alone, alone']
  | cons e l =>
      obtain ⟨first, other, -⟩ := h.first
      simp [emptyLlist, first, other]

end Shang.LinkStack
