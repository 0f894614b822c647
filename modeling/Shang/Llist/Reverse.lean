import Shang.Lib.Circle
import Shang.Lib.Nodes
import Mathlib.Data.Finset.Lattice.Fold
import Mathlib.Order.Lattice.Nat

/-!
# Two ways to reverse a list

`llist.c` of `double_linklist/lib2`. Here the lists, their nodes and the buffers for one
element are blocks of one memory. `reverse_llist` fetches the elements from the front,
one after the other, and puts each of them in at the front of a new list; `reverse_r`
fetches the first element, reverses the rest by a call of itself, and puts the element in
at the rear. Both fetch with a comparison that finds everything equal, and so they
always get the first element.
-/

namespace Shang.Llist.Reverse

open Lib Lib.Nodes Lib.Act

/-- The address of a block; `NULL` is 0. -/
abbrev Ptr := Nat

/-- A block of memory, with the links of a node or of the head that a list begins with,
the `size` of a list, and the bytes behind `data`, or all bytes of a buffer. -/
@[ext]
structure Block where
  prev : Ptr
  next : Ptr
  size : Nat
  data : List UInt8

abbrev Memory := Nodes Ptr Block

/-- Where `malloc` finds a block that is not in use. -/
structure Allocator where
  address : Memory → Ptr
  some : ∀ s, address s ≠ 0
  fresh : ∀ s, address s ∉ s.live

inductive Status
  | FAIL
  | OK
  deriving DecidableEq

inductive Way
  | FRONT
  | REAR
  deriving DecidableEq

/-! ## The program -/

def allocate (a : Allocator) : Act Memory Ptr := fun s =>
  .ended (a.address s) (s.add (a.address s) (a.some s))

/-- `malloc(n)`, for a buffer, with whatever is in it. -/
def malloc (a : Allocator) (n : Nat) : Act Memory Ptr := do
  let p ← allocate a
  assign p fun b => { b with data := (b.data ++ List.replicate n 0).take n }
  pure p

/-- `calloc`, with `n` bytes behind what a node begins with. -/
def calloc (a : Allocator) (n : Nat) : Act Memory Ptr := do
  let p ← allocate a
  assign p fun _ => ⟨0, 0, 0, List.replicate n 0⟩
  pure p

/-- `p->next = x` -/
def setNext (p x : Ptr) : Act Memory Unit := assign p fun b => { b with next := x }

/-- `p->prev = x` -/
def setPrev (p x : Ptr) : Act Memory Unit := assign p fun b => { b with prev := x }

/-- `memcpy` of `n` of these bytes to the data of `p`. -/
def memcpy (p : Ptr) (bytes : List UInt8) (n : Nat) : Act Memory Unit := do
  let b ← deref p
  if n ≤ b.data.length ∧ n ≤ bytes.length then
    assign p fun b => { b with data := bytes.take n ++ b.data.drop n }
  else stop

def initLlist (a : Allocator) (size : Nat) : Act Memory Ptr := do
  let me ← calloc a 0
  assign me fun b => { b with size := size }
  setNext me me
  setPrev me me
  pure me

/-- The links of a new node, by the way it comes in. -/
def neighbours (ptr new : Ptr) : Way → Act Memory Unit
  | .FRONT => do
      setPrev new ptr
      let head ← deref ptr
      setNext new head.next
  | .REAR => do
      let head ← deref ptr
      setPrev new head.prev
      setNext new ptr

/-- `new->prev->next = new` and `new->next->prev = new` -/
def linkIn (new : Ptr) : Act Memory Unit := do
  let node ← deref new
  setNext node.prev new
  let node ← deref new
  setPrev node.next new

/-- `insert_llist`, for the bytes at `data`. -/
def insertLlist (a : Allocator) (ptr : Ptr) (data : List UInt8) (way : Way) :
    Act Memory Status := do
  let list ← deref ptr
  let new ← calloc a list.size
  memcpy new data list.size
  neighbours ptr new way
  linkIn new
  pure .OK

/-- `tmp->prev->next = tmp->next` and `tmp->next->prev = tmp->prev` -/
def linkOut (tmp : Ptr) : Act Memory Unit := do
  let node ← deref tmp
  setNext node.prev node.next
  let node ← deref tmp
  setPrev node.next node.prev

/-- What `fetch_llist` does with the node it has found. -/
def takeOut (ptr data tmp : Ptr) : Act Memory Status := do
  let list ← deref ptr
  let node ← deref tmp
  memcpy data node.data list.size
  linkOut tmp
  free tmp
  pure .OK

/-- The loop of `fetch_llist`, with `cmp` given the key. -/
def fetchLoop (ptr data : Ptr) (cmp : List UInt8 → Int) : Nat → Ptr → Act Memory Status
  | 0, _ => spent
  | fuel + 1, tmp =>
      if tmp = ptr then pure .FAIL
      else do
        let node ← deref tmp
        if cmp node.data = 0 then takeOut ptr data tmp
        else fetchLoop ptr data cmp fuel node.next

def fetchLlist (fuel : Nat) (ptr data : Ptr) (cmp : List UInt8 → Int) : Act Memory Status := do
  let list ← deref ptr
  fetchLoop ptr data cmp fuel list.next

def alwayCmp (_ : List UInt8) : Int := 0

/-- `while ((*ptr)->head.next != &(*ptr)->head)` -/
def reverseLoop (a : Allocator) (ptr new data : Ptr) : Nat → Act Memory Unit
  | 0 => spent
  | fuel + 1 => do
      let list ← deref ptr
      if list.next ≠ ptr then do
        let _ ← fetchLlist (fuel + 1) ptr data alwayCmp
        let buffer ← deref data
        let _ ← insertLlist a new buffer.data .FRONT
        reverseLoop a ptr new data fuel
      else pure ()

/-- `reverse_llist(&ptr)`, with what `ptr` is afterwards. -/
def reverseLlist (a : Allocator) (fuel : Nat) (ptr : Ptr) : Act Memory Ptr := do
  let list ← deref ptr
  let new ← initLlist a list.size
  let list ← deref ptr
  let data ← malloc a list.size
  reverseLoop a ptr new data fuel
  free ptr
  pure new

/-- `reverse_r(ptr)` -/
def reverseR (a : Allocator) (ptr : Ptr) : Nat → Act Memory Unit
  | 0 => spent
  | fuel + 1 => do
      let list ← deref ptr
      let data ← malloc a list.size
      let list ← deref ptr
      if list.next = ptr then pure ()
      else do
        let _ ← fetchLlist (fuel + 1) ptr data alwayCmp
        reverseR a ptr fuel
        let buffer ← deref data
        let _ ← insertLlist a ptr buffer.data .REAR
        free data

/-- The loop of `traval_llist`: what `op` is called with. -/
def travalLoop (ptr : Ptr) : Nat → Ptr → Act Memory (List (List UInt8))
  | 0, _ => spent
  | fuel + 1, cur =>
      if cur = ptr then pure []
      else do
        let node ← deref cur
        let rest ← travalLoop ptr fuel node.next
        pure (node.data :: rest)

def travalLlist (fuel : Nat) (ptr : Ptr) : Act Memory (List (List UInt8)) := do
  let list ← deref ptr
  travalLoop ptr fuel list.next

/-- The calls of `insert_llist` on a list. -/
def insertAll (a : Allocator) (ptr : Ptr) : List (List UInt8 × Way) → Act Memory Unit
  | [] => pure ()
  | (data, way) :: calls => do
      let _ ← insertLlist a ptr data way
      insertAll a ptr calls

/-- `init_llist`, and then these calls. -/
def build (a : Allocator) (size : Nat) (calls : List (List UInt8 × Way)) : Act Memory Ptr := do
  let ptr ← initLlist a size
  insertAll a ptr calls
  pure ptr

/-! ## The fields of the blocks -/

/-- `p->next` -/
def next (s : Memory) (p : Ptr) : Ptr := (s.node p).next

/-- `p->prev` -/
def prev (s : Memory) (p : Ptr) : Ptr := (s.node p).prev

/-- `p->size` -/
def size (s : Memory) (p : Ptr) : Nat := (s.node p).size

/-- `p->data` -/
def data (s : Memory) (p : Ptr) : List UInt8 := (s.node p).data

section fields

variable {s t : Memory} {p x : Ptr} {b : Block} {some : p ≠ 0}

@[simp] theorem node_next : (s.node p).next = next s p := rfl

@[simp] theorem node_prev : (s.node p).prev = prev s p := rfl

@[simp] theorem node_size : (s.node p).size = size s p := rfl

@[simp] theorem node_data : (s.node p).data = data s p := rfl

@[simp] theorem next_put : next (s.put p b) = Function.update (next s) p b.next :=
  Function.comp_update Block.next s.node p b

@[simp] theorem prev_put : prev (s.put p b) = Function.update (prev s) p b.prev :=
  Function.comp_update Block.prev s.node p b

@[simp] theorem size_put : size (s.put p b) = Function.update (size s) p b.size :=
  Function.comp_update Block.size s.node p b

@[simp] theorem data_put : data (s.put p b) = Function.update (data s) p b.data :=
  Function.comp_update Block.data s.node p b

@[simp] theorem next_add : next (s.add p some) = next s := rfl

@[simp] theorem prev_add : prev (s.add p some) = prev s := rfl

@[simp] theorem size_add : size (s.add p some) = size s := rfl

@[simp] theorem data_add : data (s.add p some) = data s := rfl

@[simp] theorem next_drop : next (s.drop p) = next s := rfl

@[simp] theorem prev_drop : prev (s.drop p) = prev s := rfl

@[simp] theorem size_drop : size (s.drop p) = size s := rfl

@[simp] theorem data_drop : data (s.drop p) = data s := rfl

/-- What a sequence of assignments has made of the fields. -/
structure Fields (s t : Memory) (n p : Ptr → Ptr) (z : Ptr → Nat) (d : Ptr → List UInt8) :
    Prop where
  live : t.live = s.live
  next : next t = n
  prev : prev t = p
  size : size t = z
  data : data t = d

theorem setNext_ended (live : p ∈ s.live) (x : Ptr) :
    ∃ t, setNext p x s = .ended () t ∧
      Fields s t (Function.update (next s) p x) (prev s) (size s) (data s) :=
  ⟨_, if_pos live, by simp, by simp, by simp, by simp, by simp⟩

theorem setPrev_ended (live : p ∈ s.live) (x : Ptr) :
    ∃ t, setPrev p x s = .ended () t ∧
      Fields s t (next s) (Function.update (prev s) p x) (size s) (data s) :=
  ⟨_, if_pos live, by simp, by simp, by simp, by simp, by simp⟩

/-- A block is as it was if its fields are. -/
theorem node_eq (sameNext : next t p = next s p) (samePrev : prev t p = prev s p)
    (sameSize : size t p = size s p) (sameData : data t p = data s p) : t.node p = s.node p :=
  Block.ext samePrev sameNext sameSize sameData

end fields

/-! ## Allocation and copies -/

section blocks

variable {a : Allocator} {s : Memory} {p q h : Ptr} {n : Nat} {bytes : List UInt8} {way : Way}

theorem malloc_ended (a : Allocator) (s : Memory) (n : Nat) :
    ∃ p t, malloc a n s = .ended p t ∧ p ∈ t.live ∧ (data t p).length = n ∧
      p ∉ s.live ∧ Framed s t [] [p] := by
  refine ⟨a.address s, _, (bind_ended (x := allocate a) rfl).trans (bind_assign ?_ _ _), ?_, ?_,
    a.fresh s, (framed_add (a.fresh s)).trans (framed_put List.mem_cons_self)⟩
  · exact Finset.mem_insert_self _ _
  · exact Finset.mem_insert_self _ _
  · simp

theorem calloc_ended (a : Allocator) (s : Memory) (n : Nat) :
    ∃ p t, calloc a n s = .ended p t ∧ t.live = insert p s.live ∧ p ≠ 0 ∧ p ∉ s.live ∧
      next t = Function.update (next s) p 0 ∧ prev t = Function.update (prev s) p 0 ∧
      size t = Function.update (size s) p 0 ∧
      data t = Function.update (data s) p (List.replicate n 0) := by
  refine ⟨a.address s, _, (bind_ended (x := allocate a) rfl).trans (bind_assign ?_ _ _), ?_,
    a.some s, a.fresh s, ?_, ?_, ?_, ?_⟩
  · exact Finset.mem_insert_self _ _
  all_goals simp

theorem memcpy_ended (live : p ∈ s.live) (room : n ≤ (data s p).length)
    (enough : n ≤ bytes.length) :
    ∃ t, memcpy p bytes n s = .ended () t ∧
      Fields s t (next s) (prev s) (size s)
        (Function.update (data s) p (bytes.take n ++ (data s p).drop n)) := by
  refine ⟨_, (bind_deref live _).trans ((congrFun (if_pos ⟨room, enough⟩) s).trans
    (if_pos live)), ?_, ?_, ?_, ?_, ?_⟩
  all_goals simp

/-- What a new node comes in behind, and before. -/
def leftOf (s : Memory) (h : Ptr) : Way → Ptr
  | .FRONT => h
  | .REAR => prev s h

def rightOf (s : Memory) (h : Ptr) : Way → Ptr
  | .FRONT => next s h
  | .REAR => h

theorem neighbours_ended (way : Way) (headLive : h ∈ s.live) (live : q ∈ s.live) :
    ∃ t, neighbours h q way s = .ended () t ∧
      Fields s t (Function.update (next s) q (rightOf s h way))
        (Function.update (prev s) q (leftOf s h way)) (size s) (data s) := by
  cases way with
  | FRONT =>
      obtain ⟨s₁, ran₁, fields₁⟩ := setPrev_ended live h
      obtain ⟨s₂, ran₂, fields₂⟩ := setNext_ended (fields₁.live ▸ live) (next s₁ h)
      refine ⟨s₂, ?_, fields₂.live.trans fields₁.live, ?_, fields₂.prev.trans fields₁.prev,
        fields₂.size.trans fields₁.size, fields₂.data.trans fields₁.data⟩
      · rw [neighbours, bind_ended ran₁, bind_deref (fields₁.live ▸ headLive)]
        exact ran₂
      · rw [fields₂.next, fields₁.next, rightOf]
  | REAR =>
      obtain ⟨s₁, ran₁, fields₁⟩ := setPrev_ended live (prev s h)
      obtain ⟨s₂, ran₂, fields₂⟩ := setNext_ended (fields₁.live ▸ live) h
      refine ⟨s₂, ?_, fields₂.live.trans fields₁.live, ?_, fields₂.prev.trans fields₁.prev,
        fields₂.size.trans fields₁.size, fields₂.data.trans fields₁.data⟩
      · rw [neighbours, bind_deref headLive]
        exact (bind_ended ran₁).trans ran₂
      · rw [fields₂.next, fields₁.next, rightOf]

theorem linkIn_ended (live : q ∈ s.live) (leftLive : prev s q ∈ s.live)
    (rightLive : next s q ∈ s.live) (ne : prev s q ≠ q) :
    ∃ t, linkIn q s = .ended () t ∧ Fields s t (Function.update (next s) (prev s q) q)
      (Function.update (prev s) (next s q) q) (size s) (data s) := by
  obtain ⟨s₁, ran₁, fields₁⟩ := setNext_ended leftLive q
  have here : next s₁ q = next s q := by rw [fields₁.next, Function.update_of_ne ne.symm]
  obtain ⟨s₂, ran₂, fields₂⟩ := setPrev_ended
    (show next s₁ q ∈ s₁.live by rw [here, fields₁.live]; exact rightLive) q
  refine ⟨s₂, ?_, fields₂.live.trans fields₁.live, fields₂.next.trans fields₁.next, ?_,
    fields₂.size.trans fields₁.size, fields₂.data.trans fields₁.data⟩
  · rw [linkIn, bind_deref live]
    refine (bind_ended ran₁).trans ?_
    rw [bind_deref (fields₁.live ▸ live)]
    exact ran₂
  · rw [fields₂.prev, fields₁.prev, here]

/-- What `insert_llist` does to the fields of the blocks. -/
theorem insertLlist_ended (headLive : h ∈ s.live) (leftLive : leftOf s h way ∈ s.live)
    (rightLive : rightOf s h way ∈ s.live) (enough : size s h ≤ bytes.length) :
    ∃ q t, insertLlist a h bytes way s = .ended .OK t ∧ q ∉ s.live ∧
      t.live = insert q s.live ∧
      next t = Function.update (Function.update (next s) q (rightOf s h way)) (leftOf s h way) q ∧
      prev t = Function.update (Function.update (prev s) q (leftOf s h way)) (rightOf s h way) q ∧
      size t = Function.update (size s) q 0 ∧
      data t = Function.update (data s) q (bytes.take (size s h)) := by
  obtain ⟨q, s₁, allocated, live₁, some, fresh, next₁, prev₁, size₁, data₁⟩ :=
    calloc_ended a s (size s h)
  have old : ∀ {p}, p ∈ s.live → p ≠ q := fun mem => ne_of_mem_of_not_mem mem fresh
  have more : ∀ {p}, p ∈ s.live → p ∈ s₁.live := fun mem => live₁ ▸ Finset.mem_insert_of_mem mem
  have new₁ : q ∈ s₁.live := live₁ ▸ Finset.mem_insert_self q _
  have room : (data s₁ q).length = size s h := by
    rw [data₁, Function.update_self, List.length_replicate]
  obtain ⟨s₂, copied, fields₂⟩ := memcpy_ended new₁ room.ge enough
  have old₂ : ∀ {p}, p ∈ s.live → next s₂ p = next s p ∧ prev s₂ p = prev s p := by
    intro p mem
    rw [fields₂.next, fields₂.prev, next₁, prev₁, Function.update_of_ne (old mem),
      Function.update_of_ne (old mem)]
    exact ⟨rfl, rfl⟩
  have left₂ : leftOf s₂ h way = leftOf s h way := by
    cases way with
    | FRONT => rfl
    | REAR => exact (old₂ headLive).2
  have right₂ : rightOf s₂ h way = rightOf s h way := by
    cases way with
    | FRONT => exact (old₂ headLive).1
    | REAR => rfl
  obtain ⟨s₃, placed, fields₃⟩ := neighbours_ended (s := s₂) (q := q) (h := h) way
    (fields₂.live ▸ more headLive) (fields₂.live ▸ new₁)
  have atLeft : prev s₃ q = leftOf s h way := by
    rw [fields₃.prev, Function.update_self, left₂]
  have atRight : next s₃ q = rightOf s h way := by
    rw [fields₃.next, Function.update_self, right₂]
  have live₃ : s₃.live = insert q s.live := (fields₃.live.trans fields₂.live).trans live₁
  have more₃ : ∀ {p}, p ∈ s.live → p ∈ s₃.live := fun mem => live₃ ▸ Finset.mem_insert_of_mem mem
  obtain ⟨t, linked, fields⟩ := linkIn_ended (s := s₃) (q := q)
    (live₃ ▸ Finset.mem_insert_self q _) (atLeft ▸ more₃ leftLive) (atRight ▸ more₃ rightLive)
    (atLeft ▸ old leftLive)
  refine ⟨q, t, ?_, fresh, fields.live.trans live₃, ?_, ?_, ?_, ?_⟩
  · rw [insertLlist, bind_deref headLive]
    refine (bind_ended allocated).trans ((bind_ended copied).trans ?_)
    exact (bind_ended placed).trans ((bind_ended linked).trans rfl)
  · rw [fields.next, atLeft, fields₃.next, right₂, fields₂.next, next₁, Function.update_idem]
  · rw [fields.prev, atRight, fields₃.prev, left₂, fields₂.prev, prev₁, Function.update_idem]
  · rw [fields.size, fields₃.size, fields₂.size, size₁]
  · have whole : List.drop (size s h) (data s₁ q) = [] := List.drop_eq_nil_of_le room.le
    rw [fields.data, fields₃.data, fields₂.data, whole, List.append_nil, data₁,
      Function.update_idem]

/-- The second assignment reads `tmp->next` after the first one has been made. -/
theorem linkOut_ended (live : q ∈ s.live) (leftLive : prev s q ∈ s.live)
    (rightLive : next s q ∈ s.live) :
    ∃ t, linkOut q s = .ended () t ∧ Fields s t (Function.update (next s) (prev s q) (next s q))
      (Function.update (prev s) (next s q) (prev s q)) (size s) (data s) := by
  obtain ⟨s₁, ran₁, fields₁⟩ := setNext_ended leftLive (next s q)
  have here : next s₁ q = next s q := by
    rw [fields₁.next, Function.update_apply]
    exact ite_id _
  obtain ⟨s₂, ran₂, fields₂⟩ := setPrev_ended
    (show next s₁ q ∈ s₁.live by rw [here, fields₁.live]; exact rightLive) (prev s₁ q)
  refine ⟨s₂, ?_, fields₂.live.trans fields₁.live, fields₂.next.trans fields₁.next, ?_,
    fields₂.size.trans fields₁.size, fields₂.data.trans fields₁.data⟩
  · rw [linkOut, bind_deref live]
    refine (bind_ended ran₁).trans ?_
    rw [bind_deref (fields₁.live ▸ live)]
    exact ran₂
  · rw [fields₂.prev, fields₁.prev, here]

/-- What `fetch_llist` does to the fields of the blocks when it finds the first node. -/
theorem fetchLlist_ended {d : Ptr} (fuel : Nat) (headLive : h ∈ s.live) (some : next s h ≠ h)
    (live : next s h ∈ s.live) (leftLive : prev s (next s h) ∈ s.live)
    (rightLive : next s (next s h) ∈ s.live) (bufferLive : d ∈ s.live)
    (room : (data s d).length = size s h) (length : (data s (next s h)).length = size s h) :
    ∃ t, fetchLlist (fuel + 1) h d alwayCmp s = .ended .OK t ∧
      t.live = s.live.erase (next s h) ∧
      next t = Function.update (next s) (prev s (next s h)) (next s (next s h)) ∧
      prev t = Function.update (prev s) (next s (next s h)) (prev s (next s h)) ∧
      size t = size s ∧ data t = Function.update (data s) d (data s (next s h)) := by
  obtain ⟨s₁, copied, fields₁⟩ := memcpy_ended bufferLive room.ge length.ge
  have live₁ : next s h ∈ s₁.live := fields₁.live ▸ live
  obtain ⟨s₂, unlinked, fields₂⟩ := linkOut_ended (s := s₁) (q := next s h) live₁
    (by rw [fields₁.prev, fields₁.live]; exact leftLive)
    (by rw [fields₁.next, fields₁.live]; exact rightLive)
  have freed : free (next s h) s₂ = .ended () (s₂.drop (next s h)) :=
    if_pos (fields₂.live ▸ live₁)
  have equal : alwayCmp (s.node (next s h)).data = 0 := rfl
  refine ⟨s₂.drop (next s h), ?_, ?_, ?_, ?_, ?_, ?_⟩
  · rw [fetchLlist, bind_deref headLive, node_next, fetchLoop, if_neg some, bind_deref live,
      if_pos equal, takeOut, bind_deref headLive, bind_deref live]
    exact (bind_ended copied).trans ((bind_ended unlinked).trans ((bind_ended freed).trans rfl))
  · rw [drop_live, fields₂.live, fields₁.live]
  · rw [next_drop, fields₂.next, fields₁.next, fields₁.prev]
  · rw [prev_drop, fields₂.prev, fields₁.prev, fields₁.next]
  · rw [size_drop, fields₂.size, fields₁.size]
  · rw [data_drop, fields₂.data, fields₁.data, ← length, List.take_length, length, ← room,
      List.drop_length, List.append_nil]

end blocks

/-! ## Lists in memory -/

/-- The elements, each with the address of its node, from front to back. -/
abbrev Elems := List (Ptr × List UInt8)

/-- The blocks of a list. -/
def blocks (h : Ptr) (l : Elems) : List Ptr := h :: l.map Prod.fst

/-- The list at `h` is for elements of `n` bytes, and the nodes of `l` hang in a circle with its
head and carry the elements. -/
structure Rep (s : Memory) (h : Ptr) (n : Nat) (l : Elems) : Prop where
  circle : Circle (next s) (prev s) h (l.map Prod.fst)
  live : ∀ p ∈ blocks h l, p ∈ s.live
  size : size s h = n
  data : ∀ e ∈ l, data s e.1 = e.2
  length : ∀ e ∈ l, e.2.length = n

/-- A new element, by the way it comes in. -/
def place (e : Ptr × List UInt8) (l : Elems) : Way → Elems
  | .FRONT => e :: l
  | .REAR => l ++ [e]

section rep

variable {a : Allocator} {s t : Memory} {h d : Ptr} {n fuel : Nat} {l : Elems}
  {e : Ptr × List UInt8} {bytes : List UInt8} {ps qs : List Ptr}

theorem Rep.head_live (rep : Rep s h n l) : h ∈ s.live := rep.live h List.mem_cons_self

/-- In a list that is not empty, the head is not its own neighbour. -/
theorem Rep.first_ne (rep : Rep s h n (e :: l)) : next s h ≠ h := by
  have first : next s h = e.1 := rep.circle.first
  have off : h ∉ e.1 :: l.map Prod.fst := (List.nodup_cons.mp rep.circle.nodup).1
  exact fun same => off (same ▸ first ▸ List.mem_cons_self)

theorem blocks_subset (h : Ptr) (e : Ptr × List UInt8) (l : Elems) :
    blocks h l ⊆ blocks h (e :: l) :=
  List.cons_subset_cons h (List.subset_cons_self _ _)

/-- A list stays as it is while other blocks are used. -/
theorem Rep.framed (rep : Rep s h n l) (framed : Framed s t ps qs)
    (apart : ∀ p ∈ blocks h l, p ∉ ps) : Rep t h n l ∧ ∀ p ∈ blocks h l, p ∉ qs := by
  have kept : ∀ p ∈ blocks h l, p ∈ t.live ∧ t.node p = s.node p ∧ p ∉ qs := fun p mem =>
    framed p (rep.live p mem) (apart p mem)
  have node : ∀ e ∈ l, e.1 ∈ blocks h l := fun e mem =>
    List.mem_cons_of_mem h (List.mem_map_of_mem mem)
  refine ⟨⟨?_, fun p mem => (kept p mem).1, ?_, fun e mem => ?_, rep.length⟩,
    fun p mem => (kept p mem).2.2⟩
  · refine rep.circle.congr fun p mem => ?_
    have same := (kept p mem).2.1
    exact ⟨congrArg Block.next same, congrArg Block.prev same⟩
  · exact (congrArg Block.size (kept h List.mem_cons_self).2.1).trans rep.size
  · exact (congrArg Block.data (kept e.1 (node e mem)).2.1).trans (rep.data e mem)

theorem initLlist_rep (a : Allocator) (n : Nat) (s : Memory) :
    ∃ h t, initLlist a n s = .ended h t ∧ Rep t h n [] ∧ Framed s t [] [h] := by
  obtain ⟨h, s₁, allocated, live₁, -, fresh, next₁, prev₁, size₁, data₁⟩ := calloc_ended a s 0
  have new : h ∈ s₁.live := live₁ ▸ Finset.mem_insert_self h _
  obtain ⟨s₂, ran₂, fields₂⟩ := setNext_ended
    (s := s₁.put h { s₁.node h with size := n }) (p := h) new h
  obtain ⟨t, ran, fields⟩ := setPrev_ended (p := h) (fields₂.live ▸ new) h
  have live : t.live = insert h s.live := (fields.live.trans fields₂.live).trans live₁
  have first : next t h = h := by rw [fields.next, fields₂.next, Function.update_self]
  have last : prev t h = h := by rw [fields.prev, Function.update_self]
  refine ⟨h, t, ?_, ⟨⟨List.nodup_singleton h, first, trivial, last⟩, fun p mem => ?_, ?_,
    nofun, nofun⟩, fun p old _ => ⟨?_, ?_, ?_⟩⟩
  · rw [initLlist]
    refine (bind_ended allocated).trans ((bind_assign new _ _).trans ?_)
    exact (bind_ended ran₂).trans ((bind_ended ran).trans rfl)
  · rw [live, List.mem_singleton.mp mem]
    exact Finset.mem_insert_self h _
  · rw [fields.size, fields₂.size, size_put, Function.update_self]
  · rw [live]
    exact Finset.mem_insert_of_mem old
  · have ne : p ≠ h := ne_of_mem_of_not_mem old fresh
    refine node_eq ?_ ?_ ?_ ?_
    · rw [fields.next, fields₂.next, Function.update_of_ne ne, next_put, Function.update_of_ne ne,
        next₁, Function.update_of_ne ne]
    · rw [fields.prev, fields₂.prev, Function.update_of_ne ne, prev_put, Function.update_of_ne ne,
        prev₁, Function.update_of_ne ne]
    · rw [fields.size, fields₂.size, size_put, Function.update_of_ne ne, size₁,
        Function.update_of_ne ne]
    · rw [fields.data, fields₂.data, data_put, Function.update_of_ne ne, data₁,
        Function.update_of_ne ne]
  · exact fun mem => fresh (List.mem_singleton.mp mem ▸ old)

/-- Where a new element comes in. -/
theorem Rep.seam (rep : Rep s h n l) (way : Way) :
    ∃ l₁ l₂, l = l₁ ++ l₂ ∧ (∀ e, place e l way = l₁ ++ e :: l₂) ∧
      leftOf s h way = (l₁.map Prod.fst).getLastD h ∧
      rightOf s h way = (l₂.map Prod.fst).headD h := by
  cases way with
  | FRONT => exact ⟨[], l, rfl, fun _ => rfl, rfl, rep.circle.first⟩
  | REAR => exact ⟨l, [], (List.append_nil l).symm, fun _ => rfl, rep.circle.last, rfl⟩

/-- `insert_llist` puts in one more element and uses the blocks of the list and a new one. -/
theorem Rep.insert (rep : Rep s h n l) (a : Allocator) (way : Way) (enough : n ≤ bytes.length) :
    ∃ q t, insertLlist a h bytes way s = .ended .OK t ∧
      Rep t h n (place (q, bytes.take n) l way) ∧ Framed s t (blocks h l) (q :: blocks h l) := by
  obtain ⟨l₁, l₂, rfl, placed, left, right⟩ := rep.seam way
  have circle := rep.circle
  rw [List.map_append] at circle
  obtain ⟨leftMem, rightMem, -, -⟩ := circle.seam
  have leftBlock : leftOf s h way ∈ blocks h (l₁ ++ l₂) := by
    rw [left, blocks, List.map_append]
    exact List.cons_subset_cons h (List.subset_append_left _ _) leftMem
  have rightBlock : rightOf s h way ∈ blocks h (l₁ ++ l₂) := by
    rw [right, blocks, List.map_append]
    exact List.cons_subset_cons h (List.subset_append_right _ _) rightMem
  obtain ⟨q, t, ran, fresh, live, next', prev', size', data'⟩ := insertLlist_ended (a := a)
    rep.head_live (rep.live _ leftBlock) (rep.live _ rightBlock)
    (rep.size.symm ▸ enough)
  have off : q ∉ blocks h (l₁ ++ l₂) := fun mem => fresh (rep.live q mem)
  have perm : ((l₁ ++ (q, bytes.take n) :: l₂).map Prod.fst).Perm
      (q :: (l₁ ++ l₂).map Prod.fst) := List.perm_middle.map Prod.fst
  refine ⟨q, t, ran, placed _ ▸ ⟨?_, fun p mem => ?_, ?_, fun e mem => ?_, fun e mem => ?_⟩,
    fun p old outside => ?_⟩
  · rw [next', prev', List.map_append, List.map_cons]
    refine circle.insert ?_ left right
    rwa [← List.map_append]
  · rw [live]
    rcases List.mem_cons.mp ((perm.cons h).mem_iff.mp mem) with rfl | mem
    · exact Finset.mem_insert_of_mem rep.head_live
    · rcases List.mem_cons.mp mem with rfl | mem
      · exact Finset.mem_insert_self p _
      · exact Finset.mem_insert_of_mem (rep.live p (List.mem_cons_of_mem h mem))
  · have ne : h ≠ q := ne_of_mem_of_not_mem List.mem_cons_self off
    rw [size', Function.update_of_ne ne]
    exact rep.size
  · rw [data', rep.size]
    rcases List.mem_cons.mp (List.perm_middle.mem_iff.mp mem) with rfl | mem
    · exact Function.update_self _ _ _
    · have ne : e.1 ≠ q := fun same =>
        off (same ▸ List.mem_cons_of_mem h (List.mem_map_of_mem mem))
      rw [Function.update_of_ne ne]
      exact rep.data e mem
  · rcases List.mem_cons.mp (List.perm_middle.mem_iff.mp mem) with rfl | mem
    · exact List.length_take_of_le enough
    · exact rep.length e mem
  · have ne : p ≠ q := ne_of_mem_of_not_mem old fresh
    have neLeft : p ≠ leftOf s h way := fun same => outside (same ▸ leftBlock)
    have neRight : p ≠ rightOf s h way := fun same => outside (same ▸ rightBlock)
    refine ⟨live ▸ Finset.mem_insert_of_mem old, node_eq ?_ ?_ ?_ ?_,
      List.not_mem_cons_of_ne_of_not_mem ne outside⟩
    · rw [next', Function.update_of_ne neLeft, Function.update_of_ne ne]
    · rw [prev', Function.update_of_ne neRight, Function.update_of_ne ne]
    · rw [size', Function.update_of_ne ne]
    · rw [data', Function.update_of_ne ne]

/-- `fetch_llist` takes out the first element, and leaves its bytes in the buffer. -/
theorem Rep.fetch (rep : Rep s h n (e :: l)) (bufferLive : d ∈ s.live)
    (apart : d ∉ blocks h (e :: l)) (room : (Reverse.data s d).length = n) (fuel : Nat) :
    ∃ t, fetchLlist (fuel + 1) h d alwayCmp s = .ended .OK t ∧ Rep t h n l ∧
      Reverse.data t d = e.2 ∧ d ∈ t.live ∧
      Framed s t (d :: blocks h (e :: l)) (d :: blocks h l) := by
  have circle : Circle (next s) (prev s) h ([] ++ e.1 :: l.map Prod.fst) := rep.circle
  have first : next s h = e.1 := circle.first
  obtain ⟨back, forth, -⟩ := circle.seg
  obtain ⟨offHead, nodup⟩ := List.nodup_cons.mp circle.nodup
  have off : e.1 ∉ l.map Prod.fst := (List.nodup_cons.mp nodup).1
  have head : h ∈ blocks h (e :: l) := List.mem_cons_self
  have here : e.1 ∈ blocks h (e :: l) := List.mem_cons_of_mem h List.mem_cons_self
  have neHead : e.1 ≠ h := fun same => offHead (same ▸ List.mem_cons_self)
  have more : blocks h l ⊆ blocks h (e :: l) := blocks_subset h e l
  have onward : (l.map Prod.fst).headD h ∈ blocks h (e :: l) := more headD_mem_cons
  have bytes : Reverse.data s e.1 = e.2 := rep.data e List.mem_cons_self
  have length : e.2.length = n := rep.length e List.mem_cons_self
  obtain ⟨t, ran, live, next', prev', size', data'⟩ := fetchLlist_ended (d := d) fuel
    rep.head_live rep.first_ne (first ▸ rep.live _ here)
    (by rw [first, back]; exact rep.head_live) (by rw [first, forth]; exact rep.live _ onward)
    bufferLive (room.trans rep.size.symm) (by rw [first, bytes, length, rep.size])
  rw [first] at live next' prev' data'
  have neBuffer : ∀ p ∈ blocks h (e :: l), p ≠ d := fun p mem => ne_of_mem_of_not_mem mem apart
  have alive : ∀ {p}, p ∈ s.live → p ≠ e.1 → p ∈ t.live := fun mem ne =>
    live ▸ Finset.mem_erase_of_ne_of_mem ne mem
  refine ⟨t, ran, ⟨?_, fun p mem => ?_, ?_, fun x mem => ?_, fun x mem => ?_⟩, ?_, ?_,
    fun p old outside => ?_⟩
  · have removed := circle.remove rfl rfl
    rwa [← next', ← prev'] at removed
  · refine alive (rep.live p (more mem)) ?_
    rcases List.mem_cons.mp mem with rfl | mem
    · exact neHead.symm
    · exact ne_of_mem_of_not_mem mem off
  · rw [size', rep.size]
  · rw [data', Function.update_of_ne (neBuffer _ (more
      (List.mem_cons_of_mem h (List.mem_map_of_mem mem))))]
    exact rep.data x (List.mem_cons_of_mem e mem)
  · exact rep.length x (List.mem_cons_of_mem e mem)
  · rw [data', Function.update_self, bytes]
  · exact alive bufferLive fun same => apart (same ▸ here)
  · obtain ⟨notBuffer, outside⟩ := not_or.mp (mt List.mem_cons.mpr outside)
    have ne : ∀ q ∈ blocks h (e :: l), p ≠ q := fun q mem same => outside (same ▸ mem)
    refine ⟨alive old (ne _ here), node_eq ?_ ?_ ?_ ?_, fun mem => ?_⟩
    · rw [next', back, Function.update_of_ne (ne h head)]
    · rw [prev', forth, Function.update_of_ne (ne _ onward)]
    · rw [size']
    · rw [data', Function.update_of_ne notBuffer]
    · exact (List.mem_cons.mp mem).elim notBuffer fun mem => outside (more mem)

theorem mem_blocks_place {p : Ptr} {way : Way} :
    p ∈ blocks h (place e l way) ↔ p ∈ e.1 :: blocks h l := by
  cases way with
  | FRONT => simp only [place, blocks, List.map_cons, List.mem_cons, or_left_comm]
  | REAR =>
      simp only [place, blocks, List.map_append, List.map_singleton, List.mem_append,
        List.mem_cons, List.not_mem_nil, or_false]
      tauto

/-- A buffer that other blocks are used besides. -/
theorem Framed.buffer (framed : Framed s t ps qs) (live : d ∈ s.live) (off : d ∉ ps) :
    d ∈ t.live ∧ Reverse.data t d = Reverse.data s d ∧ d ∉ qs :=
  have kept := framed d live off
  ⟨kept.1, congrArg Block.data kept.2.1, kept.2.2⟩

end rep

/-! ## `reverse_llist` -/

section reverse

variable {a : Allocator} {s t : Memory} {h k d : Ptr} {n fuel : Nat} {l l' : Elems}

/-- Every round takes an element from the front of the old list to the front of the new one. -/
theorem reverseLoop_ended (old : Rep s h n l) (new : Rep s k n l')
    (apart : ∀ p ∈ blocks k l', p ∉ d :: blocks h l) (bufferLive : d ∈ s.live)
    (off : d ∉ blocks h l) (room : (data s d).length = n) (enough : l.length < fuel) :
    ∃ t r, reverseLoop a h k d fuel s = .ended () t ∧ Rep t k n r ∧ h ∈ t.live ∧
      h ∉ blocks k r ∧ r.map Prod.snd = (l.map Prod.snd).reverse ++ l'.map Prod.snd := by
  induction l generalizing s l' fuel with
  | nil =>
      obtain ⟨fuel, rfl⟩ := Nat.exists_eq_add_one_of_ne_zero (Nat.ne_of_gt enough)
      have live := old.head_live
      have last : next s h = h := old.circle.first
      refine ⟨s, l', ?_, new, live, fun mem => ?_, rfl⟩
      · rw [reverseLoop, bind_deref live, node_next, last, if_neg (not_not.mpr rfl)]
        rfl
      · exact apart h mem (List.mem_cons_of_mem d List.mem_cons_self)
  | cons e l ih =>
      obtain ⟨fuel, rfl⟩ := Nat.exists_eq_add_one_of_ne_zero (Nat.ne_zero_of_lt enough)
      have live := old.head_live
      have length : e.2.length = n := old.length e List.mem_cons_self
      obtain ⟨s₁, fetched, old₁, bytes, buffer₁, framed₁⟩ := old.fetch bufferLive off room fuel
      obtain ⟨new₁, apart₁⟩ := new.framed framed₁ apart
      obtain ⟨q, s₂, inserted, new₂, framed₂⟩ := new₁.insert a .FRONT length.ge
      have off₁ : d ∉ blocks k l' := fun mem => apart d mem List.mem_cons_self
      have offOld : ∀ p ∈ blocks h l, p ∉ blocks k l' := fun p mem mem' =>
        apart₁ p mem' (List.mem_cons_of_mem d mem)
      obtain ⟨old₂, apart₂⟩ := old₁.framed framed₂ offOld
      obtain ⟨buffer₂, bytes₂, off₂⟩ := Framed.buffer framed₂ buffer₁ off₁
      have offRest : d ∉ blocks h l := fun mem => off (blocks_subset h e l mem)
      obtain ⟨t, r, ran, final, headLive, gone, same⟩ := ih old₂ new₂
        (fun p mem mem' => by
          have inside := mem_blocks_place.mp mem
          rcases List.mem_cons.mp mem' with rfl | mem'
          · exact off₂ inside
          · exact apart₂ p mem' inside)
        buffer₂ offRest (by rw [bytes₂, bytes, length]) (by simpa using enough)
      refine ⟨t, r, ?_, final, headLive, gone, ?_⟩
      · rw [reverseLoop, bind_deref live, node_next, if_pos old.first_ne]
        refine (bind_ended fetched).trans ((bind_deref buffer₁ _).trans ?_)
        rw [node_data, bytes]
        exact (bind_ended inserted).trans ran
      · rw [same, place, List.map_cons, List.map_cons, List.reverse_cons, List.append_assoc,
          List.take_of_length_le length.le]
        rfl

theorem Rep.reverseLlist (rep : Rep s h n l) (a : Allocator) (enough : l.length < fuel) :
    ∃ k t r, Reverse.reverseLlist a fuel h s = .ended k t ∧ Rep t k n r ∧
      r.map Prod.snd = (l.map Prod.snd).reverse := by
  have live := rep.head_live
  obtain ⟨k, s₁, made, new₁, framed₁⟩ := initLlist_rep a n s
  obtain ⟨rep₁, apart₁⟩ := rep.framed framed₁ fun _ _ => List.not_mem_nil
  have live₁ := rep₁.head_live
  obtain ⟨d, s₂, allocated, buffer, room, fresh, framed₂⟩ := malloc_ended a s₁ n
  obtain ⟨rep₂, offOld⟩ := rep₁.framed framed₂ fun _ _ => List.not_mem_nil
  obtain ⟨new₂, offNew⟩ := new₁.framed framed₂ fun _ _ => List.not_mem_nil
  obtain ⟨t, r, ran, final, headLive, gone, same⟩ := reverseLoop_ended (a := a) rep₂ new₂
    (fun p mem mem' => by
      rcases List.mem_cons.mp mem' with rfl | mem'
      · exact offNew p mem List.mem_cons_self
      · exact apart₁ p mem' mem)
    buffer (fun mem => offOld d mem List.mem_cons_self) room enough
  have freed : free h t = .ended () (t.drop h) := if_pos headLive
  have framed₃ : Framed t (t.drop h) [h] [] := framed_drop
  obtain ⟨left, -⟩ := final.framed framed₃ fun p mem mem' =>
    gone (List.mem_singleton.mp mem' ▸ mem)
  refine ⟨k, t.drop h, r, ?_, left, by rw [same, List.map_nil, List.append_nil]⟩
  rw [Reverse.reverseLlist, bind_deref live, node_size, rep.size]
  refine (bind_ended made).trans ((bind_deref live₁ _).trans ?_)
  rw [node_size, rep₁.size]
  exact (bind_ended allocated).trans ((bind_ended ran).trans ((bind_ended freed).trans rfl))

/-! ## `reverse_r` -/

/-- The element that a call has taken out waits in its buffer while the rest is reversed. -/
theorem Rep.reverseR (rep : Rep s h n l) (a : Allocator) (enough : l.length < fuel) :
    ∃ t r, Reverse.reverseR a h fuel s = .ended () t ∧ Rep t h n r ∧
      r.map Prod.snd = (l.map Prod.snd).reverse ∧ Framed s t (blocks h l) (blocks h r) := by
  induction l generalizing s fuel with
  | nil =>
      obtain ⟨fuel, rfl⟩ := Nat.exists_eq_add_one_of_ne_zero (Nat.ne_of_gt enough)
      have live := rep.head_live
      obtain ⟨d, s₁, allocated, -, -, -, framed₁⟩ := malloc_ended a s n
      obtain ⟨rep₁, -⟩ := rep.framed framed₁ fun _ _ => List.not_mem_nil
      have last : next s₁ h = h := rep₁.circle.first
      refine ⟨s₁, [], ?_, rep₁, rfl, framed₁.mono (List.nil_subset _) fun _ => .inr⟩
      rw [Reverse.reverseR, bind_deref live, node_size, rep.size]
      refine (bind_ended allocated).trans ((bind_deref rep₁.head_live _).trans ?_)
      rw [node_next, last, if_pos rfl]
      rfl
  | cons e l ih =>
      obtain ⟨fuel, rfl⟩ := Nat.exists_eq_add_one_of_ne_zero (Nat.ne_zero_of_lt enough)
      have live := rep.head_live
      have length : e.2.length = n := rep.length e List.mem_cons_self
      obtain ⟨d, s₁, allocated, buffer, room, -, framed₁⟩ := malloc_ended a s n
      obtain ⟨rep₁, apart₁⟩ := rep.framed framed₁ fun _ _ => List.not_mem_nil
      have off₁ : d ∉ blocks h (e :: l) := fun mem => apart₁ d mem List.mem_cons_self
      obtain ⟨s₂, fetched, rep₂, bytes, buffer₂, framed₂⟩ := rep₁.fetch buffer off₁ room fuel
      obtain ⟨s₃, r, ran, rep₃, same, framed₃⟩ := ih rep₂ (by simpa using enough)
      obtain ⟨buffer₃, bytes₃, off₃⟩ :=
        Framed.buffer framed₃ buffer₂ fun mem => off₁ (blocks_subset h e l mem)
      obtain ⟨q, s₄, inserted, rep₄, framed₄⟩ := rep₃.insert a .REAR length.ge
      obtain ⟨buffer₄, -, off₄⟩ := Framed.buffer framed₄ buffer₃ off₃
      have freed : free d s₄ = .ended () (s₄.drop d) := if_pos buffer₄
      have framed₅ : Framed s₄ (s₄.drop d) [d] [] := framed_drop
      obtain ⟨rep₅, -⟩ := rep₄.framed framed₅ fun p mem mem' =>
        off₄ (List.mem_singleton.mp mem' ▸ mem_blocks_place.mp mem)
      refine ⟨s₄.drop d, place (q, e.2.take n) r .REAR, ?_, rep₅, ?_, ?_⟩
      · rw [Reverse.reverseR, bind_deref live, node_size, rep.size]
        refine (bind_ended allocated).trans ((bind_deref rep₁.head_live _).trans ?_)
        rw [node_next, if_neg rep₁.first_ne]
        refine (bind_ended fetched).trans ((bind_ended ran).trans ((bind_deref buffer₃ _).trans ?_))
        rw [node_data, bytes₃, bytes]
        exact (bind_ended inserted).trans freed
      · rw [place, List.map_append, same, List.map_singleton, List.map_cons, List.reverse_cons,
          List.take_of_length_le length.le]
      · -- the buffer, the list, and the new node, from call to call
        have start : Framed s s₁ (blocks h (e :: l)) (d :: blocks h (e :: l)) :=
          framed₁.append (blocks h (e :: l))
        have rest : Framed s₂ s₃ (d :: blocks h l) (d :: blocks h r) := framed₃.cons d
        have back : Framed s₃ s₄ (d :: blocks h r) (d :: q :: blocks h r) := framed₄.cons d
        have last : Framed s₄ (s₄.drop d) (d :: q :: blocks h r) (q :: blocks h r) := framed_drop
        refine ((((start.trans framed₂).trans rest).trans back).trans last).mono
          (List.Subset.refl _) fun p mem => ?_
        exact .inl (mem_blocks_place.mp mem)

end reverse

/-! ## The two reversals -/

/-- At `h` there is a list for elements of `n` bytes, in a circle, with these elements. -/
def IsList (s : Memory) (h : Ptr) (n : Nat) (xs : List (List UInt8)) : Prop :=
  ∃ l, Rep s h n l ∧ l.map Prod.snd = xs

/-- From a node on, `traval_llist` comes by the nodes behind it. -/
theorem Rep.travalLoop {s : Memory} {h : Ptr} {n fuel : Nat} {front back : Elems}
    (rep : Rep s h n (front ++ back)) (enough : back.length < fuel) :
    Reverse.travalLoop h fuel ((back.map Prod.fst).headD h) s = .ended (back.map Prod.snd) s := by
  induction back generalizing front fuel with
  | nil =>
      obtain ⟨fuel, rfl⟩ := Nat.exists_eq_add_one_of_ne_zero (Nat.ne_of_gt enough)
      rw [Reverse.travalLoop, List.map_nil, List.headD_nil, if_pos rfl]
      rfl
  | cons e back ih =>
      obtain ⟨fuel, rfl⟩ := Nat.exists_eq_add_one_of_ne_zero (Nat.ne_zero_of_lt enough)
      have mem : e ∈ front ++ e :: back := List.mem_append_right front List.mem_cons_self
      have node : e.1 ∈ (front ++ e :: back).map Prod.fst := List.mem_map_of_mem mem
      have live : e.1 ∈ s.live := rep.live e.1 (List.mem_cons_of_mem h node)
      have ne : e.1 ≠ h :=
        ne_of_mem_of_not_mem node (List.nodup_cons.mp rep.circle.nodup).1
      have seg := rep.circle.seg
      rw [List.map_append] at seg
      have onward : next s e.1 = (back.map Prod.fst).headD h := (seg_append.mp seg).2.2.1
      have behind : Rep s h n (front ++ [e] ++ back) := by simpa using rep
      have rest := ih behind (Nat.lt_of_succ_lt_succ enough)
      rw [Reverse.travalLoop, List.map_cons, List.headD_cons, if_neg ne, bind_deref live,
        node_next, onward]
      refine (bind_ended rest).trans ?_
      rw [node_data, rep.data e mem]
      rfl

/-- `traval_llist` shows the elements. -/
theorem IsList.travalLlist {s : Memory} {h : Ptr} {n fuel : Nat} {xs : List (List UInt8)}
    (list : IsList s h n xs) (enough : xs.length < fuel) :
    Reverse.travalLlist fuel h s = .ended xs s := by
  obtain ⟨l, rep, rfl⟩ := list
  have first : next s h = (l.map Prod.fst).headD h := rep.circle.first
  rw [Reverse.travalLlist, bind_deref rep.head_live, node_next, first]
  have whole : Rep s h n ([] ++ l) := rep
  exact whole.travalLoop (by simpa using enough)

/-- The elements after the calls of `insert_llist`. -/
def elements (n : Nat) : List (List UInt8) → List (List UInt8 × Way) → List (List UInt8)
  | xs, [] => xs
  | xs, (data, .FRONT) :: calls => elements n (data.take n :: xs) calls
  | xs, (data, .REAR) :: calls => elements n (xs ++ [data.take n]) calls

section runs

variable {a : Allocator} {s : Memory} {h : Ptr} {n fuel : Nat} {xs : List (List UInt8)}
  {calls : List (List UInt8 × Way)}

theorem length_elements : (elements n xs calls).length = xs.length + calls.length := by
  induction calls generalizing xs with
  | nil => rfl
  | cons call calls ih =>
      obtain ⟨data, way⟩ := call
      cases way with
      | FRONT => rw [elements, ih, List.length_cons, List.length_cons]; omega
      | REAR => rw [elements, ih, List.length_append, List.length_cons]; simp; omega

theorem IsList.insertAll (list : IsList s h n xs) (a : Allocator)
    (enough : ∀ call ∈ calls, n ≤ call.1.length) :
    ∃ t, Reverse.insertAll a h calls s = .ended () t ∧ IsList t h n (elements n xs calls) := by
  induction calls generalizing s xs with
  | nil => exact ⟨s, rfl, list⟩
  | cons call calls ih =>
      obtain ⟨bytes, way⟩ := call
      obtain ⟨now, later⟩ := List.forall_mem_cons.mp enough
      obtain ⟨l, rep, rfl⟩ := list
      obtain ⟨q, s₁, inserted, rep₁, -⟩ := rep.insert a way now
      obtain ⟨t, ran, list⟩ := ih ⟨_, rep₁, rfl⟩ later
      refine ⟨t, (bind_ended inserted).trans ran, ?_⟩
      cases way with
      | FRONT => exact list
      | REAR =>
          rw [place, List.map_append] at list
          exact list

/-- A list that is built holds what was put in. -/
theorem build_ended (a : Allocator) (s : Memory) (enough : ∀ call ∈ calls, n ≤ call.1.length) :
    ∃ h t, build a n calls s = .ended h t ∧ IsList t h n (elements n [] calls) := by
  obtain ⟨h, s₁, made, rep, -⟩ := initLlist_rep a n s
  obtain ⟨t, ran, list⟩ := IsList.insertAll ⟨[], rep, rfl⟩ a enough
  exact ⟨h, t, (bind_ended made).trans ((bind_ended ran).trans rfl), list⟩

theorem IsList.reverseLlist (list : IsList s h n xs) (a : Allocator) (enough : xs.length < fuel) :
    ∃ k t, Reverse.reverseLlist a fuel h s = .ended k t ∧ IsList t k n xs.reverse := by
  obtain ⟨l, rep, rfl⟩ := list
  obtain ⟨k, t, r, ran, rep', same⟩ := rep.reverseLlist a (by simpa using enough)
  exact ⟨k, t, ran, r, rep', same⟩

theorem IsList.reverseR (list : IsList s h n xs) (a : Allocator) (enough : xs.length < fuel) :
    ∃ t, Reverse.reverseR a h fuel s = .ended () t ∧ IsList t h n xs.reverse := by
  obtain ⟨l, rep, rfl⟩ := list
  obtain ⟨t, r, ran, rep', same, -⟩ := rep.reverseR a (by simpa using enough)
  exact ⟨t, ran, r, rep', same⟩

/-- Both functions reverse a list that was built, and a second call restores it. -/
theorem reversals_agree (a : Allocator) (s₀ : Memory) (n : Nat) (calls : List (List UInt8 × Way))
    (fuel : Nat) (bytes : ∀ call ∈ calls, n ≤ call.1.length) (enough : calls.length < fuel) :
    ∃ h s, build a n calls s₀ = .ended h s ∧ IsList s h n (elements n [] calls) ∧
      (∃ k t, reverseLlist a fuel h s = .ended k t ∧
        IsList t k n (elements n [] calls).reverse ∧
        ∃ k' u, reverseLlist a fuel k t = .ended k' u ∧ IsList u k' n (elements n [] calls)) ∧
      ∃ t, reverseR a h fuel s = .ended () t ∧
        IsList t h n (elements n [] calls).reverse ∧
        ∃ u, reverseR a h fuel t = .ended () u ∧ IsList u h n (elements n [] calls) := by
  have short : (elements n [] calls).length < fuel := by
    rw [length_elements, List.length_nil, Nat.zero_add]
    exact enough
  have short' : (elements n [] calls).reverse.length < fuel := by
    rw [List.length_reverse]
    exact short
  obtain ⟨h, s, built, list⟩ := build_ended a s₀ bytes
  obtain ⟨k, t, ran, reversed⟩ := list.reverseLlist a short
  obtain ⟨k', u, ran', restored⟩ := reversed.reverseLlist a short'
  obtain ⟨t', ranR, reversedR⟩ := list.reverseR a short
  obtain ⟨u', ranR', restoredR⟩ := reversedR.reverseR a short'
  rw [List.reverse_reverse] at restored restoredR
  exact ⟨h, s, built, list, ⟨k, t, ran, reversed, k', u, ran', restored⟩,
    t', ranR, reversedR, u', ranR', restoredR⟩

end runs

/-- The next address behind all blocks in use. -/
def behindAll : Allocator where
  address s := s.live.sup id + 1
  some _ := Nat.succ_ne_zero _
  fresh _ mem := absurd (Finset.le_sup (f := id) mem) (Nat.not_succ_le_self _)

def noBlocks : Memory := ⟨fun _ => ⟨0, 0, 0, []⟩, ∅, Finset.notMem_empty 0, []⟩

/-- A list of `1`, `2` and `3`, of which `1` came in first and `3` last, at the front. -/
theorem reversals_agree_three :
    ∃ h s, build behindAll 1 [([1], .REAR), ([2], .REAR), ([3], .FRONT)] noBlocks = .ended h s ∧
      IsList s h 1 [[3], [1], [2]] ∧
      (∃ k t, reverseLlist behindAll 4 h s = .ended k t ∧ IsList t k 1 [[2], [1], [3]] ∧
        ∃ k' u, reverseLlist behindAll 4 k t = .ended k' u ∧ IsList u k' 1 [[3], [1], [2]]) ∧
      ∃ t, reverseR behindAll h 4 s = .ended () t ∧ IsList t h 1 [[2], [1], [3]] ∧
        ∃ u, reverseR behindAll h 4 t = .ended () u ∧ IsList u h 1 [[3], [1], [2]] :=
  reversals_agree behindAll noBlocks 1 [([1], .REAR), ([2], .REAR), ([3], .FRONT)] 4 (by decide)
    (by decide)

end Shang.Llist.Reverse
