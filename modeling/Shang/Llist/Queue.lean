import Shang.Llist.Llist

/-!
# The queue on the linked list

`queue.c` of `2.llist_queue` with its `llist.c`. The list is the circle of nodes
with a head of the other list libraries, and `llist_insert` and the unlinking of a
node are the same. Its `find_` goes forward from the head, so that with a
comparison that is always equal it stops at the first node: a queue gives its
elements back in the order they came.
-/

namespace Shang.Queue

open Shang.Llist

def LLIST_BACKWARD : Int := 2

/-- The loop of `find_`, from `cur` on; fuel bounds its rounds, and `NULL` is 0. -/
def findLoop (ptr : InnerLlist) (func : List UInt8 → Int) : Nat → Ptr → Option Ptr
  | 0, _ => none
  | fuel + 1, cur =>
      if cur = ptr.head then some 0
      else if func (ptr.data cur) = 0 then some cur
      else findLoop ptr func fuel (ptr.next cur)

/-- `find_(ptr, key, func)`, with `func` given the key. -/
def find_ (fuel : Nat) (ptr : InnerLlist) (func : List UInt8 → Int) : Option Ptr :=
  findLoop ptr func fuel (ptr.next ptr.head)

/-- `llist_fetch(ptr, key, func, re)`, with the bytes it has written to `re`. -/
def llistFetch (fuel : Nat) (ptr : InnerLlist) (func : List UInt8 → Int) :
    Option (InnerLlist × Int × Option (List UInt8)) := do
  let cur ← find_ fuel ptr func
  if cur ≠ 0 then
    let re := (ptr.data cur).take ptr.size
    let s ← (ptr.unlink cur).free cur
    some (s, 1, some re)
  else
    some (ptr, 0, none)

/-- The loop of `llist_destroy`, from `cur` on. -/
def destroyLoop : Nat → InnerLlist → Ptr → Option InnerLlist
  | 0, _, _ => none
  | fuel + 1, ptr, cur =>
      if cur = ptr.head then some ptr
      else do
        let next := ptr.next cur
        let ptr ← ptr.free cur
        destroyLoop fuel ptr next

/-- `q_create(initsize)`, where `malloc` succeeds. -/
def qCreate (initsize : Nat) (head : Ptr) (nodes : Ptr → Node) : InnerLlist :=
  .creat initsize head nodes

/-- `q_enqueue(ptr, data)`, where `malloc` returns `q`. -/
def qEnqueue (ptr : InnerLlist) (data : List UInt8) (q : Ptr) : InnerLlist × Int :=
  ptr.insert data LLIST_BACKWARD q

/-- `always` -/
def always (_ : List UInt8) : Int := 0

/-- `q_dequeue(ptr, data)` -/
def qDequeue (fuel : Nat) (ptr : InnerLlist) : Option (InnerLlist × Int × Option (List UInt8)) :=
  llistFetch fuel ptr always

/-- `q_destroy(ptr)`: what is left before the list itself is freed. -/
def qDestroy (fuel : Nat) (ptr : InnerLlist) : Option InnerLlist :=
  destroyLoop fuel ptr (ptr.next ptr.head)

/-! ## First in, first out -/

variable {ptr : InnerLlist} {xs : List (List UInt8)} {x : List UInt8}

/-- These are the elements in the queue, the oldest first. -/
def Queued (ptr : InnerLlist) (xs : List (List UInt8)) : Prop :=
  ∃ l, Rep ptr l ∧ l.map Prod.snd = xs

theorem queued_create {initsize : Nat} {head : Ptr} {nodes : Ptr → Node} (nonnull : head ≠ 0) :
    Queued (qCreate initsize head nodes) [] :=
  ⟨[], creat_rep nonnull, rfl⟩

theorem Queued.enqueue {q : Ptr} (h : Queued ptr xs) (nonnull : q ≠ 0) (offHead : q ≠ ptr.head)
    (offLive : q ∉ ptr.live) (data : List UInt8) :
    ∃ t, qEnqueue ptr data q = (t, 0) ∧ t.size = ptr.size ∧
      Queued t (xs ++ [data.take ptr.size]) := by
  obtain ⟨l, rep, rfl⟩ := h
  obtain ⟨t, inserted, -, size, rep'⟩ :
      ∃ t, ptr.insert data LLIST_BACKWARD q = (t, 0) ∧ _ ∧ _ ∧ _ :=
    rep.insert nonnull offHead offLive
  rw [if_neg (by decide)] at rep'
  exact ⟨t, inserted, size, _, rep', List.map_append⟩

theorem Queued.dequeue_nil (h : Queued ptr []) (fuel : Nat) :
    qDequeue (fuel + 1) ptr = some (ptr, 0, none) := by
  obtain ⟨l, rep, empty⟩ := h
  obtain rfl := List.map_eq_nil_iff.mp empty
  have alone : ptr.next ptr.head = ptr.head := rep.circle.first
  simp [qDequeue, llistFetch, find_, findLoop, alone]

/-- The oldest element comes out: one round of the search is enough. -/
theorem Queued.dequeue_cons (h : Queued ptr (x :: xs)) (fuel : Nat) :
    ∃ t, qDequeue (fuel + 1) ptr = some (t, 1, some x) ∧ t.size = ptr.size ∧ Queued t xs := by
  obtain ⟨l, rep, elems⟩ := h
  obtain ⟨e, l, rfl, rfl, rfl⟩ := List.map_eq_cons_iff.mp elems
  have whole : Rep ptr ([] ++ e :: l) := rep
  obtain ⟨offHead, nonnull, stored, -⟩ := whole.walk
  have first : ptr.next ptr.head = e.1 := rep.circle.first
  have short : e.2.take ptr.size = e.2 := List.take_of_length_le (rep.size e List.mem_cons_self)
  obtain ⟨t, freed, -, size, rep'⟩ := whole.unlink
  refine ⟨t, ?_, size, l, rep', rfl⟩
  simp [qDequeue, llistFetch, find_, findLoop, first, offHead, always, nonnull, stored, short,
    freed]

theorem Queued.destroy_nil (h : Queued ptr []) (fuel : Nat) :
    qDestroy (fuel + 1) ptr = some ptr := by
  obtain ⟨l, rep, empty⟩ := h
  obtain rfl := List.map_eq_nil_iff.mp empty
  have alone : ptr.next ptr.head = ptr.head := rep.circle.first
  simp [qDestroy, destroyLoop, alone]

end Shang.Queue
