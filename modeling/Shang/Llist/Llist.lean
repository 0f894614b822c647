import Mathlib.Data.List.Induction
import Shang.Lib.Circle
import Shang.Lib.Run

/-!
# The generic doubly linked list

`llist.c` of `double/lib4_hidden_struct`: a list of elements of `size` bytes each,
whose nodes hang in a circle with the head that is embedded in the list itself.
A node is named by its address, and the memory of the nodes is part of the
modelled state. What `malloc` returns is part of the call.

The list refines a sequence of elements. The searches go backwards from the head,
so they find the last element of the sequence that compares equal to the key.
-/

namespace Shang.Llist

open Lib

/-- The address of a node; `NULL` is 0. -/
abbrev Ptr := Nat

/-- `NODE_ST`, with all the bytes that were allocated behind `data`. -/
structure Node where
  prev : Ptr
  next : Ptr
  data : List UInt8

/-- `INNER_LLIST`; `head` is the address of the embedded node. With it the memory
of the nodes, and the nodes that are allocated. -/
structure InnerLlist where
  size : Nat
  head : Ptr
  nodes : Ptr → Node
  live : List Ptr

def LLIST_FORWARD : Int := 1

namespace InnerLlist

variable (s : InnerLlist)

/-- `p->next` -/
def next (p : Ptr) : Ptr := (s.nodes p).next

/-- `p->prev` -/
def prev (p : Ptr) : Ptr := (s.nodes p).prev

/-- `p->data` -/
def data (p : Ptr) : List UInt8 := (s.nodes p).data

/-- `p->next = x` -/
def setNext (p x : Ptr) : InnerLlist :=
  { s with nodes := Function.update s.nodes p { s.nodes p with next := x } }

/-- `p->prev = x` -/
def setPrev (p x : Ptr) : InnerLlist :=
  { s with nodes := Function.update s.nodes p { s.nodes p with prev := x } }

/-- `memcpy(p->data, data, size)` -/
def setData (p : Ptr) (data : List UInt8) : InnerLlist :=
  { s with nodes := Function.update s.nodes p { s.nodes p with data := data.take s.size } }

/-- `malloc`, which returns `q`. -/
def alloc (q : Ptr) : InnerLlist := { s with live := q :: s.live }

/-- `free(p)`, which must be allocated. -/
def free (p : Ptr) : Option InnerLlist :=
  if p ∈ s.live then some { s with live := s.live.erase p } else none

/-- `llist_creat`, where `malloc` puts the list such that `head` is the address of
its embedded node. -/
def creat (size : Nat) (head : Ptr) (nodes : Ptr → Node) : InnerLlist :=
  ((⟨size, head, nodes, []⟩ : InnerLlist).setPrev head head).setNext head head

/-- `llist_insert`, where `malloc` returns `q`. -/
def insert (data : List UInt8) (mode : Int) (q : Ptr) : InnerLlist × Int :=
  if q = 0 then (s, -1)
  else
    let s := (s.alloc q).setData q data
    let p := s.head
    let s :=
      if mode = LLIST_FORWARD then
        let s := s.setPrev q p
        s.setNext q (s.next p)
      else
        let s := s.setNext q p
        s.setPrev q (s.prev p)
    let s := s.setNext (s.prev q) q
    let s := s.setPrev (s.next q) q
    (s, 0)

/-- The loop of `find_`, from `cur` on. -/
def findLoop (equal : List UInt8 → Int) : Nat → Ptr → Option Ptr
  | 0, _ => none
  | fuel + 1, cur =>
    if cur = s.head then some 0
    else if equal (s.data cur) = 0 then some cur
    else findLoop equal fuel (s.prev cur)

/-- `find_`, with `func` given the key. -/
def find_ (fuel : Nat) (equal : List UInt8 → Int) : Option Ptr :=
  s.findLoop equal fuel (s.prev s.head)

/-- Take `cur` out of the circle. -/
def unlink (cur : Ptr) : InnerLlist :=
  let s := s.setNext (s.prev cur) (s.next cur)
  s.setPrev (s.next cur) (s.prev cur)

/-- `llist_delete` -/
def delete (fuel : Nat) (equal : List UInt8 → Int) : Option (InnerLlist × Int) := do
  let cur ← s.find_ fuel equal
  if cur ≠ 0 then
    let s ← (s.unlink cur).free cur
    some (s, 1)
  else
    some (s, 0)

/-- `llist_fetch`, with the bytes it has written to `re`. -/
def fetch (fuel : Nat) (equal : List UInt8 → Int) :
    Option (InnerLlist × Int × Option (List UInt8)) := do
  let cur ← s.find_ fuel equal
  if cur ≠ 0 then
    let re := (s.data cur).take s.size
    let s ← (s.unlink cur).free cur
    some (s, 1, some re)
  else
    some (s, 0, none)

/-- The loop of `llist_travel`: what `pr` is called with. -/
def travelLoop : Nat → Ptr → Option (List (List UInt8))
  | 0, _ => none
  | fuel + 1, cur =>
    if cur = s.head then some []
    else (travelLoop fuel (s.prev cur)).map (s.data cur :: ·)

/-- `llist_travel` -/
def travel (fuel : Nat) : Option (List (List UInt8)) :=
  s.travelLoop fuel (s.prev s.head)

end InnerLlist

/-- A call, with the key and the comparison function it is given, or with what
`malloc` returns. -/
inductive Op (κ : Type)
  | insert (data : List UInt8) (mode : Int) (q : Ptr)
  | find (key : κ) (func : κ → List UInt8 → Int)
  | delete (key : κ) (func : κ → List UInt8 → Int)
  | fetch (key : κ) (func : κ → List UInt8 → Int)
  | travel

/-- What a call returns and writes. For `llist_find`, the node whose data is
returned. -/
inductive Result
  | insert (ret : Int)
  | find (cur : Ptr)
  | delete (ret : Int)
  | fetch (ret : Int) (re : Option (List UInt8))
  | travel (printed : List (List UInt8))
  deriving DecidableEq

/-- A list and the results of the calls so far. -/
structure World where
  list : InnerLlist
  results : List Result

variable {κ : Type}

/-- A call on the list; `none` where a loop runs out of fuel or a node is freed
that is not allocated. -/
def step (fuel : Nat) (w : World) : Op κ → Option World
  | .insert data mode q =>
    let (s, ret) := w.list.insert data mode q
    some ⟨s, w.results ++ [.insert ret]⟩
  | .find key func =>
    (w.list.find_ fuel (func key)).map fun cur => ⟨w.list, w.results ++ [.find cur]⟩
  | .delete key func =>
    (w.list.delete fuel (func key)).map fun (s, ret) => ⟨s, w.results ++ [.delete ret]⟩
  | .fetch key func =>
    (w.list.fetch fuel (func key)).map fun (s, ret, re) => ⟨s, w.results ++ [.fetch ret re]⟩
  | .travel => (w.list.travel fuel).map fun printed => ⟨w.list, w.results ++ [.travel printed]⟩

/-- `malloc` succeeds: it returns an address that is not in use. -/
def Allowed (w : World) : Op κ → Prop
  | .insert _ _ q => q ≠ 0 ∧ q ≠ w.list.head ∧ q ∉ w.list.live
  | _ => True

instance Allowed.decidable (w : World) : (op : Op κ) → Decidable (Allowed w op)
  | .insert _ _ q => inferInstanceAs (Decidable (q ≠ 0 ∧ q ≠ w.list.head ∧ q ∉ w.list.live))
  | .find _ _ | .delete _ _ | .fetch _ _ | .travel => isTrue trivial

/-! ## The sequence -/

/-- The elements, each with the address of its node, from front to back. -/
abbrev Elems := List (Ptr × List UInt8)

/-- The last element that compares equal. -/
def lastEqual (equal : List UInt8 → Int) (l : Elems) : Option (Ptr × List UInt8) :=
  l.reverse.find? fun e => equal e.2 = 0

/-- The sequence without the last element that compares equal. -/
def eraseLast (equal : List UInt8 → Int) (l : Elems) : Elems :=
  (l.reverse.eraseP fun e => equal e.2 = 0).reverse

/-- A call on the sequence. -/
def specStep (size : Nat) (l : Elems) : Op κ → Elems × Result
  | .insert data mode q =>
    (if mode = LLIST_FORWARD then (q, data.take size) :: l else l ++ [(q, data.take size)],
      .insert 0)
  | .find key func => (l, .find ((lastEqual (func key) l).elim 0 Prod.fst))
  | .delete key func =>
    (eraseLast (func key) l, .delete (if (lastEqual (func key) l).isSome then 1 else 0))
  | .fetch key func =>
    (eraseLast (func key) l, .fetch (if (lastEqual (func key) l).isSome then 1 else 0)
      ((lastEqual (func key) l).map Prod.snd))
  | .travel => (l, .travel (l.reverse.map Prod.snd))

/-- The elements and the results after a sequence of calls. -/
def specRun (size : Nat) : Elems × List Result → List (Op κ) → Elems × List Result
  | (l, results), [] => (l, results)
  | (l, results), op :: ops =>
    let (l, result) := specStep size l op
    specRun size (l, results ++ [result]) ops

/-! ## Assignments to one field -/

namespace InnerLlist

variable {s : InnerLlist} {p x : Ptr} {d : List UInt8}

@[simp] theorem setNext_next : (s.setNext p x).next = Function.update s.next p x := by
  funext q
  by_cases same : q = p <;> simp [next, setNext, same]

@[simp] theorem setNext_prev : (s.setNext p x).prev = s.prev := by
  funext q
  by_cases same : q = p <;> simp [prev, setNext, same]

@[simp] theorem setNext_data : (s.setNext p x).data = s.data := by
  funext q
  by_cases same : q = p <;> simp [data, setNext, same]

@[simp] theorem setPrev_next : (s.setPrev p x).next = s.next := by
  funext q
  by_cases same : q = p <;> simp [next, setPrev, same]

@[simp] theorem setPrev_prev : (s.setPrev p x).prev = Function.update s.prev p x := by
  funext q
  by_cases same : q = p <;> simp [prev, setPrev, same]

@[simp] theorem setPrev_data : (s.setPrev p x).data = s.data := by
  funext q
  by_cases same : q = p <;> simp [data, setPrev, same]

@[simp] theorem setData_next : (s.setData p d).next = s.next := by
  funext q
  by_cases same : q = p <;> simp [next, setData, same]

@[simp] theorem setData_prev : (s.setData p d).prev = s.prev := by
  funext q
  by_cases same : q = p <;> simp [prev, setData, same]

@[simp] theorem setData_data : (s.setData p d).data = Function.update s.data p (d.take s.size) := by
  funext q
  by_cases same : q = p <;> simp [data, setData, same]

@[simp] theorem alloc_next : (s.alloc p).next = s.next := rfl

@[simp] theorem alloc_prev : (s.alloc p).prev = s.prev := rfl

@[simp] theorem alloc_data : (s.alloc p).data = s.data := rfl

@[simp] theorem alloc_head : (s.alloc p).head = s.head := rfl

@[simp] theorem alloc_size : (s.alloc p).size = s.size := rfl

@[simp] theorem alloc_live : (s.alloc p).live = p :: s.live := rfl

@[simp] theorem setNext_head : (s.setNext p x).head = s.head := rfl

@[simp] theorem setNext_size : (s.setNext p x).size = s.size := rfl

@[simp] theorem setNext_live : (s.setNext p x).live = s.live := rfl

@[simp] theorem setPrev_head : (s.setPrev p x).head = s.head := rfl

@[simp] theorem setPrev_size : (s.setPrev p x).size = s.size := rfl

@[simp] theorem setPrev_live : (s.setPrev p x).live = s.live := rfl

@[simp] theorem setData_head : (s.setData p d).head = s.head := rfl

@[simp] theorem setData_size : (s.setData p d).size = s.size := rfl

@[simp] theorem setData_live : (s.setData p d).live = s.live := rfl

theorem unlink_next : (s.unlink p).next = Function.update s.next (s.prev p) (s.next p) := by
  simp [unlink]

/-- The second assignment reads `cur->next` after the first one has been made. -/
theorem unlink_prev : (s.unlink p).prev = Function.update s.prev (s.next p) (s.prev p) := by
  have read : Function.update s.next (s.prev p) (s.next p) p = s.next p := by
    rw [Function.update_apply]
    exact ite_id (s.next p)
  simp [unlink, read]

theorem unlink_data : (s.unlink p).data = s.data := by
  simp [unlink]

end InnerLlist

/-! ## The last element that compares equal -/

variable {equal : List UInt8 → Int} {l front back : Elems} {e : Ptr × List UInt8}

theorem lastEqual_concat_of_eq (eq : equal e.2 = 0) : lastEqual equal (l ++ [e]) = some e := by
  simp [lastEqual, eq]

theorem lastEqual_concat_of_ne (ne : equal e.2 ≠ 0) :
    lastEqual equal (l ++ [e]) = lastEqual equal l := by
  simp [lastEqual, ne]

/-- What is erased is the element found. -/
theorem eraseLast_of_some (found : lastEqual equal l = some e) :
    ∃ front back, l = front ++ e :: back ∧ eraseLast equal l = front ++ back := by
  obtain ⟨eq, before, after, cut, ne⟩ := List.find?_eq_some_iff_append.mp found
  have whole : l = after.reverse ++ e :: before.reverse := by
    simpa using congrArg List.reverse cut
  refine ⟨after.reverse, before.reverse, whole, ?_⟩
  rw [eraseLast, cut, List.eraseP_append_right _ (fun x mem => by simpa using ne x mem),
    List.eraseP_cons_of_pos (by exact eq), List.reverse_append]

theorem eraseLast_of_none (missing : lastEqual equal l = none) : eraseLast equal l = l := by
  rw [eraseLast, List.eraseP_of_forall_not, List.reverse_reverse]
  exact fun x mem => List.find?_eq_none.mp missing x mem

/-! ## The represented sequence -/

/-- The nodes hang in a circle with the head and carry the elements of `l`; they
are the ones that are allocated. -/
structure Rep (s : InnerLlist) (l : Elems) : Prop where
  circle : Circle s.next s.prev s.head (l.map Prod.fst)
  data : ∀ e ∈ l, s.data e.1 = e.2
  size : ∀ e ∈ l, e.2.length ≤ s.size
  nonnull : 0 ∉ s.head :: l.map Prod.fst
  live : s.live.Perm (l.map Prod.fst)

/-- The nodes form a circle through the head: the links are inverse to each other, and
the walk in each direction comes back after it has met every node once. -/
structure Circular (s : InnerLlist) (nodes : List Ptr) : Prop where
  inverse : ∀ p ∈ s.head :: nodes, s.prev (s.next p) = p ∧ s.next (s.prev p) = p
  nodup : (s.head :: nodes).Nodup
  forward : List.iterate s.next s.head (nodes.length + 1) = s.head :: nodes
  back : List.iterate s.prev s.head (nodes.length + 1) = s.head :: nodes.reverse
  live : s.live.Perm nodes

variable {s : InnerLlist} {data : List UInt8} {mode : Int} {q : Ptr} {fuel : Nat}

theorem Rep.circular (rep : Rep s l) : Circular s (l.map Prod.fst) where
  inverse _ mem := ⟨(rep.circle.inverse mem).1, (rep.circle.inverse mem).2.1⟩
  nodup := rep.circle.nodup
  forward := rep.circle.iterate_next
  back := rep.circle.iterate_prev
  live := rep.live

theorem creat_rep {size : Nat} {head : Ptr} {nodes : Ptr → Node} (nonnull : head ≠ 0) :
    Rep (InnerLlist.creat size head nodes) [] where
  circle := {
    nodup := List.nodup_singleton _
    first := by simp [InnerLlist.creat]
    seg := trivial
    last := by simp [InnerLlist.creat] }
  data e mem := absurd mem List.not_mem_nil
  size e mem := absurd mem List.not_mem_nil
  nonnull := by simpa [InnerLlist.creat] using nonnull.symm
  live := .nil

/-- Linking a new node in between two neighbours. -/
theorem Rep.link (rep : Rep s (front ++ back)) (nonnull : q ≠ 0) (offHead : q ≠ s.head)
    (offLive : q ∉ s.live) {t : InnerLlist} {left right : Ptr}
    (atLeft : left = (front.map Prod.fst).getLastD s.head)
    (atRight : right = (back.map Prod.fst).headD s.head)
    (next : t.next = Function.update (Function.update s.next q right) left q)
    (prev : t.prev = Function.update (Function.update s.prev q left) right q)
    (stored : t.data = Function.update s.data q (data.take s.size))
    (head : t.head = s.head) (size : t.size = s.size) (live : t.live = q :: s.live) :
    Rep t (front ++ (q, data.take s.size) :: back) := by
  have off : q ∉ (front ++ back).map Prod.fst := mt rep.live.mem_iff.mpr offLive
  have perm : ((front ++ (q, data.take s.size) :: back).map Prod.fst).Perm
      (q :: (front ++ back).map Prod.fst) := List.perm_middle.map Prod.fst
  have circle := rep.circle
  rw [List.map_append] at circle
  constructor
  · rw [next, prev, head, List.map_append, List.map_cons]
    refine circle.insert ?_ atLeft atRight
    rw [← List.map_append]
    exact List.not_mem_cons_of_ne_of_not_mem offHead off
  · intro e mem
    rw [stored]
    rcases List.mem_cons.mp (List.perm_middle.mem_iff.mp mem) with rfl | old
    · exact Function.update_self ..
    · have ne : e.1 ≠ q := ne_of_mem_of_not_mem (List.mem_map_of_mem old) off
      rw [Function.update_of_ne ne, rep.data e old]
  · intro e mem
    rw [size]
    rcases List.mem_cons.mp (List.perm_middle.mem_iff.mp mem) with rfl | old
    · exact List.length_take_le ..
    · exact rep.size e old
  · rw [head]
    intro mem
    rcases List.mem_cons.mp mem with null | mem
    · exact rep.nonnull (null ▸ List.mem_cons_self)
    · rcases List.mem_cons.mp (perm.mem_iff.mp mem) with null | old
      · exact nonnull null.symm
      · exact rep.nonnull (List.mem_cons_of_mem _ old)
  · rw [live]
    exact (rep.live.cons q).trans perm.symm

/-- `llist_insert` puts the element at the front or at the back. -/
theorem Rep.insert (rep : Rep s l) (nonnull : q ≠ 0) (offHead : q ≠ s.head)
    (offLive : q ∉ s.live) :
    ∃ t, s.insert data mode q = (t, 0) ∧ t.head = s.head ∧ t.size = s.size ∧
      Rep t (if mode = LLIST_FORWARD then (q, data.take s.size) :: l
        else l ++ [(q, data.take s.size)]) := by
  rw [InnerLlist.insert, if_neg nonnull]
  refine ⟨_, rfl, ?_⟩
  have first := rep.circle.first
  have last := rep.circle.last
  have offLast : q ≠ s.prev s.head := by
    rw [last]
    rintro same
    rcases List.mem_cons.mp (same ▸ List.getLastD_mem_cons) with atHead | mem
    · exact offHead atHead
    · exact offLive (rep.live.mem_iff.mpr mem)
  by_cases forward : mode = LLIST_FORWARD
  · simp only [if_pos forward]
    refine ⟨by simp, by simp, ?_⟩
    rw [← List.nil_append l] at rep
    apply rep.link nonnull offHead offLive rfl first
    all_goals simp [offHead]
  · simp only [if_neg forward]
    refine ⟨by simp, by simp, ?_⟩
    rw [← List.append_nil l] at rep
    apply rep.link nonnull offHead offLive last rfl
    all_goals simp [Function.update_of_ne offLast]

/-- What a walk towards the front finds at the last node of `front`. -/
theorem Rep.walk (rep : Rep s (front ++ e :: back)) :
    e.1 ≠ s.head ∧ e.1 ≠ 0 ∧ s.data e.1 = e.2 ∧
      s.prev e.1 = (front.map Prod.fst).getLastD s.head := by
  have mem : e ∈ front ++ e :: back := List.mem_append_right front List.mem_cons_self
  have node : e.1 ∈ (front ++ e :: back).map Prod.fst := List.mem_map_of_mem mem
  have seg := rep.circle.seg
  rw [List.map_append] at seg
  refine ⟨?_, ?_, rep.data e mem, (seg_append.mp seg).2.1⟩
  · exact ne_of_mem_of_not_mem node (List.nodup_cons.mp rep.circle.nodup).1
  · exact ne_of_mem_of_not_mem (List.mem_cons_of_mem s.head node) rep.nonnull

/-- The loop of `find_`, with the elements of `back` behind it. -/
theorem Rep.findLoop (rep : Rep s (front ++ back)) (enough : front.length < fuel) :
    s.findLoop equal fuel ((front.map Prod.fst).getLastD s.head) =
      some ((lastEqual equal front).elim 0 Prod.fst) := by
  induction front using List.reverseRecOn generalizing back fuel with
  | nil =>
      obtain ⟨fuel, rfl⟩ := Nat.exists_eq_add_one_of_ne_zero (Nat.ne_of_gt enough)
      exact if_pos rfl
  | append_singleton front e ih =>
      obtain ⟨fuel, rfl⟩ := Nat.exists_eq_add_one_of_ne_zero (Nat.ne_zero_of_lt enough)
      rw [List.append_assoc, List.singleton_append] at rep
      obtain ⟨offHead, -, data, prev⟩ := rep.walk
      rw [List.length_append, List.length_singleton] at enough
      rw [List.map_append, List.map_singleton, getLastD_append_cons, List.getLastD_nil,
        InnerLlist.findLoop, if_neg offHead, data]
      by_cases eq : equal e.2 = 0
      · rw [if_pos eq, lastEqual_concat_of_eq eq]
        rfl
      · rw [if_neg eq, prev, lastEqual_concat_of_ne eq]
        exact ih rep (Nat.lt_of_succ_lt_succ enough)

theorem Rep.find_ (rep : Rep s l) (enough : l.length < fuel) :
    s.find_ fuel equal = some ((lastEqual equal l).elim 0 Prod.fst) := by
  rw [← List.append_nil l] at rep
  have last := rep.circle.last
  rw [List.append_nil] at last
  rw [InnerLlist.find_, last]
  exact rep.findLoop enough

theorem Rep.travelLoop (rep : Rep s (front ++ back)) (enough : front.length < fuel) :
    s.travelLoop fuel ((front.map Prod.fst).getLastD s.head) =
      some (front.reverse.map Prod.snd) := by
  induction front using List.reverseRecOn generalizing back fuel with
  | nil =>
      obtain ⟨fuel, rfl⟩ := Nat.exists_eq_add_one_of_ne_zero (Nat.ne_of_gt enough)
      exact if_pos rfl
  | append_singleton front e ih =>
      obtain ⟨fuel, rfl⟩ := Nat.exists_eq_add_one_of_ne_zero (Nat.ne_zero_of_lt enough)
      rw [List.append_assoc, List.singleton_append] at rep
      obtain ⟨offHead, -, data, prev⟩ := rep.walk
      rw [List.length_append, List.length_singleton] at enough
      rw [List.map_append, List.map_singleton, getLastD_append_cons, List.getLastD_nil,
        InnerLlist.travelLoop, if_neg offHead, data, prev, ih rep (Nat.lt_of_succ_lt_succ enough)]
      simp

/-- `llist_travel` visits the elements from back to front. -/
theorem Rep.travel (rep : Rep s l) (enough : l.length < fuel) :
    s.travel fuel = some (l.reverse.map Prod.snd) := by
  rw [← List.append_nil l] at rep
  have last := rep.circle.last
  rw [List.append_nil] at last
  rw [InnerLlist.travel, last]
  exact rep.travelLoop enough

/-- Taking a node out of the circle and freeing it removes its element. -/
theorem Rep.unlink (rep : Rep s (front ++ e :: back)) :
    ∃ t, (s.unlink e.1).free e.1 = some t ∧ t.head = s.head ∧ t.size = s.size ∧
      Rep t (front ++ back) := by
  have perm : ((front ++ e :: back).map Prod.fst).Perm (e.1 :: (front ++ back).map Prod.fst) :=
    List.perm_middle.map Prod.fst
  have live : s.live.Perm (e.1 :: (front ++ back).map Prod.fst) := rep.live.trans perm
  have mem : e.1 ∈ (s.unlink e.1).live := live.mem_iff.mpr List.mem_cons_self
  have fewer : (front ++ back).Sublist (front ++ e :: back) :=
    .append_left (List.sublist_cons_self e back) front
  have circle := rep.circle
  rw [List.map_append, List.map_cons] at circle
  refine ⟨_, if_pos mem, rfl, rfl, ?_, ?_, ?_, ?_, ?_⟩
  · have removed := circle.remove rfl rfl
    rwa [← List.map_append, ← InnerLlist.unlink_next, ← InnerLlist.unlink_prev] at removed
  · intro x old
    have kept := rep.data x (fewer.mem old)
    rwa [← InnerLlist.unlink_data] at kept
  · exact fun x old => rep.size x (fewer.mem old)
  · exact fun null => rep.nonnull (((fewer.map Prod.fst).cons_cons s.head).mem null)
  · have erased := live.erase e.1
    rwa [List.erase_cons_head] at erased

theorem Rep.delete (rep : Rep s l) (enough : l.length < fuel) :
    ∃ t, s.delete fuel equal = some (t, if (lastEqual equal l).isSome then 1 else 0) ∧
      t.head = s.head ∧ t.size = s.size ∧ Rep t (eraseLast equal l) := by
  rw [InnerLlist.delete, rep.find_ enough]
  cases found : lastEqual equal l with
  | none =>
      rw [eraseLast_of_none found]
      exact ⟨s, rfl, rfl, rfl, rep⟩
  | some e =>
      obtain ⟨front, back, whole, erased⟩ := eraseLast_of_some found
      rw [whole] at rep
      obtain ⟨t, freed, head, size, rep'⟩ := rep.unlink
      rw [erased]
      refine ⟨t, ?_, head, size, rep'⟩
      simp [rep.walk.2.1, freed]

theorem Rep.fetch (rep : Rep s l) (enough : l.length < fuel) :
    ∃ t, s.fetch fuel equal = some (t, if (lastEqual equal l).isSome then 1 else 0,
        (lastEqual equal l).map Prod.snd) ∧
      t.head = s.head ∧ t.size = s.size ∧ Rep t (eraseLast equal l) := by
  rw [InnerLlist.fetch, rep.find_ enough]
  cases found : lastEqual equal l with
  | none =>
      rw [eraseLast_of_none found]
      exact ⟨s, rfl, rfl, rfl, rep⟩
  | some e =>
      obtain ⟨front, back, whole, erased⟩ := eraseLast_of_some found
      rw [whole] at rep
      obtain ⟨t, freed, head, size, rep'⟩ := rep.unlink
      have bytes : (s.data e.1).take s.size = e.2 := by
        rw [rep.walk.2.2.1]
        exact List.take_of_length_le (rep.size e (List.mem_append_right _ List.mem_cons_self))
      rw [erased]
      refine ⟨t, ?_, head, size, rep'⟩
      simp [rep.walk.2.1, freed, bytes]

/-! ## Runs -/

variable {w : World} {op : Op κ}

theorem specStep_length {size : Nat} : (specStep size l op).1.length ≤ l.length + 1 := by
  have erase (equal : List UInt8 → Int) : (eraseLast equal l).length ≤ l.length + 1 := by
    rw [eraseLast, List.length_reverse]
    have fewer : (l.reverse.eraseP fun e => equal e.2 = 0).length ≤ l.reverse.length :=
      List.length_eraseP_le
    rw [List.length_reverse] at fewer
    exact Nat.le_succ_of_le fewer
  cases op with
  | insert data mode q =>
      rw [specStep]
      split <;> simp
  | find key func => exact Nat.le_succ _
  | delete key func => exact erase _
  | fetch key func => exact erase _
  | travel => exact Nat.le_succ _

/-- One call does to the list what it does to the sequence, and returns the same. -/
theorem Rep.step (rep : Rep w.list l) (allowed : Allowed w op) (enough : l.length < fuel) :
    ∃ t, step fuel w op = some ⟨t, w.results ++ [(specStep w.list.size l op).2]⟩ ∧
      t.head = w.list.head ∧ t.size = w.list.size ∧ Rep t (specStep w.list.size l op).1 := by
  cases op with
  | insert data mode q =>
      obtain ⟨nonnull, offHead, offLive⟩ := allowed
      obtain ⟨t, inserted, head, size, rep'⟩ := rep.insert nonnull offHead offLive
      refine ⟨t, ?_, head, size, rep'⟩
      rw [Llist.step, inserted]
      rfl
  | find key func =>
      refine ⟨w.list, ?_, rfl, rfl, rep⟩
      rw [Llist.step, rep.find_ enough]
      rfl
  | delete key func =>
      obtain ⟨t, deleted, head, size, rep'⟩ := rep.delete enough
      refine ⟨t, ?_, head, size, rep'⟩
      rw [Llist.step, deleted]
      rfl
  | fetch key func =>
      obtain ⟨t, fetched, head, size, rep'⟩ := rep.fetch enough
      refine ⟨t, ?_, head, size, rep'⟩
      rw [Llist.step, fetched]
      rfl
  | travel =>
      refine ⟨w.list, ?_, rfl, rfl, rep⟩
      rw [Llist.step, rep.travel enough]
      rfl

/-- A sequence of calls, from a list that represents `l`. -/
theorem Rep.run {ops : List (Op κ)} (rep : Rep w.list l)
    (allowed : Along (Llist.step fuel) Allowed w ops) (enough : l.length + ops.length < fuel) :
    ∃ t, Lib.run (Llist.step fuel) w ops = some t ∧ t.list.head = w.list.head ∧
      Rep t.list (specRun w.list.size (l, w.results) ops).1 ∧
      t.results = (specRun w.list.size (l, w.results) ops).2 := by
  induction ops generalizing w l with
  | nil => exact ⟨w, rfl, rfl, rep, rfl⟩
  | cons op ops ih =>
      rw [List.length_cons] at enough
      have now : l.length < fuel := by omega
      obtain ⟨s, stepped, head, size, rep'⟩ := rep.step allowed.1 now
      have longer : (specStep w.list.size l op).1.length ≤ l.length + 1 := specStep_length
      have later : (specStep w.list.size l op).1.length + ops.length < fuel := by omega
      obtain ⟨t, ran, head', final, results⟩ := ih rep' (allowed.2 _ stepped) later
      rw [size] at final results
      exact ⟨t, run_cons_eq_some.mpr ⟨_, stepped, ran⟩, head'.trans head, final, results⟩

/-- **The list refines the sequence.** Any sequence of calls on a new list runs to its
end, returns what the calls on the empty sequence return, and leaves the nodes of the
elements in a circle through the head. -/
theorem llist_refines {size : Nat} {head : Ptr} {nodes : Ptr → Node} {ops : List (Op κ)}
    (nonnull : head ≠ 0) (enough : ops.length < fuel)
    (allowed : Along (step fuel) Allowed ⟨InnerLlist.creat size head nodes, []⟩ ops) :
    ∃ w, run (step fuel) ⟨InnerLlist.creat size head nodes, []⟩ ops = some w ∧
      w.list.head = head ∧ w.results = (specRun size ([], []) ops).2 ∧
      (∀ e ∈ (specRun size ([], []) ops).1, w.list.data e.1 = e.2) ∧
      Circular w.list ((specRun size ([], []) ops).1.map Prod.fst) := by
  have start : Rep (⟨InnerLlist.creat size head nodes, []⟩ : World).list [] := creat_rep nonnull
  obtain ⟨w, ran, kept, rep, results⟩ := start.run allowed (by simpa using enough)
  exact ⟨w, ran, kept, results, rep.data, rep.circular⟩

/-- Two elements, of which the one at the back is fetched. -/
theorem llist_refines_two :
    ∃ w, run (step 4) ⟨InnerLlist.creat 1 1 fun _ => ⟨0, 0, []⟩, []⟩
        [.insert [7] 1 2, .insert [7] 2 3, .fetch 7 fun (key : UInt8) data =>
          if data = [key] then 0 else 1] = some w ∧
      w.list.head = 1 ∧ w.results = [.insert 0, .insert 0, .fetch 1 (some [7])] ∧
      (∀ e ∈ [(2, [(7 : UInt8)])], w.list.data e.1 = e.2) ∧ Circular w.list [2] :=
  llist_refines (by decide) (by decide) (by decide)

end Shang.Llist
