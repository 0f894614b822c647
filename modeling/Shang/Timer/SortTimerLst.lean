import Shang.Lib.Run
import Shang.Lib.DList
import Mathlib.Data.List.Sort

/-!
# The sorted timer list

`sort_timer_lst` of `11-2.lst_timer`: timers on a doubly linked list in
nondecreasing order of `expire`. A timer is named by its address, and the
memory of the timer objects is part of the modelled state.

`Rep` relates the state to the list of timers it represents. Each operation
refines an operation on that list: `add_timer` is an ordered insertion behind
equal timers, `del_timer` a removal, `adjust_timer` an ordered insertion into
the rest of the list behind the timer, and `tick` drops the longest prefix of
expired timers. After a tick that empties the list `tail` dangles, so `Rep`
constrains it only for a non-empty list.
-/

namespace Shang.Timer.SortTimerLst

open Shang.Lib

/-- The address of a timer; `NULL` is 0. -/
abbrev Ptr := Nat

/-- `util_timer` without the callback and its argument. -/
structure UtilTimer where
  expire : Int
  prev : Ptr
  next : Ptr

/-- `sort_timer_lst`, with the memory of the timer objects. -/
structure Lst where
  head : Ptr
  tail : Ptr
  timers : Ptr → UtilTimer

namespace Lst

/-- `p->expire`. -/
def expire (s : Lst) (p : Ptr) : Int := (s.timers p).expire

/-- `p->next`. -/
def next (s : Lst) (p : Ptr) : Ptr := (s.timers p).next

/-- `p->prev`. -/
def prev (s : Lst) (p : Ptr) : Ptr := (s.timers p).prev

/-- `p->next = x`. -/
def setNext (s : Lst) (p x : Ptr) : Lst :=
  { s with timers := Function.update s.timers p { s.timers p with next := x } }

/-- `p->prev = x`. -/
def setPrev (s : Lst) (p x : Ptr) : Lst :=
  { s with timers := Function.update s.timers p { s.timers p with prev := x } }

/-- `p->expire = e`. -/
def setExpire (s : Lst) (p : Ptr) (e : Int) : Lst :=
  { s with timers := Function.update s.timers p { s.timers p with expire := e } }

/-- `head = x`. -/
def setHead (s : Lst) (x : Ptr) : Lst := { s with head := x }

/-- `tail = x`. -/
def setTail (s : Lst) (x : Ptr) : Lst := { s with tail := x }

/-- The constructor, with any memory. -/
def init (timers : Ptr → UtilTimer) : Lst := ⟨0, 0, timers⟩

/-- The loop of `add_timer(timer, lst_head)`. -/
def addTimerLoop : Nat → Lst → Ptr → Ptr → Ptr → Option Lst
  | 0, _, _, _, _ => none
  | fuel + 1, s, timer, prev, tmp =>
      if tmp = 0 then
        some ((((s.setNext prev timer).setPrev timer prev).setNext timer 0).setTail timer)
      else if s.expire timer < s.expire tmp then
        some ((((s.setNext prev timer).setPrev tmp timer).setPrev timer prev).setNext timer tmp)
      else addTimerLoop fuel s timer tmp (s.next tmp)

/-- `add_timer(timer, lst_head)`. -/
def addTimerAfter (fuel : Nat) (s : Lst) (timer lstHead : Ptr) : Option Lst :=
  addTimerLoop fuel s timer lstHead (s.next lstHead)

/-- `add_timer(timer)`. -/
def addTimer (fuel : Nat) (s : Lst) (timer : Ptr) : Option Lst :=
  if timer = 0 then some s
  else if s.head = 0 then some ((s.setTail timer).setHead timer)
  else if s.expire timer < s.expire s.head then
    some (((s.setNext timer s.head).setPrev s.head timer).setHead timer)
  else addTimerAfter fuel s timer s.head

/-- `del_timer`. -/
def delTimer (s : Lst) (timer : Ptr) : Lst :=
  if timer = 0 then s
  else if timer = s.head ∧ timer = s.tail then (s.setHead 0).setTail 0
  else if timer = s.head then
    let s := s.setHead (s.next timer)
    s.setPrev s.head 0
  else if timer = s.tail then
    let s := s.setTail (s.prev timer)
    s.setNext s.tail 0
  else
    let s := s.setPrev (s.next timer) (s.prev timer)
    s.setNext (s.prev timer) (s.next timer)

/-- `adjust_timer`. -/
def adjustTimer (fuel : Nat) (s : Lst) (timer : Ptr) : Option Lst :=
  if timer = 0 then some s
  else
    let tmp := s.next timer
    if tmp = 0 ∨ s.expire timer < s.expire tmp then some s
    else if timer = s.head then
      let s := s.setHead (s.next s.head)
      let s := s.setPrev s.head 0
      let s := s.setNext timer 0
      addTimerAfter fuel s timer s.head
    else
      let s := s.setNext (s.prev timer) (s.next timer)
      let s := s.setPrev (s.next timer) (s.prev timer)
      addTimerAfter fuel s timer (s.next timer)

/-- The loop of `tick` at the time `cur`, with the timers whose callbacks ran. -/
def tickLoop : Nat → Lst → Int → Ptr → Option (Lst × List Ptr)
  | 0, _, _, _ => none
  | fuel + 1, s, cur, tmp =>
      if tmp = 0 then some (s, [])
      else if cur < s.expire tmp then some (s, [])
      else
        let s := s.setHead (s.next tmp)
        let s := if s.head ≠ 0 then s.setPrev s.head 0 else s
        (tickLoop fuel s cur s.head).map fun (s, fired) => (s, tmp :: fired)

/-- `tick`, called when `time(NULL)` is `cur`. -/
def tick (fuel : Nat) (s : Lst) (cur : Int) : Option (Lst × List Ptr) :=
  if s.head = 0 then some (s, [])
  else tickLoop fuel s cur s.head

/-! ## Assignments to one field -/

variable {s t : Lst} {p q x : Ptr} {e : Int}

@[simp] theorem setNext_next : (s.setNext p x).next = Function.update s.next p x := by
  funext q
  by_cases same : q = p <;> simp [next, setNext, same]

@[simp] theorem setNext_prev : (s.setNext p x).prev = s.prev := by
  funext q
  by_cases same : q = p <;> simp [prev, setNext, same]

@[simp] theorem setNext_expire : (s.setNext p x).expire = s.expire := by
  funext q
  by_cases same : q = p <;> simp [expire, setNext, same]

@[simp] theorem setPrev_next : (s.setPrev p x).next = s.next := by
  funext q
  by_cases same : q = p <;> simp [next, setPrev, same]

@[simp] theorem setPrev_prev : (s.setPrev p x).prev = Function.update s.prev p x := by
  funext q
  by_cases same : q = p <;> simp [prev, setPrev, same]

@[simp] theorem setPrev_expire : (s.setPrev p x).expire = s.expire := by
  funext q
  by_cases same : q = p <;> simp [expire, setPrev, same]

@[simp] theorem setExpire_next : (s.setExpire p e).next = s.next := by
  funext q
  by_cases same : q = p <;> simp [next, setExpire, same]

@[simp] theorem setExpire_prev : (s.setExpire p e).prev = s.prev := by
  funext q
  by_cases same : q = p <;> simp [prev, setExpire, same]

@[simp] theorem setExpire_expire : (s.setExpire p e).expire = Function.update s.expire p e := by
  funext q
  by_cases same : q = p <;> simp [expire, setExpire, same]

@[simp] theorem setNext_head : (s.setNext p x).head = s.head := rfl

@[simp] theorem setNext_tail : (s.setNext p x).tail = s.tail := rfl

@[simp] theorem setPrev_head : (s.setPrev p x).head = s.head := rfl

@[simp] theorem setPrev_tail : (s.setPrev p x).tail = s.tail := rfl

@[simp] theorem setExpire_head : (s.setExpire p e).head = s.head := rfl

@[simp] theorem setExpire_tail : (s.setExpire p e).tail = s.tail := rfl

@[simp] theorem setHead_next : (s.setHead x).next = s.next := rfl

@[simp] theorem setHead_prev : (s.setHead x).prev = s.prev := rfl

@[simp] theorem setHead_expire : (s.setHead x).expire = s.expire := rfl

@[simp] theorem setTail_next : (s.setTail x).next = s.next := rfl

@[simp] theorem setTail_prev : (s.setTail x).prev = s.prev := rfl

@[simp] theorem setTail_expire : (s.setTail x).expire = s.expire := rfl

@[simp] theorem setHead_head : (s.setHead x).head = x := rfl

@[simp] theorem setHead_tail : (s.setHead x).tail = s.tail := rfl

@[simp] theorem setTail_head : (s.setTail x).head = s.head := rfl

@[simp] theorem setTail_tail : (s.setTail x).tail = x := rfl

/-! ## The represented list -/

/-- The state represents the timers of `l`, in list order. -/
structure Rep (s : Lst) (l : List Ptr) : Prop where
  seg : Seg s.next s.prev 0 l 0
  head : s.head = l.headD 0
  tail : l ≠ [] → s.tail = l.getLastD 0
  nodup : l.Nodup
  nonnull : 0 ∉ l

/-- Insertion behind every timer that does not expire later. -/
def place (s : Lst) (timer : Ptr) (l : List Ptr) : List Ptr :=
  l.orderedInsert (fun a b => s.expire a < s.expire b) timer

variable {front rest l : List Ptr} {timer : Ptr} {fuel : Nat} {cur : Int}

theorem place_cons_of_lt (earlier : s.expire timer < s.expire q) :
    s.place timer (q :: l) = timer :: q :: l := by
  rw [place, List.orderedInsert_cons, if_pos earlier]

theorem place_cons_of_not_lt (later : ¬ s.expire timer < s.expire q) :
    s.place timer (q :: l) = q :: s.place timer l := by
  rw [place, List.orderedInsert_cons, if_neg later, place]

theorem init_rep (timers : Ptr → UtilTimer) : (init timers).Rep [] where
  seg := trivial
  head := rfl
  tail h := absurd rfl h
  nodup := List.nodup_nil
  nonnull := List.not_mem_nil

theorem Rep.ne_zero (rep : s.Rep l) (mem : p ∈ l) : p ≠ 0 := fun same => rep.nonnull (same ▸ mem)

theorem Rep.eq_nil_iff (rep : s.Rep l) : l = [] ↔ s.head = 0 := by
  rw [rep.head]
  cases l with
  | nil => simp
  | cons p l => simpa using rep.ne_zero List.mem_cons_self

/-- The four assignments that link a timer in between two others. -/
theorem Rep.insert (rep : s.Rep (front ++ p :: q :: rest)) (fresh : timer ∉ front ++ p :: q :: rest)
    (nonnull : timer ≠ 0) :
    ((((s.setNext p timer).setPrev q timer).setPrev timer p).setNext timer q).Rep
      (front ++ p :: timer :: q :: rest) where
  seg := by simpa using rep.seg.insert rep.nodup fresh
  head := by
    have head := rep.head
    cases front <;> simpa using head
  tail _ := by simpa using rep.tail (by simp)
  nodup := by
    have perm : (front ++ [p] ++ timer :: q :: rest).Perm (timer :: (front ++ [p] ++ q :: rest)) :=
      List.perm_middle
    simp only [List.append_assoc, List.singleton_append] at perm
    exact perm.nodup_iff.mpr (List.nodup_cons.mpr ⟨fresh, rep.nodup⟩)
  nonnull := by
    have old := rep.nonnull
    simp only [List.mem_append, List.mem_cons, not_or] at old ⊢
    exact ⟨old.1, old.2.1, nonnull.symm, old.2.2⟩

/-- The assignments that link a timer in behind the last one. -/
theorem Rep.insert_last (rep : s.Rep (front ++ [p])) (fresh : timer ∉ front ++ [p])
    (nonnull : timer ≠ 0) :
    ((((s.setNext p timer).setPrev timer p).setNext timer 0).setTail timer).Rep
      (front ++ [p, timer]) where
  seg := by
    have seg := rep.seg.insert_last rep.nodup fresh
    rw [List.append_assoc] at seg
    simpa using seg
  head := by
    have head := rep.head
    cases front <;> simpa using head
  tail _ := by simp
  nodup := by
    have perm : (front ++ [p, timer]).Perm (timer :: (front ++ [p])) := by
      rw [List.append_cons]
      exact List.perm_append_singleton _ _
    exact perm.nodup_iff.mpr (List.nodup_cons.mpr ⟨fresh, rep.nodup⟩)
  nonnull := by
    have old := rep.nonnull
    simp only [List.mem_append, List.mem_cons, List.not_mem_nil, or_false, not_or] at old ⊢
    exact ⟨old.1, old.2, nonnull.symm⟩

/-- The loop of `add_timer(timer, lst_head)` walks past the timers that do not
expire later and links the timer in behind them. -/
theorem addTimerLoop_spec (front : List Ptr) (rep : s.Rep (front ++ p :: rest))
    (fresh : timer ∉ front ++ p :: rest) (nonnull : timer ≠ 0) (enough : rest.length < fuel) :
    ∃ t, addTimerLoop fuel s timer p (rest.headD 0) = some t ∧ t.expire = s.expire ∧
      t.Rep (front ++ p :: s.place timer rest) := by
  obtain ⟨fuel, rfl⟩ := Nat.exists_eq_succ_of_ne_zero (Nat.ne_of_gt (Nat.zero_lt_of_lt enough))
  induction rest generalizing front p fuel with
  | nil =>
      exact ⟨_, if_pos rfl, by simp, rep.insert_last fresh nonnull⟩
  | cons q rest ih =>
      have qNonnull : q ≠ 0 := rep.ne_zero (by simp)
      rw [addTimerLoop, List.headD_cons, if_neg qNonnull]
      by_cases earlier : s.expire timer < s.expire q
      · refine ⟨_, if_pos earlier, by simp, ?_⟩
        rw [place_cons_of_lt earlier]
        exact rep.insert fresh nonnull
      · rw [List.append_cons] at rep fresh
        have link : s.next q = rest.headD 0 := (seg_append.mp rep.seg).2.2.1
        obtain ⟨fuel, rfl⟩ := Nat.exists_eq_succ_of_ne_zero
          (Nat.ne_of_gt (Nat.zero_lt_of_lt (Nat.lt_of_succ_lt_succ enough)))
        obtain ⟨t, placed, expire, rep'⟩ := ih _ rep fresh _ (Nat.lt_of_succ_lt_succ enough)
        refine ⟨t, by rw [if_neg earlier, link, placed], expire, ?_⟩
        rw [place_cons_of_not_lt earlier, List.append_cons]
        exact rep'

/-- `add_timer` of a timer with null links inserts it into the list. -/
theorem addTimer_spec (rep : s.Rep l) (fresh : timer ∉ l) (nonnull : timer ≠ 0)
    (prev : s.prev timer = 0) (next : s.next timer = 0) (enough : l.length ≤ fuel) :
    ∃ t, addTimer fuel s timer = some t ∧ t.expire = s.expire ∧ t.Rep (s.place timer l) := by
  rw [addTimer, if_neg nonnull]
  rcases l with _ | ⟨q, l⟩
  · refine ⟨(s.setTail timer).setHead timer, if_pos rep.head, rfl, ?_⟩
    exact {
      seg := ⟨prev, next, trivial⟩
      head := rfl
      tail := fun _ => rfl
      nodup := List.nodup_singleton timer
      nonnull := by simpa [place] using nonnull.symm }
  · have head : s.head = q := rep.head
    have qNonnull : q ≠ 0 := rep.ne_zero List.mem_cons_self
    rw [head, if_neg qNonnull]
    by_cases earlier : s.expire timer < s.expire q
    · refine ⟨_, if_pos earlier, by simp, ?_⟩
      rw [place_cons_of_lt earlier]
      exact {
        seg := by simpa using rep.seg.insert_first rep.nodup fresh prev
        head := rfl
        tail := fun _ => by simpa using rep.tail (List.cons_ne_nil q l)
        nodup := List.nodup_cons.mpr ⟨fresh, rep.nodup⟩
        nonnull := by simpa [nonnull.symm] using rep.nonnull }
    · obtain ⟨t, placed, expire, rep'⟩ := addTimerLoop_spec [] rep fresh nonnull enough
      have link : s.next q = l.headD 0 := rep.seg.2.1
      refine ⟨t, by rw [if_neg earlier, addTimerAfter, link, placed], expire, ?_⟩
      rw [place_cons_of_not_lt earlier]
      exact rep'

/-! ## Taking a timer out -/

/-- The two assignments that unlink a timer from between two others. -/
theorem Rep.remove (rep : s.Rep (front ++ p :: timer :: q :: rest))
    (next : t.next = Function.update s.next p q) (prev : t.prev = Function.update s.prev q p)
    (head : t.head = s.head) (tail : t.tail = s.tail) : t.Rep (front ++ p :: q :: rest) where
  seg := by
    rw [next, prev]
    exact rep.seg.remove rep.nodup
  head := by
    rw [head, rep.head]
    cases front <;> rfl
  tail _ := by
    rw [tail, rep.tail (by simp)]
    simp
  nodup := rep.nodup.sublist
    (.append_left (.cons_cons p (List.sublist_cons_self timer _)) front)
  nonnull mem := rep.nonnull
    ((List.Sublist.append_left (.cons_cons p (List.sublist_cons_self timer _)) front).subset mem)

/-- The assignments that unlink the first of several timers. -/
theorem Rep.remove_first (rep : s.Rep (timer :: q :: rest)) (next : t.next = s.next)
    (prev : t.prev = Function.update s.prev q 0) (head : t.head = q) (tail : t.tail = s.tail) :
    t.Rep (q :: rest) where
  seg := by
    rw [next, prev]
    exact rep.seg.remove_first rep.nodup
  head := head
  tail _ := by
    rw [tail, rep.tail (by simp)]
    rfl
  nodup := (List.nodup_cons.mp rep.nodup).2
  nonnull mem := rep.nonnull (List.mem_cons_of_mem timer mem)

/-- The assignments that unlink the last of several timers. -/
theorem Rep.remove_last (rep : s.Rep (front ++ [p] ++ [timer]))
    (next : t.next = Function.update s.next p 0) (prev : t.prev = s.prev)
    (head : t.head = s.head) (tail : t.tail = p) : t.Rep (front ++ [p]) where
  seg := by
    rw [next, prev]
    exact rep.seg.remove_last rep.nodup
  head := by
    rw [head, rep.head]
    cases front <;> rfl
  tail _ := by simp [tail]
  nodup := (List.nodup_append'.mp rep.nodup).1
  nonnull mem := rep.nonnull (List.mem_append_left _ mem)

/-- `del_timer` takes the timer out of the list. -/
theorem delTimer_spec (rep : s.Rep (front ++ timer :: rest)) :
    (s.delTimer timer).expire = s.expire ∧ (s.delTimer timer).Rep (front ++ rest) := by
  have nonnull : timer ≠ 0 := rep.ne_zero (by simp)
  have tail : s.tail = rest.getLastD timer := by rw [rep.tail (by simp), getLastD_append_cons]
  have next : s.next timer = rest.headD 0 := (seg_append.mp rep.seg).2.2.1
  have prev : s.prev timer = front.getLastD 0 := (seg_append.mp rep.seg).2.1
  obtain ⟨-, restNodup, apart⟩ := List.nodup_append'.mp rep.nodup
  have notTail : ∀ q rest', rest = q :: rest' → timer ≠ s.tail := by
    rintro q rest' rfl same
    rw [tail, List.getLastD_cons] at same
    exact (List.nodup_cons.mp restNodup).1 (same ▸ List.getLastD_mem_cons)
  rw [delTimer, if_neg nonnull]
  rcases List.eq_nil_or_concat front with rfl | ⟨front, p, rfl⟩
  · have isHead : timer = s.head := rep.head.symm
    rcases rest with _ | ⟨q, rest⟩
    · rw [if_pos ⟨isHead, tail.symm⟩]
      exact ⟨rfl, trivial, rfl, fun h => absurd rfl h, List.nodup_nil, List.not_mem_nil⟩
    · rw [if_neg fun both => notTail q rest rfl both.2, if_pos isHead]
      simp only [next, List.headD_cons]
      exact ⟨by simp, rep.remove_first (by simp) (by simp) rfl rfl⟩
  · rw [List.concat_eq_append] at *
    have notHead : timer ≠ s.head := by
      intro same
      have mem : timer ∈ front ++ [p] := by
        rw [same, rep.head]
        cases front <;> simp
      exact List.disjoint_left.mp apart mem List.mem_cons_self
    have prevP : s.prev timer = p := by rw [prev]; simp
    rw [if_neg fun both => notHead both.1, if_neg notHead]
    rcases rest with _ | ⟨q, rest⟩
    · have isTail : timer = s.tail := tail.symm
      rw [if_pos isTail, List.append_nil]
      simp only [prevP]
      exact ⟨by simp, rep.remove_last (by simp) (by simp) rfl rfl⟩
    · rw [if_neg (notTail q rest rfl)]
      have qOff : timer ≠ q := fun same =>
        (List.nodup_cons.mp restNodup).1 (same ▸ List.mem_cons_self)
      rw [List.append_assoc] at rep ⊢
      simp only [next, prevP, List.headD_cons, setPrev_next, setPrev_prev,
        Function.update_of_ne qOff]
      exact ⟨by simp, rep.remove (by simp) (by simp) rfl rfl⟩

/-! ## Adjusting a timer -/

theorem place_congr (same : t.expire = s.expire) : t.place timer l = s.place timer l := by
  rw [place, place, same]

theorem Rep.setNext_off (rep : s.Rep l) (off : p ∉ l) : (s.setNext p x).Rep l where
  seg := by simpa using rep.seg.setNext_off off
  head := rep.head
  tail := rep.tail
  nodup := rep.nodup
  nonnull := rep.nonnull

/-- `adjust_timer` moves the timer behind the later timers that do not expire
later than it does now. -/
theorem adjustTimer_spec (rep : s.Rep (front ++ timer :: rest)) (enough : rest.length ≤ fuel) :
    ∃ t, adjustTimer fuel s timer = some t ∧ t.expire = s.expire ∧
      t.Rep (front ++ s.place timer rest) := by
  have nonnull : timer ≠ 0 := rep.ne_zero (by simp)
  have next : s.next timer = rest.headD 0 := (seg_append.mp rep.seg).2.2.1
  have prev : s.prev timer = front.getLastD 0 := (seg_append.mp rep.seg).2.1
  obtain ⟨frontNodup, restNodup, apart⟩ := List.nodup_append'.mp rep.nodup
  have offFront : timer ∉ front := fun mem =>
    ne_of_mem_append rep.nodup (List.mem_append_left _ mem) rfl
  have offRest : timer ∉ rest := fun mem =>
    ne_of_mem_append rep.nodup (List.mem_append_right _ mem) rfl
  rw [adjustTimer, if_neg nonnull]
  simp only [next]
  rcases rest with _ | ⟨q, rest⟩
  · exact ⟨s, if_pos (Or.inl rfl), rfl, rep⟩
  have qNonnull : q ≠ 0 := rep.ne_zero (by simp)
  by_cases earlier : s.expire timer < s.expire q
  · refine ⟨s, if_pos (Or.inr earlier), rfl, ?_⟩
    rw [place_cons_of_lt earlier]
    exact rep
  rw [List.headD_cons, if_neg (not_or.mpr ⟨qNonnull, earlier⟩), place_cons_of_not_lt earlier]
  have link : s.next q = rest.headD 0 := (seg_append.mp rep.seg).2.2.2.2.1
  rcases List.eq_nil_or_concat front with rfl | ⟨front, p, rfl⟩
  · have isHead : timer = s.head := rep.head.symm
    rw [if_pos isHead, ← isHead]
    have out : (((s.setHead q).setPrev q 0).setNext timer 0).Rep (q :: rest) :=
      (rep.remove_first (t := (s.setHead q).setPrev q 0) (by simp) (by simp) rfl rfl).setNext_off
        offRest
    obtain ⟨t, placed, expire, rep'⟩ := addTimerLoop_spec [] out offRest nonnull enough
    refine ⟨t, ?_, by simpa using expire, ?_⟩
    · have qOff : q ≠ timer := fun same => offRest (same ▸ List.mem_cons_self)
      simpa [addTimerAfter, next, link, Function.update_of_ne qOff] using placed
    · rwa [place_congr (s := s) (by simp)] at rep'
  · rw [List.concat_eq_append] at *
    have notHead : timer ≠ s.head := by
      intro same
      have mem : timer ∈ front ++ [p] := by
        rw [same, rep.head]
        cases front <;> simp
      exact offFront mem
    have prevP : s.prev timer = p := by rw [prev]; simp
    have timerOff : timer ≠ p := fun same => offFront (same ▸ by simp)
    have qOff : q ≠ p := by
      intro same
      have mem : q ∈ front ++ [p] := by simp [same]
      exact List.disjoint_left.mp apart mem (by simp)
    rw [if_neg notHead]
    rw [List.append_assoc] at rep
    have out : ((s.setNext p q).setPrev q p).Rep (front ++ p :: q :: rest) :=
      rep.remove (by simp) (by simp) rfl rfl
    rw [List.append_cons] at out
    have fresh : timer ∉ front ++ [p] ++ q :: rest := by
      rw [List.mem_append]
      exact not_or.mpr ⟨offFront, offRest⟩
    obtain ⟨t, placed, expire, rep'⟩ := addTimerLoop_spec (front ++ [p]) out fresh nonnull enough
    refine ⟨t, ?_, by simpa using expire, ?_⟩
    · simpa [addTimerAfter, next, prevP, link, Function.update_of_ne qOff,
        Function.update_of_ne timerOff] using placed
    · rwa [place_congr (s := s) (by simp)] at rep'

/-! ## The clock -/

/-- The loop of `tick` takes expired timers off the front of the list. -/
theorem tickLoop_spec (rep : s.Rep l) (enough : l.length < fuel) :
    ∃ t, tickLoop fuel s cur s.head = some (t, l.takeWhile (s.expire · ≤ cur)) ∧
      t.expire = s.expire ∧ t.Rep (l.dropWhile (s.expire · ≤ cur)) := by
  obtain ⟨fuel, rfl⟩ := Nat.exists_eq_succ_of_ne_zero (Nat.ne_of_gt (Nat.zero_lt_of_lt enough))
  induction l generalizing s fuel with
  | nil => exact ⟨s, if_pos rep.head, rfl, rep⟩
  | cons p l ih =>
      have head : s.head = p := rep.head
      rw [tickLoop, head, if_neg (rep.ne_zero List.mem_cons_self)]
      by_cases later : cur < s.expire p
      · have stop : ¬ s.expire p ≤ cur := not_le.mpr later
        exact ⟨s, by simp [if_pos later, stop], rfl,
          by simpa [List.dropWhile_cons, stop] using rep⟩
      · have go : s.expire p ≤ cur := not_lt.mp later
        have link : s.next p = l.headD 0 := rep.seg.2.1
        obtain ⟨fuel, rfl⟩ := Nat.exists_eq_succ_of_ne_zero
          (Nat.ne_of_gt (Nat.zero_lt_of_lt (Nat.lt_of_succ_lt_succ enough)))
        obtain ⟨u, out, unhead, unexpire⟩ : ∃ u : Lst, u.Rep l ∧
            (if (s.setHead (s.next p)).head ≠ 0 then
              (s.setHead (s.next p)).setPrev (s.setHead (s.next p)).head 0
              else s.setHead (s.next p)) = u ∧ u.expire = s.expire := by
          rcases l with _ | ⟨q, l⟩
          · refine ⟨s.setHead 0, ?_, by simp [link], rfl⟩
            exact ⟨trivial, rfl, fun h => absurd rfl h, List.nodup_nil, List.not_mem_nil⟩
          · have qNonnull : q ≠ 0 := rep.ne_zero (by simp)
            exact ⟨(s.setHead q).setPrev q 0, rep.remove_first (by simp) (by simp) rfl rfl,
              by simp [link, qNonnull], by simp⟩
        obtain ⟨t, fired, expire, rep'⟩ := ih out fuel (Nat.lt_of_succ_lt_succ enough)
        rw [if_neg later]
        simp only [unhead, fired, unexpire] at *
        exact ⟨t, by simp [go], expire,
          by simpa [List.dropWhile_cons, go] using rep'⟩

theorem tick_spec (cur : Int) (rep : s.Rep l) (enough : l.length < fuel) :
    ∃ t, tick fuel s cur = some (t, l.takeWhile (s.expire · ≤ cur)) ∧
      t.expire = s.expire ∧ t.Rep (l.dropWhile (s.expire · ≤ cur)) := by
  rw [tick]
  split
  · rename_i empty
    obtain rfl := rep.eq_nil_iff.mpr empty
    exact ⟨s, rfl, rfl, rep⟩
  · exact tickLoop_spec rep enough

/-! ## The order -/

/-- The timers are in nondecreasing order of `expire`. -/
def Sorted (s : Lst) (l : List Ptr) : Prop := l.Pairwise fun p q => s.expire p ≤ s.expire q

theorem Sorted.congr (sorted : s.Sorted l) (same : ∀ p ∈ l, t.expire p = s.expire p) :
    t.Sorted l := by
  refine sorted.imp_of_mem fun {p q} pMem qMem ordered => ?_
  rw [same p pMem, same q qMem]
  exact ordered

theorem place_perm : (s.place timer l).Perm (timer :: l) := List.perm_orderedInsert _ _ _

theorem place_sorted (sorted : s.Sorted l) : s.Sorted (s.place timer l) := by
  induction l with
  | nil => exact List.pairwise_singleton _ _
  | cons q l ih =>
      obtain ⟨first, rest⟩ := List.pairwise_cons.mp sorted
      by_cases earlier : s.expire timer < s.expire q
      · rw [place_cons_of_lt earlier]
        refine List.pairwise_cons.mpr ⟨fun r mem => ?_, sorted⟩
        rcases List.mem_cons.mp mem with rfl | mem
        · exact earlier.le
        · exact earlier.le.trans (first r mem)
      · rw [place_cons_of_not_lt earlier]
        refine List.pairwise_cons.mpr ⟨fun r mem => ?_, ih rest⟩
        rcases List.mem_cons.mp (place_perm.mem_iff.mp mem) with rfl | mem
        · exact not_lt.mp earlier
        · exact first r mem

/-- Placing a timer that has become no earlier than the ones in front of it
keeps the order. -/
theorem place_behind_sorted (sorted : s.Sorted (front ++ rest))
    (later : ∀ p ∈ front, s.expire p ≤ s.expire timer) :
    s.Sorted (front ++ s.place timer rest) := by
  obtain ⟨frontSorted, restSorted, across⟩ := List.pairwise_append.mp sorted
  refine List.pairwise_append.mpr ⟨frontSorted, place_sorted restSorted, fun p pMem q qMem => ?_⟩
  rcases List.mem_cons.mp (place_perm.mem_iff.mp qMem) with rfl | qMem
  · exact later p pMem
  · exact across p pMem q qMem

/-- In a sorted list the expired timers are exactly those in front. -/
theorem Sorted.takeWhile_eq (sorted : s.Sorted l) :
    l.takeWhile (s.expire · ≤ cur) = l.filter (s.expire · ≤ cur) ∧
      l.dropWhile (s.expire · ≤ cur) = l.filter (cur < s.expire ·) := by
  induction l with
  | nil => exact ⟨rfl, rfl⟩
  | cons p l ih =>
      obtain ⟨first, rest⟩ := List.pairwise_cons.mp sorted
      by_cases expired : s.expire p ≤ cur
      · obtain ⟨taken, dropped⟩ := ih rest
        simp [expired, taken, dropped]
      · have later : cur < s.expire p := not_le.mp expired
        have none : l.filter (s.expire · ≤ cur) = [] := by
          refine List.filter_eq_nil_iff.mpr fun q mem => ?_
          have := first q mem
          simp only [decide_eq_true_eq]
          omega
        have all : l.filter (cur < s.expire ·) = l := by
          refine List.filter_eq_self.mpr fun q mem => ?_
          have := first q mem
          simp only [decide_eq_true_eq]
          omega
        simp [expired, later, none, all]

end Lst

open Lst

/-! ## Runs -/

/-- An operation. A timer is added with null links and with some `expire`; its
`expire` changes when it is adjusted. -/
inductive Op
  | add (timer : Ptr) (expire : Int)
  | del (timer : Ptr)
  | adjust (timer : Ptr) (expire : Int)
  | tick (now : Int)

/-- The list and the timers a client holds as live: those added, without those
deleted and those a tick found expired. -/
structure World where
  lst : Lst
  live : List Ptr

/-- One operation. -/
def step (fuel : Nat) (w : World) : Op → Option World
  | .add timer expire =>
      let lst := { w.lst with timers := Function.update w.lst.timers timer ⟨expire, 0, 0⟩ }
      (lst.addTimer fuel timer).map (⟨·, timer :: w.live⟩)
  | .del timer => some ⟨w.lst.delTimer timer, w.live.erase timer⟩
  | .adjust timer expire =>
      ((w.lst.setExpire timer expire).adjustTimer fuel timer).map (⟨·, w.live⟩)
  | .tick now =>
      (w.lst.tick fuel now).map fun (lst, _) =>
        ⟨lst, w.live.filter (now < w.lst.expire ·)⟩

/-- What the client keeps to: it adds fresh timers, deletes and adjusts live
ones, and only raises `expire`. -/
def Allowed (w : World) : Op → Prop
  | .add timer _ => timer ≠ 0 ∧ timer ∉ w.live
  | .del timer => timer ∈ w.live
  | .adjust timer expire => timer ∈ w.live ∧ w.lst.expire timer ≤ expire
  | .tick _ => True

/-- The state represents a sorted list of exactly the live timers. -/
def Good (w : World) : Prop := ∃ l, w.lst.Rep l ∧ w.lst.Sorted l ∧ l.Perm w.live

/-- An allowed operation is defined and leads to a good state. -/
theorem step_good {fuel : Nat} {w : World} {op : Op} (good : Good w) (allowed : Allowed w op)
    (enough : w.live.length < fuel) :
    ∃ w', step fuel w op = some w' ∧ Good w' ∧ w'.live.length ≤ w.live.length + 1 := by
  obtain ⟨l, rep, sorted, perm⟩ := good
  rw [← perm.length_eq] at enough ⊢
  cases op with
  | add timer expire =>
      obtain ⟨nonnull, fresh⟩ := allowed
      have off : timer ∉ l := fun mem => fresh (perm.mem_iff.mp mem)
      let s : Lst := { w.lst with timers := Function.update w.lst.timers timer ⟨expire, 0, 0⟩ }
      have same : ∀ p ∈ l, s.timers p = w.lst.timers p := fun p mem =>
        Function.update_of_ne (ne_of_mem_of_not_mem mem off) _ _
      have new : s.timers timer = ⟨expire, 0, 0⟩ := Function.update_self _ _ _
      have repS : s.Rep l :=
        { rep with
          seg := rep.seg.congr fun p mem => by
            simp only [Lst.next, Lst.prev, same p mem, and_self] }
      obtain ⟨t, added, unexpire, rep'⟩ := addTimer_spec repS off nonnull
        (by rw [Lst.prev, new]) (by rw [Lst.next, new]) (Nat.le_of_lt enough)
      have sortedS : s.Sorted l := sorted.congr fun p mem => by
        rw [Lst.expire, same p mem, Lst.expire]
      refine ⟨⟨t, timer :: w.live⟩, ?_, ⟨_, rep', ?_, ?_⟩, ?_⟩
      · rw [step, added, Option.map_some]
      · exact (place_sorted sortedS).congr fun p _ => congrFun unexpire p
      · exact place_perm.trans (perm.cons timer)
      · exact Nat.succ_le_succ perm.length_eq.ge
  | del timer =>
      obtain ⟨front, rest, rfl⟩ := List.append_of_mem (perm.mem_iff.mpr allowed)
      obtain ⟨unexpire, rep'⟩ := delTimer_spec rep
      refine ⟨_, rfl, ⟨_, rep', ?_, ?_⟩, ?_⟩
      · have sublist : (front ++ rest).Sublist (front ++ timer :: rest) :=
          .append_left (List.sublist_cons_self timer rest) front
        exact Lst.Sorted.congr (sorted.sublist sublist) fun p _ => congrFun unexpire p
      · have out := (List.perm_middle.symm.trans perm).erase timer
        rwa [List.erase_cons_head] at out
      · rw [perm.length_eq]
        exact (List.length_erase_le).trans (Nat.le_succ _)
  | adjust timer expire =>
      obtain ⟨live, raised⟩ := allowed
      obtain ⟨front, rest, rfl⟩ := List.append_of_mem (perm.mem_iff.mpr live)
      let s := w.lst.setExpire timer expire
      have repS : s.Rep (front ++ timer :: rest) :=
        { rep with
          seg := by simpa [s] using rep.seg }
      have enoughRest : rest.length ≤ fuel := by
        rw [List.length_append, List.length_cons] at enough
        omega
      obtain ⟨t, adjusted, unexpire, rep'⟩ := adjustTimer_spec repS enoughRest
      have off : ∀ p ∈ front ++ rest, p ≠ timer := fun p mem => ne_of_mem_append rep.nodup mem
      have sublist : (front ++ rest).Sublist (front ++ timer :: rest) :=
        .append_left (List.sublist_cons_self timer rest) front
      have others : s.Sorted (front ++ rest) := by
        refine Lst.Sorted.congr (sorted.sublist sublist) fun p mem => ?_
        rw [setExpire_expire, Function.update_of_ne (off p mem)]
      have later : ∀ p ∈ front, s.expire p ≤ s.expire timer := by
        intro p mem
        have ne := off p (List.mem_append_left rest mem)
        rw [setExpire_expire, Function.update_self, Function.update_of_ne ne]
        exact ((List.pairwise_append.mp sorted).2.2 p mem timer List.mem_cons_self).trans raised
      refine ⟨⟨t, w.live⟩, ?_, ⟨_, rep', ?_, ?_⟩, ?_⟩
      · rw [step, adjusted, Option.map_some]
      · exact (place_behind_sorted others later).congr fun p _ => congrFun unexpire p
      · exact (place_perm.append_left front).trans perm
      · exact perm.length_eq.ge.trans (Nat.le_succ _)
  | tick now =>
      obtain ⟨t, ticked, unexpire, rep'⟩ := tick_spec now rep enough
      rw [sorted.takeWhile_eq.1] at ticked
      rw [sorted.takeWhile_eq.2] at rep'
      refine ⟨⟨t, w.live.filter (now < w.lst.expire ·)⟩, ?_, ⟨_, rep', ?_, ?_⟩, ?_⟩
      · rw [step, ticked, Option.map_some]
      · exact Lst.Sorted.congr (sorted.sublist List.filter_sublist) fun p _ => congrFun unexpire p
      · exact perm.filter _
      · rw [perm.length_eq]
        exact (List.length_filter_le _ _).trans (Nat.le_succ _)

/-- A run of allowed operations is defined and ends in a good state. -/
theorem run_good {fuel : Nat} {w : World} (ops : List Op) (good : Good w)
    (allowed : Along (step fuel) Allowed w ops) (enough : w.live.length + ops.length < fuel) :
    ∃ w', run (step fuel) w ops = some w' ∧ Good w' ∧ w'.live.length < fuel := by
  induction ops generalizing w with
  | nil => exact ⟨w, rfl, good, enough⟩
  | cons op ops ih =>
      rw [List.length_cons] at enough
      have enough' : w.live.length < fuel := by omega
      obtain ⟨u, stepped, good', grown⟩ := step_good good allowed.1 enough'
      obtain ⟨w', ran, good'', bound⟩ := ih good' (allowed.2 u stepped) (by omega)
      exact ⟨w', run_cons_eq_some.mpr ⟨u, stepped, ran⟩, good'', bound⟩

/-- After every allowed sequence of operations from the empty list, the memory
holds a well-formed list of exactly the live timers in nondecreasing order of
`expire`, empty exactly when `head` is `NULL`; and a tick runs the callbacks of
exactly the live timers that have expired, each once and in that order, and
leaves a list of exactly the others. -/
theorem sortTimerLst_run (timers : Ptr → UtilTimer) (ops : List Op) (fuel : Nat)
    (enough : ops.length < fuel) (allowed : Along (step fuel) Allowed ⟨init timers, []⟩ ops) :
    ∃ w, run (step fuel) ⟨init timers, []⟩ ops = some w ∧
      (∃ l, w.lst.Rep l ∧ w.lst.Sorted l ∧ l.Perm w.live ∧ (l = [] ↔ w.lst.head = 0)) ∧
      ∀ now, ∃ t fired rest, w.lst.tick fuel now = some (t, fired) ∧
        fired.Nodup ∧ w.lst.Sorted fired ∧
        (∀ p, p ∈ fired ↔ p ∈ w.live ∧ w.lst.expire p ≤ now) ∧
        t.Rep rest ∧ (∀ p, p ∈ rest ↔ p ∈ w.live ∧ now < w.lst.expire p) := by
  have start : Good ⟨init timers, []⟩ := ⟨[], init_rep timers, List.Pairwise.nil, List.Perm.nil⟩
  obtain ⟨w, ran, ⟨l, rep, sorted, perm⟩, bound⟩ :=
    run_good ops start allowed (by simpa using enough)
  refine ⟨w, ran, ⟨l, rep, sorted, perm, rep.eq_nil_iff⟩, fun now => ?_⟩
  rw [← perm.length_eq] at bound
  obtain ⟨t, ticked, -, rep'⟩ := tick_spec now rep bound
  rw [sorted.takeWhile_eq.1] at ticked
  rw [sorted.takeWhile_eq.2] at rep'
  refine ⟨t, _, _, ticked, rep.nodup.filter _, sorted.sublist List.filter_sublist, ?_, rep', ?_⟩
  · intro p
    simp [perm.mem_iff]
  · intro p
    simp [perm.mem_iff]

/-- Two timers of which the first is raised past the second, and a tick that
fires only the second. -/
theorem sortTimerLst_run_raised :
    ∃ w, run (step 5) ⟨init fun _ => ⟨0, 0, 0⟩, []⟩
        [.add 1 10, .add 2 20, .adjust 1 30, .tick 25] = some w ∧
      ∃ l, w.lst.Rep l ∧ l.Perm w.live := by
  have allowed : Along (step 5) Allowed ⟨init fun _ => ⟨0, 0, 0⟩, []⟩
      [.add 1 10, .add 2 20, .adjust 1 30, .tick 25] := by
    refine ⟨⟨by decide, List.not_mem_nil⟩, fun u first => ?_⟩
    cases first
    refine ⟨⟨by decide, by simp⟩, fun u second => ?_⟩
    cases second
    refine ⟨⟨by simp, ?_⟩, fun u third => ⟨trivial, fun _ _ => trivial⟩⟩
    decide
  obtain ⟨w, ran, ⟨l, rep, -, perm, -⟩, -⟩ := sortTimerLst_run (fun _ => ⟨0, 0, 0⟩)
    [.add 1 10, .add 2 20, .adjust 1 30, .tick 25] 5 (by decide) allowed
  exact ⟨w, ran, l, rep, perm⟩

end Shang.Timer.SortTimerLst
