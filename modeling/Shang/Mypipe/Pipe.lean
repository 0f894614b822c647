import Shang.Lib.Run
import Shang.Lib.RingBuffer

/-!
# The in-process pipe

`mypipe.c` and its ring queue `queue.c`: readers and writers of one pipe share
a queue of 1024 cells under one mutex and wait on one condition variable.

A thread inside a call holds the mutex from the lock, or from the wake-up in
`pthread_cond_wait`, to the next wait or to the return, so these sections are
the steps: `call` enters a function, `wake` lets a waiting thread test its
loop condition again. A wake-up needs no cause, which covers broadcasts and
spurious wake-ups alike.
-/

namespace Shang.Mypipe

open Shang.Lib

/-! ## The queue -/

/-- `MAXSIZE`. -/
def MAXSIZE : Nat := 1024

/-- `datatype`, a C `int`. -/
abbrev Datatype := Int

/-- `Q`: `MAXSIZE` cells and the indices `head` and `tail`. -/
abbrev Q := RingBuffer Datatype

/-- `q_create`; the cells keep what the allocated memory held. -/
def qCreate (cells : Nat → Datatype) : Q := ⟨cells, 0, 0⟩

/-- `q_isempty`. -/
def qIsempty (q : Q) : Bool := q.head = q.tail

/-- `q_isfull`. -/
def qIsfull (q : Q) : Bool := (q.tail + 1) % MAXSIZE = q.head

/-- `q_enqueue`; `none` is the return value -1. -/
def qEnqueue (q : Q) (item : Datatype) : Option Q :=
  if qIsfull q then none
  else
    let tail := (q.tail + 1) % MAXSIZE
    some { q with tail := tail, data := Function.update q.data tail item }

/-- `q_dequeue`, with the item stored through `data`; `none` is the return
value -1. -/
def qDequeue (q : Q) : Option (Q × Datatype) :=
  if qIsempty q then none
  else
    let head := (q.head + 1) % MAXSIZE
    some ({ q with head := head }, q.data head)

/-! ## The pipe -/

/-- `MYPIPE_READ`. -/
def MYPIPE_READ : UInt32 := 1

/-- `MYPIPE_WRITE`. -/
def MYPIPE_WRITE : UInt32 := 2

/-- `struct mypipe_st` without the mutex and the condition variable. -/
structure MypipeSt where
  queue : Q
  countRd : Int
  countWr : Int

/-- `mypipe_init`. -/
def mypipeInit (cells : Nat → Datatype) : MypipeSt := ⟨qCreate cells, 0, 0⟩

/-- A call of the interface. The buffer of a write holds `count` items. -/
inductive Call
  | register (opmap : UInt32)
  | unregister (opmap : UInt32)
  | read (count : Nat)
  | write (buf : List Datatype)

/-- A call that returned: a read with the items it stored, whose number is its
return value, and the others with their arguments and return values. -/
inductive Ret
  | register (ret : Int)
  | unregister (ret : Int)
  | read (count : Nat) (items : List Datatype)
  | write (buf : List Datatype) (ret : Nat)

/-- The copying loop of `mypipe_read`. -/
def readLoop (q : Q) : Nat → Q × List Datatype
  | 0 => (q, [])
  | count + 1 =>
      match qDequeue q with
      | none => (q, [])
      | some (q, item) =>
          let (q, items) := readLoop q count
          (q, item :: items)

/-- The copying loop of `mypipe_write`, with the final value of `i`. -/
def writeLoop (q : Q) : List Datatype → Q × Nat
  | [] => (q, 0)
  | item :: buf =>
      match qEnqueue q item with
      | none => (q, 0)
      | some q =>
          let (q, i) := writeLoop q buf
          (q, i + 1)

/-- The check at the head of `mypipe_register` and `mypipe_unregister`: it
joins the flag to `opmap` with `|`, so no `opmap` fails it. -/
def rejected (opmap : UInt32) : Bool :=
  (opmap ||| MYPIPE_READ) == 0 && (opmap ||| MYPIPE_WRITE) == 0

/-- The section of a call after the lock, or after a wake-up: `none` for the
result means that the thread waits. -/
def attempt (me : MypipeSt) : Call → MypipeSt × Option Ret
  | .register _ =>
      if me.countRd ≤ 0 || me.countWr ≤ 0 then (me, none)
      else (me, some (.register 0))
  | .unregister _ => (me, some (.unregister 0))
  | .read count =>
      if qIsempty me.queue && 0 < me.countWr then (me, none)
      else if qIsempty me.queue && me.countWr ≤ 0 then (me, some (.read count []))
      else
        let (queue, items) := readLoop me.queue count
        ({ me with queue := queue }, some (.read count items))
  | .write buf =>
      if qIsfull me.queue && 0 < me.countRd then (me, none)
      else if qIsfull me.queue && me.countRd ≤ 0 then (me, some (.write buf 0))
      else
        let (queue, i) := writeLoop me.queue buf
        ({ me with queue := queue }, some (.write buf i))

/-- The counts a call changes between the lock and its first test. -/
def enter (me : MypipeSt) : Call → MypipeSt
  | .register opmap =>
      { me with
        countRd := if opmap &&& MYPIPE_READ ≠ 0 then me.countRd + 1 else me.countRd
        countWr := if opmap &&& MYPIPE_WRITE ≠ 0 then me.countWr + 1 else me.countWr }
  | .unregister opmap =>
      { me with
        countRd := if opmap &&& MYPIPE_READ ≠ 0 then me.countRd - 1 else me.countRd
        countWr := if opmap &&& MYPIPE_WRITE ≠ 0 then me.countWr - 1 else me.countWr }
  | .read _ => me
  | .write _ => me

/-- A call up to its first wait or to its return. -/
def begin (me : MypipeSt) : Call → MypipeSt × Option Ret
  | .register opmap =>
      if rejected opmap then (me, some (.register (-1)))
      else attempt (enter me (.register opmap)) (.register opmap)
  | .unregister opmap =>
      if rejected opmap then (me, some (.unregister (-1)))
      else attempt (enter me (.unregister opmap)) (.unregister opmap)
  | .read count => attempt me (.read count)
  | .write buf => attempt me (.write buf)

/-! ## Threads -/

/-- The pipe, the calls that wait, and the calls that returned, in the order
of their last sections. -/
structure Pipe (τ : Type) where
  me : MypipeSt
  waiting : τ → Option Call
  returned : List (τ × Ret)

/-- A thread calls a function, or returns from `pthread_cond_wait`. -/
inductive Event (τ : Type)
  | call (thread : τ) (c : Call)
  | wake (thread : τ)

variable {τ : Type} [DecidableEq τ]

/-- The state after a section of `thread` in the call `c`. -/
def Pipe.after (s : Pipe τ) (thread : τ) (c : Call) : MypipeSt × Option Ret → Pipe τ
  | (me, none) => { s with me := me, waiting := Function.update s.waiting thread (some c) }
  | (me, some ret) =>
      ⟨me, Function.update s.waiting thread none, s.returned ++ [(thread, ret)]⟩

/-- One section. A thread that waits cannot call, and only such a thread can
wake up. -/
def Pipe.step (s : Pipe τ) : Event τ → Option (Pipe τ)
  | .call thread c =>
      match s.waiting thread with
      | none => some (s.after thread c (begin s.me c))
      | some _ => none
  | .wake thread =>
      match s.waiting thread with
      | none => none
      | some c => some (s.after thread c (attempt s.me c))

/-- A fresh pipe with no call in progress. -/
def Pipe.init (cells : Nat → Datatype) : Pipe τ := ⟨mypipeInit cells, fun _ => none, []⟩

/-- The items a returned call took out of the pipe. -/
def Ret.items : Ret → List Datatype
  | .read _ items => items
  | _ => []

/-- The items a returned call put into the pipe: the first `ret` items of its
buffer. -/
def Ret.accepted : Ret → List Datatype
  | .write buf ret => buf.take ret
  | _ => []

/-- The items returned by reads, in lock order. -/
def Pipe.readItems (s : Pipe τ) : List Datatype := s.returned.flatMap fun r => r.2.items

/-- The items accepted by writes, in lock order. -/
def Pipe.acceptedItems (s : Pipe τ) : List Datatype := s.returned.flatMap fun r => r.2.accepted

/-! ## The loops move items through the ring -/

variable {q : Q} {me : MypipeSt} {c : Call} {s t : Pipe τ}

/-- The queued items, oldest first. -/
def MypipeSt.items (me : MypipeSt) : List Datatype := me.queue.contents MAXSIZE

theorem qIsempty_iff (h : q.InBounds MAXSIZE) : qIsempty q ↔ q.contents MAXSIZE = [] := by
  rw [RingBuffer.contents_eq_nil_iff h]
  simp [qIsempty]

/-- `q_enqueue` fails on a full queue and appends otherwise. -/
theorem qEnqueue_spec (item : Datatype) (h : q.InBounds MAXSIZE) :
    (qIsfull q ∧ qEnqueue q item = none) ∨
      ∃ q', qEnqueue q item = some q' ∧ q'.InBounds MAXSIZE ∧
        q'.contents MAXSIZE = q.contents MAXSIZE ++ [item] := by
  by_cases full : qIsfull q
  · exact Or.inl ⟨full, if_pos full⟩
  · refine Or.inr ⟨q.push MAXSIZE item, if_neg full, h.push, RingBuffer.contents_push h ?_⟩
    simpa [qIsfull] using full

/-- `q_dequeue` fails on an empty queue and takes the oldest item otherwise. -/
theorem qDequeue_spec (h : q.InBounds MAXSIZE) :
    (q.contents MAXSIZE = [] ∧ qDequeue q = none) ∨
      ∃ q' item, qDequeue q = some (q', item) ∧ q'.InBounds MAXSIZE ∧
        q.contents MAXSIZE = item :: q'.contents MAXSIZE := by
  by_cases empty : qIsempty q
  · exact Or.inl ⟨(qIsempty_iff h).mp empty, if_pos empty⟩
  · refine Or.inr ⟨q.pop MAXSIZE, _, if_neg empty, h.pop, RingBuffer.contents_pop h ?_⟩
    simpa [qIsempty] using empty

/-- The reading loop takes a prefix of the queued items. -/
theorem readLoop_spec (count : Nat) (h : q.InBounds MAXSIZE) :
    (readLoop q count).1.InBounds MAXSIZE ∧
      q.contents MAXSIZE = (readLoop q count).2 ++ (readLoop q count).1.contents MAXSIZE := by
  induction count generalizing q with
  | zero => exact ⟨h, rfl⟩
  | succ count ih =>
      rcases qDequeue_spec h with ⟨empty, failed⟩ | ⟨q', item, taken, bounds, contents⟩
      · simp only [readLoop, failed]
        exact ⟨h, rfl⟩
      · obtain ⟨bounds', rest⟩ := ih bounds
        simp only [readLoop, taken]
        refine ⟨bounds', ?_⟩
        rw [contents, rest, List.cons_append]

/-- A read of at least one item from a queue that holds one returns an item. -/
theorem readLoop_ne_nil {count : Nat} (h : q.InBounds MAXSIZE) (positive : 1 ≤ count)
    (stored : ¬ qIsempty q) : (readLoop q count).2 ≠ [] := by
  obtain ⟨count, rfl⟩ := Nat.exists_eq_add_of_le' positive
  rcases qDequeue_spec h with ⟨empty, -⟩ | ⟨q', item, taken, -, -⟩
  · exact absurd ((qIsempty_iff h).mpr empty) stored
  · simp [readLoop, taken]

/-- The writing loop appends the first items of its buffer, as many as it
counts. -/
theorem writeLoop_spec (buf : List Datatype) (h : q.InBounds MAXSIZE) :
    (writeLoop q buf).1.InBounds MAXSIZE ∧
      (writeLoop q buf).1.contents MAXSIZE =
        q.contents MAXSIZE ++ buf.take (writeLoop q buf).2 := by
  induction buf generalizing q with
  | nil => exact ⟨h, by simp [writeLoop]⟩
  | cons item buf ih =>
      rcases qEnqueue_spec item h with ⟨-, failed⟩ | ⟨q', stored, bounds, contents⟩
      · simp only [writeLoop, failed]
        exact ⟨h, by simp⟩
      · obtain ⟨bounds', rest⟩ := ih bounds
        simp only [writeLoop, stored]
        refine ⟨bounds', ?_⟩
        rw [rest, contents, List.take_succ_cons, List.append_assoc, List.singleton_append]

/-! ## One section -/

/-- What a section of a call does to the queue: it accepts items at the back
or returns items from the front, and it returns no item to a read only when
there is none and no writer is left. -/
structure Moves (me : MypipeSt) (result : MypipeSt × Option Ret) : Prop where
  bounds : result.1.queue.InBounds MAXSIZE
  items : me.items ++ (result.2.elim [] Ret.accepted) =
    (result.2.elim [] Ret.items) ++ result.1.items
  zero : ∀ count, result.2 = some (.read count []) → 1 ≤ count →
    qIsempty result.1.queue ∧ result.1.countWr ≤ 0

/-- A section that leaves the queue alone and returns no read. -/
theorem Moves.of_queue_eq {me' : MypipeSt} {ret : Option Ret}
    (h : me.queue.InBounds MAXSIZE) (same : me'.queue = me.queue)
    (accepted : ret.elim [] Ret.accepted = []) (items : ret.elim [] Ret.items = [])
    (other : ∀ count, ret ≠ some (.read count [])) : Moves me (me', ret) where
  bounds := by rw [same]; exact h
  items := by simp [accepted, items, MypipeSt.items, same]
  zero count eq := absurd eq (other count)

theorem attempt_moves (h : me.queue.InBounds MAXSIZE) : Moves me (attempt me c) := by
  cases c with
  | register opmap =>
      simp only [attempt]
      split <;> exact .of_queue_eq h rfl rfl rfl (by simp)
  | unregister opmap => exact .of_queue_eq h rfl rfl rfl (by simp)
  | read count =>
      simp only [attempt]
      split
      · exact .of_queue_eq h rfl rfl rfl (by simp)
      next waits =>
        split
        next closed =>
          simp only [Bool.and_eq_true, decide_eq_true_eq] at closed
          exact {
            bounds := h
            items := by simp [Ret.accepted, Ret.items]
            zero := fun _ _ _ => closed }
        next stored =>
          have nonempty : ¬ qIsempty me.queue := by
            intro empty
            simp only [empty, Bool.true_and, decide_eq_true_eq] at waits stored
            omega
          obtain ⟨bounds, rest⟩ := readLoop_spec count h
          exact {
            bounds := bounds
            items := by simpa [Ret.accepted, Ret.items, MypipeSt.items] using rest
            zero := by
              intro n eq positive
              simp only [Option.some.injEq, Ret.read.injEq] at eq
              obtain ⟨rfl, none⟩ := eq
              exact absurd none (readLoop_ne_nil h positive nonempty) }
  | write buf =>
      simp only [attempt]
      split
      · exact .of_queue_eq h rfl rfl rfl (by simp)
      · split
        · exact .of_queue_eq h rfl (by simp [Ret.accepted]) rfl (by simp)
        · obtain ⟨bounds, appended⟩ := writeLoop_spec buf h
          exact {
            bounds := bounds
            items := by simp [Ret.accepted, Ret.items, MypipeSt.items, appended]
            zero := by simp }

/-- The counts do not enter the books. -/
theorem Moves.of_enter {result : MypipeSt × Option Ret} (moves : Moves (enter me c) result) :
    Moves me result := by
  have same : (enter me c).items = me.items := by cases c <;> rfl
  exact { moves with items := by rw [← same]; exact moves.items }

theorem enter_inBounds (h : me.queue.InBounds MAXSIZE) :
    (enter me c).queue.InBounds MAXSIZE := by
  cases c <;> exact h

theorem begin_moves (h : me.queue.InBounds MAXSIZE) : Moves me (begin me c) := by
  cases c with
  | register opmap =>
      simp only [begin]
      split
      · exact .of_queue_eq h rfl rfl rfl (by simp)
      · exact (attempt_moves (enter_inBounds h)).of_enter
  | unregister opmap =>
      simp only [begin]
      split
      · exact .of_queue_eq h rfl rfl rfl (by simp)
      · exact (attempt_moves (enter_inBounds h)).of_enter
  | read count => exact attempt_moves (c := .read count) h
  | write buf => exact attempt_moves (c := .write buf) h

/-! ## Runs -/

/-- The books of the pipe: what was accepted is what was read and then what is
queued. -/
structure Pipe.Inv (s : Pipe τ) : Prop where
  bounds : s.me.queue.InBounds MAXSIZE
  books : s.acceptedItems = s.readItems ++ s.me.items

theorem qCreate_inBounds (cells : Nat → Datatype) : (qCreate cells).InBounds MAXSIZE :=
  ⟨show 0 < MAXSIZE by decide, show 0 < MAXSIZE by decide⟩

theorem Pipe.init_inv {τ : Type} (cells : Nat → Datatype) : (Pipe.init cells : Pipe τ).Inv where
  bounds := qCreate_inBounds cells
  books := by
    have empty : (qCreate cells).contents MAXSIZE = [] :=
      (RingBuffer.contents_eq_nil_iff (qCreate_inBounds cells)).mpr rfl
    simp [Pipe.init, Pipe.acceptedItems, Pipe.readItems, MypipeSt.items, mypipeInit, empty]

theorem Pipe.after_inv {thread : τ} {result : MypipeSt × Option Ret} (inv : s.Inv)
    (moves : Moves s.me result) : (s.after thread c result).Inv := by
  obtain ⟨me, ret⟩ := result
  cases ret with
  | none =>
      have same : s.me.items = me.items := by simpa using moves.items
      exact { bounds := moves.bounds, books := inv.books.trans (by rw [same]; rfl) }
  | some ret =>
      refine { bounds := moves.bounds, books := ?_ }
      have items : s.me.items ++ ret.accepted = ret.items ++ me.items := moves.items
      have accepted : (s.after thread c (me, some ret)).acceptedItems =
          s.acceptedItems ++ ret.accepted := by simp [Pipe.after, Pipe.acceptedItems]
      have read : (s.after thread c (me, some ret)).readItems = s.readItems ++ ret.items := by
        simp [Pipe.after, Pipe.readItems]
      rw [accepted, read, inv.books, List.append_assoc, items, List.append_assoc]
      rfl

/-- Every step is a section of some thread in some call. -/
theorem Pipe.step_section {e : Event τ} (inv : s.Inv) (step : s.step e = some t) :
    ∃ thread c result, t = s.after thread c result ∧ Moves s.me result := by
  cases e with
  | call thread c =>
      cases waits : s.waiting thread with
      | none =>
          simp only [Pipe.step, waits, Option.some.injEq] at step
          exact ⟨thread, c, _, step.symm, begin_moves inv.bounds⟩
      | some _ => simp [Pipe.step, waits] at step
  | wake thread =>
      cases waits : s.waiting thread with
      | none => simp [Pipe.step, waits] at step
      | some c =>
          simp only [Pipe.step, waits, Option.some.injEq] at step
          exact ⟨thread, c, _, step.symm, attempt_moves inv.bounds⟩

theorem Pipe.run_inv {cells : Nat → Datatype} {es : List (Event τ)}
    (ran : run Pipe.step (Pipe.init cells) es = some s) : s.Inv := by
  refine run_invariant (C := fun _ _ => True) ?_ (Pipe.init_inv cells) (along_true _ _) ran
  intro s e t inv _ step
  obtain ⟨thread, c, result, rfl, moves⟩ := Pipe.step_section inv step
  exact Pipe.after_inv inv moves

/-- In every interleaving of the sections of any threads, the items returned
by reads are a prefix of the items accepted by writes, the queue holds exactly
the items in between, never more than `MAXSIZE - 1`, and a read of at least
one item returns none only when the queue is empty and no writer is left. -/
theorem mypipe_fifo (cells : Nat → Datatype) (es : List (Event τ)) (s : Pipe τ)
    (ran : run Pipe.step (Pipe.init cells) es = some s) :
    s.readItems <+: s.acceptedItems ∧
      s.acceptedItems = s.readItems ++ s.me.items ∧
      s.me.items.length ≤ MAXSIZE - 1 ∧
      ∀ e t thread count, s.step e = some t →
        t.returned = s.returned ++ [(thread, .read count [])] → 1 ≤ count →
          qIsempty t.me.queue ∧ t.me.countWr ≤ 0 := by
  have inv := Pipe.run_inv ran
  have bound := RingBuffer.count_lt inv.bounds
  refine ⟨⟨s.me.items, inv.books.symm⟩, inv.books, ?_, ?_⟩
  · simp only [MypipeSt.items, RingBuffer.length_contents]
    omega
  · intro e t thread count step last positive
    obtain ⟨other, c, ⟨me, ret⟩, rfl, moves⟩ := Pipe.step_section inv step
    cases ret with
    | none => simp [Pipe.after] at last
    | some ret =>
        simp only [Pipe.after, List.append_cancel_left_eq, List.cons.injEq, Prod.mk.injEq] at last
        obtain ⟨⟨-, rfl⟩, -⟩ := last
        exact moves.zero count rfl positive

/-- A waiting reader that a write of two items lets through. -/
theorem mypipe_fifo_blockedRead :
    ∃ s : Pipe Nat, run Pipe.step (Pipe.init fun _ => 0)
        [.call 0 (.register 2), .call 1 (.register 1), .wake 0, .call 1 (.read 1),
          .call 0 (.write [5, 6]), .wake 1] = some s ∧
      s.readItems = [5] ∧ s.readItems <+: s.acceptedItems := by
  refine ⟨_, rfl, by decide, ?_⟩
  exact (mypipe_fifo (fun _ => 0)
    [.call 0 (.register 2), .call 1 (.register 1), .wake 0, .call 1 (.read 1),
      .call 0 (.write [5, 6]), .wake 1] _ rfl).1

end Shang.Mypipe
