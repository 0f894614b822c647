import Mathlib.Data.List.FinRange
import Mathlib.Data.List.GetD
import Mathlib.Data.List.NodupEquivFin
import Mathlib.GroupTheory.OrderOfElement
import Mathlib.Tactic.Abel
import Shang.Lib.RingBuffer
import Shang.Lib.Stack

/-!
# The ball clock

`main.c` of `3.ex/2.ball_clock` with its ring queue `queue.c` and its stacks
`sqstack.c`: every minute the first ball of the queue moves on to the stack of the
single minutes, and a stack that is full empties itself into the queue, newest ball
first, and carries the moving ball on to the next one.

The program is generic in the labels of the balls, so what half a day does to the
queue is one permutation of places, and the labels are back in order after as many
half days as its order says.
-/

namespace Shang.BallClock

open Lib

variable {α β : Type}

/-! ## The queue and the stacks -/

/-- `MAXSIZE` -/
def MAXSIZE : Nat := 28

/-- `STACK_MAXSIZE` -/
def STACK_MAXSIZE : Nat := 11

/-- `Q` -/
abbrev Q := RingBuffer

/-- `SK` -/
abbrev SK := Stack

/-- `q_isempty` -/
def qIsempty (ptr : Q α) : Bool := ptr.head = ptr.tail

/-- `q_isfull` -/
def qIsfull (ptr : Q α) : Bool := (ptr.tail + 1) % MAXSIZE = ptr.head

/-- `q_enqueue` -/
def qEnqueue (ptr : Q α) (data : α) : Q α × Int :=
  if qIsfull ptr then (ptr, -1)
  else
    let tail := (ptr.tail + 1) % MAXSIZE
    ({ ptr with tail := tail, data := Function.update ptr.data tail data }, 0)

/-- `q_dequeue`, where `*data` holds `data`; with what it holds afterwards. -/
def qDequeue (ptr : Q α) (data : α) : Q α × α × Int :=
  if qIsempty ptr then (ptr, data, -1)
  else
    let head := (ptr.head + 1) % MAXSIZE
    ({ ptr with head := head }, ptr.data head, 0)

/-- `st_isempty` -/
def stIsempty (st : SK α) : Bool := st.top = -1

/-- `st_isfull` -/
def stIsfull (st : SK α) : Bool := st.top = (STACK_MAXSIZE : Int) - 1

/-- `st_push` -/
def stPush (st : SK α) (data : α) : SK α × Int :=
  if stIsfull st then (st, -1)
  else
    let top := st.top + 1
    (⟨Function.update st.data top.toNat data, top⟩, 0)

/-- `st_pop`, where `*data` holds `data`; with what it holds afterwards. -/
def stPop (st : SK α) (data : α) : SK α × α × Int :=
  if stIsempty st then (st, data, -1)
  else ({ st with top := st.top - 1 }, st.data st.top.toNat, 0)

/-! ## The main loop -/

/-- What `main` keeps. -/
structure Clock (α : Type) where
  qu : Q α
  oneMin : SK α
  fiveMin : SK α
  oneHour : SK α
  t : α
  t1 : α

/-- `while (!st_isempty(st))`: the stack is emptied into the queue. With what `t1` holds
and what the calls return. -/
def drain : Nat → SK α → Q α → α → Option (SK α × Q α × α × List Int)
  | 0, _, _, _ => none
  | fuel + 1, st, qu, t1 =>
    if stIsempty st then some (st, qu, t1, [])
    else
      let (st, t1, popped) := stPop st t1
      let (qu, queued) := qEnqueue qu t1
      (drain fuel st qu t1).map fun (st, qu, t1, codes) => (st, qu, t1, popped :: queued :: codes)

/-- One pass of the main loop up to the call of `check`, with what the calls return, and
whether `check` is called. -/
def minute (fuel : Nat) (c : Clock α) : Option (Clock α × List Int × Bool) := do
  let (qu, t, taken) := qDequeue c.qu c.t
  if c.oneMin.top ≠ 3 then
    let (oneMin, pushed) := stPush c.oneMin t
    some ({ c with qu := qu, t := t, oneMin := oneMin }, [taken, pushed], false)
  else
    let (oneMin, qu, t1, codes₁) ← drain fuel c.oneMin qu c.t1
    if c.fiveMin.top ≠ 10 then
      let (fiveMin, pushed) := stPush c.fiveMin t
      some ({ c with qu := qu, t := t, t1 := t1, oneMin := oneMin, fiveMin := fiveMin },
        taken :: codes₁ ++ [pushed], false)
    else
      let (fiveMin, qu, t1, codes₂) ← drain fuel c.fiveMin qu t1
      if c.oneHour.top ≠ 10 then
        let (oneHour, pushed) := stPush c.oneHour t
        some (⟨qu, oneMin, fiveMin, oneHour, t, t1⟩, taken :: codes₁ ++ codes₂ ++ [pushed], false)
      else
        let (oneHour, qu, t1, codes₃) ← drain fuel c.oneHour qu t1
        let (qu, queued) := qEnqueue qu t
        some (⟨qu, oneMin, fiveMin, oneHour, t, t1⟩,
          taken :: codes₁ ++ codes₂ ++ codes₃ ++ [queued], true)

/-- The loop of `check`. -/
def checkLoop : Nat → Q Int → Nat → Int → Option Int
  | 0, _, _, _ => none
  | fuel + 1, qu, i, tmp =>
    if i ≠ (qu.tail + 1) % MAXSIZE then
      if qu.data i ≠ tmp then some 0
      else checkLoop fuel qu ((i + 1) % MAXSIZE) (tmp + 1)
    else some 1

/-- `check` -/
def check (fuel : Nat) (qu : Q Int) : Option Int :=
  if qIsempty qu then some 0
  else checkLoop fuel qu ((qu.head + 1) % MAXSIZE) 1

/-- The main loop for so many passes at most, with the time that is printed. -/
def mainLoop (fuel : Nat) : Nat → Clock Int → Nat → Option Nat
  | 0, _, _ => none
  | passes + 1, c, time => do
    let (c, _, whole) ← minute fuel c
    let time := time + 1
    if whole then
      let passed ← check fuel c.qu
      if passed ≠ 0 then some time
      else mainLoop fuel passes c time
    else mainLoop fuel passes c time

/-- The loop that puts the balls into the queue. -/
def fill : Q α → List α → Q α
  | qu, [] => qu
  | qu, label :: labels =>
    let (qu, queued) := qEnqueue qu label
    if queued ≠ 0 then qu
    else fill qu labels

/-- The clock when the main loop starts, where the queue has started at the cell `offset`.
The cells of the queue and of the stacks, and the two variables, hold anything. -/
def start (offset : Nat) (cells : Nat → α) (t t1 : α) (labels : List α) : Clock α :=
  ⟨fill ⟨cells, offset, offset⟩ labels, ⟨cells, -1⟩, ⟨cells, -1⟩, ⟨cells, -1⟩, t, t1⟩

/-- The clock after `n` passes, with what the calls have returned. -/
def minutes (fuel : Nat) : Nat → Clock α → Option (Clock α × List Int)
  | 0, c => some (c, [])
  | n + 1, c => do
    let (c, codes, _) ← minute fuel c
    let (c, codes') ← minutes fuel n c
    some (c, codes ++ codes')

/-! ## Queues and stacks as lists -/

/-- The queue holds the balls of `l`, oldest first. -/
structure Queued (qu : Q α) (l : List α) : Prop where
  inBounds : qu.InBounds MAXSIZE
  contents : qu.contents MAXSIZE = l

/-- The stack holds the balls of `l`, newest first. -/
structure Stacked (st : SK α) (l : List α) : Prop where
  inBounds : st.InBounds
  items : st.items = l

variable {qu : Q α} {st : SK α} {l m : List α} {x : α} {fuel : Nat}

theorem Queued.count (queued : Queued qu l) : qu.count MAXSIZE = l.length := by
  rw [← queued.contents, RingBuffer.length_contents]

theorem Stacked.top (stacked : Stacked st l) : st.top = l.length - 1 := by
  rw [Stack.top_eq stacked.inBounds, stacked.items]

theorem Queued.isempty (queued : Queued qu l) : qIsempty qu = decide (l = []) := by
  rw [qIsempty, ← queued.contents]
  exact decide_eq_decide.mpr (RingBuffer.contents_eq_nil_iff queued.inBounds).symm

theorem Queued.enqueue (queued : Queued qu l) (few : l.length < 27) :
    ∃ qu', qEnqueue qu x = (qu', 0) ∧ Queued qu' (l ++ [x]) := by
  have room : (qu.tail + 1) % MAXSIZE ≠ qu.head :=
    RingBuffer.ne_of_count_lt queued.inBounds (by rw [queued.count, MAXSIZE]; omega)
  refine ⟨qu.push MAXSIZE x, if_neg (by simpa [qIsfull] using room), queued.inBounds.push, ?_⟩
  rw [RingBuffer.contents_push queued.inBounds room, queued.contents]

/-- The cell after the head holds the oldest ball. -/
theorem Queued.oldest (queued : Queued qu (x :: l)) :
    qu.head ≠ qu.tail ∧ qu.data ((qu.head + 1) % MAXSIZE) = x ∧ Queued (qu.pop MAXSIZE) l := by
  have stored : qu.head ≠ qu.tail := fun same => by
    have empty := (RingBuffer.contents_eq_nil_iff queued.inBounds).mpr same
    rw [queued.contents] at empty
    exact List.cons_ne_nil x l empty
  have popped := RingBuffer.contents_pop queued.inBounds stored
  rw [queued.contents] at popped
  obtain ⟨first, rest⟩ := List.cons.inj popped
  exact ⟨stored, first.symm, queued.inBounds.pop, rest.symm⟩

theorem Queued.dequeue (queued : Queued qu (x :: l)) (data : α) :
    ∃ qu', qDequeue qu data = (qu', x, 0) ∧ Queued qu' l := by
  obtain ⟨stored, first, queued'⟩ := queued.oldest
  refine ⟨qu.pop MAXSIZE, ?_, queued'⟩
  rw [qDequeue, if_neg (by simpa [qIsempty] using stored), ← first]
  rfl

theorem Stacked.push (stacked : Stacked st l) (few : l.length < 11) :
    ∃ st', stPush st x = (st', 0) ∧ Stacked st' (x :: l) := by
  have top := stacked.top
  have room : ¬ stIsfull st := by
    rw [stIsfull, STACK_MAXSIZE, decide_eq_true_eq]
    omega
  refine ⟨st.push x, if_neg room, stacked.inBounds.push, ?_⟩
  rw [Stack.items_push stacked.inBounds, stacked.items]

theorem Stacked.pop (stacked : Stacked st (x :: l)) (data : α) :
    ∃ st', stPop st data = (st', x, 0) ∧ Stacked st' l := by
  have top := stacked.top
  rw [List.length_cons] at top
  have stored : st.top ≠ -1 := by omega
  obtain ⟨popped, inBounds⟩ := Stack.items_pop stacked.inBounds stored
  rw [stacked.items] at popped
  obtain ⟨first, rest⟩ := List.cons.inj popped
  refine ⟨st.pop, ?_, inBounds, rest.symm⟩
  rw [stPop, if_neg (by simpa [stIsempty] using stored), first]
  rfl

theorem Stacked.isempty (stacked : Stacked st l) : stIsempty st = decide (l = []) := by
  have top := stacked.top
  refine decide_eq_decide.mpr ?_
  rw [← List.length_eq_zero_iff]
  omega

/-- The stack is appended to the queue. -/
theorem drain_spec (fuel : Nat) (t1 : α) (stacked : Stacked st m) (queued : Queued qu l)
    (enough : m.length < fuel) (few : l.length + m.length ≤ 27) :
    ∃ st' qu' t1' codes, drain fuel st qu t1 = some (st', qu', t1', codes) ∧
      Stacked st' [] ∧ Queued qu' (l ++ m) ∧ ∀ r ∈ codes, r = 0 := by
  induction m generalizing fuel st qu l t1 with
  | nil =>
      obtain ⟨fuel, rfl⟩ := Nat.exists_eq_add_one_of_ne_zero (Nat.ne_of_gt enough)
      refine ⟨st, qu, t1, [], if_pos ?_, stacked, ?_, List.forall_mem_nil _⟩
      · rw [stacked.isempty]
        rfl
      · rwa [List.append_nil]
  | cons x m ih =>
      rw [List.length_cons] at enough few
      obtain ⟨fuel, rfl⟩ := Nat.exists_eq_add_one_of_ne_zero (Nat.ne_zero_of_lt enough)
      obtain ⟨st, popped, stacked'⟩ := stacked.pop t1
      obtain ⟨qu, entered, queued'⟩ := queued.enqueue (x := x) (by omega)
      have few' : (l ++ [x]).length + m.length ≤ 27 := by
        rw [List.length_append, List.length_singleton]
        omega
      obtain ⟨st', qu', t1', codes, drained, empty, full, zero⟩ :=
        ih fuel x stacked' queued' (Nat.lt_of_succ_lt_succ enough) few'
      rw [List.append_assoc, List.singleton_append] at full
      refine ⟨st', qu', t1', 0 :: 0 :: codes, ?_, empty, full, ?_⟩
      · rw [drain, stacked.isempty, popped]
        simp [entered, drained]
      · simpa using zero

/-! ## The clock on lists -/

/-- The balls in the queue, oldest first, and in the stacks, newest first. -/
structure Hands (α : Type) where
  queue : List α
  oneMin : List α
  fiveMin : List α
  oneHour : List α

/-- Half a day is over with the next minute. -/
def Hands.whole (h : Hands α) : Bool :=
  h.oneMin.length = 4 ∧ h.fiveMin.length = 11 ∧ h.oneHour.length = 11

/-- One minute. -/
def Hands.tick (h : Hands α) : Hands α :=
  match h.queue with
  | [] => h
  | t :: queue =>
    if h.oneMin.length ≠ 4 then ⟨queue, t :: h.oneMin, h.fiveMin, h.oneHour⟩
    else
      let queue := queue ++ h.oneMin
      if h.fiveMin.length ≠ 11 then ⟨queue, [], t :: h.fiveMin, h.oneHour⟩
      else
        let queue := queue ++ h.fiveMin
        if h.oneHour.length ≠ 11 then ⟨queue, [], [], t :: h.oneHour⟩
        else ⟨queue ++ h.oneHour ++ [t], [], [], []⟩

/-- All the balls. -/
def Hands.balls (h : Hands α) : Multiset α :=
  (h.queue : Multiset α) + h.oneMin + h.fiveMin + h.oneHour

/-- The same places with other labels. -/
def Hands.map (f : α → β) (h : Hands α) : Hands β :=
  ⟨h.queue.map f, h.oneMin.map f, h.fiveMin.map f, h.oneHour.map f⟩

/-- `n` minutes after the start there are 27 balls, and the stacks show the time. -/
structure Sized (h : Hands α) (n : Nat) : Prop where
  oneMin : h.oneMin.length = n % 5
  fiveMin : h.fiveMin.length = n / 5 % 12
  oneHour : h.oneHour.length = n / 60 % 12
  balls : h.queue.length + h.oneMin.length + h.fiveMin.length + h.oneHour.length = 27

variable {h : Hands α} {n k : Nat}

theorem Hands.tick_map (f : α → β) : (h.map f).tick = h.tick.map f := by
  obtain ⟨queue, oneMin, fiveMin, oneHour⟩ := h
  cases queue with
  | nil => rfl
  | cons t queue =>
      simp only [tick, map, List.map_cons, List.length_map]
      split_ifs <;> simp

theorem Hands.tick_balls : h.tick.balls = h.balls := by
  obtain ⟨queue, oneMin, fiveMin, oneHour⟩ := h
  cases queue with
  | nil => rfl
  | cons t queue =>
      simp only [tick, balls]
      split_ifs <;>
        simp only [← Multiset.cons_coe, ← Multiset.coe_add, ← Multiset.singleton_add,
          Multiset.coe_nil] <;>
        abel

theorem Sized.tick (sized : Sized h n) : Sized h.tick (n + 1) := by
  obtain ⟨queue, oneMin, fiveMin, oneHour⟩ := h
  obtain ⟨one, five, hour, balls⟩ := sized
  simp only at one five hour balls
  cases queue with
  | nil =>
      rw [List.length_nil] at balls
      omega
  | cons t queue =>
      rw [List.length_cons] at balls
      simp only [Hands.tick]
      split_ifs <;> constructor <;>
        simp only [List.length_cons, List.length_nil, List.length_append] <;> omega

theorem Sized.whole (sized : Sized h n) : h.whole ↔ (n + 1) % 720 = 0 := by
  obtain ⟨one, five, hour, -⟩ := sized
  rw [Hands.whole, decide_eq_true_eq]
  omega

/-! ## The program follows the lists -/

/-- The clock holds the balls of `h`. -/
structure Rep (c : Clock α) (h : Hands α) : Prop where
  qu : Queued c.qu h.queue
  oneMin : Stacked c.oneMin h.oneMin
  fiveMin : Stacked c.fiveMin h.fiveMin
  oneHour : Stacked c.oneHour h.oneHour

variable {c : Clock α}

/-- A pass of the main loop is a minute, and no call in it fails. -/
theorem Rep.minute (rep : Rep c h) (sized : Sized h n) (enough : 12 ≤ fuel) :
    ∃ c' codes, minute fuel c = some (c', codes, h.whole) ∧ Rep c' h.tick ∧
      ∀ r ∈ codes, r = 0 := by
  obtain ⟨queue, oneMin, fiveMin, oneHour⟩ := h
  obtain ⟨qu, oneMin', fiveMin', oneHour'⟩ := rep
  obtain ⟨one, five, hour, balls⟩ := sized
  simp only at qu oneMin' fiveMin' oneHour' one five hour balls
  have top₁ := oneMin'.top
  have top₂ := fiveMin'.top
  have top₃ := oneHour'.top
  cases queue with
  | nil =>
      rw [List.length_nil] at balls
      omega
  | cons t queue =>
      rw [List.length_cons] at balls
      obtain ⟨qu, taken, queued⟩ := qu.dequeue c.t
      simp only [BallClock.minute, taken, Hands.tick, Hands.whole]
      by_cases four : oneMin.length = 4
      · obtain ⟨st₁, qu, t1, codes₁, drained, empty₁, queued, zero₁⟩ :=
          drain_spec fuel c.t1 oneMin' queued (by omega) (by omega)
        rw [if_neg (by omega), if_neg (by omega), drained]
        simp only [Option.bind_eq_bind, Option.bind_some]
        by_cases eleven : fiveMin.length = 11
        · obtain ⟨st₂, qu, t1, codes₂, drained, empty₂, queued, zero₂⟩ :=
            drain_spec fuel t1 fiveMin' queued (by omega)
              (by rw [List.length_append]; omega)
          rw [if_neg (by omega), if_neg (by omega), drained]
          simp only [Option.bind_some]
          by_cases last : oneHour.length = 11
          · obtain ⟨st₃, qu, t1, codes₃, drained, empty₃, queued, zero₃⟩ :=
              drain_spec fuel t1 oneHour' queued (by omega)
                (by simp only [List.length_append]; omega)
            obtain ⟨qu, entered, queued⟩ := queued.enqueue (x := t)
              (by simp only [List.length_append]; omega)
            rw [if_neg (by omega), if_neg (by omega), drained]
            simp only [Option.bind_some, entered]
            refine ⟨⟨qu, st₁, st₂, st₃, t, t1⟩, 0 :: codes₁ ++ codes₂ ++ codes₃ ++ [0], ?_,
              ⟨queued, empty₁, empty₂, empty₃⟩, ?_⟩
            · simp [four, eleven, last]
            · simpa [or_imp, forall_and] using ⟨zero₁, zero₂, zero₃⟩
          · obtain ⟨st₃, pushed, stacked⟩ := oneHour'.push (x := t) (by omega)
            rw [if_pos (by omega), if_pos last, pushed]
            refine ⟨⟨qu, st₁, st₂, st₃, t, t1⟩, 0 :: codes₁ ++ codes₂ ++ [0], ?_,
              ⟨queued, empty₁, empty₂, stacked⟩, ?_⟩
            · simp [last]
            · simpa [or_imp, forall_and] using ⟨zero₁, zero₂⟩
        · obtain ⟨st₂, pushed, stacked⟩ := fiveMin'.push (x := t) (by omega)
          rw [if_pos (by omega), if_pos eleven, pushed]
          refine ⟨⟨qu, st₁, st₂, c.oneHour, t, t1⟩, 0 :: codes₁ ++ [0], ?_,
            ⟨queued, empty₁, stacked, oneHour'⟩, ?_⟩
          · simp [eleven]
          · simpa [or_imp, forall_and] using zero₁
      · obtain ⟨st₁, pushed, stacked⟩ := oneMin'.push (x := t) (by omega)
        rw [if_pos (by omega), if_pos four, pushed]
        refine ⟨⟨qu, st₁, c.fiveMin, c.oneHour, t, c.t1⟩, [0, 0], ?_,
          ⟨queued, stacked, fiveMin', oneHour'⟩, ?_⟩
        · simp [four]
        · simp

theorem Rep.minutes (rep : Rep c h) (sized : Sized h n) (enough : 12 ≤ fuel) :
    ∃ c' codes, minutes fuel k c = some (c', codes) ∧ Rep c' (Hands.tick^[k] h) ∧
      ∀ r ∈ codes, r = 0 := by
  induction k generalizing c h n with
  | zero => exact ⟨c, [], rfl, rep, List.forall_mem_nil _⟩
  | succ k ih =>
      obtain ⟨c', codes, ticked, rep', zero⟩ := rep.minute sized enough
      obtain ⟨c'', codes', rest, rep'', zero'⟩ := ih rep' sized.tick
      refine ⟨c'', codes ++ codes', ?_, rep'', ?_⟩
      · rw [BallClock.minutes, ticked]
        simp [rest]
      · exact List.forall_mem_append.mpr ⟨zero, zero'⟩

theorem fill_spec (queued : Queued qu l) (few : l.length + m.length ≤ 27) :
    Queued (fill qu m) (l ++ m) := by
  induction m generalizing qu l with
  | nil => rwa [List.append_nil]
  | cons x m ih =>
      rw [List.length_cons] at few
      obtain ⟨qu, entered, queued⟩ := queued.enqueue (x := x) (by omega)
      have full := ih queued (by rw [List.length_append, List.length_singleton]; omega)
      rw [List.append_assoc, List.singleton_append] at full
      rwa [fill, entered]

/-- All the balls in the queue. -/
def dealt (labels : List α) : Hands α := ⟨labels, [], [], []⟩

theorem start_rep {offset : Nat} {cells : Nat → α} {t t1 : α} {labels : List α}
    (inside : offset < MAXSIZE) (few : labels.length ≤ 27) :
    Rep (start offset cells t t1 labels) (dealt labels) := by
  have empty : Stacked (⟨cells, -1⟩ : SK α) [] := ⟨Int.le_refl _, rfl⟩
  have none : Queued (⟨cells, offset, offset⟩ : Q α) [] :=
    ⟨⟨inside, inside⟩, (RingBuffer.contents_eq_nil_iff ⟨inside, inside⟩).mpr rfl⟩
  have full := fill_spec (m := labels) none (by simpa using few)
  exact ⟨full, empty, empty, empty⟩

theorem dealt_sized (count : l.length = 27) : Sized (dealt l) 0 where
  oneMin := rfl
  fiveMin := rfl
  oneHour := rfl
  balls := count

/-! ## Half a day -/

theorem Sized.ticks (sized : Sized h n) : Sized (Hands.tick^[k] h) (n + k) := by
  induction k generalizing h n with
  | zero => exact sized
  | succ k ih =>
      have next := ih sized.tick
      rwa [Nat.add_right_comm] at next

theorem Hands.ticks_map (f : α → β) : Hands.tick^[k] (h.map f) = (Hands.tick^[k] h).map f := by
  have commute : Function.Semiconj (Hands.map f) Hands.tick Hands.tick := fun _ => (tick_map f).symm
  exact (commute.iterate_right k h).symm

theorem Hands.ticks_balls : (Hands.tick^[k] h).balls = h.balls := by
  induction k generalizing h with
  | zero => rfl
  | succ k ih => exact ih.trans tick_balls

/-- Whenever half days are over the stacks are empty. -/
theorem Sized.dealt (sized : Sized h n) (whole : n % 720 = 0) :
    h = dealt h.queue ∧ h.queue.length = 27 := by
  obtain ⟨queue, oneMin, fiveMin, oneHour⟩ := h
  obtain ⟨one, five, hour, balls⟩ := sized
  simp only at one five hour balls
  obtain rfl : oneMin = [] := List.eq_nil_of_length_eq_zero (by omega)
  obtain rfl : fiveMin = [] := List.eq_nil_of_length_eq_zero (by omega)
  obtain rfl : oneHour = [] := List.eq_nil_of_length_eq_zero (by omega)
  exact ⟨rfl, balls⟩

/-- The places from which the queue is filled in half a day. -/
def places : List (Fin 27) := (Hands.tick^[720] (dealt (List.finRange 27))).queue

theorem places_spec :
    Hands.tick^[720] (dealt (List.finRange 27)) = dealt places ∧ places.length = 27 := by
  have sized : Sized (dealt (List.finRange 27)) 0 := dealt_sized List.length_finRange
  exact (sized.ticks (k := 720)).dealt rfl

theorem places_perm : places.Perm (List.finRange 27) := by
  have balls : (dealt places).balls = (dealt (List.finRange 27)).balls := by
    rw [← places_spec.1, Hands.ticks_balls]
  simpa [Hands.balls, dealt] using balls

/-- What half a day does to the queue: the ball at `i` comes from `halfDay i`. -/
def halfDay : Equiv.Perm (Fin 27) :=
  (finCongr places_spec.2.symm).trans
    (List.Nodup.getEquivOfForallMemList places
      (places_perm.nodup_iff.mpr (List.nodup_finRange 27))
      fun i => places_perm.mem_iff.mpr (List.mem_finRange i))

theorem halfDay_apply (i : Fin 27) : halfDay i = places.get (i.cast places_spec.2.symm) := by
  rw [halfDay, Equiv.trans_apply, List.Nodup.getEquivOfForallMemList_apply]
  congr

theorem ofFn_halfDay : List.ofFn halfDay = places := by
  refine List.ext_getElem (by rw [List.length_ofFn, places_spec.2]) fun i before _ => ?_
  rw [List.getElem_ofFn, halfDay_apply, List.get_eq_getElem]
  congr

theorem dealt_map (f : α → β) : (dealt l).map f = dealt (l.map f) := rfl

variable {q : Fin 27 → α}

theorem ofFn_sized : Sized (Hands.tick^[n] (dealt (List.ofFn q))) n := by
  have sized := (dealt_sized (List.length_ofFn (f := q))).ticks (k := n)
  rwa [Nat.zero_add] at sized

theorem half_day : Hands.tick^[720] (dealt (List.ofFn q)) = dealt (List.ofFn (q ∘ halfDay)) := by
  rw [List.ofFn_eq_map, ← dealt_map, Hands.ticks_map, places_spec.1, dealt_map, ← ofFn_halfDay,
    List.map_ofFn]

theorem half_days :
    Hands.tick^[720 * k] (dealt (List.ofFn q)) = dealt (List.ofFn (q ∘ (halfDay ^ k))) := by
  induction k generalizing q with
  | zero =>
      rw [pow_zero, Equiv.Perm.coe_one, Function.comp_id, Nat.mul_zero,
        Function.iterate_zero_apply]
  | succ k ih =>
      rw [Nat.mul_succ, Function.iterate_add_apply, half_day, ih, pow_succ',
        Equiv.Perm.coe_mul, Function.comp_assoc]

/-- Where the ball at each place comes from. -/
theorem halfDay_eq : ⇑halfDay = fun i : Fin 27 =>
    [2, 25, 12, 1, 20, 15, 7, 13, 5, 17, 4, 11, 9, 10, 8, 3, 22, 18, 24, 0, 26, 21, 16, 6, 14,
      23, 19].getD i 0 := by
  have computed : places = [2, 25, 12, 1, 20, 15, 7, 13, 5, 17, 4, 11, 9, 10, 8, 3, 22, 18, 24,
      0, 26, 21, 16, 6, 14, 23, 19] := by decide +kernel
  funext i
  have inside : i < places.length := by
    rw [places_spec.2]
    exact i.isLt
  rw [halfDay_apply, ← computed, List.getD_eq_getElem places 0 inside]
  congr

theorem halfDay_pow : halfDay ^ 46 = 1 := by
  refine Equiv.ext fun i => ?_
  rw [← Equiv.Perm.iterate_eq_pow, halfDay_eq, Equiv.Perm.one_apply]
  revert i
  decide +kernel

/-! ## The check -/

theorem checkLoop_head {qu : Q Int} {head i : Nat} {tmp : Int} :
    checkLoop fuel { qu with head := head } i tmp = checkLoop fuel qu i tmp := by
  induction fuel generalizing i tmp with
  | zero => rfl
  | succ fuel ih => rw [checkLoop, checkLoop, ih]

/-- The loop of `check` compares the balls of `l` with the numbers from `tmp` on. -/
theorem checkLoop_spec {qu : Q Int} {l : List Int} (tmp : Int) (queued : Queued qu l)
    (enough : l.length < fuel) :
    checkLoop fuel qu ((qu.head + 1) % MAXSIZE) tmp =
      some (if l = List.iterate (· + 1) tmp l.length then 1 else 0) := by
  induction l generalizing fuel qu tmp with
  | nil =>
      obtain ⟨fuel, rfl⟩ := Nat.exists_eq_add_one_of_ne_zero (Nat.ne_of_gt enough)
      have empty : qu.head = qu.tail :=
        (RingBuffer.contents_eq_nil_iff queued.inBounds).mp queued.contents
      rw [checkLoop, empty, if_neg (not_not_intro rfl)]
      rfl
  | cons x l ih =>
      obtain ⟨fuel, rfl⟩ := Nat.exists_eq_add_one_of_ne_zero (Nat.ne_zero_of_lt enough)
      obtain ⟨stored, first, queued'⟩ := queued.oldest
      have ahead : (qu.head + 1) % MAXSIZE ≠ (qu.tail + 1) % MAXSIZE := by
        have head := RingBuffer.succ_mod queued.inBounds.head_lt
        have tail := RingBuffer.succ_mod queued.inBounds.tail_lt
        omega
      have onward := ih (tmp + 1) queued' (Nat.lt_of_succ_lt_succ enough)
      rw [RingBuffer.pop_head, RingBuffer.pop, checkLoop_head] at onward
      rw [checkLoop, if_pos ahead, first, onward]
      by_cases same : x = tmp
      · simp [same, List.iterate]
      · simp [same, List.iterate]

theorem check_spec {qu : Q Int} {l : List Int} (queued : Queued qu l) (some' : l ≠ [])
    (enough : l.length < fuel) :
    check fuel qu = some (if l = List.iterate (· + 1) 1 l.length then 1 else 0) := by
  rw [check, queued.isempty, if_neg (by simpa using some'), checkLoop_spec 1 queued enough]

/-- The labels 1 to 27. -/
def label (i : Fin 27) : Int := (i : Int) + 1

theorem label_injective : Function.Injective label := by
  intro i j same
  simp only [label] at same
  omega

theorem ofFn_label : List.ofFn label = List.iterate (· + 1) 1 27 := by decide +kernel

/-- The labels are back in order when the permutation has come around. -/
theorem check_label {qu : Q Int} {σ : Equiv.Perm (Fin 27)}
    (queued : Queued qu (List.ofFn (label ∘ σ))) (enough : 28 ≤ fuel) :
    check fuel qu = some (if σ = 1 then 1 else 0) := by
  have count : (List.ofFn (label ∘ σ)).length = 27 := List.length_ofFn
  have stored : List.ofFn (label ∘ σ) ≠ [] := List.ne_nil_of_length_eq_add_one count
  have back : List.ofFn (label ∘ σ) = List.ofFn label ↔ σ = 1 := by
    rw [List.ofFn_injective.eq_iff]
    constructor
    · intro same
      exact Equiv.ext fun i => label_injective (congrFun same i)
    · rintro rfl
      rfl
  rw [check_spec queued stored (by omega), count, ← ofFn_label]
  simp only [back]

/-- The main loop, some passes before the permutation has come around. -/
theorem mainLoop_spec {c : Clock Int} {passes : Nat} (left : Nat)
    (rep : Rep c (Hands.tick^[n] (dealt (List.ofFn label)))) (enough : 28 ≤ fuel)
    (time : n + left + 1 = 720 * orderOf halfDay) (many : left < passes) :
    mainLoop fuel passes c n = some (720 * orderOf halfDay) := by
  induction left generalizing n c passes with
  | zero =>
      obtain ⟨passes, rfl⟩ := Nat.exists_eq_add_one_of_ne_zero (Nat.ne_of_gt many)
      have sized : Sized (Hands.tick^[n] (dealt (List.ofFn label))) n := ofFn_sized
      obtain ⟨c', codes, ticked, rep', -⟩ := rep.minute sized (Nat.le_trans (by decide) enough)
      rw [← Function.iterate_succ_apply' Hands.tick, Nat.succ_eq_add_one, time, half_days] at rep'
      have whole : (Hands.tick^[n] (dealt (List.ofFn label))).whole = true :=
        sized.whole.mpr (by omega)
      have passed := check_label rep'.qu enough
      rw [pow_orderOf_eq_one, if_pos rfl] at passed
      rw [mainLoop, ticked, whole]
      simp [passed, ← time]
  | succ left ih =>
      obtain ⟨passes, rfl⟩ := Nat.exists_eq_add_one_of_ne_zero (Nat.ne_zero_of_lt many)
      have sized : Sized (Hands.tick^[n] (dealt (List.ofFn label))) n := ofFn_sized
      obtain ⟨c', codes, ticked, rep', -⟩ := rep.minute sized (Nat.le_trans (by decide) enough)
      rw [← Function.iterate_succ_apply' Hands.tick, Nat.succ_eq_add_one] at rep'
      have onward := ih rep' (by omega) (Nat.lt_of_succ_lt_succ many)
      rw [mainLoop, ticked]
      cases whole : (Hands.tick^[n] (dealt (List.ofFn label))).whole with
      | false => simpa using onward
      | true =>
          obtain ⟨k, half⟩ := Nat.dvd_of_mod_eq_zero (sized.whole.mp whole)
          rw [half, half_days] at rep'
          have passed := check_label rep'.qu enough
          have ne : halfDay ^ k ≠ 1 := pow_ne_one_of_lt_orderOf (by omega) (by omega)
          rw [if_neg ne] at passed
          simpa [passed] using onward

/-- **The ball clock.** In any number of passes no call on the queue and the stacks fails
and no ball is lost; every 720 passes the stacks are empty and the queue has been
rearranged by `halfDay`, whatever the labels are; and with the labels 1 to 27 the time
that is printed is 720 times the order of `halfDay`, which an `int` can hold. -/
theorem ballClock {fuel offset : Nat} (enough : 28 ≤ fuel) (inside : offset < MAXSIZE) :
    (∀ (α : Type) (cells : Nat → α) (t t1 : α) (labels : Fin 27 → α) (n : Nat),
      ∃ c codes h, minutes fuel n (start offset cells t t1 (List.ofFn labels)) = some (c, codes) ∧
        (∀ r ∈ codes, r = 0) ∧ Rep c h ∧ h.balls = List.ofFn labels) ∧
    (∀ (α : Type) (cells : Nat → α) (t t1 : α) (labels : Fin 27 → α) (k : Nat),
      ∃ c codes c' codes' q,
        minutes fuel (720 * k) (start offset cells t t1 (List.ofFn labels)) = some (c, codes) ∧
        minutes fuel (720 * (k + 1)) (start offset cells t t1 (List.ofFn labels)) =
          some (c', codes') ∧
        Rep c (dealt (List.ofFn q)) ∧ Rep c' (dealt (List.ofFn (q ∘ halfDay)))) ∧
    (∀ (cells : Nat → Int) (t t1 : Int) (passes : Nat), 720 * orderOf halfDay ≤ passes →
      mainLoop fuel passes (start offset cells t t1 (List.ofFn label)) 0 =
        some (720 * orderOf halfDay)) ∧
    720 * orderOf halfDay ≤ 2147483647 := by
  have enough' : 12 ≤ fuel := Nat.le_trans (by decide) enough
  have begun (α : Type) (cells : Nat → α) (t t1 : α) (labels : Fin 27 → α) :
      Rep (start offset cells t t1 (List.ofFn labels)) (dealt (List.ofFn labels)) :=
    start_rep inside (Nat.le_of_eq List.length_ofFn)
  have sized (α : Type) (labels : Fin 27 → α) : Sized (dealt (List.ofFn labels)) 0 :=
    dealt_sized List.length_ofFn
  refine ⟨?_, ?_, ?_, ?_⟩
  · intro α cells t t1 labels n
    obtain ⟨c, codes, ran, rep, zero⟩ :=
      (begun α cells t t1 labels).minutes (k := n) (sized α labels) enough'
    refine ⟨c, codes, _, ran, zero, rep, ?_⟩
    rw [Hands.ticks_balls]
    simp only [Hands.balls, dealt, Multiset.coe_nil, add_zero]
  · intro α cells t t1 labels k
    obtain ⟨c, codes, ran, rep, -⟩ :=
      (begun α cells t t1 labels).minutes (k := 720 * k) (sized α labels) enough'
    obtain ⟨c', codes', ran', rep', -⟩ :=
      (begun α cells t t1 labels).minutes (k := 720 * (k + 1)) (sized α labels) enough'
    rw [half_days] at rep rep'
    rw [pow_succ, Equiv.Perm.coe_mul, ← Function.comp_assoc] at rep'
    exact ⟨c, codes, c', codes', _, ran, ran', rep, rep'⟩
  · intro cells t t1 passes many
    have positive : 0 < orderOf halfDay := orderOf_pos halfDay
    exact mainLoop_spec (n := 0) (720 * orderOf halfDay - 1) (begun Int cells t t1 label)
      enough (by omega) (by omega)
  · have few : orderOf halfDay ≤ 46 := orderOf_le_of_pow_eq_one (by decide) halfDay_pow
    omega

/-- `q_create` starts the queue at the first cell. -/
theorem ballClock_first :
    mainLoop 28 (720 * orderOf halfDay) (start 0 (fun _ => 0) 0 0 (List.ofFn label)) 0 =
      some (720 * orderOf halfDay) :=
  (ballClock (Nat.le_refl 28) (by decide)).2.2.1 _ _ _ _ (Nat.le_refl _)

end Shang.BallClock
