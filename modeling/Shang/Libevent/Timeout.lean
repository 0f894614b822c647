import Shang.Libevent.Timers

/-!
# The timer events of an event base

`event.c`: the timer heap, the active queue, the flags and the two counters of an
`event_base` whose events are all timers. An event may persist. There is one priority, no
common timeout, and no event is internal. `none` is `event_errx`, an assertion that fails, or
a loop that has not ended.

`Good.step` says that the heap and its indices are right behind every step, and that the step is
one of `Timers`.
-/

namespace Shang.Libevent

open Lib Function

/-- The queues of `ev_flags` that a timer can be on. -/
inductive Evlist where
  | timeout | active
  deriving DecidableEq

/-- `struct event_base`, with the fields of the events. `evRes` is `EV_TIMEOUT` in `ev_res`,
`evPersist` is `EV_PERSIST` in `ev_events`; `called` are the callbacks called so far, with
`evRes`. -/
structure EventBase where
  timeheap : MinHeap
  eventTv : Timeval
  evFlags : Evlist → Ptr → Bool
  activequeue : List Ptr
  eventCount : Int
  eventCountActive : Int
  evRes : Ptr → Bool
  evIoTimeout : Ptr → Timeval
  evPersist : Ptr → Bool
  called : List (Ptr × Bool)

namespace EventBase

/-- `event_base_new`, when all events have been through `event_assign`. -/
def new (now : Timeval) (evPersist : Ptr → Bool) : EventBase where
  timeheap := .ctor fun _ => ⟨0, 0⟩
  eventTv := now
  evFlags := fun _ _ => false
  activequeue := []
  eventCount := 0
  eventCountActive := 0
  evRes := fun _ => false
  evIoTimeout := fun _ => ⟨0, 0⟩
  evPersist := evPersist
  called := []

/-- `ev->ev_timeout = tv` -/
def setTimeout (b : EventBase) (ev : Ptr) (tv : Timeval) : EventBase :=
  { b with timeheap := { b.timeheap with evTimeout := update b.timeheap.evTimeout ev tv } }

/-- `ev->ev_flags |= queue` and `ev->ev_flags &= ~queue` -/
def setFlag (b : EventBase) (queue : Evlist) (ev : Ptr) (put : Bool) : EventBase :=
  { b with evFlags := update b.evFlags queue (update (b.evFlags queue) ev put) }

/-- `event_queue_remove` -/
def eventQueueRemove (b : EventBase) (ev : Ptr) (queue : Evlist) : Option EventBase :=
  if b.evFlags queue ev then
    let b := { b with eventCount := b.eventCount - 1 }.setFlag queue ev false
    match queue with
    | .active => some { b with
        eventCountActive := b.eventCountActive - 1, activequeue := b.activequeue.erase ev }
    | .timeout => some { b with timeheap := (b.timeheap.erase ev).2 }
  else none

/-- `event_queue_insert`, which ignores what `min_heap_push` returns. -/
def eventQueueInsert (b : EventBase) (ev : Ptr) (queue : Evlist) (mmRealloc : Bool) :
    Option EventBase :=
  if b.evFlags queue ev then
    match queue with
    | .active => some b
    | .timeout => none
  else
    let b := { b with eventCount := b.eventCount + 1 }.setFlag queue ev true
    match queue with
    | .active => some { b with
        eventCountActive := b.eventCountActive + 1, activequeue := b.activequeue ++ [ev] }
    | .timeout => some { b with timeheap := (b.timeheap.push ev mmRealloc).getD b.timeheap }

/-- `if (ev->ev_flags & queue) event_queue_remove(base, ev, queue)` -/
def eventQueueLeave (b : EventBase) (ev : Ptr) (queue : Evlist) : Option EventBase :=
  if b.evFlags queue ev then b.eventQueueRemove ev queue else some b

/-- `event_del_internal` -/
def eventDelInternal (b : EventBase) (ev : Ptr) : Option EventBase := do
  let b ← b.eventQueueLeave ev .timeout
  b.eventQueueLeave ev .active

/-- `event_active_nolock` -/
def eventActiveNolock (b : EventBase) (ev : Ptr) (res : Bool) : Option EventBase :=
  if b.evFlags .active ev then some { b with evRes := update b.evRes ev (b.evRes ev || res) }
  else { b with evRes := update b.evRes ev res }.eventQueueInsert ev .active true

/-- What `event_add_internal` returns, and whether it tells the thread that polls. -/
structure Added where
  res : Int
  notify : Bool
  base : EventBase

/-- `event_add_internal` where the timeout is set: what was set before is replaced. -/
def eventAddTimeout (b : EventBase) (ev : Ptr) (evTimeout : Timeval) (mmRealloc : Bool) :
    Option Added := do
  let first := b.evFlags .timeout ev && b.timeheap.eltIsTop ev
  let b ← b.eventQueueLeave ev .timeout
  let b ← (if b.evRes ev then b.eventQueueLeave ev .active else some b : Option EventBase)
  let b ← (b.setTimeout ev evTimeout).eventQueueInsert ev .timeout mmRealloc
  some ⟨0, first || b.timeheap.eltIsTop ev, b⟩

/-- `event_add_internal`, when `tv` is not `NULL`. -/
def eventAddInternal (b : EventBase) (ev : Ptr) (tv : Timeval) (tvIsAbsolute : Bool)
    (now : Timeval) (mmRealloc : Bool) : Option Added :=
  match if b.evFlags .timeout ev then some b.timeheap
    else b.timeheap.reserve (1 + b.timeheap.n) mmRealloc with
  | none => some ⟨-1, false, b⟩
  | some timeheap =>
      let b := { b with timeheap := timeheap }
      let b := if b.evPersist ev && !tvIsAbsolute then
        { b with evIoTimeout := update b.evIoTimeout ev tv } else b
      b.eventAddTimeout ev (if tvIsAbsolute then tv else now.add tv) mmRealloc

/-- `is_same_common_timeout` -/
def isSameCommonTimeout (tv1 tv2 : Timeval) : Bool := tv1.tvUsec / 1048576 = tv2.tvUsec / 1048576

/-- `run_at` of `event_persist_closure` -/
def runAt (b : EventBase) (ev : Ptr) (now : Timeval) : Timeval :=
  let delay := b.evIoTimeout ev
  let relativeTo := if b.evRes ev then b.timeheap.evTimeout ev else now
  let runAt := relativeTo.add delay
  if now.gt runAt then now.add delay else runAt

/-- `event_persist_closure` before the callback -/
def eventPersistClosure (b : EventBase) (ev : Ptr) (now : Timeval) (mmRealloc : Bool) :
    Option EventBase :=
  let delay := b.evIoTimeout ev
  if delay.tvSec ≠ 0 ∨ delay.tvUsec ≠ 0 then
    if isSameCommonTimeout (b.timeheap.evTimeout ev) delay then
      (b.eventAddInternal ev (b.runAt ev now) true now mmRealloc).map Added.base
    else none
  else some b

/-- One round of `event_process_active_single_queue`. -/
def eventProcessActive (b : EventBase) (now : Timeval) (mmRealloc : Bool) : Option EventBase :=
  match b.activequeue with
  | [] => some b
  | ev :: _ => do
      let b ← (if b.evPersist ev then b.eventQueueRemove ev .active else b.eventDelInternal ev :
        Option EventBase)
      let b ← (if b.evPersist ev then b.eventPersistClosure ev now mmRealloc else some b :
        Option EventBase)
      some { b with called := b.called ++ [(ev, b.evRes ev)] }

/-- `timeout_next` -/
def timeoutNext (b : EventBase) (now : Timeval) : Option (Option Timeval) :=
  let ev := b.timeheap.top
  if ev = 0 then some none
  else
    let evTimeout := b.timeheap.evTimeout ev
    if evTimeout.gt now then
      let tv := evTimeout.sub now
      if tv.tvSec ≥ 0 ∧ tv.tvUsec ≥ 0 then some (some tv) else none
    else some (some ⟨0, 0⟩)

/-- The loop of `timeout_correct` over the first cells of the heap. -/
def correctCells (off : Timeval) : Nat → EventBase → EventBase
  | 0, b => b
  | size + 1, b =>
      let b := correctCells off size b
      b.setTimeout (b.timeheap.p size) ((b.timeheap.evTimeout (b.timeheap.p size)).sub off)

/-- `timeout_correct`, when the clock is not monotonic. -/
def timeoutCorrect (b : EventBase) (tv : Timeval) : EventBase :=
  if b.eventTv.gt tv then
    { correctCells (b.eventTv.sub tv) b.timeheap.n b with eventTv := tv }
  else { b with eventTv := tv }

/-- The loop of `timeout_process`. -/
def timeoutLoop (now : Timeval) : Nat → EventBase → Option EventBase
  | 0, _ => none
  | fuel + 1, b =>
      let ev := b.timeheap.top
      if ev = 0 ∨ (b.timeheap.evTimeout ev).gt now = true then some b
      else do
        let b ← b.eventDelInternal ev
        let b ← b.eventActiveNolock ev true
        timeoutLoop now fuel b

/-- `timeout_process`; every round takes an event out of the heap. -/
def timeoutProcess (b : EventBase) (now : Timeval) : Option EventBase :=
  timeoutLoop now (b.timeheap.n + 1) b

/-- `event_haveevents` and `N_ACTIVE_CALLBACKS`: `event_base_loop` goes on. -/
def goesOn (b : EventBase) : Bool := b.eventCount > 0 || b.eventCountActive != 0

/-- What the threads do, under the lock. -/
def step (b : EventBase) : Op → Option EventBase
  | .add ev tv now mmRealloc => (b.eventAddInternal ev tv false now mmRealloc).map Added.base
  | .del ev => b.eventDelInternal ev
  | .active ev res => b.eventActiveNolock ev res
  | .correct now => some (b.timeoutCorrect now)
  | .remember now => some { b with eventTv := now }
  | .process now => b.timeoutProcess now
  | .fire now mmRealloc => b.eventProcessActive now mmRealloc

/-! ## The invariant -/

/-- What `Timers` sees. -/
def timers (b : EventBase) : Timers where
  armed := b.evFlags .timeout
  time ev := (b.timeheap.evTimeout ev).micros
  period ev := (b.evIoTimeout ev).micros
  clock := b.eventTv.micros
  queue := b.activequeue
  byTimeout := b.evRes
  persist := b.evPersist
  called := b.called

/-- The flags say on which queues an event is, the counters how many there are, and the heap
holds the armed events. -/
structure Good (b : EventBase) (live : Multiset Ptr) : Prop where
  heap : b.timeheap.Good live
  timeout : ∀ ev, b.evFlags .timeout ev = true ↔ ev ∈ live
  active : ∀ ev, b.evFlags .active ev = true ↔ ev ∈ b.activequeue
  nodup : b.activequeue.Nodup
  null : 0 ∉ live
  queued : 0 ∉ b.activequeue
  count : b.eventCount = live.card + b.activequeue.length
  countActive : b.eventCountActive = b.activequeue.length
  normal : ∀ ev, (b.timeheap.evTimeout ev).Normal
  delay : ∀ ev, (b.evIoTimeout ev).Normal
  clock : b.eventTv.Normal

theorem good_new {now : Timeval} (normal : now.Normal) (evPersist : Ptr → Bool) :
    (new now evPersist).Good 0 where
  heap := MinHeap.good_ctor _
  timeout ev := by simp [new]
  active ev := by simp [new]
  nodup := List.nodup_nil
  null := Multiset.notMem_zero 0
  queued := List.not_mem_nil
  count := rfl
  countActive := rfl
  normal _ := Timeval.normal_zero
  delay _ := Timeval.normal_zero
  clock := normal

variable {b c : EventBase} {live : Multiset Ptr} {ev : Ptr} {now tv : Timeval} {mmRealloc : Bool}

/-- `event_base_loop` goes on as long as an event is armed or on the queue. -/
theorem Good.goesOn_iff (h : b.Good live) : b.goesOn = true ↔ ∃ ev, b.timers.Pending ev := by
  have queued : b.activequeue.length ≠ 0 ↔ ∃ ev, ev ∈ b.activequeue := by
    rw [Ne, List.length_eq_zero_iff, List.eq_nil_iff_forall_not_mem]
    push Not
    rfl
  have armed : live.card ≠ 0 ↔ ∃ ev, ev ∈ live := by
    rw [Ne, Multiset.card_eq_zero, Multiset.eq_zero_iff_forall_notMem]
    push Not
    rfl
  have goes : b.goesOn = true ↔ live.card ≠ 0 ∨ b.activequeue.length ≠ 0 := by
    simp only [goesOn, h.count, h.countActive, Bool.or_eq_true, decide_eq_true_iff, bne_iff_ne]
    omega
  rw [goes, armed, queued, ← exists_or]
  exact exists_congr fun ev => or_congr_left (h.timeout ev).symm

/-! ## The queues -/

section Flags

variable {f : Ptr → Bool} {x : Ptr}

theorem update_false_iff : update f ev false x = true ↔ x ≠ ev ∧ f x = true := by
  by_cases same : x = ev
  · simp [same]
  · simp [same]

theorem update_true_iff : update f ev true x = true ↔ x = ev ∨ f x = true := by
  by_cases same : x = ev
  · simp [same]
  · simp [same]

variable {queue : Evlist} {put : Bool}

theorem setFlag_self : (b.setFlag queue ev put).evFlags queue = update (b.evFlags queue) ev put :=
  update_self _ _ _

theorem setFlag_of_ne {other : Evlist} (ne : other ≠ queue) :
    (b.setFlag queue ev put).evFlags other = b.evFlags other :=
  update_of_ne ne _ _

end Flags

theorem Good.removeTimeout (h : b.Good live) (mem : ev ∈ live) :
    ∃ c, b.eventQueueRemove ev .timeout = some c ∧ c.Good (live.erase ev) ∧
      c.timers = { b.timers with armed := update b.timers.armed ev false } ∧
      c.timeheap.n + 1 ≤ c.timeheap.a := by
  have flag := (h.timeout ev).mpr mem
  obtain ⟨heap, times, _⟩ := h.heap.erase ev
  rw [eventQueueRemove, if_pos flag]
  refine ⟨_, rfl, ?_, ?_, h.heap.erase_room mem⟩
  · refine ⟨heap, fun x => ?_, fun x => ?_, h.nodup, ?_, h.queued, ?_, h.countActive, ?_,
      h.delay, h.clock⟩
    · dsimp only
      rw [setFlag_self, update_false_iff, h.heap.nodup.mem_erase_iff]
      exact and_congr_right fun _ => h.timeout x
    · dsimp only
      rw [setFlag_of_ne (by decide)]
      exact h.active x
    · exact fun null => h.null (Multiset.mem_of_mem_erase null)
    · have size := Multiset.card_erase_add_one mem
      simp only [setFlag, h.count]
      omega
    · intro x
      dsimp only [setFlag]
      rw [times]
      exact h.normal x
  · simp only [timers, setFlag, update_self, times]

theorem Good.removeActive (h : b.Good live) (mem : ev ∈ b.activequeue) :
    ∃ c, b.eventQueueRemove ev .active = some c ∧ c.Good live ∧
      c.timers = { b.timers with queue := b.timers.queue.erase ev } ∧ c.timeheap = b.timeheap := by
  have flag := (h.active ev).mpr mem
  rw [eventQueueRemove, if_pos flag]
  refine ⟨_, rfl, ?_, ?_, rfl⟩
  · refine ⟨h.heap, fun x => ?_, fun x => ?_, h.nodup.erase ev, h.null,
      fun null => h.queued (List.mem_of_mem_erase null), ?_, ?_, h.normal, h.delay, h.clock⟩
    · dsimp only
      rw [setFlag_of_ne (by decide)]
      exact h.timeout x
    · dsimp only
      rw [setFlag_self, update_false_iff, setFlag, h.nodup.mem_erase_iff]
      exact and_congr_right fun _ => h.active x
    · have size := List.length_erase_add_one mem
      simp only [setFlag, h.count]
      omega
    · have size := List.length_erase_add_one mem
      simp only [setFlag, h.countActive]
      omega
  · simp only [timers, setFlag_of_ne (show Evlist.timeout ≠ .active by decide)]
    rfl

theorem Good.insertActive (h : b.Good live) (out : ev ∉ b.activequeue) (some_ : ev ≠ 0)
    (res : Bool) :
    ∃ c, { b with evRes := update b.evRes ev res }.eventQueueInsert ev .active mmRealloc = some c ∧
      c.Good live ∧ c.timeheap = b.timeheap ∧
      c.timers = { b.timers with
        queue := b.timers.queue ++ [ev], byTimeout := update b.timers.byTimeout ev res } := by
  have flag : ¬ b.evFlags .active ev = true := fun there => out ((h.active ev).mp there)
  rw [eventQueueInsert, if_neg flag]
  refine ⟨_, rfl, ?_, rfl, ?_⟩
  · refine ⟨h.heap, fun x => ?_, fun x => ?_, ?_, h.null, ?_, ?_, ?_, h.normal, h.delay, h.clock⟩
    · dsimp only
      rw [setFlag_of_ne (by decide)]
      exact h.timeout x
    · dsimp only
      rw [setFlag_self, update_true_iff, setFlag, List.mem_append, List.mem_singleton, or_comm]
      exact or_congr_left (h.active x)
    · rw [setFlag]
      exact List.nodup_append.mpr ⟨h.nodup, List.nodup_singleton ev, by
        rintro x mem y single rfl
        exact out (List.mem_singleton.mp single ▸ mem)⟩
    · rw [setFlag, List.mem_append, List.mem_singleton, not_or]
      exact ⟨h.queued, some_.symm⟩
    · simp only [setFlag, h.count, List.length_append, List.length_singleton]
      omega
    · simp only [setFlag, h.countActive, List.length_append, List.length_singleton]
      omega
  · simp only [timers, setFlag_of_ne (show Evlist.timeout ≠ .active by decide)]
    rfl

/-- `min_heap_push` cannot fail where there is room. -/
theorem Good.insertTimeout (h : b.Good live) (out : ev ∉ live) (some_ : ev ≠ 0)
    (mmRealloc : Bool) (room : b.timeheap.n + 1 ≤ b.timeheap.a) :
    ∃ c, b.eventQueueInsert ev .timeout mmRealloc = some c ∧ c.Good (ev ::ₘ live) ∧
      c.timers = { b.timers with armed := update b.timers.armed ev true } := by
  have flag : ¬ b.evFlags .timeout ev = true := fun there => out ((h.timeout ev).mp there)
  have pushed := MinHeap.push_of_room (e := ev) room mmRealloc
  obtain ⟨heap, times⟩ := h.heap.push out pushed
  rw [eventQueueInsert, if_neg flag]
  refine ⟨_, rfl, ?_, ?_⟩
  · dsimp only [setFlag]
    rw [pushed]
    refine ⟨heap, fun x => ?_, fun x => ?_, h.nodup, ?_, h.queued, ?_, h.countActive, ?_,
      h.delay, h.clock⟩
    · dsimp only
      rw [update_self, update_true_iff, Multiset.mem_cons]
      exact or_congr_right (h.timeout x)
    · dsimp only
      rw [update_of_ne (by decide)]
      exact h.active x
    · rw [Multiset.mem_cons, not_or]
      exact ⟨some_.symm, h.null⟩
    · simp only [h.count, Multiset.card_cons]
      omega
    · intro x
      dsimp only [Option.getD_some]
      rw [times]
      exact h.normal x
  · simp only [timers, setFlag, update_self, pushed, Option.getD_some, times]

/-! ## The functions on events -/

theorem Good.unarmed (h : b.Good live) (out : ev ∉ live) : b.timers.armed ev = false :=
  Bool.eq_false_iff.mpr fun flag => out ((h.timeout ev).mp flag)

theorem Good.leaveTimeout (h : b.Good live) (ev : Ptr) :
    ∃ c, b.eventQueueLeave ev .timeout = some c ∧ c.Good (live.erase ev) ∧
      c.timers = { b.timers with armed := update b.timers.armed ev false } ∧
      (ev ∈ live → c.timeheap.n + 1 ≤ c.timeheap.a) ∧ (ev ∉ live → c = b) := by
  rw [eventQueueLeave]
  by_cases mem : ev ∈ live
  · rw [if_pos ((h.timeout ev).mpr mem)]
    obtain ⟨c, ran, good, view, room⟩ := h.removeTimeout mem
    exact ⟨c, ran, good, view, fun _ => room, fun out => absurd mem out⟩
  · rw [if_neg fun flag => mem ((h.timeout ev).mp flag), Multiset.erase_of_notMem mem,
      ← h.unarmed mem, update_eq_self]
    exact ⟨b, rfl, h, rfl, fun there => absurd there mem, fun _ => rfl⟩

theorem Good.leaveActive (h : b.Good live) (ev : Ptr) :
    ∃ c, b.eventQueueLeave ev .active = some c ∧ c.Good live ∧
      c.timers = { b.timers with queue := b.timers.queue.erase ev } ∧ c.timeheap = b.timeheap := by
  rw [eventQueueLeave]
  by_cases mem : ev ∈ b.activequeue
  · rw [if_pos ((h.active ev).mpr mem)]
    exact h.removeActive mem
  · rw [if_neg fun flag => mem ((h.active ev).mp flag),
      List.erase_of_not_mem (show ev ∉ b.timers.queue from mem)]
    exact ⟨b, rfl, h, rfl, rfl⟩

theorem Good.del (h : b.Good live) (ev : Ptr) :
    ∃ c, b.eventDelInternal ev = some c ∧ c.Good (live.erase ev) ∧ c.timers = b.timers.del ev := by
  obtain ⟨c, ran, good, view, _⟩ := h.leaveTimeout ev
  obtain ⟨d, ran', good', view', _⟩ := good.leaveActive ev
  refine ⟨d, ?_, good', ?_⟩
  · rw [eventDelInternal, ran, Option.bind_eq_bind, Option.bind_some, ran']
  · rw [view', view]
    rfl

theorem Good.activate (h : b.Good live) (some_ : ev ≠ 0) (res : Bool) :
    ∃ c, b.eventActiveNolock ev res = some c ∧ c.Good live ∧
      c.timers = b.timers.activate ev res ∧ c.timeheap = b.timeheap := by
  rw [eventActiveNolock, Timers.activate]
  by_cases mem : ev ∈ b.activequeue
  · rw [if_pos ((h.active ev).mpr mem), if_pos (show ev ∈ b.timers.queue from mem)]
    exact ⟨_, rfl, { h with }, rfl, rfl⟩
  · rw [if_neg fun flag => mem ((h.active ev).mp flag), if_neg (show ev ∉ b.timers.queue from mem)]
    obtain ⟨c, ran, good, heap, view⟩ := h.insertActive mem some_ res
    exact ⟨c, ran, good, view, heap⟩

theorem micros_update {f : Ptr → Timeval} :
    (fun x => (update f ev tv x).micros) = update (fun x => (f x).micros) ev tv.micros :=
  comp_update Timeval.micros f ev tv

theorem normal_update {f : Ptr → Timeval} {x : Ptr} (old : (f x).Normal) (normal : tv.Normal) :
    (update f ev tv x).Normal := by
  rw [update_apply]
  split
  · exact normal
  · exact old

/-- `ev->ev_timeout` of an event that is not armed. -/
theorem Good.setTimeout (h : b.Good live) (out : ev ∉ live) (normal : tv.Normal) :
    (b.setTimeout ev tv).Good live ∧ (b.setTimeout ev tv).timers =
      { b.timers with time := update b.timers.time ev tv.micros } := by
  refine ⟨{ h with
    heap := h.heap.setTimeout out tv
    normal := fun x => normal_update (h.normal x) normal }, ?_⟩
  simp only [timers, EventBase.setTimeout, micros_update]

/-- `ev->ev_io_timeout = *tv` -/
theorem Good.setPeriod (h : b.Good live) (ev : Ptr) (normal : tv.Normal) :
    Good { b with evIoTimeout := update b.evIoTimeout ev tv } live ∧
      timers { b with evIoTimeout := update b.evIoTimeout ev tv } =
        { b.timers with period := update b.timers.period ev tv.micros } := by
  refine ⟨{ h with delay := fun x => normal_update (h.delay x) normal }, ?_⟩
  simp only [timers, micros_update]

/-- The timeout of an event is replaced, or set where there is room. -/
theorem Good.addTimeout (h : b.Good live) (some_ : ev ≠ 0) (normal : tv.Normal)
    (room : ev ∉ live → b.timeheap.n + 1 ≤ b.timeheap.a) (mmRealloc : Bool) :
    ∃ a, b.eventAddTimeout ev tv mmRealloc = some a ∧ a.res = 0 ∧
      a.base.Good (ev ::ₘ live.erase ev) ∧ a.base.timers = b.timers.arm ev tv.micros ∧
      (a.notify = false → ev ≠ a.base.timeheap.top) := by
  obtain ⟨c, left, goodC, viewC, roomC, sameC⟩ := h.leaveTimeout ev
  have roomC : c.timeheap.n + 1 ≤ c.timeheap.a := by
    by_cases mem : ev ∈ live
    · exact roomC mem
    · rw [sameC mem]
      exact room mem
  have res : c.evRes = b.timers.byTimeout := congrArg Timers.byTimeout viewC
  obtain ⟨d, served, goodD, viewD, heapD⟩ : ∃ d,
      (if c.evRes ev then c.eventQueueLeave ev .active else some c) = some d ∧
      d.Good (live.erase ev) ∧ d.timers = { c.timers with
        queue := if b.timers.byTimeout ev then c.timers.queue.erase ev else c.timers.queue } ∧
      d.timeheap = c.timeheap := by
    rw [res]
    split_ifs with timedOut
    · exact goodC.leaveActive ev
    · exact ⟨c, rfl, goodC, rfl, rfl⟩
  have out : ev ∉ live.erase ev := fun mem => (h.heap.nodup.mem_erase_iff.mp mem).1 rfl
  obtain ⟨goodT, viewT⟩ := goodD.setTimeout out normal
  obtain ⟨e, inserted, goodE, viewE⟩ := goodT.insertTimeout out some_ mmRealloc
    (show d.timeheap.n + 1 ≤ d.timeheap.a from heapD ▸ roomC)
  refine ⟨⟨0, b.evFlags .timeout ev && b.timeheap.eltIsTop ev || e.timeheap.eltIsTop ev, e⟩, ?_,
    rfl, goodE, ?_, fun quiet top => ?_⟩
  · simp only [eventAddTimeout, left, served, inserted, Option.bind_eq_bind, Option.bind_some]
  · rw [viewE, viewT, viewD, viewC, Timers.arm]
    simp only [update_idem]
  · have first := goodE.heap.eltIsTop_iff.mpr ⟨Multiset.cons_ne_zero, top⟩
    simp [first] at quiet

/-- `event_add_internal` fails before it changes anything, and only for want of memory; else the
event is armed. The other thread is told where the event comes first. -/
theorem Good.addInternal (h : b.Good live) (some_ : ev ≠ 0) (normal : tv.Normal)
    (clock : now.Normal) (tvIsAbsolute mmRealloc : Bool) :
    ∃ a, b.eventAddInternal ev tv tvIsAbsolute now mmRealloc = some a ∧
      (a = ⟨-1, false, b⟩ ∧ mmRealloc = false ∧ ev ∉ live ∨
        a.res = 0 ∧ a.base.Good (ev ::ₘ live.erase ev) ∧
        a.base.timers = (if b.evPersist ev && !tvIsAbsolute then
          { b.timers with period := update b.timers.period ev tv.micros } else b.timers).arm ev
            (if tvIsAbsolute then tv else now.add tv).micros ∧
        (a.notify = false → ev ≠ a.base.timeheap.top)) := by
  have absolute : (if tvIsAbsolute then tv else now.add tv).Normal := by
    split
    · exact normal
    · exact clock.add normal
  rw [eventAddInternal]
  split
  · next ran =>
    refine ⟨_, rfl, .inl ⟨rfl, ?_⟩⟩
    split at ran
    · cases ran
    · next flag =>
      exact ⟨MinHeap.reserve_eq_none ran, fun mem => flag ((h.timeout ev).mpr mem)⟩
  · next heap ran =>
    obtain ⟨good, times, room⟩ : heap.Good live ∧ heap.evTimeout = b.timeheap.evTimeout ∧
        (ev ∉ live → heap.n + 1 ≤ heap.a) := by
      split at ran
      · next flag =>
        cases ran
        exact ⟨h.heap, rfl, fun out => absurd ((h.timeout ev).mp flag) out⟩
      · obtain ⟨good, room, size, times⟩ := h.heap.reserve ran
        exact ⟨good, times, fun _ => by omega⟩
    have kept : Good { b with timeheap := heap } live :=
      { h with heap := good, normal := times ▸ h.normal }
    have view : timers { b with timeheap := heap } = b.timers := by simp only [timers, times]
    obtain ⟨goodP, viewP⟩ := kept.setPeriod ev normal
    dsimp only
    split
    · obtain ⟨a, ran', done⟩ := goodP.addTimeout some_ absolute room mmRealloc
      rw [viewP, view] at done
      exact ⟨a, ran', .inr done⟩
    · obtain ⟨a, ran', done⟩ := kept.addTimeout some_ absolute room mmRealloc
      rw [view] at done
      exact ⟨a, ran', .inr done⟩

/-! ## The clock is set back -/

theorem correctCells_eq {off : Timeval} {size : Nat}
    (inj : ∀ i j, i < size → j < size → b.timeheap.p i = b.timeheap.p j → i = j) :
    correctCells off size b = { b with timeheap := { b.timeheap with
      evTimeout := fun ev => if ev ∈ cells size b.timeheap.p then (b.timeheap.evTimeout ev).sub off
        else b.timeheap.evTimeout ev } } := by
  induction size with
  | zero => simp [correctCells, cells]
  | succ size ih =>
      have fresh : b.timeheap.p size ∉ cells size b.timeheap.p := by
        intro mem
        obtain ⟨i, bound, same⟩ := mem_cells.mp mem
        have := inj i size (by omega) (by omega) same
        omega
      rw [correctCells, ih fun i j left right => inj i j (by omega) (by omega)]
      simp only [setTimeout, if_neg fresh]
      refine congrArg (fun evTimeout => { b with timeheap := { b.timeheap with evTimeout } }) ?_
      funext x
      rw [cells_succ]
      by_cases last : x = b.timeheap.p size
      · simp [last]
      · simp [last]

/-- `timeout_correct` keeps the order of the heap. -/
theorem Good.correct (h : b.Good live) (clock : now.Normal) :
    (b.timeoutCorrect now).Good live ∧
      (b.timeoutCorrect now).timers = b.timers.correct now.micros := by
  have back_iff : b.eventTv.gt now = true ↔ now.micros < b.eventTv.micros :=
    Timeval.gt_iff.trans (clock.lt_iff_micros h.clock)
  rw [timeoutCorrect]
  by_cases back : b.eventTv.gt now = true
  · have off : (b.eventTv.sub now).Normal := h.clock.sub clock
    rw [if_pos back, correctCells_eq fun i j left right => h.heap.inj left right, h.heap.cells]
    refine ⟨{ h with heap := h.heap.retime ?_, normal := ?_, clock := clock }, ?_⟩
    · intro x memX y memY le
      simp only [if_pos memX, if_pos memY]
      rw [((h.normal x).sub off).le_iff_micros ((h.normal y).sub off)]
      simp only [Timeval.micros_sub]
      rw [(h.normal x).le_iff_micros (h.normal y)] at le
      omega
    · intro x
      dsimp only
      split
      · exact (h.normal x).sub off
      · exact h.normal x
    · have amount : max 0 (b.timers.clock - now.micros) = b.eventTv.micros - now.micros :=
        max_eq_right (Int.sub_nonneg.mpr (back_iff.mp back).le)
      have time : (fun x => (if x ∈ live then (b.timeheap.evTimeout x).sub (b.eventTv.sub now)
          else b.timeheap.evTimeout x).micros) = fun x => if b.timers.armed x then
            b.timers.time x - (b.eventTv.micros - now.micros) else b.timers.time x := by
        funext x
        by_cases mem : x ∈ live
        · rw [if_pos mem, if_pos (show b.timers.armed x = true from (h.timeout x).mpr mem),
            Timeval.micros_sub, Timeval.micros_sub]
          rfl
        · rw [if_neg mem, h.unarmed mem]
          rfl
      rw [Timers.correct, amount, ← time]
      rfl
  · have amount : max 0 (b.timers.clock - now.micros) = 0 :=
      max_eq_left (Int.sub_nonpos_of_le (not_lt.mp fun less => back (back_iff.mpr less)))
    rw [if_neg back, Timers.correct, amount]
    refine ⟨{ h with clock := clock }, ?_⟩
    simp only [timers, Int.sub_zero, ite_self]

/-! ## The passes of the loop -/

theorem Good.top_eq_zero_iff (h : b.Good live) : b.timeheap.top = 0 ↔ live = 0 := by
  constructor
  · intro null
    by_contra some_
    obtain ⟨ev, mem⟩ := Multiset.exists_mem_of_ne_zero some_
    exact h.null (null ▸ (h.heap.top_le mem).1)
  · rintro rfl
    have empty : b.timeheap.n = 0 := h.heap.size
    rw [MinHeap.top, if_neg (not_not.mpr empty)]

theorem Good.gt_iff (h : b.Good live) (clock : now.Normal) :
    (b.timeheap.evTimeout ev).gt now = true ↔ now.micros < b.timers.time ev :=
  Timeval.gt_iff.trans (clock.lt_iff_micros (h.normal ev))

/-- The event on top is due if any is. -/
theorem Good.top_due (h : b.Good live) (clock : now.Normal)
    (isDue : b.timers.due now.micros ev = true) :
    b.timeheap.top ≠ 0 ∧ ¬ (b.timeheap.evTimeout b.timeheap.top).gt now = true := by
  rw [Timers.due, Bool.and_eq_true, decide_eq_true_iff] at isDue
  have mem := (h.timeout ev).mp isDue.1
  obtain ⟨top, first⟩ := h.heap.top_le mem
  refine ⟨fun null => h.null (null ▸ top), fun greater => ?_⟩
  rw [(h.normal _).le_iff_micros (h.normal ev)] at first
  have := (h.gt_iff clock).mp greater
  have late : (b.timeheap.evTimeout ev).micros ≤ now.micros := isDue.2
  simp only [timers] at this
  omega

/-- `timeout_process` takes the events whose time has come out of the heap, in the order of their
times, and leaves the others. -/
theorem Good.timeoutLoop (h : b.Good live) (clock : now.Normal) {fuel : Nat}
    (enough : live.card < fuel) :
    ∃ c rest due, timeoutLoop now fuel b = some c ∧ c.Good rest ∧ due.Nodup ∧
      (∀ ev, ev ∈ due ↔ b.timers.due now.micros ev = true) ∧
      due.Pairwise (fun x y => b.timers.time x ≤ b.timers.time y) ∧
      c.timers = b.timers.expire due := by
  induction fuel generalizing b live with
  | zero => omega
  | succ fuel ih =>
      rw [EventBase.timeoutLoop]
      by_cases stops : b.timeheap.top = 0 ∨ (b.timeheap.evTimeout b.timeheap.top).gt now = true
      · refine ⟨b, live, [], if_pos stops, h, List.nodup_nil, fun ev => ?_, List.Pairwise.nil,
          Timers.expire_nil.symm⟩
        refine iff_of_false List.not_mem_nil fun isDue => ?_
        obtain ⟨some_, late⟩ := h.top_due clock isDue
        exact stops.elim some_ late
      · obtain ⟨some_, late⟩ := not_or.mp stops
        have mem : b.timeheap.top ∈ live := by
          obtain ⟨x, memX⟩ := Multiset.exists_mem_of_ne_zero (mt h.top_eq_zero_iff.mpr some_)
          exact (h.heap.top_le memX).1
        generalize first : b.timeheap.top = top at stops some_ late mem
        obtain ⟨c, deleted, goodC, viewC⟩ := h.del top
        obtain ⟨d, activated, goodD, viewD, _⟩ := goodC.activate some_ true
        rw [viewC, Timers.activate_del h.nodup] at viewD
        have fewer := Multiset.card_erase_add_one mem
        obtain ⟨e, rest, due, ran, goodE, unique, isDue, sorted, viewE⟩ := ih goodD (by omega)
        have topDue : b.timers.due now.micros top = true := by
          rw [Timers.due, Bool.and_eq_true, decide_eq_true_iff]
          exact ⟨(h.timeout top).mpr mem, not_lt.mp (mt (h.gt_iff clock).mpr late)⟩
        have isDue : ∀ x, x ∈ due ↔ b.timers.due now.micros x = true ∧ x ≠ top := by
          intro x
          rw [isDue, viewD]
          simp [Timers.due, Timers.expire, and_assoc, and_comm]
        have fresh : top ∉ due := fun there => ((isDue top).mp there).2 rfl
        refine ⟨e, rest, top :: due, ?_, goodE, List.nodup_cons.mpr ⟨fresh, unique⟩, fun x => ?_,
          List.pairwise_cons.mpr ⟨fun x there => ?_, ?_⟩, ?_⟩
        · rw [if_neg stops, deleted, Option.bind_eq_bind, Option.bind_some, activated]
          exact ran
        · rw [List.mem_cons, isDue]
          constructor
          · rintro (rfl | ⟨isDue, _⟩)
            · exact topDue
            · exact isDue
          · intro isDue
            exact (em (x = top)).imp id fun ne => ⟨isDue, ne⟩
        · have armed := (Bool.and_eq_true_iff.mp ((isDue x).mp there).1).1
          have le := (h.heap.top_le ((h.timeout x).mp armed)).2
          rw [first, (h.normal _).le_iff_micros (h.normal x)] at le
          exact le
        · rw [viewD] at sorted
          exact sorted
        · rw [viewE, viewD, Timers.expire_expire fresh]

theorem Good.process (h : b.Good live) (clock : now.Normal) :
    ∃ c rest, b.timeoutProcess now = some c ∧ c.Good rest ∧
      Timers.Step b.timers (.process now) c.timers := by
  obtain ⟨c, rest, due, ran, good, unique, isDue, sorted, view⟩ :=
    h.timeoutLoop clock (show live.card < b.timeheap.n + 1 by rw [h.heap.size]; omega)
  exact ⟨c, rest, ran, good, due, unique, isDue, sorted, view⟩

theorem isSameCommonTimeout_of_normal {tv1 tv2 : Timeval} (left : tv1.Normal)
    (right : tv2.Normal) : isSameCommonTimeout tv1 tv2 = true := by
  unfold Timeval.Normal at left right
  rw [isSameCommonTimeout, decide_eq_true_iff]
  omega

theorem Good.runAt (h : b.Good live) (clock : now.Normal) (ev : Ptr) :
    (b.runAt ev now).Normal ∧ (b.runAt ev now).micros = b.timers.again ev now.micros := by
  have scheduled : (if b.evRes ev then b.timeheap.evTimeout ev else now).Normal := by
    split
    · exact h.normal ev
    · exact clock
  have next := scheduled.add (h.delay ev)
  have view : ((if b.evRes ev then b.timeheap.evTimeout ev else now).add
      (b.evIoTimeout ev)).micros =
      (if b.timers.byTimeout ev then b.timers.time ev else now.micros) + b.timers.period ev := by
    rw [Timeval.micros_add, apply_ite Timeval.micros]
    rfl
  rw [EventBase.runAt, Timers.again, ← view]
  by_cases missed : now.gt
      ((if b.evRes ev then b.timeheap.evTimeout ev else now).add (b.evIoTimeout ev)) = true
  · rw [if_pos missed, if_pos ((next.lt_iff_micros clock).mp (Timeval.gt_iff.mp missed))]
    exact ⟨clock.add (h.delay ev), Timeval.micros_add⟩
  · rw [if_neg missed, if_neg (mt (next.lt_iff_micros clock).mpr (mt Timeval.gt_iff.mpr missed))]
    exact ⟨next, rfl⟩

/-- An event that persists is armed again if it has a period, unless there is no memory. -/
theorem Good.persistClosure (h : b.Good live) (some_ : ev ≠ 0) (clock : now.Normal)
    (mmRealloc : Bool) :
    ∃ c rest, b.eventPersistClosure ev now mmRealloc = some c ∧ c.Good rest ∧
      (c.timers = (if b.timers.period ev ≠ 0 then
          b.timers.arm ev (b.timers.again ev now.micros) else b.timers) ∨
        mmRealloc = false ∧ b.timers.armed ev = false ∧ c.timers = b.timers) := by
  have period : b.timers.period ev ≠ 0 ↔
      (b.evIoTimeout ev).tvSec ≠ 0 ∨ (b.evIoTimeout ev).tvUsec ≠ 0 := by
    rw [Ne, show b.timers.period ev = (b.evIoTimeout ev).micros from rfl,
      (h.delay ev).micros_eq_zero, not_and_or]
  rw [eventPersistClosure]
  by_cases comes : b.timers.period ev ≠ 0
  · rw [if_pos (period.mp comes), if_pos comes,
      if_pos (isSameCommonTimeout_of_normal (h.normal ev) (h.delay ev))]
    obtain ⟨normal, time⟩ := h.runAt clock ev
    obtain ⟨a, ran, failed | ⟨_, good, view, _⟩⟩ :=
      h.addInternal some_ normal clock true mmRealloc
    · obtain ⟨rfl, noMemory, out⟩ := failed
      exact ⟨b, live, by rw [ran]; rfl, h, .inr ⟨noMemory, h.unarmed out, rfl⟩⟩
    · refine ⟨a.base, _, by rw [ran]; rfl, good, .inl ?_⟩
      rw [view, Bool.not_true, Bool.and_false, if_neg Bool.false_ne_true, if_pos rfl, time]
  · rw [if_neg (mt period.mpr comes), if_neg comes]
    exact ⟨b, live, rfl, h, .inl rfl⟩

theorem Good.called (h : b.Good live) (called : List (Ptr × Bool)) :
    Good { b with called := called } live :=
  { h with }

/-- The first event of the queue is served. -/
theorem Good.fire (h : b.Good live) (clock : now.Normal) (mmRealloc : Bool) :
    ∃ c rest, b.eventProcessActive now mmRealloc = some c ∧ c.Good rest ∧
      Timers.Step b.timers (.fire now mmRealloc) c.timers := by
  rw [eventProcessActive]
  split
  · next empty =>
    have none_ : b.timers.queue = [] := empty
    exact ⟨b, live, rfl, h, by simp only [Timers.Step, none_]⟩
  · next ev rest split =>
    have queue : b.timers.queue = ev :: rest := split
    have head : ev ∈ b.activequeue := split ▸ List.mem_cons_self
    have some_ : ev ≠ 0 := fun null => h.queued (null ▸ head)
    simp only [Timers.Step, queue]
    by_cases persist : b.evPersist ev = true
    · obtain ⟨c, removed, goodC, viewC, _⟩ := h.removeActive head
      rw [queue, List.erase_cons_head] at viewC
      obtain ⟨d, live', again, goodD, viewD⟩ := goodC.persistClosure some_ clock mmRealloc
      have persistC : c.evPersist ev = true :=
        (congrFun (congrArg Timers.persist viewC) ev).trans persist
      refine ⟨{ d with called := d.called ++ [(ev, d.evRes ev)] }, live', ?_, goodD.called _, ?_⟩
      · simp only [persist, if_true, removed, persistC, again, Option.bind_eq_bind,
          Option.bind_some]
      · change d.timers.call ev = _ ∨ _ ∧ _ ∧ _ ∧ d.timers.call ev = _
        rw [viewC] at viewD
        rcases viewD with viewD | ⟨noMemory, out, viewD⟩
        · refine .inl ?_
          rw [viewD, Timers.fire, if_pos (show b.timers.persist ev = true from persist)]
          by_cases comes : b.timers.period ev ≠ 0
          · rw [if_pos comes, if_pos comes]
            rfl
          · rw [if_neg comes, if_neg comes]
            rfl
        · refine .inr ⟨noMemory, persist, out, ?_⟩
          rw [viewD]
          rfl
    · obtain ⟨c, deleted, goodC, viewC⟩ := h.del ev
      have once : ¬ c.evPersist ev = true :=
        fun persistC => persist ((congrFun (congrArg Timers.persist viewC) ev).symm.trans persistC)
      refine ⟨{ c with called := c.called ++ [(ev, c.evRes ev)] }, _, ?_, goodC.called _, .inl ?_⟩
      · simp only [persist, if_false, deleted, once, Option.bind_eq_bind, Option.bind_some,
          Bool.false_eq_true]
      · rw [Timers.fire, if_neg (show ¬ b.timers.persist ev = true from persist)]
        change c.timers.call ev = _
        rw [viewC]
        rfl

/-- Every step is right, and does what `Timers` says. -/
theorem Good.step {op : Op} (h : b.Good live) (valid : op.Valid) :
    ∃ c rest, step b op = some c ∧ c.Good rest ∧ Timers.Step b.timers op c.timers := by
  cases op with
  | add ev tv now mmRealloc =>
      obtain ⟨some_, normal, clock⟩ := valid
      obtain ⟨a, ran, failed | ⟨_, good, view, _⟩⟩ :=
        h.addInternal some_ normal clock false mmRealloc
      · obtain ⟨rfl, noMemory, out⟩ := failed
        exact ⟨b, live, by rw [EventBase.step, ran]; rfl, h, .inr ⟨noMemory, h.unarmed out, rfl⟩⟩
      · refine ⟨a.base, _, by rw [EventBase.step, ran]; rfl, good, .inl ?_⟩
        rw [view, Bool.not_false, Bool.and_true, if_neg Bool.false_ne_true, Timeval.micros_add,
          Timers.add]
        refine congrArg (Timers.arm · ev (now.micros + tv.micros)) ?_
        by_cases persist : b.evPersist ev = true
        · rw [if_pos persist, if_pos (show b.timers.persist ev = true from persist)]
        · rw [if_neg persist, if_neg (show ¬ b.timers.persist ev = true from persist)]
  | del ev =>
      obtain ⟨c, ran, good, view⟩ := h.del ev
      exact ⟨c, _, ran, good, view⟩
  | active ev res =>
      obtain ⟨c, ran, good, view, _⟩ := h.activate valid res
      exact ⟨c, _, ran, good, view⟩
  | correct now =>
      obtain ⟨good, view⟩ := h.correct valid
      exact ⟨_, _, rfl, good, view⟩
  | remember now =>
      exact ⟨_, live, rfl, { h with clock := valid }, rfl⟩
  | process now => exact h.process valid
  | fire now mmRealloc => exact h.fire valid mmRealloc

end EventBase

end Shang.Libevent
