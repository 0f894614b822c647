import Shang.Libevent.Timeout

/-!
# Runs of the timer events

What `Timers` says of its runs holds of the runs of the event base, since each step of the
event base is one of `Timers` (`base_refines`). The thread that polls is told of every change that
it would sleep through (`sleep_right`).
-/

namespace Shang.Libevent

open Lib Function

namespace EventBase

variable {b c : EventBase} {live : Multiset Ptr} {ev : Ptr} {op : Op} {ops : List Op}

/-! ## Runs -/

theorem good_run (h : b.Good live) (valid : ∀ op ∈ ops, op.Valid) :
    ∃ c rest, Lib.run step b ops = some c ∧ c.Good rest ∧ Timers.Run b.timers ops c.timers := by
  induction ops generalizing b live with
  | nil => exact ⟨b, live, rfl, h, .nil _⟩
  | cons op ops ih =>
      obtain ⟨c, rest, stepped, good, one⟩ := h.step (valid op List.mem_cons_self)
      obtain ⟨d, rest', ran, good', more⟩ :=
        ih good fun op mem => valid op (List.mem_cons_of_mem _ mem)
      exact ⟨d, rest', run_cons_eq_some.mpr ⟨c, stepped, ran⟩, good', .cons one more⟩

/-- No run ends in `event_errx`, in an assertion that fails or in a loop that does not end. The
heap, the flags and the counters are right after it, and it is a run of `Timers`. -/
theorem base_refines {now : Timeval} (clock : now.Normal) (evPersist : Ptr → Bool)
    (valid : ∀ op ∈ ops, op.Valid) :
    ∃ b live, Lib.run step (new now evPersist) ops = some b ∧ b.Good live ∧
      Timers.Run (new now evPersist).timers ops b.timers :=
  good_run (good_new clock evPersist) valid

theorem base_refines_two : ∃ b live,
    Lib.run step (new ⟨10, 0⟩ fun _ => false)
      [.add 1 ⟨5, 0⟩ ⟨10, 0⟩ true, .add 2 ⟨1, 500000⟩ ⟨10, 700000⟩ true, .process ⟨13, 0⟩] =
        some b ∧
      b.Good live ∧ Timers.Run (new ⟨10, 0⟩ fun _ => false).timers
        [.add 1 ⟨5, 0⟩ ⟨10, 0⟩ true, .add 2 ⟨1, 500000⟩ ⟨10, 700000⟩ true, .process ⟨13, 0⟩]
        b.timers :=
  base_refines (by decide) _ (by decide)

/-- The states of runs. -/
def Reached (b : EventBase) : Prop :=
  ∃ now evPersist ops, now.Normal ∧ (∀ op ∈ ops, op.Valid) ∧
    Lib.run step (new now evPersist) ops = some b

theorem Reached.good (h : b.Reached) : ∃ live, b.Good live := by
  obtain ⟨now, evPersist, ops, clock, valid, ran⟩ := h
  obtain ⟨c, rest, ran', good, _⟩ := good_run (good_new clock evPersist) valid
  cases ran.symm.trans ran'
  exact ⟨rest, good⟩

theorem one_runs (persist : Bool) : (Lib.run step (new ⟨10, 0⟩ fun _ => persist)
    [.add 1 ⟨5, 0⟩ ⟨10, 0⟩ true]).isSome = true := by
  revert persist
  decide +kernel

/-- An event base with one armed event, for the examples below. -/
def one (persist : Bool) : EventBase :=
  (Lib.run step (new ⟨10, 0⟩ fun _ => persist) [.add 1 ⟨5, 0⟩ ⟨10, 0⟩ true]).get (one_runs persist)

theorem one_reached (persist : Bool) : (one persist).Reached :=
  ⟨⟨10, 0⟩, _, _, by decide, by decide, (Option.some_get (one_runs persist)).symm⟩

/-- A run from a state of a run. -/
theorem Reached.run (h : b.Reached) (valid : ∀ op ∈ ops, op.Valid)
    (ran : Lib.run step b ops = some c) :
    b.timers.queue.Nodup ∧ Timers.Run b.timers ops c.timers := by
  obtain ⟨live, good⟩ := h.good
  obtain ⟨d, rest, ran', _, more⟩ := good_run good valid
  cases ran.symm.trans ran'
  exact ⟨good.nodup, more⟩

/-- The callback of an event that does not persist is called at most once for each call of
`event_add` or `event_active`. -/
theorem called_at_most {now : Timeval} (ev : Ptr) (clock : now.Normal) {evPersist : Ptr → Bool}
    (once : evPersist ev = false) (valid : ∀ op ∈ ops, op.Valid)
    (ran : Lib.run step (new now evPersist) ops = some b) :
    b.timers.calls ev ≤ ops.countP (fun op => decide (op.Starts ev)) := by
  have reached : (new now evPersist).Reached := ⟨now, evPersist, [], clock, nofun, rfl⟩
  obtain ⟨nodup, more⟩ := reached.run valid ran
  have le := more.weight_le nodup ev once
  have none_ : (new now evPersist).timers.weight ev = 0 := rfl
  have part : b.timers.calls ev ≤ b.timers.weight ev := by
    unfold Timers.weight
    omega
  omega

theorem called_at_most_two : ∃ b : EventBase,
    Lib.run step (new ⟨10, 0⟩ fun _ => false) [.add 1 ⟨5, 0⟩ ⟨10, 0⟩ true, .process ⟨15, 0⟩,
      .fire ⟨15, 0⟩ true, .add 1 ⟨5, 0⟩ ⟨15, 0⟩ true, .active 1 true, .fire ⟨15, 0⟩ true] = some b ∧
    b.timers.calls 1 ≤ 3 := by
  have ran : (Lib.run step (new ⟨10, 0⟩ fun _ => false) [.add 1 ⟨5, 0⟩ ⟨10, 0⟩ true,
    .process ⟨15, 0⟩, .fire ⟨15, 0⟩ true, .add 1 ⟨5, 0⟩ ⟨15, 0⟩ true, .active 1 true,
    .fire ⟨15, 0⟩ true]).isSome = true := by decide +kernel
  exact ⟨_, (Option.some_get ran).symm,
    called_at_most 1 (by decide) rfl (by decide) (Option.some_get ran).symm⟩

/-- An event that is armed or active stays so until its callback is called, unless it is
deleted. -/
theorem not_lost (h : b.Reached) (valid : ∀ op ∈ ops, op.Valid)
    (ran : Lib.run step b ops = some c) (kept : .del ev ∉ ops)
    (pending : b.evFlags .timeout ev = true ∨ b.evFlags .active ev = true) :
    (c.evFlags .timeout ev = true ∨ c.evFlags .active ev = true) ∨
      b.timers.calls ev < c.timers.calls ev := by
  obtain ⟨live, good⟩ := h.good
  obtain ⟨d, rest, ran', good', more⟩ := good_run good valid
  cases ran.symm.trans ran'
  have before : b.timers.Pending ev := pending.imp id (good.active ev).mp
  exact (more.keeps_pending kept before).imp_left (Or.imp id (good'.active ev).mpr)

theorem not_lost_fired : ∃ c : EventBase, (one false).Reached ∧
    Lib.run step (one false) [.process ⟨15, 0⟩, .fire ⟨15, 0⟩ true] = some c ∧
      ((c.evFlags .timeout 1 = true ∨ c.evFlags .active 1 = true) ∨
        (one false).timers.calls 1 < c.timers.calls 1) := by
  have ran : (Lib.run step (one false) [.process ⟨15, 0⟩, .fire ⟨15, 0⟩ true]).isSome = true := by
    decide +kernel
  exact ⟨_, one_reached false, (Option.some_get ran).symm, not_lost (one_reached false) (by decide)
    (Option.some_get ran).symm (by decide) (.inl (by decide +kernel))⟩

/-- An event that persists does not drift: while it is left alone, the clock is not set back, and
it is always served at most a period late, the time it waits for next is its first time and one
period more for each call of its callback. -/
theorem on_grid (ev : Ptr) (h : b.Reached) (valid : ∀ op ∈ ops, op.Valid)
    (ran : Lib.run step b ops = some c) (persist : b.evPersist ev = true)
    (comes : (b.evIoTimeout ev).micros ≠ 0) (armed : b.evFlags .timeout ev = true)
    (calm : ev ∉ b.activequeue)
    (timely : Along step (fun b op => b.timers.Timely ev op) b ops) :
    (c.timeheap.evTimeout ev).micros = (b.timeheap.evTimeout ev).micros +
        (c.timers.calls ev - b.timers.calls ev : Int) * (b.evIoTimeout ev).micros ∧
      (c.evFlags .timeout ev = true ∨ c.evFlags .active ev = true) := by
  obtain ⟨live, good⟩ := h.good
  have start : b.timers.OnGrid ev (b.timers.time ev) (b.timers.period ev) (b.timers.calls ev) :=
    ⟨by rw [Int.sub_self, Int.zero_mul, Int.add_zero], rfl, .inl ⟨armed, calm⟩⟩
  have final : ∃ live, c.Good live ∧ c.timers.persist ev = true ∧
      c.timers.OnGrid ev (b.timers.time ev) (b.timers.period ev) (b.timers.calls ev) := by
    refine run_invariant (I := fun c : EventBase => ∃ live, c.Good live ∧
      c.timers.persist ev = true ∧
        c.timers.OnGrid ev (b.timers.time ev) (b.timers.period ev) (b.timers.calls ev))
      (fun ⟨live, good, persist, grid⟩ allowed stepped => ?_) ⟨live, good, persist, start⟩
      (timely.and_forall valid) ran
    obtain ⟨d, rest, stepped', good', one⟩ := good.step allowed.2
    cases stepped.symm.trans stepped'
    refine ⟨rest, good', (congrFun (Timers.step_frame one).2.1 ev).trans persist, ?_⟩
    exact Timers.step_onGrid grid persist comes good.nodup allowed.1 one
  obtain ⟨_, good', _, grid⟩ := final
  refine ⟨grid.time, grid.waits.imp And.left fun queued => ?_⟩
  exact (good'.active ev).mpr queued.2.1

/-- The event is served half a second late, and waits for its second time nevertheless. -/
theorem on_grid_late : ∃ c : EventBase, (one true).Reached ∧
    Lib.run step (one true) [.process ⟨15, 500000⟩, .fire ⟨15, 500000⟩ true] = some c ∧
      (c.timeheap.evTimeout 1).micros = ((one true).timeheap.evTimeout 1).micros +
        (c.timers.calls 1 - (one true).timers.calls 1 : Int) *
          ((one true).evIoTimeout 1).micros := by
  have ran : (Lib.run step (one true)
    [.process ⟨15, 500000⟩, .fire ⟨15, 500000⟩ true]).isSome = true := by decide +kernel
  exact ⟨_, one_reached true, (Option.some_get ran).symm, (on_grid 1 (one_reached true)
    (by decide) (Option.some_get ran).symm (by decide +kernel) (by decide +kernel)
    (by decide +kernel) (by decide +kernel) (by decide +kernel)).1⟩

/-! ## The thread that polls -/

/-- What the other threads do while one polls, and whether they have told it. -/
def polled (s : EventBase × Bool) : Op → Option (EventBase × Bool)
  | .add ev tv now mmRealloc => (s.1.eventAddInternal ev tv false now mmRealloc).map fun a =>
      (a.base, s.2 || a.notify)
  | .del ev => (s.1.eventDelInternal ev).map fun b => (b, s.2)
  | .active ev res => (s.1.eventActiveNolock ev res).map fun b =>
      (b, s.2 || !s.1.evFlags .active ev)
  | _ => none

/-- The time limit of the poll is the time of an armed event, or none. -/
theorem Good.timeoutNext {now : Timeval} (h : b.Good live) (clock : now.Normal) :
    ∃ r, b.timeoutNext now = some r ∧
      (∀ tv, r = some tv → tv.Normal ∧ ∃ ev, b.evFlags .timeout ev = true ∧
        tv.micros = max 0 (b.timers.time ev - now.micros)) ∧
      ∀ ev, b.evFlags .timeout ev = true →
        ∃ tv, r = some tv ∧ tv.micros ≤ max 0 (b.timers.time ev - now.micros) := by
  rw [EventBase.timeoutNext]
  by_cases null : b.timeheap.top = 0
  · rw [if_pos null]
    refine ⟨none, rfl, nofun, fun ev armed => ?_⟩
    have mem := (h.timeout ev).mp armed
    rw [h.top_eq_zero_iff.mp null] at mem
    exact absurd mem (Multiset.notMem_zero ev)
  · have first : ∀ ev, b.evFlags .timeout ev = true → b.evFlags .timeout b.timeheap.top = true ∧
        b.timers.time b.timeheap.top ≤ b.timers.time ev := by
      intro ev armed
      obtain ⟨mem, le⟩ := h.heap.top_le ((h.timeout ev).mp armed)
      exact ⟨(h.timeout _).mpr mem, ((h.normal _).le_iff_micros (h.normal ev)).mp le⟩
    obtain ⟨x, memX⟩ := Multiset.exists_mem_of_ne_zero (mt h.top_eq_zero_iff.mpr null)
    have top := (first x ((h.timeout x).mpr memX)).1
    rw [if_neg null]
    by_cases later : (b.timeheap.evTimeout b.timeheap.top).gt now = true
    · have left := (h.gt_iff clock).mp later
      have normal := (h.normal b.timeheap.top).sub clock
      have micros : ((b.timeheap.evTimeout b.timeheap.top).sub now).micros =
          b.timers.time b.timeheap.top - now.micros := Timeval.micros_sub
      have seconds : ((b.timeheap.evTimeout b.timeheap.top).sub now).tvSec ≥ 0 ∧
          ((b.timeheap.evTimeout b.timeheap.top).sub now).tvUsec ≥ 0 := by
        unfold Timeval.micros Timeval.Normal at *
        omega
      refine ⟨some ((b.timeheap.evTimeout b.timeheap.top).sub now), ?_, ?_, fun ev armed => ?_⟩
      · simp only [later, if_true, seconds, and_self]
      · rintro tv ⟨⟩
        refine ⟨normal, b.timeheap.top, top, ?_⟩
        omega
      · have := (first ev armed).2
        exact ⟨_, rfl, by omega⟩
    · have due := mt (h.gt_iff clock).mpr later
      refine ⟨some ⟨0, 0⟩, by simp only [later, if_false, Bool.false_eq_true], ?_,
        fun ev armed => ?_⟩
      · rintro tv ⟨⟩
        refine ⟨Timeval.normal_zero, b.timeheap.top, top, ?_⟩
        have zero : Timeval.micros ⟨0, 0⟩ = 0 := rfl
        omega
      · exact ⟨_, rfl, le_max_left _ _⟩

/-- No armed event comes before the others' times, as long as the thread that polls is not told. -/
theorem Good.polled {P : Int → Prop} (mono : ∀ {x y}, x ≤ y → P x → P y) (h : b.Good live)
    (valid : op.Valid) {told later : Bool}
    (stepped : EventBase.polled (b, told) op = some (c, later))
    (so : told = false → b.activequeue = [] ∧
      ∀ ev, b.evFlags .timeout ev = true → P (b.timers.time ev)) :
    ∃ rest, c.Good rest ∧ (later = false → c.activequeue = [] ∧
      ∀ ev, c.evFlags .timeout ev = true → P (c.timers.time ev)) := by
  cases op with
  | add ev tv now mmRealloc =>
      obtain ⟨some_, normal, clock⟩ := valid
      obtain ⟨a, ran, failed | ⟨_, good, view, first⟩⟩ :=
        h.addInternal some_ normal clock false mmRealloc
      · obtain ⟨rfl, _, _⟩ := failed
        simp only [EventBase.polled, ran, Option.map_some, Option.some.injEq, Prod.mk.injEq,
          Bool.or_false] at stepped
        obtain ⟨rfl, rfl⟩ := stepped
        exact ⟨live, h, so⟩
      · simp only [EventBase.polled, ran, Option.map_some, Option.some.injEq, Prod.mk.injEq]
          at stepped
        obtain ⟨rfl, rfl⟩ := stepped
        refine ⟨_, good, fun quiet => ?_⟩
        obtain ⟨quiet, silent⟩ := Bool.or_eq_false_iff.mp quiet
        obtain ⟨empty, all⟩ := so quiet
        generalize remembered : (if b.evPersist ev && !false then
          { b.timers with period := update b.timers.period ev tv.micros } else b.timers) = s at view
        have same : s.queue = b.timers.queue ∧ s.time = b.timers.time := by
          rw [← remembered]
          split
          · exact ⟨rfl, rfl⟩
          · exact ⟨rfl, rfl⟩
        refine ⟨List.eq_nil_of_subset_nil fun x mem => ?_, fun x armed => ?_⟩
        · have sublist := Timers.arm_queue_sublist (s := s) ev
            (if false = true then tv else now.add tv).micros
          rw [← view, same.1, show b.timers.queue = [] from empty] at sublist
          exact sublist.subset mem
        · -- the first event is another one, and was armed before
          obtain ⟨top, first'⟩ := good.heap.top_le ((good.timeout x).mp armed)
          have ne : a.base.timeheap.top ≠ ev := (first silent).symm
          have older := Multiset.mem_of_mem_erase ((Multiset.mem_cons.mp top).resolve_left ne)
          have time : a.base.timers.time a.base.timeheap.top =
              b.timers.time a.base.timeheap.top := by
            rw [view, ← same.2]
            exact update_of_ne ne _ _
          refine mono (((good.normal _).le_iff_micros (good.normal x)).mp first') ?_
          change P (a.base.timers.time a.base.timeheap.top)
          rw [time]
          exact all _ ((h.timeout _).mpr older)
  | del ev =>
      obtain ⟨d, ran, good, view⟩ := h.del ev
      simp only [EventBase.polled, ran, Option.map_some, Option.some.injEq, Prod.mk.injEq]
        at stepped
      obtain ⟨rfl, rfl⟩ := stepped
      refine ⟨_, good, fun quiet => ?_⟩
      obtain ⟨empty, all⟩ := so quiet
      have queue : d.activequeue = b.activequeue.erase ev := congrArg Timers.queue view
      have armed : d.evFlags .timeout = update (b.evFlags .timeout) ev false :=
        congrArg Timers.armed view
      have time : d.timers.time = b.timers.time := by
        rw [view]
        rfl
      refine ⟨by rw [queue, empty, List.erase_nil], fun x flag => ?_⟩
      rw [armed, update_false_iff] at flag
      rw [time]
      exact all x flag.2
  | active ev res =>
      obtain ⟨d, ran, good, view, heap⟩ := h.activate valid res
      simp only [EventBase.polled, ran, Option.map_some, Option.some.injEq, Prod.mk.injEq]
        at stepped
      obtain ⟨rfl, rfl⟩ := stepped
      refine ⟨_, good, fun quiet => ?_⟩
      obtain ⟨quiet, already⟩ := Bool.or_eq_false_iff.mp quiet
      obtain ⟨empty, all⟩ := so quiet
      have queued := (h.active ev).mp (by simpa using already)
      rw [empty] at queued
      cases queued
  | correct now => cases stepped
  | remember now => cases stepped
  | process now => cases stepped
  | fire now mmRealloc => cases stepped

theorem Good.polled_run {P : Int → Prop} (mono : ∀ {x y}, x ≤ y → P x → P y) (h : b.Good live)
    (valid : ∀ op ∈ ops, op.Valid) {told later : Bool}
    (ran : Lib.run EventBase.polled (b, told) ops = some (c, later))
    (so : told = false → b.activequeue = [] ∧
      ∀ ev, b.evFlags .timeout ev = true → P (b.timers.time ev)) :
    later = false → c.activequeue = [] ∧
      ∀ ev, c.evFlags .timeout ev = true → P (c.timers.time ev) := by
  induction ops generalizing b live told with
  | nil =>
      cases ran
      exact so
  | cons op ops ih =>
      obtain ⟨⟨d, middle⟩, stepped, more⟩ := run_cons_eq_some.mp ran
      obtain ⟨rest, good, so'⟩ := h.polled mono (valid op List.mem_cons_self) stepped so
      exact ih good (fun op mem => valid op (List.mem_cons_of_mem _ mem)) more so'

/-- The thread that polls sleeps through nothing: it asks `timeout_next` for a time limit when no
event is active, and whatever the others do then, as long as they have not told it no event is
active, and the limit is not behind the time of an armed one. -/
theorem sleep_right (now : Timeval) (h : b.Reached) (clock : now.Normal)
    (calm : b.activequeue = []) (valid : ∀ op ∈ ops, op.Valid)
    (ran : Lib.run polled (b, false) ops = some (c, false)) :
    ∃ r, b.timeoutNext now = some r ∧ c.activequeue = [] ∧
      ∀ ev, c.evFlags .timeout ev = true →
        ∃ tv, r = some tv ∧ tv.micros ≤ max 0 (c.timers.time ev - now.micros) := by
  obtain ⟨live, good⟩ := h.good
  obtain ⟨r, next, _, limit⟩ := good.timeoutNext clock
  refine ⟨r, next, ?_⟩
  refine good.polled_run
    (P := fun t => ∃ tv, r = some tv ∧ tv.micros ≤ max 0 (t - now.micros)) ?_ valid ran
      (fun _ => ⟨calm, limit⟩) rfl
  rintro x y le ⟨tv, same, bound⟩
  exact ⟨tv, same, by omega⟩

/-- Another thread adds a later event, and need not tell. -/
theorem sleep_right_later : ∃ c : EventBase, (one false).Reached ∧
    Lib.run polled (one false, false) [.add 2 ⟨9, 0⟩ ⟨11, 0⟩ true] = some (c, false) ∧
      ∃ r, (one false).timeoutNext ⟨11, 0⟩ = some r ∧ c.activequeue = [] ∧
        ∀ ev, c.evFlags .timeout ev = true →
          ∃ tv, r = some tv ∧ tv.micros ≤ max 0 (c.timers.time ev - 11000000) := by
  have quiet : (Lib.run polled (one false, false) [.add 2 ⟨9, 0⟩ ⟨11, 0⟩ true]).map Prod.snd =
      some false := by decide +kernel
  obtain ⟨⟨c, told⟩, ran, told_⟩ := Option.map_eq_some_iff.mp quiet
  cases told_
  exact ⟨c, one_reached false, ran, sleep_right ⟨11, 0⟩ (one_reached false) (by decide)
    (by decide +kernel) (by decide) ran⟩

end EventBase

end Shang.Libevent
