import Shang.Libevent.MinHeap
import Shang.Lib.Run
import Mathlib.Data.List.Nodup
import Mathlib.Tactic.Ring

/-!
# What the timers of an event base are for

The abstract side of `event.c`: which events are armed and for when, which are on the active
queue, and which callbacks have been called. Times are numbers of microseconds, and there is
no heap. `Step` leaves open in which order `timeout_process` activates events of one time, and
whether an allocation fails that may.

The results are about runs. An event that is left alone is activated by the first pass of
`timeout_process` that comes at its time or later (`Run.queued_iff`), where a clock that is
set back takes the time along. A callback of an event that does not persist is called at most
once for each time the event was armed or activated (`Run.weight_le`), and an armed event
is lost only by `event_del` (`Run.keeps_pending`).
-/

namespace Shang.Libevent

open Lib Function

namespace Timeval

variable {a b : Timeval}

/-- `evutil_timeradd` -/
def add (a b : Timeval) : Timeval :=
  let sum := { tvSec := a.tvSec + b.tvSec, tvUsec := a.tvUsec + b.tvUsec : Timeval }
  if sum.tvUsec ≥ 1000000 then ⟨sum.tvSec + 1, sum.tvUsec - 1000000⟩ else sum

/-- `evutil_timersub` -/
def sub (a b : Timeval) : Timeval :=
  let difference := { tvSec := a.tvSec - b.tvSec, tvUsec := a.tvUsec - b.tvUsec : Timeval }
  if difference.tvUsec < 0 then ⟨difference.tvSec - 1, difference.tvUsec + 1000000⟩
  else difference

/-- The microseconds are less than a second. -/
def Normal (t : Timeval) : Prop := 0 ≤ t.tvUsec ∧ t.tvUsec < 1000000

instance (t : Timeval) : Decidable t.Normal := inferInstanceAs (Decidable (_ ∧ _))

theorem normal_zero : Normal ⟨0, 0⟩ := by decide

def micros (t : Timeval) : Int := t.tvSec * 1000000 + t.tvUsec

theorem micros_add : (a.add b).micros = a.micros + b.micros := by
  simp only [add, micros]
  split <;> dsimp only <;> omega

theorem micros_sub : (a.sub b).micros = a.micros - b.micros := by
  simp only [sub, micros]
  split <;> dsimp only <;> omega

theorem Normal.add (left : a.Normal) (right : b.Normal) : (a.add b).Normal := by
  unfold Normal at left right
  simp only [Timeval.add, Normal]
  split <;> dsimp only <;> omega

theorem Normal.sub (left : a.Normal) (right : b.Normal) : (a.sub b).Normal := by
  unfold Normal at left right
  simp only [Timeval.sub, Normal]
  split <;> dsimp only <;> omega

theorem Normal.le_iff_micros (left : a.Normal) (right : b.Normal) :
    a ≤ b ↔ a.micros ≤ b.micros := by
  unfold Normal at left right
  rw [le_iff, micros, micros]
  omega

theorem Normal.lt_iff_micros (left : a.Normal) (right : b.Normal) :
    a < b ↔ a.micros < b.micros := by
  unfold Normal at left right
  rw [lt_iff, micros, micros]
  omega

theorem Normal.micros_eq_zero (h : a.Normal) : a.micros = 0 ↔ a.tvSec = 0 ∧ a.tvUsec = 0 := by
  unfold Normal at h
  rw [micros]
  omega

end Timeval

/-- What the threads of the program do to an event base. The clock's answers and those of
`mm_realloc` are part of the events. -/
inductive Op where
  | add (ev : Ptr) (tv now : Timeval) (mmRealloc : Bool)
  | del (ev : Ptr)
  | active (ev : Ptr) (res : Bool)
  | correct (now : Timeval)
  | remember (now : Timeval)
  | process (now : Timeval)
  | fire (now : Timeval) (mmRealloc : Bool)
  deriving DecidableEq

/-- Events are not `NULL`, and times are normal. -/
def Op.Valid : Op → Prop
  | .add ev tv now _ => ev ≠ 0 ∧ tv.Normal ∧ now.Normal
  | .del ev | .active ev _ => ev ≠ 0
  | .correct now | .remember now | .process now | .fire now _ => now.Normal

instance : DecidablePred Op.Valid
  | .add _ _ _ _ => inferInstanceAs (Decidable (_ ∧ _ ∧ _))
  | .del _ | .active _ _ => inferInstanceAs (Decidable (_ ≠ _))
  | .correct now | .remember now | .process now | .fire now _ =>
      inferInstanceAs (Decidable now.Normal)

/-- The call names the event. -/
def Op.Names (ev : Ptr) : Op → Prop
  | .add e _ _ _ | .del e | .active e _ => e = ev
  | _ => False

instance (ev : Ptr) : DecidablePred (Op.Names ev)
  | .add e _ _ _ | .del e | .active e _ => inferInstanceAs (Decidable (e = ev))
  | .correct _ | .remember _ | .process _ | .fire _ _ => inferInstanceAs (Decidable False)

/-- The call arms the event, or activates it. -/
def Op.Starts (ev : Ptr) : Op → Prop
  | .add e _ _ _ | .active e _ => e = ev
  | _ => False

instance (ev : Ptr) : DecidablePred (Op.Starts ev)
  | .add e _ _ _ | .active e _ => inferInstanceAs (Decidable (e = ev))
  | .del _ | .correct _ | .remember _ | .process _ | .fire _ _ =>
      inferInstanceAs (Decidable False)

structure Timers where
  armed : Ptr → Bool
  time : Ptr → Int
  period : Ptr → Int
  clock : Int
  queue : List Ptr
  byTimeout : Ptr → Bool
  persist : Ptr → Bool
  called : List (Ptr × Bool)

namespace Timers

/-- An event is armed for a time; a timeout that has not been served is forgotten. -/
def arm (s : Timers) (ev : Ptr) (t : Int) : Timers :=
  { s with
    armed := update s.armed ev true
    time := update s.time ev t
    queue := if s.byTimeout ev then s.queue.erase ev else s.queue }

def add (s : Timers) (ev : Ptr) (tv now : Int) : Timers :=
  { s with period := if s.persist ev then update s.period ev tv else s.period }.arm ev (now + tv)

def del (s : Timers) (ev : Ptr) : Timers :=
  { s with armed := update s.armed ev false, queue := s.queue.erase ev }

def activate (s : Timers) (ev : Ptr) (res : Bool) : Timers :=
  if ev ∈ s.queue then { s with byTimeout := update s.byTimeout ev (s.byTimeout ev || res) }
  else { s with queue := s.queue ++ [ev], byTimeout := update s.byTimeout ev res }

/-- A clock that was set back takes the armed events along. -/
def correct (s : Timers) (now : Int) : Timers :=
  { s with
    time := fun ev => if s.armed ev then s.time ev - max 0 (s.clock - now) else s.time ev
    clock := now }

def due (s : Timers) (now : Int) (ev : Ptr) : Bool := s.armed ev && s.time ev ≤ now

/-- The events of `due` go to the end of the queue. -/
def expire (s : Timers) (due : List Ptr) : Timers :=
  { s with
    armed := fun ev => s.armed ev && ev ∉ due
    queue := s.queue.filter (· ∉ due) ++ due
    byTimeout := fun ev => s.byTimeout ev || ev ∈ due }

/-- When an event that persists comes again: a period behind the time it was armed for, and
behind now if that is over or something else has activated it. -/
def again (s : Timers) (ev : Ptr) (now : Int) : Int :=
  let runAt := (if s.byTimeout ev then s.time ev else now) + s.period ev
  if runAt < now then now + s.period ev else runAt

def call (s : Timers) (ev : Ptr) : Timers :=
  { s with called := s.called ++ [(ev, s.byTimeout ev)] }

/-- The first event of the queue is served. -/
def fire (s : Timers) (ev : Ptr) (rest : List Ptr) (now : Int) : Timers :=
  if s.persist ev then
    let left := { s.call ev with queue := rest }
    if s.period ev ≠ 0 then left.arm ev (s.again ev now) else left
  else (s.call ev).del ev

/-- One step. An allocation that fails leaves an event alone that was to be added, and an
event that persists unarmed. -/
def Step (s : Timers) : Op → Timers → Prop
  | .add ev tv now mmRealloc, t => t = s.add ev tv.micros now.micros ∨
      mmRealloc = false ∧ s.armed ev = false ∧ t = s
  | .del ev, t => t = s.del ev
  | .active ev res, t => t = s.activate ev res
  | .correct now, t => t = s.correct now.micros
  | .remember now, t => t = { s with clock := now.micros }
  | .process now, t => ∃ due : List Ptr, due.Nodup ∧ (∀ ev, ev ∈ due ↔ s.due now.micros ev = true) ∧
      due.Pairwise (fun x y => s.time x ≤ s.time y) ∧ t = s.expire due
  | .fire now mmRealloc, t => match s.queue with
      | [] => t = s
      | ev :: rest => t = s.fire ev rest now.micros ∨
          mmRealloc = false ∧ s.persist ev = true ∧ s.armed ev = false ∧
            t = { s.call ev with queue := rest }

/-- A run, by its steps. -/
inductive Run : Timers → List Op → Timers → Prop
  | nil (s : Timers) : Run s [] s
  | cons {s t u : Timers} {op : Op} {ops : List Op} :
      Step s op t → Run t ops u → Run s (op :: ops) u

/-! ## One step -/

variable {s t u : Timers} {ev x : Ptr} {op : Op} {ops : List Op}

theorem arm_queue_sublist (ev : Ptr) (t : Int) : (s.arm ev t).queue.Sublist s.queue := by
  simp only [arm]
  split
  · exact List.erase_sublist
  · exact List.Sublist.refl _

theorem step_nodup (stepped : Step s op t) (nodup : s.queue.Nodup) : t.queue.Nodup := by
  cases op with
  | add ev tv now mmRealloc =>
      rcases stepped with rfl | ⟨_, _, rfl⟩
      · exact nodup.sublist (arm_queue_sublist _ _)
      · exact nodup
  | del ev =>
      cases stepped
      exact nodup.erase ev
  | active ev res =>
      cases stepped
      rw [activate]
      split
      · exact nodup
      · next fresh =>
        exact List.nodup_append.mpr ⟨nodup, List.nodup_singleton ev, by
          rintro x mem y single rfl
          exact fresh (List.mem_singleton.mp single ▸ mem)⟩
  | correct now =>
      cases stepped
      exact nodup
  | remember now =>
      cases stepped
      exact nodup
  | process now =>
      obtain ⟨due, unique, _, _, rfl⟩ := stepped
      refine List.nodup_append.mpr ⟨nodup.filter _, unique, ?_⟩
      rintro x mem y dueY rfl
      simp [dueY] at mem
  | fire now mmRealloc =>
      simp only [Step] at stepped
      split at stepped
      · cases stepped
        exact nodup
      · next ev rest split =>
        have shorter : rest.Nodup := by
          rw [split] at nodup
          exact nodup.of_cons
        rcases stepped with rfl | ⟨_, _, _, rfl⟩
        · rw [fire]
          split
          · split
            · exact shorter.sublist (arm_queue_sublist _ _)
            · exact shorter
          · exact nodup.erase ev
        · exact shorter

/-! ## One event -/

/-- How often a callback was called. -/
def calls (s : Timers) (ev : Ptr) : Nat := s.called.countP (·.1 = ev)

theorem calls_call : (s.call x).calls ev = s.calls ev + if x = ev then 1 else 0 := by
  simp only [calls, call, List.countP_append, List.countP_singleton, decide_eq_true_iff]

/-- How far a step sets the clock back. -/
def back (clock : Int) : Op → Int
  | .correct now => max 0 (clock - now.micros)
  | _ => 0

/-- The time last seen. -/
def seen (clock : Int) : Op → Int
  | .correct now | .remember now => now.micros
  | _ => clock

/-- How far a run sets the clock back. -/
def backward : Int → List Op → Int
  | _, [] => 0
  | clock, op :: ops => back clock op + backward (seen clock op) ops

/-- The event stays what it is, but that a clock that is set back takes it along. -/
structure Idle (ev : Ptr) (op : Op) (s t : Timers) : Prop where
  armed : t.armed ev = s.armed ev
  queue : ev ∈ t.queue ↔ ev ∈ s.queue
  time : t.time ev = if s.armed ev then s.time ev - back s.clock op else s.time ev
  calls : t.calls ev = s.calls ev
  period : t.period ev = s.period ev
  byTimeout : t.byTimeout ev = s.byTimeout ev

/-- The event comes to the queue. -/
structure Expired (ev : Ptr) (s t : Timers) : Prop where
  armed : t.armed ev = false
  queue : ev ∈ t.queue
  byTimeout : t.byTimeout ev = true
  time : t.time ev = s.time ev
  calls : t.calls ev = s.calls ev
  period : t.period ev = s.period ev

theorem fire_frame (ev : Ptr) (rest : List Ptr) (now : Int) :
    (s.fire ev rest now).clock = s.clock ∧ (s.fire ev rest now).persist = s.persist ∧
      s.called <+: (s.fire ev rest now).called := by
  have called : s.called <+: (s.call ev).called := List.prefix_append _ _
  rw [fire]
  split
  · split
    · exact ⟨rfl, rfl, called⟩
    · exact ⟨rfl, rfl, called⟩
  · exact ⟨rfl, rfl, called⟩

@[simp] theorem expire_nil : s.expire [] = s := by simp [expire]

/-- The events come to the queue one by one. -/
theorem expire_expire {due : List Ptr} (fresh : ev ∉ due) :
    (s.expire [ev]).expire due = s.expire (ev :: due) := by
  have queue : (s.queue.filter (· ∉ [ev]) ++ [ev]).filter (· ∉ due) ++ due =
      s.queue.filter (· ∉ ev :: due) ++ ev :: due := by
    rw [List.filter_append, List.filter_filter, List.append_assoc]
    simp [fresh, Bool.and_comm]
  have armed : (fun x => (s.armed x && x ∉ [ev]) && x ∉ due) =
      fun x => s.armed x && x ∉ ev :: due := by
    funext x
    simp [Bool.and_assoc]
  have byTimeout : (fun x => (s.byTimeout x || x ∈ [ev]) || x ∈ due) =
      fun x => s.byTimeout x || x ∈ ev :: due := by
    funext x
    simp [Bool.or_assoc]
  simp only [expire, queue, armed, byTimeout]

/-- `timeout_process` takes an event out of the heap and activates it. -/
theorem activate_del (nodup : s.queue.Nodup) : (s.del ev).activate ev true = s.expire [ev] := by
  have queue : s.queue.erase ev = s.queue.filter (· ∉ [ev]) := by
    rw [nodup.erase_eq_filter]
    refine List.filter_congr fun x _ => ?_
    by_cases same : x = ev
    · simp [same]
    · simp [same]
  have armed : update s.armed ev false = fun x => s.armed x && x ∉ [ev] := by
    funext x
    by_cases same : x = ev
    · simp [same]
    · simp [same]
  have byTimeout : update s.byTimeout ev true = fun x => s.byTimeout x || x ∈ [ev] := by
    funext x
    by_cases same : x = ev
    · simp [same]
    · simp [same]
  rw [activate, if_neg (show ev ∉ (s.del ev).queue from nodup.not_mem_erase)]
  simp only [expire, del, queue, armed, byTimeout]

/-- What a step does not change, or only adds to. -/
theorem step_frame (stepped : Step s op t) :
    t.clock = seen s.clock op ∧ t.persist = s.persist ∧ s.called <+: t.called := by
  cases op with
  | add ev tv now mmRealloc =>
      rcases stepped with rfl | ⟨_, _, rfl⟩
      · exact ⟨rfl, rfl, List.prefix_rfl⟩
      · exact ⟨rfl, rfl, List.prefix_rfl⟩
  | del ev => exact stepped ▸ ⟨rfl, rfl, List.prefix_rfl⟩
  | active ev res =>
      cases stepped
      rw [activate]
      split
      · exact ⟨rfl, rfl, List.prefix_rfl⟩
      · exact ⟨rfl, rfl, List.prefix_rfl⟩
  | correct now => exact stepped ▸ ⟨rfl, rfl, List.prefix_rfl⟩
  | remember now => exact stepped ▸ ⟨rfl, rfl, List.prefix_rfl⟩
  | process now =>
      obtain ⟨_, _, _, _, rfl⟩ := stepped
      exact ⟨rfl, rfl, List.prefix_rfl⟩
  | fire now mmRealloc =>
      simp only [Step] at stepped
      split at stepped
      · exact stepped ▸ ⟨rfl, rfl, List.prefix_rfl⟩
      · rcases stepped with rfl | ⟨_, _, _, rfl⟩
        · exact fire_frame _ _ _
        · exact ⟨rfl, rfl, List.prefix_append _ _⟩

theorem idle_time (same : t.time ev = s.time ev) (still : back s.clock op = 0) :
    t.time ev = if s.armed ev then s.time ev - back s.clock op else s.time ev := by
  simp [same, still]

theorem Idle.refl (still : back s.clock op = 0) : Idle ev op s s where
  armed := rfl
  queue := Iff.rfl
  time := idle_time rfl still
  calls := rfl
  period := rfl
  byTimeout := rfl

/-- Another event of the queue is served. -/
theorem fire_other {rest : List Ptr} {now : Timeval} {mmRealloc : Bool} (ne : ev ≠ x)
    (split : s.queue = x :: rest) :
    Idle ev (.fire now mmRealloc) s (s.fire x rest now.micros) := by
  have calls : (s.call x).calls ev = s.calls ev := by rw [calls_call, if_neg ne.symm, Nat.add_zero]
  have queue : ev ∈ rest ↔ ev ∈ s.queue := by rw [split, List.mem_cons, or_iff_right ne]
  rw [fire]
  split_ifs with persist comes
  · refine ⟨update_of_ne ne _ _, ?_, ?_, calls, rfl, rfl⟩
    · simp only [arm]
      split_ifs
      · exact (List.mem_erase_of_ne ne).trans queue
      · exact queue
    · exact idle_time (update_of_ne ne _ _) rfl
  · exact ⟨rfl, queue, idle_time rfl rfl, calls, rfl, rfl⟩
  · refine ⟨update_of_ne ne _ _, ?_, idle_time rfl rfl, calls, rfl, rfl⟩
    exact List.mem_erase_of_ne ne

/-- What a step does to an event that it does not name or serve. -/
theorem step_unnamed (stepped : Step s op t) (free : ¬ op.Names ev)
    (waits : ∀ rest now mmRealloc, op = .fire now mmRealloc → s.queue ≠ ev :: rest) :
    Idle ev op s t ∧ (∀ now, op = .process now → s.due now.micros ev = false) ∨
      Expired ev s t ∧ ∃ now, op = .process now ∧ s.due now.micros ev = true := by
  cases op with
  | add x tv now mmRealloc =>
      refine .inl ⟨?_, nofun⟩
      have ne : ev ≠ x := fun same => free same.symm
      rcases stepped with rfl | ⟨_, _, rfl⟩
      · refine ⟨update_of_ne ne _ _, ?_, ?_, rfl, ?_, rfl⟩
        · simp only [Timers.add, arm]
          split_ifs
          · exact List.mem_erase_of_ne ne
          · exact Iff.rfl
        · exact idle_time (update_of_ne ne _ _) rfl
        · simp only [Timers.add, arm]
          split_ifs
          · exact update_of_ne ne _ _
          · rfl
      · exact .refl rfl
  | del x =>
      refine .inl ⟨?_, nofun⟩
      have ne : ev ≠ x := fun same => free same.symm
      cases stepped
      exact ⟨update_of_ne ne _ _, List.mem_erase_of_ne ne, idle_time rfl rfl, rfl, rfl, rfl⟩
  | active x res =>
      refine .inl ⟨?_, nofun⟩
      have ne : ev ≠ x := fun same => free same.symm
      cases stepped
      rw [activate]
      split_ifs
      · exact ⟨rfl, Iff.rfl, idle_time rfl rfl, rfl, rfl, update_of_ne ne _ _⟩
      · exact ⟨rfl, by simp [ne], idle_time rfl rfl, rfl, rfl, update_of_ne ne _ _⟩
  | correct now =>
      refine .inl ⟨?_, nofun⟩
      cases stepped
      exact ⟨rfl, Iff.rfl, rfl, rfl, rfl, rfl⟩
  | remember now =>
      refine .inl ⟨?_, nofun⟩
      cases stepped
      exact ⟨rfl, Iff.rfl, idle_time rfl rfl, rfl, rfl, rfl⟩
  | process now =>
      obtain ⟨due, _, mem, _, rfl⟩ := stepped
      by_cases here : ev ∈ due
      · refine .inr ⟨?_, now, rfl, (mem ev).mp here⟩
        exact ⟨by simp [expire, here], by simp [expire, here], by simp [expire, here], rfl, rfl,
          rfl⟩
      · refine .inl ⟨?_, ?_⟩
        · exact ⟨by simp [expire, here], by simp [expire, here], idle_time rfl rfl, rfl, rfl,
            by simp [expire, here]⟩
        · rintro _ ⟨⟩
          exact Bool.eq_false_iff.mpr fun isDue => here ((mem ev).mpr isDue)
  | fire now mmRealloc =>
      refine .inl ⟨?_, nofun⟩
      simp only [Step] at stepped
      split at stepped
      · exact stepped ▸ .refl rfl
      · next x rest split =>
        have ne : ev ≠ x := fun same => waits rest now mmRealloc rfl (same ▸ split)
        rcases stepped with rfl | ⟨_, _, _, rfl⟩
        · exact fire_other ne split
        · refine ⟨rfl, by simp [split, ne], idle_time rfl rfl, ?_, rfl, rfl⟩
          exact calls_call.trans (by rw [if_neg ne.symm, Nat.add_zero])

theorem waits_of_calm (calm : ev ∉ s.queue) :
    ∀ rest now mmRealloc, op = .fire now mmRealloc → s.queue ≠ ev :: rest := by
  intro rest now mmRealloc _ split
  exact calm (split ▸ List.mem_cons_self)

/-- An event that does not persist is served. -/
theorem fire_once {rest : List Ptr} {now : Int} (once : s.persist ev = false)
    (split : s.queue = ev :: rest) :
    s.fire ev rest now = { s.call ev with armed := update s.armed ev false, queue := rest } := by
  have shorter : s.queue.erase ev = rest := by rw [split, List.erase_cons_head]
  rw [fire, if_neg (by simp [once]), del]
  exact congrArg (fun queue => { s.call ev with armed := update s.armed ev false, queue }) shorter

theorem fire_calls {rest : List Ptr} {now : Int} :
    (s.fire ev rest now).calls ev = s.calls ev + 1 := by
  have calls : (s.call ev).calls ev = s.calls ev + 1 := by rw [calls_call, if_pos rfl]
  rw [fire]
  split_ifs <;> exact calls

/-- The next time of an event that persists and is served in time. -/
theorem again_eq {now : Int} (byTimeout : s.byTimeout ev = true)
    (timely : now ≤ s.time ev + s.period ev) : s.again ev now = s.time ev + s.period ev := by
  rw [again, if_pos byTimeout]
  exact if_neg (not_lt.mpr timely)

/-! ## Runs -/

/-- No pass of `timeout_process` comes at the time of an event, or later. -/
def Early : Int → Int → List Op → Prop
  | _, _, [] => True
  | clock, time, op :: ops =>
      (match op with
        | .process now => now.micros < time
        | _ => True) ∧ Early (seen clock op) (time - back clock op) ops

theorem Run.append_iff {first last : List Op} :
    Run s (first ++ last) u ↔ ∃ t, Run s first t ∧ Run t last u := by
  constructor
  · intro ran
    induction first generalizing s with
    | nil => exact ⟨s, .nil s, ran⟩
    | cons op first ih =>
        cases ran with
        | cons stepped rest =>
            obtain ⟨t, before, behind⟩ := ih rest
            exact ⟨t, .cons stepped before, behind⟩
  · rintro ⟨t, before, behind⟩
    induction before with
    | nil => exact behind
    | cons stepped _ ih => exact .cons stepped (ih behind)

theorem Run.nodup (ran : Run s ops t) (nodup : s.queue.Nodup) : t.queue.Nodup := by
  induction ran with
  | nil => exact nodup
  | cons stepped _ ih => exact ih (step_nodup stepped nodup)

/-- An armed event is left alone until its time. -/
theorem Run.early (ran : Run s ops t) (free : ∀ op ∈ ops, ¬ op.Names ev)
    (armed : s.armed ev = true) (calm : ev ∉ s.queue) (early : Early s.clock (s.time ev) ops) :
    t.armed ev = true ∧ ev ∉ t.queue ∧ t.time ev = s.time ev - backward s.clock ops ∧
      t.calls ev = s.calls ev := by
  induction ran with
  | nil => exact ⟨armed, calm, by simp [backward], rfl⟩
  | @cons s t u op ops stepped ran ih =>
      obtain ⟨first, later⟩ := early
      rcases step_unnamed stepped (free op List.mem_cons_self) (waits_of_calm calm) with
        ⟨idle, _⟩ | ⟨_, now, rfl, isDue⟩
      · have time : t.time ev = s.time ev - back s.clock op := by rw [idle.time, if_pos armed]
        rw [← time, ← (step_frame stepped).1] at later
        obtain ⟨armed', calm', time', calls'⟩ := ih
          (fun op mem => free op (List.mem_cons_of_mem _ mem)) (idle.armed.trans armed)
          (fun mem => calm (idle.queue.mp mem)) later
        refine ⟨armed', calm', ?_, calls'.trans idle.calls⟩
        rw [time', time, (step_frame stepped).1, backward]
        omega
      · simp only [due, Bool.and_eq_true, decide_eq_true_iff] at isDue
        dsimp only at first
        omega

/-- The first pass of `timeout_process` that comes at the time of an event or later activates
it, and none before. -/
theorem Run.queued_iff {now : Timeval} (ran : Run s (ops ++ [.process now]) u)
    (free : ∀ op ∈ ops, ¬ op.Names ev) (armed : s.armed ev = true) (calm : ev ∉ s.queue)
    (early : Early s.clock (s.time ev) ops) :
    u.calls ev = s.calls ev ∧
      (ev ∈ u.queue ↔ s.time ev - backward s.clock ops ≤ now.micros) := by
  obtain ⟨t, before, last⟩ := Run.append_iff.mp ran
  cases last with
  | cons stepped done =>
      cases done
      obtain ⟨armed', calm', time, calls⟩ := before.early free armed calm early
      rw [← time, ← calls]
      rcases step_unnamed stepped id (waits_of_calm calm') with
        ⟨idle, spared⟩ | ⟨expired, _, same, isDue⟩
      · refine ⟨idle.calls, iff_of_false (fun mem => calm' (idle.queue.mp mem)) fun late => ?_⟩
        have := spared now rfl
        simp [due, armed', late] at this
      · cases same
        refine ⟨expired.calls, iff_of_true expired.queue ?_⟩
        simpa [due, armed'] using isDue

/-! ## Callbacks -/

/-- The event is armed, or on the queue. -/
def Pending (s : Timers) (ev : Ptr) : Prop := s.armed ev = true ∨ ev ∈ s.queue

/-- The calls of a callback, and those that may come without another `event_add`. -/
def weight (s : Timers) (ev : Ptr) : Nat :=
  s.calls ev + (s.armed ev).toNat + if ev ∈ s.queue then 1 else 0

theorem weight_le {k : Nat} (queue : ev ∈ t.queue → ev ∈ s.queue)
    (rest : t.calls ev + (t.armed ev).toNat ≤ s.calls ev + (s.armed ev).toNat + k) :
    t.weight ev ≤ s.weight ev + k := by
  have queued : (if ev ∈ t.queue then 1 else 0) ≤ if ev ∈ s.queue then 1 else 0 := by
    split_ifs with here there
    · exact le_refl 1
    · exact absurd (queue here) there
    · exact Nat.zero_le 1
    · exact le_refl 0
  unfold weight
  omega

theorem Idle.weight (idle : Idle ev op s t) : t.weight ev = s.weight ev := by
  simp only [Timers.weight, idle.calls, idle.armed, idle.queue]

theorem Expired.weight {now : Int} (expired : Expired ev s t) (isDue : s.due now ev = true) :
    t.weight ev ≤ s.weight ev := by
  have armed : s.armed ev = true := (Bool.and_eq_true_iff.mp isDue).1
  simp only [Timers.weight, expired.calls, expired.armed, armed, if_pos expired.queue,
    Bool.toNat_true, Bool.toNat_false]
  omega

theorem step_weight (stepped : Step s op t) (nodup : s.queue.Nodup)
    (once : s.persist ev = false) :
    t.weight ev ≤ s.weight ev + if op.Starts ev then 1 else 0 := by
  by_cases named : op.Names ev
  · cases op with
    | add x tv now mmRealloc =>
        obtain rfl : x = ev := named
        rw [if_pos (show Op.Starts x (.add x tv now mmRealloc) from rfl)]
        rcases stepped with rfl | ⟨_, _, rfl⟩
        · refine weight_le (fun mem => (arm_queue_sublist x (now.micros + tv.micros)).subset mem) ?_
          have armed : ((s.add x tv.micros now.micros).armed x).toNat ≤ 1 := Bool.toNat_le _
          have calls : (s.add x tv.micros now.micros).calls x = s.calls x := rfl
          omega
        · exact Nat.le_succ _
    | del x =>
        obtain rfl : x = ev := named
        cases stepped
        refine weight_le (fun mem => List.mem_of_mem_erase mem) ?_
        have armed : ((s.del x).armed x).toNat = 0 := by simp [del]
        have calls : (s.del x).calls x = s.calls x := rfl
        omega
    | active x res =>
        obtain rfl : x = ev := named
        cases stepped
        rw [if_pos (show Op.Starts x (.active x res) from rfl), activate]
        split_ifs with queued
        · exact Nat.le_succ _
        · simp only [weight, calls]
          split_ifs <;> omega
    | correct now => exact named.elim
    | remember now => exact named.elim
    | process now => exact named.elim
    | fire now mmRealloc => exact named.elim
  · refine le_trans ?_ (Nat.le_add_right _ _)
    by_cases waits : ∀ rest now mmRealloc, op = .fire now mmRealloc → s.queue ≠ ev :: rest
    · rcases step_unnamed stepped named waits with ⟨idle, _⟩ | ⟨expired, _, _, isDue⟩
      · exact idle.weight.le
      · exact expired.weight isDue
    · push Not at waits
      obtain ⟨rest, now, mmRealloc, rfl, split⟩ := waits
      simp only [Step, split, once] at stepped
      obtain rfl : t = s.fire ev rest now.micros := by simpa using stepped
      have gone : ev ∉ rest := (List.nodup_cons.mp (split ▸ nodup)).1
      have head : ev ∈ s.queue := split ▸ List.mem_cons_self
      have armed : (s.fire ev rest now.micros).armed ev = false := by
        rw [fire_once once split]
        exact update_self _ _ _
      have queue : (s.fire ev rest now.micros).queue = rest := by rw [fire_once once split]
      rw [weight, weight, fire_calls, armed, queue, if_neg gone, if_pos head, Bool.toNat_false]
      omega

/-- A callback of an event that does not persist is called at most once for each time the event
was armed or activated. -/
theorem Run.weight_le (ran : Run s ops t) (nodup : s.queue.Nodup) (ev : Ptr)
    (once : s.persist ev = false) :
    t.weight ev ≤ s.weight ev + ops.countP (fun op => decide (op.Starts ev)) := by
  induction ran with
  | nil => exact le_refl _
  | @cons s t u op ops stepped ran ih =>
      have one := step_weight stepped nodup once
      have rest := ih (step_nodup stepped nodup)
        ((congrFun (step_frame stepped).2.1 ev).trans once)
      rw [List.countP_cons]
      simp only [decide_eq_true_iff]
      omega

theorem Idle.pending (idle : Idle ev op s t) (pending : s.Pending ev) : t.Pending ev :=
  pending.imp idle.armed.trans idle.queue.mpr

theorem step_calls_le (stepped : Step s op t) : s.calls ev ≤ t.calls ev :=
  (step_frame stepped).2.2.sublist.countP_le

theorem step_pending (stepped : Step s op t) (kept : op ≠ .del ev) (pending : s.Pending ev) :
    t.Pending ev ∨ s.calls ev < t.calls ev := by
  by_cases named : op.Names ev
  · cases op with
    | add x tv now mmRealloc =>
        obtain rfl : x = ev := named
        rcases stepped with rfl | ⟨_, _, rfl⟩
        · exact .inl (.inl (update_self _ _ _))
        · exact .inl pending
    | del x => exact absurd (congrArg Op.del named) kept
    | active x res =>
        cases stepped
        rw [activate]
        split_ifs
        · exact .inl pending
        · exact .inl (pending.imp id (List.mem_append_left _))
    | correct now => exact named.elim
    | remember now => exact named.elim
    | process now => exact named.elim
    | fire now mmRealloc => exact named.elim
  · by_cases waits : ∀ rest now mmRealloc, op = .fire now mmRealloc → s.queue ≠ ev :: rest
    · rcases step_unnamed stepped named waits with ⟨idle, _⟩ | ⟨expired, _⟩
      · exact .inl (idle.pending pending)
      · exact .inl (.inr expired.queue)
    · push Not at waits
      obtain ⟨rest, now, mmRealloc, rfl, split⟩ := waits
      refine .inr ?_
      simp only [Step, split] at stepped
      rcases stepped with rfl | ⟨_, _, _, rfl⟩
      · exact fire_calls ▸ Nat.lt_succ_self _
      · have calls : (s.call ev).calls ev = s.calls ev + 1 := by rw [calls_call, if_pos rfl]
        exact calls ▸ Nat.lt_succ_self _

theorem Run.calls_le (ran : Run s ops t) : s.calls ev ≤ t.calls ev := by
  induction ran with
  | nil => exact le_refl _
  | cons stepped _ ih => exact (step_calls_le stepped).trans ih

/-- An event that is armed or on the queue is lost only by `event_del`: it stays there until its
callback is called. -/
theorem Run.keeps_pending (ran : Run s ops t) (kept : .del ev ∉ ops) (pending : s.Pending ev) :
    t.Pending ev ∨ s.calls ev < t.calls ev := by
  induction ran with
  | nil => exact .inl pending
  | @cons s t u op ops stepped ran ih =>
      rcases step_pending stepped (fun same => kept (same ▸ List.mem_cons_self)) pending with
        still | called
      · rcases ih (fun mem => kept (List.mem_cons_of_mem op mem)) still with still | called
        · exact .inl still
        · exact .inr ((step_calls_le stepped).trans_lt called)
      · exact .inr (called.trans_le ran.calls_le)

/-! ## Events that persist -/

/-- The event is left alone, the clock is not set back, and the event is served at most a period
late, with memory to arm it again. -/
def Timely (ev : Ptr) (s : Timers) (op : Op) : Prop :=
  ¬ op.Names ev ∧ match op with
    | .correct now => s.clock ≤ now.micros
    | .fire now mmRealloc => s.queue.head? = some ev →
        now.micros ≤ s.time ev + s.period ev ∧ mmRealloc = true
    | _ => True

instance (ev : Ptr) (s : Timers) : DecidablePred (Timely ev s)
  | .add _ _ _ _ | .del _ | .active _ _ | .remember _ | .process _ =>
      inferInstanceAs (Decidable (_ ∧ True))
  | .correct _ => inferInstanceAs (Decidable (_ ∧ _ ≤ _))
  | .fire _ _ => inferInstanceAs (Decidable (_ ∧ (_ → _ ∧ _)))

/-- The event has been called a number of times, and comes again as many periods behind its first
time; it is armed for it, or has been activated at it. -/
structure OnGrid (ev : Ptr) (first period : Int) (calls : Nat) (s : Timers) : Prop where
  time : s.time ev = first + (s.calls ev - calls : Int) * period
  period : s.period ev = period
  waits : s.armed ev = true ∧ ev ∉ s.queue ∨
    s.armed ev = false ∧ ev ∈ s.queue ∧ s.byTimeout ev = true

theorem OnGrid.idle {first period : Int} {calls : Nat} (h : OnGrid ev first period calls s)
    (idle : Idle ev op s t) (forward : back s.clock op = 0) : OnGrid ev first period calls t where
  time := by
    rw [idle.time, forward, idle.calls, Int.sub_zero, ite_self]
    exact h.time
  period := idle.period.trans h.period
  waits := by
    rw [idle.armed, idle.queue, idle.byTimeout]
    exact h.waits

theorem step_onGrid {first period : Int} {calls : Nat} (h : OnGrid ev first period calls s)
    (persist : s.persist ev = true) (comes : period ≠ 0) (nodup : s.queue.Nodup)
    (timely : Timely ev s op) (stepped : Step s op t) : OnGrid ev first period calls t := by
  obtain ⟨free, timely⟩ := timely
  have forward : back s.clock op = 0 := by
    cases op with
    | correct now => exact max_eq_left (Int.sub_nonpos_of_le timely)
    | _ => rfl
  by_cases waits : ∀ rest now mmRealloc, op = .fire now mmRealloc → s.queue ≠ ev :: rest
  · rcases step_unnamed stepped free waits with ⟨idle, _⟩ | ⟨expired, _⟩
    · exact h.idle idle forward
    · refine ⟨?_, expired.period.trans h.period, .inr ⟨expired.armed, expired.queue,
        expired.byTimeout⟩⟩
      rw [expired.time, expired.calls]
      exact h.time
  · push Not at waits
    obtain ⟨rest, now, mmRealloc, rfl, split⟩ := waits
    have head : ev ∈ s.queue := split ▸ List.mem_cons_self
    have gone : ev ∉ rest := (List.nodup_cons.mp (split ▸ nodup)).1
    obtain ⟨-, -, byTimeout⟩ := h.waits.resolve_left fun armed => armed.2 head
    obtain ⟨inTime, memory⟩ := timely (by rw [split, List.head?_cons])
    have calls' : (s.fire ev rest now.micros).calls ev = s.calls ev + 1 := fire_calls
    simp only [Step, split] at stepped
    obtain rfl : t = s.fire ev rest now.micros := by
      rcases stepped with same | ⟨noMemory, _⟩
      · exact same
      · exact absurd (noMemory.symm.trans memory) Bool.false_ne_true
    have fired : s.fire ev rest now.micros =
        { s.call ev with queue := rest }.arm ev (s.time ev + s.period ev) := by
      rw [fire, if_pos persist, if_pos (h.period ▸ comes), again_eq byTimeout inTime]
    refine ⟨?_, ?_, .inl ⟨?_, ?_⟩⟩
    · rw [calls', fired]
      simp only [arm, update_self, h.time, h.period, Int.natCast_add, Int.natCast_one]
      ring
    · rw [fired]
      exact h.period
    · rw [fired]
      exact update_self _ _ _
    · rw [fired]
      exact fun mem => gone ((arm_queue_sublist _ _).subset mem)

end Timers

end Shang.Libevent
