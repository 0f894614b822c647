import Shang.Anytimer.Signal

/-!
# What the any-timer promises

The firing law of the version with signals, and the contract that `anytimer.h`
states for `at_canceljob` and `at_waitjob`. The law holds. The contract holds
except for two calls: cancelling a job that is running, which is refused as if it
had been cancelled before, and waiting for a job that is paused, which reports
it released when it is not.
-/

namespace Shang.Anytimer.Signal

open Lib

variable {s t u : Sys} {e : Event} {es fs : List Event} {i x : Slot} {id : Int} {j : Job} {k : Nat}

/-! ## The firing law -/

/-- What a state owes to the jobs that were added before it: each has fired on
every `sec`-th tick that it spent running, and on no other; ticks count while it
is running, and nothing else does; one that fires when it is not to be repeated
is over; one that is over, released or cancelled has fired for the last time. -/
structure FiringLaw (s : Sys) : Prop where
  law : ∀ k < s.born, 1 ≤ (s.track k).sec → (s.track k).Law
  added : ∀ sec isRepeat mem t, s.step (.call (.addjob sec isRepeat mem)) = some t →
    t.born = s.born ∨ t.born = s.born + 1 ∧ t.track s.born = ⟨sec.toNat, 0, []⟩ ∧
      ∃ i, t.job i = some (.new sec isRepeat) ∧ t.serial i = s.born
  kept : ∀ e t, s.step e = some t → e ≠ .alrm true → ∀ k < s.born, t.track k = s.track k
  ticked : ∀ i j t, s.step (.alrm true) = some t → s.job i = some j →
    t.track (s.serial i) = (s.track (s.serial i)).tick j
  paused : ∀ i j t, s.step (.alrm true) = some t → s.job i = some j → j.jobState = .statePause →
    t.track (s.serial i) = s.track (s.serial i)
  finished : ∀ i j t, s.step (.alrm true) = some t → s.job i = some j → j.rep ≠ REPEAT →
    (t.track (s.serial i)).fires ≠ (s.track (s.serial i)).fires →
      (∃ j', t.job i = some j' ∧ j'.jobState = .stateOver) ∧ Ended (s.serial i) t
  ended : ∀ k fs u, Ended k s → run Sys.step s fs = some u → u.track k = s.track k
  cancelled : ∀ id t, s.step (.call (.canceljob id)) = some t →
    t.returned = s.returned ++ [(.canceljob id, some 0)] →
      ∃ i j, s.find id = some (i, j) ∧ ∀ fs u, run Sys.step t fs = some u →
        u.track (s.serial i) = s.track (s.serial i)

@[simp] theorem finish_track {c : Call} {result : Option Int} :
    (s.finish c result).track = s.track := rfl

/-- Only a tick changes the tracks of the jobs there are. -/
theorem step_track (stepped : s.step e = some t) (quiet : e ≠ .alrm true) (older : k < s.born) :
    t.track k = s.track k := by
  obtain ⟨u, line, returned, effect⟩ := step_moves stepped quiet
  cases effect with
  | keep => rfl
  | change => rfl
  | release => rfl
  | add pos sec isRepeat => exact Function.update_of_ne (Nat.ne_of_lt older) _ _

theorem Inv.ticked (inv : Inv s) (found : s.job i = some j) :
    (s.alrmAction true).track (s.serial i) = (s.track (s.serial i)).tick j := by
  rw [(ticked_alrm inv.distinct).track i j found, if_pos (List.mem_finRange i)]

/-- A job that fires and is not to be repeated is over. -/
theorem Inv.finished (inv : Inv s) (found : s.job i = some j) (once : j.rep ≠ REPEAT)
    (fired : ((s.alrmAction true).track (s.serial i)).fires ≠ (s.track (s.serial i)).fires) :
    (∃ j', (s.alrmAction true).job i = some j' ∧ j'.jobState = .stateOver) ∧
      Ended (s.serial i) (s.alrmAction true) := by
  rw [inv.ticked found] at fired
  have running : j.jobState = .stateRunning := by
    by_contra idle
    exact fired (congrArg Track.fires (tick_idle idle).2)
  have due : j.timeRemain - 1 = 0 := by
    by_contra early
    exact fired (by rw [Track.tick_early running early])
  have ends : j.tick.1.jobState = .stateOver := by
    rw [tick_due running due]
    dsimp only
    rw [if_neg once]
  have ticked := ticked_alrm inv.distinct
  have used : (s.job i).isSome := by rw [found]; rfl
  refine ⟨⟨j.tick.1, by rw [alrm_job, found, Option.map_some], ends⟩, ?_, fun x p found' same => ?_⟩
  · rw [ticked.born]
    exact inv.below i used
  · rw [alrm_job] at found'
    obtain ⟨q, there, rfl⟩ := Option.map_eq_some_iff.mp found'
    rw [ticked.serial] at same
    obtain rfl := inv.distinct x i (by rw [there]; rfl) used same
    rw [Option.some.inj (there.symm.trans found)]
    exact .inl ends

/-- A job whose cancellation succeeded has ended. -/
theorem Inv.cancelled (inv : Inv s) (found : s.find id = some (i, j))
    (stopped : j.jobState ≠ .stateRunning) (unfinished : j.jobState ≠ .stateOver) :
    s.atCanceljob id =
        (s.setJob i { j with rep := Sys.norepeat j.rep, jobState := .stateCancel }, 0) ∧
      Ended (s.serial i) (s.atCanceljob id).1 := by
  have eq : s.atCanceljob id =
      (s.setJob i { j with rep := Sys.norepeat j.rep, jobState := .stateCancel }, 0) := by
    unfold Sys.atCanceljob
    rw [found]
    dsimp only
    rw [if_neg stopped, if_neg unfinished]
  obtain ⟨-, there⟩ := find_eq_some.mp found
  have used : (s.job i).isSome := by rw [there]; rfl
  refine ⟨eq, ?_⟩
  rw [eq]
  refine ⟨inv.below i used, fun x p found' same => ?_⟩
  rcases update_some_eq_some.mp found' with ⟨-, rfl⟩ | ⟨other, before⟩
  · exact .inr rfl
  · exact absurd (inv.distinct x i (by rw [before]; rfl) used same) other

/-- A call by the idle main line. -/
theorem perform_of_step {c : Call} (stepped : s.step (.call c) = some t) :
    s.line = .idle ∧ s.perform c = some t := by
  simp only [Sys.step] at stepped
  split at stepped
  · next idle => exact ⟨idle, stepped⟩
  · cases stepped

theorem cancel_of_step (stepped : s.step (.call (.canceljob id)) = some t) :
    t = (s.atCanceljob id).1.finish (.canceljob id) (some (s.atCanceljob id).2) := by
  obtain ⟨-, stepped⟩ := perform_of_step stepped
  simp only [Sys.perform, Option.some.injEq] at stepped
  exact stepped.symm

theorem cancel_returned : (s.atCanceljob id).1.returned = s.returned := by
  unfold Sys.atCanceljob
  split
  · rfl
  · split
    · rfl
    · split <;> rfl

/-- Only a cancellation of a job that is neither running nor over returns 0. -/
theorem cancel_zero (zero : (s.atCanceljob id).2 = 0) :
    ∃ i j, s.find id = some (i, j) ∧ j.jobState ≠ .stateRunning ∧ j.jobState ≠ .stateOver := by
  unfold Sys.atCanceljob at zero
  split at zero
  · exact absurd zero (show -EINVAL ≠ 0 by decide)
  · next i j found =>
      split at zero
      · exact absurd zero (show -ECANCELED ≠ 0 by decide)
      · next stopped =>
          split at zero
          · exact absurd zero (show -EBUSY ≠ 0 by decide)
          · next unfinished => exact ⟨i, j, found, stopped, unfinished⟩

/-- The law holds in every state that is reached. -/
theorem firing_law (ran : run Sys.step Sys.start es = some s) : FiringLaw s := by
  have inv := run_inv ran
  refine ⟨inv.law, fun sec isRepeat mem t stepped => ?_, fun e t stepped quiet k older =>
    step_track stepped quiet older, fun i j t stepped found => ?_, fun i j t stepped found paused =>
    ?_, fun i j t stepped found once fired => ?_, fun k fs u ended ran => (ended.run ran).track,
    fun id t stepped returned => ?_⟩
  · obtain ⟨-, stepped⟩ := perform_of_step stepped
    simp only [Sys.perform, Option.some.injEq] at stepped
    rw [← stepped]
    unfold Sys.finish Sys.atAddjob
    split
    · exact .inl rfl
    · next pos _ =>
        split
        · exact .inr ⟨rfl, Function.update_self _ _ _, pos, Function.update_self _ _ _,
            Function.update_self _ _ _⟩
        · exact .inl rfl
  · rw [alrm_of_step stepped]
    exact inv.ticked found
  · rw [alrm_of_step stepped, inv.ticked found]
    exact (tick_idle (by simp [paused])).2
  · rw [alrm_of_step stepped] at fired ⊢
    exact inv.finished found once fired
  · have eq := cancel_of_step stepped
    have zero : (s.atCanceljob id).2 = 0 := by
      rw [eq] at returned
      change (s.atCanceljob id).1.returned ++ _ = _ at returned
      rw [cancel_returned] at returned
      simpa using returned
    obtain ⟨i, j, found, stopped, unfinished⟩ := cancel_zero zero
    obtain ⟨result, ended⟩ := inv.cancelled found stopped unfinished
    refine ⟨i, j, found, fun fs u ran => ?_⟩
    have rests : Ended (s.serial i) t := by
      rw [eq]
      exact ⟨ended.older, ended.state⟩
    rw [(rests.run ran).track, eq, finish_track, result]
    rfl

/-- A job that is added for repetition and changed after its first firing fires
once more, and `at_waitjob` releases it. -/
theorem firing_law_changed :
    ∃ s, run Sys.step Sys.start
        [.call (.addjob 1 REPEAT true), .alrm true, .call (.norepeat 0), .alrm true,
          .call (.waitjob 0)] = some s ∧
      ((s.track 0).ran = 2 ∧ (s.track 0).fires = [1, 2] ∧ s.find 0 = none) ∧ FiringLaw s := by
  have ran : (run Sys.step Sys.start
      [.call (.addjob 1 REPEAT true), .alrm true, .call (.norepeat 0), .alrm true,
        .call (.waitjob 0)]).map
      (fun s => ((s.track 0).ran, (s.track 0).fires, s.find 0)) = some (2, [1, 2], none) := by
    decide +kernel
  obtain ⟨s, ran, eq⟩ := Option.map_eq_some_iff.mp ran
  simp only [Prod.mk.injEq] at eq
  exact ⟨s, ran, eq, firing_law ran⟩

/-! ## The contract of the header -/

/-- `id` names a job in the state `jobState`. -/
def Sys.InState (s : Sys) (id : Int) (jobState : JobState) : Prop :=
  ∃ i j, s.find id = some (i, j) ∧ j.jobState = jobState

/-- What `anytimer.h` says of a call `at_canceljob(id)` in the state `s`. -/
structure CancelContract (s : Sys) (id : Int) : Prop where
  done : ∀ i j, s.find id = some (i, j) → j.jobState = .stateRunning ∨ j.jobState = .statePause →
    ∃ t, s.step (.call (.canceljob id)) = some t ∧
      t.returned = s.returned ++ [(.canceljob id, some 0)] ∧
      ∀ fs u, run Sys.step t fs = some u →
        (u.track (s.serial i)).fires = (s.track (s.serial i)).fires
  canceled : ∀ t, s.step (.call (.canceljob id)) = some t →
    t.returned = s.returned ++ [(.canceljob id, some (-ECANCELED))] → s.InState id .stateCancel
  busy : ∀ t, s.step (.call (.canceljob id)) = some t →
    t.returned = s.returned ++ [(.canceljob id, some (-EBUSY))] → s.InState id .stateOver
  invalid : ∀ t, s.step (.call (.canceljob id)) = some t →
    t.returned = s.returned ++ [(.canceljob id, some (-EINVAL))] →
      ¬ (0 ≤ id ∧ id < JOB_MAX) ∨ ∃ i, slotOf id = some i ∧ s.job i = none

/-- What `anytimer.h` says of a call `at_waitjob(id)` in the state `s`: if it
returns 0, however many ticks later, then the slot is free. -/
def WaitContract (s : Sys) (id : Int) : Prop :=
  ∀ es t, (∀ e ∈ es, ∀ c, e ≠ .call c) →
    run Sys.step s (.call (.waitjob id) :: es) = some t →
      t.returned = s.returned ++ [(.waitjob id, some 0)] → t.find id = none

theorem find_eq_none (lost : s.find id = none) :
    ¬ (0 ≤ id ∧ id < JOB_MAX) ∨ ∃ i, slotOf id = some i ∧ s.job i = none := by
  by_cases inside : 0 ≤ id ∧ id < JOB_MAX
  · right
    have slot : slotOf id = some ⟨id.toNat, by omega⟩ := dif_pos inside
    unfold Sys.find at lost
    rw [slot, Option.bind_some, Option.map_eq_none_iff] at lost
    exact ⟨_, slot, lost⟩
  · exact .inl inside

/-- The results of `at_canceljob`, from the state of the job that `id` names. -/
theorem cancel_result (s : Sys) (id : Int) :
    (s.find id = none ∧ (s.atCanceljob id).2 = -EINVAL) ∨
      (s.InState id .stateRunning ∧ (s.atCanceljob id).2 = -ECANCELED) ∨
      (s.InState id .stateOver ∧ (s.atCanceljob id).2 = -EBUSY) ∨
      (¬ s.InState id .stateRunning ∧ ¬ s.InState id .stateOver ∧ (s.atCanceljob id).2 = 0) := by
  unfold Sys.atCanceljob
  split
  · next lost => exact .inl ⟨lost, rfl⟩
  · next i j found =>
      have only : ∀ jobState, s.InState id jobState → j.jobState = jobState := by
        rintro jobState ⟨x, p, named, state⟩
        rw [found] at named
        rw [(Prod.mk.inj (Option.some.inj named)).2, state]
      right
      split
      · next running => exact .inl ⟨⟨i, j, found, running⟩, rfl⟩
      · next stopped =>
          split
          · next finished => exact .inr (.inl ⟨⟨i, j, found, finished⟩, rfl⟩)
          · next unfinished =>
              exact .inr (.inr ⟨fun state => stopped (only _ state),
                fun state => unfinished (only _ state), rfl⟩)

theorem canceljob_step (idle : s.line = .idle) (id : Int) :
    ∃ t, s.step (.call (.canceljob id)) = some t ∧
      t.returned = s.returned ++ [(.canceljob id, some (s.atCanceljob id).2)] := by
  refine ⟨(s.atCanceljob id).1.finish (.canceljob id) (some (s.atCanceljob id).2), ?_, ?_⟩
  · simp only [Sys.step]
    rw [if_pos idle]
    rfl
  · show (s.atCanceljob id).1.returned ++ _ = _
    rw [cancel_returned]

theorem canceljob_returned {ret : Int} (stepped : s.step (.call (.canceljob id)) = some t)
    (returned : t.returned = s.returned ++ [(.canceljob id, some ret)]) :
    (s.atCanceljob id).2 = ret := by
  rw [cancel_of_step stepped] at returned
  change (s.atCanceljob id).1.returned ++ _ = _ at returned
  rw [cancel_returned] at returned
  simpa using returned

/-- `at_canceljob` keeps its contract for every job that is not running. -/
theorem cancelContract_iff (ran : run Sys.step Sys.start es = some s) (idle : s.line = .idle)
    (id : Int) : CancelContract s id ↔ ¬ s.InState id .stateRunning := by
  have inv := run_inv ran
  have result := cancel_result s id
  constructor
  · rintro contract ⟨i, j, found, running⟩
    obtain ⟨t, stepped, returned, -⟩ := contract.done i j found (.inl running)
    have zero := canceljob_returned stepped returned
    unfold Sys.atCanceljob at zero
    rw [found] at zero
    dsimp only at zero
    rw [if_pos running] at zero
    exact absurd zero (show -ECANCELED ≠ 0 by decide)
  · intro stopped
    refine ⟨fun i j found live => ?_, fun t stepped returned => ?_, fun t stepped returned => ?_,
      fun t stepped returned => ?_⟩
    · have idleJob : j.jobState ≠ .stateRunning := fun running => stopped ⟨i, j, found, running⟩
      have paused : j.jobState = .statePause := live.resolve_left idleJob
      have unfinished : j.jobState ≠ .stateOver := by simp [paused]
      obtain ⟨eq, ended⟩ := inv.cancelled found idleJob unfinished
      obtain ⟨t, stepped, returned⟩ := canceljob_step idle id
      refine ⟨t, stepped, by rw [returned, eq], fun fs u ran => ?_⟩
      have rests : Ended (s.serial i) t := by
        rw [cancel_of_step stepped]
        exact ⟨ended.older, ended.state⟩
      rw [(rests.run ran).track, cancel_of_step stepped, finish_track, eq]
      rfl
    · have ret := canceljob_returned stepped returned
      rcases result with ⟨-, eq⟩ | ⟨running, -⟩ | ⟨-, eq⟩ | ⟨-, -, eq⟩
      · exact absurd (eq.symm.trans ret) (by decide)
      · exact absurd running stopped
      · exact absurd (eq.symm.trans ret) (by decide)
      · exact absurd (eq.symm.trans ret) (by decide)
    · have ret := canceljob_returned stepped returned
      rcases result with ⟨-, eq⟩ | ⟨running, -⟩ | ⟨finished, -⟩ | ⟨-, -, eq⟩
      · exact absurd (eq.symm.trans ret) (by decide)
      · exact absurd running stopped
      · exact finished
      · exact absurd (eq.symm.trans ret) (by decide)
    · have ret := canceljob_returned stepped returned
      rcases result with ⟨lost, -⟩ | ⟨running, -⟩ | ⟨-, eq⟩ | ⟨-, -, eq⟩
      · exact find_eq_none lost
      · exact absurd running stopped
      · exact absurd (eq.symm.trans ret) (by decide)
      · exact absurd (eq.symm.trans ret) (by decide)

/-- The call `at_waitjob(id)` that began in `s` waits in `t` for a job that was
running when it last looked, or has returned, and the slot is free if it
returned 0. -/
def Waits (s : Sys) (id : Int) (t : Sys) : Prop :=
  (∃ i woken j, t.line = .waiting id i woken ∧ slotOf id = some i ∧ t.job i = some j ∧
    j.jobState ≠ .statePause ∧ t.returned = s.returned) ∨
  ∃ ret, t.line = .idle ∧ t.returned = s.returned ++ [(.waitjob id, some ret)] ∧
    (ret = 0 → t.find id = none)

theorem waits_waitLoop (slot : slotOf id = some i) (found : t.job i = some j)
    (unpaused : j.jobState ≠ .statePause) (same : t.returned = s.returned)
    (stepped : t.waitLoop id i = some u) : Waits s id u := by
  obtain ⟨p, found', stepped⟩ := Option.map_eq_some_iff.mp stepped
  rw [found, Option.some.injEq] at found'
  subst found'
  split at stepped
  · rw [← stepped]
    exact .inl ⟨i, false, j, rfl, slot, found, unpaused, same⟩
  · next stopped =>
      have ended : j.jobState = .stateCancel ∨ j.jobState = .stateOver := by
        cases state : j.jobState with
        | stateRunning => exact absurd state stopped
        | stateCancel => exact .inl rfl
        | stateOver => exact .inr rfl
        | statePause => exact absurd state unpaused
      rw [if_pos ended] at stepped
      rw [← stepped]
      refine .inr ⟨0, rfl, congrArg (· ++ _) same, fun _ => ?_⟩
      show (slotOf id).bind _ = none
      rw [slot, Option.bind_some]
      show ((Function.update t.job i none) i).map _ = none
      rw [Function.update_self, Option.map_none]

/-- A tick does not pause a job. -/
theorem tick_unpaused (unpaused : j.jobState ≠ .statePause) : j.tick.1.jobState ≠ .statePause := by
  by_cases running : j.jobState = .stateRunning
  · by_cases due : j.timeRemain - 1 = 0
    · rw [tick_due running due]
      dsimp only
      split
      · exact unpaused
      · simp
    · rw [tick_early running due]
      exact unpaused
  · rw [(tick_idle (k := ⟨1, 0, []⟩) running).1]
    exact unpaused

theorem alrm_line (s : Sys) (kernel : Bool) : (s.alrmAction kernel).line = s.line.wake ∧
    (s.alrmAction kernel).returned = s.returned := by
  cases kernel with
  | false => exact ⟨rfl, rfl⟩
  | true =>
      have ticks : ∀ (is : List Slot) (t : Sys), (is.foldl Sys.tickSlot t).line = t.line ∧
          (is.foldl Sys.tickSlot t).returned = t.returned := by
        intro is
        induction is with
        | nil => exact fun t => ⟨rfl, rfl⟩
        | cons i is ih =>
            intro t
            obtain ⟨line, returned⟩ := ih (t.tickSlot i)
            rw [List.foldl_cons, line, returned]
            unfold Sys.tickSlot
            split <;> exact ⟨rfl, rfl⟩
      exact ticks _ _

theorem Waits.step (waits : Waits s id t) (quiet : ∀ c, e ≠ .call c)
    (stepped : t.step e = some u) : Waits s id u := by
  cases e with
  | call c => exact absurd rfl (quiet c)
  | next =>
      rcases waits with ⟨i, woken, j, line, slot, found, unpaused, same⟩ | ⟨ret, line, -⟩
      · cases woken with
        | false => simp [Sys.step, line] at stepped
        | true =>
            simp only [Sys.step, line] at stepped
            exact waits_waitLoop slot found unpaused same stepped
      · simp [Sys.step, line] at stepped
  | alrm kernel =>
      simp only [Sys.step, Option.some.injEq] at stepped
      obtain ⟨wake, same'⟩ := alrm_line t kernel
      rw [stepped] at wake same'
      rcases waits with ⟨i, woken, j, line, slot, found, unpaused, same⟩ | ⟨ret, line, same, free⟩
      · rw [line] at wake
        cases kernel with
        | false =>
            rw [← stepped]
            exact .inl ⟨i, true, j, by rw [stepped, wake]; rfl, slot, found, unpaused,
              by rw [stepped, same', same]⟩
        | true =>
            have found' : u.job i = some j.tick.1 := by
              rw [← stepped, alrm_job, found, Option.map_some]
            exact .inl ⟨i, true, j.tick.1, wake, slot, found', tick_unpaused unpaused,
              same'.trans same⟩
      · rw [line] at wake
        refine .inr ⟨ret, wake, same'.trans same, fun zero => ?_⟩
        cases kernel with
        | false =>
            rw [← stepped]
            exact free zero
        | true =>
            have lost := free zero
            unfold Sys.find at lost ⊢
            rw [Option.bind_eq_none_iff] at lost ⊢
            intro x slot
            rw [← stepped, alrm_job, Option.map_map, Option.map_eq_none_iff]
            exact Option.map_eq_none_iff.mp (lost x slot)

/-- The call begins: it returns at once or waits, unless the job is paused. -/
theorem waits_perform (awake : ¬ ∃ i j, s.find id = some (i, j) ∧ j.jobState = .statePause ∧
      j.rep ≠ REPEAT) (stepped : s.perform (.waitjob id) = some t) : Waits s id t := by
  simp only [Sys.perform, Sys.atWaitjob] at stepped
  split at stepped
  · next lost =>
      rw [← Option.some.inj stepped]
      exact .inr ⟨-EINVAL, rfl, rfl, fun _ => lost⟩
  · next i j found =>
      obtain ⟨slot, there⟩ := find_eq_some.mp found
      split at stepped
      · rw [← Option.some.inj stepped]
        exact .inr ⟨-EBUSY, rfl, rfl, fun zero => absurd zero (by decide)⟩
      · next once =>
          exact waits_waitLoop slot there (fun paused => awake ⟨i, j, found, paused, once⟩) rfl
            stepped

/-- `at_waitjob` keeps its contract for every job but a paused one that is not
to be repeated. -/
theorem waitContract_iff (idle : s.line = .idle) (id : Int) :
    WaitContract s id ↔
      ¬ ∃ i j, s.find id = some (i, j) ∧ j.jobState = .statePause ∧ j.rep ≠ REPEAT := by
  constructor
  · rintro contract ⟨i, j, found, paused, once⟩
    obtain ⟨-, there⟩ := find_eq_some.mp found
    have looped : s.waitLoop id i = some (s.finish (.waitjob id) (some 0)) := by
      unfold Sys.waitLoop
      rw [there, Option.map_some, if_neg (by simp [paused]), if_neg (by simp [paused])]
    have performed : s.step (.call (.waitjob id)) = some (s.finish (.waitjob id) (some 0)) := by
      simp only [Sys.step]
      rw [if_pos idle]
      show s.atWaitjob id = _
      unfold Sys.atWaitjob
      rw [found]
      dsimp only
      rw [if_neg once, looped]
    have lost := contract [] _ (by simp)
      (run_cons_eq_some.mpr ⟨_, performed, rfl⟩) rfl
    cases lost.symm.trans found
  · intro awake es t quiet ran returned
    obtain ⟨u, began, went⟩ := run_cons_eq_some.mp ran
    obtain ⟨-, performed⟩ := perform_of_step began
    have waits : Waits s id t :=
      run_invariant (fun waits allowed stepped => waits.step allowed.2 stepped)
        (waits_perform awake performed) ((along_true es u).and_forall quiet) went
    rcases waits with ⟨i, woken, j, line, slot, found, unpaused, same⟩ | ⟨ret, line, same, free⟩
    · exact absurd (same.symm.trans returned) (by simp)
    · rw [returned] at same
      simp only [List.append_cancel_left_eq, List.cons.injEq, Prod.mk.injEq, Option.some.injEq,
        true_and, and_true] at same
      exact free same.symm

/-- In every state that is reached `at_canceljob(id)` keeps the contract unless
the job is running, and `at_waitjob(id)` unless it is paused and not to be
repeated. -/
theorem contract_iff (ran : run Sys.step Sys.start es = some s) (idle : s.line = .idle)
    (id : Int) :
    (CancelContract s id ↔ ¬ s.InState id .stateRunning) ∧
      (WaitContract s id ↔
        ¬ ∃ i j, s.find id = some (i, j) ∧ j.jobState = .statePause ∧ j.rep ≠ REPEAT) :=
  ⟨cancelContract_iff ran idle id, waitContract_iff idle id⟩

theorem contract_iff_added :
    ∃ s, run Sys.step Sys.start [.call (.addjob 5 NO_REPEAT true), .call (.stopjob 0)] = some s ∧
      s.line = .idle ∧
      ((CancelContract s 0 ↔ ¬ s.InState 0 .stateRunning) ∧
        (WaitContract s 0 ↔
          ¬ ∃ i j, s.find 0 = some (i, j) ∧ j.jobState = .statePause ∧ j.rep ≠ REPEAT)) := by
  have ran : (run Sys.step Sys.start
      [.call (.addjob 5 NO_REPEAT true), .call (.stopjob 0)]).map (fun s => s.line) =
        some .idle := by
    decide +kernel
  obtain ⟨s, ran, idle⟩ := Option.map_eq_some_iff.mp ran
  exact ⟨s, ran, idle, contract_iff ran idle 0⟩

/-- Cancelling the job that was just added is refused as if it had been cancelled
before, and waiting for it once it is paused reports it released. -/
theorem contract_fails :
    (∃ s, run Sys.step Sys.start [.call (.addjob 5 NO_REPEAT true)] = some s ∧
      (s.line = .idle ∧ (s.atCanceljob 0).2 = -ECANCELED) ∧ ¬ CancelContract s 0) ∧
    ∃ s, run Sys.step Sys.start [.call (.addjob 5 NO_REPEAT true), .call (.stopjob 0)] = some s ∧
      s.line = .idle ∧ ¬ WaitContract s 0 := by
  constructor
  · have ran : (run Sys.step Sys.start [.call (.addjob 5 NO_REPEAT true)]).map
        (fun s => (s.line, (s.atCanceljob 0).2, s.find 0)) =
          some (.idle, -ECANCELED, some (0, .new 5 NO_REPEAT)) := by
      decide +kernel
    obtain ⟨s, ran, eq⟩ := Option.map_eq_some_iff.mp ran
    simp only [Prod.mk.injEq] at eq
    obtain ⟨idle, refused, found⟩ := eq
    refine ⟨s, ran, ⟨idle, refused⟩, fun contract => ?_⟩
    exact (cancelContract_iff ran idle 0).mp contract ⟨0, _, found, rfl⟩
  · have ran : (run Sys.step Sys.start
        [.call (.addjob 5 NO_REPEAT true), .call (.stopjob 0)]).map
        (fun s => (s.line, s.find 0)) = some (.idle, some (0, ⟨.statePause, 5, 5, NO_REPEAT⟩)) := by
      decide +kernel
    obtain ⟨s, ran, eq⟩ := Option.map_eq_some_iff.mp ran
    simp only [Prod.mk.injEq] at eq
    obtain ⟨idle, found⟩ := eq
    refine ⟨s, ran, idle, fun contract => ?_⟩
    exact (waitContract_iff idle 0).mp contract ⟨0, _, found, rfl, by decide⟩

end Shang.Anytimer.Signal
