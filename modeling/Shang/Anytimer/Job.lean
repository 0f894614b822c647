import Mathlib.Data.List.Basic
import Mathlib.Tactic.Linarith

/-!
# Jobs of the any-timer

The version of `anytimer.c` with signals and the one with threads keep the same
record of a job, less its locks, and do the same with it on a tick. The function
that the job calls and its argument are left out: a tick says whether it is
called.

`Track` is what an observer notes of one job: the ticks it spent running, and at
which of them its function was called. A job is on time if these are the
multiples of its period.
-/

namespace Shang.Anytimer

abbrev JOB_MAX : Nat := 1024

def REPEAT : Int := 1

def NO_REPEAT : Int := 0

def EINVAL : Int := 22

def ENOMEM : Int := 12

def EBUSY : Int := 16

def ENOSPC : Int := 28

def ECANCELED : Int := 125

/-- An index of the array `job`. -/
abbrev Slot := Fin JOB_MAX

/-- The index `id`, if it is in range. -/
def slotOf (id : Int) : Option Slot :=
  if inside : 0 ≤ id ∧ id < JOB_MAX then some ⟨id.toNat, by omega⟩ else none

inductive JobState
  | stateRunning
  | stateCancel
  | stateOver
  | statePause
  deriving DecidableEq

/-- `struct at_job_st` -/
structure Job where
  jobState : JobState
  sec : Int
  timeRemain : Int
  rep : Int
  deriving DecidableEq

/-- A job as `at_addjob` makes it. -/
def Job.new (sec isRepeat : Int) : Job :=
  ⟨.stateRunning, sec, sec, isRepeat⟩

/-- One round of the loop over the jobs on a tick, and whether it calls the
job's function. -/
def Job.tick (j : Job) : Job × Bool :=
  if j.jobState = .stateRunning then
    let timeRemain := j.timeRemain - 1
    if timeRemain = 0 then
      if j.rep = REPEAT then ({ j with timeRemain := j.sec }, true)
      else ({ j with timeRemain := timeRemain, jobState := .stateOver }, true)
    else
      ({ j with timeRemain := timeRemain }, false)
  else
    (j, false)

/-! ## Firing on time -/

/-- The period of a job, the number of ticks it spent running so far, and those
of them at which it fired. -/
structure Track where
  sec : Nat
  ran : Nat
  fires : List Nat

/-- A tick that finds the job `j`. -/
def Track.tick (k : Track) (j : Job) : Track :=
  if j.jobState = .stateRunning then
    { k with
      ran := k.ran + 1
      fires := if j.tick.2 then k.fires ++ [k.ran + 1] else k.fires }
  else
    k

/-- The multiples of `sec` up to `ran`. -/
def multiples (sec ran : Nat) : List Nat :=
  (List.range (ran / sec)).map fun m => (m + 1) * sec

/-- The job fires on every `sec`-th tick that it spends running. -/
def Track.Law (k : Track) : Prop :=
  k.fires = multiples k.sec k.ran

/-- The job counts down to its next multiple while it is running or paused. -/
structure OnTime (j : Job) (k : Track) : Prop where
  pos : 1 ≤ k.sec
  period : j.sec = k.sec
  law : k.Law
  remain : j.jobState = .stateRunning ∨ j.jobState = .statePause →
    j.timeRemain = (k.sec : Int) - (k.ran % k.sec : Nat)

variable {j : Job} {k : Track}

theorem multiples_succ {sec ran : Nat} :
    multiples sec (ran + 1) =
      if (ran + 1) % sec = 0 then multiples sec ran ++ [ran + 1] else multiples sec ran := by
  unfold multiples
  rw [Nat.succ_div]
  by_cases divides : sec ∣ ran + 1
  · have whole : (ran / sec + 1) * sec = ran + 1 := by
      have count : ran / sec + 1 = (ran + 1) / sec := by rw [Nat.succ_div, if_pos divides]
      rw [count, Nat.div_mul_cancel divides]
    rw [if_pos divides, if_pos (Nat.mod_eq_zero_of_dvd divides), List.range_succ, List.map_append,
      List.map_singleton, whole]
  · rw [if_neg divides, if_neg fun zero => divides (Nat.dvd_of_mod_eq_zero zero), Nat.add_zero]

theorem onTime_new {sec : Int} (isRepeat : Int) (pos : 1 ≤ sec) :
    OnTime (.new sec isRepeat) ⟨sec.toNat, 0, []⟩ where
  pos := by
    show 1 ≤ sec.toNat
    omega
  period := by
    show sec = (sec.toNat : Int)
    omega
  law := by
    show [] = multiples sec.toNat 0
    unfold multiples
    rw [Nat.zero_div]
    rfl
  remain _ := by
    show sec = (sec.toNat : Int) - (0 % sec.toNat : Nat)
    rw [Nat.zero_mod]
    omega

/-- A change of the flag or of the state that does not start the job anew. -/
theorem OnTime.change (onTime : OnTime j k) (jobState : JobState) (rep : Int)
    (counting : jobState = .stateRunning ∨ jobState = .statePause →
      j.jobState = .stateRunning ∨ j.jobState = .statePause) :
    OnTime { j with jobState := jobState, rep := rep } k where
  pos := onTime.pos
  period := onTime.period
  law := onTime.law
  remain on := onTime.remain (counting on)

/-- The countdown ends on a multiple of the period. -/
theorem OnTime.due_iff (onTime : OnTime j k) (running : j.jobState = .stateRunning) :
    j.timeRemain - 1 = 0 ↔ (k.ran + 1) % k.sec = 0 := by
  have remain := onTime.remain (.inl running)
  have inside := Nat.mod_lt k.ran onTime.pos
  rw [← Nat.mod_add_mod]
  rcases Nat.lt_or_ge (k.ran % k.sec + 1) k.sec with before | last
  · rw [Nat.mod_eq_of_lt before]
    omega
  · rw [show k.ran % k.sec + 1 = k.sec by omega, Nat.mod_self]
    omega

theorem tick_idle (idle : j.jobState ≠ .stateRunning) : j.tick = (j, false) ∧ k.tick j = k :=
  ⟨if_neg idle, if_neg idle⟩

@[simp] theorem Track.tick_sec : (k.tick j).sec = k.sec := by
  unfold Track.tick
  split <;> rfl

/-- A running job that is not due counts on. -/
theorem tick_early (running : j.jobState = .stateRunning) (early : j.timeRemain - 1 ≠ 0) :
    j.tick = ({ j with timeRemain := j.timeRemain - 1 }, false) := by
  unfold Job.tick
  rw [if_pos running]
  exact if_neg early

/-- A running job that is due fires, and starts again or is over. -/
theorem tick_due (running : j.jobState = .stateRunning) (due : j.timeRemain - 1 = 0) :
    j.tick = (if j.rep = REPEAT then { j with timeRemain := j.sec }
      else { j with timeRemain := j.timeRemain - 1, jobState := .stateOver }, true) := by
  unfold Job.tick
  rw [if_pos running]
  dsimp only
  rw [if_pos due]
  split <;> rfl

/-- A running job runs on or is over. -/
theorem tick_running (running : j.jobState = .stateRunning) :
    j.tick.1.jobState = .stateRunning ∨ j.tick.1.jobState = .stateOver := by
  by_cases due : j.timeRemain - 1 = 0
  · rw [tick_due running due]
    dsimp only
    split
    · exact .inl running
    · exact .inr rfl
  · rw [tick_early running due]
    exact .inl running

theorem Track.tick_early (running : j.jobState = .stateRunning) (early : j.timeRemain - 1 ≠ 0) :
    k.tick j = { k with ran := k.ran + 1 } := by
  unfold Track.tick
  rw [if_pos running, Anytimer.tick_early running early]
  rfl

theorem Track.tick_due (running : j.jobState = .stateRunning) (due : j.timeRemain - 1 = 0) :
    k.tick j = { k with ran := k.ran + 1, fires := k.fires ++ [k.ran + 1] } := by
  unfold Track.tick
  rw [if_pos running, Anytimer.tick_due running due]
  rfl

theorem OnTime.tick (onTime : OnTime j k) : OnTime j.tick.1 (k.tick j) := by
  by_cases running : j.jobState = .stateRunning
  · have due_iff := onTime.due_iff running
    have law : k.fires = multiples k.sec k.ran := onTime.law
    by_cases due : j.timeRemain - 1 = 0
    · have whole := due_iff.mp due
      have law' : k.fires ++ [k.ran + 1] = multiples k.sec (k.ran + 1) := by
        rw [multiples_succ, if_pos whole, law]
      rw [Track.tick_due running due, tick_due running due]
      dsimp only
      split
      · refine ⟨onTime.pos, onTime.period, law', fun _ => ?_⟩
        show j.sec = (k.sec : Int) - ((k.ran + 1) % k.sec : Nat)
        rw [whole, onTime.period]
        omega
      · exact ⟨onTime.pos, onTime.period, law', fun on => by simp at on⟩
    · have part := fun whole => due (due_iff.mpr whole)
      have law' : k.fires = multiples k.sec (k.ran + 1) := by
        rw [multiples_succ, if_neg part, law]
      rw [Track.tick_early running due, tick_early running due]
      refine ⟨onTime.pos, onTime.period, law', fun _ => ?_⟩
      have remain := onTime.remain (.inl running)
      have inside := Nat.mod_lt k.ran onTime.pos
      have next : (k.ran + 1) % k.sec = k.ran % k.sec + 1 := by
        rw [← Nat.mod_add_mod] at part ⊢
        apply Nat.mod_eq_of_lt
        by_contra last
        rw [show k.ran % k.sec + 1 = k.sec by omega, Nat.mod_self] at part
        exact part rfl
      show j.timeRemain - 1 = (k.sec : Int) - ((k.ran + 1) % k.sec : Nat)
      rw [next]
      omega
  · obtain ⟨same, same'⟩ := tick_idle (k := k) running
    rw [same, same']
    exact onTime

end Shang.Anytimer
