import Shang.Relayer.Epoll

/-!
# When the non-blocking relayer is done with a job

`relayer.c` of `1.nonblock/3.relayer_mt`: each pass of `thr_relayer` drives both
machines of every running job, whatever `read` and `write` answer, and means to mark a
job whose machines have both come to `STATE_T`. `rel_statjob` reports the mark. Both
hold the mutex, so a pass is one step.
-/

namespace Shang.Relayer.Nonblock

open Lib
open Epoll (REL_JOBMAX EINVAL JobState Answers)

/-- A machine of this relayer, whose enumeration has no `STATE_AUTO`. -/
abbrev Machine := { fsm : RelFsm // fsm.state ≠ .stateAuto }

theorem isSome_fsmDriver (m : Machine) (rd : ReadResult) (wr : WriteResult) :
    (fsmDriver m.1 rd wr).isSome := by
  obtain ⟨fsm, calls, driven, -⟩ := exists_driven m.2 rd wr
  rw [driven]
  rfl

theorem driven_get (m : Machine) (rd : ReadResult) (wr : WriteResult) :
    Driven m.1 rd ((fsmDriver m.1 rd wr).get (isSome_fsmDriver m rd wr)).1
      ((fsmDriver m.1 rd wr).get (isSome_fsmDriver m rd wr)).2 := by
  obtain ⟨fsm, calls, eq, driven⟩ := exists_driven m.2 rd wr
  simpa only [eq, Option.get_some] using driven

/-- `fsm_driver(&m)`; its `abort()` is not reached. -/
def Machine.drive (m : Machine) (answer : ReadResult × WriteResult) : Machine :=
  ⟨((fsmDriver m.1 answer.1 answer.2).get (isSome_fsmDriver m answer.1 answer.2)).1,
    (driven_get m answer.1 answer.2).known⟩

/-- `struct rel_job_st` -/
structure RelJob where
  jobState : JobState
  fd1 : Int
  fd2 : Int
  fsm12 : Machine
  fsm21 : Machine

/-- `rel_job[i]->job_state == STATE_OVER;` compares, and assigns nothing. -/
def compareOver (job : RelJob) : RelJob :=
  let _ := decide (job.jobState = .done)
  job

/-- What a pass has come to: the table, and the entries that `fsm_driver` was called for. -/
structure Pass where
  relJob : Nat → Option RelJob
  driven : List Nat

/-- A visit of the entry `i`. -/
def visit (answers : Answers) (s : Pass) (i : Nat) : Pass :=
  match s.relJob i with
  | some job =>
    if job.jobState = .running then
      let job := { job with fsm12 := job.fsm12.drive (answers i).1 }
      let job := { job with fsm21 := job.fsm21.drive (answers i).2 }
      let job :=
        if job.fsm12.1.state = .stateT ∧ job.fsm21.1.state = .stateT then compareOver job
        else job
      ⟨Function.update s.relJob i (some job), s.driven ++ [i, i]⟩
    else s
  | none => s

/-- A pass of `thr_relayer`. -/
def thrRelayer (answers : Answers) (relJob : Nat → Option RelJob) : Pass :=
  (List.range REL_JOBMAX).foldl (visit answers) ⟨relJob, []⟩

/-- `struct rel_stat_st` -/
structure RelStat where
  fd1 : Int
  fd2 : Int
  state : JobState
  count12 : Int
  count21 : Int

/-- `fetch_stat_unblock` -/
def fetchStatUnblock (job : RelJob) : RelStat :=
  ⟨job.fd1, job.fd2, job.jobState, job.fsm12.1.count, job.fsm21.1.count⟩

/-- `rel_statjob`, with what it stores in `*st` if it does not fail. -/
def relStatjob (relJob : Nat → Option RelJob) (id : Int) : Except Int RelStat :=
  if id < 0 ∨ REL_JOBMAX ≤ id then .error (-EINVAL)
  else
    match relJob id.toNat with
    | none => .error (-EINVAL)
    | some job => .ok (fetchStatUnblock job)

/-- Both machines of the job have ended. -/
def RelJob.Ended (job : RelJob) : Prop :=
  job.fsm12.1.state = .stateT ∧ job.fsm21.1.state = .stateT

/-- What a pass must have made of a job that was running: it is marked just if both machines
have ended; then `rel_statjob` reports that, and no later pass drives it. -/
structure Told (answers : Answers) (relJob : Nat → Option RelJob) (i : Nat) (job : RelJob) :
    Prop where
  stored : (thrRelayer answers relJob).relJob i = some job
  marked : job.jobState = .done ↔ job.Ended
  reported : job.Ended → ∃ st, relStatjob (thrRelayer answers relJob).relJob i = .ok st ∧
    st.state = .done
  still : job.Ended → ∀ later, i ∉ (thrRelayer later (thrRelayer answers relJob).relJob).driven

/-- After the pass the relayer is done with the jobs that have ended, and with no others. -/
def Completes (answers : Answers) (relJob : Nat → Option RelJob) : Prop :=
  ∀ i job, i < REL_JOBMAX → relJob i = some job → job.jobState = .running →
    ∃ job', Told answers relJob i job'

/-- Both machines of the job end in the pass, or had ended. -/
def RelJob.Ends (job : RelJob) (answer : (ReadResult × WriteResult) × (ReadResult × WriteResult)) :
    Prop :=
  job.fsm12.1.Ends answer.1.1 ∧ job.fsm21.1.Ends answer.2.1

/-! ## A pass -/

variable {answers : Answers} {relJob : Nat → Option RelJob} {job : RelJob} {i n : Nat}

/-- The job after it was driven. -/
def RelJob.drive (job : RelJob)
    (answer : (ReadResult × WriteResult) × (ReadResult × WriteResult)) : RelJob :=
  { job with fsm12 := job.fsm12.drive answer.1, fsm21 := job.fsm21.drive answer.2 }

theorem ended_drive
    {answer : (ReadResult × WriteResult) × (ReadResult × WriteResult)} :
    (job.drive answer).Ended ↔ job.Ends answer :=
  and_congr (driven_get job.fsm12 answer.1.1 answer.1.2).ended
    (driven_get job.fsm21 answer.2.1 answer.2.2).ended

theorem visit_running {s : Pass} (stored : s.relJob i = some job)
    (running : job.jobState = .running) : visit answers s i =
      ⟨Function.update s.relJob i (some (job.drive (answers i))), s.driven ++ [i, i]⟩ := by
  rw [visit, stored]
  dsimp only
  rw [if_pos running]
  simp only [compareOver, ite_self]
  rfl

theorem visit_idle {s : Pass} (idle : ∀ job, s.relJob i = some job → job.jobState ≠ .running) :
    visit answers s i = s := by
  rw [visit]
  split
  · next job stored => rw [if_neg (idle job stored)]
  · rfl

/-- What the visits of the first `n` entries have come to. -/
structure Visited (answers : Answers) (relJob : Nat → Option RelJob) (n : Nat) (s : Pass) :
    Prop where
  ahead : ∀ i, n ≤ i → s.relJob i = relJob i
  driven : ∀ i job, i < n → relJob i = some job → job.jobState = .running →
    s.relJob i = some (job.drive (answers i)) ∧ i ∈ s.driven

theorem Visited.visit {s : Pass} (visited : Visited answers relJob n s) :
    Visited answers relJob (n + 1) (visit answers s n) := by
  have here := visited.ahead n (Nat.le_refl n)
  by_cases idle : ∀ job, s.relJob n = some job → job.jobState ≠ .running
  · rw [visit_idle idle]
    refine ⟨fun i later => visited.ahead i (by omega), fun i job before stored running => ?_⟩
    rcases Nat.lt_succ_iff_lt_or_eq.mp before with earlier | rfl
    · exact visited.driven i job earlier stored running
    · exact absurd running (idle job (here.trans stored))
  · push Not at idle
    obtain ⟨job, stored, running⟩ := idle
    rw [visit_running stored running]
    constructor
    · intro i later
      have other : i ≠ n := by omega
      dsimp only
      rw [Function.update_of_ne other]
      exact visited.ahead i (by omega)
    · intro i job' before stored' running'
      dsimp only
      rcases Nat.lt_succ_iff_lt_or_eq.mp before with earlier | rfl
      · obtain ⟨kept, mem⟩ := visited.driven i job' earlier stored' running'
        rw [Function.update_of_ne (Nat.ne_of_lt earlier)]
        exact ⟨kept, List.mem_append_left _ mem⟩
      · obtain rfl := Option.some.inj (stored.symm.trans (here.trans stored'))
        rw [Function.update_self]
        exact ⟨rfl, by simp⟩

theorem visited_foldl (n : Nat) : Visited answers relJob n
    ((List.range n).foldl (visit answers) ⟨relJob, []⟩) := by
  induction n with
  | zero => exact ⟨fun _ _ => rfl, fun _ _ before => absurd before (Nat.not_lt_zero _)⟩
  | succ n ih =>
      rw [List.range_succ, List.foldl_append]
      exact ih.visit

theorem visited_thrRelayer : Visited answers relJob REL_JOBMAX (thrRelayer answers relJob) := by
  rw [thrRelayer]
  exact visited_foldl _

/-- A running job is driven, and runs on. -/
theorem thrRelayer_running (inside : i < REL_JOBMAX) (stored : relJob i = some job)
    (running : job.jobState = .running) :
    (thrRelayer answers relJob).relJob i = some (job.drive (answers i)) ∧
      i ∈ (thrRelayer answers relJob).driven :=
  visited_thrRelayer.driven i job inside stored running

/-- The relayer is right about a running job that does not end in the pass, and about no other. -/
theorem exists_told_iff (inside : i < REL_JOBMAX) (stored : relJob i = some job)
    (running : job.jobState = .running) :
    (∃ job', Told answers relJob i job') ↔ ¬ job.Ends (answers i) := by
  have kept : (thrRelayer answers relJob).relJob i = some (job.drive (answers i)) :=
    (thrRelayer_running inside stored running).1
  have unmarked : (job.drive (answers i)).jobState ≠ .done := by
    rw [RelJob.drive, running]
    nofun
  constructor
  · intro ⟨job', told⟩ ends
    obtain rfl := Option.some.inj (kept.symm.trans told.stored)
    exact unmarked (told.marked.mpr (ended_drive.mpr ends))
  · intro goesOn
    have unended : ¬ (job.drive (answers i)).Ended := mt ended_drive.mp goesOn
    exact ⟨_, kept, iff_of_false unmarked unended, fun ended => absurd ended unended,
      fun ended => absurd ended unended⟩

/-- **The mark is lost.** The relayer is right about all running jobs just if none of them has
ended after the pass. -/
theorem completes_iff (answers : Answers) (relJob : Nat → Option RelJob) :
    Completes answers relJob ↔ ∀ i job, i < REL_JOBMAX → relJob i = some job →
      job.jobState = .running → ¬ job.Ends (answers i) := by
  constructor
  · intro completes i job inside stored running
    exact (exists_told_iff inside stored running).mp (completes i job inside stored running)
  · intro none i job inside stored running
    exact (exists_told_iff inside stored running).mpr (none i job inside stored running)

/-- A machine in `STATE_R`. -/
def reader (sfd dfd : Int) : Machine := ⟨⟨.stateR, sfd, dfd, [], 0, 0, 0, ""⟩, nofun⟩

/-- Both files of the only job are at their end. -/
theorem completes_fails : ¬ Completes (fun _ => ((.got [], .eagain), (.got [], .eagain)))
    (Function.update (fun _ => none) 0 (some ⟨.running, 3, 4, reader 3 4, reader 4 3⟩)) := by
  intro completes
  have told := completes 0 _ (by decide) (Function.update_self ..) rfl
  exact (exists_told_iff (by decide) (Function.update_self ..) rfl).mp told
    ⟨.inr (.inr ⟨rfl, rfl⟩), .inr (.inr ⟨rfl, rfl⟩)⟩

end Shang.Relayer.Nonblock
