import Mathlib.Data.Finset.Insert
import Mathlib.Data.Int.Order.Basic
import Shang.Relayer.Epoll

/-!
# What the select relayer tells the kernel

`relayer.c` of `2.select/4.relayer_mt`: before `thr_relayer` blocks it goes through all
jobs, puts the descriptors that the machines wait for into two sets and keeps the
largest descriptor for the first argument of `select`, in a variable that lives as
long as the thread.

Entries are never emptied and other threads only fill free ones, so the loop sees the
table `relJob` that has in each entry what is there at its visit.
-/

namespace Shang.Relayer.Select

open Lib
open Epoll (REL_JOBMAX JobState push)

/-- `struct rel_job_st`, with its machines between the descriptors of the job. -/
structure RelJob extends Epoll.RelJob where
  sfd12 : fsm12.sfd = fd1
  dfd12 : fsm12.dfd = fd2
  sfd21 : fsm21.sfd = fd2
  dfd21 : fsm21.dfd = fd1

def max (fd1 fd2 : Int) : Int := if fd1 > fd2 then fd1 else fd2

/-- The comma operator drops the value of its left operand. -/
def comma {α : Type} (_ b : α) : α := b

/-- `rel_job`, and the variables of `thr_relayer` that `select` is called with. -/
structure World where
  relJob : Nat → Option Epoll.RelJob
  maxfd : Int
  rset : Finset Int
  wset : Finset Int

/-- `FD_SET(fd, &set)` if the machine is in the state. -/
def setFor (fsm : RelFsm) (state : FsmState) (fd : Int) (set : Finset Int) : Finset Int :=
  if fsm.state = state then insert fd set else set

/-- The visit of the entry `i`. -/
def arrange (s : World) (i : Nat) : Option World :=
  match s.relJob i with
  | some job =>
    let s := { s with maxfd := comma s.maxfd (max job.fd1 job.fd2) }
    if job.jobState = .running then do
      let s := { s with rset := setFor job.fsm12 .stateR job.fsm12.sfd s.rset }
      let s := { s with wset := setFor job.fsm12 .stateW job.fsm12.dfd s.wset }
      let s := { s with rset := setFor job.fsm21 .stateR job.fsm21.sfd s.rset }
      let s := { s with wset := setFor job.fsm21 .stateW job.fsm21.dfd s.wset }
      let fsm12 ← push job.fsm12
      let fsm21 ← push job.fsm21
      some { s with
        relJob := Function.update s.relJob i (some { job with fsm12 := fsm12, fsm21 := fsm21 }) }
    else some s
  | none => some s

/-- The first loop of a pass of `thr_relayer`, after `FD_ZERO`. -/
def thrRelayer (relJob : Nat → Option RelJob) (maxfd : Int) : Option World :=
  (List.range REL_JOBMAX).foldlM arrange
    ⟨fun i => (relJob i).map RelJob.toRelJob, maxfd, ∅, ∅⟩

/-- The kernel looks at every descriptor of the sets. -/
def World.Bounded (s : World) : Prop := ∀ fd, fd ∈ s.rset ∨ fd ∈ s.wset → fd ≤ s.maxfd

/-- The job in the highest entry in use, below the entry `n`. -/
def lastJob (relJob : Nat → Option RelJob) : Nat → Option RelJob
  | 0 => none
  | n + 1 => (relJob n).or (lastJob relJob n)

/-- A machine of the job, which is running, waits to read from the descriptor. -/
def RelJob.Reads (job : RelJob) (fd : Int) : Prop :=
  job.jobState = .running ∧
    (fd = job.fd1 ∧ job.fsm12.state = .stateR ∨ fd = job.fd2 ∧ job.fsm21.state = .stateR)

/-- A machine of the job, which is running, waits to write to the descriptor. -/
def RelJob.Writes (job : RelJob) (fd : Int) : Prop :=
  job.jobState = .running ∧
    (fd = job.fd2 ∧ job.fsm12.state = .stateW ∨ fd = job.fd1 ∧ job.fsm21.state = .stateW)

/-! ## The loop -/

variable {relJob : Nat → Option RelJob} {maxfd fd : Int} {i n : Nat} {s : World} {job : RelJob}

theorem mem_setFor {fsm : RelFsm} {state : FsmState} {fd' : Int} {set : Finset Int} :
    fd ∈ setFor fsm state fd' set ↔ fd = fd' ∧ fsm.state = state ∨ fd ∈ set := by
  unfold setFor
  split
  · next same => simp [same]
  · next other => simp [other]

theorem le_max_iff {fd1 fd2 : Int} : fd ≤ max fd1 fd2 ↔ fd ≤ fd1 ∨ fd ≤ fd2 := by
  unfold max
  split <;> omega

theorem exists_lastJob (before : i < n) (stored : relJob i = some job) :
    ∃ last, lastJob relJob n = some last := by
  induction n with
  | zero => exact absurd before (Nat.not_lt_zero i)
  | succ n ih =>
      rw [lastJob]
      cases here : relJob n with
      | some last => exact ⟨last, rfl⟩
      | none =>
          have other : i ≠ n := by
            rintro rfl
            cases here.symm.trans stored
          exact ih (by omega)

/-- What the visits of the first `n` entries have come to. -/
structure Visited (relJob : Nat → Option RelJob) (maxfd : Int) (n : Nat) (s : World) : Prop where
  ahead : ∀ i, n ≤ i → s.relJob i = (relJob i).map RelJob.toRelJob
  maxfd : s.maxfd = (lastJob relJob n).elim maxfd fun job => max job.fd1 job.fd2
  rset : ∀ fd, fd ∈ s.rset ↔ ∃ i job, i < n ∧ relJob i = some job ∧ job.Reads fd
  wset : ∀ fd, fd ∈ s.wset ↔ ∃ i job, i < n ∧ relJob i = some job ∧ job.Writes fd

/-- What the jobs before the entry `n` and the one in it do. -/
theorem exists_before_succ {p : RelJob → Prop} (stored : relJob n = some job) :
    (∃ i job, i < n + 1 ∧ relJob i = some job ∧ p job) ↔
      p job ∨ ∃ i job, i < n ∧ relJob i = some job ∧ p job := by
  constructor
  · rintro ⟨i, job', before, stored', holds⟩
    rcases Nat.lt_succ_iff_lt_or_eq.mp before with earlier | rfl
    · exact .inr ⟨i, job', earlier, stored', holds⟩
    · obtain rfl := Option.some.inj (stored.symm.trans stored')
      exact .inl holds
  · rintro (holds | ⟨i, job', earlier, stored', holds⟩)
    · exact ⟨n, job, n.lt_succ_self, stored, holds⟩
    · exact ⟨i, job', Nat.lt_succ_of_lt earlier, stored', holds⟩

/-- An entry without a job adds nothing. -/
theorem exists_before_free {p : RelJob → Prop} (free : relJob n = none) :
    (∃ i job, i < n + 1 ∧ relJob i = some job ∧ p job) ↔
      ∃ i job, i < n ∧ relJob i = some job ∧ p job := by
  constructor
  · rintro ⟨i, job, before, stored, holds⟩
    rcases Nat.lt_succ_iff_lt_or_eq.mp before with earlier | rfl
    · exact ⟨i, job, earlier, stored, holds⟩
    · cases free.symm.trans stored
  · rintro ⟨i, job, earlier, stored, holds⟩
    exact ⟨i, job, Nat.lt_succ_of_lt earlier, stored, holds⟩

/-- Only the machines in the two last states are driven here. -/
theorem exists_push (fsm : RelFsm) : ∃ fsm', push fsm = some fsm' := by
  unfold push
  split
  · next above =>
      have known : fsm.state ≠ .stateAuto := fun same => by
        rw [same] at above
        exact lt_irrefl _ above
      obtain ⟨fsm', calls, driven, -⟩ := exists_driven known .eagain .eagain
      exact ⟨fsm', by rw [driven, Option.map_some]⟩
  · exact ⟨fsm, rfl⟩

theorem exists_arrange_stored (stored : s.relJob n = some job.toRelJob) :
    ∃ t, arrange s n = some t ∧ t.maxfd = max job.fd1 job.fd2 ∧
      (∀ i, i ≠ n → t.relJob i = s.relJob i) ∧
      (∀ fd, fd ∈ t.rset ↔ job.Reads fd ∨ fd ∈ s.rset) ∧
      ∀ fd, fd ∈ t.wset ↔ job.Writes fd ∨ fd ∈ s.wset := by
  rw [arrange, stored]
  dsimp only
  by_cases running : job.jobState = .running
  · obtain ⟨fsm12, pushed12⟩ := exists_push job.fsm12
    obtain ⟨fsm21, pushed21⟩ := exists_push job.fsm21
    rw [if_pos running, pushed12, pushed21]
    refine ⟨_, rfl, rfl, fun i other => Function.update_of_ne other _ _, fun fd => ?_, fun fd => ?_⟩
    · simp only [mem_setFor, RelJob.Reads, running, true_and, job.sfd12, job.sfd21]
      tauto
    · simp only [mem_setFor, RelJob.Writes, running, true_and, job.dfd12, job.dfd21]
      tauto
  · rw [if_neg running]
    refine ⟨_, rfl, rfl, fun i _ => rfl, fun fd => ?_, fun fd => ?_⟩
    · simp only [RelJob.Reads, running, false_and, false_or]
    · simp only [RelJob.Writes, running, false_and, false_or]

theorem Visited.arrange (visited : Visited relJob maxfd n s) :
    ∃ t, arrange s n = some t ∧ Visited relJob maxfd (n + 1) t := by
  have here := visited.ahead n (Nat.le_refl n)
  cases stored : relJob n with
  | none =>
      rw [stored, Option.map_none] at here
      refine ⟨s, by rw [Select.arrange, here], ?_, ?_, ?_, ?_⟩
      · exact fun i later => visited.ahead i (Nat.le_of_succ_le later)
      · rw [visited.maxfd, lastJob, stored, Option.none_or]
      · exact fun fd => (visited.rset fd).trans (exists_before_free stored).symm
      · exact fun fd => (visited.wset fd).trans (exists_before_free stored).symm
  | some job =>
      rw [stored, Option.map_some] at here
      obtain ⟨t, arranged, maxfd', others, rset, wset⟩ := exists_arrange_stored here
      refine ⟨t, arranged, ?_, ?_, ?_, ?_⟩
      · intro i later
        rw [others i (Nat.ne_of_gt later), visited.ahead i (Nat.le_of_succ_le later)]
      · rw [maxfd', lastJob, stored, Option.some_or, Option.elim_some]
      · intro fd
        rw [rset, visited.rset, exists_before_succ stored]
      · intro fd
        rw [wset, visited.wset, exists_before_succ stored]

theorem exists_visited (relJob : Nat → Option RelJob) (maxfd : Int) (n : Nat) :
    ∃ s, (List.range n).foldlM arrange ⟨fun i => (relJob i).map RelJob.toRelJob, maxfd, ∅, ∅⟩ =
      some s ∧ Visited relJob maxfd n s := by
  induction n with
  | zero => exact ⟨_, rfl, fun _ _ => rfl, rfl, by simp, by simp⟩
  | succ n ih =>
      obtain ⟨s, ran, visited⟩ := ih
      obtain ⟨t, arranged, visited'⟩ := visited.arrange
      refine ⟨t, ?_, visited'⟩
      rw [List.range_succ, List.foldlM_append, ran]
      simpa using arranged

/-- **The bound of `select`.** Every descriptor of the sets is within the bound just if no
machine waits on a descriptor above both descriptors of the last job of the table. -/
theorem thrRelayer_bounded_iff (relJob : Nat → Option RelJob) (maxfd : Int) :
    ∃ s, thrRelayer relJob maxfd = some s ∧
      (s.Bounded ↔ ∀ i job last fd, i < REL_JOBMAX → relJob i = some job →
        lastJob relJob REL_JOBMAX = some last → job.Reads fd ∨ job.Writes fd →
        fd ≤ last.fd1 ∨ fd ≤ last.fd2) := by
  obtain ⟨s, ran, visited⟩ := exists_visited relJob maxfd REL_JOBMAX
  refine ⟨s, ran, ?_⟩
  have bound (last : RelJob) (eq : lastJob relJob REL_JOBMAX = some last) (fd : Int) :
      fd ≤ s.maxfd ↔ fd ≤ last.fd1 ∨ fd ≤ last.fd2 := by
    rw [visited.maxfd, eq, Option.elim_some, le_max_iff]
  constructor
  · intro bounded i job last fd inside stored eq waits
    refine (bound last eq fd).mp (bounded fd ?_)
    rw [visited.rset, visited.wset]
    exact waits.imp (fun reads => ⟨i, job, inside, stored, reads⟩)
      fun writes => ⟨i, job, inside, stored, writes⟩
  · intro below fd mem
    rw [visited.rset, visited.wset] at mem
    obtain ⟨i, job, inside, stored, waits⟩ : ∃ i job, i < REL_JOBMAX ∧ relJob i = some job ∧
        (job.Reads fd ∨ job.Writes fd) := by
      rcases mem with ⟨i, job, inside, stored, reads⟩ | ⟨i, job, inside, stored, writes⟩
      · exact ⟨i, job, inside, stored, .inl reads⟩
      · exact ⟨i, job, inside, stored, .inr writes⟩
    obtain ⟨last, eq⟩ := exists_lastJob inside stored
    exact (bound last eq fd).mpr (below i job last fd inside stored eq waits)

/-- A job as `rel_addjob` stores it. -/
def idle (fd1 fd2 : Int) : RelJob where
  jobState := .running
  fd1 := fd1
  fd2 := fd2
  fsm12 := ⟨.stateR, fd1, fd2, [], 0, 0, 0, ""⟩
  fsm21 := ⟨.stateR, fd2, fd1, [], 0, 0, 0, ""⟩
  sfd12 := rfl
  dfd12 := rfl
  sfd21 := rfl
  dfd21 := rfl

/-- A table with two jobs, the first of which has the larger descriptors. -/
def twoJobs (i : Nat) : Option RelJob :=
  if i = 0 then some (idle 5 6) else if i = 1 then some (idle 3 4) else none

/-- The first of two jobs is left out. -/
theorem thrRelayer_unbounded : ∃ s, thrRelayer twoJobs 0 = some s ∧ ¬ s.Bounded := by
  obtain ⟨s, ran, visited⟩ := exists_visited twoJobs 0 REL_JOBMAX
  have last (n : Nat) : lastJob twoJobs (n + 2) = some (idle 3 4) := by
    induction n with
    | zero => rfl
    | succ n ih => simpa [lastJob, twoJobs] using ih
  refine ⟨s, ran, fun bounded => ?_⟩
  have reads : (5 : Int) ∈ s.rset :=
    (visited.rset 5).mpr ⟨0, idle 5 6, by decide, rfl, rfl, .inl ⟨rfl, rfl⟩⟩
  have bound := bounded 5 (.inl reads)
  rw [visited.maxfd, REL_JOBMAX, last 9998] at bound
  exact absurd bound (by decide)

end Shang.Relayer.Select
