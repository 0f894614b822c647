import Mathlib.Data.List.Monad
import Shang.Lib.Update
import Shang.Relayer.Fsm

/-!
# The interest set of the epoll relayer

`relayer.c` of `4.epoll/4.relayer_mt`: `rel_addjob` stores a job in the first free
entry of `rel_job`, from any thread, and `thr_relayer` registers the descriptors of
the jobs it finds once, with `EPOLL_CTL_ADD`. Each pass of its main loop then tells
the epoll set with `EPOLL_CTL_MOD` what the two machines of each job are waiting
for, blocks in `epoll_wait`, and drives the machines that the event concerns.

A visit of one entry is a step, because entries are never emptied and only the
relayer thread changes what is in them; so is the critical section of `rel_addjob`,
and the one behind `epoll_wait`.
-/

namespace Shang.Relayer.Epoll

open Lib

def REL_JOBMAX : Nat := 10000

def EINVAL : Int := 22

def ENOMEM : Int := 12

def ENOSPC : Int := 28

/-- `STATE_RUNNING`, `STATE_CANCELED` and `STATE_OVER`. -/
inductive JobState
  | running
  | canceled
  | done
  deriving DecidableEq

/-- `struct rel_job_st` -/
structure RelJob where
  jobState : JobState
  fd1 : Int
  fd2 : Int
  fsm12 : RelFsm
  fsm21 : RelFsm

/-- `ev.events` -/
structure Events where
  epollin : Bool
  epollout : Bool
  deriving DecidableEq

/-- The registered descriptors; each is registered with itself as `data.fd`. -/
abbrev EpollSet := Int → Option Events

/-- Where the relayer thread is: not created, before the visit of an entry in one of
the two loops, or blocked in `epoll_wait`. -/
inductive Phase
  | unborn
  | adding (i : Nat)
  | setting (i : Nat)
  | waiting
  deriving DecidableEq

/-- `rel_job` and the relayer thread, with the entries in use when the pass began. -/
structure World where
  relJob : Nat → Option RelJob
  epoll : EpollSet
  phase : Phase
  present : Nat → Bool

def init : World := ⟨fun _ => none, fun _ => none, .unborn, fun _ => false⟩

/-! ## The relayer thread -/

/-- The value of the constant. -/
def stateValue : FsmState → Int
  | .stateR => 1
  | .stateW => 2
  | .stateAuto => 3
  | .stateEx => 4
  | .stateT => 5

/-- `EPOLL_CTL_ADD` fails with `EEXIST` on a registered descriptor. -/
def epollAdd (epoll : EpollSet) (fd : Int) (ev : Events) : EpollSet :=
  if (epoll fd).isSome then epoll else Function.update epoll fd (some ev)

/-- `EPOLL_CTL_MOD` fails with `ENOENT` on a descriptor that is not registered. -/
def epollMod (epoll : EpollSet) (fd : Int) (ev : Events) : EpollSet :=
  if (epoll fd).isSome then Function.update epoll fd (some ev) else epoll

/-- What `fd1` is watched for. -/
def RelJob.events1 (job : RelJob) : Events :=
  ⟨job.fsm12.state = .stateR, job.fsm21.state = .stateW⟩

/-- What `fd2` is watched for. -/
def RelJob.events2 (job : RelJob) : Events :=
  ⟨job.fsm21.state = .stateR, job.fsm12.state = .stateW⟩

/-- The two calls of the first loop. -/
def addJob (epoll : EpollSet) (job : RelJob) : EpollSet :=
  epollAdd (epollAdd epoll job.fd1 ⟨false, false⟩) job.fd2 ⟨false, false⟩

/-- The two calls of the main loop. -/
def setJob (epoll : EpollSet) (job : RelJob) : EpollSet :=
  epollMod (epollMod epoll job.fd1 job.events1) job.fd2 job.events2

/-- Drive a machine whose next transition needs no condition, and makes no call. -/
def push (fsm : RelFsm) : Option RelFsm :=
  if stateValue fsm.state > stateValue .stateAuto then
    (fsmDriver fsm .eagain .eagain).map Prod.fst
  else some fsm

/-- A visit of the entry `i` in the first loop. -/
def addSlot (s : World) (i : Nat) : World :=
  match s.relJob i with
  | some job =>
    if job.jobState = .running then { s with epoll := addJob s.epoll job } else s
  | none => s

/-- A visit of the entry `i` in the main loop, before `epoll_wait`. -/
def setSlot (s : World) (i : Nat) : Option World :=
  match s.relJob i with
  | some job =>
    if job.jobState = .running then do
      let fsm12 ← push job.fsm12
      let fsm21 ← push job.fsm21
      let job' := { job with fsm12 := fsm12, fsm21 := fsm21 }
      some { s with
        epoll := setJob s.epoll job, relJob := Function.update s.relJob i (some job') }
    else some s
  | none => some s

/-- What `read` and `write` answer when the machines of an entry are driven. -/
abbrev Answers := Nat → (ReadResult × WriteResult) × (ReadResult × WriteResult)

/-- Drive a machine that the event concerns. -/
def driveIf (concerned : Bool) (fsm : RelFsm) (answer : ReadResult × WriteResult) : Option RelFsm :=
  if concerned then (fsmDriver fsm answer.1 answer.2).map Prod.fst else some fsm

/-- A visit of the entry `i` behind `epoll_wait`, which has returned `ev` for `fd`. -/
def driveSlot (fd : Int) (ev : Events) (answers : Answers) (relJob : Nat → Option RelJob)
    (i : Nat) : Option (Nat → Option RelJob) :=
  match relJob i with
  | some job =>
    if job.jobState = .running then do
      let fsm12 ← driveIf (fd = job.fd1 ∧ ev.epollin ∨ fd = job.fd2 ∧ ev.epollout) job.fsm12
        (answers i).1
      let fsm21 ← driveIf (fd = job.fd2 ∧ ev.epollin ∨ fd = job.fd1 ∧ ev.epollout) job.fsm21
        (answers i).2
      some (Function.update relJob i (some { job with fsm12 := fsm12, fsm21 := fsm21 }))
    else some relJob
  | none => some relJob

/-- The loop behind `epoll_wait`. -/
def drive (fd : Int) (ev : Events) (answers : Answers) (relJob : Nat → Option RelJob) :
    Option (Nat → Option RelJob) :=
  (List.range REL_JOBMAX).foldlM (driveSlot fd ev answers) relJob

/-- The top of the main loop. -/
def startPass (s : World) : World :=
  { s with phase := .setting 0, present := fun i => (s.relJob i).isSome }

/-- The next step of the relayer thread up to `epoll_wait`. -/
def relay (s : World) : Option World :=
  match s.phase with
  | .unborn => none
  | .adding i =>
    if i < REL_JOBMAX then some { addSlot s i with phase := .adding (i + 1) }
    else some (startPass s)
  | .setting i =>
    if i < REL_JOBMAX then (setSlot s i).map fun s => { s with phase := .setting (i + 1) }
    else some { s with phase := .waiting }
  | .waiting => none

/-- `epoll_wait` returns `ev` for the registered descriptor `fd`, and the machines are
driven. -/
def wake (s : World) (fd : Int) (ev : Events) (answers : Answers) : Option World := do
  let interest ← s.epoll fd
  if s.phase = .waiting ∧ (ev.epollin → interest.epollin) ∧ (ev.epollout → interest.epollout) then
    let relJob ← drive fd ev answers s.relJob
    some (startPass { s with relJob := relJob })
  else none

/-! ## The callers -/

/-- `get_free_pos_unlocked`, from the entry `i` on. -/
def getFreePos (relJob : Nat → Option RelJob) : Nat → Nat → Option Nat
  | 0, _ => none
  | left + 1, i => if (relJob i).isNone then some i else getFreePos relJob left (i + 1)

/-- `rel_addjob`, where `malloc` returns memory that holds `raw`. -/
def relAddjob (s : World) (fd1 fd2 : Int) (raw : Option (RelFsm × RelFsm)) : World × Int :=
  if fd1 < 0 ∨ fd2 < 0 then (s, -EINVAL)
  else
    match raw with
    | none => (s, -ENOMEM)
    | some (raw12, raw21) =>
      let job := ⟨.running, fd1, fd2, relAddjobFsm raw12 fd1 fd2, relAddjobFsm raw21 fd2 fd1⟩
      match getFreePos s.relJob REL_JOBMAX 0 with
      | none => (s, -ENOSPC)
      | some pos => ({ s with relJob := Function.update s.relJob pos (some job) }, pos)

/-- `start_rel_job`; `pthread_once` lets only the first call create the thread. -/
def startRelJob (s : World) : World :=
  if s.phase = .unborn then { s with phase := .adding 0 } else s

inductive Event
  | addjob (fd1 fd2 : Int) (raw : Option (RelFsm × RelFsm))
  | start
  | relay
  | wake (fd : Int) (ev : Events) (answers : Answers)

def step (s : World) : Event → Option World
  | .addjob fd1 fd2 raw => some (relAddjob s fd1 fd2 raw).1
  | .start => some (startRelJob s)
  | .relay => relay s
  | .wake fd ev answers => wake s fd ev answers

/-- The two descriptors of a job. -/
def RelJob.fds (job : RelJob) : List Int := [job.fd1, job.fd2]

/-- Jobs use pairwise distinct descriptors. -/
def Distinct (s : World) : Event → Prop
  | .addjob fd1 fd2 _ =>
    fd1 ≠ fd2 ∧ ∀ i job, s.relJob i = some job → fd1 ∉ job.fds ∧ fd2 ∉ job.fds
  | _ => True

/-- The first loop has not passed the entry. -/
def Phase.Before : Phase → Nat → Prop
  | .unborn, _ => True
  | .adding i, pos => i ≤ pos
  | _, _ => False

/-- A job that is stored is stored before the first loop has passed its entry. -/
def OnTime (s : World) : Event → Prop
  | .addjob fd1 fd2 raw => ∀ pos : Nat, (relAddjob s fd1 fd2 raw).2 = pos → s.phase.Before pos
  | _ => True

/-- When the relayer is blocked, every running job that was there when the pass began is
watched for what its machines are waiting for. -/
def Watched (s : World) : Prop :=
  s.phase = .waiting → ∀ i job, s.present i → s.relJob i = some job → job.jobState = .running →
    s.epoll job.fd1 = some ⟨job.fsm12.state = .stateR, job.fsm21.state = .stateW⟩ ∧
      s.epoll job.fd2 = some ⟨job.fsm21.state = .stateR, job.fsm12.state = .stateW⟩

/-! ## The epoll set -/

variable {epoll : EpollSet} {fd fd' : Int} {ev : Events}

theorem epollAdd_self : (epollAdd epoll fd ev fd).isSome := by
  unfold epollAdd
  split
  · assumption
  · rw [Function.update_self]
    rfl

theorem epollAdd_mono (there : (epoll fd').isSome) : (epollAdd epoll fd ev fd').isSome := by
  unfold epollAdd
  split
  · exact there
  · rw [Function.update_apply]
    split
    · rfl
    · exact there

theorem epollMod_self (there : (epoll fd).isSome) : epollMod epoll fd ev fd = some ev := by
  rw [epollMod, if_pos there, Function.update_self]

theorem epollMod_of_ne (other : fd' ≠ fd) : epollMod epoll fd ev fd' = epoll fd' := by
  unfold epollMod
  split
  · exact Function.update_of_ne other _ _
  · rfl

theorem epollMod_isSome : (epollMod epoll fd ev fd').isSome = (epoll fd').isSome := by
  by_cases same : fd' = fd
  · subst same
    unfold epollMod
    split
    · rename_i there
      rw [Function.update_self, there]
      rfl
    · rfl
  · rw [epollMod_of_ne same]

variable {job job' : RelJob} {s t : World} {i j : Nat} {e : Event}

/-- The job is registered. -/
def Registered (epoll : EpollSet) (job : RelJob) : Prop :=
  (epoll job.fd1).isSome ∧ (epoll job.fd2).isSome

/-- The job is watched for what its machines are waiting for. -/
def Shown (epoll : EpollSet) (job : RelJob) : Prop :=
  epoll job.fd1 = some job.events1 ∧ epoll job.fd2 = some job.events2

theorem addJob_registered : Registered (addJob epoll job) job :=
  ⟨epollAdd_mono epollAdd_self, epollAdd_self⟩

theorem Registered.addJob (registered : Registered epoll job) :
    Registered (addJob epoll job') job :=
  ⟨epollAdd_mono (epollAdd_mono registered.1), epollAdd_mono (epollAdd_mono registered.2)⟩

theorem Registered.setJob (registered : Registered epoll job) :
    Registered (setJob epoll job') job := by
  unfold Registered Epoll.setJob
  rw [epollMod_isSome, epollMod_isSome, epollMod_isSome, epollMod_isSome]
  exact registered

theorem setJob_shown (registered : Registered epoll job) (ne : job.fd1 ≠ job.fd2) :
    Shown (setJob epoll job) job := by
  constructor
  · rw [setJob, epollMod_of_ne ne, epollMod_self registered.1]
  · have there : (epollMod epoll job.fd1 job.events1 job.fd2).isSome := by
      rw [epollMod_isSome]
      exact registered.2
    rw [setJob, epollMod_self there]

/-- The calls for one job do not touch the descriptors of another one. -/
theorem Shown.setJob (shown : Shown epoll job) (apart : ∀ fd ∈ job.fds, fd ∉ job'.fds) :
    Shown (setJob epoll job') job := by
  have off (fd : Int) (mem : fd ∈ job.fds) : Epoll.setJob epoll job' fd = epoll fd := by
    have other := apart fd mem
    simp only [RelJob.fds, List.mem_cons, List.not_mem_nil, or_false, not_or] at other
    rw [Epoll.setJob, epollMod_of_ne other.2, epollMod_of_ne other.1]
  rw [Shown, off job.fd1 (by simp [RelJob.fds]), off job.fd2 (by simp [RelJob.fds])]
  exact shown

/-! ## What the machines do to the jobs -/

/-- The same job, with machines in other states. -/
def Alike (a b : RelJob) : Prop := a.jobState = b.jobState ∧ a.fd1 = b.fd1 ∧ a.fd2 = b.fd2

/-- The same jobs in the same entries. -/
def SameJobs (f g : Nat → Option RelJob) : Prop :=
  ∀ i b, g i = some b → ∃ a, f i = some a ∧ Alike a b

theorem SameJobs.refl (f : Nat → Option RelJob) : SameJobs f f :=
  fun _ b stored => ⟨b, stored, rfl, rfl, rfl⟩

theorem SameJobs.trans {f g k : Nat → Option RelJob} (first : SameJobs f g)
    (second : SameJobs g k) : SameJobs f k := by
  intro i c stored
  obtain ⟨b, stored, state, fd1, fd2⟩ := second i c stored
  obtain ⟨a, stored, state', fd1', fd2'⟩ := first i b stored
  exact ⟨a, stored, state'.trans state, fd1'.trans fd1, fd2'.trans fd2⟩

theorem SameJobs.update {f : Nat → Option RelJob} (stored : f i = some job)
    (alike : Alike job job') : SameJobs f (Function.update f i (some job')) := by
  intro j b stored'
  rcases update_some_eq_some.mp stored' with ⟨rfl, rfl⟩ | ⟨-, same⟩
  · exact ⟨job, stored, alike⟩
  · exact ⟨b, same, rfl, rfl, rfl⟩

theorem driveSlot_sameJobs {answers : Answers} {f g : Nat → Option RelJob}
    (driven : driveSlot fd ev answers f i = some g) : SameJobs f g := by
  unfold driveSlot at driven
  split at driven
  · rename_i job stored
    split at driven
    · obtain ⟨fsm12, -, rest⟩ := Option.bind_eq_some_iff.mp driven
      obtain ⟨fsm21, -, stop⟩ := Option.bind_eq_some_iff.mp rest
      cases stop
      exact SameJobs.update stored ⟨rfl, rfl, rfl⟩
    · cases driven
      exact SameJobs.refl f
  · cases driven
    exact SameJobs.refl f

theorem drive_sameJobs {answers : Answers} {f g : Nat → Option RelJob}
    (driven : drive fd ev answers f = some g) : SameJobs f g := by
  have each (l : List Nat) (f : Nat → Option RelJob)
      (driven : l.foldlM (driveSlot fd ev answers) f = some g) : SameJobs f g := by
    induction l generalizing f with
    | nil =>
        cases driven
        exact SameJobs.refl _
    | cons i l ih =>
        rw [List.foldlM_cons] at driven
        obtain ⟨k, first, rest⟩ := Option.bind_eq_some_iff.mp driven
        exact (driveSlot_sameJobs first).trans (ih k rest)
  exact each _ f driven

/-- A machine that is pushed waits for nothing, before and after. -/
theorem push_state {fsm fsm' : RelFsm} (pushed : push fsm = some fsm') :
    (fsm'.state = .stateR ↔ fsm.state = .stateR) ∧
      (fsm'.state = .stateW ↔ fsm.state = .stateW) := by
  unfold push at pushed
  split at pushed
  · rename_i above
    cases state : fsm.state <;> rw [state] at above <;> simp only [stateValue] at above
    all_goals first | omega | skip
    · simp only [fsmDriver, state, Option.map_some, Option.some.injEq] at pushed
      subst pushed
      simp
    · simp only [fsmDriver, state, Option.map_some, Option.some.injEq] at pushed
      subst pushed
      simp [state]
  · cases pushed
    exact ⟨Iff.rfl, Iff.rfl⟩

theorem push_alike {fsm12 fsm21 : RelFsm} (pushed12 : push job.fsm12 = some fsm12)
    (pushed21 : push job.fsm21 = some fsm21) :
    RelJob.events1 { job with fsm12 := fsm12, fsm21 := fsm21 } = job.events1 ∧
      RelJob.events2 { job with fsm12 := fsm12, fsm21 := fsm21 } = job.events2 := by
  have one := push_state pushed12
  have two := push_state pushed21
  simp only [RelJob.events1, RelJob.events2, one, two, and_self]

/-! ## The invariant -/

/-- The first loop has passed the entry. -/
def Phase.Added : Phase → Nat → Prop
  | .unborn, _ => False
  | .adding k, i => i < k
  | _, _ => True

/-- The main loop has passed the entry. -/
def Phase.Set : Phase → Nat → Prop
  | .setting k, i => i < k
  | .waiting, _ => True
  | _, _ => False

/-- The jobs are running and use pairwise distinct descriptors. -/
structure Jobs (f : Nat → Option RelJob) : Prop where
  running : ∀ i job, f i = some job → job.jobState = .running ∧ i < REL_JOBMAX
  two : ∀ i job, f i = some job → job.fd1 ≠ job.fd2
  apart : ∀ i j a b, f i = some a → f j = some b → i ≠ j → ∀ fd ∈ a.fds, fd ∉ b.fds

theorem Jobs.sameJobs {f g : Nat → Option RelJob} (jobs : Jobs f) (same : SameJobs f g) :
    Jobs g where
  running i job stored := by
    obtain ⟨a, stored, state, -, -⟩ := same i job stored
    obtain ⟨running, inside⟩ := jobs.running i a stored
    exact ⟨state.symm.trans running, inside⟩
  two i job stored := by
    obtain ⟨a, stored, -, fd1, fd2⟩ := same i job stored
    rw [← fd1, ← fd2]
    exact jobs.two i a stored
  apart i j a b stored stored' := by
    obtain ⟨a', stored, -, fd1, fd2⟩ := same i a stored
    obtain ⟨b', stored', -, fd1', fd2'⟩ := same j b stored'
    rw [RelJob.fds, RelJob.fds, ← fd1, ← fd2, ← fd1', ← fd2']
    exact jobs.apart i j a' b' stored stored'

/-- A job is stored that shares no descriptor with the others. -/
theorem Jobs.store {f : Nat → Option RelJob} (jobs : Jobs f) (inside : i < REL_JOBMAX)
    (running : job.jobState = .running) (ne : job.fd1 ≠ job.fd2)
    (fresh : ∀ j b, f j = some b → job.fd1 ∉ b.fds ∧ job.fd2 ∉ b.fds) :
    Jobs (Function.update f i (some job)) := by
  have off (j : Nat) (b : RelJob) (stored : f j = some b) (fd : Int) (mem : fd ∈ job.fds) :
      fd ∉ b.fds := by
    obtain ⟨off1, off2⟩ := fresh j b stored
    rw [RelJob.fds, List.mem_pair] at mem
    rcases mem with rfl | rfl
    · exact off1
    · exact off2
  constructor
  · intro j a stored
    rcases update_some_eq_some.mp stored with ⟨rfl, rfl⟩ | ⟨-, old⟩
    · exact ⟨running, inside⟩
    · exact jobs.running j a old
  · intro j a stored
    rcases update_some_eq_some.mp stored with ⟨rfl, rfl⟩ | ⟨-, old⟩
    · exact ne
    · exact jobs.two j a old
  · intro j k a b stored stored' other fd mem
    rcases update_some_eq_some.mp stored with ⟨rfl, rfl⟩ | ⟨-, old⟩ <;>
      rcases update_some_eq_some.mp stored' with ⟨rfl, rfl⟩ | ⟨-, old'⟩
    · exact absurd rfl other
    · exact off k b old' fd mem
    · exact fun mem' => off j a old fd mem' mem
    · exact jobs.apart j k a b old old' other fd mem

/-- What holds while every job is stored in time. -/
structure Inv (s : World) : Prop where
  running : ∀ i job, s.relJob i = some job → job.jobState = .running ∧ i < REL_JOBMAX
  two : ∀ i job, s.relJob i = some job → job.fd1 ≠ job.fd2
  apart : ∀ i j a b, s.relJob i = some a → s.relJob j = some b → i ≠ j → ∀ fd ∈ a.fds, fd ∉ b.fds
  added : ∀ i job, s.relJob i = some job → s.phase.Added i → Registered s.epoll job
  set : ∀ i job, s.relJob i = some job → s.phase.Set i → Shown s.epoll job

theorem Inv.watched (inv : Inv s) : Watched s := by
  intro waiting i job _ stored _
  refine inv.set i job stored ?_
  rw [waiting]
  trivial

theorem init_inv : Inv init where
  running i job stored := by cases stored
  two i job stored := by cases stored
  apart i j a b stored := by cases stored
  added i job stored := by cases stored
  set i job stored := by cases stored

theorem Inv.jobs (inv : Inv s) : Jobs s.relJob := ⟨inv.running, inv.two, inv.apart⟩

/-- An invariant about the jobs does not depend on the states of the machines. -/
theorem Inv.sameJobs (inv : Inv s) {relJob : Nat → Option RelJob}
    (same : SameJobs s.relJob relJob) (added : ∀ i a, s.relJob i = some a → s.phase.Added i) :
    Inv (startPass { s with relJob := relJob }) where
  running := (inv.jobs.sameJobs same).running
  two := (inv.jobs.sameJobs same).two
  apart := (inv.jobs.sameJobs same).apart
  added i job stored _ := by
    obtain ⟨a, stored, -, fd1, fd2⟩ := same i job stored
    rw [Registered, ← fd1, ← fd2]
    exact inv.added i a stored (added i a stored)
  set i job stored set := absurd set (Nat.not_lt_zero i)

theorem getFreePos_spec {relJob : Nat → Option RelJob} {left pos : Nat}
    (found : getFreePos relJob left i = some pos) : relJob pos = none ∧ pos < i + left := by
  induction left generalizing i with
  | zero => cases found
  | succ left ih =>
      rw [getFreePos] at found
      split at found
      · rename_i free
        cases found
        exact ⟨Option.isNone_iff_eq_none.mp free, by omega⟩
      · obtain ⟨free, inside⟩ := ih found
        exact ⟨free, by omega⟩

/-- What `rel_addjob` does: nothing, or it stores a job in a free entry. -/
theorem relAddjob_cases (s : World) (fd1 fd2 : Int) (raw : Option (RelFsm × RelFsm)) :
    (relAddjob s fd1 fd2 raw).1 = s ∨ ∃ (pos : Nat) (job : RelJob),
      (relAddjob s fd1 fd2 raw).2 = pos ∧ s.relJob pos = none ∧ pos < REL_JOBMAX ∧
      job.jobState = .running ∧ job.fd1 = fd1 ∧ job.fd2 = fd2 ∧
      (∃ raw12 raw21, job.fsm12 = relAddjobFsm raw12 fd1 fd2 ∧
        job.fsm21 = relAddjobFsm raw21 fd2 fd1) ∧
      (relAddjob s fd1 fd2 raw).1 =
        { s with relJob := Function.update s.relJob pos (some job) } := by
  unfold relAddjob
  split
  · exact .inl rfl
  · cases raw with
    | none => exact .inl rfl
    | some raw =>
        dsimp only
        cases found : getFreePos s.relJob REL_JOBMAX 0 with
        | none => exact .inl rfl
        | some pos =>
            obtain ⟨free, inside⟩ := getFreePos_spec found
            exact .inr ⟨pos, _, rfl, free, by omega, rfl, rfl, rfl, ⟨_, _, rfl, rfl⟩, rfl⟩

theorem Phase.Before.not_added {phase : Phase} (before : phase.Before i) : ¬ phase.Added i := by
  cases phase with
  | unborn => exact id
  | adding k => exact Nat.not_lt.mpr before
  | setting k => exact before.elim
  | waiting => exact before.elim

theorem Phase.Before.not_set {phase : Phase} (before : phase.Before i) : ¬ phase.Set i := by
  cases phase with
  | unborn => exact id
  | adding k => exact id
  | setting k => exact before.elim
  | waiting => exact before.elim

theorem Inv.addjob {fd1 fd2 : Int} {raw : Option (RelFsm × RelFsm)} (inv : Inv s)
    (distinct : Distinct s (.addjob fd1 fd2 raw)) (onTime : OnTime s (.addjob fd1 fd2 raw)) :
    Inv (relAddjob s fd1 fd2 raw).1 := by
  rcases relAddjob_cases s fd1 fd2 raw with
    same | ⟨pos, new, ret, free, inside, running, rfl, rfl, -, stored⟩
  · rwa [same]
  · obtain ⟨ne, fresh⟩ := distinct
    have before : s.phase.Before pos := onTime pos ret
    have jobs := inv.jobs.store inside running ne fresh
    rw [stored]
    refine ⟨jobs.running, jobs.two, jobs.apart, ?_, ?_⟩
    · intro i a stored added
      rcases update_some_eq_some.mp stored with ⟨rfl, rfl⟩ | ⟨-, old⟩
      · exact absurd added before.not_added
      · exact inv.added i a old added
    · intro i a stored set
      rcases update_some_eq_some.mp stored with ⟨rfl, rfl⟩ | ⟨-, old⟩
      · exact absurd set before.not_set
      · exact inv.set i a old set

theorem Inv.start (inv : Inv s) : Inv (startRelJob s) := by
  unfold startRelJob
  split
  · exact { inv with
      added := fun i _ _ added => absurd added (Nat.not_lt_zero i)
      set := fun _ _ _ set => set.elim }
  · exact inv

theorem Inv.addSlot (inv : Inv s) (phase : s.phase = .adding i) :
    Inv { addSlot s i with phase := .adding (i + 1) } := by
  have kept : (Epoll.addSlot s i).relJob = s.relJob := by
    unfold Epoll.addSlot
    split
    · split <;> rfl
    · rfl
  have registered (j : Nat) (b : RelJob) (stored : s.relJob j = some b) (passed : j < i + 1) :
      Registered (Epoll.addSlot s i).epoll b := by
    have old (before : j < i) : Registered s.epoll b := by
      refine inv.added j b stored ?_
      rw [phase]
      exact before
    unfold Epoll.addSlot
    by_cases here : j = i
    · subst here
      rw [stored]
      dsimp only
      rw [if_pos (inv.running j b stored).1]
      exact addJob_registered
    · have before := old (by omega)
      split
      · split
        · exact before.addJob
        · exact before
      · exact before
  constructor
  · intro j b stored
    rw [kept] at stored
    exact inv.running j b stored
  · intro j b stored
    rw [kept] at stored
    exact inv.two j b stored
  · intro j k a b stored stored'
    rw [kept] at stored stored'
    exact inv.apart j k a b stored stored'
  · intro j b stored added
    rw [kept] at stored
    exact registered j b stored added
  · intro j b _ set
    exact set.elim

/-- What a visit in the main loop does to an entry. -/
theorem setSlot_cases (running : ∀ job, s.relJob i = some job → job.jobState = .running)
    (set : setSlot s i = some t) :
    s.relJob i = none ∧ t = s ∨ ∃ job fsm12 fsm21, s.relJob i = some job ∧
      push job.fsm12 = some fsm12 ∧ push job.fsm21 = some fsm21 ∧
      t = { s with
        epoll := setJob s.epoll job
        relJob := Function.update s.relJob i
          (some { job with fsm12 := fsm12, fsm21 := fsm21 }) } := by
  unfold setSlot at set
  cases stored : s.relJob i with
  | none =>
      rw [stored] at set
      cases set
      exact .inl ⟨rfl, rfl⟩
  | some job =>
      rw [stored] at set
      dsimp only at set
      rw [if_pos (running job stored)] at set
      obtain ⟨fsm12, pushed12, rest⟩ := Option.bind_eq_some_iff.mp set
      obtain ⟨fsm21, pushed21, stop⟩ := Option.bind_eq_some_iff.mp rest
      cases stop
      exact .inr ⟨job, fsm12, fsm21, rfl, pushed12, pushed21, rfl⟩

theorem Inv.setSlot (inv : Inv s) (phase : s.phase = .setting i) (set : setSlot s i = some t) :
    Inv { t with phase := .setting (i + 1) } := by
  have added (j : Nat) (b : RelJob) (stored : s.relJob j = some b) : Registered s.epoll b := by
    refine inv.added j b stored ?_
    rw [phase]
    trivial
  have shown (j : Nat) (b : RelJob) (stored : s.relJob j = some b) (passed : j < i) :
      Shown s.epoll b := by
    refine inv.set j b stored ?_
    rw [phase]
    exact passed
  rcases setSlot_cases (fun job stored => (inv.running i job stored).1) set with
    ⟨none, rfl⟩ | ⟨job, fsm12, fsm21, stored, pushed12, pushed21, rfl⟩
  · refine { inv with added := fun j b stored _ => added j b stored, set := ?_ }
    intro j b stored passed
    have passed : j < i + 1 := passed
    have other : j ≠ i := by
      rintro rfl
      rw [none] at stored
      cases stored
    exact shown j b stored (by omega)
  · have same : SameJobs s.relJob (Function.update s.relJob i
        (some { job with fsm12 := fsm12, fsm21 := fsm21 })) :=
      SameJobs.update stored ⟨rfl, rfl, rfl⟩
    have base := inv.sameJobs same fun j _ _ => by
      rw [phase]
      trivial
    refine { base with added := ?_, set := ?_ }
    · intro j b stored' _
      obtain ⟨a, stored', -, fd1, fd2⟩ := same j b stored'
      rw [Registered, ← fd1, ← fd2]
      exact (added j a stored').setJob
    · intro j b stored' passed
      have passed : j < i + 1 := passed
      rcases update_some_eq_some.mp stored' with ⟨rfl, rfl⟩ | ⟨other, old⟩
      · obtain ⟨events1, events2⟩ := push_alike pushed12 pushed21
        rw [Shown, events1, events2]
        exact setJob_shown (added j job stored) (inv.two j job stored)
      · exact (shown j b old (by omega)).setJob (inv.apart j i b job old stored other)

theorem Inv.relay (inv : Inv s) (relayed : relay s = some t) : Inv t := by
  unfold Epoll.relay at relayed
  cases phase : s.phase with
  | unborn =>
      rw [phase] at relayed
      cases relayed
  | adding i =>
      rw [phase] at relayed
      dsimp only at relayed
      split at relayed
      · cases relayed
        exact inv.addSlot phase
      · rename_i all
        cases relayed
        refine inv.sameJobs (SameJobs.refl s.relJob) fun j a stored => ?_
        have inside := (inv.running j a stored).2
        rw [phase]
        exact Nat.lt_of_lt_of_le inside (Nat.not_lt.mp all)
  | setting i =>
      rw [phase] at relayed
      dsimp only at relayed
      split at relayed
      · obtain ⟨t, set, rfl⟩ := Option.map_eq_some_iff.mp relayed
        exact inv.setSlot phase set
      · rename_i all
        cases relayed
        refine { inv with added := ?_, set := ?_ }
        · intro i job stored _
          refine inv.added i job stored ?_
          rw [phase]
          trivial
        · intro j job stored _
          have inside := (inv.running j job stored).2
          refine inv.set j job stored ?_
          rw [phase]
          exact Nat.lt_of_lt_of_le inside (Nat.not_lt.mp all)
  | waiting =>
      rw [phase] at relayed
      cases relayed

theorem Inv.wake {answers : Answers} (inv : Inv s) (woken : wake s fd ev answers = some t) :
    Inv t := by
  obtain ⟨interest, -, rest⟩ := Option.bind_eq_some_iff.mp woken
  split at rest
  · rename_i fits
    obtain ⟨relJob, driven, stop⟩ := Option.bind_eq_some_iff.mp rest
    cases stop
    refine inv.sameJobs (drive_sameJobs driven) fun i _ _ => ?_
    rw [fits.1]
    trivial
  · cases rest

theorem Inv.step (inv : Inv s) (distinct : Distinct s e) (onTime : OnTime s e)
    (stepped : step s e = some t) : Inv t := by
  cases e with
  | addjob fd1 fd2 raw =>
      cases stepped
      exact inv.addjob distinct onTime
  | start =>
      cases stepped
      exact inv.start
  | relay => exact inv.relay stepped
  | wake fd ev answers => exact inv.wake stepped

/-- **The interest set.** When every job is stored before the first loop has passed its
entry, the epoll set is right whenever the relayer is blocked. -/
theorem watched_of_onTime {es : List Event}
    (allowed : Along step (fun s e => Distinct s e ∧ OnTime s e) init es)
    (ran : run step init es = some s) : Watched s := by
  have inv : Inv s := run_invariant
    (fun inv allowed stepped => inv.step allowed.1 allowed.2 stepped) init_inv allowed ran
  exact inv.watched

/-! ## A job that comes too late -/

/-- Visits of free entries, in either loop. -/
theorem skip {loop : Nat → Phase} (n : Nat)
    (visit : ∀ s i, s.phase = loop i → i < REL_JOBMAX → s.relJob i = none →
      relay s = some { s with phase := loop (i + 1) })
    (phase : s.phase = loop i) (inside : i + n ≤ REL_JOBMAX)
    (free : ∀ j, i ≤ j → s.relJob j = none) :
    run step s (List.replicate n .relay) = some { s with phase := loop (i + n) } := by
  induction n generalizing s i with
  | zero =>
      rw [Nat.add_zero, ← phase]
      rfl
  | succ n ih =>
      have first := visit s i phase (by omega) (free i (Nat.le_refl i))
      have rest := ih (s := { s with phase := loop (i + 1) }) (i := i + 1) rfl (by omega)
        fun j later => free j (by omega)
      rw [Nat.add_right_comm] at rest
      exact run_cons_eq_some.mpr ⟨_, first, rest⟩

theorem relay_adding (s : World) (i : Nat) (phase : s.phase = .adding i) (inside : i < REL_JOBMAX)
    (free : s.relJob i = none) : relay s = some { s with phase := .adding (i + 1) } := by
  rw [relay, phase]
  dsimp only
  rw [if_pos inside, addSlot, free]

theorem relay_setting (s : World) (i : Nat) (phase : s.phase = .setting i)
    (inside : i < REL_JOBMAX) (free : s.relJob i = none) :
    relay s = some { s with phase := .setting (i + 1) } := by
  rw [relay, phase]
  dsimp only
  rw [if_pos inside, setSlot, free]
  rfl

/-- The rest of the first loop behind the entry 0, and a pass of the main loop. -/
def onePass : List Event :=
  List.replicate 9999 .relay ++ ([.relay, .relay] ++ (List.replicate 9999 .relay ++ [.relay]))

/-- The top of the main loop, and the visit of the entry 0. -/
theorem run_first (phase : s.phase = .adding 10000) (stored : s.relJob 0 = some job)
    (running : job.jobState = .running) (reading : job.fsm12.state = .stateR)
    (reading' : job.fsm21.state = .stateR) :
    ∃ t, run step s [.relay, .relay] = some t ∧ t.phase = .setting 1 ∧ t.present 0 ∧
      t.relJob = Function.update s.relJob 0 (some job) ∧ t.epoll = setJob s.epoll job := by
  have pushed (fsm : RelFsm) (reading : fsm.state = .stateR) : push fsm = some fsm := by
    rw [push, reading]
    rfl
  have began : relay s = some (startPass s) := by
    rw [relay, phase]
    rfl
  have visited : setSlot (startPass s) 0 = some { startPass s with
      epoll := setJob s.epoll job, relJob := Function.update s.relJob 0 (some job) } := by
    have stored' : (startPass s).relJob 0 = some job := stored
    rw [setSlot, stored']
    dsimp only
    rw [if_pos running, pushed _ reading, pushed _ reading']
    rfl
  have set : relay (startPass s) = some { startPass s with
      epoll := setJob s.epoll job, relJob := Function.update s.relJob 0 (some job),
      phase := .setting 1 } := by
    rw [relay, startPass]
    dsimp only
    rw [if_pos (by decide)]
    exact congrArg (Option.map fun s => { s with phase := .setting 1 }) visited
  refine ⟨_, run_cons_eq_some.mpr ⟨_, began, run_cons_eq_some.mpr ⟨_, set, rfl⟩⟩, rfl, ?_, rfl, rfl⟩
  simp [startPass, stored]

/-- One job, in the entry 0, while the first loop has passed that entry only. -/
theorem run_onePass (phase : s.phase = .adding 1) (stored : s.relJob 0 = some job)
    (running : job.jobState = .running) (reading : job.fsm12.state = .stateR)
    (reading' : job.fsm21.state = .stateR) (free : ∀ j, 1 ≤ j → s.relJob j = none) :
    ∃ t, run step s onePass = some t ∧ t.phase = .waiting ∧ t.present 0 ∧
      t.relJob 0 = some job ∧ t.epoll = setJob s.epoll job := by
  have added := skip 9999 relay_adding phase (by decide) free
  obtain ⟨t, ran, phase', present, relJob, epoll⟩ :=
    run_first (s := { s with phase := .adding (1 + 9999) }) rfl stored running reading reading'
  have free' : ∀ j, 1 ≤ j → t.relJob j = none := fun j later => by
    rw [relJob, Function.update_of_ne (by omega)]
    exact free j later
  have set := skip 9999 relay_setting phase' (by decide) free'
  have blocked : run step { t with phase := .setting (1 + 9999) } [.relay] =
      some { t with phase := .waiting } := rfl
  refine ⟨{ t with phase := .waiting }, ?_, rfl, present, ?_, epoll⟩
  · exact run_append_eq_some.mpr ⟨_, added, run_append_eq_some.mpr ⟨_, ran,
      run_append_eq_some.mpr ⟨_, set, blocked⟩⟩⟩
  · show t.relJob 0 = some job
    rw [relJob, Function.update_self]

/-- What holds of the steps of the relayer thread in any state holds along them. -/
theorem along_relay {C : World → Event → Prop} {es : List Event} (free : ∀ s, C s .relay)
    (relays : ∀ e ∈ es, e = .relay) : Along step C s es := by
  induction es generalizing s with
  | nil => trivial
  | cons e es ih =>
      obtain rfl := relays e List.mem_cons_self
      exact ⟨free s, fun t _ => ih fun e mem => relays e (List.mem_cons_of_mem _ mem)⟩

theorem mem_onePass : ∀ e ∈ onePass, e = .relay := by
  intro e mem
  simp only [onePass, List.mem_append, List.mem_replicate, List.mem_cons, List.not_mem_nil,
    or_false] at mem
  tauto

/-- What `malloc` returns may hold anything. -/
def raw : RelFsm := ⟨.stateT, 0, 0, [], 0, 0, 0, ""⟩

/-- `rel_addjob(3, 4)` stores this. -/
def added : RelJob := ⟨.running, 3, 4, relAddjobFsm raw 3 4, relAddjobFsm raw 4 3⟩

/-- The first loop has passed the entry 0, in which there is one job. -/
def passed (epoll : EpollSet) : World :=
  ⟨Function.update (fun _ => none) 0 (some added), epoll, .adding 1, fun _ => false⟩

theorem run_passed (epoll : EpollSet) :
    ∃ t, run step (passed epoll) onePass = some t ∧ t.phase = .waiting ∧ t.present 0 ∧
      t.relJob 0 = some added ∧ t.epoll = setJob epoll added := by
  refine run_onePass rfl rfl rfl rfl rfl fun j later => ?_
  have other : j ≠ 0 := by omega
  show Function.update (fun _ => none) 0 (some added) j = none
  rw [Function.update_of_ne other]

/-- `rel_addjob(3, 4)` after the thread has found the entry 0 free. -/
def late : List Event := [.start, .relay, .addjob 3 4 (some (raw, raw))]

/-- `rel_addjob(3, 4)` before the thread is created. -/
def early : List Event := [.addjob 3 4 (some (raw, raw)), .start, .relay]

theorem run_late : run step init late = some (passed fun _ => none) := rfl

theorem run_early : run step init early = some (passed (addJob (fun _ => none) added)) := rfl

/-- The late job is not watched for anything. -/
theorem watched_fails :
    ¬ ∀ (es : List Event) (s : World), Along step Distinct init es → run step init es = some s →
      Watched s := by
  intro watched
  obtain ⟨t, ran, phase, present, stored, epoll⟩ := run_passed fun _ => none
  have begun : Along step Distinct init late := by
    refine ⟨trivial, fun a started => ⟨trivial, fun b relayed => ⟨⟨by decide, ?_⟩, ?_⟩⟩⟩
    · intro i job stored
      cases started
      cases relayed
      cases stored
    · exact fun _ _ => trivial
  have distinct : Along step Distinct init (late ++ onePass) :=
    along_append.mpr ⟨begun, fun _ _ => along_relay (fun _ => trivial) mem_onePass⟩
  have shown := watched _ t distinct (run_append_eq_some.mpr ⟨_, run_late, ran⟩) phase 0 added
    present stored rfl
  rw [epoll] at shown
  cases shown.1

/-- The early job is watched. -/
theorem watched_of_onTime_early : ∃ s, run step init (early ++ onePass) = some s ∧ Watched s ∧
    s.phase = .waiting ∧ s.epoll 3 = some ⟨true, false⟩ := by
  obtain ⟨t, ran, phase, present, stored, epoll⟩ := run_passed (addJob (fun _ => none) added)
  have all := run_append_eq_some.mpr ⟨_, run_early, ran⟩
  have begun : Along step (fun s e => Distinct s e ∧ OnTime s e) init early := by
    refine ⟨⟨⟨by decide, ?_⟩, fun _ _ => trivial⟩, fun _ _ => ⟨⟨trivial, trivial⟩, ?_⟩⟩
    · intro i job stored
      cases stored
    · exact fun _ _ => ⟨⟨trivial, trivial⟩, fun _ _ => trivial⟩
  have allowed := along_append.mpr ⟨begun, fun _ _ => along_relay
    (C := fun s e => Distinct s e ∧ OnTime s e) (fun _ => ⟨trivial, trivial⟩) mem_onePass⟩
  refine ⟨t, all, watched_of_onTime allowed all, phase, ?_⟩
  rw [epoll]
  decide

end Shang.Relayer.Epoll
