import Shang.Anytimer.Job
import Shang.Lib.Run
import Shang.Lib.Update
import Mathlib.Data.List.FinRange

/-!
# The any-timer with threads

`anytimer.c` of `5.anytimer_mt`: any threads make the calls, and `init_action`
ticks the jobs. The table has the mutex `mut_job`, and each job a mutex and a
condition variable of its own.

The steps are the sections between a lock and the next unlock or wait, and the
reads of `job[id]` between them. `init_action` holds `mut_job` for a whole pass
over the table and takes the mutex of one job after the other: `pass` is the slot
it is at. A waiting thread may wake up at any time, which covers broadcasts and
spurious wake-ups alike.

An access to a job that was freed, or through a slot that is `NULL`, sets `broken`
and ends the run. `log` notes for each job when a thread began to wait on its
condition variable, when it stopped to run, and when its condition was broadcast.
-/

namespace Shang.Anytimer.Threads

open Lib

def NOREPEAT : Int := 0

/-- The functions that take the mutex of a job without holding `mut_job`. -/
inductive Locker
  | waitjob
  | stopjob
  | resumejob
  deriving DecidableEq

/-- A call between two of its sections: `at_waitjob` behind its check; a call that
has read `job[id]` to lock its mutex; `at_waitjob` in `pthread_cond_wait`, and
behind its loop; `at_canceljob` of a job that is over, which has given up
`mut_job` but not the mutex of the job. -/
inductive Call
  | checked (i : Slot)
  | locking (f : Locker) (i : Slot) (p : Nat)
  | waiting (i : Slot) (p : Nat)
  | leaving (i : Slot)
  | unlocking (i : Slot) (p : Nat)
  deriving DecidableEq

inductive Note (τ : Type)
  | began (thread : τ) (p : Nat)
  | left (p : Nat)
  | broadcast (p : Nat)
  deriving DecidableEq

/-- A job's address is its number in the order of allocation. `locked` tells of
the mutexes that are held from one section to another; `returned` has the results
of the calls, none where a function ends without a `return`. -/
structure Sys (τ : Type) where
  obj : Nat → Option Job
  locked : Nat → Bool
  frees : List Nat
  born : Nat
  job : Slot → Option Nat
  pass : Option Nat
  calls : τ → Option Call
  returned : List (τ × Option Int)
  log : List (Note τ)
  broken : Bool

/-- A thread makes a call, or goes on with the one that it is in, or
`init_action` goes on. `mem` tells whether `malloc` succeeds. -/
inductive Event (τ : Type)
  | addjob (thread : τ) (sec isRepeat : Int) (mem : Bool)
  | canceljob (thread : τ) (id : Int)
  | waitjob (thread : τ) (id : Int)
  | stopjob (thread : τ) (id : Int)
  | resumejob (thread : τ) (id : Int)
  | next (thread : τ)
  | tick

/-- `get_free_pos_unlock` -/
def getFreePosUnlock (job : Slot → Option Nat) : Option Slot :=
  (List.finRange JOB_MAX).find? fun i => (job i).isNone

variable {τ : Type} [DecidableEq τ]

namespace Sys

variable (s : Sys τ)

def start : Sys τ where
  obj _ := none
  locked _ := false
  frees := []
  born := 0
  job _ := none
  pass := none
  calls _ := none
  returned := []
  log := []
  broken := false

/-- An access that must not be. -/
def fault : Sys τ :=
  { s with broken := true }

/-- The job at the address `p`, unless it was freed. -/
def live (p : Nat) : Option Job :=
  if p ∈ s.frees then none else s.obj p

/-- `*job[i]`, and its address. -/
def deref (i : Slot) : Option (Nat × Job) :=
  (s.job i).bind fun p => (s.live p).map fun j => (p, j)

/-- The slot that `id` names and the address in it, as the checks have it. -/
def find (id : Int) : Option (Slot × Nat) :=
  (slotOf id).bind fun i => (s.job i).map fun p => (i, p)

def note (n : Note τ) : Sys τ :=
  { s with log := s.log ++ [n] }

/-- The job `p` changes from `j` to `j'`. -/
def change (p : Nat) (j j' : Job) : Sys τ :=
  let s := { s with obj := Function.update s.obj p (some j') }
  if j.jobState = .stateRunning ∧ j'.jobState ≠ .stateRunning then s.note (.left p) else s

def enter (thread : τ) (call : Call) : Sys τ :=
  { s with calls := Function.update s.calls thread (some call) }

/-- A call returns. -/
def ret (thread : τ) (result : Option Int) : Sys τ :=
  { s with
    calls := Function.update s.calls thread none
    returned := s.returned ++ [(thread, result)] }

/-- `at_addjob` from its lock on, for the new block `me`, and the failure path. -/
def atAddjob (thread : τ) (me : Job) : Sys τ :=
  let s' := { s with obj := Function.update s.obj s.born (some me), born := s.born + 1 }
  match getFreePosUnlock s.job with
  | none => { s' with frees := s.frees ++ [s.born] }.ret thread (some (-ENOSPC))
  | some pos =>
    { s' with job := Function.update s.job pos (some s.born) }.ret thread (some (pos.val : Int))

/-- `at_canceljob` up to its unlocks; it waits while the mutex of the job is held. -/
def atCanceljob (thread : τ) (id : Int) : Option (Sys τ) :=
  match s.find id with
  | none => some (s.ret thread (some (-EINVAL)))
  | some (i, p) =>
    match s.live p with
    | none => some s.fault
    | some j =>
      if s.locked p then none
      else if j.jobState = .stateOver then
        some ({ s with locked := Function.update s.locked p true }.enter thread (.unlocking i p))
      else
        some ((s.change p j { j with
          jobState := .stateCancel
          rep := NOREPEAT }).ret thread (some 0))

/-- The last unlock of `at_canceljob` for a job that is over. -/
def unlock (thread : τ) (i : Slot) : Sys τ :=
  match s.deref i with
  | none => s.fault
  | some (p, _) =>
    { s with locked := Function.update s.locked p false }.ret thread (some (-EBUSY))

/-- The check of `at_waitjob`. -/
def atWaitjob (thread : τ) (id : Int) : Sys τ :=
  match s.find id with
  | none => s.ret thread (some (-EINVAL))
  | some (i, _) => s.enter thread (.checked i)

/-- A call reads `job[i]` to lock its mutex. -/
def readJob (f : Locker) (thread : τ) (i : Slot) : Sys τ :=
  match s.job i with
  | none => s.fault
  | some p => s.enter thread (.locking f i p)

/-- The loop of `at_waitjob`, up to the wait or the unlock. -/
def waitLoop (thread : τ) (i : Slot) : Sys τ :=
  match s.deref i with
  | none => s.fault
  | some (p, j) =>
    if j.jobState = .stateRunning then (s.note (.began thread p)).enter thread (.waiting i p)
    else s.enter thread (.leaving i)

/-- The section of `f` under the mutex of the job. -/
def under (f : Locker) (thread : τ) (i : Slot) : Sys τ :=
  match s.deref i with
  | none => s.fault
  | some (p, j) =>
    match f with
    | .waitjob =>
      if j.rep = REPEAT then s.ret thread (some (-EBUSY)) else s.waitLoop thread i
    | .stopjob =>
      if j.jobState ≠ .stateRunning then s.ret thread (some (-1))
      else (s.change p j { j with jobState := .statePause }).ret thread none
    | .resumejob =>
      if j.jobState ≠ .statePause then s.ret thread (some (-1))
      else (s.change p j { j with jobState := .stateRunning }).ret thread none

/-- Take the mutex of the job `p`, in `pthread_mutex_lock` or on the way out of
`pthread_cond_wait`, and go on with `t`. -/
def lock (p : Nat) (t : Sys τ) : Option (Sys τ) :=
  match s.live p with
  | none => some s.fault
  | some _ => if s.locked p then none else some t

/-- The last section of `at_waitjob`. -/
def release (thread : τ) (i : Slot) : Sys τ :=
  match s.deref i with
  | none => s.fault
  | some (p, j) =>
    if j.jobState = .stateCancel ∨ j.jobState = .stateOver then
      { s with
        frees := s.frees ++ [p]
        job := Function.update s.job i none }.ret thread (some 0)
    else
      s.ret thread (some 0)

/-- A thread goes on with its call. -/
def next (thread : τ) : Option (Sys τ) :=
  match s.calls thread with
  | none => none
  | some (.checked i) => some (s.readJob .waitjob thread i)
  | some (.locking f i p) => s.lock p (s.under f thread i)
  | some (.waiting i p) => s.lock p (s.waitLoop thread i)
  | some (.leaving i) => if s.pass ≠ none then none else some (s.release thread i)
  | some (.unlocking i _) => some (s.unlock thread i)

/-- The next section of `init_action`. -/
def initAction : Option (Sys τ) :=
  match s.pass with
  | none => some { s with pass := some 0 }
  | some i =>
    if inside : i < JOB_MAX then
      match s.job ⟨i, inside⟩ with
      | none => some { s with pass := some (i + 1) }
      | some p =>
        match s.live p with
        | none => some s.fault
        | some j =>
          if s.locked p then none
          else
            let t := { s.change p j j.tick.1 with pass := some (i + 1) }
            if j.jobState = .stateRunning ∧ j.tick.1.jobState = .stateOver then
              some (t.note (.broadcast p))
            else
              some t
    else
      some { s with pass := none }

/-- One step. A thread in a call makes no other one, and nothing locks `mut_job`
while `init_action` holds it. -/
def act : Event τ → Option (Sys τ)
  | .addjob thread sec isRepeat mem =>
    if s.calls thread ≠ none then none
    else if mem then
      if s.pass ≠ none then none else some (s.atAddjob thread (.new sec isRepeat))
    else
      some (s.ret thread (some (-ENOMEM)))
  | .canceljob thread id =>
    if s.calls thread ≠ none ∨ s.pass ≠ none then none else s.atCanceljob thread id
  | .waitjob thread id =>
    if s.calls thread ≠ none ∨ s.pass ≠ none then none else some (s.atWaitjob thread id)
  | .stopjob thread id =>
    if s.calls thread ≠ none then none
    else
      match slotOf id with
      | none => some s.fault
      | some i => some (s.readJob .stopjob thread i)
  | .resumejob thread id =>
    if s.calls thread ≠ none then none
    else
      match slotOf id with
      | none => some s.fault
      | some i => some (s.readJob .resumejob thread i)
  | .next thread => s.next thread
  | .tick => s.initAction

def step (e : Event τ) : Option (Sys τ) :=
  if s.broken then none else s.act e

end Sys

variable {s t : Sys τ} {e : Event τ} {thread : τ} {i : Slot} {id : Int} {p q : Nat} {j : Job}
  {c : Call} {f : Locker}

/-! ## What one step does -/

/-- The slot that a call works on, and the job in it that the call knows, are
still in use. -/
def Placed (s : Sys τ) : Call → Prop
  | .checked i => (s.job i).isSome
  | .leaving i => (s.job i).isSome
  | .locking _ i p => s.job i = some p
  | .waiting i p => s.job i = some p
  | .unlocking i p => s.job i = some p

/-- A job in the table was freed. -/
def Dangling (s : Sys τ) : Prop :=
  ∃ i p, s.job i = some p ∧ s.live p = none

/-- A thread goes on with a call on a job that is gone, or stops or resumes a job
that is not there. -/
def Stray (s : Sys τ) : Event τ → Prop
  | .next thread => ∃ c, s.calls thread = some c ∧ ¬ Placed s c
  | .stopjob _ id => s.find id = none
  | .resumejob _ id => s.find id = none
  | _ => False

/-- The step is a section of `at_canceljob` or `at_stopjob` that finds the job `p`
running, and ends that. -/
def Leaves (s : Sys τ) (p : Nat) : Event τ → Prop
  | .canceljob _ id => ∃ i j, s.find id = some (i, p) ∧ s.live p = some j ∧
      j.jobState = .stateRunning
  | .next thread => ∃ i q j, s.calls thread = some (.locking .stopjob i q) ∧
      (s.live q).isSome ∧ s.deref i = some (p, j) ∧ j.jobState = .stateRunning
  | _ => False

/-- Every step has one of these effects. -/
inductive Effect (s : Sys τ) : Event τ → Sys τ → Prop
  | fault {e : Event τ} (why : Stray s e ∨ Dangling s) : Effect s e s.fault
  | ret {e : Event τ} (thread : τ) (result : Option Int) : Effect s e (s.ret thread result)
  | enter {e : Event τ} (thread : τ) (c : Call) (placed : Placed s c)
      (awake : ∀ i p, c ≠ .waiting i p) : Effect s e (s.enter thread c)
  | wait {e : Event τ} (thread : τ) (i : Slot) (p : Nat) (j : Job)
      (found : s.deref i = some (p, j)) (running : j.jobState = .stateRunning) :
      Effect s e ((s.note (.began thread p)).enter thread (.waiting i p))
  | change {e : Event τ} (thread : τ) (i : Slot) (p : Nat) (j j' : Job) (result : Option Int)
      (found : s.deref i = some (p, j))
      (leaves : j.jobState = .stateRunning → j'.jobState ≠ .stateRunning → Leaves s p e) :
      Effect s e ((s.change p j j').ret thread result)
  | lock {e : Event τ} (thread : τ) (i : Slot) (p : Nat) (listed : s.job i = some p) :
      Effect s e
        ({ s with locked := Function.update s.locked p true }.enter thread (.unlocking i p))
  | unlock {e : Event τ} (thread : τ) (p : Nat) (result : Option Int) :
      Effect s e ({ s with locked := Function.update s.locked p false }.ret thread result)
  | create {e : Event τ} (thread : τ) (me : Job) : Effect s e (s.atAddjob thread me)
  | release (thread : τ) (i : Slot) (p : Nat) (j : Job)
      (inside : s.calls thread = some (.leaving i)) (found : s.deref i = some (p, j))
      (ended : j.jobState = .stateCancel ∨ j.jobState = .stateOver) :
      Effect s (.next thread) ({ s with
        frees := s.frees ++ [p]
        job := Function.update s.job i none }.ret thread (some 0))
  | pass {e : Event τ} (pass : Option Nat) : Effect s e { s with pass := pass }
  | count {e : Event τ} (i : Slot) (p : Nat) (j : Job) (pass : Option Nat)
      (found : s.deref i = some (p, j))
      (runs : j.jobState = .stateRunning → j.tick.1.jobState = .stateRunning) :
      Effect s e { s.change p j j.tick.1 with pass := pass }
  | ends {e : Event τ} (i : Slot) (p : Nat) (j : Job) (pass : Option Nat)
      (found : s.deref i = some (p, j)) (running : j.jobState = .stateRunning)
      (ended : j.tick.1.jobState = .stateOver) :
      Effect s e (({ s.change p j j.tick.1 with pass := pass } : Sys τ).note (.broadcast p))

omit [DecidableEq τ] in
theorem deref_eq_some :
    s.deref i = some (p, j) ↔ s.job i = some p ∧ s.live p = some j := by
  unfold Sys.deref
  simp only [Option.bind_eq_some_iff, Option.map_eq_some_iff, Prod.mk.injEq]
  constructor
  · rintro ⟨q, listed, j', alive, rfl, rfl⟩
    exact ⟨listed, alive⟩
  · rintro ⟨listed, alive⟩
    exact ⟨p, listed, j, alive, rfl, rfl⟩

omit [DecidableEq τ] in
theorem find_eq_some : s.find id = some (i, p) ↔ slotOf id = some i ∧ s.job i = some p := by
  unfold Sys.find
  simp only [Option.bind_eq_some_iff, Option.map_eq_some_iff, Prod.mk.injEq]
  constructor
  · rintro ⟨x, named, q, listed, rfl, rfl⟩
    exact ⟨named, listed⟩
  · rintro ⟨named, listed⟩
    exact ⟨i, named, p, listed, rfl, rfl⟩

omit [DecidableEq τ] in
/-- A slot that cannot be followed is empty, or its job was freed. -/
theorem deref_eq_none (lost : s.deref i = none) : s.job i = none ∨ Dangling s := by
  cases listed : s.job i with
  | none => exact .inl rfl
  | some p =>
      unfold Sys.deref at lost
      rw [listed, Option.bind_some, Option.map_eq_none_iff] at lost
      exact .inr ⟨i, p, listed, lost⟩

theorem atCanceljob_effect (stepped : s.atCanceljob thread id = some t) :
    Effect s (.canceljob thread id) t := by
  unfold Sys.atCanceljob at stepped
  split at stepped
  · cases stepped
    exact .ret thread _
  · next i p named =>
      obtain ⟨-, listed⟩ := find_eq_some.mp named
      split at stepped
      · next freed =>
          cases stepped
          exact .fault (.inr ⟨i, p, listed, freed⟩)
      · next j alive =>
          split at stepped
          · cases stepped
          · split at stepped
            · cases stepped
              exact .lock thread i p listed
            · cases stepped
              exact .change thread i p j _ _ (deref_eq_some.mpr ⟨listed, alive⟩)
                fun running _ => ⟨i, j, named, alive, running⟩

theorem atWaitjob_effect {e : Event τ} : Effect s e (s.atWaitjob thread id) := by
  unfold Sys.atWaitjob
  split
  · exact .ret thread _
  · next i p named =>
      obtain ⟨-, listed⟩ := find_eq_some.mp named
      exact .enter thread _ (by rw [Placed, listed]; rfl) nofun

theorem readJob_effect {e : Event τ} (why : s.job i = none → Stray s e) :
    Effect s e (s.readJob f thread i) := by
  unfold Sys.readJob
  split
  · next empty => exact .fault (.inl (why empty))
  · next p listed => exact .enter thread _ listed nofun

/-- A call that stops or resumes a job begins. -/
theorem readJob_begins {e : Event τ} (named : slotOf id = some i)
    (why : s.find id = none → Stray s e) : Effect s e (s.readJob f thread i) := by
  apply readJob_effect
  intro empty
  apply why
  unfold Sys.find
  rw [named, Option.bind_some, empty, Option.map_none]

omit [DecidableEq τ] in
/-- A thread that goes on cannot follow its slot: the job is gone, or was freed. -/
theorem stray_or_dangling (inside : s.calls thread = some c) (lost : s.deref i = none)
    (gone : s.job i = none → ¬ Placed s c) : Stray s (.next thread) ∨ Dangling s := by
  rcases deref_eq_none lost with empty | dangling
  · exact .inl ⟨c, inside, gone empty⟩
  · exact .inr dangling

theorem waitLoop_effect (inside : s.calls thread = some c) (gone : s.job i = none → ¬ Placed s c) :
    Effect s (.next thread) (s.waitLoop thread i) := by
  unfold Sys.waitLoop
  split
  · next lost => exact .fault (stray_or_dangling inside lost gone)
  · next p j found =>
      split
      · next running => exact .wait thread i p j found running
      · exact .enter thread _ (by rw [Placed, (deref_eq_some.mp found).1]; rfl) nofun

theorem under_effect (inside : s.calls thread = some (.locking f i q)) (alive : (s.live q).isSome) :
    Effect s (.next thread) (s.under f thread i) := by
  have gone : s.job i = none → ¬ Placed s (.locking f i q) := fun empty placed =>
    nomatch empty.symm.trans placed
  unfold Sys.under
  split
  · next lost => exact .fault (stray_or_dangling inside lost gone)
  · next p j found =>
      cases f with
      | waitjob =>
          dsimp only
          split
          · exact .ret thread _
          · exact waitLoop_effect inside gone
      | stopjob =>
          dsimp only
          split
          · exact .ret thread _
          · exact .change thread i p j _ _ found fun running _ =>
              ⟨i, q, j, inside, alive, found, running⟩
      | resumejob =>
          dsimp only
          split
          · exact .ret thread _
          · exact .change thread i p j _ _ found fun _ stopped => absurd rfl stopped

theorem lock_effect {u : Sys τ} (stepped : s.lock p u = some t)
    (inside : s.calls thread = some c) (known : Placed s c → s.job i = some p)
    (goes : (s.live p).isSome → Effect s (.next thread) u) : Effect s (.next thread) t := by
  unfold Sys.lock at stepped
  split at stepped
  · next freed =>
      cases stepped
      by_cases placed : Placed s c
      · exact .fault (.inr ⟨i, p, known placed, freed⟩)
      · exact .fault (.inl ⟨c, inside, placed⟩)
  · next j alive =>
      split at stepped
      · cases stepped
      · cases stepped
        exact goes (by rw [alive]; rfl)

theorem release_effect (inside : s.calls thread = some (.leaving i)) :
    Effect s (.next thread) (s.release thread i) := by
  unfold Sys.release
  split
  · next lost =>
      exact .fault (stray_or_dangling inside lost fun empty placed => by
        rw [Placed, empty] at placed
        exact nomatch placed)
  · next p j found =>
      split
      · next ended => exact .release thread i p j inside found ended
      · exact .ret thread _

theorem unlock_effect (inside : s.calls thread = some (.unlocking i q)) :
    Effect s (.next thread) (s.unlock thread i) := by
  unfold Sys.unlock
  split
  · next lost =>
      exact .fault (stray_or_dangling inside lost fun empty placed =>
        nomatch empty.symm.trans placed)
  · next p j found => exact .unlock thread p _

theorem next_effect (stepped : s.next thread = some t) : Effect s (.next thread) t := by
  unfold Sys.next at stepped
  split at stepped
  · cases stepped
  · next i inside =>
      cases stepped
      exact readJob_effect fun empty => ⟨_, inside, by rw [Placed, empty]; exact nofun⟩
  · next f i p inside =>
      exact lock_effect stepped inside (fun placed => placed) (under_effect inside)
  · next i p inside =>
      exact lock_effect stepped inside (fun placed => placed) fun _ =>
        waitLoop_effect inside fun empty placed => nomatch empty.symm.trans placed
  · next i inside =>
      split at stepped
      · cases stepped
      · cases stepped
        exact release_effect inside
  · next i p inside =>
      cases stepped
      exact unlock_effect inside

theorem initAction_effect {e : Event τ} (stepped : s.initAction = some t) : Effect s e t := by
  unfold Sys.initAction at stepped
  split at stepped
  · cases stepped
    exact .pass _
  · next i _ =>
      split at stepped
      · split at stepped
        · cases stepped
          exact .pass _
        · next p listed =>
            split at stepped
            · next freed =>
                cases stepped
                exact .fault (.inr ⟨_, p, listed, freed⟩)
            · next j alive =>
                have found := deref_eq_some.mpr ⟨listed, alive⟩
                split at stepped
                · cases stepped
                · dsimp only at stepped
                  split at stepped
                  · next ended =>
                      cases stepped
                      exact .ends _ p j _ found ended.1 ended.2
                  · next early =>
                      cases stepped
                      exact .count _ p j _ found fun running =>
                        (tick_running running).resolve_right fun ended => early ⟨running, ended⟩
      · cases stepped
        exact .pass _

/-- The one place where the sections are taken apart. -/
theorem step_effect (stepped : s.step e = some t) : Effect s e t := by
  unfold Sys.step at stepped
  split at stepped
  · cases stepped
  · cases e with
    | addjob thread sec isRepeat mem =>
        simp only [Sys.act] at stepped
        split at stepped
        · cases stepped
        · split at stepped
          · split at stepped
            · cases stepped
            · rw [Option.some.injEq] at stepped
              rw [← stepped]
              exact .create thread _
          · cases stepped
            exact .ret thread _
    | canceljob thread id =>
        simp only [Sys.act] at stepped
        split at stepped
        · cases stepped
        · exact atCanceljob_effect stepped
    | waitjob thread id =>
        simp only [Sys.act] at stepped
        split at stepped
        · cases stepped
        · cases stepped
          exact atWaitjob_effect
    | stopjob thread id =>
        simp only [Sys.act] at stepped
        split at stepped
        · cases stepped
        · split at stepped
          · next outside =>
              cases stepped
              exact .fault (.inl (by rw [Stray, Sys.find, outside]; rfl))
          · next i named =>
              cases stepped
              exact readJob_begins named fun lost => lost
    | resumejob thread id =>
        simp only [Sys.act] at stepped
        split at stepped
        · cases stepped
        · split at stepped
          · next outside =>
              cases stepped
              exact .fault (.inl (by rw [Stray, Sys.find, outside]; rfl))
          · next i named =>
              cases stepped
              exact readJob_begins named fun lost => lost
    | next thread => exact next_effect stepped
    | tick => exact initAction_effect stepped

/-! ## The table -/

/-- The table lists jobs that are not freed, each in one slot, and nothing is
freed twice. -/
structure Table (s : Sys τ) : Prop where
  listed : ∀ i p, s.job i = some p → p ∉ s.frees ∧ (s.obj p).isSome
  apart : ∀ i x p, s.job i = some p → s.job x = some p → i = x
  born : ∀ p, (s.obj p).isSome → p < s.born
  freed : ∀ p ∈ s.frees, p < s.born
  once : s.frees.Nodup

omit [DecidableEq τ] in
theorem Table.keep (table : Table s) (job : t.job = s.job) (frees : t.frees = s.frees)
    (born : t.born = s.born) (obj : ∀ p, (t.obj p).isSome = (s.obj p).isSome) : Table t where
  listed i p at_ := by
    rw [obj, frees]
    rw [job] at at_
    exact table.listed i p at_
  apart i x p at_ at' := by
    rw [job] at at_ at'
    exact table.apart i x p at_ at'
  born p used := by
    rw [obj] at used
    rw [born]
    exact table.born p used
  freed p freed := by
    rw [frees] at freed
    rw [born]
    exact table.freed p freed
  once := frees ▸ table.once

omit [DecidableEq τ] in
theorem Table.not_dangling (table : Table s) : ¬ Dangling s := by
  rintro ⟨i, p, at_, freed⟩
  obtain ⟨alive, used⟩ := table.listed i p at_
  unfold Sys.live at freed
  rw [if_neg alive] at freed
  rw [freed] at used
  cases used

omit [DecidableEq τ] in
theorem obj_of_deref (found : s.deref i = some (p, j)) : s.obj p = some j := by
  have alive := (deref_eq_some.mp found).2
  unfold Sys.live at alive
  split at alive
  · cases alive
  · exact alive

section change

variable (s) (p) (j j' : Job)

omit [DecidableEq τ]

@[simp] theorem change_job : (s.change p j j').job = s.job := by
  unfold Sys.change
  dsimp only
  split <;> rfl

@[simp] theorem change_frees : (s.change p j j').frees = s.frees := by
  unfold Sys.change
  dsimp only
  split <;> rfl

@[simp] theorem change_born : (s.change p j j').born = s.born := by
  unfold Sys.change
  dsimp only
  split <;> rfl

@[simp] theorem change_calls : (s.change p j j').calls = s.calls := by
  unfold Sys.change
  dsimp only
  split <;> rfl

@[simp] theorem change_broken : (s.change p j j').broken = s.broken := by
  unfold Sys.change
  dsimp only
  split <;> rfl

theorem change_obj : (s.change p j j').obj = Function.update s.obj p (some j') := by
  unfold Sys.change
  dsimp only
  split <;> rfl

end change

omit [DecidableEq τ] in
theorem change_isSome (found : s.deref i = some (p, j)) (j' : Job) (q : Nat) :
    ((s.change p j j').obj q).isSome = (s.obj q).isSome := by
  rw [change_obj]
  by_cases same : q = p
  · rw [same, Function.update_self, obj_of_deref found]
    rfl
  · rw [Function.update_of_ne same]

theorem getFreePosUnlock_none {job : Slot → Option Nat} (free : getFreePosUnlock job = some i) :
    job i = none := by
  simpa using List.find?_some free

theorem Table.create (table : Table s) (thread : τ) (me : Job) :
    Table (s.atAddjob thread me) := by
  have older : ∀ p, (s.obj p).isSome → p ≠ s.born := fun p used =>
    Nat.ne_of_lt (table.born p used)
  have unfreed : s.born ∉ s.frees := fun freed => Nat.lt_irrefl _ (table.freed _ freed)
  have obj : ∀ p, (Function.update s.obj s.born (some me) p).isSome → p < s.born + 1 := by
    intro p used
    by_cases same : p = s.born
    · omega
    · rw [Function.update_of_ne same] at used
      exact Nat.lt_succ_of_lt (table.born p used)
  have kept : ∀ p, (s.obj p).isSome → (Function.update s.obj s.born (some me) p).isSome := by
    intro p used
    rw [Function.update_of_ne (older p used)]
    exact used
  unfold Sys.atAddjob
  dsimp only
  split
  · refine ⟨fun i p at_ => ?_, table.apart, obj, fun p freed => ?_, ?_⟩
    · obtain ⟨alive, used⟩ := table.listed i p at_
      refine ⟨fun freed => ?_, kept p used⟩
      rcases List.mem_append.mp freed with before | new
      · exact alive before
      · exact older p used (List.mem_singleton.mp new)
    · rcases List.mem_append.mp freed with before | new
      · exact Nat.lt_succ_of_lt (table.freed p before)
      · rw [List.mem_singleton.mp new]
        exact Nat.lt_succ_self _
    · exact List.nodup_append.mpr ⟨table.once, List.nodup_singleton _, fun p before q new same => by
        rw [same, List.mem_singleton.mp new] at before
        exact unfreed before⟩
  · next pos free =>
      have empty := getFreePosUnlock_none free
      have slots : ∀ i p, Function.update s.job pos (some s.born) i = some p →
          i = pos ∧ s.born = p ∨ i ≠ pos ∧ s.job i = some p := fun i p => update_some_eq_some.mp
      refine ⟨fun i p at_ => ?_, fun i x p at_ at' => ?_, obj,
        fun p freed => Nat.lt_succ_of_lt (table.freed p freed), table.once⟩
      · rcases slots i p at_ with ⟨-, rfl⟩ | ⟨-, at_⟩
        · refine ⟨unfreed, ?_⟩
          show (Function.update s.obj s.born (some me) s.born).isSome
          rw [Function.update_self]
          rfl
        · obtain ⟨alive, used⟩ := table.listed i p at_
          exact ⟨alive, kept p used⟩
      · rcases slots i p at_ with ⟨rfl, rfl⟩ | ⟨-, at_⟩
        · rcases slots x s.born at' with ⟨rfl, -⟩ | ⟨-, at'⟩
          · rfl
          · exact absurd rfl (older _ (table.listed x _ at').2)
        · rcases slots x p at' with ⟨-, rfl⟩ | ⟨-, at'⟩
          · exact absurd rfl (older _ (table.listed i _ at_).2)
          · exact table.apart i x p at_ at'

theorem Table.release (table : Table s) (found : s.deref i = some (p, j)) (result : Option Int) :
    Table ({ s with
      frees := s.frees ++ [p]
      job := Function.update s.job i none }.ret thread result) := by
  obtain ⟨at_, -⟩ := deref_eq_some.mp found
  obtain ⟨alive, used⟩ := table.listed i p at_
  have slots : ∀ x q, Function.update s.job i none x = some q → x ≠ i ∧ s.job x = some q :=
    fun x q => update_none_eq_some.mp
  refine ⟨fun x q at' => ?_, fun x y q at' at'' =>
    table.apart x y q (slots x q at').2 (slots y q at'').2, table.born, fun q freed => ?_, ?_⟩
  · obtain ⟨ne, at'⟩ := slots x q at'
    obtain ⟨alive', used'⟩ := table.listed x q at'
    refine ⟨fun freed => ?_, used'⟩
    rcases List.mem_append.mp freed with before | new
    · exact alive' before
    · rw [List.mem_singleton.mp new] at at'
      exact ne (table.apart x i p at' at_)
  · rcases List.mem_append.mp freed with before | new
    · exact table.freed q before
    · rw [List.mem_singleton.mp new]
      exact table.born p used
  · exact List.nodup_append.mpr ⟨table.once, List.nodup_singleton _, fun q before r new same => by
      rw [same, List.mem_singleton.mp new] at before
      exact alive before⟩

theorem Table.effect (table : Table s) (effect : Effect s e t) : Table t := by
  cases effect with
  | fault why => exact table.keep rfl rfl rfl fun _ => rfl
  | ret thread result => exact table.keep rfl rfl rfl fun _ => rfl
  | enter thread c placed awake => exact table.keep rfl rfl rfl fun _ => rfl
  | wait thread i p j found running => exact table.keep rfl rfl rfl fun _ => rfl
  | change thread i p j j' result found leaves =>
      exact table.keep (change_job s p j j') (change_frees s p j j') (change_born s p j j')
        (change_isSome found j')
  | lock thread i p listed => exact table.keep rfl rfl rfl fun _ => rfl
  | unlock thread p result => exact table.keep rfl rfl rfl fun _ => rfl
  | create thread me => exact table.create thread me
  | release thread i p j inside found ended => exact table.release found _
  | pass pass => exact table.keep rfl rfl rfl fun _ => rfl
  | count i p j pass found runs =>
      exact table.keep (change_job s p j j.tick.1) (change_frees s p j j.tick.1)
        (change_born s p j j.tick.1) (change_isSome found j.tick.1)
  | ends i p j pass found running ended =>
      exact table.keep (change_job s p j j.tick.1) (change_frees s p j j.tick.1)
        (change_born s p j j.tick.1) (change_isSome found j.tick.1)

omit [DecidableEq τ] in
theorem start_table : Table (Sys.start (τ := τ)) where
  listed _ _ at_ := nomatch at_
  apart _ _ _ at_ := nomatch at_
  born _ used := nomatch used
  freed _ freed := nomatch freed
  once := List.nodup_nil

end Shang.Anytimer.Threads
