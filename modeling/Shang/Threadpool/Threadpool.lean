import Shang.Lib.DList
import Shang.Lib.Run
import Shang.Lib.Tally
import Shang.Lib.Update
import Mathlib.Data.Multiset.Basic

/-!
# The thread pool

`32.threadpool.c`: jobs come in at the head of a doubly linked queue and are taken at its
tail, under a mutex; a semaphore counts them. `tp_destroy` clears a flag and joins the
threads. The nodes live in memory that `malloc` gives out and `free` takes back. A step is
one step of one thread; a thread that waits has none.

A thread that got through the semaphore finds a job (`Inv`), so that the branch for an empty
queue and the null pointers are never met. What this means for a run is in `PoolRuns`.
-/

namespace Shang.Threadpool

open Lib Function

/-- The address of a node; `NULL` is 0. -/
abbrev Ptr := Nat

variable {Job : Type} {n : Nat}

/-- Where a thread is in `tp_thread_func`. `skip` is the branch for `NULL == job_p`, `fault` a
null pointer that was followed. Behind `tp_delete__lastjob` the thread has the job. -/
inductive Phase (Job : Type)
  | test
  | wait
  | check
  | lock
  | hold
  | skip
  | leave (jobP : Ptr) (job : Job)
  | work (jobP : Ptr) (job : Job)
  | fault
  | done
  deriving DecidableEq

/-- Who has the mutex. -/
inductive Holder (n : Nat)
  | producer
  | thread (t : Fin n)
  deriving DecidableEq

/-- The pool, the nodes, and where the threads are; `job` is `function` and `arg`. What came in
(`added`), what was taken and what was called is recorded in its order. -/
structure Pool (Job : Type) (n : Nat) where
  tpAlive : Bool
  queneSem : Nat
  mutex : Option (Holder n)
  head : Ptr
  tail : Ptr
  num : Int
  pre : Ptr → Ptr
  next : Ptr → Ptr
  job : Ptr → Option Job
  allocated : Ptr → Bool
  thread : Fin n → Phase Job
  added : List Job
  taken : List Job
  called : List Job

namespace Pool

/-- The number of threads that `tp_init` starts. -/
def threadsNum (threadNum : Int) : Nat := if threadNum < 1 then 1 else threadNum.toNat

/-- `tp_init` -/
def tpInit : Pool Job n where
  tpAlive := true
  queneSem := 0
  mutex := none
  head := 0
  tail := 0
  num := 0
  pre _ := 0
  next _ := 0
  job _ := none
  allocated _ := false
  thread _ := .test
  added := []
  taken := []
  called := []

def go (s : Pool Job n) (t : Fin n) (phase : Phase Job) : Pool Job n :=
  { s with thread := update s.thread t phase }

/-- `tp_job_quene_add`, with `sem_post` -/
def tpJobQueneAdd (s : Pool Job n) (newJob : Ptr) : Pool Job n :=
  let s := { s with pre := update s.pre newJob 0, next := update s.next newJob 0 }
  let oldHeadJob := s.head
  let s := if oldHeadJob = 0 then { s with head := newJob, tail := newJob }
    else { s with
      pre := update s.pre oldHeadJob newJob
      next := update s.next newJob oldHeadJob
      head := newJob }
  { s with num := s.num + 1, queneSem := s.queneSem + 1 }

/-- `tp_add_work` up to the unlock; `malloc` has returned `newJob`. -/
def tpAddWork (s : Pool Job n) (newJob : Ptr) (job : Job) : Option (Pool Job n) :=
  if s.mutex = none then
    let s := { s with
      mutex := some .producer
      job := update s.job newJob (some job)
      allocated := update s.allocated newJob true
      added := s.added ++ [job] }
    some (s.tpJobQueneAdd newJob)
  else none

/-- `tp_get_lastjob` -/
def tpGetLastjob (s : Pool Job n) : Ptr := s.tail

/-- `tp_delete__lastjob`, with the number it returns; `none` is a null pointer. -/
def tpDeleteLastjob (s : Pool Job n) : Option (Int × Pool Job n) :=
  let lastJob := s.tail
  if s.num = 0 then some (-1, s)
  else if s.num = 1 then some (0, { s with head := 0, tail := 0, num := s.num - 1 })
  else if s.pre lastJob = 0 then none
  else some (0, { s with
    next := update s.next (s.pre lastJob) 0, tail := s.pre lastJob, num := s.num - 1 })

/-- The loop of `tp_destroy` that frees the nodes; `none` is a pointer to no node. -/
def freeJobs (s : Pool Job n) : Nat → Option (Pool Job n)
  | 0 => none
  | fuel + 1 =>
      if s.num = 0 then some { s with head := 0, tail := 0 }
      else
        let currentJob := s.tail
        if s.allocated currentJob then
          { s with
            tail := s.pre currentJob
            allocated := update s.allocated currentJob false
            num := s.num - 1 }.freeJobs fuel
        else none

/-- The next step of the thread `t` in `tp_thread_func`. -/
def tpThreadFunc (s : Pool Job n) (t : Fin n) : Option (Pool Job n) :=
  match s.thread t with
  | .test => some (s.go t (if s.tpAlive then .wait else .done))
  | .wait =>
      if 0 < s.queneSem then some ({ s with queneSem := s.queneSem - 1 }.go t .check) else none
  | .check => some (s.go t (if s.tpAlive then .lock else .done))
  | .lock =>
      if s.mutex = none then some ({ s with mutex := some (.thread t) }.go t .hold) else none
  | .hold =>
      let jobP := s.tpGetLastjob
      if jobP = 0 then some (s.go t .skip)
      else match s.job jobP, s.tpDeleteLastjob with
        | some job, some (0, s) =>
            some ({ s with taken := s.taken ++ [job] }.go t (.leave jobP job))
        | some _, some (_, s) => some (s.go t .done)
        | _, _ => some (s.go t .fault)
  | .skip => some ({ s with mutex := none }.go t .test)
  | .leave jobP job => some ({ s with mutex := none }.go t (.work jobP job))
  | .work jobP job =>
      some ({ s with called := s.called ++ [job], allocated := update s.allocated jobP false }.go t
        .test)
  | .fault => none
  | .done => none

/-- What happens: a thread moves, a producer adds a job and unlocks, `tp_destroy` clears the
flag. -/
inductive Event (Job : Type) (n : Nat)
  | thread (t : Fin n)
  | add (newJob : Ptr) (job : Job)
  | unlock
  | destroy

def step (s : Pool Job n) : Event Job n → Option (Pool Job n)
  | .thread t => s.tpThreadFunc t
  | .add newJob job => s.tpAddWork newJob job
  | .unlock => if s.mutex = some .producer then some { s with mutex := none } else none
  | .destroy => some { s with tpAlive := false }

/-- `malloc` returns memory that is not in use. -/
def Allowed (s : Pool Job n) : Event Job n → Prop
  | .add newJob _ => newJob ≠ 0 ∧ s.allocated newJob = false
  | _ => True

instance (s : Pool Job n) : DecidablePred s.Allowed
  | .add _ _ => inferInstanceAs (Decidable (_ ∧ _))
  | .thread _ | .unlock | .destroy => inferInstanceAs (Decidable True)

/-! ## The invariant -/

/-- The thread has been let through the semaphore, and has taken no job yet. -/
def claims : Phase Job → Nat
  | .check | .lock | .hold => 1
  | _ => 0

/-- The thread is between its lock and its unlock. -/
def Locks : Phase Job → Prop
  | .hold | .skip | .leave _ _ => True
  | _ => False

/-- The node that the thread will free, with its job. -/
def held : Phase Job → Option (Ptr × Job)
  | .leave jobP job | .work jobP job => some (jobP, job)
  | _ => none

/-- The job that the thread has taken and not called yet. -/
def jobs (phase : Phase Job) : Multiset Job := ((held phase).map Prod.snd).elim 0 fun job => {job}

/-- The queue holds the nodes `q`, from the head to the tail. -/
structure Queue (s : Pool Job n) (q : List Ptr) : Prop where
  seg : Seg s.next s.pre 0 q 0
  nodup : q.Nodup
  null : 0 ∉ q
  head : s.head = q.headD 0
  tail : s.tail = q.getLastD 0
  num : s.num = q.length

/-- What a queue is made of. -/
def links (s : Pool Job n) : (Ptr → Ptr) × (Ptr → Ptr) × Ptr × Ptr × Int :=
  (s.next, s.pre, s.head, s.tail, s.num)

theorem Queue.congr {s u : Pool Job n} {q : List Ptr} (h : s.Queue q) (same : u.links = s.links) :
    u.Queue q := by
  simp only [links, Prod.mk.injEq] at same
  obtain ⟨next, pre, head, tail, num⟩ := same
  exact ⟨next ▸ pre ▸ h.seg, h.nodup, h.null, head.trans h.head, tail.trans h.tail,
    num.trans h.num⟩

/-- The jobs of the nodes, the oldest first. -/
def waiting (s : Pool Job n) (q : List Ptr) : List (Option Job) := q.reverse.map s.job

/-- What holds in every state. The semaphore counts the jobs that no thread has a claim to; a
thread that ends behind its claim leaves its job. -/
structure Inv (s : Pool Job n) (q : List Ptr) : Prop where
  queue : s.Queue q
  memory : ∀ p ∈ q, s.allocated p = true
  own : ∀ t p job, held (s.thread t) = some (p, job) → s.allocated p = true ∧ p ∉ q ∧
    ∀ u job', held (s.thread u) = some (p, job') → u = t
  known : ∀ p, s.allocated p = true → p ∈ q ∨ ∃ t job, held (s.thread t) = some (p, job)
  mutex : ∀ t, Locks (s.thread t) ↔ s.mutex = some (.thread t)
  sound : ∀ t, s.thread t ≠ .skip ∧ s.thread t ≠ .fault
  tokens : s.queneSem + tally claims s.thread ≤ q.length
  alive : s.tpAlive = true → s.queneSem + tally claims s.thread = q.length ∧
    ∀ t, s.thread t ≠ .done
  fifo : s.taken.map some ++ s.waiting q = s.added.map some
  called : (s.taken : Multiset Job) = s.called + tally jobs s.thread

theorem inv_init : (tpInit : Pool Job n).Inv [] where
  queue := ⟨trivial, List.nodup_nil, List.not_mem_nil, rfl, rfl, rfl⟩
  memory := nofun
  own := nofun
  known := nofun
  mutex t := by simp [tpInit, Locks]
  sound t := by simp [tpInit]
  tokens := by simp [tpInit, tally_const, claims]
  alive _ := by simp [tpInit, tally_const, claims]
  fifo := rfl
  called := by simp [tpInit, tally_const, jobs, held]

/-! ## Moves of a thread -/

variable {s s' : Pool Job n} {q : List Ptr} {t u : Fin n} {phase : Phase Job}

/-- A thread that takes no job moves on, by the semaphore or the mutex. -/
theorem Inv.quiet (h : s.Inv q) {mutex : Option (Holder n)} {queneSem : Nat}
    (same : held phase = held (s.thread t)) (sound : phase ≠ .skip ∧ phase ≠ .fault)
    (locks : ∀ u, Locks (update s.thread t phase u) ↔ mutex = some (.thread u))
    (tokens : queneSem + claims phase ≤ s.queneSem + claims (s.thread t))
    (alive : s.tpAlive = true →
      queneSem + claims phase = s.queneSem + claims (s.thread t) ∧ phase ≠ .done) :
    ({ s with mutex := mutex, queneSem := queneSem }.go t phase).Inv q where
  queue := h.queue.congr rfl
  memory := h.memory
  own u p job here := by
    have heldEq : ∀ u, held (update s.thread t phase u) = held (s.thread u) :=
      fun u => apply_update_of_eq held same
    simp only [go, heldEq] at here ⊢
    exact h.own u p job here
  known p inUse := by
    refine (h.known p inUse).imp_right fun ⟨u, job, here⟩ => ⟨u, job, ?_⟩
    exact (apply_update_of_eq held same).trans here
  mutex := locks
  sound u := by
    simp only [go]
    rw [update_apply]
    split
    · exact sound
    · exact h.sound u
  tokens := by
    have moved := tally_update claims s.thread t phase
    have before := h.tokens
    simp only [go]
    omega
  alive living := by
    have moved := tally_update claims s.thread t phase
    obtain ⟨before, running⟩ := h.alive living
    obtain ⟨counted, goesOn⟩ := alive living
    refine ⟨by simp only [go]; omega, fun u => ?_⟩
    simp only [go]
    rw [update_apply]
    split
    · exact goesOn
    · exact running u
  fifo := h.fifo
  called := by
    have jobsSame : tally jobs (update s.thread t phase) = tally jobs s.thread :=
      tally_update_same (by simp only [jobs, same])
    simp only [go, jobsSame]
    exact h.called

/-- The mutex stays with who has it. -/
theorem Inv.locks_of_iff (h : s.Inv q) (same : Locks phase ↔ Locks (s.thread t)) (u : Fin n) :
    Locks (update s.thread t phase u) ↔ s.mutex = some (.thread u) := by
  rw [update_apply]
  split
  · next here => rw [same, here, h.mutex]
  · exact h.mutex u

theorem Inv.test (h : s.Inv q) (here : s.thread t = .test) :
    (s.go t (if s.tpAlive then .wait else .done)).Inv q := by
  cases living : s.tpAlive with
  | true =>
      refine h.quiet (by simp [here, held]) (by simp) (h.locks_of_iff (by simp [here, Locks]))
        (by simp [here, claims]) fun _ => ⟨by simp [here, claims], by simp⟩
  | false =>
      refine h.quiet (by simp [here, held]) (by simp) (h.locks_of_iff (by simp [here, Locks]))
        (by simp [here, claims]) fun alive => ?_
      rw [living] at alive
      cases alive

theorem Inv.wait (h : s.Inv q) (here : s.thread t = .wait) (posted : 0 < s.queneSem) :
    ({ s with queneSem := s.queneSem - 1 }.go t .check).Inv q := by
  have counted : s.queneSem - 1 + claims (.check : Phase Job) =
      s.queneSem + claims (s.thread t) := by
    rw [here]
    simp only [claims]
    omega
  exact h.quiet (by simp [here, held]) (by simp) (h.locks_of_iff (by simp [here, Locks])) counted.le
    fun _ => ⟨counted, by simp⟩

theorem Inv.check (h : s.Inv q) (here : s.thread t = .check) :
    (s.go t (if s.tpAlive then .lock else .done)).Inv q := by
  cases living : s.tpAlive with
  | true =>
      refine h.quiet (by simp [here, held]) (by simp) (h.locks_of_iff (by simp [here, Locks]))
        (by simp [here, claims]) fun _ => ⟨by simp [here, claims], by simp⟩
  | false =>
      refine h.quiet (by simp [here, held]) (by simp) (h.locks_of_iff (by simp [here, Locks]))
        (by simp [here, claims]) fun alive => ?_
      rw [living] at alive
      cases alive

theorem Inv.lock (h : s.Inv q) (here : s.thread t = .lock) (free : s.mutex = none) :
    ({ s with mutex := some (.thread t) }.go t .hold).Inv q := by
  refine h.quiet (by simp [here, held]) (by simp) (fun u => ?_) (by simp [here, claims])
    fun _ => ⟨by simp [here, claims], by simp⟩
  rw [update_apply]
  split
  · next same => simp [same, Locks]
  · next other =>
    rw [h.mutex u, free]
    simp [Ne.symm other]

theorem Inv.leave (h : s.Inv q) {jobP : Ptr} {job : Job} (here : s.thread t = .leave jobP job) :
    ({ s with mutex := none }.go t (.work jobP job)).Inv q := by
  have mine : s.mutex = some (.thread t) := (h.mutex t).mp (by rw [here]; trivial)
  refine h.quiet (by simp [here, held]) (by simp) (fun u => ?_) (by simp [here, claims])
    fun _ => ⟨by simp [here, claims], by simp⟩
  rw [update_apply]
  split
  · simp [Locks]
  · next other =>
    rw [h.mutex u, mine]
    simp [Ne.symm other]

/-! ## The queue -/

/-- A node goes in at the head. -/
theorem Queue.add {p : Ptr} (h : s.Queue q) (fresh : p ∉ q) (some_ : p ≠ 0) :
    (s.tpJobQueneAdd p).Queue (p :: q) := by
  have seg : Seg (update s.next p 0) (update s.pre p 0) 0 q 0 :=
    (h.seg.setNext_off fresh).setPrev_off fresh
  have unique := List.nodup_cons.mpr ⟨fresh, h.nodup⟩
  have null : 0 ∉ p :: q := List.not_mem_cons_of_ne_of_not_mem some_.symm h.null
  cases q with
  | nil =>
      have empty : s.head = 0 := h.head
      refine ⟨?_, unique, null, ?_, ?_, ?_⟩
      · simp [tpJobQueneAdd, empty, seg_cons]
      · simp [tpJobQueneAdd, empty]
      · simp [tpJobQueneAdd, empty]
      · simp [tpJobQueneAdd, empty, h.num]
  | cons first rest =>
      have head : s.head = first := h.head
      have other : first ≠ 0 := fun zero => h.null (by simp [zero])
      refine ⟨?_, unique, null, ?_, ?_, ?_⟩
      · simp only [tpJobQueneAdd, head, if_neg other]
        exact seg.insert_first h.nodup fresh (update_self _ _ _)
      · simp [tpJobQueneAdd, head, other]
      · simp only [tpJobQueneAdd, head, if_neg other]
        rw [h.tail]
        simp
      · simp [tpJobQueneAdd, head, other, h.num]

/-- The last node comes out. -/
theorem Queue.delete {p : Ptr} (h : s.Queue (q ++ [p])) :
    ∃ next head tail num, s.tpDeleteLastjob =
        some (0, { s with next := next, head := head, tail := tail, num := num }) ∧
      Queue { s with next := next, head := head, tail := tail, num := num } q := by
  have num : s.num = q.length + 1 := by simpa using h.num
  have nodup := (List.nodup_append'.mp h.nodup).1
  have null : 0 ∉ q := fun mem => h.null (List.mem_append_left _ mem)
  have last : s.tail = p := by simpa using h.tail
  rw [tpDeleteLastjob, if_neg (by omega)]
  rcases List.eq_nil_or_concat q with rfl | ⟨q, r, rfl⟩
  · rw [if_pos (by simpa using num)]
    exact ⟨s.next, 0, 0, _, rfl, trivial, nodup, null, rfl, rfl, by simp [num]⟩
  · rw [List.concat_eq_append] at h num nodup null ⊢
    have before : s.pre p = r := by simpa using h.seg.prev_eq
    have some_ : s.pre s.tail ≠ 0 := by
      rw [last, before]
      exact fun zero => null (by simp [← zero])
    rw [if_neg (by simp at num; omega), if_neg some_]
    refine ⟨_, _, _, _, rfl, ?_, nodup, null, ?_, ?_, ?_⟩
    · rw [last, before]
      exact h.seg.remove_last h.nodup
    · have head := h.head
      rw [headD_append] at head
      rw [head]
      cases q <;> rfl
    · simp [last, before]
    · simp [num]

/-! ## The jobs -/

/-- A thread with a claim finds a job. -/
theorem Inv.claimed (h : s.Inv q) (claim : claims (s.thread t) = 1) :
    ∃ q' p job, q = q' ++ [p] ∧ s.tail = p ∧ p ≠ 0 ∧ s.job p = some job ∧
      s.waiting q = some job :: s.waiting q' := by
  have moved := tally_update claims s.thread t .test
  have tokens := h.tokens
  have some_ : q ≠ [] := by
    rintro rfl
    rw [claim, show claims (.test : Phase Job) = 0 from rfl] at moved
    rw [List.length_nil] at tokens
    omega
  obtain ⟨q', p, rfl⟩ := (List.eq_nil_or_concat q).resolve_left some_
  rw [List.concat_eq_append] at *
  have first : s.waiting (q' ++ [p]) = s.job p :: s.waiting q' := by simp [waiting]
  have known : s.job p ∈ s.added.map some := by
    rw [← h.fifo, first]
    simp
  obtain ⟨job, _, same⟩ := List.mem_map.mp known
  refine ⟨q', p, job, rfl, by simpa using h.queue.tail, fun zero => h.queue.null (by simp [zero]),
    same.symm, ?_⟩
  rw [first, same]

theorem jobs_some {jobP : Ptr} {job : Job} (here : held phase = some (jobP, job)) :
    jobs phase = {job} := by
  simp [jobs, here]

theorem jobs_none (here : held phase = none) : jobs phase = 0 := by
  simp [jobs, here]

/-- A thread takes the oldest job. -/
theorem Inv.take (h : s.Inv q) (here : s.thread t = .hold) :
    ∃ u q' job, s.tpThreadFunc t = some u ∧ u.Inv q' ∧
      u.thread = update s.thread t (.leave s.tail job) ∧ u.queneSem = s.queneSem ∧
      u.mutex = s.mutex ∧ u.tpAlive = s.tpAlive ∧ u.added = s.added := by
  obtain ⟨q', p, job, rfl, tail, some_, known, first⟩ := h.claimed (t := t) (by rw [here]; rfl)
  obtain ⟨next, head, last, num, ran, queue⟩ := h.queue.delete
  have moved := tally_update claims s.thread t (.leave p job)
  have movedJobs := tally_update jobs s.thread t (.leave p job)
  rw [here, show claims (.hold : Phase Job) = 1 from rfl,
    show claims (.leave p job : Phase Job) = 0 from rfl] at moved
  rw [here, jobs_none (show held (.hold : Phase Job) = none from rfl),
    jobs_some (show held (.leave p job : Phase Job) = some (p, job) from rfl),
    add_zero] at movedJobs
  have size : (q' ++ [p]).length = q'.length + 1 := by simp
  have apart : ∀ x ∈ q', x ≠ p := by
    rintro x mem rfl
    exact (List.nodup_append'.mp h.queue.nodup).2.2 mem (List.mem_singleton_self x)
  refine ⟨go { s with
    next := next, head := head, tail := last, num := num, taken := s.taken ++ [job] }
      t (.leave p job), q', job, ?_, ?_, ?_, rfl, rfl, rfl, rfl⟩
  · simp only [tpThreadFunc, here, tpGetLastjob, tail, if_neg some_, known, ran]
  · refine ⟨queue.congr rfl, fun x mem => h.memory x (List.mem_append_left _ mem),
      fun u x j holds => ?_, fun x inUse => ?_, fun u => ?_, fun u => ?_, ?_,
      fun living => ⟨?_, fun u => ?_⟩, ?_, ?_⟩
    · rcases eq_or_ne u t with rfl | other
      · simp only [go, update_self, held, Option.some.injEq, Prod.mk.injEq] at holds
        obtain ⟨rfl, rfl⟩ := holds
        refine ⟨h.memory _ (by simp), fun mem => apart _ mem rfl, fun v j' holds => ?_⟩
        by_contra ne
        simp only [go, update_of_ne ne] at holds
        exact (h.own v _ _ holds).2.1 (by simp)
      · simp only [go, update_of_ne other] at holds
        obtain ⟨memory, off, only⟩ := h.own u x j holds
        refine ⟨memory, fun mem => off (List.mem_append_left _ mem), fun v j' holds' => ?_⟩
        rcases eq_or_ne v t with rfl | ne
        · simp only [go, update_self, held, Option.some.injEq, Prod.mk.injEq] at holds'
          exact absurd (List.mem_append_right _ (by simp [holds'.1])) off
        · simp only [go, update_of_ne ne] at holds'
          exact only v j' holds'
    · rcases h.known x inUse with mem | ⟨u, j, holds⟩
      · rcases List.mem_append.mp mem with mem | last
        · exact .inl mem
        · refine .inr ⟨t, job, ?_⟩
          simp [go, held, List.mem_singleton.mp last]
      · have other : u ≠ t := by
          rintro rfl
          rw [here] at holds
          cases holds
        exact .inr ⟨u, j, by simpa [go, update_of_ne other] using holds⟩
    · exact h.locks_of_iff (by simp [here, Locks]) u
    · simp only [go]
      rw [update_apply]
      split
      · simp
      · exact h.sound u
    · have tokens := h.tokens
      simp only [go]
      omega
    · have tokens := (h.alive living).1
      simp only [go]
      omega
    · simp only [go]
      rw [update_apply]
      split
      · simp
      · exact (h.alive living).2 u
    · have fifo := h.fifo
      rw [first] at fifo
      simp only [go, List.map_append, List.map_cons, List.map_nil, List.append_assoc,
        List.singleton_append]
      exact fifo
    · simp only [go, movedJobs]
      rw [← add_assoc, ← h.called]
      rfl
  · simp only [go, tail]

/-- A thread has called its job, and frees the node. -/
theorem Inv.work (h : s.Inv q) {p : Ptr} {job : Job} (here : s.thread t = .work p job) :
    ({ s with called := s.called ++ [job], allocated := update s.allocated p false }.go t
      .test).Inv q := by
  have mine : held (s.thread t) = some (p, job) := by rw [here]; rfl
  obtain ⟨_, off, only⟩ := h.own t p job mine
  have claimsSame : tally claims (update s.thread t .test) = tally claims s.thread :=
    tally_update_same (by rw [here]; rfl)
  have movedJobs := tally_update jobs s.thread t .test
  rw [jobs_some mine, jobs_none (show held (.test : Phase Job) = none from rfl), add_zero]
    at movedJobs
  refine ⟨h.queue.congr rfl, fun x mem => ?_, fun u x j holds => ?_, fun x inUse => ?_,
    h.locks_of_iff (by simp [here, Locks]), fun u => ?_, ?_, fun living => ⟨?_, fun u => ?_⟩,
    h.fifo, ?_⟩
  · simp only [go, update_of_ne (ne_of_mem_of_not_mem mem off)]
    exact h.memory x mem
  · have other : u ≠ t := by
      rintro rfl
      simp [go, held] at holds
    simp only [go, update_of_ne other] at holds
    obtain ⟨memory, offX, onlyX⟩ := h.own u x j holds
    have apart : x ≠ p := by
      rintro rfl
      exact other (only u j holds)
    refine ⟨by simpa [go, update_of_ne apart] using memory, offX, fun v j' holds' => ?_⟩
    have ne : v ≠ t := by
      rintro rfl
      simp [go, held] at holds'
    simp only [go, update_of_ne ne] at holds'
    exact onlyX v j' holds'
  · have apart : x ≠ p := by
      rintro rfl
      simp [go] at inUse
    simp only [go, update_of_ne apart] at inUse
    refine (h.known x inUse).imp_right fun ⟨u, j, holds⟩ => ⟨u, j, ?_⟩
    have other : u ≠ t := by
      rintro rfl
      rw [mine, Option.some.injEq, Prod.mk.injEq] at holds
      exact apart holds.1.symm
    simpa [go, update_of_ne other] using holds
  · simp only [go]
    rw [update_apply]
    split
    · simp
    · exact h.sound u
  · simp only [go, claimsSame]
    exact h.tokens
  · simp only [go, claimsSame]
    exact (h.alive living).1
  · simp only [go]
    rw [update_apply]
    split
    · simp
    · exact (h.alive living).2 u
  · have called := h.called
    rw [← movedJobs] at called
    simp only [go, called, ← Multiset.coe_add, ← Multiset.coe_singleton]
    rw [add_assoc, add_comm _ (tally jobs _)]

/-- What `tp_job_quene_add` leaves alone. -/
theorem tpJobQueneAdd_frame (s : Pool Job n) (p : Ptr) : s.tpJobQueneAdd p = { s with
    pre := (s.tpJobQueneAdd p).pre, next := (s.tpJobQueneAdd p).next
    head := (s.tpJobQueneAdd p).head, tail := (s.tpJobQueneAdd p).tail
    num := s.num + 1, queneSem := s.queneSem + 1 } := by
  rw [tpJobQueneAdd]
  split
  · rfl
  · rfl

/-- A new job comes in. -/
theorem Inv.add (h : s.Inv q) {p : Ptr} (some_ : p ≠ 0) (unused : s.allocated p = false)
    (job : Job) (free : s.mutex = none) :
    ∃ u, s.tpAddWork p job = some u ∧ u.Inv (p :: q) := by
  have fresh : p ∉ q := fun mem => by simp [h.memory p mem] at unused
  rw [tpAddWork, if_pos free]
  refine ⟨_, rfl, ?_⟩
  generalize made : ({ s with
    mutex := some .producer, job := update s.job p (some job)
    allocated := update s.allocated p true, added := s.added ++ [job] } : Pool Job n) = m
  have queue : m.Queue q := by
    rw [← made]
    exact h.queue.congr rfl
  have after := queue.add fresh some_
  rw [tpJobQueneAdd_frame]
  rw [tpJobQueneAdd_frame] at after
  subst made
  refine ⟨after, fun x mem => ?_, fun u x j holds => ?_, fun x inUse => ?_, fun u => ?_, h.sound,
    ?_, fun living => ⟨?_, (h.alive living).2⟩, ?_, h.called⟩
  · rcases List.mem_cons.mp mem with rfl | mem
    · exact update_self _ _ _
    · exact (update_of_ne (ne_of_mem_of_not_mem mem fresh) _ _).trans (h.memory x mem)
  · obtain ⟨memory, off, only⟩ := h.own u x j holds
    have apart : x ≠ p := by
      rintro rfl
      rw [memory] at unused
      cases unused
    exact ⟨(update_of_ne apart _ _).trans memory, List.not_mem_cons_of_ne_of_not_mem apart off,
      only⟩
  · rcases eq_or_ne x p with rfl | apart
    · exact .inl List.mem_cons_self
    · simp only [update_of_ne apart] at inUse
      exact (h.known x inUse).imp_left (List.mem_cons_of_mem _)
  · rw [h.mutex u, free]
    simp
  · have tokens := h.tokens
    rw [List.length_cons]
    dsimp only
    omega
  · have tokens := (h.alive living).1
    rw [List.length_cons]
    dsimp only
    omega
  · have same : q.map (update s.job p (some job)) = q.map s.job :=
      List.map_congr_left fun x mem => update_of_ne (ne_of_mem_of_not_mem mem fresh) _ _
    have fifo := h.fifo
    rw [waiting, List.map_reverse] at fifo ⊢
    simp only [List.map_cons, update_self, same, List.reverse_cons, List.map_append, ← fifo,
      List.map_nil, List.append_assoc]

/-! ## Steps and runs -/

/-- What a step of a thread may be. -/
theorem Inv.thread (h : s.Inv q) (stepped : s.tpThreadFunc t = some s') : ∃ q', s'.Inv q' := by
  cases here : s.thread t with
  | test =>
      rw [tpThreadFunc, here] at stepped
      cases stepped
      exact ⟨q, h.test here⟩
  | wait =>
      simp only [tpThreadFunc, here] at stepped
      split at stepped
      · next posted =>
        cases stepped
        exact ⟨q, h.wait here posted⟩
      · cases stepped
  | check =>
      rw [tpThreadFunc, here] at stepped
      cases stepped
      exact ⟨q, h.check here⟩
  | lock =>
      simp only [tpThreadFunc, here] at stepped
      split at stepped
      · next free =>
        cases stepped
        exact ⟨q, h.lock here free⟩
      · cases stepped
  | hold =>
      obtain ⟨u, q', job, ran, inv, _⟩ := h.take here
      cases stepped.symm.trans ran
      exact ⟨q', inv⟩
  | skip => exact absurd here (h.sound t).1
  | leave jobP job =>
      rw [tpThreadFunc, here] at stepped
      cases stepped
      exact ⟨q, h.leave here⟩
  | work jobP job =>
      rw [tpThreadFunc, here] at stepped
      cases stepped
      exact ⟨q, h.work here⟩
  | fault => exact absurd here (h.sound t).2
  | done =>
      rw [tpThreadFunc, here] at stepped
      cases stepped

theorem inv_step {e : Event Job n} (h : s.Inv q) (allowed : s.Allowed e)
    (stepped : step s e = some s') : ∃ q', s'.Inv q' := by
  cases e with
  | thread t => exact h.thread stepped
  | add p job =>
      have free : s.mutex = none := by
        by_contra taken
        rw [step, tpAddWork, if_neg taken] at stepped
        cases stepped
      obtain ⟨u, ran, inv⟩ := h.add allowed.1 allowed.2 job free
      cases stepped.symm.trans ran
      exact ⟨_, inv⟩
  | unlock =>
      simp only [step] at stepped
      split at stepped
      · next producer =>
        cases stepped
        refine ⟨q, h.queue.congr rfl, h.memory, h.own, h.known, fun u => ?_, h.sound, h.tokens,
          h.alive, h.fifo, h.called⟩
        rw [h.mutex u, producer]
        simp
      · cases stepped
  | destroy =>
      cases stepped
      exact ⟨q, h.queue.congr rfl, h.memory, h.own, h.known, h.mutex, h.sound, h.tokens, nofun,
        h.fifo, h.called⟩

end Pool

end Shang.Threadpool
