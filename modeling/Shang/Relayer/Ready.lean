import Shang.Relayer.Epoll

/-!
# The epoll relayer copies when the kernel is ready

`thr_relayer` of `4.epoll/4.relayer_mt` chooses the machine to drive from the event,
while what the machine does depends on its own state. The two agree: an interest that
is registered when the relayer blocks is the one that belongs to the states of the
machines. A job that is stored after the first loop has passed its entry is never
registered, so that no event concerns it.
-/

namespace Shang.Relayer.Epoll

open Lib

/-- `driveIf`, with the calls that `fsm_driver` makes. -/
def callIf (concerned : Bool) (fsm : RelFsm) (answer : ReadResult × WriteResult) :
    Option (RelFsm × List Syscall) :=
  if concerned then fsmDriver fsm answer.1 answer.2 else some (fsm, [])

/-- `driveSlot`, with the calls made so far. -/
def callSlot (fd : Int) (ev : Events) (answers : Answers)
    (s : (Nat → Option RelJob) × List Syscall) (i : Nat) :
    Option ((Nat → Option RelJob) × List Syscall) :=
  match s.1 i with
  | some job =>
    if job.jobState = .running then do
      let (fsm12, calls12) ← callIf (fd = job.fd1 ∧ ev.epollin ∨ fd = job.fd2 ∧ ev.epollout)
        job.fsm12 (answers i).1
      let (fsm21, calls21) ← callIf (fd = job.fd2 ∧ ev.epollin ∨ fd = job.fd1 ∧ ev.epollout)
        job.fsm21 (answers i).2
      some (Function.update s.1 i (some { job with fsm12 := fsm12, fsm21 := fsm21 }),
        s.2 ++ calls12 ++ calls21)
    else some s
  | none => some s

/-- The loop behind `epoll_wait`, with the calls it makes. -/
def driveCalls (fd : Int) (ev : Events) (answers : Answers) (relJob : Nat → Option RelJob) :
    Option ((Nat → Option RelJob) × List Syscall) :=
  (List.range REL_JOBMAX).foldlM (callSlot fd ev answers) (relJob, [])

/-- The call is for what `epoll_wait` has reported of the descriptor. -/
def Ready (fd : Int) (ev : Events) : Syscall → Prop
  | .read fd' _ => fd' = fd ∧ ev.epollin
  | .write fd' _ _ => fd' = fd ∧ ev.epollout

variable {s t : World} {fd : Int} {ev : Events} {answers : Answers} {i j : Nat}
  {job job' : RelJob} {e : Event} {relJob : Nat → Option RelJob} {epoll : EpollSet}

/-! ## Calls and machines -/

theorem callIf_map {concerned : Bool} {fsm : RelFsm} {answer : ReadResult × WriteResult} :
    (callIf concerned fsm answer).map Prod.fst = driveIf concerned fsm answer := by
  unfold callIf driveIf
  split <;> rfl

theorem callSlot_map (p : (Nat → Option RelJob) × List Syscall) :
    (callSlot fd ev answers p i).map Prod.fst = driveSlot fd ev answers p.1 i := by
  unfold callSlot driveSlot
  cases p.1 i with
  | none => rfl
  | some job =>
      dsimp only
      split
      · rw [← callIf_map, ← callIf_map]
        cases callIf (fd = job.fd1 ∧ ev.epollin ∨ fd = job.fd2 ∧ ev.epollout) job.fsm12
          (answers i).1 with
        | none => rfl
        | some r =>
            cases callIf (fd = job.fd2 ∧ ev.epollin ∨ fd = job.fd1 ∧ ev.epollout) job.fsm21
              (answers i).2 <;> rfl
      · rfl

/-- The calls are those of `drive`. -/
theorem driveCalls_map (relJob : Nat → Option RelJob) :
    (driveCalls fd ev answers relJob).map Prod.fst = drive fd ev answers relJob := by
  have each (l : List Nat) (p : (Nat → Option RelJob) × List Syscall) :
      (l.foldlM (callSlot fd ev answers) p).map Prod.fst =
        l.foldlM (driveSlot fd ev answers) p.1 := by
    induction l generalizing p with
    | nil => rfl
    | cons i l ih =>
        rw [List.foldlM_cons, List.foldlM_cons, ← callSlot_map]
        cases callSlot fd ev answers p i with
        | none => rfl
        | some q => exact ih q
  exact each _ (relJob, [])

/-- The machines of the job copy between its descriptors, and are in states of the library. -/
structure RelJob.Sound (job : RelJob) : Prop where
  known12 : job.fsm12.state ≠ .stateAuto
  known21 : job.fsm21.state ≠ .stateAuto
  sfd12 : job.fsm12.sfd = job.fd1
  dfd12 : job.fsm12.dfd = job.fd2
  sfd21 : job.fsm21.sfd = job.fd2
  dfd21 : job.fsm21.dfd = job.fd1

/-- The event is one that the machines of the job wait for, if it concerns the job. -/
structure RelJob.Awaits (job : RelJob) (fd : Int) (ev : Events) : Prop where
  in1 : fd = job.fd1 → ev.epollin → job.fsm12.state = .stateR
  out1 : fd = job.fd1 → ev.epollout → job.fsm21.state = .stateW
  in2 : fd = job.fd2 → ev.epollin → job.fsm21.state = .stateR
  out2 : fd = job.fd2 → ev.epollout → job.fsm12.state = .stateW

/-- The machine has gone on, between the same descriptors. -/
structure Onward (fsm fsm' : RelFsm) : Prop where
  known : fsm'.state ≠ .stateAuto
  sfd : fsm'.sfd = fsm.sfd
  dfd : fsm'.dfd = fsm.dfd

/-- A job that `rel_addjob` has prepared. -/
theorem RelJob.Sound.of_addjob {raw12 raw21 : RelFsm}
    (one : job.fsm12 = relAddjobFsm raw12 job.fd1 job.fd2)
    (two : job.fsm21 = relAddjobFsm raw21 job.fd2 job.fd1) : job.Sound where
  known12 := by simp [one, relAddjobFsm]
  known21 := by simp [two, relAddjobFsm]
  sfd12 := by rw [one]; rfl
  dfd12 := by rw [one]; rfl
  sfd21 := by rw [two]; rfl
  dfd21 := by rw [two]; rfl

theorem RelJob.Sound.onward {fsm12 fsm21 : RelFsm} (sound : job.Sound)
    (one : Onward job.fsm12 fsm12) (two : Onward job.fsm21 fsm21) :
    RelJob.Sound { job with fsm12 := fsm12, fsm21 := fsm21 } where
  known12 := one.known
  known21 := two.known
  sfd12 := one.sfd.trans sound.sfd12
  dfd12 := one.dfd.trans sound.dfd12
  sfd21 := two.sfd.trans sound.sfd21
  dfd21 := two.dfd.trans sound.dfd21

theorem exists_callIf (concerned : Bool) {fsm : RelFsm} (known : fsm.state ≠ .stateAuto)
    (answer : ReadResult × WriteResult)
    (ready : concerned = true → ∀ call, fsm.Calls call → Ready fd ev call) :
    ∃ fsm' calls, callIf concerned fsm answer = some (fsm', calls) ∧ Onward fsm fsm' ∧
      ∀ call ∈ calls, Ready fd ev call := by
  unfold callIf
  split
  · next concerned =>
      obtain ⟨fsm', calls, eq, driven⟩ := exists_driven known answer.1 answer.2
      exact ⟨fsm', calls, eq, ⟨driven.known, driven.sfd, driven.dfd⟩,
        fun call mem => ready concerned call (driven.calls call mem)⟩
  · exact ⟨fsm, [], rfl, ⟨known, rfl, rfl⟩, fun call mem => absurd mem List.not_mem_nil⟩

/-- A machine that the event concerns is in the state that the event is for. -/
theorem RelJob.Awaits.ready12 (awaits : job.Awaits fd ev) (sound : job.Sound)
    (concerned : fd = job.fd1 ∧ ev.epollin ∨ fd = job.fd2 ∧ ev.epollout) (call : Syscall)
    (made : job.fsm12.Calls call) : Ready fd ev call := by
  cases call with
  | read fd' res =>
      obtain ⟨source, reading⟩ := made
      rcases concerned with ⟨here, ready⟩ | ⟨here, ready⟩
      · exact ⟨source.trans (sound.sfd12.trans here.symm), ready⟩
      · cases reading.symm.trans (awaits.out2 here ready)
  | write fd' offered res =>
      obtain ⟨target, writing⟩ := made
      rcases concerned with ⟨here, ready⟩ | ⟨here, ready⟩
      · cases writing.symm.trans (awaits.in1 here ready)
      · exact ⟨target.trans (sound.dfd12.trans here.symm), ready⟩

theorem RelJob.Awaits.ready21 (awaits : job.Awaits fd ev) (sound : job.Sound)
    (concerned : fd = job.fd2 ∧ ev.epollin ∨ fd = job.fd1 ∧ ev.epollout) (call : Syscall)
    (made : job.fsm21.Calls call) : Ready fd ev call := by
  cases call with
  | read fd' res =>
      obtain ⟨source, reading⟩ := made
      rcases concerned with ⟨here, ready⟩ | ⟨here, ready⟩
      · exact ⟨source.trans (sound.sfd21.trans here.symm), ready⟩
      · cases reading.symm.trans (awaits.out1 here ready)
  | write fd' offered res =>
      obtain ⟨target, writing⟩ := made
      rcases concerned with ⟨here, ready⟩ | ⟨here, ready⟩
      · cases writing.symm.trans (awaits.in2 here ready)
      · exact ⟨target.trans (sound.dfd21.trans here.symm), ready⟩

/-! ## The loop behind `epoll_wait` -/

theorem SameJobs.update_back {f : Nat → Option RelJob} (stored : f i = some job)
    (alike : Alike job' job) : SameJobs (Function.update f i (some job')) f := by
  intro j b stored'
  by_cases here : j = i
  · subst here
    obtain rfl := Option.some.inj (stored.symm.trans stored')
    exact ⟨job', Function.update_self .., alike⟩
  · exact ⟨b, (Function.update_of_ne here _ _).trans stored', rfl, rfl, rfl⟩

/-- What the visits of the first `n` entries have come to. -/
structure Visited (fd : Int) (ev : Events) (relJob : Nat → Option RelJob) (n : Nat)
    (p : (Nat → Option RelJob) × List Syscall) : Prop where
  ahead : ∀ i, n ≤ i → p.1 i = relJob i
  same : SameJobs relJob p.1
  kept : SameJobs p.1 relJob
  sound : ∀ i job, p.1 i = some job → job.Sound
  ready : ∀ call ∈ p.2, Ready fd ev call

theorem Visited.callSlot {n : Nat} {p : (Nat → Option RelJob) × List Syscall}
    (visited : Visited fd ev relJob n p)
    (awaits : ∀ job, relJob n = some job → job.Awaits fd ev) :
    ∃ q, callSlot fd ev answers p n = some q ∧ Visited fd ev relJob (n + 1) q := by
  have here := visited.ahead n (Nat.le_refl n)
  have idle : Visited fd ev relJob (n + 1) p :=
    { visited with ahead := fun i later => visited.ahead i (Nat.le_of_succ_le later) }
  unfold Epoll.callSlot
  cases stored : p.1 n with
  | none => exact ⟨p, rfl, idle⟩
  | some job =>
      dsimp only
      split
      · have awaits := awaits job (here.symm.trans stored)
        have sound := visited.sound n job stored
        obtain ⟨fsm12, calls12, called12, onward12, ready12⟩ := exists_callIf
          (decide (fd = job.fd1 ∧ ev.epollin ∨ fd = job.fd2 ∧ ev.epollout))
          sound.known12 (answers n).1
          fun concerned => awaits.ready12 sound (of_decide_eq_true concerned)
        obtain ⟨fsm21, calls21, called21, onward21, ready21⟩ := exists_callIf
          (decide (fd = job.fd2 ∧ ev.epollin ∨ fd = job.fd1 ∧ ev.epollout))
          sound.known21 (answers n).2
          fun concerned => awaits.ready21 sound (of_decide_eq_true concerned)
        rw [called12, called21]
        refine ⟨_, rfl, ?_, visited.same.trans (SameJobs.update stored ⟨rfl, rfl, rfl⟩), ?_, ?_, ?_⟩
        · intro i later
          have other : i ≠ n := Nat.ne_of_gt later
          dsimp only
          rw [Function.update_of_ne other, visited.ahead i (Nat.le_of_succ_le later)]
        · exact SameJobs.trans (SameJobs.update_back stored ⟨rfl, rfl, rfl⟩) visited.kept
        · intro i job' stored'
          rcases update_some_eq_some.mp stored' with ⟨rfl, rfl⟩ | ⟨-, old⟩
          · exact sound.onward onward12 onward21
          · exact visited.sound i job' old
        · intro call mem
          simp only [List.mem_append] at mem
          rcases mem with (old | mem) | mem
          · exact visited.ready call old
          · exact ready12 call mem
          · exact ready21 call mem
      · exact ⟨p, rfl, idle⟩

theorem exists_visited (sound : ∀ i job, relJob i = some job → job.Sound)
    (awaits : ∀ i job, relJob i = some job → job.Awaits fd ev) (n : Nat) :
    ∃ p, (List.range n).foldlM (callSlot fd ev answers) (relJob, []) = some p ∧
      Visited fd ev relJob n p := by
  induction n with
  | zero =>
      exact ⟨_, rfl, fun _ _ => rfl, SameJobs.refl _, SameJobs.refl _, sound,
        fun _ mem => absurd mem List.not_mem_nil⟩
  | succ n ih =>
      obtain ⟨p, ran, visited⟩ := ih
      obtain ⟨q, called, visited'⟩ : ∃ q, callSlot fd ev answers p n = some q ∧
          Visited fd ev relJob (n + 1) q := visited.callSlot (awaits n)
      refine ⟨q, ?_, visited'⟩
      rw [List.range_succ, List.foldlM_append, ran]
      simpa using called

/-! ## The registered interests -/

/-- An interest that is registered for the job is the one its machines have. -/
structure Heard (epoll : EpollSet) (job : RelJob) : Prop where
  one : ∀ ev, epoll job.fd1 = some ev → ev = job.events1
  two : ∀ ev, epoll job.fd2 = some ev → ev = job.events2

theorem epollMod_eq_some {fd' : Int} {ev' : Events} :
    epollMod epoll fd ev fd' = some ev' ↔
      fd' = fd ∧ (epoll fd).isSome ∧ ev = ev' ∨ fd' ≠ fd ∧ epoll fd' = some ev' := by
  by_cases same : fd' = fd
  · subst same
    unfold epollMod
    split
    · next there => simp [there]
    · next missing =>
        rw [Option.not_isSome_iff_eq_none] at missing
        simp [missing]
  · rw [epollMod_of_ne same]
    simp [same]

theorem setJob_heard (ne : job.fd1 ≠ job.fd2) : Heard (setJob epoll job) job where
  one ev at' := by
    rw [setJob, epollMod_of_ne ne] at at'
    rcases epollMod_eq_some.mp at' with ⟨-, -, rfl⟩ | ⟨other, -⟩
    · rfl
    · exact absurd rfl other
  two ev at' := by
    rcases epollMod_eq_some.mp at' with ⟨-, -, rfl⟩ | ⟨other, -⟩
    · rfl
    · exact absurd rfl other

/-- The calls for a job do not touch other descriptors. -/
theorem setJob_off (off : fd ∉ job.fds) : setJob epoll job fd = epoll fd := by
  simp only [RelJob.fds, List.mem_cons, List.not_mem_nil, or_false, not_or] at off
  rw [setJob, epollMod_of_ne off.2, epollMod_of_ne off.1]

theorem Heard.setJob (heard : Heard epoll job) (apart : ∀ fd ∈ job.fds, fd ∉ job'.fds) :
    Heard (setJob epoll job') job where
  one ev at' := by
    rw [setJob_off (apart job.fd1 (by simp [RelJob.fds]))] at at'
    exact heard.one ev at'
  two ev at' := by
    rw [setJob_off (apart job.fd2 (by simp [RelJob.fds]))] at at'
    exact heard.two ev at'

/-- A registered descriptor that the event is on is waited for. -/
theorem Heard.awaits {interest : Events} (heard : Heard epoll job) (at' : epoll fd = some interest)
    (reads : ev.epollin → interest.epollin) (writes : ev.epollout → interest.epollout) :
    job.Awaits fd ev where
  in1 here ready := by
    subst here
    rw [heard.one interest at'] at reads
    exact of_decide_eq_true (reads ready)
  out1 here ready := by
    subst here
    rw [heard.one interest at'] at writes
    exact of_decide_eq_true (writes ready)
  in2 here ready := by
    subst here
    rw [heard.two interest at'] at reads
    exact of_decide_eq_true (reads ready)
  out2 here ready := by
    subst here
    rw [heard.two interest at'] at writes
    exact of_decide_eq_true (writes ready)

theorem addJob_isSome (there : (addJob epoll job fd).isSome) :
    (epoll fd).isSome ∨ fd ∈ job.fds := by
  by_cases mem : fd ∈ job.fds
  · exact .inr mem
  · simp only [RelJob.fds, List.mem_cons, List.not_mem_nil, or_false, not_or] at mem
    have add (epoll : EpollSet) (fd' : Int) (other : fd ≠ fd') (ev : Events) :
        epollAdd epoll fd' ev fd = epoll fd := by
      unfold epollAdd
      split
      · rfl
      · exact Function.update_of_ne other _ _
    rw [addJob, add _ _ mem.2, add _ _ mem.1] at there
    exact .inl there

theorem setJob_isSome : (setJob epoll job fd).isSome = (epoll fd).isSome := by
  rw [setJob, epollMod_isSome, epollMod_isSome]

/-- What holds in every state: all that is registered belongs to a job, and the interests that
the main loop has set in this pass still fit the machines. -/
structure Faithful (s : World) : Prop where
  jobs : Jobs s.relJob
  sound : ∀ i job, s.relJob i = some job → job.Sound
  owned : ∀ fd, (s.epoll fd).isSome → ∃ i job, s.relJob i = some job ∧ fd ∈ job.fds
  heard : ∀ i job, s.relJob i = some job → s.phase.Set i → Heard s.epoll job

theorem init_faithful : Faithful init where
  jobs := ⟨fun _ _ => nofun, fun _ _ => nofun, fun _ _ _ _ => nofun⟩
  sound _ _ := nofun
  owned _ := nofun
  heard _ _ := nofun

/-- The jobs have gone on. What is registered belongs to the same ones. -/
theorem Faithful.owned' (faithful : Faithful s) (kept : SameJobs relJob s.relJob)
    (there : (s.epoll fd).isSome) : ∃ i job, relJob i = some job ∧ fd ∈ job.fds := by
  obtain ⟨i, job, stored, mem⟩ := faithful.owned fd there
  obtain ⟨job', stored', -, fd1, fd2⟩ := kept i job stored
  refine ⟨i, job', stored', ?_⟩
  rwa [RelJob.fds, fd1, fd2]

theorem Faithful.addjob {fd1 fd2 : Int} {raw : Option (RelFsm × RelFsm)} (faithful : Faithful s)
    (distinct : Distinct s (.addjob fd1 fd2 raw)) : Faithful (relAddjob s fd1 fd2 raw).1 := by
  rcases relAddjob_cases s fd1 fd2 raw with
    same | ⟨pos, new, -, free, inside, running, rfl, rfl, ⟨raw12, raw21, one, two⟩, stored⟩
  · rwa [same]
  · obtain ⟨ne, fresh⟩ := distinct
    -- What is registered belongs to another job.
    have unheard (fd : Int) (mem : fd ∈ new.fds) : s.epoll fd = none := by
      apply Option.not_isSome_iff_eq_none.mp
      intro there
      obtain ⟨i, job, old, mem'⟩ := faithful.owned fd there
      obtain ⟨off1, off2⟩ := fresh i job old
      rw [RelJob.fds, List.mem_pair] at mem
      rcases mem with rfl | rfl
      · exact off1 mem'
      · exact off2 mem'
    rw [stored]
    refine ⟨faithful.jobs.store inside running ne fresh, ?_, ?_, ?_⟩
    · intro i job stored
      rcases update_some_eq_some.mp stored with ⟨rfl, rfl⟩ | ⟨-, old⟩
      · exact .of_addjob one two
      · exact faithful.sound i job old
    · intro fd there
      obtain ⟨i, job, old, mem⟩ := faithful.owned fd there
      have other : i ≠ pos := by
        rintro rfl
        cases free.symm.trans old
      exact ⟨i, job, (Function.update_of_ne other _ _).trans old, mem⟩
    · intro i job stored set
      rcases update_some_eq_some.mp stored with ⟨rfl, rfl⟩ | ⟨-, old⟩
      · constructor
        · intro ev there
          cases (unheard new.fd1 (by simp [RelJob.fds])).symm.trans there
        · intro ev there
          cases (unheard new.fd2 (by simp [RelJob.fds])).symm.trans there
      · exact faithful.heard i job old set

theorem Faithful.start (faithful : Faithful s) : Faithful (startRelJob s) := by
  unfold startRelJob
  split
  · exact { faithful with heard := fun _ _ _ set => set.elim }
  · exact faithful

theorem Faithful.addSlot (faithful : Faithful s) :
    Faithful { addSlot s i with phase := .adding (i + 1) } := by
  unfold Epoll.addSlot
  cases stored : s.relJob i with
  | none => exact { faithful with heard := fun _ _ _ set => set.elim }
  | some job =>
      dsimp only
      split
      · refine { faithful with owned := fun fd there => ?_, heard := fun _ _ _ set => set.elim }
        rcases addJob_isSome there with old | mem
        · exact faithful.owned fd old
        · exact ⟨i, job, stored, mem⟩
      · exact { faithful with heard := fun _ _ _ set => set.elim }

theorem push_onward {fsm fsm' : RelFsm} (known : fsm.state ≠ .stateAuto)
    (pushed : push fsm = some fsm') : Onward fsm fsm' := by
  unfold push at pushed
  split at pushed
  · obtain ⟨fsm'', calls, eq, driven⟩ := exists_driven known .eagain .eagain
    rw [eq, Option.map_some] at pushed
    cases pushed
    exact ⟨driven.known, driven.sfd, driven.dfd⟩
  · cases pushed
    exact ⟨known, rfl, rfl⟩

theorem Faithful.setSlot (faithful : Faithful s) (phase : s.phase = .setting i)
    (set : setSlot s i = some t) : Faithful { t with phase := .setting (i + 1) } := by
  have heard (j : Nat) (b : RelJob) (stored : s.relJob j = some b) (passed : j < i) :
      Heard s.epoll b := by
    refine faithful.heard j b stored ?_
    rw [phase]
    exact passed
  rcases setSlot_cases (fun job stored => (faithful.jobs.running i job stored).1) set with
    ⟨none, rfl⟩ | ⟨job, fsm12, fsm21, stored, pushed12, pushed21, rfl⟩
  · refine { faithful with heard := ?_ }
    intro j b stored passed
    have passed : j < i + 1 := passed
    have other : j ≠ i := by
      rintro rfl
      cases none.symm.trans stored
    exact heard j b stored (by omega)
  · have sound := faithful.sound i job stored
    have onward := sound.onward (push_onward sound.known12 pushed12)
      (push_onward sound.known21 pushed21)
    refine ⟨faithful.jobs.sameJobs (SameJobs.update stored ⟨rfl, rfl, rfl⟩), ?_, ?_, ?_⟩
    · intro j b stored'
      rcases update_some_eq_some.mp stored' with ⟨rfl, rfl⟩ | ⟨-, old⟩
      · exact onward
      · exact faithful.sound j b old
    · intro fd there
      rw [setJob_isSome] at there
      exact faithful.owned' (SameJobs.update_back stored ⟨rfl, rfl, rfl⟩) there
    · intro j b stored' passed
      have passed : j < i + 1 := passed
      rcases update_some_eq_some.mp stored' with ⟨rfl, rfl⟩ | ⟨other, old⟩
      · obtain ⟨events1, events2⟩ := push_alike pushed12 pushed21
        obtain ⟨one, two⟩ : Heard (Epoll.setJob s.epoll job) job :=
          setJob_heard (faithful.jobs.two j job stored)
        exact ⟨fun ev at' => (one ev at').trans events1.symm,
          fun ev at' => (two ev at').trans events2.symm⟩
      · exact (heard j b old (by omega)).setJob (faithful.jobs.apart j i b job old stored other)

theorem Faithful.relay (faithful : Faithful s) (relayed : relay s = some t) : Faithful t := by
  unfold Epoll.relay at relayed
  cases phase : s.phase with
  | unborn =>
      rw [phase] at relayed
      cases relayed
  | adding i =>
      rw [phase] at relayed
      dsimp only at relayed
      split at relayed
      · cases relayed
        exact faithful.addSlot
      · cases relayed
        exact { faithful with heard := fun i _ _ set => absurd set (Nat.not_lt_zero i) }
  | setting i =>
      rw [phase] at relayed
      dsimp only at relayed
      split at relayed
      · obtain ⟨t, set, rfl⟩ := Option.map_eq_some_iff.mp relayed
        exact faithful.setSlot phase set
      · next all =>
          cases relayed
          refine { faithful with heard := fun j job stored _ => ?_ }
          have inside := (faithful.jobs.running j job stored).2
          refine faithful.heard j job stored ?_
          rw [phase]
          exact Nat.lt_of_lt_of_le inside (Nat.not_lt.mp all)
  | waiting =>
      rw [phase] at relayed
      cases relayed

/-- `epoll_wait` may report the event. -/
def Reports (s : World) (fd : Int) (ev : Events) : Prop :=
  s.phase = .waiting ∧ ∃ interest, s.epoll fd = some interest ∧
    (ev.epollin → interest.epollin) ∧ (ev.epollout → interest.epollout)

/-- An event that is reported has the relayer call for what is ready. -/
theorem Faithful.exists_visited (faithful : Faithful s) (reports : Reports s fd ev)
    (answers : Answers) :
    ∃ relJob calls, driveCalls fd ev answers s.relJob = some (relJob, calls) ∧
      Visited fd ev s.relJob REL_JOBMAX (relJob, calls) := by
  obtain ⟨waiting, interest, at', reads, writes⟩ := reports
  have awaits (i : Nat) (job : RelJob) (stored : s.relJob i = some job) : job.Awaits fd ev := by
    refine (faithful.heard i job stored ?_).awaits at' reads writes
    rw [waiting]
    trivial
  obtain ⟨⟨relJob, calls⟩, ran, visited⟩ :=
    Epoll.exists_visited faithful.sound awaits REL_JOBMAX
  exact ⟨relJob, calls, ran, visited⟩

theorem wake_eq_some (reports : Reports s fd ev) {calls : List Syscall}
    (ran : driveCalls fd ev answers s.relJob = some (relJob, calls)) :
    wake s fd ev answers = some (startPass { s with relJob := relJob }) := by
  obtain ⟨waiting, interest, at', reads, writes⟩ := reports
  have driven : drive fd ev answers s.relJob = some relJob := by
    rw [← driveCalls_map, ran, Option.map_some]
  rw [wake, at']
  simp only [Option.bind_eq_bind, Option.bind_some]
  rw [if_pos ⟨waiting, reads, writes⟩, driven, Option.bind_some]

theorem Faithful.wake (faithful : Faithful s) (woken : wake s fd ev answers = some t) :
    Faithful t := by
  have reports : Reports s fd ev := by
    obtain ⟨interest, at', rest⟩ := Option.bind_eq_some_iff.mp woken
    split at rest
    · next fits => exact ⟨fits.1, interest, at', fits.2⟩
    · cases rest
  obtain ⟨relJob, calls, ran, visited⟩ := faithful.exists_visited reports answers
  obtain rfl := Option.some.inj ((wake_eq_some reports ran).symm.trans woken)
  exact {
    jobs := faithful.jobs.sameJobs visited.same
    sound := visited.sound
    owned := fun _ there => faithful.owned' visited.kept there
    heard := fun i _ _ set => absurd set (Nat.not_lt_zero i) }

theorem Faithful.step (faithful : Faithful s) (distinct : Distinct s e)
    (stepped : step s e = some t) : Faithful t := by
  cases e with
  | addjob fd1 fd2 raw =>
      cases stepped
      exact faithful.addjob distinct
  | start =>
      cases stepped
      exact faithful.start
  | relay => exact faithful.relay stepped
  | wake fd ev answers => exact faithful.wake stepped

/-- A machine that is driven before `epoll_wait` makes no call. -/
theorem fsmDriver_silent {fsm : RelFsm} (known : fsm.state ≠ .stateAuto)
    (above : stateValue fsm.state > stateValue .stateAuto) (rd : ReadResult) (wr : WriteResult) :
    ∃ fsm', fsmDriver fsm rd wr = some (fsm', []) := by
  obtain ⟨fsm', calls, eq, driven⟩ := exists_driven known rd wr
  have none (call : Syscall) (mem : call ∈ calls) : False := by
    have made := driven.calls call mem
    cases call with
    | read fd res =>
        rw [made.2] at above
        exact absurd above (by decide)
    | write fd offered res =>
        rw [made.2] at above
        exact absurd above (by decide)
  rw [List.eq_nil_iff_forall_not_mem.mpr none] at eq
  exact ⟨fsm', eq⟩

/-- **Nothing blocks but `epoll_wait`.** In every run over jobs with distinct descriptors, the
relayer goes on after each event that `epoll_wait` may report, and all calls it makes until it
blocks again are for what was reported: those behind `epoll_wait` are, and the machines that it
drives in the main loop before make none. -/
theorem driveCalls_ready {es : List Event} (distinct : Along step Distinct init es)
    (ran : run step init es = some s) :
    (∀ fd ev answers, Reports s fd ev → ∃ relJob calls,
      driveCalls fd ev answers s.relJob = some (relJob, calls) ∧
      wake s fd ev answers = some (startPass { s with relJob := relJob }) ∧
      ∀ call ∈ calls, Ready fd ev call) ∧
    ∀ i job, s.relJob i = some job → ∀ fsm ∈ [job.fsm12, job.fsm21],
      stateValue fsm.state > stateValue .stateAuto →
      ∀ rd wr, ∃ fsm', fsmDriver fsm rd wr = some (fsm', []) := by
  have faithful : Faithful s := run_invariant
    (fun faithful distinct stepped => faithful.step distinct stepped) init_faithful distinct ran
  constructor
  · intro fd ev answers reports
    obtain ⟨relJob, calls, called, visited⟩ := faithful.exists_visited reports answers
    exact ⟨relJob, calls, called, wake_eq_some reports called, visited.ready⟩
  · intro i job stored fsm mem above rd wr
    have sound := faithful.sound i job stored
    rcases List.mem_pair.mp mem with rfl | rfl
    · exact fsmDriver_silent sound.known12 above rd wr
    · exact fsmDriver_silent sound.known21 above rd wr

/-- Data for the descriptor 3 of the only job. -/
theorem driveCalls_ready_early : ∃ s relJob calls, run step init (early ++ onePass) = some s ∧
    driveCalls 3 ⟨true, false⟩ (fun _ => ((.got [7], .eagain), (.eagain, .eagain))) s.relJob =
      some (relJob, calls) ∧
    ∀ call ∈ calls, Ready 3 ⟨true, false⟩ call := by
  obtain ⟨s, ran, phase, -, -, epoll⟩ := run_passed (addJob (fun _ => none) added)
  have all := run_append_eq_some.mpr ⟨_, run_early, ran⟩
  have begun : Along step Distinct init early := by
    refine ⟨⟨by decide, fun i job stored => ?_⟩, fun _ _ => ⟨trivial, fun _ _ => ?_⟩⟩
    · cases stored
    · exact ⟨trivial, fun _ _ => trivial⟩
  have distinct : Along step Distinct init (early ++ onePass) :=
    along_append.mpr ⟨begun, fun _ _ => along_relay (fun _ => trivial) mem_onePass⟩
  have reports : Reports s 3 ⟨true, false⟩ :=
    ⟨phase, ⟨true, false⟩, by rw [epoll]; decide, fun _ => rfl, nofun⟩
  obtain ⟨relJob, calls, called, -, ready⟩ := (driveCalls_ready distinct all).1 3 ⟨true, false⟩
    (fun _ => ((.got [7], .eagain), (.eagain, .eagain))) reports
  exact ⟨s, relJob, calls, all, called, ready⟩

end Shang.Relayer.Epoll
