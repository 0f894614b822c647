import Shang.Threadpool.Threadpool

/-!
# Runs of the thread pool

Every job is taken once, in the order the jobs came in (`fifo_once`). Behind the last
`tp_add_work` the threads come to rest after a bounded number of steps, and then every job
has been called (`all_called`). After `tp_destroy` has cleared the flag they come to rest as
well, but a thread that waits at the semaphore is woken by nobody: the joins return exactly
when the semaphore has a token for each of them (`joined_iff`).
-/

namespace Shang.Threadpool

open Lib Function

namespace Pool

variable {Job : Type} {n : Nat} {s s' : Pool Job n} {q : List Ptr} {t : Fin n}
  {e : Event Job n} {es : List (Event Job n)}

theorem inv_run (h : s.Inv q) (allowed : Along step Allowed s es)
    (ran : run step s es = some s') : ∃ q', s'.Inv q' :=
  run_invariant (I := fun s : Pool Job n => ∃ q, s.Inv q) (fun ⟨_, inv⟩ allowed stepped =>
    inv_step inv allowed stepped) ⟨q, h⟩ allowed ran

/-- The states of runs. -/
def Reached (s : Pool Job n) : Prop :=
  ∃ es, Along step Allowed tpInit es ∧ run step tpInit es = some s

theorem Reached.inv (h : s.Reached) : ∃ q, s.Inv q := by
  obtain ⟨es, allowed, ran⟩ := h
  exact inv_run inv_init allowed ran

/-- The state behind the events, for the examples below. -/
def behind (es : List (Event Job n)) : Pool Job n := (run step tpInit es).getD tpInit

theorem run_behind (ran : (run step (tpInit : Pool Job n) es).isSome) :
    run step tpInit es = some (behind es) := by
  obtain ⟨s, some_⟩ := Option.isSome_iff_exists.mp ran
  rw [behind, some_, Option.getD_some]

theorem reached_behind (allowed : Along step Allowed (tpInit : Pool Job n) es)
    (ran : (run step (tpInit : Pool Job n) es).isSome) : (behind es).Reached :=
  ⟨es, allowed, run_behind ran⟩

theorem run_behind_append {fs : List (Event Job n)}
    (ran : (run step (tpInit : Pool Job n) es).isSome)
    (more : (run step (tpInit : Pool Job n) (es ++ fs)).isSome) :
    run step (behind es) fs = some (behind (es ++ fs)) := by
  obtain ⟨s, first, rest⟩ := run_append_eq_some.mp (run_behind more)
  cases first.symm.trans (run_behind ran)
  exact rest

/-- The steps of those who are at work: no job comes in, and the flag stays. -/
def Inner : Event Job n → Prop
  | .thread _ | .unlock => True
  | _ => False

theorem allowed_of_inner (inner : Inner e) : s.Allowed e := by
  cases e with
  | thread t => trivial
  | unlock => trivial
  | add p job => exact inner.elim
  | destroy => exact inner.elim

/-- How many steps of its round a thread has before it. -/
def rounds : Phase Job → Nat
  | .wait | .done | .fault => 0
  | .test => 1
  | .work _ _ | .skip => 2
  | .leave _ _ => 3
  | .hold => 4
  | .lock => 5
  | .check => 6

/-- How many steps there are before the threads rest. -/
def rank (s : Pool Job n) : Nat :=
  8 * s.queneSem + tally rounds s.thread + if s.mutex = some .producer then 1 else 0

/-- Nobody can go on. -/
def AtRest (s : Pool Job n) : Prop := ∀ e, Inner e → step s e = none

/-- What a step of a thread does to the threads, the semaphore and the mutex: it takes a token
at the semaphore, or gets on with its round. -/
structure Turn (t : Fin n) (s s' : Pool Job n) (phase : Phase Job) : Prop where
  thread : s'.thread = update s.thread t phase
  tpAlive : s'.tpAlive = s.tpAlive
  added : s'.added = s.added
  producer : s'.mutex = some .producer ↔ s.mutex = some .producer
  moves : (s.thread t = .wait ∧ phase = .check ∧ s'.queneSem + 1 = s.queneSem) ∨
    s.thread t ≠ .wait ∧ rounds phase < rounds (s.thread t) ∧ s'.queneSem = s.queneSem ∧
      (phase = .wait → s.tpAlive = true)

theorem Inv.turn (h : s.Inv q) (stepped : s.tpThreadFunc t = some s') :
    ∃ phase, Turn t s s' phase := by
  cases here : s.thread t with
  | test =>
      rw [tpThreadFunc, here] at stepped
      cases stepped
      refine ⟨_, rfl, rfl, rfl, Iff.rfl, .inr ⟨by simp [here], ?_, rfl, fun waits => ?_⟩⟩
      · rw [here]
        split <;> exact Nat.zero_lt_one
      · split at waits
        · next living => exact living
        · cases waits
  | wait =>
      simp only [tpThreadFunc, here] at stepped
      split at stepped
      · next posted =>
        cases stepped
        exact ⟨.check, rfl, rfl, rfl, Iff.rfl, .inl ⟨here, rfl, Nat.succ_pred posted.ne'⟩⟩
      · cases stepped
  | check =>
      rw [tpThreadFunc, here] at stepped
      cases stepped
      refine ⟨_, rfl, rfl, rfl, Iff.rfl, .inr ⟨by simp [here], ?_, rfl, fun waits => ?_⟩⟩
      · rw [here]
        split
        · exact Nat.lt_succ_self 5
        · exact Nat.succ_pos 5
      · split at waits
        · cases waits
        · cases waits
  | lock =>
      simp only [tpThreadFunc, here] at stepped
      split at stepped
      · next free =>
        cases stepped
        exact ⟨.hold, rfl, rfl, rfl, by simp [go, free],
          .inr ⟨by simp [here], by rw [here]; exact Nat.lt_succ_self 4, rfl, fun waits => by
          cases waits⟩⟩
      · cases stepped
  | hold =>
      obtain ⟨u, q', job, ran, _, thread, sem, mutex, alive, added⟩ := h.take here
      cases stepped.symm.trans ran
      exact ⟨_, thread, alive, added, by rw [mutex],
        .inr ⟨by simp [here], by rw [here]; exact Nat.lt_succ_self 3, sem, fun waits => by
          cases waits⟩⟩
  | skip => exact absurd here (h.sound t).1
  | leave jobP job =>
      have mine : s.mutex = some (.thread t) := (h.mutex t).mp (by rw [here]; trivial)
      rw [tpThreadFunc, here] at stepped
      cases stepped
      exact ⟨.work jobP job, rfl, rfl, rfl, by simp [go, mine],
        .inr ⟨by simp [here], by rw [here]; exact Nat.lt_succ_self 2, rfl, fun waits => by
          cases waits⟩⟩
  | work jobP job =>
      rw [tpThreadFunc, here] at stepped
      cases stepped
      exact ⟨.test, rfl, rfl, rfl, Iff.rfl,
        .inr ⟨by simp [here], by rw [here]; exact Nat.lt_succ_self 1, rfl, fun waits => by
          cases waits⟩⟩
  | fault => exact absurd here (h.sound t).2
  | done =>
      rw [tpThreadFunc, here] at stepped
      cases stepped

/-- The unlock of a producer. -/
theorem unlock_eq (stepped : step s .unlock = some s') :
    s.mutex = some .producer ∧ s' = { s with mutex := none } := by
  simp only [step] at stepped
  split at stepped
  · next producer => exact ⟨producer, (Option.some.inj stepped).symm⟩
  · cases stepped

theorem atRest_iff :
    s.AtRest ↔ (∀ t, (s.tpThreadFunc t).isNone) ∧ s.mutex ≠ some .producer := by
  constructor
  · intro rest
    refine ⟨fun t => Option.isNone_iff_eq_none.mpr (rest (.thread t) trivial), fun held => ?_⟩
    have stuck : step s .unlock = none := rest .unlock trivial
    simp [step, held] at stuck
  · rintro ⟨threads, free⟩ e inner
    cases e with
    | thread t => exact Option.isNone_iff_eq_none.mp (threads t)
    | unlock => exact if_neg free
    | add p job => exact inner.elim
    | destroy => exact inner.elim

instance : Decidable s.AtRest := decidable_of_iff' _ atRest_iff

instance : DecidablePred (Inner : Event Job n → Prop)
  | .thread _ | .unlock => isTrue trivial
  | .add _ _ | .destroy => isFalse not_false

theorem Inv.rank_lt (h : s.Inv q) (inner : Inner e) (stepped : step s e = some s') :
    s'.rank < s.rank := by
  cases e with
  | thread t =>
      obtain ⟨phase, turn⟩ := h.turn stepped
      have moved := tally_update rounds s.thread t phase
      simp only [rank, turn.thread, turn.producer]
      rcases turn.moves with ⟨waits, rfl, taken⟩ | ⟨_, less, same, _⟩
      · rw [waits] at moved
        simp only [rounds] at moved
        omega
      · omega
  | unlock =>
      obtain ⟨producer, rfl⟩ := unlock_eq stepped
      simp [rank, producer]
  | add p job => exact inner.elim
  | destroy => exact inner.elim

/-- The threads do not work on for ever. -/
theorem Inv.inner_run (h : s.Inv q) (inner : ∀ e ∈ es, Inner e) (ran : run step s es = some s') :
    es.length + s'.rank ≤ s.rank ∧ (∃ q', s'.Inv q') ∧ s'.tpAlive = s.tpAlive ∧
      s'.added = s.added := by
  induction es generalizing s q with
  | nil =>
      cases ran
      exact ⟨by simp, ⟨q, h⟩, rfl, rfl⟩
  | cons e es ih =>
      obtain ⟨u, stepped, more⟩ := run_cons_eq_some.mp ran
      have first := inner e List.mem_cons_self
      have less := h.rank_lt first stepped
      obtain ⟨q', inv⟩ := inv_step h (allowed_of_inner first) stepped
      obtain ⟨bound, final, alive, added⟩ :=
        ih inv (fun e mem => inner e (List.mem_cons_of_mem _ mem)) more
      have frame : u.tpAlive = s.tpAlive ∧ u.added = s.added := by
        cases e with
        | thread t =>
            obtain ⟨phase, turn⟩ := h.turn stepped
            exact ⟨turn.tpAlive, turn.added⟩
        | unlock =>
            obtain ⟨_, rfl⟩ := unlock_eq stepped
            exact ⟨rfl, rfl⟩
        | add p job => exact first.elim
        | destroy => exact first.elim
      refine ⟨?_, final, alive.trans frame.1, added.trans frame.2⟩
      rw [List.length_cons]
      omega

/-- Who rests waits at the semaphore, which has no token then, or has ended. -/
theorem Inv.at_rest (h : s.Inv q) (rest : s.AtRest) (t : Fin n) :
    s.thread t = .wait ∧ s.queneSem = 0 ∨ s.thread t = .done := by
  have still : ∀ u, s.tpThreadFunc u = none := fun u => rest (.thread u) trivial
  have stuck := still t
  cases here : s.thread t with
  | test => simp [tpThreadFunc, here] at stuck
  | wait =>
      simp only [tpThreadFunc, here, ite_eq_right_iff, reduceCtorEq, imp_false] at stuck
      exact .inl ⟨rfl, by omega⟩
  | check => simp [tpThreadFunc, here] at stuck
  | lock =>
      simp only [tpThreadFunc, here, ite_eq_right_iff, reduceCtorEq, imp_false] at stuck
      cases holder : s.mutex with
      | none => exact absurd holder stuck
      | some holder' =>
          cases holder' with
          | producer =>
              have locked : step s .unlock = none := rest .unlock trivial
              simp [step, holder] at locked
          | thread u =>
              -- who has the mutex can go on
              have locks := (h.mutex u).mpr holder
              have stuck := still u
              cases there : s.thread u with
              | hold =>
                  obtain ⟨_, _, _, ran, _⟩ := h.take there
                  rw [stuck] at ran
                  cases ran
              | skip => exact absurd there (h.sound u).1
              | leave jobP job => simp [tpThreadFunc, there] at stuck
              | _ =>
                  rw [there] at locks
                  exact locks.elim
  | hold =>
      obtain ⟨_, _, _, ran, _⟩ := h.take here
      rw [stuck] at ran
      cases ran
  | skip => exact absurd here (h.sound t).1
  | leave jobP job => simp [tpThreadFunc, here] at stuck
  | work jobP job => simp [tpThreadFunc, here] at stuck
  | fault => exact absurd here (h.sound t).2
  | done => exact .inr rfl

theorem threadsNum_pos (threadNum : Int) : 0 < threadsNum threadNum := by
  rw [threadsNum]
  split <;> omega

/-- When no more jobs come in, the threads come to rest after a bounded number of steps, in
whatever order they go on. Then every job that came in has been called once. -/
theorem all_called {threadNum : Int} {s s' : Pool Job (threadsNum threadNum)}
    {es : List (Event Job (threadsNum threadNum))} (h : s.Reached) (alive : s.tpAlive = true)
    (inner : ∀ e ∈ es, Inner e) (ran : run step s es = some s') :
    es.length ≤ s.rank ∧ (s'.AtRest → (s'.called : Multiset Job) = s.added ∧ s'.num = 0) := by
  obtain ⟨q, inv⟩ := h.inv
  obtain ⟨bound, ⟨q', inv'⟩, alive', added⟩ := inv.inner_run inner ran
  refine ⟨by omega, fun rest => ?_⟩
  obtain ⟨tokens, running⟩ := inv'.alive (alive'.trans alive)
  have waits : ∀ t, s'.thread t = .wait ∧ s'.queneSem = 0 := fun t =>
    (inv'.at_rest rest t).resolve_right (running t)
  have noClaims : tally claims s'.thread = 0 :=
    tally_eq_zero.mpr fun t => by rw [(waits t).1]; rfl
  have noJobs : tally jobs s'.thread = 0 :=
    Finset.sum_eq_zero fun t _ => by rw [(waits t).1]; rfl
  have empty : q' = [] := by
    rw [noClaims, (waits ⟨0, threadsNum_pos threadNum⟩).2] at tokens
    exact List.length_eq_zero_iff.mp tokens.symm
  subst empty
  have fifo : s'.taken = s'.added := by
    have fifo := inv'.fifo
    rw [waiting, List.reverse_nil, List.map_nil, List.append_nil] at fifo
    exact List.map_injective_iff.mpr (Option.some_injective Job) fifo
  have called := inv'.called
  rw [noJobs, add_zero] at called
  exact ⟨by rw [← called, fifo, added], inv'.queue.num⟩

/-- One thread calls one job, and waits for the next. -/
theorem all_called_one : ∃ s s' : Pool Nat (threadsNum 0),
    run step tpInit [.add 10 7, .unlock] = some s ∧
      run step s (List.replicate 8 (.thread ⟨0, threadsNum_pos 0⟩)) = some s' ∧
      (s'.called : Multiset Nat) = s.added ∧ s'.num = 0 := by
  refine ⟨_, _, run_behind (by decide +kernel), run_behind_append (by decide +kernel)
    (by decide +kernel), ?_⟩
  exact (all_called (reached_behind (by decide +kernel) (by decide +kernel)) (by decide +kernel)
    (by decide +kernel) (run_behind_append (by decide +kernel) (by decide +kernel))).2
    (by decide +kernel)

/-! ## The end of the pool -/

/-- The thread is at the semaphore. -/
def waiters : Phase Job → Nat
  | .wait => 1
  | _ => 0

theorem waiters_eq_zero {phase : Phase Job} : waiters phase = 0 ↔ phase ≠ .wait := by
  cases phase <;> simp [waiters]

/-- When the flag is cleared, nobody comes to the semaphore any more, and who leaves it takes a
token. -/
theorem Turn.balance {phase : Phase Job} (turn : Turn t s s' phase) (dead : s.tpAlive = false) :
    tally waiters s'.thread + s.queneSem = tally waiters s.thread + s'.queneSem := by
  have moved := tally_update waiters s.thread t phase
  rw [turn.thread]
  rcases turn.moves with ⟨waits, rfl, taken⟩ | ⟨busy, _, same, living⟩
  · simp only [waits, waiters] at moved
    omega
  · have comes : phase ≠ .wait := fun waits => by
      rw [living waits] at dead
      cases dead
    rw [waiters_eq_zero.mpr busy, waiters_eq_zero.mpr comes] at moved
    omega

theorem Inv.waiters_run (h : s.Inv q) (dead : s.tpAlive = false) (inner : ∀ e ∈ es, Inner e)
    (ran : run step s es = some s') :
    tally waiters s'.thread + s.queneSem = tally waiters s.thread + s'.queneSem := by
  induction es generalizing s q with
  | nil =>
      cases ran
      rfl
  | cons e es ih =>
      obtain ⟨u, stepped, more⟩ := run_cons_eq_some.mp ran
      have first := inner e List.mem_cons_self
      obtain ⟨q', inv⟩ := inv_step h (allowed_of_inner first) stepped
      have frame : u.tpAlive = s.tpAlive ∧
          tally waiters u.thread + s.queneSem = tally waiters s.thread + u.queneSem := by
        cases e with
        | thread t =>
            obtain ⟨phase, turn⟩ := h.turn stepped
            exact ⟨turn.tpAlive, turn.balance dead⟩
        | unlock =>
            obtain ⟨_, rfl⟩ := unlock_eq stepped
            exact ⟨rfl, rfl⟩
        | add p job => exact first.elim
        | destroy => exact first.elim
      have rest := ih inv (frame.1.trans dead) (fun e mem => inner e (List.mem_cons_of_mem _ mem))
        more
      have before := frame.2
      omega

/-- `tp_destroy` has cleared the flag, and no more jobs come in. The threads come to rest, and
`pthread_join` has returned for all of them exactly if the semaphore had a token for each thread
that waited at it; the others wait for ever. -/
theorem joined_iff (h : s.Reached) (dead : s.tpAlive = false) (inner : ∀ e ∈ es, Inner e)
    (ran : run step s es = some s') :
    es.length ≤ s.rank ∧
      (s'.AtRest → ((∀ t, s'.thread t = .done) ↔ tally waiters s.thread ≤ s.queneSem)) := by
  obtain ⟨q, inv⟩ := h.inv
  obtain ⟨bound, ⟨q', inv'⟩, _, _⟩ := inv.inner_run inner ran
  have balance := inv.waiters_run dead inner ran
  refine ⟨by omega, fun rest => ⟨fun all => ?_, fun enough t => ?_⟩⟩
  · have none_ : tally waiters s'.thread = 0 := tally_eq_zero.mpr fun t => by rw [all t]; rfl
    omega
  · refine (inv'.at_rest rest t).resolve_left fun ⟨waits, empty⟩ => ?_
    have none_ : tally waiters s'.thread = 0 := by omega
    have alone := tally_eq_zero.mp none_ t
    rw [waits] at alone
    cases alone

/-- Two threads wait, and there is a token for one. -/
theorem joined_iff_hangs : ∃ s s' : Pool Nat 2,
    run step tpInit [.thread 0, .thread 1, .add 10 7, .unlock, .destroy] = some s ∧
      run step s [.thread 0, .thread 0] = some s' ∧ s'.AtRest ∧ ¬ ∀ t, s'.thread t = .done := by
  have rest : (behind ([.thread 0, .thread 1, .add 10 7, .unlock, .destroy] ++
      [.thread 0, .thread 0]) : Pool Nat 2).AtRest := by decide +kernel
  refine ⟨_, _, run_behind (by decide +kernel), run_behind_append (by decide +kernel)
    (by decide +kernel), rest, ?_⟩
  exact ((joined_iff (reached_behind (by decide +kernel) (by decide +kernel)) (by decide +kernel)
    (by decide +kernel) (run_behind_append (by decide +kernel) (by decide +kernel))).2 rest).not.mpr
    (by decide +kernel)

/-- The loop of `tp_destroy` frees the nodes of the queue, and no other. -/
theorem freeJobs_eq {e : Ptr} (seg : Seg s.next s.pre 0 q e) (nodup : q.Nodup)
    (memory : ∀ p ∈ q, s.allocated p = true) (tail : s.tail = q.getLastD 0)
    (num : s.num = q.length) (fuel : Nat) (enough : q.length < fuel) :
    ∃ u, s.freeJobs fuel = some u ∧
      ∀ p, u.allocated p = true ↔ s.allocated p = true ∧ p ∉ q := by
  induction q using List.reverseRecOn generalizing s e fuel with
  | nil =>
      obtain ⟨fuel, rfl⟩ := Nat.exists_eq_succ_of_ne_zero (Nat.ne_zero_of_lt enough)
      exact ⟨{ s with head := 0, tail := 0 }, if_pos num, by simp⟩
  | append_singleton q p ih =>
      obtain ⟨fuel, rfl⟩ := Nat.exists_eq_succ_of_ne_zero (Nat.ne_zero_of_lt enough)
      obtain ⟨unique, _, apart⟩ := List.nodup_append'.mp nodup
      have off : p ∉ q := fun mem => apart mem (List.mem_singleton_self p)
      have last : s.tail = p := by simpa using tail
      have size : s.num = q.length + 1 := by simpa using num
      obtain ⟨front, back, _⟩ := seg_append.mp seg
      have rest : ∀ x ∈ q, update s.allocated p false x = true := fun x mem => by
        rw [update_of_ne (ne_of_mem_of_not_mem mem off)]
        exact memory x (List.mem_append_left _ mem)
      obtain ⟨u, ran, freed⟩ := ih (s := { s with
          tail := s.pre p, allocated := update s.allocated p false, num := s.num - 1 })
        front unique rest back (by simp [size]) fuel (by simpa using enough)
      refine ⟨u, ?_, fun x => ?_⟩
      · rw [freeJobs, if_neg (by omega), last, if_pos (memory p (by simp)), ran]
      · rw [freed x]
        rcases eq_or_ne x p with rfl | other
        · simp
        · simp [other]

/-- No node is freed twice, or used behind its `free`: whoever calls a job has its node. When
the joins have returned, the loop of `tp_destroy` frees the rest, and no node remains. -/
theorem freed (h : s.Reached) :
    (∀ t p job, s.thread t = .work p job → s.allocated p = true) ∧
      ((∀ t, s.thread t = .done) → ∃ u, s.freeJobs (s.num.toNat + 1) = some u ∧
        ∀ p, u.allocated p = false) := by
  obtain ⟨q, inv⟩ := h.inv
  refine ⟨fun t p job here => (inv.own t p job (by rw [here]; rfl)).1, fun all => ?_⟩
  obtain ⟨u, ran, left⟩ := freeJobs_eq inv.queue.seg inv.queue.nodup inv.memory inv.queue.tail
    inv.queue.num (s.num.toNat + 1) (by rw [inv.queue.num, Int.toNat_natCast]; omega)
  refine ⟨u, ran, fun p => ?_⟩
  by_contra inUse
  rw [Bool.not_eq_false, left p] at inUse
  obtain mem | ⟨t, job, holds⟩ := inv.known p inUse.1
  · exact inUse.2 mem
  · rw [all t] at holds
    cases holds

/-- One thread, and two jobs that it leaves. -/
theorem freed_two : ∃ s u : Pool Nat 1,
    run step tpInit [.thread 0, .add 10 7, .unlock, .add 11 8, .unlock, .destroy, .thread 0,
      .thread 0] = some s ∧ s.freeJobs (s.num.toNat + 1) = some u ∧ ∀ p, u.allocated p = false := by
  have here : (behind [.thread 0, .add 10 7, .unlock, .add 11 8, .unlock, .destroy, .thread 0,
      .thread 0] : Pool Nat 1).Reached := reached_behind (by decide +kernel) (by decide +kernel)
  obtain ⟨u, ran, none_⟩ := (freed here).2 (by decide +kernel)
  exact ⟨_, u, run_behind (by decide +kernel), ran, none_⟩

end Pool

end Shang.Threadpool
