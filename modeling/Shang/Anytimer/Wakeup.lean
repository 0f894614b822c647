import Shang.Anytimer.Threads

/-!
# Waiting for a job to end

A thread in `at_waitjob` sleeps until the condition of its job is broadcast.
`init_action` broadcasts when it ends a job; `at_canceljob` and `at_stopjob` end
or pause a running job without telling anyone. So no wake-up is lost as long as
they find no thread waiting.
-/

namespace Shang.Anytimer.Threads

open Lib

variable {τ : Type} [DecidableEq τ] {s t : Sys τ} {e : Event τ} {es fs : List (Event τ)}
  {thread other : τ} {i : Slot} {p q : Nat} {j : Job} {log more : List (Note τ)}

/-- The condition of the job `p` was broadcast after the job last stopped to run
and after the thread last began to wait for it. -/
def Notified (log : List (Note τ)) (thread : τ) (p : Nat) : Prop :=
  ∃ before after, log = before ++ .broadcast p :: after ∧
    Note.left p ∉ after ∧ Note.began thread p ∉ after

/-- A thread in `pthread_cond_wait` waits for a job that is running, or its
wake-up is on the way. -/
def Awake (s : Sys τ) : Prop :=
  ∀ thread i p, s.calls thread = some (.waiting i p) →
    (∃ j, s.obj p = some j ∧ j.jobState = .stateRunning) ∨ Notified s.log thread p

/-- No section of `at_canceljob` or `at_stopjob` ends the running of a job that a
thread waits for. -/
def Calm (s : Sys τ) (e : Event τ) : Prop :=
  ∀ p, Leaves s p e → ∀ thread i, s.calls thread ≠ some (.waiting i p)

omit [DecidableEq τ] in
theorem Notified.append (notified : Notified log thread p) (left : Note.left p ∉ more)
    (began : Note.began thread p ∉ more) : Notified (log ++ more) thread p := by
  obtain ⟨before, after, rfl, left', began'⟩ := notified
  refine ⟨before, after ++ more, by simp, ?_, ?_⟩
  · rw [List.mem_append, not_or]
    exact ⟨left', left⟩
  · rw [List.mem_append, not_or]
    exact ⟨began', began⟩

omit [DecidableEq τ] in
/-- A step that lets no thread begin to wait and no job stop to run. -/
theorem Awake.keep (awake : Awake s)
    (calls : ∀ thread i p, t.calls thread = some (.waiting i p) →
      s.calls thread = some (.waiting i p))
    (obj : ∀ p j, s.obj p = some j → j.jobState = .stateRunning →
      ∃ j', t.obj p = some j' ∧ j'.jobState = .stateRunning)
    (log : t.log = s.log) : Awake t := by
  intro thread i p inside
  rcases awake thread i p (calls thread i p inside) with ⟨j, found, running⟩ | notified
  · exact .inl (obj p j found running)
  · exact .inr (log ▸ notified)

omit [DecidableEq τ] in
/-- A job changes, and goes on running if it was. -/
theorem Awake.change (awake : Awake s) (found : s.deref i = some (p, j)) (j' : Job)
    (calls : ∀ thread i p, t.calls thread = some (.waiting i p) →
      s.calls thread = some (.waiting i p))
    (obj : t.obj = Function.update s.obj p (some j')) (more : List (Note τ))
    (log : t.log = s.log ++ more)
    (quiet : ∀ q thread, q ≠ p → Note.left q ∉ more ∧ Note.began thread q ∉ more)
    (here : ∀ thread i, s.calls thread = some (.waiting i p) →
      j'.jobState = .stateRunning ∨ Notified t.log thread p) : Awake t := by
  intro thread x q inside
  have before := calls thread x q inside
  by_cases same : q = p
  · subst same
    rcases here thread x before with running | notified
    · exact .inl ⟨j', by rw [obj, Function.update_self], running⟩
    · exact .inr notified
  · rcases awake thread x q before with ⟨j, found, running⟩ | notified
    · exact .inl ⟨j, by rw [obj, Function.update_of_ne same, found], running⟩
    · obtain ⟨left, began⟩ := quiet q thread same
      exact .inr (log ▸ notified.append left began)

/-- What is noted of a job that changes from `j` to `j'`. -/
def leaving (p : Nat) (j j' : Job) : List (Note τ) :=
  if j.jobState = .stateRunning ∧ j'.jobState ≠ .stateRunning then [.left p] else []

omit [DecidableEq τ] in
theorem change_log (s : Sys τ) (p : Nat) (j j' : Job) :
    (s.change p j j').log = s.log ++ leaving p j j' := by
  unfold Sys.change leaving
  dsimp only
  split
  · rfl
  · exact (List.append_nil _).symm

omit [DecidableEq τ] in
theorem leaving_quiet {j' : Job} (other : q ≠ p) :
    Note.left q ∉ leaving (τ := τ) p j j' ∧ Note.began thread q ∉ leaving p j j' := by
  unfold leaving
  split
  · exact ⟨fun mem => other (Note.left.inj (List.mem_singleton.mp mem)),
      fun mem => nomatch List.mem_singleton.mp mem⟩
  · exact ⟨nofun, nofun⟩

omit [DecidableEq τ] in
/-- A thread that waits for a job that was not running is already notified. -/
theorem Awake.stays (awake : Awake s) (found : s.deref i = some (p, j)) {j' : Job} {x : Slot}
    (runs : j.jobState = .stateRunning → j'.jobState = .stateRunning)
    (inside : s.calls thread = some (.waiting x p)) :
    j'.jobState = .stateRunning ∨ Notified (s.change p j j').log thread p := by
  by_cases running : j.jobState = .stateRunning
  · exact .inl (runs running)
  · right
    rw [change_log, leaving, if_neg fun leaves => running leaves.1, List.append_nil]
    rcases awake thread x p inside with ⟨j₁, found', running'⟩ | notified
    · rw [obj_of_deref found, Option.some.injEq] at found'
      rw [← found'] at running'
      exact absurd running' running
    · exact notified

theorem Awake.effect (awake : Awake s) (table : Table s) (calm : Calm s e)
    (effect : Effect s e t) : Awake t := by
  have kept : ∀ p j, s.obj p = some j → j.jobState = .stateRunning →
      ∃ j', s.obj p = some j' ∧ j'.jobState = .stateRunning := fun p j found running =>
    ⟨j, found, running⟩
  have returns : ∀ {thread other i p},
      Function.update s.calls thread none other = some (.waiting i p) →
        s.calls other = some (.waiting i p) := fun inside => (update_none_eq_some.mp inside).2
  have enters : ∀ {thread other c i p}, (∀ i p, c ≠ .waiting i p) →
      Function.update s.calls thread (some c) other = some (.waiting i p) →
        s.calls other = some (.waiting i p) := by
    intro thread other c i p awake inside
    rcases update_some_eq_some.mp inside with ⟨-, same⟩ | ⟨-, before⟩
    · exact absurd same (awake i p)
    · exact before
  cases effect with
  | fault why => exact awake.keep (fun _ _ _ inside => inside) kept rfl
  | ret thread result => exact awake.keep (fun _ _ _ => returns) kept rfl
  | enter thread c placed awake' => exact awake.keep (fun _ _ _ => enters awake') kept rfl
  | wait thread i p j found running =>
      intro other x q inside
      rcases update_some_eq_some.mp inside with ⟨-, same⟩ | ⟨ne, before⟩
      · cases same
        exact .inl ⟨j, obj_of_deref found, running⟩
      · rcases awake other x q before with running | notified
        · exact .inl running
        · refine .inr (notified.append (fun mem => ?_) fun mem => ?_)
          · cases List.mem_singleton.mp mem
          · exact ne (Note.began.inj (List.mem_singleton.mp mem)).1
  | change thread i p j j' result found leaves =>
      refine awake.change found j' (fun other x q inside => ?_) (change_obj s p j j')
        (leaving p j j') (change_log s p j j') (fun q thread => leaving_quiet)
        fun other x inside => ?_
      · have before := (update_none_eq_some.mp inside).2
        rwa [change_calls] at before
      · refine awake.stays found (fun running => ?_) inside
        by_contra stops
        exact calm p (leaves running stops) other x inside
  | lock thread i p listed => exact awake.keep (fun _ _ _ => enters nofun) kept rfl
  | unlock thread p result => exact awake.keep (fun _ _ _ => returns) kept rfl
  | create thread me =>
      have older : ∀ p j, s.obj p = some j → j.jobState = .stateRunning →
          ∃ j', Function.update s.obj s.born (some me) p = some j' ∧
            j'.jobState = .stateRunning := by
        intro p j found running
        have ne : p ≠ s.born := Nat.ne_of_lt (table.born p (by rw [found]; rfl))
        exact ⟨j, by rw [Function.update_of_ne ne, found], running⟩
      unfold Sys.atAddjob
      dsimp only
      split
      · exact awake.keep (fun _ _ _ => returns) older rfl
      · exact awake.keep (fun _ _ _ => returns) older rfl
  | release thread i p j inside found ended => exact awake.keep (fun _ _ _ => returns) kept rfl
  | pass pass => exact awake.keep (fun _ _ _ inside => inside) kept rfl
  | count i p j pass found runs =>
      refine awake.change found j.tick.1 (fun other x q inside => ?_) (change_obj s p j j.tick.1)
        (leaving p j j.tick.1) (change_log s p j j.tick.1) (fun q thread => leaving_quiet)
        fun other x inside => ?_
      · rwa [← change_calls s p j j.tick.1]
      · exact awake.stays found runs inside
  | ends i p j pass found running ended =>
      refine awake.change found j.tick.1 (fun other x q inside => ?_) (change_obj s p j j.tick.1)
        (leaving p j j.tick.1 ++ [.broadcast p]) ?_ (fun q thread ne => ?_) fun other x inside => ?_
      · rwa [← change_calls s p j j.tick.1]
      · rw [← List.append_assoc, ← change_log]
        rfl
      · obtain ⟨left, began⟩ : Note.left q ∉ leaving p j j.tick.1 ∧
            Note.began thread q ∉ leaving p j j.tick.1 := leaving_quiet ne
        exact ⟨by simpa using left, by simpa using began⟩
      · exact .inr ⟨_, [], rfl, nofun, nofun⟩

omit [DecidableEq τ] in
theorem start_awake : Awake (Sys.start (τ := τ)) :=
  fun _ _ _ inside => nomatch inside

/-! ## What the condition rules out -/

/-- A step that ends the running of a job, by a thread that does not wait. -/
theorem leaves_step (leaves : Leaves s p e) (stepped : s.step e = some t) :
    ∃ thread j j' result, t = (s.change p j j').ret thread result ∧ j.jobState = .stateRunning ∧
      j'.jobState ≠ .stateRunning ∧ ∀ i q, s.calls thread ≠ some (.waiting i q) := by
  have acts : s.act e = some t := by
    unfold Sys.step at stepped
    split at stepped
    · cases stepped
    · exact stepped
  cases e with
  | canceljob thread id =>
      obtain ⟨i, j, named, alive, running⟩ := leaves
      simp only [Sys.act] at acts
      split at acts
      · cases acts
      · next free =>
          rw [not_or, not_not] at free
          unfold Sys.atCanceljob at acts
          rw [named] at acts
          dsimp only at acts
          rw [alive] at acts
          dsimp only at acts
          split at acts
          · cases acts
          · rw [if_neg (by simp [running]), Option.some.injEq] at acts
            exact ⟨thread, j, _, _, acts.symm, running, by simp, by simp [free.1]⟩
  | next thread =>
      obtain ⟨i, q, j, inside, alive, found, running⟩ := leaves
      obtain ⟨j₁, alive⟩ := Option.isSome_iff_exists.mp alive
      simp only [Sys.act, Sys.next, inside, Sys.lock, alive] at acts
      split at acts
      · cases acts
      · rw [Option.some.injEq, Sys.under, found] at acts
        dsimp only at acts
        rw [if_neg (not_not.mpr running)] at acts
        exact ⟨thread, j, _, _, acts.symm, running, by simp, by simp [inside]⟩
  | addjob thread sec isRepeat mem => exact leaves.elim
  | waitjob thread id => exact leaves.elim
  | stopjob thread id => exact leaves.elim
  | resumejob thread id => exact leaves.elim
  | tick => exact leaves.elim

omit [DecidableEq τ] in
/-- Nothing was broadcast after the last note. -/
theorem not_notified (log : List (Note τ)) : ¬ Notified (log ++ [.left p]) thread p := by
  rintro ⟨before, after, eq, left, -⟩
  rcases List.eq_nil_or_concat' after with rfl | ⟨after, n, rfl⟩
  · exact nomatch (List.append_inj' eq rfl).2
  · rw [← List.cons_append, ← List.append_assoc] at eq
    rw [← (List.append_inj' eq rfl).2] at left
    exact left (List.mem_append_right after List.mem_cons_self)

/-- A step against the condition leaves a thread asleep. -/
theorem condition_needed (against : ¬ Calm s e) (stepped : s.step e = some t) : ¬ Awake t := by
  simp only [Calm, not_forall, not_not] at against
  obtain ⟨p, leaves, other, i, inside⟩ := against
  obtain ⟨thread, j, j', result, rfl, running, stopped, moves⟩ := leaves_step leaves stepped
  intro awake
  have ne : other ≠ thread := by
    rintro rfl
    exact moves i p inside
  have waits : ((s.change p j j').ret thread result).calls other = some (.waiting i p) := by
    show Function.update (s.change p j j').calls thread none other = _
    rw [change_calls, Function.update_of_ne ne, inside]
  rcases awake other i p waits with ⟨j₁, found, running'⟩ | notified
  · change (s.change p j j').obj p = some j₁ at found
    rw [change_obj, Function.update_self, Option.some.injEq] at found
    rw [← found] at running'
    exact stopped running'
  · change Notified (s.change p j j').log other p at notified
    rw [change_log, leaving, if_pos ⟨running, stopped⟩] at notified
    exact not_notified _ notified

/-- Wake-ups are not lost anywhere in a run if and only if no section of
`at_canceljob` or `at_stopjob` ends the running of a job that a thread waits for. -/
theorem no_lost_wakeup_iff (ran : run Sys.step (Sys.start (τ := τ)) es = some s) :
    (∀ fs t, fs <+: es → run Sys.step Sys.start fs = some t → Awake t) ↔
      Along Sys.step Calm Sys.start es := by
  constructor
  · intro each
    refine along_iff_prefix.mpr fun fs e u first ran' => ?_
    obtain ⟨gs, rfl⟩ := first
    obtain ⟨t, ran'', -⟩ := run_append_eq_some.mp ran
    obtain ⟨u', before, stepped⟩ := run_concat_eq_some.mp ran''
    rw [ran', Option.some.injEq] at before
    subst before
    by_contra against
    exact condition_needed against stepped (each _ t (List.prefix_append _ gs) ran'')
  · rintro calm fs t ⟨gs, rfl⟩ ran'
    have inv : Table t ∧ Awake t :=
      run_invariant (I := fun s => Table s ∧ Awake s)
        (fun inv calm stepped => ⟨inv.1.effect (step_effect stepped),
          inv.2.effect inv.1 calm (step_effect stepped)⟩)
        ⟨start_table, start_awake⟩ (along_append.mp calm).1 ran'
    exact inv.2

/-- A thread goes to sleep on a running job. -/
def sleeper : List (Event Bool) :=
  [.addjob true 5 NOREPEAT true, .waitjob true 0, .next true, .next true]

theorem no_lost_wakeup_iff_sleeper :
    ∃ s, run Sys.step Sys.start sleeper = some s ∧ s.calls true = some (.waiting 0 0) ∧
      ((∀ fs t, fs <+: sleeper → run Sys.step Sys.start fs = some t → Awake t) ↔
        Along Sys.step Calm Sys.start sleeper) := by
  have ran : (run Sys.step Sys.start sleeper).map (fun s => s.calls true) =
      some (some (.waiting 0 0)) := by
    decide +kernel
  obtain ⟨s, ran, waits⟩ := Option.map_eq_some_iff.mp ran
  exact ⟨s, ran, waits, no_lost_wakeup_iff ran⟩

/-- Another thread pauses the job, and nobody wakes the sleeper. -/
theorem no_lost_wakeup_fails :
    ∃ s, run Sys.step Sys.start (sleeper ++ [.stopjob false 0, .next false]) = some s ∧
      ¬ Awake s := by
  have ran : (run Sys.step Sys.start (sleeper ++ [.stopjob false 0, .next false])).map
      (fun s => (s.calls true, s.obj 0, s.log)) =
        some (some (.waiting 0 0), some ⟨.statePause, 5, 5, NOREPEAT⟩,
          [.began true 0, .left 0]) := by
    decide +kernel
  obtain ⟨s, ran, eq⟩ := Option.map_eq_some_iff.mp ran
  simp only [Prod.mk.injEq] at eq
  obtain ⟨waits, paused, log⟩ := eq
  refine ⟨s, ran, fun awake => ?_⟩
  rcases awake true 0 0 waits with ⟨j, found, running⟩ | notified
  · rw [paused, Option.some.injEq] at found
    rw [← found] at running
    cases running
  · rw [log] at notified
    exact not_notified [.began true 0] notified

end Shang.Anytimer.Threads
