import Shang.Pool.Slots

/-!
# Whom the manager terminates

`del_one_worker` takes the first slot in use, whatever its state field says and
whatever its worker is doing. Which slot that is, and what its worker is doing, is
known when the loop that removes workers comes around: the terminations of a run are
all of idle workers exactly when the first slot in use is idle each time.
-/

namespace Shang.Pool

open Lib

/-- The worker has accepted a connection and not closed it. -/
def Stage.Connected (stage : Stage) : Prop := stage = .accepted ∨ stage = .serving

instance (stage : Stage) : Decidable stage.Connected :=
  inferInstanceAs (Decidable (stage = .accepted ∨ stage = .serving))

/-- Nobody is terminated but an idle worker without a connection. -/
def Kill.Fair (k : Kill) : Prop := k.state = .idle ∧ ∀ w ∈ k.worker, ¬ w.stage.Connected

instance (k : Kill) : Decidable k.Fair :=
  inferInstanceAs (Decidable (k.state = .idle ∧ ∀ w ∈ k.worker, ¬ w.stage.Connected))

/-- The manager is about to call `del_one_worker`. -/
def Removes (s : World) : Prop :=
  match s.phase with
  | .trim i => i < s.idleNum - MAXSEPARATE
  | _ => False

instance (s : World) : Decidable (Removes s) := by
  unfold Removes
  split <;> infer_instance

/-- If the manager is about to call `del_one_worker`, the first slot in use is idle, and its
worker has no connection. -/
def Spares (s : World) : Event → Prop
  | .manage _ => Removes s → ∀ num ∈ findUsed s.pool MAXCLIENT 0,
      (s.pool num).state = .idle ∧ ∀ w ∈ s.workers (s.pool num).pid, ¬ w.stage.Connected
  | _ => True

instance Spares.decidable (s : World) : (e : Event) → Decidable (Spares s e)
  | .manage _ => inferInstanceAs (Decidable (Removes s → ∀ num ∈ findUsed s.pool MAXCLIENT 0,
      (s.pool num).state = .idle ∧ ∀ w ∈ s.workers (s.pool num).pid, ¬ w.stage.Connected))
  | .work _ _ | .wake | .die _ => isTrue trivial

variable {s t : World} {e : Event} {forked : Option Int}

theorem not_removes (phase : ∀ i, s.phase ≠ .trim i) : ¬ Removes s := by
  unfold Removes
  split
  · rename_i i trim
    exact absurd trim (phase i)
  · exact id

/-- The terminations of a step are fair exactly when the step spares the others. -/
theorem manage_kills (managed : manage s forked = some t) :
    (∀ k ∈ t.kills, k.Fair) ↔ (∀ k ∈ s.kills, k.Fair) ∧ Spares s (.manage forked) := by
  have same (kills : t.kills = s.kills) (idle : ¬ Removes s) :
      (∀ k ∈ t.kills, k.Fair) ↔ (∀ k ∈ s.kills, k.Fair) ∧ Spares s (.manage forked) := by
    rw [kills]
    exact (and_iff_left fun removes => absurd removes idle).symm
  cases manage_cases managed with
  | trim i phase more =>
      have removes : Removes s := by
        unfold Removes
        rw [phase]
        exact more
      rcases delOneWorker_cases s with ⟨missing, same⟩ | ⟨num, found, killed⟩
      · have spares : Spares s (.manage forked) := by
          intro _ num found
          rw [missing] at found
          cases found
        rw [same]
        exact (and_iff_left spares).symm
      · have one : Spares s (.manage forked) ↔
            Kill.Fair ⟨num, (s.pool num).state, s.workers (s.pool num).pid⟩ := by
          constructor
          · exact fun spares => spares removes num found
          · intro fair _ num' found'
            cases found.symm.trans found'
            exact fair
        rw [killed, one]
        show (∀ k ∈ s.kills ++ [_], k.Fair) ↔ _
        rw [List.forall_mem_append, List.forall_mem_singleton]
  | trimmed i phase enough =>
      refine same rfl ?_
      unfold Removes
      rw [phase]
      exact Int.not_lt.mpr enough
  | free i phase | dead i phase | alive i phase | few i phase | enough i phase
  | readBusy i phase | readIdle i phase | full boot i phase | failed boot i phase
  | fork boot i pid phase | booted i phase | added i phase | store boot i num pid phase =>
      refine same rfl (not_removes fun j trim => ?_)
      rw [phase] at trim
      cases trim

theorem step_kills (stepped : step s e = some t) :
    (∀ k ∈ t.kills, k.Fair) ↔ (∀ k ∈ s.kills, k.Fair) ∧ Spares s e := by
  cases e with
  | manage forked => exact manage_kills stepped
  | wake =>
      obtain ⟨-, rfl⟩ := wake_cases stepped
      exact (and_iff_left trivial).symm
  | work pid ok =>
      obtain ⟨w, -, rfl⟩ := work_cases stepped
      exact (and_iff_left trivial).symm
  | die pid =>
      obtain rfl := die_cases stepped
      exact (and_iff_left trivial).symm

theorem run_kills {es : List Event} (ran : run step s es = some t) :
    (∀ k ∈ t.kills, k.Fair) ↔ (∀ k ∈ s.kills, k.Fair) ∧ Along step Spares s es := by
  induction es generalizing s with
  | nil =>
      cases ran
      exact (and_iff_left trivial).symm
  | cons e es ih =>
      obtain ⟨u, first, rest⟩ := run_cons_eq_some.mp ran
      rw [ih rest, step_kills first, and_assoc]
      refine and_congr_right fun _ => and_congr_right fun _ => ?_
      constructor
      · intro along v stepped
        cases first.symm.trans stepped
        exact along
      · exact fun along => along u first

/-- **Terminations.** A run terminates none but idle workers exactly when the first slot in
use is idle, and its worker has no connection, whenever the manager removes a worker. -/
theorem kills_fair_iff {es : List Event} (ran : run step init es = some s) :
    (∀ k ∈ s.kills, k.Fair) ↔ Along step Spares init es := by
  rw [run_kills ran]
  exact and_iff_right (List.forall_mem_nil _)

/-- Eleven of the twenty busy workers become idle, and the manager removes one worker. -/
def trimming (pids : List Int) : List Event :=
  filling ++ serving pids ++ .wake :: List.replicate 62 (.manage none)

/-- The manager terminates the worker in slot 0, which is serving a client. -/
theorem kills_fair_fails :
    ¬ ∀ (es : List Event) (s : World), run step init es = some s → ∀ k ∈ s.kills, k.Fair := by
  intro fair
  have busy : (run step init (trimming [2, 3, 4, 5, 6, 7, 8, 9, 10, 11, 12])).map
      (fun s => s.kills) = some [⟨0, .busy, some ⟨0, .serving⟩⟩] := by decide +kernel
  obtain ⟨s, ran, kills⟩ := Option.map_eq_some_iff.mp busy
  have first := fair _ s ran ⟨0, .busy, some ⟨0, .serving⟩⟩ (by rw [kills]; simp)
  exact absurd first (by decide)

/-- The manager terminates the worker in slot 0, which is idle. -/
theorem kills_fair_iff_idle :
    ∃ s, run step init (trimming [1, 2, 3, 4, 5, 6, 7, 8, 9, 10, 11]) = some s ∧
      s.kills = [⟨0, .idle, some ⟨0, .accepting⟩⟩] ∧
      ((∀ k ∈ s.kills, k.Fair) ↔
        Along step Spares init (trimming [1, 2, 3, 4, 5, 6, 7, 8, 9, 10, 11])) := by
  have idle : (run step init (trimming [1, 2, 3, 4, 5, 6, 7, 8, 9, 10, 11])).map
      (fun s => s.kills) = some [⟨0, .idle, some ⟨0, .accepting⟩⟩] := by decide +kernel
  obtain ⟨s, ran, kills⟩ := Option.map_eq_some_iff.mp idle
  exact ⟨s, ran, kills, kills_fair_iff ran⟩

end Shang.Pool
