import Shang.Anytimer.Threads
import Mathlib.Data.Fintype.Basic

/-!
# Slots that are used by several threads

`at_waitjob` frees the job it has waited for, whoever else is in a call on it. As
long as no other thread is when it does, and jobs are stopped and resumed only
while they are there, no freed job and no empty slot is followed, and no job is
freed twice. The first step that goes against that leads to such an access: it is
one, or leaves a thread with nothing else to do.
-/

namespace Shang.Anytimer.Threads

open Lib

variable {τ : Type} [DecidableEq τ] {s t : Sys τ} {e : Event τ} {es : List (Event τ)}
  {thread other : τ} {i : Slot} {p : Nat} {c : Call}

def Call.slot : Call → Slot
  | .checked i => i
  | .locking _ i _ => i
  | .waiting i _ => i
  | .leaving i => i
  | .unlocking i _ => i

/-- The job in the slot is one that `at_waitjob` frees. -/
def Sys.Finished (s : Sys τ) (i : Slot) : Prop :=
  ∃ x ∈ s.deref i, x.2.jobState = .stateCancel ∨ x.2.jobState = .stateOver

instance : Decidable (s.Finished i) :=
  inferInstanceAs
    (Decidable (∃ x ∈ s.deref i, x.2.jobState = .stateCancel ∨ x.2.jobState = .stateOver))

/-- A thread that is about to free the job in its slot is the only one that is in
a call on that slot, and a job that is stopped or resumed is in the table. -/
def Clear (s : Sys τ) : Event τ → Prop
  | .next thread => ∀ c ∈ s.calls thread, c = .leaving c.slot → s.Finished c.slot →
      ∀ other, other ≠ thread → ∀ c' ∈ s.calls other, c'.slot ≠ c.slot
  | .stopjob _ id => (s.find id).isSome
  | .resumejob _ id => (s.find id).isSome
  | _ => True

instance [Fintype τ] : ∀ e, Decidable (Clear s e)
  | .next thread => inferInstanceAs (Decidable (∀ c ∈ s.calls thread, c = .leaving c.slot →
      s.Finished c.slot → ∀ other, other ≠ thread → ∀ c' ∈ s.calls other, c'.slot ≠ c.slot))
  | .stopjob _ id => inferInstanceAs (Decidable ((s.find id).isSome = true))
  | .resumejob _ id => inferInstanceAs (Decidable ((s.find id).isSome = true))
  | .addjob _ _ _ _ => isTrue trivial
  | .canceljob _ _ => isTrue trivial
  | .waitjob _ _ => isTrue trivial
  | .tick => isTrue trivial

/-- Nothing that was freed was accessed or freed again. -/
structure Sound (s : Sys τ) : Prop where
  whole : s.broken = false
  once : s.frees.Nodup

/-- Every call is still on the job that it knows. -/
structure Tidy (s : Sys τ) : Prop where
  table : Table s
  placed : ∀ thread c, s.calls thread = some c → Placed s c
  whole : s.broken = false

omit [DecidableEq τ] in
/-- Where a call is placed is a matter of its slot alone. -/
theorem placed_of_slot (placed : Placed s c) (same : t.job c.slot = s.job c.slot) : Placed t c := by
  cases c <;> (simp only [Placed, Call.slot] at placed same ⊢; rw [same]; exact placed)

omit [DecidableEq τ] in
theorem Tidy.keep (tidy : Tidy s) (table : Table t) (job : t.job = s.job)
    (calls : ∀ thread c, t.calls thread = some c → s.calls thread = some c ∨ Placed s c)
    (broken : t.broken = s.broken) : Tidy t where
  table := table
  placed thread c inside := by
    have placed : Placed s c := by
      rcases calls thread c inside with before | now
      · exact tidy.placed thread c before
      · exact now
    exact placed_of_slot placed (by rw [job])
  whole := broken.trans tidy.whole

/-- The calls after one returned, and after one went on. -/
theorem placed_ret (inside : Function.update s.calls thread none other = some c) :
    s.calls other = some c ∨ Placed s c :=
  .inl (update_none_eq_some.mp inside).2

theorem placed_enter {c' : Call} (placed : Placed s c')
    (inside : (s.enter thread c').calls other = some c) : s.calls other = some c ∨ Placed s c := by
  rcases update_some_eq_some.mp inside with ⟨-, rfl⟩ | ⟨-, before⟩
  · exact .inr placed
  · exact .inl before

theorem Tidy.create (tidy : Tidy s) (me : Job) : Tidy (s.atAddjob thread me) := by
  have table := tidy.table.create thread me
  have calls : ∀ other c, Function.update s.calls thread none other = some c → Placed s c :=
    fun other c inside => tidy.placed other c (update_none_eq_some.mp inside).2
  unfold Sys.atAddjob at table ⊢
  dsimp only at table ⊢
  split at table
  · exact ⟨table, calls, tidy.whole⟩
  · next pos free =>
      have empty := getFreePosUnlock_none free
      have kept : ∀ i p, s.job i = some p →
          Function.update s.job pos (some s.born) i = some p := by
        intro i p at_
        refine update_some_eq_some.mpr (.inr ⟨?_, at_⟩)
        rintro rfl
        cases empty.symm.trans at_
      have kept' : ∀ i, (s.job i).isSome →
          (Function.update s.job pos (some s.born) i).isSome := by
        intro i used
        obtain ⟨p, at_⟩ := Option.isSome_iff_exists.mp used
        rw [kept i p at_]
        rfl
      refine ⟨table, fun other c inside => ?_, tidy.whole⟩
      have placed := calls other c inside
      cases c with
      | checked i => exact kept' i placed
      | leaving i => exact kept' i placed
      | locking f i p => exact kept i p placed
      | waiting i p => exact kept i p placed
      | unlocking i p => exact kept i p placed

theorem Tidy.release {j : Job} (tidy : Tidy s) (found : s.deref i = some (p, j))
    (alone : ∀ other, other ≠ thread → ∀ c ∈ s.calls other, c.slot ≠ i) (result : Option Int) :
    Tidy ({ s with
      frees := s.frees ++ [p]
      job := Function.update s.job i none }.ret thread result) where
  table := tidy.table.release found result
  placed other c inside := by
    obtain ⟨ne, before⟩ := update_none_eq_some.mp inside
    exact placed_of_slot (tidy.placed other c before)
      (Function.update_of_ne (alone other ne c before) _ _)
  whole := tidy.whole

omit [DecidableEq τ] in
theorem Tidy.not_stray (tidy : Tidy s) (clear : Clear s e) : ¬ Stray s e := by
  intro stray
  cases e with
  | next thread =>
      obtain ⟨c, inside, misplaced⟩ := stray
      exact misplaced (tidy.placed thread c inside)
  | stopjob thread id =>
      rw [Stray] at stray
      rw [Clear, stray] at clear
      cases clear
  | resumejob thread id =>
      rw [Stray] at stray
      rw [Clear, stray] at clear
      cases clear
  | addjob thread sec isRepeat mem => exact stray
  | canceljob thread id => exact stray
  | waitjob thread id => exact stray
  | tick => exact stray

theorem Tidy.effect (tidy : Tidy s) (clear : Clear s e) (effect : Effect s e t) : Tidy t := by
  have table := tidy.table.effect effect
  cases effect with
  | fault why => exact (why.elim (tidy.not_stray clear) tidy.table.not_dangling).elim
  | ret thread result => exact tidy.keep table rfl (fun _ _ => placed_ret) rfl
  | enter thread c placed awake => exact tidy.keep table rfl (fun _ _ => placed_enter placed) rfl
  | wait thread i p j found running =>
      exact tidy.keep table rfl
        (fun _ _ => placed_enter (s := s) (deref_eq_some.mp found).1) rfl
  | change thread i p j j' result found leaves =>
      refine tidy.keep table (change_job s p j j') (fun other c inside => ?_)
        (change_broken s p j j')
      have before := (update_none_eq_some.mp inside).2
      rw [change_calls] at before
      exact .inl before
  | lock thread i p listed =>
      exact tidy.keep table rfl (fun _ _ => placed_enter (s := s) listed) rfl
  | unlock thread p result => exact tidy.keep table rfl (fun _ _ => placed_ret) rfl
  | create thread me => exact tidy.create me
  | release thread i p j inside found ended =>
      exact tidy.release found (clear _ inside rfl ⟨(p, j), found, ended⟩) _
  | pass pass => exact tidy.keep table rfl (fun _ _ inside => .inl inside) rfl
  | count i p j pass found runs =>
      refine tidy.keep table (change_job s p j j.tick.1) (fun other c inside => ?_)
        (change_broken s p j j.tick.1)
      rw [← change_calls s p j j.tick.1]
      exact .inl inside
  | ends i p j pass found running ended =>
      refine tidy.keep table (change_job s p j j.tick.1) (fun other c inside => ?_)
        (change_broken s p j j.tick.1)
      rw [← change_calls s p j j.tick.1]
      exact .inl inside

omit [DecidableEq τ] in
theorem start_tidy : Tidy (Sys.start (τ := τ)) :=
  ⟨start_table, fun _ _ inside => (nomatch inside), rfl⟩

theorem Tidy.run (allowed : Along Sys.step Clear (Sys.start (τ := τ)) es)
    (ran : run Sys.step Sys.start es = some s) : Tidy s :=
  run_invariant (fun tidy clear stepped => tidy.effect clear (step_effect stepped)) start_tidy
    allowed ran

/-! ## What the condition rules out -/

/-- A thread that is in a call on a slot that was emptied, with its job freed, has
only one step left. -/
theorem faults (whole : t.broken = false) (idle : t.pass = none) (empty : t.job i = none)
    (freed : ∀ q, s.job i = some q → t.live q = none) (inside : t.calls other = some c)
    (slot : c.slot = i) (placed : Placed s c) :
    ∃ u, t.step (.next other) = some u ∧ u.broken = true := by
  have lost : t.deref i = none := by
    unfold Sys.deref
    rw [empty, Option.bind_none]
  have steps : t.step (.next other) = t.next other := by
    unfold Sys.step
    rw [whole]
    rfl
  refine ⟨t.fault, ?_, rfl⟩
  rw [steps]
  unfold Sys.next
  rw [inside]
  subst slot
  cases c with
  | checked i =>
      simp only [Sys.readJob, Call.slot] at empty ⊢
      rw [empty]
  | leaving i =>
      simp only [Sys.release, Call.slot] at lost ⊢
      rw [lost, idle]
      rfl
  | locking f i p =>
      simp only [Sys.lock, freed p placed]
  | waiting i p =>
      simp only [Sys.lock, freed p placed]
  | unlocking i p =>
      simp only [Sys.unlock, Call.slot] at lost ⊢
      rw [lost]

/-- A job that is not there is stopped or resumed. -/
theorem begins_broken {id : Int} (lost : s.find id = none) (f : Locker) (thread : τ)
    (acts : (match slotOf id with
      | none => some s.fault
      | some i => some (s.readJob f thread i)) = some t) : t.broken = true := by
  split at acts
  · cases acts
    rfl
  · next i named =>
      unfold Sys.find at lost
      rw [named, Option.bind_some, Option.map_eq_none_iff] at lost
      unfold Sys.readJob at acts
      rw [lost] at acts
      cases acts
      rfl

/-- A step against the condition is an access to a job that is not there, or the
next step of some thread is. -/
theorem Tidy.condition_needed (tidy : Tidy s) (against : ¬ Clear s e)
    (stepped : s.step e = some t) :
    t.broken = true ∨ ∃ other u, t.step (.next other) = some u ∧ u.broken = true := by
  have acts : s.act e = some t := by
    unfold Sys.step at stepped
    rwa [tidy.whole] at stepped
  cases e with
  | next thread =>
      right
      have leaves : ∃ i, s.calls thread = some (.leaving i) ∧ s.Finished i ∧
          ∃ other, other ≠ thread ∧ ∃ c ∈ s.calls other, c.slot = i := by
        simp only [Clear, not_forall] at against
        obtain ⟨c, inside, leaving, finished, other, ne, c', inside', slot⟩ := against
        exact ⟨c.slot, leaving ▸ inside, finished, other, ne, c', inside', not_not.mp slot⟩
      obtain ⟨i, inside, ⟨⟨p, j⟩, found, ended⟩, other, ne, c, inside', slot⟩ := leaves
      have idle : s.pass = none := by
        by_contra busy
        simp only [Sys.act, Sys.next, inside] at acts
        rw [if_pos busy] at acts
        cases acts
      have eq : t = { s with
          frees := s.frees ++ [p]
          job := Function.update s.job i none }.ret thread (some 0) := by
        simp only [Sys.act, Sys.next, inside] at acts
        rw [if_neg (not_not.mpr idle), Option.some.injEq] at acts
        rw [← acts]
        unfold Sys.release
        rw [show s.deref i = some (p, j) from found]
        exact if_pos ended
      have freed : ∀ q, s.job i = some q → t.live q = none := by
        intro q at_
        rw [(deref_eq_some.mp found).1, Option.some.injEq] at at_
        rw [eq, ← at_]
        exact if_pos (List.mem_append_right _ List.mem_cons_self)
      refine ⟨other, faults ?_ ?_ ?_ freed ?_ slot (tidy.placed other c inside')⟩
      · rw [eq]
        exact tidy.whole
      · rw [eq]
        exact idle
      · rw [eq]
        exact Function.update_self _ _ _
      · rw [eq]
        exact (Function.update_of_ne ne _ _).trans inside'
  | stopjob thread id =>
      rw [Clear, Option.not_isSome_iff_eq_none] at against
      simp only [Sys.act] at acts
      split at acts
      · cases acts
      · exact .inl (begins_broken against .stopjob thread acts)
  | resumejob thread id =>
      rw [Clear, Option.not_isSome_iff_eq_none] at against
      simp only [Sys.act] at acts
      split at acts
      · cases acts
      · exact .inl (begins_broken against .resumejob thread acts)
  | addjob thread sec isRepeat mem => exact absurd trivial against
  | canceljob thread id => exact absurd trivial against
  | waitjob thread id => exact absurd trivial against
  | tick => exact absurd trivial against

/-- In every run whose steps meet the condition no thread follows a job that was
freed or a slot that is empty, and no job is freed twice; and the first step that
does not meet it leads there. -/
theorem slot_safety_run (allowed : Along Sys.step Clear (Sys.start (τ := τ)) es)
    (ran : run Sys.step Sys.start es = some s) :
    Sound s ∧ ∀ e t, ¬ Clear s e → s.step e = some t →
      t.broken = true ∨ ∃ other u, t.step (.next other) = some u ∧ u.broken = true :=
  have tidy := Tidy.run allowed ran
  ⟨⟨tidy.whole, tidy.table.once⟩, fun _ _ against stepped => tidy.condition_needed against stepped⟩

/-- Two threads wait for a cancelled job, and both have passed the check. -/
def twoWaiters : List (Event Bool) :=
  [.addjob true 5 NOREPEAT true, .canceljob true 0, .waitjob true 0, .waitjob false 0]

/-- One of them alone frees it. -/
theorem slot_safety_run_waiter :
    ∃ s : Sys Bool, run Sys.step Sys.start
        [.addjob true 5 NOREPEAT true, .canceljob false 0, .waitjob true 0, .next true, .next true,
          .next true] = some s ∧
      (s.frees = [0] ∧ s.job 0 = none) ∧
      (Sound s ∧ ∀ e t, ¬ Clear s e → s.step e = some t →
        t.broken = true ∨ ∃ other u, t.step (.next other) = some u ∧ u.broken = true) := by
  have ran : (run Sys.step (Sys.start (τ := Bool))
      [.addjob true 5 NOREPEAT true, .canceljob false 0, .waitjob true 0, .next true, .next true,
        .next true]).map (fun s => (s.frees, s.job 0)) = some ([0], none) := by
    decide +kernel
  obtain ⟨s, ran, eq⟩ := Option.map_eq_some_iff.mp ran
  simp only [Prod.mk.injEq] at eq
  exact ⟨s, ran, eq, slot_safety_run (by decide +kernel) ran⟩

/-- The first of them frees the job before the second has locked its mutex. -/
theorem slot_safety_fails :
    ∃ s, run Sys.step Sys.start
        (twoWaiters ++ [.next true, .next true, .next true, .next false]) = some s ∧
      ¬ Sound s := by
  have ran : (run Sys.step Sys.start
      (twoWaiters ++ [.next true, .next true, .next true, .next false])).map
        (fun s => s.broken) = some true := by
    decide +kernel
  obtain ⟨s, ran, broken⟩ := Option.map_eq_some_iff.mp ran
  exact ⟨s, ran, fun sound => nomatch sound.whole.symm.trans broken⟩

end Shang.Anytimer.Threads
