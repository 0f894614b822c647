import Shang.Lib.Run
import Mathlib.Data.Nat.Init

/-!
# Weakly fair executions

An execution is an infinite run in which a step may also be left out, so that a
machine at its end stays there. It is weakly fair to a party, given by the
events `A` it may take, if from every time on the party takes one of them or is
at some time unable to. `WeakFair.leads` is the rule for one helpful party, and
`eventually_of_rank` puts such steps together.
-/

namespace Shang.Lib

variable {σ ε : Type*} {step : σ → ε → Option σ} {s : Nat → σ} {e : Nat → ε}

/-- At every time the event is taken or nothing happens. -/
def Execution (step : σ → ε → Option σ) (s : Nat → σ) (e : Nat → ε) : Prop :=
  ∀ k, step (s k) (e k) = some (s (k + 1)) ∨ s (k + 1) = s k

/-- From every time on, an event of `A` is taken or none of them can be. -/
def WeakFair (step : σ → ε → Option σ) (A : ε → Prop) (s : Nat → σ) (e : Nat → ε) : Prop :=
  ∀ k, ∃ j, k ≤ j ∧
    (A (e j) ∧ step (s j) (e j) = some (s (j + 1)) ∨ ∀ a, A a → step (s j) a = none)

/-- The states of an execution are reached by runs. -/
theorem Execution.reached (exec : Execution step s e) (k : Nat) :
    ∃ es, run step (s 0) es = some (s k) := by
  induction k with
  | zero => exact ⟨[], rfl⟩
  | succ k ih =>
      obtain ⟨es, ran⟩ := ih
      rcases exec k with stepped | idle
      · exact ⟨es ++ [e k], run_concat_eq_some.mpr ⟨s k, ran, stepped⟩⟩
      · exact ⟨es, idle ▸ ran⟩

/-- What every step keeps or ends is ended by a party that is able to do so as long as it
lasts, if the execution is fair to it. -/
theorem WeakFair.leads {A : ε → Prop} {P Q : σ → Prop} (fair : WeakFair step A s e)
    (exec : Execution step s e)
    (stay : ∀ {s e t}, P s → step s e = some t → P t ∨ Q t)
    (help : ∀ {s e t}, P s → A e → step s e = some t → Q t)
    (able : ∀ {s}, P s → ∃ a, A a ∧ step s a ≠ none) {k : Nat} (start : P (s k)) :
    ∃ j, k ≤ j ∧ Q (s j) := by
  by_contra! never
  have lasts : ∀ j, k ≤ j → P (s j) := by
    intro j later
    induction j, later using Nat.le_induction with
    | base => exact start
    | succ j later ih =>
        rcases exec j with stepped | idle
        · exact (stay ih stepped).resolve_right (never (j + 1) (by omega))
        · exact idle ▸ ih
  obtain ⟨j, later, taken | unable⟩ := fair k
  · exact never (j + 1) (by omega) (help (lasts j later) taken.1 taken.2)
  · obtain ⟨a, own, can⟩ := able (lasts j later)
    exact can (unable a own)

/-- If the rank gets lower sooner or later as long as the end is not reached, it is reached. -/
theorem eventually_of_rank (rank : σ → Nat) (done : σ → Prop)
    (lower : ∀ k, ¬ done (s k) → ∃ j, k ≤ j ∧ rank (s j) < rank (s k)) (k : Nat) :
    ∃ j, k ≤ j ∧ done (s j) := by
  induction left : rank (s k) using Nat.strongRecOn generalizing k with
  | ind r ih =>
      by_cases last : done (s k)
      · exact ⟨k, Nat.le_refl k, last⟩
      · obtain ⟨i, later, less⟩ := lower k last
        obtain ⟨j, later', ended⟩ := ih (rank (s i)) (left ▸ less) i rfl
        exact ⟨j, by omega, ended⟩

end Shang.Lib
