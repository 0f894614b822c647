import Mathlib.Data.List.Basic

/-!
# Runs of a partial step function

A machine is a step function `step : σ → ε → Option σ`: the event `e` names
everything the step does not decide itself (which operation is called, what
the kernel answers), and `none` is a step the machine cannot take. `run` is
the state after a list of events. `Along` says that a condition on the state
and the next event holds at every step of a run; the two induction rules below
carry an invariant along such a run.
-/

namespace Shang.Lib

variable {σ ε : Type*} {step : σ → ε → Option σ} {s t u : σ} {e : ε} {es fs : List ε}

/-- The state reached from `s` on the events `es`. -/
def run (step : σ → ε → Option σ) : σ → List ε → Option σ
  | s, [] => some s
  | s, e :: es => (step s e).bind fun t => run step t es

@[simp] theorem run_nil : run step s [] = some s := rfl

theorem run_cons_eq_some :
    run step s (e :: es) = some u ↔ ∃ t, step s e = some t ∧ run step t es = some u := by
  simp [run, Option.bind_eq_some_iff]

theorem run_append_eq_some :
    run step s (es ++ fs) = some u ↔ ∃ t, run step s es = some t ∧ run step t fs = some u := by
  induction es generalizing s with
  | nil => simp
  | cons e es ih =>
      simp only [List.cons_append, run_cons_eq_some, ih]
      constructor
      · rintro ⟨t, first, v, rest, last⟩
        exact ⟨v, ⟨t, first, rest⟩, last⟩
      · rintro ⟨v, ⟨t, first, rest⟩, last⟩
        exact ⟨t, first, v, rest, last⟩

theorem run_concat_eq_some :
    run step s (es ++ [e]) = some u ↔ ∃ t, run step s es = some t ∧ step t e = some u := by
  simp [run_append_eq_some, run_cons_eq_some]

/-- Every step of the run of `es` from `s` starts in a state that satisfies
`C` together with the event it takes. -/
def Along (step : σ → ε → Option σ) (C : σ → ε → Prop) : σ → List ε → Prop
  | _, [] => True
  | s, e :: es => C s e ∧ ∀ t, step s e = some t → Along step C t es

instance Along.decidable {C : σ → ε → Prop} [∀ s e, Decidable (C s e)] :
    ∀ (es : List ε) (s : σ), Decidable (Along step C s es)
  | [], _ => isTrue trivial
  | e :: es, s =>
    have : DecidablePred fun t => Along step C t es := Along.decidable es
    inferInstanceAs (Decidable (C s e ∧ ∀ t ∈ step s e, Along step C t es))

/-- A condition along a run cut in two. -/
theorem along_append {C : σ → ε → Prop} :
    Along step C s (es ++ fs) ↔
      Along step C s es ∧ ∀ t, run step s es = some t → Along step C t fs := by
  induction es generalizing s with
  | nil => simp [Along]
  | cons e es ih =>
      simp only [List.cons_append, Along, ih, run_cons_eq_some]
      constructor
      · intro ⟨first, rest⟩
        refine ⟨⟨first, fun t stepped => (rest t stepped).1⟩, ?_⟩
        intro u ⟨t, stepped, ran⟩
        exact (rest t stepped).2 u ran
      · intro ⟨⟨first, rest⟩, last⟩
        exact ⟨first, fun t stepped => ⟨rest t stepped, fun u ran => last u ⟨t, stepped, ran⟩⟩⟩

/-- A condition holds along a run if it holds at the last step of each of its
beginnings. -/
theorem along_iff_prefix {C : σ → ε → Prop} :
    Along step C s es ↔
      ∀ fs e t, fs ++ [e] <+: es → run step s fs = some t → C t e := by
  constructor
  · rintro allowed fs e t ⟨gs, rfl⟩ ran
    rw [List.append_assoc, along_append] at allowed
    exact (allowed.2 t ran).1
  · intro each
    induction es generalizing s with
    | nil => trivial
    | cons e es ih =>
        refine ⟨each [] e s (List.prefix_append [e] es) rfl, fun t stepped => ih ?_⟩
        intro fs f u first ran
        exact each (e :: fs) f u (List.cons_prefix_cons.mpr ⟨rfl, first⟩)
          (run_cons_eq_some.mpr ⟨t, stepped, ran⟩)

/-- A condition decides what holds in the states that the beginnings of a run reach, if it leads
from a sound state to a sound one, and what holds of the sound states fails behind a step that
breaks it. `note` keeps a record of the events. -/
theorem along_iff_reached {τ : Type*} (note : τ → ε → τ) (G P : τ → σ → Prop) {C : σ → ε → Prop}
    (keep : ∀ {l s e t}, G l s → C s e → step s e = some t → G (note l e) t)
    (holds : ∀ {l s}, G l s → P l s)
    (breaks : ∀ {l s e t}, G l s → ¬ C s e → step s e = some t → ¬ P (note l e) t)
    (ends : ∀ {s e}, step s e = none → C s e) {l : τ} (start : G l s) :
    (∀ fs t, fs <+: es → run step s fs = some t → P (fs.foldl note l) t) ↔
      Along step C s es := by
  induction es generalizing s l with
  | nil =>
      refine iff_of_true (fun fs t first ran => ?_) trivial
      cases List.prefix_nil.mp first
      cases ran
      exact holds start
  | cons e es ih =>
      constructor
      · intro each
        have allowed : C s e := by
          by_contra broken
          cases stepped : step s e with
          | none => exact broken (ends stepped)
          | some t =>
              apply breaks start broken stepped
              exact each [e] t (List.prefix_append [e] es)
                (run_cons_eq_some.mpr ⟨t, stepped, rfl⟩)
        refine ⟨allowed, fun t stepped => (ih (keep start allowed stepped)).mp ?_⟩
        intro fs u first ran
        exact each (e :: fs) u (List.cons_prefix_cons.mpr ⟨rfl, first⟩)
          (run_cons_eq_some.mpr ⟨t, stepped, ran⟩)
      · intro ⟨allowed, rest⟩ fs u first ran
        cases fs with
        | nil =>
            cases ran
            exact holds start
        | cons f fs =>
            obtain ⟨rfl, shorter⟩ := List.cons_prefix_cons.mp first
            obtain ⟨t, stepped, ran⟩ := run_cons_eq_some.mp ran
            exact (ih (keep start allowed stepped)).mpr (rest t stepped) fs u shorter ran

theorem along_true : ∀ (es : List ε) (s : σ), Along step (fun _ _ => True) s es
  | [], _ => trivial
  | _ :: es, _ => ⟨trivial, fun t _ => along_true es t⟩

/-- A condition along a run, and one on its events. -/
theorem Along.and_forall {C : σ → ε → Prop} {D : ε → Prop} (allowed : Along step C s es)
    (events : ∀ e ∈ es, D e) : Along step (fun s e => C s e ∧ D e) s es := by
  induction es generalizing s with
  | nil => trivial
  | cons e es ih =>
      refine ⟨⟨allowed.1, events e List.mem_cons_self⟩, fun t stepped => ?_⟩
      exact ih (allowed.2 t stepped) fun f mem => events f (List.mem_cons_of_mem e mem)

/-- An invariant kept by every allowed step holds after a run of allowed steps. -/
theorem run_invariant {I : σ → Prop} {C : σ → ε → Prop}
    (keep : ∀ {s e t}, I s → C s e → step s e = some t → I t)
    (start : I s) (allowed : Along step C s es) (ran : run step s es = some t) : I t := by
  induction es generalizing s with
  | nil =>
      cases ran
      exact start
  | cons e es ih =>
      obtain ⟨u, first, rest⟩ := run_cons_eq_some.mp ran
      exact ih (keep start allowed.1 first) (allowed.2 u first) rest

/-- If every allowed step from a good state is defined and leads to a good
state, a run of allowed steps is defined and ends in a good state. -/
theorem run_total {I : σ → Prop} {C : σ → ε → Prop}
    (advance : ∀ {s e}, I s → C s e → ∃ t, step s e = some t ∧ I t)
    (start : I s) (allowed : Along step C s es) : ∃ t, run step s es = some t ∧ I t := by
  induction es generalizing s with
  | nil => exact ⟨s, rfl, start⟩
  | cons e es ih =>
      obtain ⟨u, first, good⟩ := advance start allowed.1
      obtain ⟨t, rest, final⟩ := ih good (allowed.2 u first)
      exact ⟨t, run_cons_eq_some.mpr ⟨u, first, rest⟩, final⟩

/-- If every step that is not the last one is defined and lowers a rank, the run ends. -/
theorem run_ends {I : Nat → σ → Prop} (done : σ → Prop) (rank : σ → Nat) (event : Nat → ε)
    (advance : ∀ {k s}, I k s → ¬ done s →
      ∃ t, step s (event k) = some t ∧ I (k + 1) t ∧ rank t < rank s) {k : Nat} (start : I k s) :
    ∃ n t, run step s ((List.range' k n).map event) = some t ∧ I (k + n) t ∧ done t := by
  induction left : rank s using Nat.strongRecOn generalizing k s with
  | ind r ih =>
      by_cases last : done s
      · exact ⟨0, s, rfl, start, last⟩
      · obtain ⟨t, stepped, next, lower⟩ := advance start last
        obtain ⟨n, u, ran, good, ended⟩ := ih (rank t) (left ▸ lower) next rfl
        refine ⟨n + 1, u, ?_, ?_, ended⟩
        · rw [List.range'_succ, List.map_cons]
          exact run_cons_eq_some.mpr ⟨t, stepped, ran⟩
        · rwa [Nat.add_right_comm, Nat.add_assoc] at good

end Shang.Lib
