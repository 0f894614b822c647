import Mathlib.Logic.Function.Basic

/-!
# Programs that end, stop or run on

A program acts on a state. It ends with a value, it stops on the way at
something that has no result, or the fuel of one of its loops is used up. In each
case the state it has come to is there. `Meets` says how a program ends, and
whether it may stop or run out of fuel. `Keeps` is for what a program never
undoes, wherever it comes to.
-/

namespace Shang.Lib

/-- How far a program came, and the state there. -/
inductive Outcome (σ α : Type)
  | ended (a : α) (s : σ)
  | stopped (s : σ)
  | cut (s : σ)

/-- A program on the states `σ` with a result of `α`. -/
def Act (σ α : Type) : Type := σ → Outcome σ α

variable {σ α β : Type}

namespace Outcome

/-- The state the program came to. -/
def state : Outcome σ α → σ
  | ended _ s => s
  | stopped s => s
  | cut s => s

/-- The fuel was used up. -/
def Cut : Outcome σ α → Prop
  | cut _ => True
  | _ => False

/-- The program stopped on the way. -/
def Stopped : Outcome σ α → Prop
  | stopped _ => True
  | _ => False

/-- An end is in `Q`; a stop and the end of the fuel are only there where they are allowed. -/
def Meets (Q : α → σ → Prop) (stops cuts : Prop) : Outcome σ α → Prop
  | ended a s => Q a s
  | stopped _ => stops
  | cut _ => cuts

theorem Meets.mono {Q Q' : α → σ → Prop} {stops stops' cuts cuts' : Prop} {o : Outcome σ α}
    (h : o.Meets Q stops cuts) (ends : ∀ {a s}, Q a s → Q' a s) (stop : stops → stops')
    (cut : cuts → cuts') : o.Meets Q' stops' cuts' := by
  cases o with
  | ended a s => exact ends h
  | stopped s => exact stop h
  | cut s => exact cut h

theorem Meets.not_stopped {Q : α → σ → Prop} {cuts : Prop} {o : Outcome σ α}
    (h : o.Meets Q False cuts) : ¬ o.Stopped := by
  cases o with
  | ended a s => exact id
  | stopped s => exact h.elim
  | cut s => exact id

theorem Meets.not_cut {Q : α → σ → Prop} {stops : Prop} {o : Outcome σ α}
    (h : o.Meets Q stops False) : ¬ o.Cut := by
  cases o with
  | ended a s => exact id
  | stopped s => exact id
  | cut s => exact h.elim

/-- A program that does not stop and is not cut off ends. -/
theorem Meets.exists_ended {Q : α → σ → Prop} {stops cuts : Prop} {o : Outcome σ α}
    (h : o.Meets Q stops cuts) (unstopped : ¬ o.Stopped) (uncut : ¬ o.Cut) :
    ∃ a s, o = .ended a s ∧ Q a s := by
  cases o with
  | ended a s => exact ⟨a, s, rfl, h⟩
  | stopped s => exact absurd trivial unstopped
  | cut s => exact absurd trivial uncut

end Outcome

namespace Act

instance : Monad (Act σ) where
  pure a := fun s => .ended a s
  bind x f := fun s =>
    match x s with
    | .ended a t => f a t
    | .stopped t => .stopped t
    | .cut t => .cut t

/-- Stop here. -/
def stop : Act σ α := fun s => .stopped s

/-- There is no fuel left. -/
def spent : Act σ α := fun s => .cut s

/-- The result, if there is one. -/
def ofOption : Option α → Act σ α
  | some a => pure a
  | none => stop

variable {x : Act σ α} {f : α → Act σ β} {a : α} {s t : σ}

theorem pure_eq (a : α) (s : σ) : (pure a : Act σ α) s = .ended a s := rfl

theorem bind_ended (ran : x s = .ended a t) : (x >>= f) s = f a t := by
  change (match x s with | .ended a t => f a t | .stopped t => .stopped t | .cut t => .cut t) = _
  rw [ran]

theorem bind_stopped (ran : x s = .stopped t) : (x >>= f) s = .stopped t := by
  change (match x s with | .ended a t => f a t | .stopped t => .stopped t | .cut t => .cut t) = _
  rw [ran]

theorem bind_cut (ran : x s = .cut t) : (x >>= f) s = .cut t := by
  change (match x s with | .ended a t => f a t | .stopped t => .stopped t | .cut t => .cut t) = _
  rw [ran]

theorem bind_eq_ended {b : β} {u : σ} :
    (x >>= f) s = .ended b u ↔ ∃ a t, x s = .ended a t ∧ f a t = .ended b u := by
  constructor
  · intro ran
    cases first : x s with
    | ended a t => exact ⟨a, t, rfl, (bind_ended first).symm.trans ran⟩
    | stopped t => cases (bind_stopped first).symm.trans ran
    | cut t => cases (bind_cut first).symm.trans ran
  · rintro ⟨a, t, first, rest⟩
    exact (bind_ended first).trans rest

/-- A program ends in one state only. -/
theorem forall_ended_iff {p : σ → Prop} (ran : x s = .ended a t) :
    (∀ u, x s = .ended a u → p u) ↔ p t := by
  constructor
  · exact fun all => all t ran
  · intro holds u ran'
    cases ran.symm.trans ran'
    exact holds

theorem bind_congr {y : Act σ α} (same : x s = y t) : (x >>= f) s = (y >>= f) t := by
  cases ran : y t with
  | ended a u => rw [bind_ended (same.trans ran), bind_ended ran]
  | stopped u => rw [bind_stopped (same.trans ran), bind_stopped ran]
  | cut u => rw [bind_cut (same.trans ran), bind_cut ran]

theorem bind_assoc {γ : Type} (x : Act σ α) (f : α → Act σ β) (g : β → Act σ γ) (s : σ) :
    (x >>= f >>= g) s = (x >>= fun a => f a >>= g) s := by
  cases ran : x s with
  | ended a t =>
      rw [bind_ended ran]
      cases ran' : f a t with
      | ended b u => rw [bind_ended ((bind_ended ran).trans ran'), bind_ended ran']
      | stopped u => rw [bind_stopped ((bind_ended ran).trans ran'), bind_stopped ran']
      | cut u => rw [bind_cut ((bind_ended ran).trans ran'), bind_cut ran']
  | stopped t => rw [bind_stopped (bind_stopped ran), bind_stopped ran]
  | cut t => rw [bind_cut (bind_cut ran), bind_cut ran]

/-- A program and what follows it. -/
theorem meets_bind {Q : α → σ → Prop} {Q' : β → σ → Prop} {stops cuts : Prop}
    (first : (x s).Meets Q stops cuts) (rest : ∀ a t, Q a t → (f a t).Meets Q' stops cuts) :
    ((x >>= f) s).Meets Q' stops cuts := by
  cases ran : x s with
  | ended a t =>
      rw [ran] at first
      rw [bind_ended ran]
      exact rest a t first
  | stopped t =>
      rw [ran] at first
      rw [bind_stopped ran]
      exact first
  | cut t =>
      rw [ran] at first
      rw [bind_cut ran]
      exact first

/-! ## What a program keeps -/

/-- Wherever the program comes to, the state there is in this relation to the first one. -/
def Keeps (r : σ → σ → Prop) (x : Act σ α) : Prop := ∀ s, r s (x s).state

variable {r : σ → σ → Prop}

theorem Keeps.pure (refl : ∀ s, r s s) (a : α) : Keeps r (Pure.pure a : Act σ α) := refl

theorem Keeps.stop (refl : ∀ s, r s s) : Keeps r (stop : Act σ α) := refl

theorem Keeps.spent (refl : ∀ s, r s s) : Keeps r (spent : Act σ α) := refl

theorem Keeps.ofOption (refl : ∀ s, r s s) (o : Option α) : Keeps r (ofOption o : Act σ α) := by
  cases o with
  | none => exact refl
  | some a => exact refl

/-- What follows may count on a value that the first program ends with. -/
theorem Keeps.bind_of_ended (trans : ∀ {s t u}, r s t → r t u → r s u) (first : Keeps r x)
    (rest : ∀ {a s t}, x s = .ended a t → Keeps r (f a)) : Keeps r (x >>= f) := by
  intro s
  have there := first s
  cases ran : x s with
  | ended a t =>
      rw [ran] at there
      rw [bind_ended ran]
      exact trans there (rest ran t)
  | stopped t =>
      rw [ran] at there
      rw [bind_stopped ran]
      exact there
  | cut t =>
      rw [ran] at there
      rw [bind_cut ran]
      exact there

theorem Keeps.bind (trans : ∀ {s t u}, r s t → r t u → r s u) (first : Keeps r x)
    (rest : ∀ a, Keeps r (f a)) : Keeps r (x >>= f) :=
  .bind_of_ended trans first fun {a} _ _ _ => rest a

end Act

end Shang.Lib
