import Shang.Lib.Act

/-!
# Loops that a function can return from

The body of a loop goes on to the next round or has the function return. What is
behind the loop is done when its condition fails.
-/

namespace Shang.Lib

/-- What comes after a round: the next one, or the end of the function. -/
inductive Flow (τ α : Type)
  | next (t : τ)
  | ret (a : α)

namespace Act

variable {σ τ α : Type}

/-- `while (cond) body` and what is `after` it. -/
def whileLoop (cond : τ → Bool) (body : τ → Act σ (Flow τ α)) (after : τ → Act σ α) :
    Nat → τ → Act σ α
  | 0, _ => spent
  | fuel + 1, t =>
      if cond t then do
        match ← body t with
        | .next t => whileLoop cond body after fuel t
        | .ret a => pure a
      else after t

variable {cond : τ → Bool} {body : τ → Act σ (Flow τ α)} {after : τ → Act σ α} {t u : τ} {a : α}
  {s s' : σ} {fuel : Nat}

theorem whileLoop_next (holds : cond t = true) (ran : body t s = .ended (.next u) s') :
    whileLoop cond body after (fuel + 1) t s = whileLoop cond body after fuel u s' := by
  rw [whileLoop, if_pos holds, bind_ended ran]

theorem whileLoop_ret (holds : cond t = true) (ran : body t s = .ended (.ret a) s') :
    whileLoop cond body after (fuel + 1) t s = .ended a s' := by
  rw [whileLoop, if_pos holds, bind_ended ran]
  rfl

theorem whileLoop_done (fails : cond t = false) :
    whileLoop cond body after (fuel + 1) t s = after t s := by
  rw [whileLoop, fails]
  rfl

end Act

end Shang.Lib
