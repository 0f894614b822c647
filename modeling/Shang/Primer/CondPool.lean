import Shang.Lib.Run
import Shang.Lib.Fair
import Shang.Lib.Update
import Mathlib.Data.Fintype.Basic

/-!
# The prime workers behind one condition variable

`17.primer0_cond_pool.c`: `main` hands the numbers from `LEFT` to `RIGHT` to
`THRNUM` workers through the single cell `num`, which is 0 when it is empty
and -1 when there is nothing more to come. All threads lock `mut_num` and wait
on `cond_num`: `main` for the cell to be empty, the workers for it to be full.

A section under the mutex is one step, from the lock, or from the wake-up in
`pthread_cond_wait`, to the next wait or to the unlock. The event of a step of
`main` names the workers that `pthread_cond_signal` wakes up, at least one if
any of them waits. A waiting thread may also wake up without a cause.
-/

namespace Shang.Primer

open Shang.Lib

/-! ## The program -/

/-- Where `main` is. In the loop `i` is at most `RIGHT`, and the section behind the loop is
the one with `i > RIGHT`. -/
inductive Main
  | create (k : Nat)
  | check (i : Int)
  | wait (i : Int)
  | join (k : Nat)
  | exited
  deriving DecidableEq

/-- Where a worker is. -/
inductive Worker
  | unborn
  | check
  | wait
  | cal (i : Int)
  | exited
  deriving DecidableEq

/-- The cell, the threads, and what they have done: the numbers taken and the lines printed,
each with the worker that did it. -/
structure Pool (THRNUM : Nat) where
  num : Int
  main : Main
  worker : Fin THRNUM → Worker
  taken : List (Fin THRNUM × Int)
  printed : List (Fin THRNUM × Int)

variable {THRNUM : Nat} (LEFT RIGHT : Int)

def init : Pool THRNUM where
  num := 0
  main := .create 0
  worker _ := .unborn
  taken := []
  printed := []

/-- A worker that a signal or a broadcast reaches. -/
def Worker.woken : Worker → Worker
  | .wait => .check
  | w => w

@[simp] theorem Worker.woken_eq_unborn {w : Worker} : w.woken = .unborn ↔ w = .unborn := by
  cases w <;> simp [Worker.woken]

@[simp] theorem Worker.woken_eq_exited {w : Worker} : w.woken = .exited ↔ w = .exited := by
  cases w <;> simp [Worker.woken]

@[simp] theorem Worker.woken_ne_wait {w : Worker} : w.woken ≠ .wait := by
  cases w <;> simp [Worker.woken]

/-- `main` when a broadcast reaches it. -/
def Main.woken : Main → Main
  | .wait i => .check i
  | m => m

@[simp] theorem Main.woken_ne_wait {m : Main} {i : Int} : m.woken ≠ .wait i := by
  cases m <;> simp [Main.woken]

/-- `pthread_cond_signal(&cond_num)`, called by `main`: the workers of `woken` are waiting,
and there is one among them if any worker waits. -/
def condSignal (s : Pool THRNUM) (woken : Finset (Fin THRNUM)) : Option (Pool THRNUM) :=
  if (∀ t ∈ woken, s.worker t = .wait) ∧ ((∃ t, s.worker t = .wait) → woken.Nonempty) then
    some { s with worker := fun t => if t ∈ woken then (s.worker t).woken else s.worker t }
  else none

/-- `pthread_cond_broadcast(&cond_num)` -/
def condBroadcast (s : Pool THRNUM) : Pool THRNUM :=
  { s with main := s.main.woken, worker := fun t => (s.worker t).woken }

/-- The mark of `cal`, which looks for a divisor `j` with `2 <= j < i / 2`. -/
def mark (i : Int) : Bool :=
  (List.range' 2 ((i.tdiv 2).toNat - 2)).all fun j => i.tmod j ≠ 0

/-- The next step of `main`; `woken` are the workers a signal wakes up. -/
def mainStep (s : Pool THRNUM) (woken : Finset (Fin THRNUM)) : Option (Pool THRNUM) :=
  match s.main with
  | .create k =>
      if born : k < THRNUM then
        some { s with
          main := .create (k + 1)
          worker := Function.update s.worker ⟨k, born⟩ .check }
      else some { s with main := .check LEFT }
  | .check i =>
      if s.num ≠ 0 then some { s with main := .wait i }
      else if i ≤ RIGHT then condSignal { s with num := i, main := .check (i + 1) } woken
      else some (condBroadcast { s with num := -1, main := .join 0 })
  | .wait _ => none
  | .join k =>
      if born : k < THRNUM then
        if s.worker ⟨k, born⟩ = .exited then some { s with main := .join (k + 1) } else none
      else some { s with main := .exited }
  | .exited => none

/-- The next step of the worker `t` in `func`. -/
def func (s : Pool THRNUM) (t : Fin THRNUM) : Option (Pool THRNUM) :=
  match s.worker t with
  | .unborn => none
  | .check =>
      if s.num = 0 then some { s with worker := Function.update s.worker t .wait }
      else if s.num = -1 then some { s with worker := Function.update s.worker t .exited }
      else
        some (condBroadcast { s with
          num := 0
          worker := Function.update s.worker t (.cal s.num)
          taken := s.taken ++ [(t, s.num)] })
  | .wait => none
  | .cal i =>
      some { s with
        worker := Function.update s.worker t .check
        printed := if mark i then s.printed ++ [(t, i)] else s.printed }
  | .exited => none

/-- `wakeMain` and `wake` are wake-ups without a cause. -/
inductive Event (THRNUM : Nat)
  | main (woken : Finset (Fin THRNUM))
  | work (t : Fin THRNUM)
  | wakeMain
  | wake (t : Fin THRNUM)
  deriving DecidableEq

def step (s : Pool THRNUM) : Event THRNUM → Option (Pool THRNUM)
  | .main woken => mainStep LEFT RIGHT s woken
  | .work t => func s t
  | .wakeMain =>
      match s.main with
      | .wait i => some { s with main := .check i }
      | _ => none
  | .wake t =>
      if s.worker t = .wait then some { s with worker := Function.update s.worker t .check }
      else none

/-! ## What one step does -/

variable {LEFT RIGHT}

/-- The steps of the threads. -/
inductive Effect (LEFT RIGHT : Int) (s : Pool THRNUM) : Event THRNUM → Pool THRNUM → Prop
  | born (woken : Finset (Fin THRNUM)) (k : Nat) (main : s.main = .create k)
      (inside : k < THRNUM) :
      Effect LEFT RIGHT s (.main woken) { s with
        main := .create (k + 1)
        worker := Function.update s.worker ⟨k, inside⟩ .check }
  | begin (woken : Finset (Fin THRNUM)) (k : Nat) (main : s.main = .create k)
      (all : THRNUM ≤ k) : Effect LEFT RIGHT s (.main woken) { s with main := .check LEFT }
  | full (woken : Finset (Fin THRNUM)) (i : Int) (main : s.main = .check i)
      (full : s.num ≠ 0) : Effect LEFT RIGHT s (.main woken) { s with main := .wait i }
  | put (woken : Finset (Fin THRNUM)) (i : Int) (main : s.main = .check i)
      (empty : s.num = 0) (inside : i ≤ RIGHT) (waiting : ∀ t ∈ woken, s.worker t = .wait)
      (some : (∃ t, s.worker t = .wait) → woken.Nonempty) :
      Effect LEFT RIGHT s (.main woken) { s with
        num := i
        main := .check (i + 1)
        worker := fun t => if t ∈ woken then (s.worker t).woken else s.worker t }
  | finish (woken : Finset (Fin THRNUM)) (i : Int) (main : s.main = .check i)
      (empty : s.num = 0) (behind : RIGHT < i) :
      Effect LEFT RIGHT s (.main woken)
        { s with num := -1, main := .join 0, worker := fun t => (s.worker t).woken }
  | joined (woken : Finset (Fin THRNUM)) (k : Nat) (main : s.main = .join k)
      (inside : k < THRNUM) (gone : s.worker ⟨k, inside⟩ = .exited) :
      Effect LEFT RIGHT s (.main woken) { s with main := .join (k + 1) }
  | exit (woken : Finset (Fin THRNUM)) (k : Nat) (main : s.main = .join k)
      (all : THRNUM ≤ k) : Effect LEFT RIGHT s (.main woken) { s with main := .exited }
  | block (t : Fin THRNUM) (here : s.worker t = .check) (empty : s.num = 0) :
      Effect LEFT RIGHT s (.work t) { s with worker := Function.update s.worker t .wait }
  | leave (t : Fin THRNUM) (here : s.worker t = .check) (ended : s.num = -1) :
      Effect LEFT RIGHT s (.work t) { s with worker := Function.update s.worker t .exited }
  | take (t : Fin THRNUM) (here : s.worker t = .check) (full : s.num ≠ 0) (more : s.num ≠ -1) :
      Effect LEFT RIGHT s (.work t) { s with
        num := 0
        main := s.main.woken
        worker := fun r => (Function.update s.worker t (.cal s.num) r).woken
        taken := s.taken ++ [(t, s.num)] }
  | computed (t : Fin THRNUM) (i : Int) (here : s.worker t = .cal i) :
      Effect LEFT RIGHT s (.work t) { s with
        worker := Function.update s.worker t .check
        printed := if mark i then s.printed ++ [(t, i)] else s.printed }
  | wakeMain (i : Int) (main : s.main = .wait i) :
      Effect LEFT RIGHT s .wakeMain { s with main := .check i }
  | wake (t : Fin THRNUM) (here : s.worker t = .wait) :
      Effect LEFT RIGHT s (.wake t) { s with worker := Function.update s.worker t .check }

theorem effect_of_step {s s' : Pool THRNUM} {e : Event THRNUM}
    (stepped : step LEFT RIGHT s e = some s') : Effect LEFT RIGHT s e s' := by
  cases e with
  | main woken =>
      simp only [step, mainStep] at stepped
      split at stepped
      · next k main =>
          split at stepped <;> obtain rfl := Option.some.inj stepped
          · next inside => exact .born woken k main inside
          · next all => exact .begin woken k main (by omega)
      · next i main =>
          split at stepped
          · next full =>
              obtain rfl := Option.some.inj stepped
              exact .full woken i main full
          · next empty =>
              split at stepped
              · next inside =>
                  unfold condSignal at stepped
                  split at stepped <;> [skip; cases stepped]
                  next legal =>
                    obtain rfl := Option.some.inj stepped
                    exact .put woken i main (by omega) inside legal.1 legal.2
              · next behind =>
                  obtain rfl := Option.some.inj stepped
                  exact .finish woken i main (by omega) (by omega)
      · cases stepped
      · next k main =>
          split at stepped
          · next inside =>
              split at stepped <;> [skip; cases stepped]
              next gone =>
                obtain rfl := Option.some.inj stepped
                exact .joined woken k main inside gone
          · next all =>
              obtain rfl := Option.some.inj stepped
              exact .exit woken k main (by omega)
      · cases stepped
  | work t =>
      simp only [step, func] at stepped
      split at stepped
      · cases stepped
      · next here =>
          split at stepped
          · next empty =>
              obtain rfl := Option.some.inj stepped
              exact .block t here empty
          · next full =>
              split at stepped <;> obtain rfl := Option.some.inj stepped
              · next ended => exact .leave t here ended
              · next more => exact .take t here full more
      · cases stepped
      · next i here =>
          obtain rfl := Option.some.inj stepped
          exact .computed t i here
      · cases stepped
  | wakeMain =>
      simp only [step] at stepped
      split at stepped <;> [skip; cases stepped]
      next i main =>
        obtain rfl := Option.some.inj stepped
        exact .wakeMain i main
  | wake t =>
      simp only [step] at stepped
      split at stepped <;> [skip; cases stepped]
      next here =>
        obtain rfl := Option.some.inj stepped
        exact .wake t here

/-! ## The invariant -/

/-- The first `m` numbers from `LEFT` on. -/
def numbers (LEFT : Int) (m : Nat) : List Int := (List.range m).map fun (k : Nat) => LEFT + k

theorem numbers_succ (m : Nat) : numbers LEFT (m + 1) = numbers LEFT m ++ [LEFT + m] := by
  simp [numbers, List.range_succ]

theorem mem_numbers {m : Nat} {x : Int} : x ∈ numbers LEFT m ↔ LEFT ≤ x ∧ x < LEFT + m := by
  simp only [numbers, List.mem_map, List.mem_range]
  constructor
  · rintro ⟨k, inside, rfl⟩
    omega
  · intro inside
    exact ⟨(x - LEFT).toNat, by omega, by omega⟩

theorem numbers_pairwise (m : Nat) : (numbers LEFT m).Pairwise (· < ·) := by
  apply List.Pairwise.map _ _ List.pairwise_lt_range
  intro j k less
  omega

/-- How far `main` has come against how many numbers were taken. -/
def Given (LEFT RIGHT : Int) (s : Pool THRNUM) : Prop :=
  match s.main with
  | .create _ => s.num = 0 ∧ s.taken.length = 0
  | .check i | .wait i =>
      i ≤ RIGHT + 1 ∧
        (s.num = 0 ∧ i = LEFT + s.taken.length ∨ s.num = LEFT + s.taken.length ∧ i = s.num + 1)
  | .join _ | .exited => s.num = -1 ∧ LEFT + s.taken.length = RIGHT + 1

/-- `order` and `given` are about the numbers. The others say who is there to take the next
step: a full cell has a worker that will look at it, an empty one keeps `main` out of its wait,
and at the end nobody waits. -/
structure Inv (LEFT RIGHT : Int) (s : Pool THRNUM) : Prop where
  order : s.taken.map Prod.snd = numbers LEFT s.taken.length
  given : Given LEFT RIGHT s
  unborn : ∀ t, s.worker t = .unborn → ∃ k, s.main = .create k ∧ k ≤ t
  exited : ∀ t, s.worker t = .exited → s.num = -1
  served : 0 < s.num → ∃ t, s.worker t = .check ∨ ∃ i, s.worker t = .cal i
  noticed : s.num = 0 → ∀ i, s.main ≠ .wait i
  released : s.num = -1 → ∀ t, s.worker t ≠ .wait

theorem inv_init : Inv LEFT RIGHT (init : Pool THRNUM) where
  order := rfl
  given := ⟨rfl, rfl⟩
  unborn t _ := ⟨0, rfl, Nat.zero_le t⟩
  exited _ gone := nomatch gone
  served full := absurd full (Int.lt_irrefl 0)
  noticed _ _ := nofun
  released _ _ := nofun

namespace Inv

variable {s s' : Pool THRNUM} {e : Event THRNUM}

/-- `main` moves on while the cell stays as it is. -/
theorem main_moves (inv : Inv LEFT RIGHT s) (main : Main)
    (given : Given LEFT RIGHT { s with main := main })
    (born : ∀ t, s.worker t ≠ .unborn) (noticed : s.num = 0 → ∀ i, main ≠ .wait i) :
    Inv LEFT RIGHT { s with main := main } where
  order := inv.order
  given := given
  unborn t absent := absurd absent (born t)
  exited := inv.exited
  served := inv.served
  noticed := noticed
  released := inv.released

/-- One worker moves on while the cell stays as it is. -/
theorem turn (inv : Inv LEFT RIGHT s) (t : Fin THRNUM) (w : Worker)
    (printed : List (Fin THRNUM × Int)) (alive : w ≠ .unborn) (gone : w = .exited → s.num = -1)
    (serves : 0 < s.num → w = .check ∨ ∃ i, w = .cal i) (awake : s.num = -1 → w ≠ .wait) :
    Inv LEFT RIGHT { s with worker := Function.update s.worker t w, printed := printed } where
  order := inv.order
  given := inv.given
  unborn r absent := by
    rcases eq_or_ne r t with rfl | other
    · exact absurd ((Function.update_self ..).symm.trans absent) alive
    · exact inv.unborn r ((Function.update_of_ne other ..).symm.trans absent)
  exited r left_ := by
    rcases eq_or_ne r t with rfl | other
    · exact gone ((Function.update_self ..).symm.trans left_)
    · exact inv.exited r ((Function.update_of_ne other ..).symm.trans left_)
  served full := ⟨t, by simpa using serves full⟩
  noticed := inv.noticed
  released ended r := by
    rcases eq_or_ne r t with rfl | other
    · simpa using awake ended
    · simpa [Function.update_of_ne other] using inv.released ended r

/-- All workers are there once `main` has created them. -/
theorem born (inv : Inv LEFT RIGHT s) (created : ∀ k, s.main ≠ .create k) (t : Fin THRNUM) :
    s.worker t ≠ .unborn := by
  intro absent
  obtain ⟨k, create, -⟩ := inv.unborn t absent
  exact created k create

/-- `main` puts the number `i` into the empty cell. -/
theorem put (inv : Inv LEFT RIGHT s) (workers : 0 < THRNUM) (positive : 0 < LEFT)
    {woken : Finset (Fin THRNUM)} {i : Int} (main : s.main = .check i) (empty : s.num = 0)
    (inside : i ≤ RIGHT) (waiting : ∀ t ∈ woken, s.worker t = .wait)
    (some : (∃ t, s.worker t = .wait) → woken.Nonempty) :
    Inv LEFT RIGHT { s with
      num := i
      main := .check (i + 1)
      worker := fun t => if t ∈ woken then (s.worker t).woken else s.worker t } := by
  have given := inv.given
  simp only [Given, main] at given
  have next : i = LEFT + s.taken.length := by omega
  have born := inv.born (fun k => by rw [main]; nofun)
  have stays : ∀ t, s.worker t ≠ .exited := fun t gone => by
    have := inv.exited t gone
    omega
  refine ⟨inv.order, ⟨by omega, .inr ⟨next, rfl⟩⟩, fun t absent => ?_, fun t gone => ?_,
    fun _ => ?_, fun _ _ => nofun, fun ended => ?_⟩
  · dsimp only at absent
    split at absent
    · exact absurd (Worker.woken_eq_unborn.mp absent) (born t)
    · exact absurd absent (born t)
  · dsimp only at gone
    split at gone
    · exact absurd (Worker.woken_eq_exited.mp gone) (stays t)
    · exact absurd gone (stays t)
  -- a worker that was woken up will look at the number, or one that did not wait at all
  · by_cases sleeper : ∃ t, s.worker t = .wait
    · obtain ⟨t, member⟩ := some sleeper
      refine ⟨t, .inl ?_⟩
      dsimp only
      rw [if_pos member, waiting t member]
      rfl
    · refine ⟨⟨0, workers⟩, ?_⟩
      dsimp only
      rw [if_neg fun member => sleeper ⟨_, waiting _ member⟩]
      cases at_ : s.worker ⟨0, workers⟩ with
      | unborn => exact absurd at_ (born _)
      | check => exact .inl rfl
      | wait => exact absurd ⟨_, at_⟩ sleeper
      | cal i => exact .inr ⟨i, rfl⟩
      | exited => exact absurd at_ (stays _)
  · dsimp only at ended
    omega

/-- `main` ends the work: the cell was empty behind the last number. -/
theorem finish (inv : Inv LEFT RIGHT s) {i : Int} (main : s.main = .check i)
    (empty : s.num = 0) (behind : RIGHT < i) (positive : 0 < LEFT) :
    Inv LEFT RIGHT
      { s with num := -1, main := .join 0, worker := fun t => (s.worker t).woken } := by
  have given := inv.given
  simp only [Given, main] at given
  have all : LEFT + s.taken.length = RIGHT + 1 := by omega
  refine ⟨inv.order, ⟨rfl, all⟩, fun t absent => ?_, fun _ _ => rfl, nofun, nofun,
    fun _ t => Worker.woken_ne_wait⟩
  have created := inv.born (fun k => by rw [main]; nofun) t
  exact absurd (Worker.woken_eq_unborn.mp absent) created

/-- The worker `t` takes the number out of the cell. -/
theorem take (inv : Inv LEFT RIGHT s) (positive : 0 < LEFT) {t : Fin THRNUM}
    (full : s.num ≠ 0) (more : s.num ≠ -1) :
    Inv LEFT RIGHT { s with
      num := 0
      main := s.main.woken
      worker := fun r => (Function.update s.worker t (.cal s.num) r).woken
      taken := s.taken ++ [(t, s.num)] } := by
  have given := inv.given
  -- only `main` in its loop, or in the section behind it, leaves a number in the cell
  have turn : ∃ i, (s.main = .check i ∨ s.main = .wait i) ∧ i ≤ RIGHT + 1 ∧
      s.num = LEFT + s.taken.length ∧ i = s.num + 1 := by
    cases main : s.main with
    | create k => simp only [Given, main] at given; omega
    | check i => simp only [Given, main] at given; exact ⟨i, .inl rfl, by omega⟩
    | wait i => simp only [Given, main] at given; exact ⟨i, .inr rfl, by omega⟩
    | join k => simp only [Given, main] at given; omega
    | exited => simp only [Given, main] at given; omega
  obtain ⟨i, main, bound, number, next⟩ := turn
  have main' : s.main.woken = .check i := by
    rcases main with main | main <;> rw [main] <;> rfl
  have created : ∀ k, s.main ≠ .create k := by
    rcases main with main | main <;> rw [main] <;> exact fun k => nofun
  refine ⟨?_, ?_, fun r absent => ?_, fun r gone => ?_, nofun, fun _ _ => Main.woken_ne_wait,
    nofun⟩
  · rw [List.map_append, inv.order, List.length_append, List.length_singleton, numbers_succ]
    rw [List.map_singleton, number]
  · simp only [Given, main', List.length_append, List.length_singleton, true_and]
    omega
  · have absent := Worker.woken_eq_unborn.mp absent
    rcases eq_or_ne r t with rfl | other
    · simp at absent
    · exact absurd ((Function.update_of_ne other ..).symm.trans absent) (inv.born created r)
  · have gone := Worker.woken_eq_exited.mp gone
    rcases eq_or_ne r t with rfl | other
    · simp at gone
    · exact absurd (inv.exited r ((Function.update_of_ne other ..).symm.trans gone)) more

theorem step (workers : 0 < THRNUM) (positive : 0 < LEFT) (range : LEFT ≤ RIGHT)
    (inv : Inv LEFT RIGHT s) (effect : Effect LEFT RIGHT s e s') : Inv LEFT RIGHT s' := by
  have given := inv.given
  cases effect with
  | born woken k main inside =>
      simp only [Given, main] at given
      refine ⟨inv.order, given, fun t absent => ?_, fun t gone => ?_, fun full => ?_,
        fun _ _ => nofun, fun ended => ?_⟩
      · rcases eq_or_ne t ⟨k, inside⟩ with rfl | other
        · simp at absent
        · have absent' := (Function.update_of_ne other ..).symm.trans absent
          obtain ⟨j, create, least⟩ := inv.unborn t absent'
          cases main.symm.trans create
          refine ⟨k + 1, rfl, ?_⟩
          have : t.val ≠ k := fun same => other (Fin.ext same)
          omega
      · rcases eq_or_ne t ⟨k, inside⟩ with rfl | other
        · simp at gone
        · exact inv.exited t ((Function.update_of_ne other ..).symm.trans gone)
      · dsimp only at full
        omega
      · dsimp only at ended
        omega
  | begin woken k main all =>
      simp only [Given, main] at given
      refine inv.main_moves _ ⟨?_, .inl ⟨given.1, ?_⟩⟩ (fun t absent => ?_) (fun _ _ => nofun)
      · omega
      · simp [given.2]
      · obtain ⟨j, create, least⟩ := inv.unborn t absent
        cases main.symm.trans create
        omega
  | full woken i main full =>
      simp only [Given, main] at given
      exact inv.main_moves _ given (inv.born fun k => by rw [main]; nofun)
        (fun empty => absurd empty full)
  | put woken i main empty inside waiting some =>
      exact inv.put workers positive main empty inside waiting some
  | finish woken i main empty behind => exact inv.finish main empty behind positive
  | joined woken k main inside gone =>
      simp only [Given, main] at given
      exact inv.main_moves _ given (inv.born fun k => by rw [main]; nofun) (fun _ _ => nofun)
  | exit woken k main all =>
      simp only [Given, main] at given
      exact inv.main_moves _ given (inv.born fun k => by rw [main]; nofun) (fun _ _ => nofun)
  | block t here empty =>
      exact inv.turn t .wait s.printed nofun nofun (fun full => absurd full (by omega))
        (fun ended => absurd ended (by omega))
  | leave t here ended =>
      exact inv.turn t .exited s.printed nofun (fun _ => ended)
        (fun full => absurd full (by omega)) (fun _ => nofun)
  | take t here full more => exact inv.take positive full more
  | computed t i here => exact inv.turn t .check _ nofun nofun (fun _ => .inl rfl) (fun _ => nofun)
  | wakeMain i main =>
      simp only [Given, main] at given
      exact inv.main_moves _ given (inv.born fun k => by rw [main]; nofun) (fun _ _ => nofun)
  | wake t here =>
      exact inv.turn t .check s.printed nofun nofun (fun _ => .inl rfl) (fun _ => nofun)

end Inv

/-! ## Every schedule -/

theorem Inv.length_le {s : Pool THRNUM} (inv : Inv LEFT RIGHT s) (range : LEFT ≤ RIGHT) :
    LEFT + s.taken.length ≤ RIGHT + 1 := by
  have given := inv.given
  unfold Given at given
  split at given <;> omega

theorem Inv.all_of_ended {s : Pool THRNUM} (inv : Inv LEFT RIGHT s) (positive : 0 < LEFT)
    (ended : s.num = -1) : LEFT + s.taken.length = RIGHT + 1 := by
  have given := inv.given
  unfold Given at given
  split at given <;> omega

/-- What is kept by every step holds in every state a run reaches. -/
theorem inv_of_run (workers : 0 < THRNUM) (positive : 0 < LEFT) (range : LEFT ≤ RIGHT)
    {es : List (Event THRNUM)} {s : Pool THRNUM}
    (ran : run (step LEFT RIGHT) init es = some s) : Inv LEFT RIGHT s :=
  run_invariant (fun inv _ stepped => inv.step workers positive range (effect_of_step stepped))
    inv_init (along_true es _) ran

/-- Nobody touches the cell or takes a number once the cell is -1. -/
theorem ended_step {s s' : Pool THRNUM} {e : Event THRNUM} (ended : s.num = -1)
    (effect : Effect LEFT RIGHT s e s') : s'.num = -1 ∧ s'.taken = s.taken := by
  cases effect with
  | put woken i main empty => omega
  | finish woken i main empty => omega
  | take t here full more => exact absurd ended more
  | _ => exact ⟨ended, rfl⟩

theorem ended_run (workers : 0 < THRNUM) (positive : 0 < LEFT) (range : LEFT ≤ RIGHT)
    {es : List (Event THRNUM)} {s s' : Pool THRNUM} (inv : Inv LEFT RIGHT s)
    (ended : s.num = -1) (ran : run (step LEFT RIGHT) s es = some s') :
    s'.num = -1 ∧ s'.taken = s.taken := by
  have kept := run_invariant (I := fun t => Inv LEFT RIGHT t ∧ t.num = -1 ∧ t.taken = s.taken)
    (C := fun _ _ => True) ?_ ⟨inv, ended, rfl⟩ (along_true es s) ran
  · exact kept.2
  · rintro t e t' ⟨inv, ended, same⟩ - stepped
    have effect := effect_of_step stepped
    obtain ⟨ended', same'⟩ := ended_step ended effect
    exact ⟨inv.step workers positive range effect, ended', same'.trans same⟩

/-- Somebody sleeps in `pthread_cond_wait`, and so does everybody else who has not finished,
apart from `main` where it waits in `pthread_join` for the workers. -/
def Stuck (s : Pool THRNUM) : Prop :=
  ((∃ i, s.main = .wait i) ∨ ∃ t, s.worker t = .wait) ∧
    (∀ t, s.worker t = .wait ∨ s.worker t = .exited) ∧
    ((∃ i, s.main = .wait i) ∨ (∃ k, s.main = .join k) ∨ s.main = .exited)

theorem not_stuck (positive : 0 < LEFT) {s : Pool THRNUM} (inv : Inv LEFT RIGHT s) :
    ¬ Stuck s := by
  rintro ⟨sleeper, idle, main⟩
  have given := inv.given
  rcases main with ⟨i, main⟩ | ended
  · -- `main` sleeps in front of a full cell, and a worker will look at it
    simp only [Given, main] at given
    have full : 0 < s.num := by
      rcases given.2 with ⟨empty, -⟩ | ⟨number, -⟩
      · exact absurd main (inv.noticed empty i)
      · omega
    obtain ⟨t, busy⟩ := inv.served full
    rcases busy with busy | ⟨j, busy⟩ <;> rcases idle t with here | here <;> rw [busy] at here <;>
      cases here
  · -- behind the broadcast nobody sleeps
    have ended' : s.num = -1 := by
      rcases ended with ⟨k, main⟩ | main <;> simp only [Given, main] at given <;> exact given.1
    rcases sleeper with ⟨i, main⟩ | ⟨t, asleep⟩
    · rw [main] at ended
      rcases ended with ⟨k, main⟩ | main <;> cases main
    · exact inv.released ended' t asleep

/-! ## Fair schedules -/

/-- Every thread that can go on from some time on does so. -/
structure Fair (LEFT RIGHT : Int) (s : Nat → Pool THRNUM) (e : Nat → Event THRNUM) : Prop where
  main : WeakFair (step LEFT RIGHT) (fun a => ∃ woken, a = .main woken) s e
  work : ∀ t, WeakFair (step LEFT RIGHT) (fun a => a = .work t) s e

/-- How much `main` and the workers have to do until the cell is -1. -/
def rank (LEFT RIGHT : Int) (s : Pool THRNUM) : Nat :=
  match s.main with
  | .create k => 2 * (RIGHT + 1 - LEFT).toNat + 2 + (THRNUM - k)
  | .check i | .wait i => 2 * (RIGHT + 1 - i).toNat + if s.num = 0 then 1 else 2
  | .join _ | .exited => 0

/-- `main` is about to create a worker or to fill the empty cell. -/
def Gives (s : Pool THRNUM) : Prop :=
  (∃ k, s.main = .create k) ∨ s.num = 0 ∧ ∃ i, s.main = .check i

/-- The worker is about to look at the cell, at once or behind its computation. -/
def Worker.Busy (w : Worker) : Prop := w = .check ∨ ∃ i, w = .cal i

theorem Inv.gives_or_full (inv : Inv LEFT RIGHT s) (positive : 0 < LEFT)
    (more : rank LEFT RIGHT s ≠ 0) : Gives s ∨ 0 < s.num := by
  have given := inv.given
  cases main : s.main with
  | create k => exact .inl (.inl ⟨k, main⟩)
  | check i =>
      simp only [Given, main] at given
      rcases given.2 with ⟨empty, -⟩ | ⟨number, -⟩
      · exact .inl (.inr ⟨empty, i, main⟩)
      · exact .inr (by omega)
  | wait i =>
      simp only [Given, main] at given
      rcases given.2 with ⟨empty, -⟩ | ⟨number, -⟩
      · exact absurd main (inv.noticed empty i)
      · exact .inr (by omega)
  | join k => simp [rank, main] at more
  | exited => simp [rank, main] at more

/-- Nothing is left to do when the cell is -1. -/
theorem Inv.ended_of_rank (inv : Inv LEFT RIGHT s) (done : rank LEFT RIGHT s = 0) :
    s.num = -1 := by
  have given := inv.given
  cases main : s.main with
  | create k => simp [rank, main] at done
  | check i => simp only [rank, main] at done; split at done <;> omega
  | wait i => simp only [rank, main] at done; split at done <;> omega
  | join k => simp only [Given, main] at given; exact given.1
  | exited => simp only [Given, main] at given; exact given.1

theorem gives_step {s s' : Pool THRNUM} {e : Event THRNUM} (inv : Inv LEFT RIGHT s)
    (gives : Gives s) (effect : Effect LEFT RIGHT s e s') :
    rank LEFT RIGHT s' < rank LEFT RIGHT s ∨
      (rank LEFT RIGHT s' = rank LEFT RIGHT s ∧ Gives s' ∧ ∀ woken, e ≠ .main woken) := by
  have given := inv.given
  cases effect with
  | born woken k main inside =>
      left
      simp only [rank, main]
      omega
  | begin woken k main all =>
      left
      simp only [Given, main] at given
      simp only [rank, main, given.1, ↓reduceIte]
      omega
  | full woken i main full => simp [Gives, main, full] at gives
  | put woken i main empty inside =>
      left
      simp only [rank, main, empty, ↓reduceIte]
      split <;> omega
  | finish woken i main empty behind =>
      left
      simp [rank, main, empty]
  | joined woken k main => simp [Gives, main] at gives
  | exit woken k main => simp [Gives, main] at gives
  | take t here full more =>
      obtain ⟨k, main⟩ | ⟨empty, -⟩ := gives
      · simp only [Given, main] at given
        exact absurd given.1 full
      · exact absurd empty full
  | wakeMain i main => simp [Gives, main] at gives
  | block => exact .inr ⟨rfl, gives, fun _ => nofun⟩
  | leave => exact .inr ⟨rfl, gives, fun _ => nofun⟩
  | computed => exact .inr ⟨rfl, gives, fun _ => nofun⟩
  | wake => exact .inr ⟨rfl, gives, fun _ => nofun⟩

theorem full_step {s s' : Pool THRNUM} {e : Event THRNUM} (inv : Inv LEFT RIGHT s)
    (full : 0 < s.num) (effect : Effect LEFT RIGHT s e s') :
    rank LEFT RIGHT s' < rank LEFT RIGHT s ∨
      (rank LEFT RIGHT s' = rank LEFT RIGHT s ∧ s'.num = s.num ∧
        ∀ t, (s.worker t).Busy → (e ≠ .work t ∧ s'.worker t = s.worker t) ∨
          (∃ i, s.worker t = .cal i) ∧ s'.worker t = .check) := by
  have given := inv.given
  cases effect with
  | born woken k main inside => simp only [Given, main] at given; omega
  | begin woken k main all => simp only [Given, main] at given; omega
  | full woken i main => exact .inr ⟨by simp [rank, main], rfl, fun t _ => .inl ⟨nofun, rfl⟩⟩
  | put woken i main empty inside => omega
  | finish woken i main empty behind => omega
  | joined woken k main => simp only [Given, main] at given; omega
  | exit woken k main => simp only [Given, main] at given; omega
  | block t here empty => omega
  | leave t here ended => omega
  | take t here full more =>
      left
      cases main : s.main <;> simp only [Given, main] at given <;>
        simp [rank, main, Main.woken, full] <;> omega
  | computed t i here =>
      refine .inr ⟨rfl, rfl, fun r busy => ?_⟩
      rcases eq_or_ne r t with rfl | other
      · exact .inr ⟨⟨i, here⟩, Function.update_self ..⟩
      · exact .inl ⟨fun same => other (Event.work.inj same).symm, Function.update_of_ne other ..⟩
  | wakeMain i main => exact .inr ⟨by simp [rank, main], rfl, fun t _ => .inl ⟨nofun, rfl⟩⟩
  | wake t here =>
      refine .inr ⟨rfl, rfl, fun r busy => ?_⟩
      rcases eq_or_ne r t with rfl | other
      · simp [Worker.Busy, here] at busy
      · exact .inl ⟨nofun, Function.update_of_ne other ..⟩

theorem Gives.able (LEFT RIGHT : Int) {s : Pool THRNUM} (gives : Gives s) :
    ∃ woken, step LEFT RIGHT s (.main woken) ≠ none := by
  classical
  refine ⟨Finset.univ.filter fun t => s.worker t = .wait, ?_⟩
  obtain ⟨k, main⟩ | ⟨empty, i, main⟩ := gives
  · simp only [step, mainStep, main]
    split <;> exact Option.some_ne_none _
  · simp only [step, mainStep, main, empty, ne_eq, not_true_eq_false, ↓reduceIte]
    split
    · unfold condSignal
      rw [if_pos]
      · exact Option.some_ne_none _
      · refine ⟨fun t member => (Finset.mem_filter.mp member).2, ?_⟩
        rintro ⟨t, asleep⟩
        exact ⟨t, Finset.mem_filter.mpr ⟨Finset.mem_univ t, asleep⟩⟩
    · exact Option.some_ne_none _

theorem Worker.Busy.able (LEFT RIGHT : Int) {s : Pool THRNUM} {t : Fin THRNUM}
    (busy : (s.worker t).Busy) :
    step LEFT RIGHT s (.work t) ≠ none := by
  obtain here | ⟨i, here⟩ := busy
  · simp only [step, func, here]
    split
    · exact Option.some_ne_none _
    · split <;> exact Option.some_ne_none _
  · simp only [step, func, here]
    exact Option.some_ne_none _

section Execution

variable {s : Nat → Pool THRNUM} {e : Nat → Event THRNUM}

theorem gives_leads (workers : 0 < THRNUM) (positive : 0 < LEFT) (range : LEFT ≤ RIGHT)
    (exec : Execution (step LEFT RIGHT) s e) (fair : Fair LEFT RIGHT s e) {k : Nat}
    (inv : Inv LEFT RIGHT (s k)) (gives : Gives (s k)) :
    ∃ j, k ≤ j ∧ rank LEFT RIGHT (s j) < rank LEFT RIGHT (s k) := by
  apply fair.main.leads exec
    (P := fun t => Inv LEFT RIGHT t ∧ Gives t ∧ rank LEFT RIGHT t = rank LEFT RIGHT (s k))
    (Q := fun t => rank LEFT RIGHT t < rank LEFT RIGHT (s k)) _ _ _ ⟨inv, gives, rfl⟩
  · rintro t a u ⟨inv, gives, same⟩ stepped
    have effect := effect_of_step stepped
    rcases gives_step inv gives effect with less | ⟨equal, gives', -⟩
    · exact .inr (same ▸ less)
    · exact .inl ⟨inv.step workers positive range effect, gives', equal.trans same⟩
  · rintro t a u ⟨inv, gives, same⟩ ⟨woken, rfl⟩ stepped
    rcases gives_step inv gives (effect_of_step stepped) with less | ⟨-, -, other⟩
    · exact same ▸ less
    · exact absurd rfl (other woken)
  · rintro t ⟨-, gives, -⟩
    obtain ⟨woken, able⟩ := gives.able LEFT RIGHT
    exact ⟨_, ⟨woken, rfl⟩, able⟩

/-- A worker that is about to look at the full cell. -/
theorem check_leads (workers : 0 < THRNUM) (positive : 0 < LEFT) (range : LEFT ≤ RIGHT)
    (exec : Execution (step LEFT RIGHT) s e) (fair : Fair LEFT RIGHT s e) {k : Nat}
    {t : Fin THRNUM} (inv : Inv LEFT RIGHT (s k)) (full : 0 < (s k).num)
    (check : (s k).worker t = .check) :
    ∃ j, k ≤ j ∧ rank LEFT RIGHT (s j) < rank LEFT RIGHT (s k) := by
  apply (fair.work t).leads exec
    (P := fun u => Inv LEFT RIGHT u ∧ 0 < u.num ∧ u.worker t = .check ∧
      rank LEFT RIGHT u = rank LEFT RIGHT (s k))
    (Q := fun u => rank LEFT RIGHT u < rank LEFT RIGHT (s k)) _ _ _ ⟨inv, full, check, rfl⟩
  · rintro u a v ⟨inv, full, check, same⟩ stepped
    have effect := effect_of_step stepped
    rcases full_step inv full effect with less | ⟨equal, number, others⟩
    · exact .inr (same ▸ less)
    · have check' : v.worker t = .check := by
        rcases others t (.inl check) with ⟨-, still⟩ | ⟨-, here⟩
        · exact still.trans check
        · exact here
      exact .inl ⟨inv.step workers positive range effect, number ▸ full, check', equal.trans same⟩
  · rintro u a v ⟨inv, full, check, same⟩ rfl stepped
    rcases full_step inv full (effect_of_step stepped) with less | ⟨-, -, others⟩
    · exact same ▸ less
    · rcases others t (.inl check) with ⟨other, -⟩ | ⟨⟨i, cal⟩, -⟩
      · exact absurd rfl other
      · rw [check] at cal
        cases cal
  · rintro u ⟨-, -, check, -⟩
    exact ⟨_, rfl, Worker.Busy.able LEFT RIGHT (.inl check)⟩

/-- A worker that computes while the cell is full, and will then look at it. -/
theorem cal_leads (workers : 0 < THRNUM) (positive : 0 < LEFT) (range : LEFT ≤ RIGHT)
    (exec : Execution (step LEFT RIGHT) s e) (fair : Fair LEFT RIGHT s e) {k : Nat}
    {t : Fin THRNUM} {i : Int} (inv : Inv LEFT RIGHT (s k)) (full : 0 < (s k).num)
    (cal : (s k).worker t = .cal i) :
    ∃ j, k ≤ j ∧ rank LEFT RIGHT (s j) < rank LEFT RIGHT (s k) := by
  have leads := (fair.work t).leads exec
    (P := fun u => Inv LEFT RIGHT u ∧ 0 < u.num ∧ u.worker t = .cal i ∧
      rank LEFT RIGHT u = rank LEFT RIGHT (s k))
    (Q := fun u => rank LEFT RIGHT u < rank LEFT RIGHT (s k) ∨
      (Inv LEFT RIGHT u ∧ 0 < u.num ∧ u.worker t = .check ∧
        rank LEFT RIGHT u = rank LEFT RIGHT (s k))) ?_ ?_ ?_ ⟨inv, full, cal, rfl⟩
  · obtain ⟨j, later, less | ⟨inv, full, check, same⟩⟩ := leads
    · exact ⟨j, later, less⟩
    · obtain ⟨l, later', less⟩ := check_leads workers positive range exec fair inv full check
      exact ⟨l, Nat.le_trans later later', same ▸ less⟩
  · rintro u a v ⟨inv, full, cal, same⟩ stepped
    have effect := effect_of_step stepped
    rcases full_step inv full effect with less | ⟨equal, number, others⟩
    · exact .inr (.inl (same ▸ less))
    · have inv' := inv.step workers positive range effect
      rcases others t (.inr ⟨i, cal⟩) with ⟨-, still⟩ | ⟨-, here⟩
      · exact .inl ⟨inv', number ▸ full, still.trans cal, equal.trans same⟩
      · exact .inr (.inr ⟨inv', number ▸ full, here, equal.trans same⟩)
  · rintro u a v ⟨inv, full, cal, same⟩ rfl stepped
    have effect := effect_of_step stepped
    rcases full_step inv full effect with less | ⟨equal, number, others⟩
    · exact .inl (same ▸ less)
    · rcases others t (.inr ⟨i, cal⟩) with ⟨other, -⟩ | ⟨-, here⟩
      · exact absurd rfl other
      · exact .inr ⟨inv.step workers positive range effect, number ▸ full, here, equal.trans same⟩
  · rintro u ⟨-, -, cal, -⟩
    exact ⟨_, rfl, Worker.Busy.able LEFT RIGHT (.inr ⟨i, cal⟩)⟩

/-- On a fair schedule the cell becomes -1. -/
theorem eventually_ended (workers : 0 < THRNUM) (positive : 0 < LEFT) (range : LEFT ≤ RIGHT)
    (exec : Execution (step LEFT RIGHT) s e) (fair : Fair LEFT RIGHT s e) (start : s 0 = init) :
    ∃ k, (s k).num = -1 := by
  have inv : ∀ k, Inv LEFT RIGHT (s k) := by
    intro k
    obtain ⟨es, ran⟩ := exec.reached k
    exact inv_of_run workers positive range (start ▸ ran)
  have lower : ∀ k, ¬ rank LEFT RIGHT (s k) = 0 →
      ∃ j, k ≤ j ∧ rank LEFT RIGHT (s j) < rank LEFT RIGHT (s k) := by
    intro k more
    rcases (inv k).gives_or_full positive more with gives | full
    · exact gives_leads workers positive range exec fair (inv k) gives
    · obtain ⟨t, check | ⟨i, cal⟩⟩ := (inv k).served full
      · exact check_leads workers positive range exec fair (inv k) full check
      · exact cal_leads workers positive range exec fair (inv k) full cal
  obtain ⟨k, -, done⟩ := eventually_of_rank (rank LEFT RIGHT) (fun t => rank LEFT RIGHT t = 0)
    lower 0
  exact ⟨k, (inv k).ended_of_rank done⟩

end Execution

end Shang.Primer
