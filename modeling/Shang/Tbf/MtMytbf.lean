import Shang.Lib.Run
import Shang.Lib.Update
import Shang.Tbf.Bucket
import Mathlib.Data.List.FinRange

/-!
# The token bucket with threads

`mytbf.c` of `16.mytbf_mt_cond`: any threads create, use and destroy buckets,
and `thr_alrm` refills them. The table `job` has the mutex `mut_job`, and each
bucket a mutex and a condition variable of its own.

The steps are the sections between a lock and the next unlock or wait. `thr_alrm`
holds `mut_job` for a whole pass over the table and takes the mutex of one
bucket after the other: `pass` is the slot it is at. A waiting thread may wake up
at any time, which covers broadcasts and spurious wake-ups alike.

Mutexes and condition variables count how often they were destroyed. A lock, a
wait or a destruction that finds its object destroyed sets `misused`.
-/

namespace Shang.Tbf.MtMytbf

open Lib

/-- An index of the array `job`. -/
abbrev Slot := Fin MYTBF_MAX

/-- A `struct _mytbf_st` that was allocated. -/
structure Obj where
  bucket : Bucket
  pos : Slot
  mutDestroyed : Nat
  condDestroyed : Nat
  freed : Bool

/-- A call between two of its sections: in `pthread_cond_wait`, or in
`mytbf_destroy` behind the unlock. -/
inductive Call
  | waiting (b : Nat) (size : Int)
  | destroying (b : Nat)
  deriving DecidableEq

/-- A call that returned, with its result; `avail` is the token that a fetch
found. -/
inductive Ret
  | init (ptr : Option Nat)
  | fetch (b : Nat) (size avail ret : Int)
  | give (b : Nat) (size ret : Int)
  | destroy (b : Nat)

/-- A bucket's address is its number in the order of allocation. -/
structure Sys (τ : Type) where
  obj : Nat → Option Obj
  born : Nat
  job : Slot → Option Nat
  mutJobDestroyed : Nat
  pass : Option Nat
  calls : τ → Option Call
  returned : List (τ × Ret)
  ticks : Nat → Nat
  misused : Bool
  exited : Bool

/-- A thread takes a section of a call, `thr_alrm` its next one, or the process
calls `exit`. For `init`, `mem` is `none` where `malloc` fails, and else what
`pos` holds in the new block. -/
inductive Event (τ : Type)
  | init (thread : τ) (cps burst : Int) (mem : Option Slot)
  | fetchtoken (thread : τ) (b : Nat) (size : Int)
  | wake (thread : τ)
  | returntoken (thread : τ) (b : Nat) (size : Int)
  | destroy (thread : τ) (b : Nat)
  | free (thread : τ)
  | alrm
  | exit

/-- `get_free_pos_unlocked` -/
def getFreePosUnlocked (job : Slot → Option Nat) : Option Slot :=
  (List.finRange MYTBF_MAX).find? fun i => (job i).isNone

variable {τ : Type} [DecidableEq τ]

namespace Sys

variable (s : Sys τ)

/-- No call and no section under way, no bucket. -/
def start : Sys τ where
  obj _ := none
  born := 0
  job _ := none
  mutJobDestroyed := 0
  pass := none
  calls _ := none
  returned := []
  ticks _ := 0
  misused := false
  exited := false

/-- The object at `b`, unless it was freed: any other access is a fault. -/
def live (b : Nat) : Option Obj :=
  (s.obj b).bind fun o => if o.freed then none else some o

/-- Lock, wait on or destroy something that was destroyed so many times. -/
def touch (destroyed : Nat) : Sys τ :=
  { s with misused := s.misused || decide (0 < destroyed) }

def setObj (b : Nat) (o : Obj) : Sys τ :=
  { s with obj := Function.update s.obj b (some o) }

/-- A call waits, or lets go of its lock for good. -/
def enter (thread : τ) (call : Call) : Sys τ :=
  { s with calls := Function.update s.calls thread (some call) }

/-- The bucket `b` sees a tick. -/
def mark (b : Nat) : Sys τ :=
  { s with ticks := Function.update s.ticks b (s.ticks b + 1) }

/-- A call returns. -/
def ret (thread : τ) (r : Ret) : Sys τ :=
  { s with
    calls := Function.update s.calls thread none
    returned := s.returned ++ [(thread, r)] }

/-- The section of `mytbf_init` under `mut_job` for the new block `me`, and the
failure path behind it. -/
def create (thread : τ) (me : Obj) : Sys τ :=
  let s := s.touch s.mutJobDestroyed
  match getFreePosUnlocked s.job with
  | none =>
    { s with
      obj := Function.update s.obj s.born (some { me with
        mutDestroyed := me.mutDestroyed + 1
        condDestroyed := me.condDestroyed + 1
        freed := true })
      born := s.born + 1 }.ret thread (.init none)
  | some pos =>
    { s with
      obj := Function.update s.obj s.born (some { me with pos := pos })
      born := s.born + 1
      job := Function.update s.job pos (some s.born) }.ret thread (.init (some s.born))

/-- The section of `mytbf_fetchtoken` after the lock, or after a wake-up. -/
def attempt (thread : τ) (b : Nat) (size : Int) : Option (Sys τ) :=
  (s.live b).map fun me =>
    let s := s.touch me.mutDestroyed
    if me.bucket.token ≤ 0 then
      (s.touch me.condDestroyed).enter thread (.waiting b size)
    else
      let n := min me.bucket.token size
      (s.setObj b { me with bucket := me.bucket.take n }).ret thread
        (.fetch b size me.bucket.token n)

/-- The section of `mytbf_returntoken`. -/
def give (thread : τ) (b : Nat) (size : Int) : Option (Sys τ) :=
  (s.live b).map fun me =>
    ((s.touch me.mutDestroyed).setObj b { me with bucket := me.bucket.add size }).ret thread
      (.give b size size)

/-- The section of `mytbf_destroy`. -/
def unlist (thread : τ) (b : Nat) : Option (Sys τ) :=
  (s.live b).map fun me =>
    { s.touch s.mutJobDestroyed with job := Function.update s.job me.pos none }.enter thread
      (.destroying b)

/-- The rest of `mytbf_destroy`, which destroys `mut_job`. -/
def free (thread : τ) (b : Nat) : Option (Sys τ) :=
  (s.live b).map fun me =>
    ({ s.touch s.mutJobDestroyed with mutJobDestroyed := s.mutJobDestroyed + 1 }.setObj b
      { me with freed := true }).ret thread (.destroy b)

/-- The next section of `thr_alrm`. -/
def thrAlrm : Option (Sys τ) :=
  match s.pass with
  | none => some { s.touch s.mutJobDestroyed with pass := some 0 }
  | some i =>
    if inside : i < MYTBF_MAX then
      match s.job ⟨i, inside⟩ with
      | none => some { s with pass := some (i + 1) }
      | some b => (s.live b).map fun me =>
        { ((s.touch me.mutDestroyed).setObj b { me with bucket := me.bucket.refill }).mark b with
          pass := some (i + 1) }
    else
      some { s with pass := none }

/-- The loop of `module_unload`. -/
def unloadLoop (s : Sys τ) : List Slot → Option (Sys τ)
  | [] => some s
  | i :: is =>
    match s.job i with
    | none => unloadLoop s is
    | some b => (s.live b).bind fun me =>
      unloadLoop ({ (s.touch me.mutDestroyed).touch me.condDestroyed with
        job := Function.update s.job i none }.setObj b
          { me with
            mutDestroyed := me.mutDestroyed + 1
            condDestroyed := me.condDestroyed + 1
            freed := true }) is

/-- `module_unload`, and the end of the process. -/
def moduleUnload : Option (Sys τ) :=
  (unloadLoop (s.touch s.mutJobDestroyed) (List.finRange MYTBF_MAX)).map fun s =>
    { s.touch s.mutJobDestroyed with
      mutJobDestroyed := s.mutJobDestroyed + 1
      calls := fun _ => none
      exited := true }

/-- One section. A thread in a call makes no other one, and nothing locks
`mut_job` while `thr_alrm` holds it. -/
def act : Event τ → Option (Sys τ)
  | .init thread cps burst mem =>
    if s.calls thread ≠ none then none
    else
      match mem with
      | none => some (s.ret thread (.init none))
      | some pos =>
        if s.pass ≠ none then none
        else some (s.create thread ⟨⟨cps, burst, 0⟩, pos, 0, 0, false⟩)
  | .fetchtoken thread b size =>
    if s.calls thread ≠ none then none
    else if size ≤ 0 then some (s.ret thread (.fetch b size 0 (-EINVAL)))
    else s.attempt thread b size
  | .wake thread =>
    match s.calls thread with
    | some (.waiting b size) => s.attempt thread b size
    | _ => none
  | .returntoken thread b size =>
    if s.calls thread ≠ none then none
    else if size ≤ 0 then some (s.ret thread (.give b size (-EINVAL)))
    else s.give thread b size
  | .destroy thread b =>
    if s.calls thread ≠ none ∨ s.pass ≠ none then none else s.unlist thread b
  | .free thread =>
    match s.calls thread with
    | some (.destroying b) => s.free thread b
    | _ => none
  | .alrm => s.thrAlrm
  | .exit => if s.pass ≠ none then none else s.moduleUnload

def step (e : Event τ) : Option (Sys τ) :=
  if s.exited then none else s.act e

end Sys

/-! ## What an observer counts -/

/-- The tokens that a returned call took out of the bucket `c`. -/
def Ret.took (c : Nat) : Ret → Int
  | .fetch b _ _ ret => if b = c ∧ 0 < ret then ret else 0
  | _ => 0

/-- The tokens that a returned call put back into the bucket `c`. -/
def Ret.gave (c : Nat) : Ret → Int
  | .give b _ ret => if b = c ∧ 0 < ret then ret else 0
  | _ => 0

/-- The books of the bucket `c`: the ticks it has seen, and the totals of the
calls that returned. -/
def Sys.books (s : Sys τ) (c : Nat) : Books where
  ticks := s.ticks c
  fetched := (s.returned.map fun r => r.2.took c).sum
  returned := (s.returned.map fun r => r.2.gave c).sum

/-- A fetch of at least one token returned some of those that were there. -/
def Ret.Fair : Ret → Prop
  | .fetch _ size avail ret => 1 ≤ size → 1 ≤ ret ∧ ret ≤ size ∧ ret ≤ avail
  | _ => True

/-- Buckets are created with a rate and a limit that are not negative. -/
def Rated (_ : Sys τ) : Event τ → Prop
  | .init _ cps burst _ => 0 ≤ cps ∧ 0 ≤ burst
  | _ => True

instance {s : Sys τ} : ∀ e, Decidable (Rated s e)
  | .init _ cps burst _ => inferInstanceAs (Decidable (0 ≤ cps ∧ 0 ≤ burst))
  | .fetchtoken _ _ _ => isTrue trivial
  | .wake _ => isTrue trivial
  | .returntoken _ _ _ => isTrue trivial
  | .destroy _ _ => isTrue trivial
  | .free _ => isTrue trivial
  | .alrm => isTrue trivial
  | .exit => isTrue trivial

/-- The bucket that a section works on; a new one has the number `born`. -/
def Sys.target (s : Sys τ) : Event τ → Option Nat
  | .init _ _ _ _ => some s.born
  | .fetchtoken _ b _ => some b
  | .returntoken _ b _ => some b
  | .destroy _ b => some b
  | .wake thread => (s.calls thread).map fun
    | .waiting b _ => b
    | .destroying b => b
  | .free thread => (s.calls thread).map fun
    | .waiting b _ => b
    | .destroying b => b
  | .alrm => s.pass.bind fun i => if inside : i < MYTBF_MAX then s.job ⟨i, inside⟩ else none
  | .exit => none

end Shang.Tbf.MtMytbf
