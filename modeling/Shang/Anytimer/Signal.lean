import Shang.Anytimer.Job
import Shang.Lib.Run
import Shang.Lib.Update
import Mathlib.Data.List.FinRange

/-!
# The any-timer with signals

`anytimer.c` of `4.anytimer`: one main line makes the calls, and the handler of
`SIGALRM` ticks all the jobs once a second. A call is not interrupted, except
that `at_waitjob` pauses until a handler has run, and then looks again.

Every job has a number, in the order of creation, and every number a `Track`.
They serve to speak of a job when its slot has long been used for another one.
-/

namespace Shang.Anytimer.Signal

open Lib

/-- A call of the interface; `mem` tells whether `malloc` succeeds. -/
inductive Call
  | addjob (sec isRepeat : Int) (mem : Bool)
  | canceljob (id : Int)
  | norepeat (id : Int)
  | waitjob (id : Int)
  | stopjob (id : Int)
  | resumejob (id : Int)
  deriving DecidableEq

/-- The main line is between two calls, or in the `pause()` of `at_waitjob(id)`
for the job in slot `i`; `woken` once a handler has run. -/
inductive Line
  | idle
  | waiting (id : Int) (i : Slot) (woken : Bool)
  deriving DecidableEq

/-- The table, the main line and the results of its calls, none where a function
ends without a `return`; then the number of the job in each slot, the next
number, and the track of each job. -/
structure Sys where
  job : Slot → Option Job
  line : Line
  returned : List (Call × Option Int)
  serial : Slot → Nat
  born : Nat
  track : Nat → Track

/-- The main line makes a call, or goes on after a `pause()`, or `SIGALRM`
arrives, from the kernel's timer or from another sender. -/
inductive Event
  | call (c : Call)
  | next
  | alrm (kernel : Bool)
  deriving DecidableEq

/-- `get_free_pos` -/
def getFreePos (job : Slot → Option Job) : Option Slot :=
  (List.finRange JOB_MAX).find? fun i => (job i).isNone

/-- The effect of a handler on the main line. -/
def Line.wake : Line → Line
  | .idle => .idle
  | .waiting id i _ => .waiting id i true

namespace Sys

variable (s : Sys)

def start : Sys where
  job _ := none
  line := .idle
  returned := []
  serial _ := 0
  born := 0
  track _ := ⟨1, 0, []⟩

/-- The slot and the job that `id` names. -/
def find (id : Int) : Option (Slot × Job) :=
  (slotOf id).bind fun i => (s.job i).map fun j => (i, j)

def setJob (i : Slot) (j : Job) : Sys :=
  { s with job := Function.update s.job i (some j) }

/-- The call `c` returns `result`. -/
def finish (c : Call) (result : Option Int) : Sys :=
  { s with line := .idle, returned := s.returned ++ [(c, result)] }

/-- The handler's work on the slot `i`. -/
def tickSlot (i : Slot) : Sys :=
  match s.job i with
  | none => s
  | some j =>
    { s.setJob i j.tick.1 with
      track := Function.update s.track (s.serial i) ((s.track (s.serial i)).tick j) }

/-- `alrm_action` -/
def alrmAction (kernel : Bool) : Sys :=
  let s := { s with line := s.line.wake }
  if kernel then (List.finRange JOB_MAX).foldl tickSlot s else s

/-- `at_addjob` -/
def atAddjob (sec isRepeat : Int) (mem : Bool) : Sys × Int :=
  match getFreePos s.job with
  | none => (s, -ENOSPC)
  | some pos =>
    if mem then
      ({ s.setJob pos (.new sec isRepeat) with
        serial := Function.update s.serial pos s.born
        born := s.born + 1
        track := Function.update s.track s.born ⟨sec.toNat, 0, []⟩ }, (pos.val : Int))
    else
      (s, -ENOMEM)

/-- The flag of a job that is not to be repeated. -/
def norepeat (rep : Int) : Int :=
  if rep = REPEAT then NO_REPEAT else rep

/-- `at_canceljob` -/
def atCanceljob (id : Int) : Sys × Int :=
  match s.find id with
  | none => (s, -EINVAL)
  | some (i, j) =>
    if j.jobState = .stateRunning then (s, -ECANCELED)
    else if j.jobState = .stateOver then (s, -EBUSY)
    else (s.setJob i { j with rep := norepeat j.rep, jobState := .stateCancel }, 0)

/-- `change_to_norepeat` -/
def changeToNorepeat (id : Int) : Sys × Option Int :=
  match s.find id with
  | none => (s, some (-EINVAL))
  | some (i, j) => (s.setJob i { j with rep := norepeat j.rep }, none)

/-- `at_waitjob(id)` from the test of its loop on: it pauses, or returns. -/
def waitLoop (id : Int) (i : Slot) : Option Sys :=
  (s.job i).map fun j =>
    if j.jobState = .stateRunning then
      { s with line := .waiting id i false }
    else if j.jobState = .stateCancel ∨ j.jobState = .stateOver then
      { s with job := Function.update s.job i none }.finish (.waitjob id) (some 0)
    else
      s.finish (.waitjob id) (some 0)

/-- `at_waitjob` -/
def atWaitjob (id : Int) : Option Sys :=
  match s.find id with
  | none => some (s.finish (.waitjob id) (some (-EINVAL)))
  | some (i, j) =>
    if j.rep = REPEAT then some (s.finish (.waitjob id) (some (-EBUSY)))
    else s.waitLoop id i

/-- `at_stopjob`, which does not check `id`. -/
def atStopjob (id : Int) : Option (Sys × Int) :=
  (s.find id).map fun (i, j) =>
    if j.jobState ≠ .stateRunning then (s, -1)
    else (s.setJob i { j with jobState := .statePause }, 0)

/-- `at_resumejob`, which does not check `id`. -/
def atResumejob (id : Int) : Option (Sys × Int) :=
  (s.find id).map fun (i, j) =>
    if j.jobState ≠ .statePause then (s, -1)
    else (s.setJob i { j with jobState := .stateRunning }, 0)

/-- A call; `none` is a fault. -/
def perform (c : Call) : Option Sys :=
  match c with
  | .addjob sec isRepeat mem =>
    let (t, ret) := s.atAddjob sec isRepeat mem
    some (t.finish c (some ret))
  | .canceljob id =>
    let (t, ret) := s.atCanceljob id
    some (t.finish c (some ret))
  | .norepeat id =>
    let (t, ret) := s.changeToNorepeat id
    some (t.finish c ret)
  | .waitjob id => s.atWaitjob id
  | .stopjob id => (s.atStopjob id).map fun (t, ret) => t.finish c (some ret)
  | .resumejob id => (s.atResumejob id).map fun (t, ret) => t.finish c (some ret)

def step : Event → Option Sys
  | .call c => if s.line = .idle then s.perform c else none
  | .next =>
    match s.line with
    | .waiting id i true => s.waitLoop id i
    | _ => none
  | .alrm kernel => some (s.alrmAction kernel)

end Sys

variable {s t : Sys} {e : Event} {es : List Event} {i x : Slot} {id : Int} {j : Job} {k : Nat}

/-! ## Ticks -/

/-- Two slots do not hold the same job. -/
def Distinct (s : Sys) : Prop :=
  ∀ i x, (s.job i).isSome → (s.job x).isSome → s.serial i = s.serial x → i = x

@[simp] theorem tickSlot_serial : (s.tickSlot i).serial = s.serial := by
  unfold Sys.tickSlot
  split <;> rfl

@[simp] theorem tickSlot_born : (s.tickSlot i).born = s.born := by
  unfold Sys.tickSlot
  split <;> rfl

theorem tickSlot_job : (s.tickSlot i).job x =
    if x = i then (s.job x).map fun j => j.tick.1 else s.job x := by
  unfold Sys.tickSlot
  split
  · next empty =>
      split
      · next same => rw [same, empty, Option.map_none]
      · rfl
  · next j found =>
      split
      · next same =>
          rw [same, found]
          exact Function.update_self _ _ _
      · next ne => exact Function.update_of_ne ne _ _

theorem tickSlot_track (distinct : Distinct s) (found : s.job x = some j) :
    (s.tickSlot i).track (s.serial x) =
      if x = i then (s.track (s.serial x)).tick j else s.track (s.serial x) := by
  unfold Sys.tickSlot
  split
  · next empty =>
      rw [if_neg]
      rintro rfl
      cases empty.symm.trans found
  · next j' found' =>
      split
      · next same =>
          subst same
          rw [Option.some.inj (found.symm.trans found')]
          exact Function.update_self _ _ _
      · next ne =>
          refine Function.update_of_ne (fun same => ne ?_) _ _
          exact distinct x i (by rw [found]; rfl) (by rw [found']; rfl) same

theorem tickSlot_track_other (other : ∀ i j, s.job i = some j → s.serial i ≠ k) :
    (s.tickSlot i).track k = s.track k := by
  unfold Sys.tickSlot
  split
  · rfl
  · next j found => exact Function.update_of_ne (other i j found).symm _ _

theorem Distinct.tickSlot (distinct : Distinct s) : Distinct (s.tickSlot i) := by
  intro a b usedA usedB same
  rw [tickSlot_serial] at same
  have used : ∀ x, ((s.tickSlot i).job x).isSome → (s.job x).isSome := by
    intro x used
    rw [tickSlot_job] at used
    split at used
    · rwa [Option.isSome_map] at used
    · exact used
  exact distinct a b (used a usedA) (used b usedB) same

/-- What a tick does to the jobs: each one ticks once. -/
theorem ticks_job {is : List Slot} (nodup : is.Nodup) : (is.foldl Sys.tickSlot s).job x =
    if x ∈ is then (s.job x).map fun j => j.tick.1 else s.job x := by
  induction is generalizing s with
  | nil => rfl
  | cons i is ih =>
      obtain ⟨fresh, nodup⟩ := List.nodup_cons.mp nodup
      rw [List.foldl_cons, ih nodup, tickSlot_job]
      by_cases same : x = i
      · rw [if_pos same, same, if_neg fresh, if_pos List.mem_cons_self]
      · rw [if_neg same]
        simp only [List.mem_cons, same, false_or]

/-- The kernel's alarm ticks every slot. -/
theorem alrm_job : (s.alrmAction true).job x = (s.job x).map fun j => j.tick.1 := by
  unfold Sys.alrmAction
  rw [if_pos rfl, ticks_job (List.nodup_finRange JOB_MAX), if_pos (List.mem_finRange x)]

/-- What a tick does besides: the track of each job ticks with it. -/
structure Ticked (is : List Slot) (s t : Sys) : Prop where
  serial : t.serial = s.serial
  born : t.born = s.born
  track : ∀ x j, s.job x = some j → t.track (s.serial x) =
    if x ∈ is then (s.track (s.serial x)).tick j else s.track (s.serial x)
  other : ∀ k, (∀ i j, s.job i = some j → s.serial i ≠ k) → t.track k = s.track k

theorem ticked_foldl {is : List Slot} (distinct : Distinct s) (nodup : is.Nodup) :
    Ticked is s (is.foldl Sys.tickSlot s) := by
  induction is generalizing s with
  | nil => exact ⟨rfl, rfl, fun _ _ _ => rfl, fun _ _ => rfl⟩
  | cons i is ih =>
      obtain ⟨fresh, nodup⟩ := List.nodup_cons.mp nodup
      have rest := ih distinct.tickSlot (s := s.tickSlot i) nodup
      refine ⟨rest.serial.trans tickSlot_serial, rest.born.trans tickSlot_born,
        fun x j found => ?_, fun k other => ?_⟩
      · by_cases same : x = i
        · subst same
          have ticked : (s.tickSlot x).job x = some j.tick.1 := by
            rw [tickSlot_job, if_pos rfl, found, Option.map_some]
          have track := rest.track x _ ticked
          rw [tickSlot_serial, if_neg fresh] at track
          rw [List.foldl_cons, track, tickSlot_track distinct found, if_pos rfl,
            if_pos List.mem_cons_self]
        · have kept : (s.tickSlot i).job x = some j := by rw [tickSlot_job, if_neg same, found]
          have track := rest.track x j kept
          rw [tickSlot_serial, tickSlot_track distinct found, if_neg same] at track
          rw [List.foldl_cons, track]
          simp only [List.mem_cons, same, false_or]
      · rw [List.foldl_cons, rest.other k ?_, tickSlot_track_other other]
        intro x j found
        rw [tickSlot_serial]
        rw [tickSlot_job] at found
        split at found
        · obtain ⟨j', found', -⟩ := Option.map_eq_some_iff.mp found
          exact other x j' found'
        · exact other x j found

theorem ticked_alrm (distinct : Distinct s) :
    Ticked (List.finRange JOB_MAX) s (s.alrmAction true) := by
  have moved : Distinct { s with line := s.line.wake } := distinct
  have ticked : ∀ is : List Slot, is.Nodup →
      Ticked is s (is.foldl Sys.tickSlot { s with line := s.line.wake }) := by
    intro is nodup
    have ticked := ticked_foldl moved nodup
    exact ⟨ticked.serial, ticked.born, ticked.track, ticked.other⟩
  exact ticked _ (List.nodup_finRange JOB_MAX)

/-! ## Calls -/

theorem find_eq_some : s.find id = some (i, j) ↔ slotOf id = some i ∧ s.job i = some j := by
  unfold Sys.find
  rw [Option.bind_eq_some_iff]
  constructor
  · rintro ⟨x, at_, both⟩
    obtain ⟨p, found, eq⟩ := Option.map_eq_some_iff.mp both
    obtain ⟨rfl, rfl⟩ := Prod.mk.inj eq
    exact ⟨at_, found⟩
  · rintro ⟨at_, found⟩
    exact ⟨i, at_, by rw [found, Option.map_some]⟩

/-- A new job in the slot `pos`, with the next number. -/
def Sys.place (s : Sys) (pos : Slot) (sec isRepeat : Int) : Sys :=
  { s.setJob pos (.new sec isRepeat) with
    serial := Function.update s.serial pos s.born
    born := s.born + 1
    track := Function.update s.track s.born ⟨sec.toNat, 0, []⟩ }

/-- What a call does to the table: a job that has ended does not count down
again. -/
inductive Effect (s : Sys) : Sys → Prop
  | keep : Effect s s
  | change (i : Slot) (j : Job) (jobState : JobState) (rep : Int) (found : s.job i = some j)
    (counting : jobState = .stateRunning ∨ jobState = .statePause →
      j.jobState = .stateRunning ∨ j.jobState = .statePause) :
    Effect s (s.setJob i { j with jobState := jobState, rep := rep })
  | release (i : Slot) (j : Job) (found : s.job i = some j) :
    Effect s { s with job := Function.update s.job i none }
  | add (pos : Slot) (sec isRepeat : Int) : Effect s (s.place pos sec isRepeat)

/-- A call works on the table, and the main line moves on. -/
inductive Moves (s : Sys) : Sys → Prop
  | mk (u : Sys) (line : Line) (returned : List (Call × Option Int)) (effect : Effect s u) :
    Moves s { u with line := line, returned := returned }

theorem Effect.finish (effect : Effect s t) (c : Call) (result : Option Int) :
    Moves s (t.finish c result) :=
  .mk t .idle (t.returned ++ [(c, result)]) effect

theorem atAddjob_effect (sec isRepeat : Int) (mem : Bool) :
    Effect s (s.atAddjob sec isRepeat mem).1 := by
  unfold Sys.atAddjob
  split
  · exact .keep
  · next pos _ =>
      split
      · exact .add pos sec isRepeat
      · exact .keep

theorem atCanceljob_effect : Effect s (s.atCanceljob id).1 := by
  unfold Sys.atCanceljob
  split
  · exact .keep
  · next i j named =>
      obtain ⟨-, found⟩ := find_eq_some.mp named
      split
      · exact .keep
      · split
        · exact .keep
        · exact .change i j .stateCancel _ found (by simp)

theorem changeToNorepeat_effect : Effect s (s.changeToNorepeat id).1 := by
  unfold Sys.changeToNorepeat
  split
  · exact .keep
  · next i j named =>
      obtain ⟨-, found⟩ := find_eq_some.mp named
      exact .change i j j.jobState _ found fun on => on

theorem atStopjob_effect {ret : Int} (stopped : s.atStopjob id = some (t, ret)) :
    Effect s t := by
  obtain ⟨⟨i, j⟩, named, eq⟩ := Option.map_eq_some_iff.mp stopped
  obtain ⟨-, found⟩ := find_eq_some.mp named
  dsimp only at eq
  split at eq
  · rw [← (Prod.mk.inj eq).1]
    exact .keep
  · next running =>
      rw [← (Prod.mk.inj eq).1]
      exact .change i j .statePause j.rep found fun _ => .inl (not_not.mp running)

theorem atResumejob_effect {ret : Int} (resumed : s.atResumejob id = some (t, ret)) :
    Effect s t := by
  obtain ⟨⟨i, j⟩, named, eq⟩ := Option.map_eq_some_iff.mp resumed
  obtain ⟨-, found⟩ := find_eq_some.mp named
  dsimp only at eq
  split at eq
  · rw [← (Prod.mk.inj eq).1]
    exact .keep
  · next paused =>
      rw [← (Prod.mk.inj eq).1]
      exact .change i j .stateRunning j.rep found fun _ => .inr (not_not.mp paused)

theorem waitLoop_moves (stepped : s.waitLoop id i = some t) : Moves s t := by
  obtain ⟨j, found, stepped⟩ := Option.map_eq_some_iff.mp stepped
  split at stepped
  · rw [← stepped]
    exact .mk s (.waiting id i false) s.returned .keep
  · split at stepped
    · rw [← stepped]
      exact (Effect.release i j found).finish _ _
    · rw [← stepped]
      exact Effect.keep.finish _ _

theorem perform_moves {c : Call} (stepped : s.perform c = some t) : Moves s t := by
  cases c with
  | addjob sec isRepeat mem =>
      simp only [Sys.perform, Option.some.injEq] at stepped
      rw [← stepped]
      exact (atAddjob_effect sec isRepeat mem).finish _ _
  | canceljob id =>
      simp only [Sys.perform, Option.some.injEq] at stepped
      rw [← stepped]
      exact atCanceljob_effect.finish _ _
  | norepeat id =>
      simp only [Sys.perform, Option.some.injEq] at stepped
      rw [← stepped]
      exact changeToNorepeat_effect.finish _ _
  | waitjob id =>
      simp only [Sys.perform, Sys.atWaitjob] at stepped
      split at stepped
      · rw [← Option.some.inj stepped]
        exact Effect.keep.finish _ _
      · split at stepped
        · rw [← Option.some.inj stepped]
          exact Effect.keep.finish _ _
        · exact waitLoop_moves stepped
  | stopjob id =>
      obtain ⟨⟨u, ret⟩, stopped, rfl⟩ := Option.map_eq_some_iff.mp stepped
      exact (atStopjob_effect stopped).finish _ _
  | resumejob id =>
      obtain ⟨⟨u, ret⟩, resumed, rfl⟩ := Option.map_eq_some_iff.mp stepped
      exact (atResumejob_effect resumed).finish _ _

/-- A step is a tick of the kernel's timer or moves the main line on. -/
theorem step_moves (stepped : s.step e = some t) (quiet : e ≠ .alrm true) : Moves s t := by
  cases e with
  | call c =>
      simp only [Sys.step] at stepped
      split at stepped
      · exact perform_moves stepped
      · cases stepped
  | next =>
      simp only [Sys.step] at stepped
      split at stepped
      · exact waitLoop_moves stepped
      · cases stepped
  | alrm kernel =>
      cases kernel with
      | true => exact absurd rfl quiet
      | false =>
          rw [← Option.some.inj stepped]
          exact .mk s s.line.wake s.returned .keep

theorem alrm_of_step (stepped : s.step (.alrm true) = some t) : t = s.alrmAction true := by
  simp only [Sys.step, Option.some.injEq] at stepped
  exact stepped.symm

/-! ## Every job fires on time -/

/-- The invariant: a job that is in the table counts down to its next multiple,
and the tracks of all jobs there ever were obey the law, if they were added with
a period of a second or more. -/
structure Inv (s : Sys) : Prop where
  distinct : Distinct s
  below : ∀ i, (s.job i).isSome → s.serial i < s.born
  onTime : ∀ i j, s.job i = some j → 1 ≤ (s.track (s.serial i)).sec →
    OnTime j (s.track (s.serial i))
  law : ∀ k < s.born, 1 ≤ (s.track k).sec → (s.track k).Law

theorem Inv.alrm (inv : Inv s) : Inv (s.alrmAction true) := by
  have ticked := ticked_alrm inv.distinct
  have track : ∀ x j, s.job x = some j →
      (s.alrmAction true).track (s.serial x) = (s.track (s.serial x)).tick j := by
    intro x j found
    rw [ticked.track x j found, if_pos (List.mem_finRange x)]
  refine ⟨fun i x used used' same => ?_, fun i used => ?_, fun i j found => ?_, fun k older => ?_⟩
  · rw [alrm_job, Option.isSome_map] at used used'
    rw [ticked.serial] at same
    exact inv.distinct i x used used' same
  · rw [alrm_job, Option.isSome_map] at used
    rw [ticked.serial, ticked.born]
    exact inv.below i used
  · rw [alrm_job] at found
    obtain ⟨p, found', rfl⟩ := Option.map_eq_some_iff.mp found
    rw [ticked.serial, track i p found', Track.tick_sec]
    exact fun pos => (inv.onTime i p found' pos).tick
  · rw [ticked.born] at older
    by_cases held : ∃ i j, s.job i = some j ∧ s.serial i = k
    · obtain ⟨i, j, found, rfl⟩ := held
      rw [track i j found, Track.tick_sec]
      exact fun pos => (inv.onTime i j found pos).tick.law
    · rw [ticked.other k fun i j found same => held ⟨i, j, found, same⟩]
      exact inv.law k older

/-- Only the main line moves on. -/
theorem Inv.moved (inv : Inv s) (line : Line) (returned : List (Call × Option Int)) :
    Inv { s with line := line, returned := returned } :=
  ⟨inv.distinct, inv.below, inv.onTime, inv.law⟩

theorem isSome_update {job : Slot → Option Job} {v : Option Job} (used : (job i).isSome)
    (there : (Function.update job i v x).isSome) : (job x).isSome := by
  by_cases same : x = i
  · rwa [same]
  · rwa [Function.update_of_ne same] at there

/-- A job changes and stays on time. -/
theorem Inv.setJob (inv : Inv s) (found : s.job i = some j) {j' : Job}
    (onTime : OnTime j (s.track (s.serial i)) → OnTime j' (s.track (s.serial i))) :
    Inv (s.setJob i j') := by
  have used : (s.job i).isSome := by rw [found]; rfl
  refine ⟨fun a b usedA usedB same => ?_, fun a usedA => inv.below a (isSome_update used usedA),
    fun a p found' => ?_, inv.law⟩
  · exact inv.distinct a b (isSome_update used usedA) (isSome_update used usedB) same
  · rcases update_some_eq_some.mp found' with ⟨rfl, rfl⟩ | ⟨-, before⟩
    · exact fun pos => onTime (inv.onTime a j found pos)
    · exact inv.onTime a p before

/-- A slot is given back. -/
theorem Inv.release (inv : Inv s) (found : s.job i = some j) :
    Inv { s with job := Function.update s.job i none } := by
  have used : (s.job i).isSome := by rw [found]; rfl
  refine ⟨fun a b usedA usedB same => ?_, fun a usedA => inv.below a (isSome_update used usedA),
    fun a p found' => ?_, inv.law⟩
  · exact inv.distinct a b (isSome_update used usedA) (isSome_update used usedB) same
  · exact inv.onTime a p (update_none_eq_some.mp found').2

/-- A slot is filled with a job of a new number. -/
theorem Inv.add (inv : Inv s) (pos : Slot) (sec isRepeat : Int) :
    Inv (s.place pos sec isRepeat) := by
  have older : ∀ a, (s.job a).isSome → s.serial a ≠ s.born := fun a used =>
    Nat.ne_of_lt (inv.below a used)
  have slots : ∀ a, (Function.update s.job pos (some (Job.new sec isRepeat)) a).isSome →
      a = pos ∨ a ≠ pos ∧ (s.job a).isSome := by
    intro a used
    obtain ⟨p, found⟩ := Option.isSome_iff_exists.mp used
    rcases update_some_eq_some.mp found with ⟨new, -⟩ | ⟨other, before⟩
    · exact .inl new
    · exact .inr ⟨other, by rw [before]; rfl⟩
  refine ⟨fun a b usedA usedB same => ?_, fun a usedA => ?_, fun a p found => ?_,
    fun k younger => ?_⟩
  · dsimp only [Sys.place, Sys.setJob] at same
    rcases slots a usedA with rfl | ⟨otherA, thereA⟩
    · rcases slots b usedB with rfl | ⟨otherB, thereB⟩
      · rfl
      · rw [Function.update_self, Function.update_of_ne otherB] at same
        exact absurd same.symm (older b thereB)
    · rw [Function.update_of_ne otherA] at same
      rcases slots b usedB with rfl | ⟨otherB, thereB⟩
      · rw [Function.update_self] at same
        exact absurd same (older a thereA)
      · rw [Function.update_of_ne otherB] at same
        exact inv.distinct a b thereA thereB same
  · dsimp only [Sys.place, Sys.setJob]
    rcases slots a usedA with rfl | ⟨other, used⟩
    · rw [Function.update_self]
      omega
    · rw [Function.update_of_ne other]
      exact Nat.lt_succ_of_lt (inv.below a used)
  · dsimp only [Sys.place, Sys.setJob]
    rcases update_some_eq_some.mp found with ⟨rfl, rfl⟩ | ⟨other, before⟩
    · rw [Function.update_self, Function.update_self]
      intro pos
      dsimp only at pos
      exact onTime_new isRepeat (by omega)
    · rw [Function.update_of_ne other, Function.update_of_ne (older a (by rw [before]; rfl))]
      exact inv.onTime a p before
  · dsimp only [Sys.place, Sys.setJob] at younger ⊢
    rcases Nat.lt_or_eq_of_le (Nat.le_of_lt_succ younger) with earlier | newest
    · rw [Function.update_of_ne (Nat.ne_of_lt earlier)]
      exact inv.law k earlier
    · rw [newest, Function.update_self]
      intro pos
      dsimp only at pos
      exact (onTime_new isRepeat (by omega)).law

theorem Inv.effect (inv : Inv s) (effect : Effect s t) : Inv t := by
  cases effect with
  | keep => exact inv
  | change i j jobState rep found counting =>
      exact inv.setJob found fun onTime => onTime.change jobState rep counting
  | release i j found => exact inv.release found
  | add pos sec isRepeat => exact inv.add pos sec isRepeat

theorem Inv.step (inv : Inv s) (stepped : s.step e = some t) : Inv t := by
  by_cases tick : e = .alrm true
  · subst tick
    rw [alrm_of_step stepped]
    exact inv.alrm
  · obtain ⟨u, line, returned, effect⟩ := step_moves stepped tick
    exact (inv.effect effect).moved line returned

theorem start_inv : Inv Sys.start where
  distinct _ _ used := nomatch used
  below _ used := nomatch used
  onTime _ _ found := nomatch found
  law _ older := nomatch older

theorem run_inv (ran : run Sys.step Sys.start es = some s) : Inv s :=
  run_invariant (fun inv _ stepped => inv.step stepped) start_inv (along_true es _) ran

/-! ## Jobs that have ended -/

/-- The job `k` is over or cancelled, or was released. -/
structure Ended (k : Nat) (s : Sys) : Prop where
  older : k < s.born
  state : ∀ i j, s.job i = some j → s.serial i = k →
    j.jobState = .stateOver ∨ j.jobState = .stateCancel

/-- The job `k` has ended and its track is still the one it had in `s`. -/
structure Rests (k : Nat) (s t : Sys) : Prop where
  ended : Ended k t
  track : t.track k = s.track k

theorem Ended.not_running (ended : Ended k s) (found : s.job i = some j)
    (same : s.serial i = k) : j.jobState ≠ .stateRunning ∧ j.jobState ≠ .statePause := by
  rcases ended.state i j found same with finished | cancelled
  · rw [finished]
    exact ⟨nofun, nofun⟩
  · rw [cancelled]
    exact ⟨nofun, nofun⟩

theorem Ended.setJob (ended : Ended k s) {j' : Job}
    (state : s.serial i = k → j'.jobState = .stateOver ∨ j'.jobState = .stateCancel) :
    Ended k (s.setJob i j') where
  older := ended.older
  state x p found same := by
    rcases update_some_eq_some.mp found with ⟨rfl, rfl⟩ | ⟨-, before⟩
    · exact state same
    · exact ended.state x p before same

theorem Ended.tickSlot (ended : Ended k s) : Rests k s (s.tickSlot i) := by
  unfold Sys.tickSlot
  split
  · exact ⟨ended, rfl⟩
  · next j found =>
      by_cases same : s.serial i = k
      · obtain ⟨idle, -⟩ := ended.not_running found same
        obtain ⟨stays, still⟩ := tick_idle (k := s.track (s.serial i)) idle
        rw [stays, still, Function.update_eq_self]
        exact ⟨ended.setJob fun same => ended.state i j found same, rfl⟩
      · exact ⟨⟨ended.older, (ended.setJob fun here => absurd here same).state⟩,
          Function.update_of_ne (Ne.symm same) _ _⟩

theorem Ended.ticks (ended : Ended k s) (is : List Slot) :
    Rests k s (is.foldl Sys.tickSlot s) := by
  induction is generalizing s with
  | nil => exact ⟨ended, rfl⟩
  | cons i is ih =>
      have first := ended.tickSlot (i := i)
      have rest := ih first.ended
      exact ⟨rest.ended, rest.track.trans first.track⟩

theorem Ended.effect (ended : Ended k s) (effect : Effect s t) : Rests k s t := by
  cases effect with
  | keep => exact ⟨ended, rfl⟩
  | change i j jobState rep found counting =>
      refine ⟨ended.setJob fun same => ?_, rfl⟩
      obtain ⟨idle, unpaused⟩ := ended.not_running found same
      have off := mt counting (not_or.mpr ⟨idle, unpaused⟩)
      cases jobState with
      | stateRunning => exact absurd (.inl rfl) off
      | stateCancel => exact .inr rfl
      | stateOver => exact .inl rfl
      | statePause => exact absurd (.inr rfl) off
  | release i j found =>
      refine ⟨⟨ended.older, fun x p found same => ?_⟩, rfl⟩
      exact ended.state x p (update_none_eq_some.mp found).2 same
  | add pos sec isRepeat =>
      have older := ended.older
      refine ⟨⟨Nat.lt_succ_of_lt older, fun x p found same => ?_⟩,
        Function.update_of_ne (Nat.ne_of_lt older) _ _⟩
      dsimp only [Sys.place, Sys.setJob] at found same
      rcases update_some_eq_some.mp found with ⟨rfl, -⟩ | ⟨other, before⟩
      · rw [Function.update_self] at same
        omega
      · rw [Function.update_of_ne other] at same
        exact ended.state x p before same

theorem Ended.alrm (ended : Ended k s) : Rests k s (s.alrmAction true) := by
  have moved : Ended k { s with line := s.line.wake } := ⟨ended.older, ended.state⟩
  have ticks : ∀ is : List Slot,
      Rests k s (is.foldl Sys.tickSlot { s with line := s.line.wake }) := by
    intro is
    have rests := moved.ticks is
    exact ⟨rests.ended, rests.track⟩
  exact ticks _

theorem Ended.step (ended : Ended k s) (stepped : s.step e = some t) : Rests k s t := by
  by_cases tick : e = .alrm true
  · subst tick
    rw [alrm_of_step stepped]
    exact ended.alrm
  · obtain ⟨u, line, returned, effect⟩ := step_moves stepped tick
    have rests := ended.effect effect
    exact ⟨⟨rests.ended.older, rests.ended.state⟩, rests.track⟩

/-- A job that has ended never runs or fires again, in any run. -/
theorem Ended.run (ended : Ended k s) (ran : run Sys.step s es = some t) : Rests k s t :=
  run_invariant (I := Rests k s)
    (fun rests _ stepped =>
      have next := rests.ended.step stepped
      ⟨next.ended, next.track.trans rests.track⟩)
    ⟨ended, rfl⟩ (along_true es s) ran

end Shang.Anytimer.Signal
