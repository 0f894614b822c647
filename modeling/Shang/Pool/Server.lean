import Mathlib.Logic.Function.Basic
import Shang.Lib.Run

/-!
# The dynamic worker pool

`server.c` of `3.pool_dyanamic`: a manager process and its workers share the table
`pool_arr`. The manager looks at the table at each wake-up, counts the idle and the
busy workers, forks some when too few are idle, and terminates some when too many
are; the workers write down whether they are busy. Nothing orders the accesses, so
each access of either side to the table is a step of its own.

What the kernel decides is part of a step: the process id that `fork` returns, when
a worker dies, whether `accept` succeeds.
-/

namespace Shang.Pool

open Lib

def MAXCLIENT : Nat := 20

def MINSEPARATE : Int := 5

def MAXSEPARATE : Int := 10

/-- `STATE_IDLE` and `STATE_BUSY`. -/
inductive SlotState
  | idle
  | busy
  deriving DecidableEq

/-- `struct pool_st` -/
structure Slot where
  pid : Int
  state : SlotState
  deriving DecidableEq

/-- Where a worker is in `worker_loop`: before it writes `STATE_IDLE`, in `accept`,
before it writes `STATE_BUSY`, before `close`, and in `sleep`. -/
inductive Stage
  | starting
  | accepting
  | accepted
  | serving
  | sleeping
  deriving DecidableEq

/-- A worker process, with the argument of `worker_loop`. -/
structure Worker where
  num : Nat
  stage : Stage
  deriving DecidableEq

/-- Where the manager is: in the loop of `main` that adds workers (`boot` for the one
before the main loop), between `fork` and the store of its result, in `sigsuspend`,
before an access of `manage_workers` to a slot, in the loop that removes workers, or
gone. -/
inductive Phase
  | add (boot : Bool) (i : Nat)
  | store (boot : Bool) (i num : Nat) (pid : Int)
  | suspended
  | check (i : Nat)
  | readBusy (i : Nat)
  | readIdle (i : Nat)
  | trim (i : Nat)
  | exited
  deriving DecidableEq

/-- A call of `fork`, with the slot that it is for and the `pid` field there. -/
structure Fork where
  num : Nat
  field : Int
  deriving DecidableEq

/-- A `SIGTERM`, with the state field of the slot, and where the worker was. -/
structure Kill where
  num : Nat
  state : SlotState
  worker : Option Worker
  deriving DecidableEq

/-- `pool_arr` and what lies behind it, the variables of the manager, the processes, and
what the manager has done so far. -/
structure World where
  pool : Nat → Slot
  idleNum : Int
  busyNum : Int
  phase : Phase
  workers : Int → Option Worker
  forks : List Fork
  kills : List Kill

/-- Before the loop that starts the first workers. `mmap` returns zeros. -/
def init : World where
  pool i := if i < MAXCLIENT then ⟨-1, .idle⟩ else ⟨0, .idle⟩
  idleNum := 0
  busyNum := 0
  phase := .add true 0
  workers _ := none
  forks := []
  kills := []

/-! ## The manager -/

/-- `pool_arr[i].pid = pid` -/
def setPid (s : World) (i : Nat) (pid : Int) : World :=
  { s with pool := Function.update s.pool i { s.pool i with pid := pid } }

/-- The loop of `add_one_worker`: the first free slot from `i` on, or the index behind
the last one. -/
def findFree (pool : Nat → Slot) : Nat → Nat → Nat
  | 0, i => i
  | left + 1, i => if (pool i).pid = -1 then i else findFree pool left (i + 1)

/-- The loop of `del_one_worker`: the first slot in use. -/
def findUsed (pool : Nat → Slot) : Nat → Nat → Option Nat
  | 0, _ => none
  | left + 1, i => if (pool i).pid ≠ -1 then some i else findUsed pool left (i + 1)

/-- `add_one_worker` in the round `i`, up to the return of `fork`, which has created the
process `forked` or failed. -/
def addOneWorker (s : World) (boot : Bool) (i : Nat) (forked : Option Int) : Option World :=
  if s.idleNum + s.busyNum = MAXCLIENT then some { s with phase := .add boot (i + 1) }
  else
    let num := findFree s.pool MAXCLIENT 0
    let fork : Fork := ⟨num, (s.pool num).pid⟩
    let s := { s with idleNum := s.idleNum + 1, forks := s.forks ++ [fork] }
    match forked with
    | none => some { s with phase := .exited }
    | some pid =>
      if pid ≤ 0 ∨ (s.workers pid).isSome then none
      else some { s with
        phase := .store boot i num pid
        workers := Function.update s.workers pid (some ⟨num, .starting⟩) }

/-- `del_one_worker` -/
def delOneWorker (s : World) : World :=
  match findUsed s.pool MAXCLIENT 0 with
  | none => s
  | some num =>
    let kill : Kill := ⟨num, (s.pool num).state, s.workers (s.pool num).pid⟩
    setPid { s with kills := s.kills ++ [kill] } num (-1)

/-- The loop that removes workers, or `sigsuspend`. -/
def enterTrim (s : World) : World :=
  { s with phase := if s.idleNum > MAXSEPARATE then .trim 0 else .suspended }

/-- The next step of the manager; `forked` is what `fork` returns if it is called. -/
def manage (s : World) (forked : Option Int) : Option World :=
  match s.phase with
  | .suspended => none
  | .exited => none
  | .check i =>
    if i < MAXCLIENT then
      if (s.pool i).pid ≠ -1 then
        -- `kill(pid, 0)` fails when there is no such process
        if (s.workers (s.pool i).pid).isNone then
          some { setPid s i (-1) with phase := .readBusy i }
        else some { s with phase := .readBusy i }
      else some { s with phase := .check (i + 1) }
    else if s.idleNum < MINSEPARATE then some { s with phase := .add false 0 }
    else some (enterTrim s)
  | .readBusy i =>
    let busyNum := if (s.pool i).state = .busy then s.busyNum + 1 else s.busyNum
    some { s with busyNum := busyNum, phase := .readIdle i }
  | .readIdle i =>
    let idleNum := if (s.pool i).state = .idle then s.idleNum + 1 else s.idleNum
    some { s with idleNum := idleNum, phase := .check (i + 1) }
  | .add true i =>
    if i < MINSEPARATE then addOneWorker s true i forked
    else some { s with phase := .suspended }
  | .add false i =>
    if i < MINSEPARATE - s.idleNum then addOneWorker s false i forked
    else some (enterTrim s)
  | .store boot i num pid => some { setPid s num pid with phase := .add boot (i + 1) }
  | .trim i =>
    if i < s.idleNum - MAXSEPARATE then some { delOneWorker s with phase := .trim (i + 1) }
    else some { s with phase := .suspended }

/-- A signal ends `sigsuspend`. -/
def wake (s : World) : Option World :=
  if s.phase = .suspended then some { s with phase := .check 0, idleNum := 0, busyNum := 0 }
  else none

/-! ## The workers -/

/-- What a worker writes into its slot next. -/
def Stage.writes : Stage → Option SlotState
  | .starting => some .idle
  | .accepted => some .busy
  | _ => none

/-- Where a worker is next; `ok` says that `accept` returns a connection. -/
def Stage.next : Stage → Bool → Stage
  | .starting, _ => .accepting
  | .accepting, ok => if ok then .accepted else .starting
  | .accepted, _ => .serving
  | .serving, _ => .sleeping
  | .sleeping, _ => .starting

/-- `pool_arr[num].state = state`, if the worker writes next. -/
def write (pool : Nat → Slot) (w : Worker) : Nat → Slot :=
  match w.stage.writes with
  | some state => Function.update pool w.num { pool w.num with state := state }
  | none => pool

/-- The next step of the worker `pid`. -/
def work (s : World) (pid : Int) (ok : Bool) : Option World := do
  let w ← s.workers pid
  some { s with
    pool := write s.pool w
    workers := Function.update s.workers pid (some ⟨w.num, w.stage.next ok⟩) }

/-- The worker `pid` is gone. -/
def die (s : World) (pid : Int) : Option World := do
  let _ ← s.workers pid
  some { s with workers := Function.update s.workers pid none }

inductive Event
  | manage (forked : Option Int)
  | wake
  | work (pid : Int) (ok : Bool)
  | die (pid : Int)
  deriving DecidableEq

def step (s : World) : Event → Option World
  | .manage forked => manage s forked
  | .wake => wake s
  | .work pid ok => work s pid ok
  | .die pid => die s pid

/-! ## What the manager does in one step -/

/-- The bound of the loop that adds workers. -/
def bound (s : World) : Bool → Int
  | true => MINSEPARATE
  | false => MINSEPARATE - s.idleNum

/-- The steps of the manager. -/
inductive Manage (s : World) (forked : Option Int) : World → Prop
  | free (i : Nat) (phase : s.phase = .check i) (inside : i < MAXCLIENT)
      (free : (s.pool i).pid = -1) : Manage s forked { s with phase := .check (i + 1) }
  | dead (i : Nat) (phase : s.phase = .check i) (inside : i < MAXCLIENT)
      (used : (s.pool i).pid ≠ -1) (dead : s.workers (s.pool i).pid = none) :
      Manage s forked { setPid s i (-1) with phase := .readBusy i }
  | alive (i : Nat) (phase : s.phase = .check i) (inside : i < MAXCLIENT)
      (used : (s.pool i).pid ≠ -1) (alive : (s.workers (s.pool i).pid).isSome) :
      Manage s forked { s with phase := .readBusy i }
  | few (i : Nat) (phase : s.phase = .check i) (all : MAXCLIENT ≤ i)
      (few : s.idleNum < MINSEPARATE) : Manage s forked { s with phase := .add false 0 }
  | enough (i : Nat) (phase : s.phase = .check i) (all : MAXCLIENT ≤ i)
      (enough : MINSEPARATE ≤ s.idleNum) : Manage s forked (enterTrim s)
  | readBusy (i : Nat) (phase : s.phase = .readBusy i) :
      Manage s forked { s with
        busyNum := if (s.pool i).state = .busy then s.busyNum + 1 else s.busyNum
        phase := .readIdle i }
  | readIdle (i : Nat) (phase : s.phase = .readIdle i) :
      Manage s forked { s with
        idleNum := if (s.pool i).state = .idle then s.idleNum + 1 else s.idleNum
        phase := .check (i + 1) }
  | full (boot : Bool) (i : Nat) (phase : s.phase = .add boot i) (more : i < bound s boot)
      (full : s.idleNum + s.busyNum = MAXCLIENT) :
      Manage s forked { s with phase := .add boot (i + 1) }
  | failed (boot : Bool) (i : Nat) (phase : s.phase = .add boot i) (more : i < bound s boot)
      (room : s.idleNum + s.busyNum ≠ MAXCLIENT) (forks : forked = none) :
      Manage s forked { s with
        idleNum := s.idleNum + 1
        forks := s.forks ++
          [⟨findFree s.pool MAXCLIENT 0, (s.pool (findFree s.pool MAXCLIENT 0)).pid⟩]
        phase := .exited }
  | fork (boot : Bool) (i : Nat) (pid : Int) (phase : s.phase = .add boot i)
      (more : i < bound s boot) (room : s.idleNum + s.busyNum ≠ MAXCLIENT)
      (forks : forked = some pid) (pos : 0 < pid) (fresh : s.workers pid = none) :
      Manage s forked { s with
        idleNum := s.idleNum + 1
        forks := s.forks ++
          [⟨findFree s.pool MAXCLIENT 0, (s.pool (findFree s.pool MAXCLIENT 0)).pid⟩]
        phase := .store boot i (findFree s.pool MAXCLIENT 0) pid
        workers := Function.update s.workers pid
          (some ⟨findFree s.pool MAXCLIENT 0, .starting⟩) }
  | booted (i : Nat) (phase : s.phase = .add true i) (enough : MINSEPARATE ≤ i) :
      Manage s forked { s with phase := .suspended }
  | added (i : Nat) (phase : s.phase = .add false i) (enough : MINSEPARATE - s.idleNum ≤ i) :
      Manage s forked (enterTrim s)
  | store (boot : Bool) (i num : Nat) (pid : Int) (phase : s.phase = .store boot i num pid) :
      Manage s forked { setPid s num pid with phase := .add boot (i + 1) }
  | trim (i : Nat) (phase : s.phase = .trim i) (more : i < s.idleNum - MAXSEPARATE) :
      Manage s forked { delOneWorker s with phase := .trim (i + 1) }
  | trimmed (i : Nat) (phase : s.phase = .trim i) (enough : s.idleNum - MAXSEPARATE ≤ i) :
      Manage s forked { s with phase := .suspended }

variable {s t : World} {forked : Option Int} {boot : Bool} {i : Nat}

theorem addOneWorker_cases (phase : s.phase = .add boot i) (more : i < bound s boot)
    (added : addOneWorker s boot i forked = some t) : Manage s forked t := by
  unfold addOneWorker at added
  split at added
  · rename_i full
    cases added
    exact .full boot i phase more full
  · rename_i room
    cases forked with
    | none =>
        cases added
        exact .failed boot i phase more room rfl
    | some pid =>
        dsimp only at added
        split at added
        · cases added
        · rename_i fresh
          obtain ⟨pos, fresh⟩ := not_or.mp fresh
          cases added
          exact .fork boot i pid phase more room rfl (Int.not_le.mp pos)
            (Option.not_isSome_iff_eq_none.mp fresh)

theorem manage_cases (managed : manage s forked = some t) : Manage s forked t := by
  unfold manage at managed
  split at managed
  · cases managed
  · cases managed
  · rename_i i phase
    split at managed
    · rename_i inside
      split at managed
      · rename_i used
        split at managed
        · rename_i dead
          cases managed
          exact .dead i phase inside used (Option.isNone_iff_eq_none.mp dead)
        · rename_i alive
          cases managed
          exact .alive i phase inside used (by simpa [Option.isSome_iff_ne_none] using alive)
      · rename_i free
        cases managed
        exact .free i phase inside (not_not.mp free)
    · rename_i all
      split at managed
      · rename_i few
        cases managed
        exact .few i phase (Nat.not_lt.mp all) few
      · rename_i enough
        cases managed
        exact .enough i phase (Nat.not_lt.mp all) (Int.not_lt.mp enough)
  · rename_i i phase
    cases managed
    exact .readBusy i phase
  · rename_i i phase
    cases managed
    exact .readIdle i phase
  · rename_i i phase
    split at managed
    · rename_i more
      exact addOneWorker_cases phase more managed
    · rename_i enough
      cases managed
      exact .booted i phase (Int.not_lt.mp enough)
  · rename_i i phase
    split at managed
    · rename_i more
      exact addOneWorker_cases phase more managed
    · rename_i enough
      cases managed
      exact .added i phase (Int.not_lt.mp enough)
  · rename_i boot i num pid phase
    cases managed
    exact .store boot i num pid phase
  · rename_i i phase
    split at managed
    · rename_i more
      cases managed
      exact .trim i phase more
    · rename_i enough
      cases managed
      exact .trimmed i phase (Int.not_lt.mp enough)

/-! ## What the others do -/

variable {pid : Int} {ok : Bool} {w : Worker}

theorem work_cases (worked : work s pid ok = some t) :
    ∃ w, s.workers pid = some w ∧
      t = { s with
        pool := write s.pool w
        workers := Function.update s.workers pid (some ⟨w.num, w.stage.next ok⟩) } := by
  obtain ⟨w, alive, worked⟩ := Option.bind_eq_some_iff.mp worked
  cases worked
  exact ⟨w, alive, rfl⟩

/-- A worker writes nothing but the state field of its own slot. -/
theorem write_pid (pool : Nat → Slot) (w : Worker) (i : Nat) :
    (write pool w i).pid = (pool i).pid := by
  unfold write
  cases w.stage.writes with
  | some state =>
      dsimp only
      by_cases own : i = w.num
      · subst own
        rw [Function.update_self]
      · rw [Function.update_of_ne own]
  | none => rfl

theorem write_state {pool : Nat → Slot} (changed : (write pool w i).state ≠ (pool i).state) :
    w.num = i ∧ w.stage.writes = some (write pool w i).state := by
  unfold write at changed ⊢
  cases writes : w.stage.writes with
  | some state =>
      rw [writes] at changed
      dsimp only at changed ⊢
      by_cases own : i = w.num
      · subst own
        rw [Function.update_self]
        exact ⟨rfl, rfl⟩
      · rw [Function.update_of_ne own] at changed
        exact absurd rfl changed
  | none =>
      rw [writes] at changed
      exact absurd rfl changed

theorem die_cases (died : die s pid = some t) :
    t = { s with workers := Function.update s.workers pid none } := by
  obtain ⟨w, -, died⟩ := Option.bind_eq_some_iff.mp died
  cases died
  rfl

theorem wake_cases (woken : wake s = some t) :
    s.phase = .suspended ∧ t = { s with phase := .check 0, idleNum := 0, busyNum := 0 } := by
  unfold wake at woken
  split at woken
  · rename_i phase
    cases woken
    exact ⟨phase, rfl⟩
  · cases woken

/-! ## Slots in use -/

variable {pool pool' : Nat → Slot} {n left num : Nat}

/-- The number of slots in use among the first `n`. -/
def inUse (pool : Nat → Slot) (n : Nat) : Nat := (List.range n).countP fun i => (pool i).pid ≠ -1

theorem inUse_succ :
    inUse pool (n + 1) = inUse pool n + if (pool n).pid ≠ -1 then 1 else 0 := by
  simp [inUse, List.range_succ, List.countP_append, List.countP_singleton]

theorem inUse_le : inUse pool n ≤ n := by
  have le := List.countP_le_length (p := fun i => decide ((pool i).pid ≠ -1)) (l := List.range n)
  rwa [List.length_range] at le

theorem inUse_congr (same : ∀ i, i < n → (pool' i).pid = (pool i).pid) :
    inUse pool' n = inUse pool n :=
  List.countP_congr fun i mem => by rw [same i (List.mem_range.mp mem)]

/-- A slot that is written counts once at most. -/
theorem inUse_update (pool : Nat → Slot) (num n : Nat) (v : Slot) :
    inUse (Function.update pool num v) n ≤ inUse pool n + 1 ∧
      (v.pid = -1 → inUse (Function.update pool num v) n ≤ inUse pool n) := by
  induction n with
  | zero => exact ⟨Nat.zero_le _, fun _ => Nat.le_refl _⟩
  | succ n ih =>
      rw [inUse_succ, inUse_succ]
      by_cases here : n = num
      · subst here
        have below : inUse (Function.update pool n v) n = inUse pool n :=
          inUse_congr fun i before => by rw [Function.update_of_ne (Nat.ne_of_lt before)]
        rw [below, Function.update_self]
        constructor
        · split <;> split <;> omega
        · intro free
          rw [if_neg (not_not_intro free)]
          exact Nat.le_add_right _ _
      · rw [Function.update_of_ne here]
        exact ⟨by omega, fun free => by have := ih.2 free; omega⟩

/-- The search for a free slot finds one if there is one. -/
theorem findFree_spec (pool : Nat → Slot) (left i : Nat)
    (free : ∃ j, i ≤ j ∧ j < i + left ∧ (pool j).pid = -1) :
    findFree pool left i < i + left ∧ (pool (findFree pool left i)).pid = -1 := by
  induction left generalizing i with
  | zero =>
      obtain ⟨j, from', to', -⟩ := free
      omega
  | succ left ih =>
      rw [findFree]
      by_cases here : (pool i).pid = -1
      · rw [if_pos here]
        exact ⟨by omega, here⟩
      · rw [if_neg here]
        obtain ⟨j, from', to', free⟩ := free
        have other : j ≠ i := by
          rintro rfl
          exact here free
        obtain ⟨inside, found⟩ := ih (i + 1) ⟨j, by omega, by omega, free⟩
        exact ⟨by omega, found⟩

theorem exists_free (pool : Nat → Slot) (n : Nat) (few : inUse pool n < n) :
    ∃ j, j < n ∧ (pool j).pid = -1 := by
  by_contra none
  simp only [not_exists, not_and] at none
  have all : inUse pool n = n := by
    have every : (List.range n).countP (fun i => decide ((pool i).pid ≠ -1)) =
        (List.range n).length :=
      List.countP_eq_length.mpr fun i mem => by simpa using none i (List.mem_range.mp mem)
    rw [inUse, every, List.length_range]
  omega

theorem delOneWorker_cases (s : World) :
    findUsed s.pool MAXCLIENT 0 = none ∧ delOneWorker s = s ∨
    ∃ num, findUsed s.pool MAXCLIENT 0 = some num ∧
      delOneWorker s = setPid { s with
        kills := s.kills ++ [⟨num, (s.pool num).state, s.workers (s.pool num).pid⟩] } num (-1) := by
  unfold delOneWorker
  cases found : findUsed s.pool MAXCLIENT 0 with
  | none => exact .inl ⟨rfl, rfl⟩
  | some num => exact .inr ⟨num, rfl, rfl⟩

end Shang.Pool
