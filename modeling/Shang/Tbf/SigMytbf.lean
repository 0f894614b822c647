import Shang.Lib.Run
import Shang.Tbf.Bucket
import Mathlib.Logic.Function.Basic

/-!
# The token bucket under signals

`mytbf.c` of `37.mytbf_sigaction_and_setitimer`: one main line calls
`mytbf_fetchtoken` and `mytbf_returntoken`, and the handler of `SIGALRM` refills
all the buckets. The handler runs from start to end between two steps of the
main line. An assignment such as `token -= n` is a load and a store, so the main
line can be interrupted between the two; `Line` says where it is.

The store then writes back a value that does not know of the handler's refill:
`lost` counts the refills that went this way.
-/

namespace Shang.Tbf.SigMytbf

open Lib

/-- An index of the array `job`. -/
abbrev Slot := Fin MYTBF_MAX

/-- Where the main line is, in a call on the bucket in slot `i`: about to take
the step that is named. A thread in `pause()` is `woken` once a handler has run. -/
inductive Line
  | idle
  | fetchTest (i : Slot) (size : Int)
  | fetchPause (i : Slot) (size : Int) (woken : Bool)
  | fetchMin (i : Slot) (size : Int)
  | fetchLoad (i : Slot) (n : Int)
  | fetchStore (i : Slot) (n loaded : Int)
  | returnLoad (i : Slot) (size : Int)
  | returnStore (i : Slot) (size loaded : Int)
  | returnTest (i : Slot) (size : Int)
  | clampLoad (i : Slot) (size : Int)
  | clampStore (i : Slot) (size loaded : Int)
  deriving DecidableEq

/-- The slot whose token is about to be stored, and the value that was loaded. -/
def Line.loaded : Line → Option (Slot × Int)
  | .fetchStore i _ loaded => some (i, loaded)
  | .returnStore i _ loaded => some (i, loaded)
  | _ => none

/-- The slot whose token is about to be stored. -/
def Line.storing (line : Line) : Option Slot :=
  line.loaded.map Prod.fst

/-- The slot whose token is about to be compared with its limit. -/
def Line.testing : Line → Option Slot
  | .returnTest i _ => some i
  | _ => none

/-- The slot that `mytbf_returntoken` is about to clamp. -/
def Line.clamping : Line → Option Slot
  | .clampLoad i _ => some i
  | .clampStore i _ _ => some i
  | _ => none

/-- A handler that returns ends a `pause()`. -/
def Line.wake : Line → Line
  | .fetchPause i size _ => .fetchPause i size true
  | line => line

/-- The buckets, the main line and the results of its calls. The rest is what an
observer counts: the books of each slot, the refills that stores wrote over, and
those that the store to come will write over. -/
structure Proc where
  job : Slot → Option Bucket
  line : Line
  results : List Int
  books : Slot → Books
  lost : Slot → Nat
  late : Nat

/-- The main line calls a function or takes its next step, or `SIGALRM` arrives,
from the kernel's timer or from another sender. -/
inductive Event
  | fetchtoken (i : Slot) (size : Int)
  | returntoken (i : Slot) (size : Int)
  | next
  | alrm (kernel : Bool)
  deriving DecidableEq

namespace Proc

variable (s : Proc)

/-- `alrm_handler` -/
def alrmHandler (kernel : Bool) : Proc :=
  if kernel then
    { s with
      job := fun i => (s.job i).map Bucket.refill
      line := s.line.wake
      books := fun i => (s.books i).tick
      late := s.late + 1 }
  else
    { s with line := s.line.wake }

/-- Store the token of slot `i`. -/
def store (i : Slot) (b : Bucket) (token : Int) : Slot → Option Bucket :=
  Function.update s.job i (some { b with token := token })

/-- The call returns. -/
def finish (result : Int) : Proc :=
  { s with line := .idle, results := s.results ++ [result] }

/-- The next step of the main line in a call on the bucket `b` in slot `i`. -/
def advance : Option Proc :=
  match s.line with
  | .idle => none
  | .fetchTest i size => (s.job i).map fun b =>
      { s with line := if b.token ≤ (0 : Int) then .fetchPause i size false else .fetchMin i size }
  | .fetchPause i size woken => if woken then some { s with line := .fetchTest i size } else none
  | .fetchMin i size => (s.job i).map fun b => { s with line := .fetchLoad i (min b.token size) }
  | .fetchLoad i n => (s.job i).map fun b =>
      { s with line := .fetchStore i n b.token, late := 0 }
  | .fetchStore i n loaded => (s.job i).map fun b =>
      { s with
        job := s.store i b (loaded - n)
        books := Function.update s.books i ((s.books i).fetch n)
        lost := Function.update s.lost i (s.lost i + s.late) }.finish n
  | .returnLoad i size => (s.job i).map fun b =>
      { s with line := .returnStore i size b.token, late := 0 }
  | .returnStore i size loaded => (s.job i).map fun b =>
      { s with
        job := s.store i b (loaded + size)
        line := .returnTest i size
        books := Function.update s.books i ((s.books i).give size)
        lost := Function.update s.lost i (s.lost i + s.late) }
  | .returnTest i size => (s.job i).map fun b =>
      if b.token > b.burst then { s with line := .clampLoad i size } else s.finish size
  | .clampLoad i size => (s.job i).map fun b => { s with line := .clampStore i size b.burst }
  | .clampStore i size loaded => (s.job i).map fun b =>
      { s with job := s.store i b loaded }.finish size

/-- The main line starts a call; the other events are handled elsewhere. -/
def call (line : Line) (size : Int) : Option Proc :=
  if s.line ≠ .idle then none
  else if size ≤ 0 then some (s.finish (-EINVAL))
  else some { s with line := line }

def step : Event → Option Proc
  | .fetchtoken i size => s.call (.fetchTest i size) size
  | .returntoken i size => s.call (.returnLoad i size) size
  | .next => s.advance
  | .alrm kernel => some (s.alrmHandler kernel)

end Proc

/-- Buckets as `mytbf_init` makes them, with their `cps` and `burst`. -/
def Proc.start (rates : Slot → Option (Int × Int)) : Proc where
  job i := (rates i).map fun r => ⟨r.1, r.2, 0⟩
  line := .idle
  results := []
  books _ := ⟨0, 0, 0⟩
  lost _ := 0
  late := 0

/-- The bucket in slot `i` does not get to its limit: neither the handler nor
`mytbf_returntoken` clamps it in this step. -/
def Below (i : Slot) (s : Proc) (e : Event) : Prop :=
  ∀ b ∈ s.job i,
    (e = .alrm true → b.token + b.cps ≤ b.burst) ∧
    (e = .next → s.line.testing = some i → b.token ≤ b.burst)

instance {i : Slot} {s : Proc} {e : Event} : Decidable (Below i s e) :=
  inferInstanceAs (Decidable (∀ b ∈ s.job i, _))

/-- The handler does not refill between the load and the store of an assignment
to the token of slot `i`. -/
def Calm (i : Slot) (s : Proc) (e : Event) : Prop :=
  e = .alrm true → s.line.storing ≠ some i

instance {i : Slot} {s : Proc} {e : Event} : Decidable (Calm i s e) :=
  inferInstanceAs (Decidable (_ → _))

/-- No refill, return or consumption is lost. -/
def Conserved (i : Slot) (s : Proc) : Prop :=
  ∀ b, s.job i = some b →
    b.token = b.cps * (s.books i).ticks + (s.books i).returned - (s.books i).fetched

/-! ## What is lost -/

variable {s t : Proc} {i j : Slot} {e : Event} {es : List Event} {b : Bucket} {line : Line}

/-- The books of slot `i` are right but for the refills that were lost, and a
token that was loaded is behind by the refills since then. -/
structure Inv (i : Slot) (s : Proc) : Prop where
  token : ∀ b, s.job i = some b →
    b.token + (s.books i).fetched + b.cps * s.lost i = (s.books i).income b.cps
  loaded : ∀ b, s.job i = some b → ∀ v, s.line.loaded = some (i, v) →
    b.token = v + b.cps * s.late
  unclamped : s.line.clamping ≠ some i

@[simp] theorem loaded_wake : line.wake.loaded = line.loaded := by
  cases line <;> rfl

@[simp] theorem clamping_wake : line.wake.clamping = line.clamping := by
  cases line <;> rfl

/-- Steps that only move the main line on. -/
theorem Inv.moved (inv : Inv i s) (line : Line) (results : List Int)
    (plain : ∀ v, line.loaded ≠ some (i, v)) (unclamped : line.clamping ≠ some i) :
    Inv i { s with line := line, results := results } where
  token := inv.token
  loaded _ _ v held := absurd held (plain v)
  unclamped := unclamped

theorem Inv.load (inv : Inv i s) (found : s.job j = some b) (line : Line)
    (held : line.loaded = some (j, b.token)) (unclamped : line.clamping ≠ some i) :
    Inv i { s with line := line, late := 0 } where
  token := inv.token
  loaded c found' v held' := by
    rw [held] at held'
    obtain ⟨rfl, rfl⟩ := Prod.mk.inj (Option.some.inj held')
    rw [Option.some.inj (found.symm.trans found')]
    simp
  unclamped := unclamped

/-- A store of `v + n` over the token of which `v` had been loaded. -/
theorem Inv.stored {v n : Int} (inv : Inv i s) (found : s.job j = some b)
    (held : s.line.loaded = some (j, v)) (line : Line) (results : List Int)
    (plain : ∀ v, line.loaded ≠ some (i, v)) (unclamped : line.clamping ≠ some i) (k : Books)
    (booked : k.income b.cps - k.fetched =
      (s.books j).income b.cps - (s.books j).fetched + n) :
    Inv i { s with
      job := s.store j b (v + n)
      line := line
      results := results
      books := Function.update s.books j k
      lost := Function.update s.lost j (s.lost j + s.late) } where
  token c found' := by
    dsimp only [Proc.store] at found' ⊢
    by_cases same : i = j
    · subst same
      rw [Function.update_self] at found'
      rw [← Option.some.inj found', Function.update_self, Function.update_self]
      have token := inv.token b found
      have loaded := inv.loaded b found v held
      push_cast
      rw [mul_add]
      omega
    · rw [Function.update_of_ne same] at found' ⊢
      rw [Function.update_of_ne same]
      exact inv.token c found'
  loaded _ _ v held := absurd held (plain v)
  unclamped := unclamped

/-- A store to another slot. -/
theorem Inv.other (inv : Inv i s) (ne : i ≠ j) (v : Int) (results : List Int) :
    Inv i { s with job := s.store j b v, line := .idle, results := results } where
  token c found := inv.token c ((Function.update_of_ne ne _ _).symm.trans found)
  loaded _ _ _ held := nomatch held
  unclamped := nofun

theorem Inv.alrm (inv : Inv i s) (below : ∀ b, s.job i = some b → b.token + b.cps ≤ b.burst) :
    Inv i (s.alrmHandler true) where
  token c refilled := by
    obtain ⟨b, found, rfl⟩ := Option.map_eq_some_iff.mp refilled
    have token := inv.token b found
    show (b.add b.cps).token + (s.books i).fetched + b.cps * s.lost i =
      (s.books i).tick.income b.cps
    rw [add_token (below b found), income_tick]
    omega
  loaded c refilled v held := by
    obtain ⟨b, found, rfl⟩ := Option.map_eq_some_iff.mp refilled
    have loaded := inv.loaded b found v (loaded_wake.symm.trans held)
    show (b.add b.cps).token = v + b.cps * (s.late + 1 : Nat)
    rw [add_token (below b found), loaded]
    push_cast
    ring
  unclamped := by
    show s.line.wake.clamping ≠ some i
    rw [clamping_wake]
    exact inv.unclamped

theorem Inv.advance (inv : Inv i s)
    (below : ∀ b, s.job i = some b → s.line.testing = some i → b.token ≤ b.burst)
    (stepped : s.advance = some t) : Inv i t := by
  have kept := inv.unclamped
  unfold Proc.advance at stepped
  split at stepped
  case h_1 => cases stepped
  case h_3 j size woken _ =>
    split at stepped
    · obtain rfl := Option.some.inj stepped
      exact inv.moved (.fetchTest j size) s.results nofun nofun
    · cases stepped
  all_goals
    rename_i at_
    obtain ⟨b, found, rfl⟩ := Option.map_eq_some_iff.mp stepped
    rw [at_] at kept
  case h_2 j size =>
    refine inv.moved _ s.results ?_ ?_ <;> split <;> nofun
  case h_4 j size => exact inv.moved (.fetchLoad j _) s.results nofun nofun
  case h_5 j n => exact inv.load found (.fetchStore j n b.token) rfl nofun
  case h_6 j n v =>
    exact inv.stored (n := -n) found (congrArg Line.loaded at_) .idle (s.results ++ [n]) nofun nofun
      ((s.books j).fetch n) (by
        rw [income_fetch]
        unfold Books.fetch
        dsimp only
        omega)
  case h_7 j size => exact inv.load found (.returnStore j size b.token) rfl nofun
  case h_8 j size v =>
    exact inv.stored (n := size) found (congrArg Line.loaded at_) (.returnTest j size) s.results
      nofun nofun ((s.books j).give size) (by
        rw [income_give]
        unfold Books.give
        dsimp only
        omega)
  case h_9 j size =>
    by_cases same : j = i
    · subst same
      rw [if_neg (by
        have limit := below b found (congrArg Line.testing at_)
        omega)]
      exact inv.moved .idle (s.results ++ [size]) nofun nofun
    · split
      · refine inv.moved (.clampLoad j size) s.results nofun fun clamps => same ?_
        exact Option.some.inj clamps
      · exact inv.moved .idle (s.results ++ [size]) nofun nofun
  case h_10 j size => exact inv.moved (.clampStore j size b.burst) s.results nofun kept
  case h_11 j size v =>
    exact inv.other (fun same => kept (congrArg some same.symm)) v (s.results ++ [size])

theorem Inv.call {size : Int} (inv : Inv i s) (line : Line) (plain : ∀ v, line.loaded ≠ some (i, v))
    (unclamped : line.clamping ≠ some i) (stepped : s.call line size = some t) : Inv i t := by
  unfold Proc.call at stepped
  split at stepped
  · cases stepped
  · split at stepped
    · rw [← Option.some.inj stepped]
      exact inv.moved .idle (s.results ++ [-EINVAL]) nofun nofun
    · rw [← Option.some.inj stepped]
      exact inv.moved line s.results plain unclamped

theorem Inv.step (inv : Inv i s) (below : Below i s e) (stepped : s.step e = some t) : Inv i t := by
  cases e with
  | fetchtoken j size => exact inv.call (.fetchTest j size) nofun nofun stepped
  | returntoken j size => exact inv.call (.returnLoad j size) nofun nofun stepped
  | next =>
      exact inv.advance (fun b found => (below b found).2 rfl) stepped
  | alrm kernel =>
      obtain rfl := Option.some.inj stepped
      cases kernel with
      | true => exact inv.alrm fun b found => (below b found).1 rfl
      | false =>
          exact ⟨inv.token,
            fun b found v held => inv.loaded b found v (loaded_wake.symm.trans held),
            fun clamps => inv.unclamped (clamping_wake.symm.trans clamps)⟩

theorem start_inv (rates : Slot → Option (Int × Int)) : Inv i (Proc.start rates) where
  token b found := by
    obtain ⟨r, -, rfl⟩ := Option.map_eq_some_iff.mp found
    simp [Proc.start, Books.income]
  loaded _ _ _ held := nomatch held
  unclamped := nofun

theorem run_inv (rates : Slot → Option (Int × Int))
    (below : Along Proc.step (Below i) (Proc.start rates) es)
    (ran : run Proc.step (Proc.start rates) es = some t) : Inv i t :=
  run_invariant Inv.step (start_inv rates) below ran

/-- The law holds just when no refill of tokens was lost. -/
theorem Inv.conserved_iff (inv : Inv i s) :
    Conserved i s ↔ ∀ b, s.job i = some b → b.cps * s.lost i = 0 := by
  unfold Conserved
  refine forall_congr' fun b => forall_congr' fun found => ?_
  have token := inv.token b found
  unfold Books.income at token
  constructor <;> intro <;> omega

/-! ## Runs without an interrupted assignment -/

/-- Nothing was lost so far, and the store to come will not lose anything. -/
def Whole (i : Slot) (s : Proc) : Prop :=
  s.lost i = 0 ∧ ∀ v, s.line.loaded = some (i, v) → s.late = 0

theorem Whole.stored (whole : Whole i s) {v : Int} (held : s.line.loaded = some (j, v)) :
    Function.update s.lost j (s.lost j + s.late) i = 0 := by
  by_cases same : i = j
  · subst same
    rw [Function.update_self, whole.1, whole.2 v held]
  · rw [Function.update_of_ne same, whole.1]

theorem Whole.advance (whole : Whole i s) (stepped : s.advance = some t) : Whole i t := by
  unfold Proc.advance at stepped
  split at stepped
  case h_1 => cases stepped
  case h_3 j size woken _ =>
    split at stepped
    · obtain rfl := Option.some.inj stepped
      exact ⟨whole.1, nofun⟩
    · cases stepped
  all_goals
    rename_i at_
    obtain ⟨b, found, rfl⟩ := Option.map_eq_some_iff.mp stepped
  case h_2 j size =>
    refine ⟨whole.1, ?_⟩
    dsimp only
    split <;> nofun
  case h_6 j n v => exact ⟨whole.stored (congrArg Line.loaded at_), nofun⟩
  case h_8 j size v => exact ⟨whole.stored (congrArg Line.loaded at_), nofun⟩
  case h_9 j size => split <;> exact ⟨whole.1, nofun⟩
  case h_5 => exact ⟨whole.1, fun _ _ => rfl⟩
  case h_7 => exact ⟨whole.1, fun _ _ => rfl⟩
  all_goals exact ⟨whole.1, nofun⟩

theorem Whole.call {size : Int} (whole : Whole i s) (line : Line)
    (plain : ∀ v, line.loaded ≠ some (i, v)) (stepped : s.call line size = some t) :
    Whole i t := by
  unfold Proc.call at stepped
  split at stepped
  · cases stepped
  · split at stepped
    · rw [← Option.some.inj stepped]
      exact ⟨whole.1, nofun⟩
    · rw [← Option.some.inj stepped]
      exact ⟨whole.1, fun v held => absurd held (plain v)⟩

theorem Whole.step (whole : Whole i s) (calm : Calm i s e) (stepped : s.step e = some t) :
    Whole i t := by
  cases e with
  | fetchtoken j size => exact whole.call (.fetchTest j size) nofun stepped
  | returntoken j size => exact whole.call (.returnLoad j size) nofun stepped
  | next => exact whole.advance stepped
  | alrm kernel =>
      obtain rfl := Option.some.inj stepped
      cases kernel with
      | true =>
          refine ⟨whole.1, fun v held => absurd ?_ (calm rfl)⟩
          exact congrArg (Option.map Prod.fst) (loaded_wake.symm.trans held)
      | false => exact ⟨whole.1, fun v held => whole.2 v (loaded_wake.symm.trans held)⟩

theorem start_whole (rates : Slot → Option (Int × Int)) : Whole i (Proc.start rates) :=
  ⟨rfl, nofun⟩

/-- A bucket that never reaches its limit, and whose assignments are never
interrupted between the load and the store, loses nothing. -/
theorem conserved_run (rates : Slot → Option (Int × Int))
    (below : Along Proc.step (Below i) (Proc.start rates) es)
    (calm : Along Proc.step (Calm i) (Proc.start rates) es)
    (ran : run Proc.step (Proc.start rates) es = some t) : Conserved i t := by
  have whole : Whole i t := run_invariant Whole.step (start_whole rates) calm ran
  refine (run_inv rates below ran).conserved_iff.mpr fun b _ => ?_
  rw [whole.1, Nat.cast_zero, mul_zero]

/-- One bucket, in slot 0. -/
def oneBucket (cps burst : Int) (i : Slot) : Option (Int × Int) :=
  if i = 0 then some (cps, burst) else none

/-- A tick, a fetch that waits for it, a return and another tick. -/
theorem conserved_run_waiting :
    ∃ t, run Proc.step (Proc.start (oneBucket 10 100)) [.fetchtoken 0 4, .next, .alrm true, .next,
      .next, .next, .next, .next, .returntoken 0 3, .next, .next, .next, .alrm true] = some t ∧
      t.results = [4, 3] ∧ Conserved 0 t := by
  obtain ⟨t, ran, results⟩ : ∃ t, run Proc.step (Proc.start (oneBucket 10 100)) [.fetchtoken 0 4,
      .next, .alrm true, .next, .next, .next, .next, .next, .returntoken 0 3, .next, .next, .next,
      .alrm true] = some t ∧ t.results = [4, 3] := ⟨_, rfl, rfl⟩
  exact ⟨t, ran, results, conserved_run (oneBucket 10 100) (by decide) (by decide) ran⟩

/-- A tick between the load and the store of `token -= n` is lost: the bucket
stays below its limit, but has 5 tokens where the law says 15. -/
theorem refill_lost :
    ∃ es t, Along Proc.step (Below 0) (Proc.start (oneBucket 10 100)) es ∧
      run Proc.step (Proc.start (oneBucket 10 100)) es = some t ∧ ¬ Conserved 0 t := by
  refine ⟨[.alrm true, .fetchtoken 0 5, .next, .next, .next, .alrm true, .next], _, by decide, rfl,
    fun conserved => ?_⟩
  exact absurd (conserved ⟨10, 100, 5⟩ rfl) (by decide)

end Shang.Tbf.SigMytbf
