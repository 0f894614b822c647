import Shang.Pool.Server

/-!
# The slots of the pool

`add_one_worker` takes no notice of a search that falls off the end of `pool_arr`: it
relies on the two counters, which `manage_workers` gets by reading the state field of
each slot twice. When no field changes between its two reads, each slot in use is
counted exactly once, the counters are never below the number of slots in use, and
`add_one_worker` finds a free slot whenever it looks for one.
-/

namespace Shang.Pool

open Lib

/-- No state field changes between the two reads of `manage_workers`. -/
def Steady (s : World) : Event → Prop
  | .work pid _ =>
    ∀ w ∈ s.workers pid, s.phase = .readIdle w.num →
      ∀ state ∈ w.stage.writes, state = (s.pool w.num).state
  | _ => True

instance Steady.decidable (s : World) : (e : Event) → Decidable (Steady s e)
  | .work pid _ => inferInstanceAs (Decidable (∀ w ∈ s.workers pid,
      s.phase = .readIdle w.num → ∀ state ∈ w.stage.writes, state = (s.pool w.num).state))
  | .manage _ | .wake | .die _ => isTrue trivial

/-- A call of `fork` is for a slot of `pool_arr` that is free. -/
def Fork.Safe (f : Fork) : Prop := f.num < MAXCLIENT ∧ f.field = -1

/-- What the first of the two reads has counted. -/
def counted : SlotState → Nat
  | .idle => 0
  | .busy => 1

theorem busyNum_counted (state : SlotState) (busyNum : Int) :
    (if state = .busy then busyNum + 1 else busyNum) = busyNum + counted state := by
  cases state with
  | idle => exact (Int.add_zero _).symm
  | busy => rfl

theorem idleNum_counted (state : SlotState) (idleNum : Int) :
    (if state = .idle then idleNum + 1 else idleNum) = idleNum + 1 - counted state := by
  cases state with
  | idle => exact (Int.sub_zero _).symm
  | busy => exact (Int.add_sub_cancel _ 1).symm

/-- How the counters compare with the slots in use. -/
def Counted (s : World) : Prop :=
  match s.phase with
  | .check i =>
    i ≤ MAXCLIENT ∧ inUse s.pool i ≤ s.idleNum + s.busyNum ∧ s.idleNum + s.busyNum ≤ i
  | .readBusy i =>
    i < MAXCLIENT ∧ inUse s.pool i ≤ s.idleNum + s.busyNum ∧ s.idleNum + s.busyNum ≤ i
  | .readIdle i =>
    i < MAXCLIENT ∧
      inUse s.pool i + counted (s.pool i).state ≤ s.idleNum + s.busyNum ∧
      s.idleNum + s.busyNum ≤ i + counted (s.pool i).state
  | .add _ _ | .trim _ =>
    inUse s.pool MAXCLIENT ≤ s.idleNum + s.busyNum ∧ s.idleNum + s.busyNum ≤ MAXCLIENT
  | .store _ _ _ _ =>
    inUse s.pool MAXCLIENT + 1 ≤ s.idleNum + s.busyNum ∧ s.idleNum + s.busyNum ≤ MAXCLIENT
  | .suspended | .exited => True

/-- What holds while the state fields are steady. -/
structure Inv (s : World) : Prop where
  counted : Counted s
  safe : ∀ f ∈ s.forks, f.Safe

variable {s t : World} {e : Event} {forked : Option Int} {i : Nat} {pool pool' : Nat → Slot}

theorem init_inv : Inv init where
  counted := by
    show (inUse init.pool MAXCLIENT : Int) ≤ 0 + 0 ∧ (0 + 0 : Int) ≤ MAXCLIENT
    decide
  safe := List.forall_mem_nil _

/-- Slots from `i` on do not count below `i`. -/
theorem inUse_update_of_le {v : Slot} {n : Nat} (below : n ≤ i) :
    inUse (Function.update pool i v) n = inUse pool n :=
  inUse_congr fun j inside => by rw [Function.update_of_ne (by omega)]

theorem counted_enterTrim (low : inUse s.pool MAXCLIENT ≤ s.idleNum + s.busyNum)
    (high : s.idleNum + s.busyNum ≤ MAXCLIENT) : Counted (enterTrim s) := by
  by_cases many : s.idleNum > MAXSEPARATE
  · rw [enterTrim, if_pos many]
    exact ⟨low, high⟩
  · rw [enterTrim, if_neg many]
    trivial

/-- With room in the table, the search of `add_one_worker` finds a free slot. -/
theorem findFree_safe (low : inUse s.pool MAXCLIENT ≤ s.idleNum + s.busyNum)
    (high : s.idleNum + s.busyNum ≤ MAXCLIENT) (room : s.idleNum + s.busyNum ≠ MAXCLIENT) :
    Fork.Safe ⟨findFree s.pool MAXCLIENT 0, (s.pool (findFree s.pool MAXCLIENT 0)).pid⟩ := by
  obtain ⟨j, inside, free⟩ := exists_free s.pool MAXCLIENT (by omega)
  have found := findFree_spec s.pool MAXCLIENT 0 ⟨j, Nat.zero_le j, by omega, free⟩
  rwa [Nat.zero_add] at found

theorem Inv.manage (inv : Inv s) (managed : manage s forked = some t) : Inv t := by
  have counted := inv.counted
  unfold Counted at counted
  cases manage_cases managed with
  | free i phase inside free =>
      rw [phase] at counted
      obtain ⟨-, low, high⟩ := counted
      refine { inv with counted := ?_ }
      have same : inUse s.pool (i + 1) = inUse s.pool i := by
        rw [inUse_succ, if_neg (not_not_intro free), Nat.add_zero]
      show i + 1 ≤ MAXCLIENT ∧ (inUse s.pool (i + 1) : Int) ≤ _ ∧ _
      rw [same]
      exact ⟨inside, low, by push_cast; omega⟩
  | dead i phase inside used dead =>
      rw [phase] at counted
      obtain ⟨-, low, high⟩ := counted
      refine { inv with counted := ?_ }
      show i < MAXCLIENT ∧ (inUse (Function.update s.pool i _) i : Int) ≤ _ ∧ _
      rw [inUse_update_of_le (Nat.le_refl i)]
      exact ⟨inside, low, high⟩
  | alive i phase inside used alive =>
      rw [phase] at counted
      exact { inv with counted := ⟨inside, counted.2⟩ }
  | few i phase all few =>
      rw [phase] at counted
      obtain ⟨last, low, high⟩ := counted
      obtain rfl : i = MAXCLIENT := Nat.le_antisymm last all
      exact { inv with counted := ⟨low, high⟩ }
  | enough i phase all enough =>
      rw [phase] at counted
      obtain ⟨last, low, high⟩ := counted
      obtain rfl : i = MAXCLIENT := Nat.le_antisymm last all
      exact { inv with counted := counted_enterTrim low high }
  | readBusy i phase =>
      rw [phase] at counted
      obtain ⟨inside, low, high⟩ := counted
      refine { inv with counted := ?_ }
      show i < MAXCLIENT ∧ (inUse s.pool i + Pool.counted (s.pool i).state : Int) ≤ _ ∧ _
      rw [busyNum_counted]
      refine ⟨inside, ?_, ?_⟩
      · dsimp only
        omega
      · dsimp only
        omega
  | readIdle i phase =>
      rw [phase] at counted
      obtain ⟨inside, low, high⟩ := counted
      refine { inv with counted := ?_ }
      have next : (inUse s.pool (i + 1) : Int) ≤ inUse s.pool i + 1 := by
        rw [inUse_succ]
        split <;> omega
      show i + 1 ≤ MAXCLIENT ∧ (inUse s.pool (i + 1) : Int) ≤ _ ∧ _
      rw [idleNum_counted]
      refine ⟨inside, ?_, ?_⟩
      · dsimp only
        omega
      · dsimp only
        omega
  | full boot i phase more full =>
      rw [phase] at counted
      exact { inv with counted := counted }
  | failed boot i phase more room =>
      rw [phase] at counted
      have safe := findFree_safe counted.1 counted.2 room
      exact {
        counted := trivial
        safe := List.forall_mem_append.mpr ⟨inv.safe, List.forall_mem_singleton.mpr safe⟩ }
  | fork boot i pid phase more room forks pos fresh =>
      rw [phase] at counted
      obtain ⟨low, high⟩ := counted
      have safe := findFree_safe low high room
      refine {
        counted := ?_
        safe := List.forall_mem_append.mpr ⟨inv.safe, List.forall_mem_singleton.mpr safe⟩ }
      show (inUse s.pool MAXCLIENT + 1 : Int) ≤ s.idleNum + 1 + s.busyNum ∧
        s.idleNum + 1 + s.busyNum ≤ MAXCLIENT
      omega
  | booted i phase enough => exact { inv with counted := trivial }
  | added i phase enough =>
      rw [phase] at counted
      exact { inv with counted := counted_enterTrim counted.1 counted.2 }
  | store boot i num pid phase =>
      rw [phase] at counted
      obtain ⟨low, high⟩ := counted
      refine { inv with counted := ?_ }
      have more := (inUse_update s.pool num MAXCLIENT { s.pool num with pid := pid }).1
      show (inUse (Function.update s.pool num _) MAXCLIENT : Int) ≤ s.idleNum + s.busyNum ∧ _
      exact ⟨by omega, high⟩
  | trim i phase more =>
      rw [phase] at counted
      obtain ⟨low, high⟩ := counted
      rcases delOneWorker_cases s with ⟨-, none⟩ | ⟨num, -, killed⟩
      · rw [none]
        exact { inv with counted := ⟨low, high⟩ }
      · rw [killed]
        have fewer :=
          (inUse_update s.pool num MAXCLIENT { s.pool num with pid := -1 }).2 rfl
        refine { inv with counted := ?_ }
        exact ⟨Int.le_trans (Int.ofNat_le.mpr fewer) low, high⟩
  | trimmed i phase enough => exact { inv with counted := trivial }

theorem Inv.work {pid : Int} {ok : Bool} (inv : Inv s) (steady : Steady s (.work pid ok))
    (worked : work s pid ok = some t) : Inv t := by
  obtain ⟨w, alive, rfl⟩ := work_cases worked
  refine { inv with counted := ?_ }
  have counted := inv.counted
  have same (n : Nat) : inUse (write s.pool w) n = inUse s.pool n :=
    inUse_congr fun j _ => write_pid s.pool w j
  unfold Counted at counted ⊢
  dsimp only
  cases phase : s.phase with
  | readIdle i =>
      have state : (write s.pool w i).state = (s.pool i).state := by
        by_contra changed
        obtain ⟨own, writes⟩ := write_state changed
        subst own
        exact changed (steady w alive phase _ writes)
      rw [phase] at counted
      dsimp only at counted ⊢
      rwa [same, state]
  | suspended => trivial
  | exited => trivial
  | _ =>
      rw [phase] at counted
      dsimp only at counted ⊢
      rwa [same]

theorem Inv.step (inv : Inv s) (steady : Steady s e) (stepped : step s e = some t) : Inv t := by
  cases e with
  | manage forked => exact inv.manage stepped
  | wake =>
      obtain ⟨-, rfl⟩ := wake_cases stepped
      refine { inv with counted := ?_ }
      show 0 ≤ MAXCLIENT ∧ (inUse s.pool 0 : Int) ≤ 0 + 0 ∧ (0 + 0 : Int) ≤ (0 : Nat)
      exact ⟨Nat.zero_le _, Int.le_refl _, Int.le_refl _⟩
  | work pid ok => exact inv.work steady stepped
  | die pid =>
      obtain rfl := die_cases stepped
      exact { inv with counted := inv.counted }

/-- **Slot safety.** While the state fields are steady, every `fork` is for a free slot of
the table. -/
theorem forks_safe {es : List Event} (steady : Along step Steady init es)
    (ran : run step init es = some s) : ∀ f ∈ s.forks, f.Safe := by
  have inv : Inv s := run_invariant
    (fun inv steady stepped => inv.step steady stepped) init_inv steady ran
  exact inv.safe

/-! ## A field that changes between the reads -/

/-- The manager forks for so many slots. -/
def forking (pids : List Int) : List Event :=
  pids.flatMap fun pid => [.manage (some pid), .manage none]

/-- The workers accept a connection each. -/
def serving (pids : List Int) : List Event :=
  pids.flatMap fun pid => List.replicate 3 (.work pid true)

/-- A pass of the main loop in which no worker is idle and so many slots are in use. -/
def passing (used : Nat) (pids : List Int) : List Event :=
  .wake :: List.replicate (2 * used + 21) (.manage none) ++ forking pids ++ [.manage none]

/-- The table fills up with busy workers. -/
def filling : List Event :=
  forking [1, 2, 3, 4, 5] ++ [.manage none] ++
  serving [1, 2, 3, 4, 5] ++ passing 5 [6, 7, 8] ++
  serving [6, 7, 8] ++ passing 8 [9, 10, 11] ++
  serving [9, 10, 11] ++ passing 11 [12, 13, 14] ++
  serving [12, 13, 14] ++ passing 14 [15, 16, 17] ++
  serving [15, 16, 17] ++ passing 17 [18, 19, 20] ++ serving [18, 19, 20]

/-- The worker in slot 0 becomes idle between the two reads, and is counted twice. -/
def flipping : List Event :=
  filling ++ [.work 1 true, .work 1 true, .wake, .manage none, .manage none, .work 1 true] ++
    List.replicate 59 (.manage none) ++ [.manage (some 21)]

/-- `fork` for the slot behind the table. -/
theorem forks_safe_fails :
    ¬ ∀ (es : List Event) (s : World), run step init es = some s → ∀ f ∈ s.forks, f.Safe := by
  intro safe
  have behind : (run step init flipping).map (fun s => s.forks.getLast?) = some (some ⟨20, 0⟩) := by
    decide +kernel
  obtain ⟨s, ran, last⟩ := Option.map_eq_some_iff.mp behind
  have inside := (safe flipping s ran _ (List.mem_of_getLast? last)).1
  exact absurd inside (by decide)

/-- The table fills up, and every `fork` is for a free slot. -/
theorem forks_safe_filling :
    ∃ s, run step init filling = some s ∧ s.forks.length = 20 ∧ ∀ f ∈ s.forks, f.Safe := by
  have all : (run step init filling).map (fun s => s.forks.length) = some 20 := by decide +kernel
  obtain ⟨s, ran, count⟩ := Option.map_eq_some_iff.mp all
  exact ⟨s, ran, count, forks_safe (by decide +kernel) ran⟩

end Shang.Pool
