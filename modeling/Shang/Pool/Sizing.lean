import Mathlib.Data.List.Perm.Basic
import Mathlib.Data.List.Nodup
import Shang.Pool.Server

/-!
# The size of the pool after a pass

A pass of the main loop counts, then forks, then terminates. The loop that forks
compares with `idle_num`, which it increments itself, so it makes up half of what is
missing. The count takes the state field of a worker that is gone for its state, and
the loop that terminates takes busy workers for idle ones. What a pass achieves is
known when it begins.
-/

namespace Shang.Pool

open Lib

/-- The slots in use. -/
def slots (pool : Nat → Slot) : List Nat :=
  (List.range MAXCLIENT).filter fun i => (pool i).pid ≠ -1

/-- The slots whose worker is there. -/
def lives (s : World) : List Nat :=
  (slots s.pool).filter fun i => (s.workers (s.pool i).pid).isSome

/-- The slots that the manager has forked for since `s`. -/
def newcomers (s t : World) : List Nat := (t.forks.drop s.forks.length).map Fork.num

/-- The idle workers at the end `t` of a pass that begins in `s`; a worker that was forked in
the pass counts as idle. -/
def idlers (s t : World) : Nat :=
  (lives t).countP fun i => (t.pool i).state = .idle ∨ i ∈ newcomers s t

/-- The size that a pass is to achieve. -/
def Fits (s t : World) : Prop :=
  (MINSEPARATE ≤ idlers s t ∨ (slots t.pool).length = MAXCLIENT) ∧ idlers s t ≤ MAXSEPARATE

/-- The manager wakes up in `s`, and goes to sleep again in `t`. If its step `k` calls `fork`,
it gets `fork k`. -/
def Pass (s : World) (fork : Nat → Int) (t : World) : Prop :=
  ∃ n, run step s (.wake :: (List.range n).map fun k => .manage (some (fork k))) = some t ∧
    t.phase = .suspended

/-- `fork` returns the ids of new processes. -/
structure Fresh (s : World) (fork : Nat → Int) : Prop where
  pos (k : Nat) : 0 < fork k
  new (k : Nat) : s.workers (fork k) = none
  injective : Function.Injective fork

/-- The number of slots in use with a state, among the first `n`. -/
def stated (s : World) (state : SlotState) (n : Nat) : Nat :=
  (List.range n).countP fun i => (s.pool i).pid ≠ -1 ∧ (s.pool i).state = state

/-- Those of some slots that are marked idle. -/
def idleAmong (s : World) (l : List Nat) : Nat := l.countP fun i => (s.pool i).state = .idle

/-- The states in which a pass achieves the size. With fewer than `MINSEPARATE` slots in use
marked idle, four are and their workers are there and a slot is free, or no worker is gone
and half of what is missing fills the table. Otherwise it is the workers behind those to be
terminated that count. -/
def Sized (s : World) : Prop :=
  let idle := stated s .idle MAXCLIENT
  let used := (slots s.pool).length
  if (idle : Int) < MINSEPARATE then
    idle = 4 ∧ idleAmong s (lives s) = 4 ∧ used < MAXCLIENT ∨
      (lives s).length = used ∧ MAXCLIENT ≤ used + (6 - idle) / 2
  else
    MINSEPARATE ≤ idleAmong s ((lives s).drop (idle - 10)) ∧
      idleAmong s ((lives s).drop (idle - 10)) ≤ MAXSEPARATE

instance (s : World) : Decidable (Sized s) := by
  unfold Sized
  infer_instance

/-! ## Lists of slots -/

variable {s t u : World} {forked : Option Int} {pool : Nat → Slot} {i num : Nat} {v : Slot}

theorem mem_slots : i ∈ slots pool ↔ i < MAXCLIENT ∧ (pool i).pid ≠ -1 := by simp [slots]

theorem nodup_slots : (slots pool).Nodup := List.nodup_range.filter _

theorem length_slots : (slots pool).length = inUse pool MAXCLIENT :=
  List.countP_eq_length_filter.symm

theorem length_slots_le : (slots pool).length ≤ MAXCLIENT := by
  rw [length_slots]
  exact inUse_le

/-- A slot that gets a worker. -/
theorem slots_store (inside : num < MAXCLIENT) (free : (pool num).pid = -1) (used : v.pid ≠ -1) :
    (slots (Function.update pool num v)).Perm (num :: slots pool) := by
  have fresh : num ∉ slots pool := fun mem => (mem_slots.mp mem).2 free
  apply (List.perm_ext_iff_of_nodup nodup_slots (nodup_slots.cons fresh)).mpr
  intro i
  rw [List.mem_cons, mem_slots, mem_slots]
  by_cases own : i = num
  · subst own
    rw [Function.update_self]
    exact ⟨fun _ => .inl rfl, fun _ => ⟨inside, used⟩⟩
  · rw [Function.update_of_ne own]
    exact (or_iff_right own).symm

/-- The search for a slot in use finds the first one. -/
theorem findUsed_eq (pool : Nat → Slot) (left i : Nat) :
    findUsed pool left i =
      ((List.range' i left).filter fun j => (pool j).pid ≠ -1).head? := by
  induction left generalizing i with
  | zero => rfl
  | succ left ih =>
      rw [findUsed, List.range'_succ]
      by_cases used : (pool i).pid ≠ -1
      · rw [if_pos used, List.filter_cons_of_pos (by simpa using used), List.head?_cons]
      · rw [if_neg used, List.filter_cons_of_neg (by simpa using used), ih]

theorem findUsed_slots : findUsed pool MAXCLIENT 0 = (slots pool).head? := by
  rw [findUsed_eq, slots, List.range_eq_range']

/-- The first slot in use loses its worker. -/
theorem slots_remove (found : findUsed pool MAXCLIENT 0 = some num) (free : v.pid = -1) :
    slots (Function.update pool num v) = (slots pool).tail := by
  obtain ⟨rest, first⟩ := List.head?_eq_some_iff.mp (findUsed_slots.symm.trans found)
  have others : slots (Function.update pool num v) = (slots pool).filter (· ≠ num) := by
    rw [slots, slots, List.filter_filter]
    apply List.filter_congr
    intro i _
    by_cases own : i = num
    · subst own
      simp [free]
    · simp [own]
  have nodup : (num :: rest).Nodup := first ▸ nodup_slots
  rw [others, first, List.filter_cons_of_neg (by simp), List.tail_cons]
  apply List.filter_eq_self.mpr
  intro i mem
  have other : i ≠ num := fun same => (List.nodup_cons.mp nodup).1 (same ▸ mem)
  simpa using other

/-! ## Counts -/

theorem stated_succ (state : SlotState) (n : Nat) :
    stated s state (n + 1) =
      stated s state n + if (s.pool n).pid ≠ -1 ∧ (s.pool n).state = state then 1 else 0 := by
  simp [stated, List.range_succ, List.countP_append, List.countP_singleton]

theorem stated_free (free : (s.pool i).pid = -1) (state : SlotState) :
    stated s state (i + 1) = stated s state i := by
  rw [stated_succ, if_neg fun both => both.1 free, Nat.add_zero]

theorem stated_used (used : (s.pool i).pid ≠ -1) (state : SlotState) :
    (stated s state (i + 1) : Int) =
      if (s.pool i).state = state then (stated s state i : Int) + 1 else stated s state i := by
  rw [stated_succ]
  by_cases same : (s.pool i).state = state
  · rw [if_pos same, if_pos ⟨used, same⟩, Int.natCast_add, Int.natCast_one]
  · rw [if_neg same, if_neg fun both => same both.2, Nat.add_zero]

theorem stated_add (s : World) (n : Nat) :
    stated s .idle n + stated s .busy n = inUse s.pool n := by
  induction n with
  | zero => rfl
  | succ n ih =>
      rw [stated_succ, stated_succ, inUse_succ, ← ih]
      by_cases used : (s.pool n).pid = -1
      · simp [used]
      · cases state : (s.pool n).state with
        | idle => simp [used, Nat.add_right_comm]
        | busy => simp [used, Nat.add_assoc]

theorem stated_slots (s : World) : stated s .idle MAXCLIENT = idleAmong s (slots s.pool) := by
  rw [stated, idleAmong, slots, List.countP_filter]
  apply List.countP_congr
  intro i _
  simp [and_comm]

theorem stated_le (s : World) (state : SlotState) (n : Nat) : stated s state n ≤ n := by
  have le := List.countP_le_length
    (p := fun i => decide ((s.pool i).pid ≠ -1 ∧ (s.pool i).state = state)) (l := List.range n)
  rwa [List.length_range] at le

theorem lives_sublist (s : World) : (lives s).Sublist (slots s.pool) := List.filter_sublist

theorem idleAmong_lives_le (s : World) : idleAmong s (lives s) ≤ stated s .idle MAXCLIENT := by
  rw [stated_slots]
  exact (lives_sublist s).countP_le

/-- With no worker gone, those marked idle are there. -/
theorem idleAmong_lives (all : (lives s).length = (slots s.pool).length) :
    idleAmong s (lives s) = stated s .idle MAXCLIENT := by
  rw [stated_slots, (lives_sublist s).eq_of_length all]

/-! ## The phases of a pass -/

/-- `manage_workers` has looked at the slots below `i`. -/
structure Swept (s t : World) (i : Nat) : Prop where
  pid (j : Nat) : (t.pool j).pid =
    if j < i ∧ s.workers (s.pool j).pid = none then -1 else (s.pool j).pid
  state (j : Nat) : (t.pool j).state = (s.pool j).state
  workers : t.workers = s.workers
  forks : t.forks = s.forks

/-- No slot in use is without its worker, and the workers have not written. -/
structure Clean (s t : World) : Prop where
  alive : ∀ i ∈ slots t.pool, (t.workers (t.pool i).pid).isSome
  state (i : Nat) : (t.pool i).state = (s.pool i).state

/-- The loop that forks has stored the workers of `stored`, and called `fork` for those of
`called`. -/
structure Adding (s t : World) (stored called : List Nat) : Prop where
  few : stated s .idle MAXCLIENT < 5
  clean : Clean s t
  slots : (slots t.pool).Perm (stored ++ lives s)
  forks : ∃ fs, t.forks = s.forks ++ fs ∧ fs.map Fork.num = called
  idleNum : t.idleNum = stated s .idle MAXCLIENT + called.length
  busyNum : t.busyNum = stated s .busy MAXCLIENT
  half : stated s .idle MAXCLIENT + 2 * called.length ≤ 6
  room : inUse s.pool MAXCLIENT + called.length ≤ MAXCLIENT

/-- The loop that terminates has removed the first `j` workers. -/
structure Trimming (s t : World) (j : Nat) : Prop where
  many : 10 < stated s .idle MAXCLIENT
  clean : Clean s t
  slots : slots t.pool = (lives s).drop j
  forks : t.forks = s.forks
  idleNum : t.idleNum = stated s .idle MAXCLIENT
  inside : j ≤ stated s .idle MAXCLIENT - 10

/-- The end of a pass. -/
inductive Finished (s t : World) : Prop
  | grown (added : List Nat) (adding : Adding s t added added)
      (enough : 5 ≤ stated s .idle MAXCLIENT + 2 * added.length ∨
        inUse s.pool MAXCLIENT + added.length = MAXCLIENT)
  | shrunk (enough : 5 ≤ stated s .idle MAXCLIENT) (clean : Clean s t)
      (slots : slots t.pool = (lives s).drop (stated s .idle MAXCLIENT - 10))
      (forks : t.forks = s.forks)

/-- What holds in `t`, in a pass that begins in `s`. -/
def During (s t : World) : Prop :=
  match t.phase with
  | .check i =>
    i ≤ MAXCLIENT ∧ Swept s t i ∧ t.idleNum = stated s .idle i ∧ t.busyNum = stated s .busy i
  | .readBusy i =>
    i < MAXCLIENT ∧ (s.pool i).pid ≠ -1 ∧ Swept s t (i + 1) ∧
      t.idleNum = stated s .idle i ∧ t.busyNum = stated s .busy i
  | .readIdle i =>
    i < MAXCLIENT ∧ (s.pool i).pid ≠ -1 ∧ Swept s t (i + 1) ∧
      t.idleNum = stated s .idle i ∧ t.busyNum = stated s .busy (i + 1)
  | .add boot k =>
    boot = false ∧ ∃ added, Adding s t added added ∧
      (added.length = k ∨ added.length ≤ k ∧ t.idleNum + t.busyNum = MAXCLIENT)
  | .store boot k num pid =>
    boot = false ∧ ∃ added, Adding s t added (added ++ [num]) ∧ added.length = k ∧
      num < MAXCLIENT ∧ (t.pool num).pid = -1 ∧ pid ≠ -1 ∧ (t.workers pid).isSome
  | .trim j => Trimming s t j
  | .suspended => Finished s t
  | .exited => False

theorem Swept.congr (swept : Swept s t i) (pool : u.pool = t.pool)
    (workers : u.workers = t.workers) (forks : u.forks = t.forks) : Swept s u i where
  pid j := by rw [pool, swept.pid]
  state j := by rw [pool, swept.state]
  workers := workers.trans swept.workers
  forks := forks.trans swept.forks

/-- A slot that is free, or whose worker is there, is left as it is. -/
theorem Swept.skip (swept : Swept s t i)
    (kept : (s.pool i).pid = -1 ∨ (s.workers (s.pool i).pid).isSome) : Swept s t (i + 1) where
  pid j := by
    rw [swept.pid]
    by_cases own : j = i
    · subst own
      rcases kept with free | alive
      · simp [free]
      · simp [Option.isSome_iff_ne_none.mp alive]
    · simp only [Nat.lt_succ_iff_lt_or_eq, own, or_false]
  state := swept.state
  workers := swept.workers
  forks := swept.forks

/-- A slot whose worker is gone becomes free. -/
theorem Swept.free (swept : Swept s t i) (dead : s.workers (s.pool i).pid = none) :
    Swept s (setPid t i (-1)) (i + 1) where
  pid j := by
    by_cases own : j = i
    · subst own
      simp [setPid, dead]
    · simp only [setPid, Function.update_of_ne own, swept.pid, Nat.lt_succ_iff_lt_or_eq, own,
        or_false]
  state j := by
    by_cases own : j = i
    · subst own
      simp [setPid, swept.state]
    · simp only [setPid, Function.update_of_ne own, swept.state]
  workers := swept.workers
  forks := swept.forks

/-- The slot that is looked at is as it was. -/
theorem Swept.here (swept : Swept s t i) : (t.pool i).pid = (s.pool i).pid := by
  rw [swept.pid, if_neg fun both => Nat.lt_irrefl i both.1]

theorem Swept.slots_eq (swept : Swept s t MAXCLIENT) : slots t.pool = lives s := by
  rw [slots, lives, slots, List.filter_filter]
  apply List.filter_congr
  intro i mem
  rw [swept.pid]
  cases alive : s.workers (s.pool i).pid with
  | none => simp [List.mem_range.mp mem]
  | some w => simp

theorem Swept.clean (swept : Swept s t MAXCLIENT) : Clean s t where
  alive i mem := by
    have live : i ∈ lives s := swept.slots_eq ▸ mem
    have alive := (List.mem_filter.mp live).2
    have same : (t.pool i).pid = (s.pool i).pid := by
      rw [swept.pid, if_neg fun both => by simp [both.2] at alive]
    rwa [swept.workers, same]
  state := swept.state

/-- With too few workers, the loop that forks begins. -/
theorem Swept.adding (swept : Swept s t MAXCLIENT) (idle : t.idleNum = stated s .idle MAXCLIENT)
    (busy : t.busyNum = stated s .busy MAXCLIENT) (few : stated s .idle MAXCLIENT < 5) :
    Adding s t [] [] where
  few := few
  clean := swept.clean
  slots := by
    rw [swept.slots_eq]
    exact List.Perm.refl _
  forks := ⟨[], by rw [List.append_nil, swept.forks], rfl⟩
  idleNum := by
    rw [idle, List.length_nil]
    omega
  busyNum := busy
  half := by
    rw [List.length_nil]
    omega
  room := inUse_le

/-- With enough workers, either the loop that terminates begins, or the pass is over. -/
theorem during_enterTrim (clean : Clean s t) (slots : slots t.pool = lives s)
    (forks : t.forks = s.forks) (idleNum : t.idleNum = stated s .idle MAXCLIENT)
    (enough : 5 ≤ stated s .idle MAXCLIENT) : During s (enterTrim t) := by
  unfold enterTrim
  by_cases many : t.idleNum > MAXSEPARATE
  · rw [if_pos many]
    have many : (10 : Int) < stated s .idle MAXCLIENT := idleNum ▸ many
    exact {
      many := by omega
      clean := { clean with }
      slots := slots
      forks := forks
      idleNum := idleNum
      inside := Nat.zero_le _ }
  · rw [if_neg many]
    have few : ¬ (10 : Int) < stated s .idle MAXCLIENT := idleNum ▸ many
    refine .shrunk enough { clean with } ?_ forks
    rw [Nat.sub_eq_zero_of_le (by omega)]
    exact slots

/-- There is a free slot whenever `fork` is called. -/
theorem Adding.free {added : List Nat} (adding : Adding s t added added)
    (room : t.idleNum + t.busyNum ≠ MAXCLIENT) :
    findFree t.pool MAXCLIENT 0 < MAXCLIENT ∧
      (t.pool (findFree t.pool MAXCLIENT 0)).pid = -1 := by
  have sum := stated_add s MAXCLIENT
  have used : inUse t.pool MAXCLIENT = added.length + (lives s).length := by
    rw [← length_slots, adding.slots.length_eq, List.length_append]
  have fewer : (lives s).length ≤ inUse s.pool MAXCLIENT := by
    rw [← length_slots]
    exact (lives_sublist s).length_le
  have room : inUse s.pool MAXCLIENT + added.length ≠ MAXCLIENT := by
    have idle := adding.idleNum
    have busy := adding.busyNum
    omega
  have := adding.room
  obtain ⟨j, inside, free⟩ := exists_free t.pool MAXCLIENT (by omega)
  have found := findFree_spec t.pool MAXCLIENT 0 ⟨j, Nat.zero_le j, by omega, free⟩
  rwa [Nat.zero_add] at found

theorem Clean.fork {pid : Int} {w : Worker} (clean : Clean s t) (fresh : t.workers pid = none)
    (pool : u.pool = t.pool) (workers : u.workers = Function.update t.workers pid (some w)) :
    Clean s u where
  alive i mem := by
    rw [pool] at mem ⊢
    have alive := clean.alive i mem
    have other : (t.pool i).pid ≠ pid := by
      intro same
      rw [same, fresh] at alive
      exact absurd alive (by decide)
    rwa [workers, Function.update_of_ne other]
  state i := by rw [pool, clean.state]

theorem Clean.setPid {pid : Int} (clean : Clean s t)
    (alive : pid ≠ -1 → (t.workers pid).isSome) : Clean s (setPid t num pid) where
  alive i mem := by
    obtain ⟨inside, used⟩ := mem_slots.mp mem
    by_cases own : i = num
    · subst own
      simp only [Pool.setPid, Function.update_self] at used ⊢
      exact alive used
    · simp only [Pool.setPid, Function.update_of_ne own] at used ⊢
      exact clean.alive i (mem_slots.mpr ⟨inside, used⟩)
  state i := by
    by_cases own : i = num
    · subst own
      simp [Pool.setPid, clean.state]
    · simp only [Pool.setPid, Function.update_of_ne own, clean.state]

theorem Adding.fork {added : List Nat} {pid : Int} {w : Worker} {k : Nat} {field : Int}
    (adding : Adding s t added added)
    (more : k < MINSEPARATE - t.idleNum) (rounds : added.length = k)
    (room : t.idleNum + t.busyNum ≠ MAXCLIENT) (fresh : t.workers pid = none)
    (pool : u.pool = t.pool) (workers : u.workers = Function.update t.workers pid (some w))
    (forks : u.forks = t.forks ++ [⟨num, field⟩]) (idleNum : u.idleNum = t.idleNum + 1)
    (busyNum : u.busyNum = t.busyNum) : Adding s u added (added ++ [num]) := by
  have sum := stated_add s MAXCLIENT
  have idle := adding.idleNum
  have busy := adding.busyNum
  have below := adding.room
  have five : MINSEPARATE = 5 := rfl
  exact {
    few := adding.few
    clean := adding.clean.fork fresh pool workers
    slots := by rw [pool]; exact adding.slots
    forks := by
      obtain ⟨fs, before, nums⟩ := adding.forks
      refine ⟨fs ++ [⟨num, field⟩], ?_, ?_⟩
      · rw [forks, before, List.append_assoc]
      · rw [List.map_append, nums, List.map_singleton]
    idleNum := by
      rw [idleNum, idle, List.length_append, List.length_singleton]
      omega
    busyNum := busyNum.trans busy
    half := by
      rw [List.length_append, List.length_singleton]
      omega
    room := by
      rw [List.length_append, List.length_singleton]
      omega }

theorem Adding.store {added : List Nat} {pid : Int} (adding : Adding s t added (added ++ [num]))
    (inside : num < MAXCLIENT) (free : (t.pool num).pid = -1) (used : pid ≠ -1)
    (alive : (t.workers pid).isSome) :
    Adding s (setPid t num pid) (added ++ [num]) (added ++ [num]) :=
  { adding with
    clean := adding.clean.setPid fun _ => alive
    slots := by
      calc List.Perm (Pool.slots (setPid t num pid).pool) (num :: Pool.slots t.pool) :=
            slots_store inside free used
        List.Perm _ (num :: (added ++ lives s)) := adding.slots.cons num
        List.Perm _ (added ++ num :: lives s) := List.perm_middle.symm
        List.Perm _ (added ++ [num] ++ lives s) := by
            rw [List.append_assoc, List.singleton_append] }

theorem Trimming.remove {j : Nat} (trimming : Trimming s t j)
    (more : j < t.idleNum - MAXSEPARATE) : Trimming s (delOneWorker t) (j + 1) := by
  have inside : j + 1 ≤ stated s .idle MAXCLIENT - 10 := by
    have idle := trimming.idleNum
    have ten : MAXSEPARATE = 10 := rfl
    omega
  rcases delOneWorker_cases t with ⟨none, same⟩ | ⟨num, found, removed⟩
  · have all : Pool.slots t.pool = [] := List.head?_eq_none_iff.mp (findUsed_slots.symm.trans none)
    rw [same]
    refine { trimming with inside := inside, slots := ?_ }
    rw [← List.tail_drop, ← trimming.slots, all, List.tail_nil]
  · rw [removed]
    refine {
      many := trimming.many
      clean := Clean.setPid { trimming.clean with } fun used => absurd rfl used
      slots := ?_
      forks := trimming.forks
      idleNum := trimming.idleNum
      inside := inside }
    rw [← List.tail_drop, ← trimming.slots]
    exact slots_remove found rfl

/-! ## A step of the manager -/

theorem During.manage {pid : Int} (during : During s t)
    (managed : manage t (some pid) = some u) : During s u := by
  unfold During at during
  have sum := stated_add s MAXCLIENT
  cases manage_cases managed with
  | free i phase inside free =>
      rw [phase] at during
      obtain ⟨-, swept, idle, busy⟩ := during
      have free : (s.pool i).pid = -1 := swept.here.symm.trans free
      refine ⟨inside, (swept.skip (.inl free)).congr rfl rfl rfl, ?_, ?_⟩
      · rw [stated_free free]
        exact idle
      · rw [stated_free free]
        exact busy
  | dead i phase inside used dead =>
      rw [phase] at during
      obtain ⟨-, swept, idle, busy⟩ := during
      rw [swept.here] at used
      rw [swept.here, swept.workers] at dead
      exact ⟨inside, used, (swept.free dead).congr rfl rfl rfl, idle, busy⟩
  | alive i phase inside used alive =>
      rw [phase] at during
      obtain ⟨-, swept, idle, busy⟩ := during
      rw [swept.here] at used
      rw [swept.here, swept.workers] at alive
      exact ⟨inside, used, (swept.skip (.inr alive)).congr rfl rfl rfl, idle, busy⟩
  | few i phase all few =>
      rw [phase] at during
      obtain ⟨last, swept, idle, busy⟩ := during
      obtain rfl : i = MAXCLIENT := Nat.le_antisymm last all
      have few : (stated s .idle MAXCLIENT : Int) < 5 := idle ▸ few
      have adding := swept.adding idle busy (by omega)
      exact ⟨rfl, [], { adding with clean := { adding.clean with } }, .inl rfl⟩
  | enough i phase all enough =>
      rw [phase] at during
      obtain ⟨last, swept, idle, -⟩ := during
      obtain rfl : i = MAXCLIENT := Nat.le_antisymm last all
      have enough : (5 : Int) ≤ stated s .idle MAXCLIENT := idle ▸ enough
      exact during_enterTrim swept.clean swept.slots_eq swept.forks idle (by omega)
  | readBusy i phase =>
      rw [phase] at during
      obtain ⟨inside, used, swept, idle, busy⟩ := during
      refine ⟨inside, used, swept.congr rfl rfl rfl, idle, ?_⟩
      dsimp only
      rw [stated_used used, swept.state, busy]
  | readIdle i phase =>
      rw [phase] at during
      obtain ⟨inside, used, swept, idle, busy⟩ := during
      refine ⟨inside, swept.congr rfl rfl rfl, ?_, busy⟩
      dsimp only
      rw [stated_used used, swept.state, idle]
  | full boot k phase more full =>
      rw [phase] at during
      obtain ⟨boot, added, adding, rounds⟩ := during
      refine ⟨boot, added, { adding with clean := { adding.clean with } }, .inr ⟨?_, full⟩⟩
      rcases rounds with rounds | ⟨rounds, -⟩
      · exact rounds ▸ Nat.le_succ _
      · exact Nat.le_succ_of_le rounds
  | failed boot k phase more room forks => cases forks
  | fork boot k pid phase more room forks pos fresh =>
      rw [phase] at during
      obtain ⟨rfl, added, adding, rounds⟩ := during
      have rounds : added.length = k := rounds.resolve_right fun all => room all.2
      obtain ⟨inside, free⟩ := adding.free room
      refine ⟨rfl, added, adding.fork more rounds room fresh rfl rfl rfl rfl rfl, rounds,
        inside, free, by omega, ?_⟩
      dsimp only
      rw [Function.update_self, Option.isSome_some]
  | booted k phase enough =>
      rw [phase] at during
      exact absurd during.1 (by decide)
  | added k phase enough =>
      rw [phase] at during
      obtain ⟨-, added, adding, rounds⟩ := during
      have idle := adding.idleNum
      have busy := adding.busyNum
      have half := adding.half
      have few : ¬ t.idleNum > MAXSEPARATE := by
        have ten : MAXSEPARATE = 10 := rfl
        omega
      rw [enterTrim, if_neg few]
      refine .grown added { adding with clean := { adding.clean with } } ?_
      have five : MINSEPARATE = 5 := rfl
      omega
  | store boot k num pid phase =>
      rw [phase] at during
      obtain ⟨boot, added, adding, rounds, inside, free, used, alive⟩ := during
      have stored := adding.store inside free used alive
      refine ⟨boot, added ++ [num], { stored with clean := { stored.clean with } }, .inl ?_⟩
      rw [List.length_append, rounds, List.length_singleton]
  | trim j phase more =>
      rw [phase] at during
      have trimming : Trimming s t j := during
      have next := trimming.remove more
      exact { next with clean := { next.clean with } }
  | trimmed j phase enough =>
      rw [phase] at during
      have trimming : Trimming s t j := during
      have idle := trimming.idleNum
      have inside := trimming.inside
      have many := trimming.many
      have last : j = stated s .idle MAXCLIENT - 10 := by
        have ten : MAXSEPARATE = 10 := rfl
        omega
      exact .shrunk (by omega) { trimming.clean with } (last ▸ trimming.slots) trimming.forks

/-- How many steps are left, at most. -/
def rank (s : World) : Nat :=
  match s.phase with
  | .check i => 3 * (MAXCLIENT - i) + 100
  | .readBusy i => 3 * (MAXCLIENT - i) + 99
  | .readIdle i => 3 * (MAXCLIENT - i) + 98
  | .add _ k => 2 * (MINSEPARATE - s.idleNum - k).toNat + 40
  | .store _ k _ _ => 2 * (MINSEPARATE - s.idleNum - k).toNat + 41
  | .trim j => (s.idleNum - MAXSEPARATE - j).toNat + 1
  | .suspended | .exited => 0

theorem rank_enterTrim (few : t.idleNum ≤ 20) : rank (enterTrim t) < 40 := by
  unfold enterTrim rank
  have ten : MAXSEPARATE = 10 := rfl
  by_cases many : t.idleNum > MAXSEPARATE
  · simp only [if_pos many]
    omega
  · simp only [if_neg many]
    omega

theorem During.rank_lt {pid : Int} (during : During s t)
    (managed : Pool.manage t (some pid) = some u) : rank u < rank t := by
  unfold During at during
  cases manage_cases managed with
  | free i phase inside free | dead i phase inside used dead | alive i phase inside used alive =>
      simp only [rank, phase]
      omega
  | few i phase all few =>
      rw [phase] at during
      have idle := during.2.2.1
      have five : MINSEPARATE = 5 := rfl
      simp only [rank, phase]
      omega
  | enough i phase all enough =>
      rw [phase] at during
      obtain ⟨last, -, idle, -⟩ := during
      have below := stated_le s .idle i
      have twenty : MAXCLIENT = 20 := rfl
      have lower : rank (enterTrim t) < 40 := rank_enterTrim (by omega)
      rw [show rank t = 3 * (MAXCLIENT - i) + 100 by simp only [rank, phase]]
      omega
  | readBusy i phase | readIdle i phase =>
      rw [phase] at during
      have inside := during.1
      simp only [rank, phase]
      omega
  | full boot k phase more full =>
      rw [phase] at during
      have more : k < MINSEPARATE - t.idleNum := by
        rw [during.1] at more
        exact more
      simp only [rank, phase]
      omega
  | failed boot k phase more room forks => cases forks
  | fork boot k pid phase more room forks pos fresh =>
      rw [phase] at during
      have more : k < MINSEPARATE - t.idleNum := by
        rw [during.1] at more
        exact more
      simp only [rank, phase]
      omega
  | booted k phase enough =>
      simp only [rank, phase]
      omega
  | added k phase enough =>
      rw [phase] at during
      obtain ⟨-, added, adding, -⟩ := during
      have idle := adding.idleNum
      have half := adding.half
      have lower : rank (enterTrim t) < 40 := rank_enterTrim (by omega)
      rw [show rank t = 2 * (MINSEPARATE - t.idleNum - k).toNat + 40 by simp only [rank, phase]]
      omega
  | store boot k num pid phase =>
      simp only [rank, phase, setPid]
      omega
  | trim j phase more =>
      have same : (delOneWorker t).idleNum = t.idleNum := by
        rcases delOneWorker_cases t with ⟨-, same⟩ | ⟨num, -, removed⟩
        · rw [same]
        · rw [removed]
          rfl
      simp only [rank, phase, same]
      omega
  | trimmed j phase enough =>
      simp only [rank, phase]
      omega

/-- The manager can go on until it sleeps, as long as `fork` succeeds. -/
theorem During.advance {pid : Int} (during : During s t) (awake : t.phase ≠ .suspended)
    (pos : 0 < pid) (fresh : t.workers pid = none) : ∃ u, Pool.manage t (some pid) = some u := by
  have forks (boot : Bool) (i : Nat) : ∃ u, addOneWorker t boot i (some pid) = some u := by
    unfold addOneWorker
    have new : ¬ (pid ≤ 0 ∨ (t.workers pid).isSome) := by simp [fresh, pos]
    by_cases full : t.idleNum + t.busyNum = MAXCLIENT
    · exact ⟨_, if_pos full⟩
    · exact ⟨_, (if_neg full).trans (if_neg new)⟩
  unfold During at during
  unfold Pool.manage
  cases phase : t.phase with
  | suspended => exact absurd phase awake
  | exited =>
      rw [phase] at during
      exact during.elim
  | check i =>
      dsimp only
      split_ifs
      all_goals exact ⟨_, rfl⟩
  | readBusy i => exact ⟨_, rfl⟩
  | readIdle i => exact ⟨_, rfl⟩
  | add boot i =>
      cases boot with
      | true =>
          rw [phase] at during
          exact absurd during.1 (by decide)
      | false =>
          by_cases more : i < MINSEPARATE - t.idleNum
          · obtain ⟨u, added⟩ := forks false i
            exact ⟨u, (if_pos more).trans added⟩
          · exact ⟨_, if_neg more⟩
  | store boot i num pid => exact ⟨_, rfl⟩
  | trim j =>
      by_cases more : j < t.idleNum - MAXSEPARATE
      · exact ⟨_, if_pos more⟩
      · exact ⟨_, if_neg more⟩

/-- The manager creates no process but the one that `fork` returns. -/
theorem manage_workers {pid : Int} (managed : manage t forked = some u)
    (missing : t.workers pid = none) (other : forked ≠ some pid) : u.workers pid = none := by
  cases manage_cases managed with
  | fork boot i pid' phase more room forks pos fresh =>
      have other : pid ≠ pid' := by
        intro same
        exact other (forks.trans (by rw [same]))
      dsimp only
      rwa [Function.update_of_ne other]
  | trim j phase more =>
      rcases delOneWorker_cases t with ⟨-, same⟩ | ⟨num, -, removed⟩
      · rw [same]
        exact missing
      · rw [removed]
        exact missing
  | free | dead | alive | few | enough | readBusy | readIdle | full | failed | booted | added
  | store | trimmed => exact missing

/-! ## What a pass achieves -/

theorem newcomers_eq {fs : List Fork} (forks : t.forks = s.forks ++ fs) :
    newcomers s t = fs.map Fork.num := by rw [newcomers, forks, List.drop_left]

theorem Clean.lives_eq (clean : Clean s t) : lives t = slots t.pool :=
  List.filter_eq_self.mpr clean.alive

/-- The idle workers after a pass that forks. -/
theorem Adding.idlers {added : List Nat} (adding : Adding s t added added) :
    idlers s t = added.length + idleAmong s (lives s) := by
  obtain ⟨fs, forks, nums⟩ := adding.forks
  have new : newcomers s t = added := (newcomers_eq forks).trans nums
  have nodup : (added ++ lives s).Nodup := adding.slots.nodup_iff.mp nodup_slots
  have disjoint := List.disjoint_of_nodup_append nodup
  rw [Pool.idlers, adding.clean.lives_eq, adding.slots.countP_eq, List.countP_append, new]
  congr 1
  · apply List.countP_eq_length.mpr
    intro i mem
    simp [mem]
  · apply List.countP_congr
    intro i mem
    have old : i ∉ added := fun new => disjoint new mem
    simp [adding.clean.state, old]

/-- The idle workers after a pass that does not fork. -/
theorem Clean.idlers (clean : Clean s t) (forks : t.forks = s.forks) :
    idlers s t = idleAmong s (slots t.pool) := by
  have new : newcomers s t = [] := newcomers_eq (forks.trans (List.append_nil _).symm)
  rw [Pool.idlers, clean.lives_eq, idleAmong, new]
  apply List.countP_congr
  intro i mem
  simp [clean.state]

theorem Finished.fits_iff (finished : Finished s t) : Fits s t ↔ Sized s := by
  have sum := stated_add s MAXCLIENT
  have fewer := (lives_sublist s).length_le
  have marked := idleAmong_lives_le s
  have used : (Pool.slots s.pool).length = inUse s.pool MAXCLIENT := length_slots
  have low : MINSEPARATE = 5 := rfl
  have high : MAXSEPARATE = 10 := rfl
  have all : MAXCLIENT = 20 := rfl
  unfold Fits Sized
  dsimp only
  cases finished with
  | grown added adding enough =>
      have few := adding.few
      have half := adding.half
      have room := adding.room
      have size : (Pool.slots t.pool).length = added.length + (lives s).length := by
        rw [adding.slots.length_eq, List.length_append]
      rw [if_pos (by omega), adding.idlers, size]
      omega
  | shrunk enough clean slots forks =>
      have fits : idleAmong s ((lives s).drop (stated s .idle MAXCLIENT - 10)) ≤
          idleAmong s (lives s) := (List.drop_sublist _ _).countP_le
      rw [if_neg (by omega), clean.idlers forks, slots, List.length_drop]
      have room : (Pool.slots s.pool).length ≤ MAXCLIENT := length_slots_le
      constructor
      · intro ⟨either, most⟩
        refine ⟨?_, most⟩
        rcases either with least | full
        · exact least
        -- all slots are in use, and all workers are there
        · have every : (lives s).length = (Pool.slots s.pool).length := by omega
          have same := idleAmong_lives every
          have none : stated s .idle MAXCLIENT - 10 = 0 := by omega
          rw [none, List.drop_zero]
          omega
      · exact fun ⟨least, most⟩ => ⟨.inl least, most⟩

/-- The manager wakes up. -/
theorem During.wake (woken : wake s = some t) : During s t := by
  obtain ⟨-, rfl⟩ := wake_cases woken
  refine ⟨Nat.zero_le _, ?_, rfl, rfl⟩
  exact {
    pid j := by rw [if_neg fun both => Nat.not_lt_zero j both.1]
    state _ := rfl
    workers := rfl
    forks := rfl }

theorem During.run (forks : List Int) (during : During s t)
    (ran : run step t (forks.map fun pid => .manage (some pid)) = some u) : During s u := by
  induction forks generalizing t with
  | nil =>
      cases ran
      exact during
  | cons pid forks ih =>
      obtain ⟨v, first, rest⟩ := run_cons_eq_some.mp ran
      exact ih (during.manage first) rest

theorem Pass.finished {fork : Nat → Int} (pass : Pass s fork t) : Finished s t := by
  obtain ⟨n, ran, asleep⟩ := pass
  obtain ⟨u, woken, ran⟩ := run_cons_eq_some.mp ran
  have during : During s t := by
    apply (During.wake woken).run ((List.range n).map fork)
    rwa [List.map_map]
  unfold During at during
  rwa [asleep] at during

/-- Before the step `k` of a pass, the processes to come are not there. -/
structure Ready (s : World) (fork : Nat → Int) (k : Nat) (t : World) : Prop where
  during : During s t
  new : ∀ j, k ≤ j → t.workers (fork j) = none

theorem Ready.advance {fork : Nat → Int} {k : Nat} (fresh : Fresh s fork)
    (ready : Ready s fork k t) (awake : t.phase ≠ .suspended) :
    ∃ u, step t (.manage (some (fork k))) = some u ∧ Ready s fork (k + 1) u ∧
      rank u < rank t := by
  have next := ready.new k (Nat.le_refl k)
  obtain ⟨u, managed⟩ := ready.during.advance awake (fresh.pos k) next
  refine ⟨u, managed, ⟨ready.during.manage managed, ?_⟩, ready.during.rank_lt managed⟩
  intro j later
  apply manage_workers managed (ready.new j (Nat.le_of_succ_le later))
  intro same
  have := fresh.injective (Option.some.inj same)
  omega

/-- Every pass ends. -/
theorem pass_ends {fork : Nat → Int} (asleep : s.phase = .suspended) (fresh : Fresh s fork) :
    ∃ t, Pass s fork t := by
  have woken : wake s = some { s with phase := .check 0, idleNum := 0, busyNum := 0 } :=
    if_pos asleep
  have start : Ready s fork 0 { s with phase := .check 0, idleNum := 0, busyNum := 0 } :=
    ⟨During.wake woken, fun j _ => fresh.new j⟩
  obtain ⟨n, t, ran, -, asleep⟩ := run_ends (fun t => t.phase = .suspended) rank
    (fun k => Event.manage (some (fork k))) (fun ready => ready.advance fresh) start
  refine ⟨t, n, run_cons_eq_some.mpr ⟨_, woken, ?_⟩, asleep⟩
  rwa [List.range_eq_range']

/-- **Sizing.** Whatever the state at a wake-up, the pass ends, and it achieves the size exactly
when the state is one of those known. -/
theorem pass_sizes (s : World) (fork : Nat → Int) (asleep : s.phase = .suspended)
    (fresh : Fresh s fork) : (∃ t, Pass s fork t) ∧ ∀ t, Pass s fork t → (Fits s t ↔ Sized s) :=
  ⟨pass_ends asleep fresh, fun _ pass => pass.finished.fits_iff⟩

/-- The manager sleeps, and the first slots are in use, by workers with these states. -/
def sleeping (states : List SlotState) : World :=
  { init with
    pool := fun i => match states[i]? with
      | some state => ⟨i + 1, state⟩
      | none => init.pool i
    phase := .suspended
    workers := fun pid =>
      if 0 < pid ∧ pid ≤ states.length then some ⟨(pid - 1).toNat, .serving⟩ else none }

theorem fresh_sleeping (states : List SlotState) :
    Fresh (sleeping states) fun k => states.length + 1 + k where
  pos k := by omega
  new k := if_neg (by omega)
  injective i j same := by
    dsimp only at same
    omega

/-- Four idle workers: there is one more in the end. -/
theorem pass_sizes_four :
    (∃ t, Pass (sleeping (List.replicate 4 .idle)) (fun k => (4 : Nat) + 1 + k) t) ∧
      ∀ t, Pass (sleeping (List.replicate 4 .idle)) (fun k => (4 : Nat) + 1 + k) t →
        Fits (sleeping (List.replicate 4 .idle)) t := by
  have sizes := pass_sizes (sleeping (List.replicate 4 .idle)) (fun k => (4 : Nat) + 1 + k) rfl
    (fresh_sleeping (List.replicate 4 .idle))
  exact ⟨sizes.1, fun t pass => (sizes.2 t pass).mpr (by decide +kernel)⟩

/-- Five busy workers: there are no more than three idle ones in the end. -/
theorem pass_sizes_fails :
    ¬ ∀ (s : World) (fork : Nat → Int) (t : World), s.phase = .suspended → Fresh s fork →
      Pass s fork t → Fits s t := by
  intro fits
  have fresh := fresh_sleeping (List.replicate 5 .busy)
  obtain ⟨t, pass⟩ := pass_ends rfl fresh
  have sized := pass.finished.fits_iff.mp (fits _ _ t rfl fresh pass)
  exact absurd sized (by decide +kernel)

end Shang.Pool
