import Shang.Tbf.MtMytbf

/-!
# Nobody gets more than the rate

Every bucket keeps within its limits and pays out no more than it took in,
whatever the order of the sections, and a section on one bucket leaves the
others alone.
-/

namespace Shang.Tbf.MtMytbf

open Lib

variable {τ : Type} [DecidableEq τ] {s t : Sys τ} {e : Event τ} {es : List (Event τ)}
  {thread : τ} {b c n : Nat} {o : Obj} {r : Ret} {size : Int}

/-! ## Objects and books -/

omit [DecidableEq τ] in
theorem live_eq_some : s.live b = some o ↔ s.obj b = some o ∧ o.freed = false := by
  unfold Sys.live
  cases s.obj b with
  | none => simp
  | some p =>
      rw [Option.bind_some]
      cases freed : p.freed with
      | true =>
          rw [if_pos rfl]
          constructor
          · exact nofun
          · rintro ⟨same, alive⟩
            rw [← Option.some.inj same, freed] at alive
            cases alive
      | false =>
          rw [if_neg (by decide)]
          constructor
          · intro same
            rw [← Option.some.inj same]
            exact ⟨rfl, freed⟩
          · exact fun found => found.1

/-! ## Sections -/

/-- What a section does. -/
inductive Effect (s : Sys τ) : Event τ → Sys τ → Prop
  | noMemory (thread : τ) (cps burst : Int) :
    Effect s (.init thread cps burst none) (s.ret thread (.init none))
  | create (thread : τ) (cps burst : Int) (pos : Slot) :
    Effect s (.init thread cps burst (some pos))
      (s.create thread ⟨⟨cps, burst, 0⟩, pos, 0, 0, false⟩)
  | fetchInvalid (thread : τ) (b : Nat) (size : Int) (invalid : size ≤ 0) :
    Effect s (.fetchtoken thread b size) (s.ret thread (.fetch b size 0 (-EINVAL)))
  | fetch {t : Sys τ} (thread : τ) (b : Nat) (size : Int) (pos : 1 ≤ size)
    (eq : s.attempt thread b size = some t) : Effect s (.fetchtoken thread b size) t
  | wake {t : Sys τ} (thread : τ) (b : Nat) (size : Int)
    (waiting : s.calls thread = some (.waiting b size))
    (eq : s.attempt thread b size = some t) : Effect s (.wake thread) t
  | giveInvalid (thread : τ) (b : Nat) (size : Int) (invalid : size ≤ 0) :
    Effect s (.returntoken thread b size) (s.ret thread (.give b size (-EINVAL)))
  | give {t : Sys τ} (thread : τ) (b : Nat) (size : Int) (pos : 1 ≤ size)
    (eq : s.give thread b size = some t) : Effect s (.returntoken thread b size) t
  | destroy {t : Sys τ} (thread : τ) (b : Nat) (eq : s.unlist thread b = some t) :
    Effect s (.destroy thread b) t
  | free {t : Sys τ} (thread : τ) (b : Nat) (destroying : s.calls thread = some (.destroying b))
    (eq : s.free thread b = some t) : Effect s (.free thread) t
  | lockTable : Effect s .alrm { s.touch s.mutJobDestroyed with pass := some 0 }
  | pass (p : Option Nat) : Effect s .alrm { s with pass := p }
  | refill (i b : Nat) (me : Obj) (inside : i < MYTBF_MAX) (at_ : s.pass = some i)
    (listed : s.job ⟨i, inside⟩ = some b) (found : s.obj b = some me) :
    Effect s .alrm
      { ((s.touch me.mutDestroyed).setObj b { me with bucket := me.bucket.refill }).mark b with
        pass := some (i + 1) }
  | exit {t : Sys τ} (eq : s.moduleUnload = some t) : Effect s .exit t

theorem thrAlrm_effect (stepped : s.thrAlrm = some t) : Effect s .alrm t := by
  unfold Sys.thrAlrm at stepped
  split at stepped
  · rw [← Option.some.inj stepped]
    exact .lockTable
  · next i at_ =>
      split at stepped
      · next inside =>
          split at stepped
          · rw [← Option.some.inj stepped]
            exact .pass _
          · next b listed =>
              obtain ⟨me, alive, rfl⟩ := Option.map_eq_some_iff.mp stepped
              exact .refill i b me inside at_ listed (live_eq_some.mp alive).1
      · rw [← Option.some.inj stepped]
        exact .pass _

theorem effect_of_act (stepped : s.act e = some t) : Effect s e t := by
  cases e with
  | init thread cps burst mem =>
      simp only [Sys.act] at stepped
      split at stepped
      · cases stepped
      · split at stepped
        · rw [← Option.some.inj stepped]
          exact .noMemory thread cps burst
        · split at stepped
          · cases stepped
          · rw [← Option.some.inj stepped]
            exact .create thread cps burst _
  | fetchtoken thread b size =>
      simp only [Sys.act] at stepped
      split at stepped
      · cases stepped
      · split at stepped
        · next invalid =>
            rw [← Option.some.inj stepped]
            exact .fetchInvalid thread b size invalid
        · exact .fetch thread b size (by omega) stepped
  | wake thread =>
      simp only [Sys.act] at stepped
      split at stepped
      · next b size waiting => exact .wake thread b size waiting stepped
      · cases stepped
  | returntoken thread b size =>
      simp only [Sys.act] at stepped
      split at stepped
      · cases stepped
      · split at stepped
        · next invalid =>
            rw [← Option.some.inj stepped]
            exact .giveInvalid thread b size invalid
        · exact .give thread b size (by omega) stepped
  | destroy thread b =>
      simp only [Sys.act] at stepped
      split at stepped
      · cases stepped
      · exact .destroy thread b stepped
  | free thread =>
      simp only [Sys.act] at stepped
      split at stepped
      · next b destroying => exact .free thread b destroying stepped
      · cases stepped
  | alrm => exact thrAlrm_effect stepped
  | exit =>
      simp only [Sys.act] at stepped
      split at stepped
      · cases stepped
      · exact .exit stepped

/-- The sections of a running process. -/
theorem act_of_step (stepped : s.step e = some t) : s.exited = false ∧ s.act e = some t := by
  unfold Sys.step at stepped
  split at stepped
  · cases stepped
  · next running => exact ⟨Bool.eq_false_iff.mpr running, stepped⟩

theorem effect_of_step (stepped : s.step e = some t) : Effect s e t :=
  effect_of_act (act_of_step stepped).2

/-! ## Books -/

theorem books_ret : (s.ret thread r).books c =
    ⟨s.ticks c, (s.books c).fetched + r.took c, (s.books c).returned + r.gave c⟩ := by
  unfold Sys.ret Sys.books
  simp

omit [DecidableEq τ] in
theorem books_mark : (s.mark b).books c = if c = b then (s.books c).tick else s.books c := by
  unfold Sys.mark Sys.books
  split
  · next same =>
      subst same
      dsimp only
      rw [Function.update_self]
      rfl
  · next ne =>
      dsimp only
      rw [Function.update_of_ne ne]

/-- A thread in a call is in the one it just entered or in the one it was in. -/
theorem calls_of_enter {other : τ} {call call' : Call}
    (inside : (s.enter thread call).calls other = some call') :
    other = thread ∧ call = call' ∨ s.calls other = some call' := by
  rcases update_some_eq_some.mp inside with now | ⟨-, before⟩
  · exact .inl now
  · exact .inr before

/-- A thread that is still in a call is not the one that just returned. -/
theorem calls_of_update {calls : τ → Option Call} {other : τ} {call : Call}
    (inside : Function.update calls thread none other = some call) : calls other = some call :=
  (update_none_eq_some.mp inside).2

/-- The invariant: books and buckets agree, a number that is not taken has no
books, and calls and results are sound in themselves. -/
structure Conserves (s : Sys τ) : Prop where
  holds : ∀ b o, s.obj b = some o → Holds o.bucket (s.books b)
  fresh : ∀ b, s.born ≤ b → s.obj b = none ∧ s.books b = ⟨0, 0, 0⟩
  waits : ∀ thread b size, s.calls thread = some (.waiting b size) → 1 ≤ size
  fair : ∀ r ∈ s.returned, r.2.Fair

omit [DecidableEq τ] in
/-- Nothing changes but the locks, the table and who is in a call. -/
theorem Conserves.idle (inv : Conserves s) (obj : t.obj = s.obj) (born : t.born = s.born)
    (returned : t.returned = s.returned) (ticks : t.ticks = s.ticks)
    (waits : ∀ thread b size, t.calls thread = some (.waiting b size) → 1 ≤ size) :
    Conserves t := by
  have books : t.books = s.books := by
    funext c
    unfold Sys.books
    rw [returned, ticks]
  exact ⟨by rw [obj, books]; exact inv.holds, by rw [obj, books, born]; exact inv.fresh, waits,
    by rw [returned]; exact inv.fair⟩

/-- A call returns without tokens. -/
theorem Conserves.ret (inv : Conserves s) (thread : τ) (fair : r.Fair) (took : ∀ c, r.took c = 0)
    (gave : ∀ c, r.gave c = 0) : Conserves (s.ret thread r) := by
  have books : (s.ret thread r).books = s.books := by
    funext c
    rw [books_ret, took, gave, add_zero, add_zero]
    rfl
  refine ⟨by rw [books]; exact inv.holds, by rw [books]; exact inv.fresh, fun other b size call =>
    inv.waits other b size (calls_of_update call), fun q mem => ?_⟩
  rcases List.mem_append.mp mem with before | new
  · exact inv.fair q before
  · rw [List.mem_singleton.mp new]
    exact fair

omit [DecidableEq τ] in
/-- One bucket changes together with its books. -/
theorem Conserves.change (inv : Conserves s) (found : s.obj b = some o) (o' : Obj)
    (obj : t.obj = Function.update s.obj b (some o')) (born : t.born = s.born)
    (other : ∀ c, c ≠ b → t.books c = s.books c) (holds : Holds o'.bucket (t.books b))
    (waits : ∀ thread b size, t.calls thread = some (.waiting b size) → 1 ≤ size)
    (fair : ∀ r ∈ t.returned, r.2.Fair) : Conserves t where
  holds c p found' := by
    rw [obj] at found'
    by_cases same : c = b
    · subst same
      rw [Function.update_self] at found'
      rwa [← Option.some.inj found']
    · rw [Function.update_of_ne same] at found'
      rw [other c same]
      exact inv.holds c p found'
  fresh c unborn := by
    rw [born] at unborn
    have ne : c ≠ b := by
      rintro rfl
      exact nomatch found.symm.trans (inv.fresh c unborn).1
    rw [obj, Function.update_of_ne ne, other c ne]
    exact inv.fresh c unborn
  waits := waits
  fair := fair

theorem mem_ret_fair (inv : Conserves s) (fair : r.Fair) :
    ∀ q ∈ (s.ret thread r).returned, q.2.Fair := by
  intro q mem
  rcases List.mem_append.mp mem with before | new
  · exact inv.fair q before
  · rw [List.mem_singleton.mp new]
    exact fair

theorem took_of_ne {avail ret : Int} (ne : c ≠ b) : (Ret.fetch b size avail ret).took c = 0 :=
  if_neg fun cond => ne cond.1.symm

theorem gave_of_ne {ret : Int} (ne : c ≠ b) : (Ret.give b size ret).gave c = 0 :=
  if_neg fun cond => ne cond.1.symm

/-! ## One section -/

theorem Conserves.attempt (inv : Conserves s) (pos : 1 ≤ size)
    (stepped : s.attempt thread b size = some t) : Conserves t := by
  obtain ⟨me, alive, stepped⟩ := Option.map_eq_some_iff.mp stepped
  obtain ⟨found, -⟩ := live_eq_some.mp alive
  have holds := inv.holds b me found
  dsimp only at stepped
  split at stepped
  · rw [← stepped]
    refine inv.idle rfl rfl rfl rfl fun other c n call => ?_
    rcases calls_of_enter call with ⟨-, new⟩ | before
    · injection new with _ sizes
      rwa [← sizes]
    · exact inv.waits other c n before
  · next enough =>
      have low : 1 ≤ min me.bucket.token size := le_min (by omega) pos
      have left : min me.bucket.token size ≤ me.bucket.token := min_le_left _ _
      rw [← stepped]
      refine inv.change found { me with bucket := me.bucket.take _ } rfl rfl
        (fun c ne => ?_) ?_ (fun other c n call => inv.waits other c n (calls_of_update call))
        (mem_ret_fair (s := s) inv fun _ => ⟨low, min_le_right _ _, left⟩)
      · rw [books_ret, took_of_ne ne]
        simp only [Ret.gave, add_zero]
        rfl
      · rw [books_ret]
        have took : (Ret.fetch b size me.bucket.token (min me.bucket.token size)).took b =
            min me.bucket.token size := if_pos ⟨rfl, low⟩
        rw [took]
        simp only [Ret.gave, add_zero]
        exact holds.take (by omega) left

theorem Conserves.give (inv : Conserves s) (pos : 1 ≤ size)
    (stepped : s.give thread b size = some t) : Conserves t := by
  obtain ⟨me, alive, rfl⟩ := Option.map_eq_some_iff.mp stepped
  obtain ⟨found, -⟩ := live_eq_some.mp alive
  refine inv.change found { me with bucket := me.bucket.add size } rfl rfl
    (fun c ne => ?_) ?_ (fun other c n call => inv.waits other c n (calls_of_update call))
    (mem_ret_fair (s := s) inv trivial)
  · rw [books_ret, gave_of_ne ne]
    simp only [Ret.took, add_zero]
    rfl
  · rw [books_ret]
    have gave : (Ret.give b size size).gave b = size := if_pos ⟨rfl, pos⟩
    rw [gave]
    simp only [Ret.took, add_zero]
    exact (inv.holds b me found).give (by omega)

omit [DecidableEq τ] in
/-- A new object takes the next number. -/
theorem Conserves.born (inv : Conserves s) (me : Obj) (holds : Holds me.bucket ⟨0, 0, 0⟩)
    (obj : t.obj = Function.update s.obj s.born (some me)) (born : t.born = s.born + 1)
    (books : t.books = s.books)
    (waits : ∀ thread b size, t.calls thread = some (.waiting b size) → 1 ≤ size)
    (fair : ∀ r ∈ t.returned, r.2.Fair) : Conserves t where
  holds c p found := by
    rw [obj] at found
    by_cases same : c = s.born
    · subst same
      rw [Function.update_self] at found
      rw [← Option.some.inj found, books, (inv.fresh s.born (Nat.le_refl _)).2]
      exact holds
    · rw [Function.update_of_ne same] at found
      rw [books]
      exact inv.holds c p found
  fresh c unborn := by
    rw [born] at unborn
    rw [obj, books, Function.update_of_ne (by omega)]
    exact inv.fresh c (by omega)
  waits := waits
  fair := fair

theorem Conserves.create (inv : Conserves s) {me : Obj} (holds : Holds me.bucket ⟨0, 0, 0⟩) :
    Conserves (s.create thread me) := by
  have books : ∀ ptr, (s.ret thread (.init ptr)).books = s.books := by
    intro ptr
    funext c
    rw [books_ret]
    simp only [Ret.took, Ret.gave, add_zero]
    rfl
  unfold Sys.create
  dsimp only
  split
  · exact inv.born { me with mutDestroyed := _, condDestroyed := _, freed := true } holds rfl rfl
      (books none) (fun other c n call => inv.waits other c n (calls_of_update call))
      (mem_ret_fair (s := s) inv trivial)
  · next pos _ =>
      exact inv.born { me with pos := pos } holds rfl rfl (books (some s.born))
        (fun other c n call => inv.waits other c n (calls_of_update call))
        (mem_ret_fair (s := s) inv trivial)

omit [DecidableEq τ] in
theorem Conserves.unloadLoop {is : List Slot} (inv : Conserves s)
    (stepped : s.unloadLoop is = some t) : Conserves t := by
  induction is generalizing s with
  | nil =>
      obtain rfl := Option.some.inj stepped
      exact inv
  | cons i is ih =>
      unfold Sys.unloadLoop at stepped
      split at stepped
      · exact ih inv stepped
      · next b _ =>
          obtain ⟨me, alive, stepped⟩ := Option.bind_eq_some_iff.mp stepped
          obtain ⟨found, -⟩ := live_eq_some.mp alive
          refine ih ?_ stepped
          exact inv.change found { me with mutDestroyed := _, condDestroyed := _, freed := true }
            rfl rfl (fun _ _ => rfl) (inv.holds b me found) inv.waits inv.fair

theorem Conserves.step (inv : Conserves s) (rated : Rated s e) (stepped : s.step e = some t) :
    Conserves t := by
  cases effect_of_step stepped with
  | noMemory thread => exact inv.ret thread trivial (fun _ => rfl) fun _ => rfl
  | create => exact inv.create (holds_new rated.1 rated.2)
  | fetchInvalid thread b size invalid =>
      exact inv.ret thread (fun some => absurd invalid (by omega))
        (fun _ => if_neg fun paid => absurd paid.2 (by decide)) fun _ => rfl
  | fetch thread b size pos eq => exact inv.attempt pos eq
  | wake thread b size waiting eq => exact inv.attempt (inv.waits thread b size waiting) eq
  | giveInvalid thread =>
      exact inv.ret thread trivial (fun _ => rfl)
        fun _ => if_neg fun paid => absurd paid.2 (by decide)
  | give thread b size pos eq => exact inv.give pos eq
  | destroy thread b eq =>
      obtain ⟨me, -, rfl⟩ := Option.map_eq_some_iff.mp eq
      refine inv.idle rfl rfl rfl rfl fun other c n call => ?_
      rcases calls_of_enter call with ⟨-, new⟩ | before
      · cases new
      · exact inv.waits other c n before
  | free thread b destroying eq =>
      obtain ⟨me, alive, rfl⟩ := Option.map_eq_some_iff.mp eq
      obtain ⟨found, -⟩ := live_eq_some.mp alive
      have freed : Conserves ({ s.touch s.mutJobDestroyed with
          mutJobDestroyed := s.mutJobDestroyed + 1 }.setObj b { me with freed := true }) :=
        inv.change found { me with freed := true } rfl rfl (fun _ _ => rfl)
          (inv.holds b me found) inv.waits inv.fair
      exact freed.ret thread trivial (fun _ => rfl) fun _ => rfl
  | lockTable => exact inv.idle rfl rfl rfl rfl inv.waits
  | pass => exact inv.idle rfl rfl rfl rfl inv.waits
  | refill i b me inside at_ listed found =>
      refine inv.change found { me with bucket := me.bucket.refill } rfl rfl
        (fun c ne => ?_) ?_ inv.waits inv.fair
      · exact books_mark.trans (if_neg ne)
      · show Holds me.bucket.refill (Sys.books (Sys.mark (Sys.setObj _ b _) b) b)
        rw [books_mark, if_pos rfl]
        exact (inv.holds b me found).refill
  | exit eq =>
      obtain ⟨u, unloaded, rfl⟩ := Option.map_eq_some_iff.mp eq
      have touched : Conserves (s.touch s.mutJobDestroyed) :=
        inv.idle rfl rfl rfl rfl inv.waits
      exact (touched.unloadLoop unloaded).idle rfl rfl rfl rfl nofun

omit [DecidableEq τ] in
theorem start_conserves : Conserves (Sys.start : Sys τ) where
  holds _ _ found := nomatch found
  fresh _ _ := ⟨rfl, rfl⟩
  waits _ _ _ call := nomatch call
  fair _ mem := nomatch mem

theorem run_conserves (rated : Along Sys.step Rated Sys.start es)
    (ran : run Sys.step Sys.start es = some s) : Conserves s :=
  run_invariant Conserves.step start_conserves rated ran

/-! ## Other buckets -/

/-- The object and the books of `c` are as they were. -/
def Untouched (s t : Sys τ) (c : Nat) : Prop :=
  t.obj c = s.obj c ∧ t.books c = s.books c

theorem untouched_attempt (other : c ≠ b) (stepped : s.attempt thread b size = some t) :
    Untouched s t c := by
  obtain ⟨me, -, stepped⟩ := Option.map_eq_some_iff.mp stepped
  dsimp only at stepped
  split at stepped
  · rw [← stepped]
    exact ⟨rfl, rfl⟩
  · rw [← stepped]
    refine ⟨Function.update_of_ne other _ _, ?_⟩
    rw [books_ret, took_of_ne other]
    simp only [Ret.gave, add_zero]
    rfl

theorem untouched_ret (took : r.took c = 0) (gave : r.gave c = 0) :
    Untouched s (s.ret thread r) c := by
  refine ⟨rfl, ?_⟩
  rw [books_ret, took, gave, add_zero, add_zero]
  rfl

theorem untouched_create (other : c ≠ s.born) : Untouched s (s.create thread me) c := by
  unfold Sys.create
  dsimp only
  split
  · exact ⟨Function.update_of_ne other _ _, (untouched_ret rfl rfl).2⟩
  · exact ⟨Function.update_of_ne other _ _, (untouched_ret rfl rfl).2⟩

/-- A section leaves every bucket alone that it does not work on. -/
theorem step_untouched (stepped : s.step e = some t) (running : e ≠ .exit)
    (other : s.target e ≠ some c) : Untouched s t c := by
  have ne : ∀ {b}, s.target e = some b → c ≠ b := by
    rintro b target rfl
    exact other target
  cases effect_of_step stepped with
  | noMemory => exact untouched_ret rfl rfl
  | create => exact untouched_create (ne rfl)
  | fetchInvalid => exact untouched_ret (took_of_ne (ne rfl)) rfl
  | fetch thread b size pos eq => exact untouched_attempt (ne rfl) eq
  | wake thread b size waiting eq =>
      refine untouched_attempt (ne ?_) eq
      simp only [Sys.target, waiting, Option.map_some]
  | giveInvalid => exact untouched_ret rfl (gave_of_ne (ne rfl))
  | give thread b size pos eq =>
      obtain ⟨me, -, rfl⟩ := Option.map_eq_some_iff.mp eq
      refine ⟨Function.update_of_ne (ne rfl) _ _, ?_⟩
      exact (untouched_ret rfl (gave_of_ne (ne rfl))).2
  | destroy thread b eq =>
      obtain ⟨me, -, rfl⟩ := Option.map_eq_some_iff.mp eq
      exact ⟨rfl, rfl⟩
  | free thread b destroying eq =>
      obtain ⟨me, -, rfl⟩ := Option.map_eq_some_iff.mp eq
      have target : s.target (.free thread) = some b := by
        simp only [Sys.target, destroying, Option.map_some]
      exact ⟨Function.update_of_ne (ne target) _ _, (untouched_ret rfl rfl).2⟩
  | lockTable => exact ⟨rfl, rfl⟩
  | pass => exact ⟨rfl, rfl⟩
  | refill i b me inside at_ listed found =>
      have target : s.target .alrm = some b := by
        simp only [Sys.target, at_, Option.bind_some, dif_pos inside, listed]
      exact ⟨Function.update_of_ne (ne target) _ _, books_mark.trans (if_neg (ne target))⟩
  | exit => exact absurd rfl running

/-! ## The token bucket -/

/-- After any sections of any threads and of `thr_alrm`, every bucket is within
its limits, every fetch got some of what was there, the fetches from a bucket
are covered by its ticks and by what was returned to it, and the next section
leaves all other buckets alone. -/
theorem token_conservation (rated : Along Sys.step Rated Sys.start es)
    (ran : run Sys.step Sys.start es = some s) :
    (∀ b o, s.obj b = some o → 0 ≤ o.bucket.token ∧ o.bucket.token ≤ o.bucket.burst ∧
      (s.books b).fetched ≤ o.bucket.cps * (s.books b).ticks + (s.books b).returned) ∧
    (∀ r ∈ s.returned, r.2.Fair) ∧
    ∀ e t c, s.step e = some t → e ≠ .exit → s.target e ≠ some c → Untouched s t c := by
  have inv := run_conserves rated ran
  refine ⟨fun b o found => ?_, inv.fair, fun e t c stepped running other =>
    step_untouched stepped running other⟩
  have holds := inv.holds b o found
  have low := holds.low
  have bound := holds.bound
  unfold Books.income at bound
  exact ⟨low, holds.high, by omega⟩

/-- Two threads share a bucket: one waits for the tick, the other returns more
than there is room for. -/
theorem token_conservation_shared :
    ∃ s : Sys Bool, run Sys.step Sys.start [.init true 5 8 (some 3), .fetchtoken true 0 7,
      .alrm, .wake true, .alrm, .wake true, .returntoken false 0 9, .fetchtoken false 0 3] =
        some s ∧ (s.books 0).fetched = 8 ∧
      ∀ r ∈ s.returned, r.2.Fair := by
  have evaluated : (run Sys.step (Sys.start : Sys Bool) [.init true 5 8 (some 3),
      .fetchtoken true 0 7, .alrm, .wake true, .alrm, .wake true, .returntoken false 0 9,
      .fetchtoken false 0 3]).map (fun s => (s.books 0).fetched) = some 8 := by decide +kernel
  obtain ⟨s, ran, fetched⟩ := Option.map_eq_some_iff.mp evaluated
  exact ⟨s, ran, fetched, (token_conservation (by decide +kernel) ran).2.1⟩

end Shang.Tbf.MtMytbf
