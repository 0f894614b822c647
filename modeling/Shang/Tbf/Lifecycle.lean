import Shang.Tbf.Conservation
import Mathlib.Data.Fintype.Basic

/-!
# Mutexes and condition variables of the token buckets

`mytbf_destroy` destroys `mut_job`, the mutex of the table, where it should
destroy the mutex and the condition variable of the bucket it frees. As long as
no call of it gets that far, nothing is used after it was destroyed, and what is
freed was destroyed once: by the failure path of `mytbf_init` and by
`module_unload`. From the first such call on the program is in the wrong.
-/

namespace Shang.Tbf.MtMytbf

open Lib

variable {τ : Type} [DecidableEq τ] {s t : Sys τ} {e : Event τ} {es : List (Event τ)}
  {thread : τ} {b c : Nat} {o me : Obj} {size : Int} {i : Slot}

/-- The bucket was returned by `mytbf_init`, and `mytbf_destroy` was not called
for it. -/
def Listed (s : Sys τ) (b : Nat) : Prop :=
  ∃ i, s.job i = some b

instance : Decidable (Listed s b) :=
  inferInstanceAs (Decidable (∃ i, s.job i = some b))

def Call.waitsOn (b : Nat) : Call → Bool
  | .waiting c _ => c == b
  | .destroying _ => false

/-- Clients use a bucket only before it is destroyed, and destroy it when no
call on it is under way. -/
def Legal (s : Sys τ) : Event τ → Prop
  | .fetchtoken _ b _ => Listed s b
  | .returntoken _ b _ => Listed s b
  | .destroy _ b => Listed s b ∧ ∀ thread, ∀ call ∈ s.calls thread, call.waitsOn b = false
  | _ => True

instance [Fintype τ] : ∀ e, Decidable (Legal s e)
  | .init _ _ _ _ => isTrue trivial
  | .fetchtoken _ b _ => inferInstanceAs (Decidable (Listed s b))
  | .wake _ => isTrue trivial
  | .returntoken _ b _ => inferInstanceAs (Decidable (Listed s b))
  | .destroy _ b => inferInstanceAs (Decidable (Listed s b ∧ ∀ thread, ∀ call ∈ s.calls thread, _))
  | .free _ => isTrue trivial
  | .alrm => isTrue trivial
  | .exit => isTrue trivial

/-- The event is not the end of a call of `mytbf_destroy`. -/
def Keeping (e : Event τ) : Prop :=
  ∀ thread, e ≠ .free thread

/-- Nothing was locked, waited on or destroyed after it was destroyed, and the
mutex and the condition variable of a freed bucket were destroyed once each. -/
def Sound (s : Sys τ) : Prop :=
  s.misused = false ∧
    ∀ b o, s.obj b = some o → o.freed = true → o.mutDestroyed = 1 ∧ o.condDestroyed = 1

/-- The object is in use. -/
structure Whole (o : Obj) : Prop where
  alive : o.freed = false
  mutex : o.mutDestroyed = 0
  cond : o.condDestroyed = 0

/-- The table lists whole objects in their slots, a bucket that is being
destroyed is not listed, and a bucket that a thread waits on is. -/
structure Life (s : Sys τ) : Prop where
  listed : ∀ i b, s.job i = some b → ∃ o, s.obj b = some o ∧ Whole o ∧ o.pos = i
  leaving : ∀ thread b, s.calls thread = some (.destroying b) →
    (∃ o, s.obj b = some o ∧ Whole o) ∧ ¬ Listed s b
  alone : ∀ thread other b, s.calls thread = some (.destroying b) →
    s.calls other = some (.destroying b) → thread = other
  waiting : ∀ thread b size, s.calls thread = some (.waiting b size) → Listed s b
  unborn : ∀ b, s.born ≤ b → s.obj b = none

/-! ## Objects in their slots -/

omit [DecidableEq τ] in
theorem Life.slot (life : Life s) (at_ : s.job i = some b) (found : s.obj b = some o) :
    Whole o ∧ o.pos = i := by
  obtain ⟨p, found', whole, pos⟩ := life.listed i b at_
  rw [Option.some.inj (found.symm.trans found')]
  exact ⟨whole, pos⟩

/-- A section that creates, destroys and frees nothing. -/
structure Plain (s t : Sys τ) : Prop where
  job : t.job = s.job
  born : t.born = s.born
  mutJob : t.mutJobDestroyed = s.mutJobDestroyed
  exited : t.exited = s.exited
  calls : ∀ thread call, t.calls thread = some call → s.calls thread = some call ∨
    ∃ b size, call = .waiting b size ∧ Listed s b
  obj : ∀ b, ∃ f : Obj → Bucket, t.obj b = (s.obj b).map fun o => { o with bucket := f o }
  misused : s.misused = false → s.mutJobDestroyed = 0 → t.misused = false

namespace Plain

variable (plain : Plain s t)
include plain

omit [DecidableEq τ]

theorem listed : Listed t b ↔ Listed s b := by
  unfold Listed
  rw [plain.job]

/-- An object keeps all but its bucket. -/
theorem kept (found : s.obj b = some o) :
    ∃ o', t.obj b = some o' ∧ o'.freed = o.freed ∧ o'.mutDestroyed = o.mutDestroyed ∧
      o'.condDestroyed = o.condDestroyed ∧ o'.pos = o.pos := by
  obtain ⟨f, same⟩ := plain.obj b
  rw [found] at same
  exact ⟨_, same, rfl, rfl, rfl, rfl⟩

theorem kept_whole (found : s.obj b = some o) (whole : Whole o) :
    ∃ o', t.obj b = some o' ∧ Whole o' ∧ o'.pos = o.pos := by
  obtain ⟨o', found', alive, mutex, cond, pos⟩ := plain.kept found
  exact ⟨o', found', ⟨alive.trans whole.alive, mutex.trans whole.mutex, cond.trans whole.cond⟩, pos⟩

theorem left (inside : t.calls thread = some (.destroying b)) :
    s.calls thread = some (.destroying b) := by
  rcases plain.calls thread _ inside with before | ⟨c, size, other, -⟩
  · exact before
  · cases other

theorem life (life : Life s) : Life t where
  listed i b at_ := by
    rw [plain.job] at at_
    obtain ⟨o, found, whole, pos⟩ := life.listed i b at_
    obtain ⟨o', found', whole', pos'⟩ := plain.kept_whole found whole
    exact ⟨o', found', whole', pos'.trans pos⟩
  leaving thread b inside := by
    obtain ⟨⟨o, found, whole⟩, unlisted⟩ := life.leaving thread b (plain.left inside)
    obtain ⟨o', found', whole', -⟩ := plain.kept_whole found whole
    exact ⟨⟨o', found', whole'⟩, fun listed => unlisted (plain.listed.mp listed)⟩
  alone thread other b inside inside' :=
    life.alone thread other b (plain.left inside) (plain.left inside')
  waiting thread b size inside := by
    rcases plain.calls thread _ inside with before | ⟨c, n, same, listed⟩
    · exact plain.listed.mpr (life.waiting thread b size before)
    · injection same with same _
      rw [same]
      exact plain.listed.mpr listed
  unborn b unborn := by
    rw [plain.born] at unborn
    obtain ⟨f, same⟩ := plain.obj b
    rw [same, life.unborn b unborn]
    rfl

theorem sound (sound : Sound s) (table : s.mutJobDestroyed = 0) : Sound t := by
  refine ⟨plain.misused sound.1 table, fun b o' found' freed => ?_⟩
  obtain ⟨f, same⟩ := plain.obj b
  rw [same] at found'
  obtain ⟨o, found, rfl⟩ := Option.map_eq_some_iff.mp found'
  exact sound.2 b o found freed

end Plain

/-! ## The sections that change buckets only -/

omit [DecidableEq τ] in
theorem touch_misused (clean : s.misused = false) (n : Nat) (zero : n = 0) :
    (s.touch n).misused = false := by
  unfold Sys.touch
  rw [clean, zero]
  rfl

omit [DecidableEq τ] in
theorem obj_same (same : t.obj = s.obj) (b : Nat) :
    ∃ f : Obj → Bucket, t.obj b = (s.obj b).map fun o => { o with bucket := f o } := by
  refine ⟨fun o => o.bucket, ?_⟩
  rw [same]
  exact Option.map_id'.symm

omit [DecidableEq τ] in
theorem obj_update (found : s.obj b = some me) (bucket : Bucket)
    (obj : t.obj = Function.update s.obj b (some { me with bucket := bucket })) (c : Nat) :
    ∃ f : Obj → Bucket, t.obj c = (s.obj c).map fun o => { o with bucket := f o } := by
  by_cases same : c = b
  · refine ⟨fun _ => bucket, ?_⟩
    rw [obj, same, Function.update_self, found]
    rfl
  · refine ⟨fun o => o.bucket, ?_⟩
    rw [obj, Function.update_of_ne same]
    exact Option.map_id'.symm

theorem plain_attempt (life : Life s) (listed : Listed s b)
    (stepped : s.attempt thread b size = some t) : Plain s t := by
  obtain ⟨me, alive, stepped⟩ := Option.map_eq_some_iff.mp stepped
  obtain ⟨found, -⟩ := live_eq_some.mp alive
  obtain ⟨i, at_⟩ := listed
  obtain ⟨whole, -⟩ := life.slot at_ found
  dsimp only at stepped
  split at stepped
  · rw [← stepped]
    refine ⟨rfl, rfl, rfl, rfl, fun other call inside => ?_, obj_same rfl, fun clean _ => ?_⟩
    · rcases calls_of_enter inside with ⟨-, new⟩ | before
      · exact .inr ⟨b, size, new.symm, i, at_⟩
      · exact .inl before
    · exact touch_misused (touch_misused clean _ whole.mutex) _ whole.cond
  · rw [← stepped]
    exact ⟨rfl, rfl, rfl, rfl, fun other call inside => .inl (calls_of_update inside),
      obj_update found (me.bucket.take (min me.bucket.token size)) rfl,
      fun clean _ => touch_misused clean _ whole.mutex⟩

theorem plain_give (life : Life s) (listed : Listed s b)
    (stepped : s.give thread b size = some t) : Plain s t := by
  obtain ⟨me, alive, rfl⟩ := Option.map_eq_some_iff.mp stepped
  obtain ⟨found, -⟩ := live_eq_some.mp alive
  obtain ⟨i, at_⟩ := listed
  obtain ⟨whole, -⟩ := life.slot at_ found
  exact ⟨rfl, rfl, rfl, rfl, fun other call inside => .inl (calls_of_update inside),
    obj_update found (me.bucket.add size) rfl,
    fun clean _ => touch_misused clean _ whole.mutex⟩

omit [DecidableEq τ] in
theorem plain_idle (job : t.job = s.job) (born : t.born = s.born)
    (mutJob : t.mutJobDestroyed = s.mutJobDestroyed) (exited : t.exited = s.exited)
    (calls : t.calls = s.calls) (obj : t.obj = s.obj)
    (misused : s.misused = false → s.mutJobDestroyed = 0 → t.misused = false) : Plain s t :=
  ⟨job, born, mutJob, exited, fun thread call inside => .inl (by rwa [calls] at inside),
    obj_same obj, misused⟩

theorem plain_ret (r : Ret) : Plain s (s.ret thread r) :=
  ⟨rfl, rfl, rfl, rfl, fun _ _ inside => .inl (calls_of_update inside), obj_same rfl,
    fun clean _ => clean⟩

/-! ## The sections that create, destroy and free -/

theorem getFreePosUnlocked_none {job : Slot → Option Nat}
    (free : getFreePosUnlocked job = some i) : job i = none := by
  simpa using List.find?_some free

theorem Life.create (life : Life s) (whole : Whole me) : Life (s.create thread me) := by
  have older : ∀ c o, s.obj c = some o → c ≠ s.born := by
    rintro c o found rfl
    exact nomatch found.symm.trans (life.unborn s.born (Nat.le_refl _))
  have kept : ∀ (v : Obj) c o, s.obj c = some o →
      Function.update s.obj s.born (some v) c = some o := fun v c o found =>
    (Function.update_of_ne (older c o found) _ _).trans found
  have unborn : ∀ (v : Obj) c, s.born + 1 ≤ c → Function.update s.obj s.born (some v) c = none :=
    fun v c above => (Function.update_of_ne (by omega) _ _).trans (life.unborn c (by omega))
  unfold Sys.create
  dsimp only
  split
  · refine ⟨fun i b at_ => ?_, fun other b inside => ?_, fun first second b inside inside' =>
      life.alone first second b (calls_of_update inside) (calls_of_update inside'),
      fun other b size inside => life.waiting other b size (calls_of_update inside), unborn _⟩
    · obtain ⟨o, found, facts⟩ := life.listed i b at_
      exact ⟨o, kept _ b o found, facts⟩
    · obtain ⟨⟨o, found, facts⟩, unlisted⟩ := life.leaving other b (calls_of_update inside)
      exact ⟨⟨o, kept _ b o found, facts⟩, unlisted⟩
  · next pos free =>
      have empty := getFreePosUnlocked_none free
      have lists : ∀ b, (∃ i, Function.update s.job pos (some s.born) i = some b) →
          b = s.born ∨ Listed s b := by
        rintro b ⟨i, at_⟩
        rcases update_some_eq_some.mp at_ with ⟨-, new⟩ | ⟨-, before⟩
        · exact .inl new.symm
        · exact .inr ⟨i, before⟩
      refine ⟨fun i b at_ => ?_, fun other b inside => ?_, fun first second b inside inside' =>
        life.alone first second b (calls_of_update inside) (calls_of_update inside'),
        fun other b size inside => ?_, unborn _⟩
      · rcases update_some_eq_some.mp at_ with ⟨rfl, rfl⟩ | ⟨-, before⟩
        · exact ⟨_, Function.update_self _ _ _, ⟨whole.alive, whole.mutex, whole.cond⟩, rfl⟩
        · obtain ⟨o, found, facts⟩ := life.listed i b before
          exact ⟨o, kept _ b o found, facts⟩
      · obtain ⟨⟨o, found, facts⟩, unlisted⟩ := life.leaving other b (calls_of_update inside)
        refine ⟨⟨o, kept _ b o found, facts⟩, fun listed => ?_⟩
        rcases lists b listed with new | before
        · exact older b o found new
        · exact unlisted before
      · obtain ⟨i, at_⟩ := life.waiting other b size (calls_of_update inside)
        refine ⟨i, (Function.update_of_ne ?_ _ _).trans at_⟩
        rintro rfl
        cases empty.symm.trans at_

theorem Life.unlist (life : Life s) (listed : Listed s b)
    (unused : ∀ thread size, s.calls thread ≠ some (.waiting b size))
    (stepped : s.unlist thread b = some t) : Life t := by
  obtain ⟨me, alive, rfl⟩ := Option.map_eq_some_iff.mp stepped
  obtain ⟨found, -⟩ := live_eq_some.mp alive
  obtain ⟨i, at_⟩ := listed
  obtain ⟨whole, rfl⟩ := life.slot at_ found
  have before : ∀ {j c}, Function.update s.job me.pos none j = some c →
      j ≠ me.pos ∧ s.job j = some c := update_none_eq_some.mp
  have nobody : ∀ other, s.calls other ≠ some (.destroying b) := fun other inside =>
    (life.leaving other b inside).2 ⟨me.pos, at_⟩
  refine ⟨fun j c at' => life.listed j c (before at').2, fun other c inside => ?_,
    fun first second c inside inside' => ?_, fun other c size inside => ?_, life.unborn⟩
  · rcases calls_of_enter inside with ⟨-, new⟩ | earlier
    · injection new with new
      subst new
      refine ⟨⟨me, found, whole⟩, fun ⟨j, at'⟩ => ?_⟩
      obtain ⟨ne, listed⟩ := before at'
      exact ne (life.slot listed found).2.symm
    · obtain ⟨exists_, unlisted⟩ := life.leaving other c earlier
      exact ⟨exists_, fun ⟨j, at'⟩ => unlisted ⟨j, (before at').2⟩⟩
  · rcases calls_of_enter inside with ⟨first_, new⟩ | earlier
    · injection new with new
      subst new
      rcases calls_of_enter inside' with ⟨second_, -⟩ | earlier'
      · rw [first_, second_]
      · exact absurd earlier' (nobody second)
    · rcases calls_of_enter inside' with ⟨-, new⟩ | earlier'
      · injection new with new
        subst new
        exact absurd earlier (nobody first)
      · exact life.alone first second c earlier earlier'
  · rcases calls_of_enter inside with ⟨-, new⟩ | earlier
    · cases new
    · obtain ⟨j, at'⟩ := life.waiting other c size earlier
      refine ⟨j, (Function.update_of_ne ?_ _ _).trans at'⟩
      rintro rfl
      rw [Option.some.inj (at_.symm.trans at')] at unused
      exact unused other size earlier

theorem Life.free (life : Life s) (inside : s.calls thread = some (.destroying b))
    (stepped : s.free thread b = some t) : Life t := by
  obtain ⟨me, alive, rfl⟩ := Option.map_eq_some_iff.mp stepped
  obtain ⟨found, -⟩ := live_eq_some.mp alive
  obtain ⟨-, unlisted⟩ := life.leaving thread b inside
  have kept : ∀ c o, c ≠ b → s.obj c = some o →
      Function.update s.obj b (some { me with freed := true }) c = some o := fun c o ne found =>
    (Function.update_of_ne ne _ _).trans found
  refine ⟨fun i c at_ => ?_, fun other c inside' => ?_, fun first second c inside' inside'' =>
    life.alone first second c (calls_of_update inside') (calls_of_update inside''),
    fun other c size inside' => life.waiting other c size (calls_of_update inside'),
    fun c unborn => ?_⟩
  · obtain ⟨o, found', facts⟩ := life.listed i c at_
    refine ⟨o, kept c o ?_ found', facts⟩
    rintro rfl
    exact unlisted ⟨i, at_⟩
  · obtain ⟨⟨o, found', whole⟩, unlisted'⟩ := life.leaving other c (calls_of_update inside')
    refine ⟨⟨o, kept c o ?_ found', whole⟩, unlisted'⟩
    rintro rfl
    obtain ⟨ne, before⟩ := update_none_eq_some.mp inside'
    exact ne (life.alone other thread c before inside)
  · have none := life.unborn c unborn
    refine (Function.update_of_ne ?_ _ _).trans none
    rintro rfl
    cases none.symm.trans found

/-- What `Sound` says of a freed object. -/
def Obj.Done (o : Obj) : Prop :=
  o.freed = true → o.mutDestroyed = 1 ∧ o.condDestroyed = 1

omit [DecidableEq τ] in
theorem sound_update (sound : Sound s) (clean : t.misused = false) (done : o.Done)
    (obj : t.obj = Function.update s.obj b (some o)) : Sound t := by
  refine ⟨clean, fun c p found => ?_⟩
  rw [obj] at found
  rcases update_some_eq_some.mp found with ⟨-, rfl⟩ | ⟨-, before⟩
  · exact done
  · exact sound.2 c p before

theorem sound_create (thread : τ) (sound : Sound s) (table : s.mutJobDestroyed = 0)
    (whole : Whole me) :
    Sound (s.create thread me) ∧ (s.create thread me).mutJobDestroyed = 0 ∧
      (s.create thread me).exited = s.exited := by
  have clean := touch_misused sound.1 _ table
  unfold Sys.create
  dsimp only
  split
  · refine ⟨sound_update sound clean (fun _ => ?_) rfl, table, rfl⟩
    rw [whole.mutex, whole.cond]
    exact ⟨rfl, rfl⟩
  · refine ⟨sound_update sound clean (fun freed => ?_) rfl, table, rfl⟩
    exact absurd freed (by simp [whole.alive])

omit [DecidableEq τ] in
/-- `module_unload` destroys what the table lists, each object once. -/
theorem sound_unloadLoop {is : List Slot} (sound : Sound s) (table : s.mutJobDestroyed = 0)
    (listed : ∀ i b, s.job i = some b → ∃ o, s.obj b = some o ∧ Whole o ∧ o.pos = i)
    (stepped : s.unloadLoop is = some t) : Sound t ∧ t.mutJobDestroyed = 0 := by
  induction is generalizing s with
  | nil =>
      obtain rfl := Option.some.inj stepped
      exact ⟨sound, table⟩
  | cons i is ih =>
      unfold Sys.unloadLoop at stepped
      split at stepped
      · exact ih sound table listed stepped
      · next b at_ =>
          obtain ⟨me, alive, stepped⟩ := Option.bind_eq_some_iff.mp stepped
          obtain ⟨found, -⟩ := live_eq_some.mp alive
          obtain ⟨o, found', whole, pos⟩ := listed i b at_
          obtain rfl := Option.some.inj (found.symm.trans found')
          refine ih ?_ ?_ (fun j c at' => ?_) stepped
          · refine sound_update sound
              (touch_misused (touch_misused sound.1 _ whole.mutex) _ whole.cond) (fun _ => ?_) rfl
            rw [whole.mutex, whole.cond]
            exact ⟨rfl, rfl⟩
          · exact table
          · obtain ⟨ne, at'⟩ := update_none_eq_some.mp at'
            obtain ⟨p, other, facts, pos'⟩ := listed j c at'
            refine ⟨p, (Function.update_of_ne ?_ _ _).trans other, facts, pos'⟩
            intro same
            rw [same] at other
            rw [← Option.some.inj (found.symm.trans other)] at pos'
            exact ne (pos'.symm.trans pos)

/-- Some freed object still has its mutex. -/
def Leaked (s : Sys τ) : Prop :=
  ∃ b o, s.obj b = some o ∧ o.freed = true ∧ o.mutDestroyed = 0

omit [DecidableEq τ] in
theorem Leaked.not_sound (leaked : Leaked s) : ¬ Sound s := by
  obtain ⟨b, o, found, freed, zero⟩ := leaked
  intro sound
  have one := (sound.2 b o found freed).1
  omega

omit [DecidableEq τ] in
/-- Objects that are not freed may change. -/
theorem Leaked.update (leaked : Leaked s) (alive : ∀ o, s.obj b = some o → o.freed = false)
    (obj : t.obj = Function.update s.obj b (some me)) : Leaked t := by
  obtain ⟨c, o, found, freed, zero⟩ := leaked
  refine ⟨c, o, ?_, freed, zero⟩
  rw [obj, Function.update_of_ne ?_, found]
  rintro rfl
  exact nomatch freed.symm.trans (alive o found)

omit [DecidableEq τ] in
theorem Leaked.unloadLoop {is : List Slot} (leaked : Leaked s)
    (stepped : s.unloadLoop is = some t) : Leaked t := by
  induction is generalizing s with
  | nil =>
      obtain rfl := Option.some.inj stepped
      exact leaked
  | cons i is ih =>
      unfold Sys.unloadLoop at stepped
      split at stepped
      · exact ih leaked stepped
      · obtain ⟨me, alive, stepped⟩ := Option.bind_eq_some_iff.mp stepped
        obtain ⟨found, free⟩ := live_eq_some.mp alive
        refine ih (leaked.update (fun o found' => ?_) rfl) stepped
        rwa [← Option.some.inj (found.symm.trans found')]

/-! ## Runs -/

/-- What a section can do. -/
inductive Does (s t : Sys τ) : Event τ → Prop
  | plain {e : Event τ} (plain : Plain s t) : Does s t e
  | create {e : Event τ} (thread : τ) (me : Obj) (whole : Whole me)
    (eq : t = s.create thread me) : Does s t e
  | unlist {e : Event τ} (thread : τ) (b : Nat) (listed : Listed s b)
    (unused : ∀ other size, s.calls other ≠ some (.waiting b size))
    (eq : s.unlist thread b = some t) : Does s t e
  | free (thread : τ) (b : Nat) (inside : s.calls thread = some (.destroying b))
    (eq : s.free thread b = some t) : Does s t (.free thread)
  | exit {e : Event τ} (eq : s.moduleUnload = some t) : Does s t e

theorem does_of_effect (life : Life s) (legal : Legal s e) (effect : Effect s e t) :
    Does s t e := by
  cases effect with
  | noMemory => exact .plain (plain_ret _)
  | create thread => exact .create thread _ ⟨rfl, rfl, rfl⟩ rfl
  | fetchInvalid => exact .plain (plain_ret _)
  | fetch thread b size pos eq => exact .plain (plain_attempt life legal eq)
  | wake thread b size waiting eq =>
      exact .plain (plain_attempt life (life.waiting thread b size waiting) eq)
  | giveInvalid => exact .plain (plain_ret _)
  | give thread b size pos eq => exact .plain (plain_give life legal eq)
  | destroy thread b eq =>
      refine .unlist thread b legal.1 (fun other size inside => ?_) eq
      have elsewhere := legal.2 other (.waiting b size) inside
      simp [Call.waitsOn] at elsewhere
  | free thread b destroying eq => exact .free thread b destroying eq
  | lockTable =>
      exact .plain
        (plain_idle rfl rfl rfl rfl rfl rfl fun clean zero => touch_misused clean _ zero)
  | pass => exact .plain (plain_idle rfl rfl rfl rfl rfl rfl fun clean _ => clean)
  | refill i b me inside at_ listed found =>
      obtain ⟨whole, -⟩ := life.slot listed found
      exact .plain ⟨rfl, rfl, rfl, rfl, fun _ _ inside => .inl inside, obj_update found _ rfl,
        fun clean _ => touch_misused clean _ whole.mutex⟩
  | exit eq => exact .exit eq

omit [DecidableEq τ] in
theorem exited_of_unload (unloaded : s.moduleUnload = some t) : t.exited = true := by
  obtain ⟨u, -, rfl⟩ := Option.map_eq_some_iff.mp unloaded
  rfl

/-- The process has ended, or its table is in order. -/
def Ordered (s : Sys τ) : Prop :=
  s.exited = true ∨ Life s

theorem Ordered.does (ordered : Ordered s) (legal : Legal s e) (stepped : s.step e = some t) :
    s.exited = false ∧ Life s ∧ Does s t e := by
  obtain ⟨running, acted⟩ := act_of_step stepped
  rcases ordered with ended | life
  · cases ended.symm.trans running
  · exact ⟨running, life, does_of_effect life legal (effect_of_act acted)⟩

theorem Ordered.step (ordered : Ordered s) (legal : Legal s e) (stepped : s.step e = some t) :
    Ordered t := by
  obtain ⟨-, life, does⟩ := ordered.does legal stepped
  cases does with
  | plain plain => exact .inr (plain.life life)
  | create thread me whole eq =>
      rw [eq]
      exact .inr (life.create whole)
  | unlist thread b listed unused eq => exact .inr (life.unlist listed unused eq)
  | free thread b inside eq => exact .inr (life.free inside eq)
  | exit eq => exact .inl (exited_of_unload eq)

/-- All is well, and will be while no bucket is freed by `mytbf_destroy`. -/
structure Clean (s : Sys τ) : Prop where
  ordered : Ordered s
  sound : Sound s
  table : s.exited = false → s.mutJobDestroyed = 0

theorem Clean.step (clean : Clean s) (allowed : Legal s e ∧ Keeping e)
    (stepped : s.step e = some t) : Clean t := by
  obtain ⟨running, life, does⟩ := clean.ordered.does allowed.1 stepped
  have table := clean.table running
  suffices kept : Sound t ∧ (t.exited = false → t.mutJobDestroyed = 0) from
    ⟨clean.ordered.step allowed.1 stepped, kept.1, kept.2⟩
  cases does with
  | plain plain => exact ⟨plain.sound clean.sound table, fun _ => plain.mutJob.trans table⟩
  | create thread me whole eq =>
      rw [eq]
      obtain ⟨sound, table, -⟩ := sound_create thread clean.sound table whole
      exact ⟨sound, fun _ => table⟩
  | unlist thread b listed unused eq =>
      obtain ⟨me, -, rfl⟩ := Option.map_eq_some_iff.mp eq
      exact ⟨⟨touch_misused clean.sound.1 _ table, clean.sound.2⟩, fun _ => table⟩
  | free thread b inside eq => exact absurd rfl (allowed.2 thread)
  | exit eq =>
      refine ⟨?_, fun running => nomatch (exited_of_unload eq).symm.trans running⟩
      obtain ⟨u, unloaded, rfl⟩ := Option.map_eq_some_iff.mp eq
      have locked : Sound (s.touch s.mutJobDestroyed) :=
        ⟨touch_misused clean.sound.1 _ table, clean.sound.2⟩
      obtain ⟨sound, zero⟩ := sound_unloadLoop locked table life.listed unloaded
      exact ⟨touch_misused sound.1 _ zero, sound.2⟩

theorem Leaked.step (leaked : Leaked s) (ordered : Ordered s) (legal : Legal s e)
    (stepped : s.step e = some t) : Leaked t := by
  obtain ⟨running, life, does⟩ := ordered.does legal stepped
  have unborn := life.unborn s.born (Nat.le_refl _)
  cases does with
  | plain plain =>
      obtain ⟨b, o, found, freed, zero⟩ := leaked
      obtain ⟨o', found', freed', zero', -⟩ := plain.kept found
      exact ⟨b, o', found', freed'.trans freed, zero'.trans zero⟩
  | create thread me whole eq =>
      rw [eq]
      unfold Sys.create
      dsimp only
      split <;> exact leaked.update (fun o found => nomatch unborn.symm.trans found) rfl
  | unlist thread b listed unused eq =>
      obtain ⟨me, -, rfl⟩ := Option.map_eq_some_iff.mp eq
      exact leaked
  | free thread b inside eq =>
      obtain ⟨me, alive, rfl⟩ := Option.map_eq_some_iff.mp eq
      obtain ⟨found, free⟩ := live_eq_some.mp alive
      refine leaked.update (fun o found' => ?_) rfl
      rwa [← Option.some.inj (found.symm.trans found')]
  | exit eq =>
      obtain ⟨u, unloaded, rfl⟩ := Option.map_eq_some_iff.mp eq
      have unloaded : Leaked u := Leaked.unloadLoop (s := s.touch s.mutJobDestroyed) leaked unloaded
      exact unloaded

/-- `mytbf_destroy` frees a bucket whose mutex was not destroyed. -/
theorem leaked_of_free (ordered : Ordered s) (legal : Legal s (.free thread))
    (stepped : s.step (.free thread) = some t) : Leaked t := by
  obtain ⟨-, life, -⟩ := ordered.does legal stepped
  cases effect_of_step stepped with
  | free _ b destroying eq =>
      obtain ⟨me, alive, rfl⟩ := Option.map_eq_some_iff.mp eq
      obtain ⟨found, -⟩ := live_eq_some.mp alive
      obtain ⟨⟨o, found', whole⟩, -⟩ := life.leaving thread b destroying
      obtain rfl := Option.some.inj (found.symm.trans found')
      exact ⟨b, _, Function.update_self _ _ _, rfl, whole.mutex⟩

omit [DecidableEq τ] in
theorem start_clean : Clean (Sys.start : Sys τ) where
  ordered := .inr
    { listed := nofun
      leaving := nofun
      alone := nofun
      waiting := nofun
      unborn := fun _ _ => rfl }
  sound := ⟨rfl, nofun⟩
  table _ := rfl

/-- While clients keep to the rules, no mutex or condition variable is misused
and none is leaked just as long as no call of `mytbf_destroy` ends. -/
theorem lifecycle_iff (legal : Along Sys.step Legal Sys.start es)
    (ran : run Sys.step Sys.start es = some s) :
    Sound s ↔ ∀ thread, Event.free thread ∉ es := by
  constructor
  · intro sound thread mem
    obtain ⟨before, after, rfl⟩ := List.append_of_mem mem
    obtain ⟨u, ran, rest⟩ := run_append_eq_some.mp ran
    obtain ⟨v, freed, rest⟩ := run_cons_eq_some.mp rest
    obtain ⟨legal, legal'⟩ := along_append.mp legal
    obtain ⟨allowed, legal'⟩ := legal' u ran
    have ordered : Ordered u := run_invariant Ordered.step start_clean.ordered legal ran
    have leaked := leaked_of_free ordered allowed freed
    have last : Leaked s ∧ Ordered s :=
      run_invariant (I := fun s => Leaked s ∧ Ordered s)
        (fun both legal stepped => ⟨both.1.step both.2 legal stepped, both.2.step legal stepped⟩)
        ⟨leaked, ordered.step allowed freed⟩ (legal' v freed) rest
    exact last.1.not_sound sound
  · intro keeping
    have allowed := legal.and_forall (D := Keeping) fun e mem thread same => keeping thread (by
      rwa [← same])
    exact (run_invariant Clean.step start_clean allowed ran).sound

/-- Two threads use a bucket. -/
theorem lifecycle_iff_shared :
    ∃ s : Sys Bool, run Sys.step Sys.start [.init true 5 8 (some 3), .fetchtoken false 0 7,
      .alrm, .alrm, .wake false, .returntoken true 0 2] = some s ∧
      (Sound s ↔ ∀ thread, Event.free thread ∉ [.init true 5 8 (some 3), .fetchtoken false 0 7,
        .alrm, .alrm, .wake false, .returntoken true 0 2]) := by
  have defined : (run Sys.step (Sys.start : Sys Bool) [.init true 5 8 (some 3),
      .fetchtoken false 0 7, .alrm, .alrm, .wake false, .returntoken true 0 2]).isSome := by
    decide +kernel
  obtain ⟨s, ran⟩ := Option.isSome_iff_exists.mp defined
  exact ⟨s, ran, lifecycle_iff (by decide +kernel) ran⟩

/-- After one of two buckets is destroyed, its mutex has not been destroyed, and
the next tick locks the mutex of the table, which has. -/
theorem lifecycle_fails :
    ∃ es, ∃ s : Sys Unit, Along Sys.step Legal Sys.start es ∧ run Sys.step Sys.start es = some s ∧
      s.misused = true ∧ ¬ Sound s := by
  have evaluated : (run Sys.step (Sys.start : Sys Unit) [.init () 1 1 (some 0),
      .init () 1 1 (some 0), .destroy () 0, .free (), .alrm]).map Sys.misused = some true := by
    decide +kernel
  obtain ⟨s, ran, misused⟩ := Option.map_eq_some_iff.mp evaluated
  refine ⟨_, s, by decide +kernel, ran, misused, fun sound => ?_⟩
  cases sound.1.symm.trans misused

end Shang.Tbf.MtMytbf
