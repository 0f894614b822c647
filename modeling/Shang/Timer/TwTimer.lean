import Shang.Lib.Run
import Shang.Lib.DList
import Mathlib.Data.List.Perm.Subperm

/-!
# The timing wheel

`time_wheel` of `11-5.tw_timer`: sixty slots, each a doubly linked list of
timers, and a slot number that advances by one on every tick. The memory of the
timer objects is part of the modelled state, one function for each field; a
deleted timer keeps its fields until its address is allocated again, which is
what the read of `tmp->next` after `delete tmp` in `tick` relies on.

The wheel holds a timer's firing time in two numbers, `rotation` and
`time_slot`, relative to `cur_slot`. `due` is the same time as an absolute
number of ticks, and `Placed` the relation between the two. Counters are
unbounded.
-/

namespace Shang.Timer.TwTimer

open Shang.Lib Function

/-- The address of a timer; `NULL` is 0. -/
abbrev Ptr := Nat

/-- The number of slots of the wheel. -/
def N : Nat := 60

/-- The time between two ticks. -/
def TI : Int := 1

/-- `time_wheel`, with the fields of the `tw_timer` objects. -/
structure TimeWheel where
  slots : Nat → Ptr
  curSlot : Nat
  rotation : Ptr → Nat
  timeSlot : Ptr → Nat
  next : Ptr → Ptr
  prev : Ptr → Ptr

namespace TimeWheel

/-- The constructor `time_wheel()`, in a memory with arbitrary contents. -/
def init (rotation timeSlot : Ptr → Nat) (next prev : Ptr → Ptr) : TimeWheel :=
  ⟨fun _ => 0, 0, rotation, timeSlot, next, prev⟩

/-- `new tw_timer(rot, ts)`, allocated at `p`. -/
def new (s : TimeWheel) (p : Ptr) (rot ts : Nat) : TimeWheel :=
  { s with
    next := update s.next p 0
    prev := update s.prev p 0
    rotation := update s.rotation p rot
    timeSlot := update s.timeSlot p ts }

/-- The number of ticks that `add_timer` waits for a timeout. -/
def ticksOf (timeout : Int) : Nat := if timeout < TI then 1 else (timeout / TI).toNat

/-- `add_timer`, with the timer allocated at `p`, and the pointer it returns. -/
def addTimer (s : TimeWheel) (p : Ptr) (timeout : Int) : TimeWheel × Ptr :=
  if timeout < 0 then (s, 0)
  else
    let ticks := ticksOf timeout
    let rotation := ticks / N
    let ts := (s.curSlot + ticks % N) % N
    let s := s.new p rotation ts
    if s.slots ts = 0 then ({ s with slots := update s.slots ts p }, p)
    else
      let s := { s with next := update s.next p (s.slots ts) }
      let s := { s with prev := update s.prev (s.slots ts) p }
      ({ s with slots := update s.slots ts p }, p)

/-- `del_timer`. -/
def delTimer (s : TimeWheel) (timer : Ptr) : TimeWheel :=
  if timer = 0 then s
  else
    let ts := s.timeSlot timer
    if timer = s.slots ts then
      let s := { s with slots := update s.slots ts (s.next (s.slots ts)) }
      { s with prev := if s.slots ts ≠ 0 then update s.prev (s.slots ts) 0 else s.prev }
    else
      let s := { s with next := update s.next (s.prev timer) (s.next timer) }
      { s with
        prev :=
          if s.next timer ≠ 0 then update s.prev (s.next timer) (s.prev timer) else s.prev }

/-- The loop of `tick`, with the timers whose callbacks ran. -/
def tickLoop : Nat → TimeWheel → Ptr → Option (TimeWheel × List Ptr)
  | 0, _, _ => none
  | fuel + 1, s, tmp =>
      if tmp = 0 then some (s, [])
      else if s.rotation tmp > 0 then
        let s := { s with rotation := update s.rotation tmp (s.rotation tmp - 1) }
        tickLoop fuel s (s.next tmp)
      else if tmp = s.slots s.curSlot then
        let s := { s with slots := update s.slots s.curSlot (s.next tmp) }
        let s := { s with
          prev := if s.next tmp ≠ 0 then update s.prev (s.slots s.curSlot) 0 else s.prev }
        (tickLoop fuel s (s.slots s.curSlot)).map fun (s, fired) => (s, tmp :: fired)
      else
        let s := { s with next := update s.next (s.prev tmp) (s.next tmp) }
        let s := { s with
          prev := if s.next tmp ≠ 0 then update s.prev (s.next tmp) (s.prev tmp) else s.prev }
        (tickLoop fuel s (s.next tmp)).map fun (s, fired) => (s, tmp :: fired)

/-- `tick`. -/
def tick (fuel : Nat) (s : TimeWheel) : Option (TimeWheel × List Ptr) :=
  (tickLoop fuel s (s.slots s.curSlot)).map fun (s, fired) =>
    ({ s with curSlot := (s.curSlot + 1) % N }, fired)

/-- `adjust_timer`. -/
def adjustTimer (s : TimeWheel) (timer : Ptr) : TimeWheel :=
  if timer = 0 then s
  else { s with rotation := update s.rotation timer (s.rotation timer + 1) }

/-! ## The slots as lists -/

/-- The slots hold the timers of `lists`, in list order. -/
structure Rep (s : TimeWheel) (lists : Nat → List Ptr) : Prop where
  seg : ∀ k, Seg s.next s.prev 0 (lists k) 0
  slot : ∀ k, s.slots k = (lists k).headD 0
  nodup : ∀ k, (lists k).Nodup
  nonnull : ∀ k, 0 ∉ lists k
  own : ∀ k, ∀ p ∈ lists k, s.timeSlot p = k

variable {s t : TimeWheel} {lists : Nat → List Ptr} {k : Nat} {p q x : Ptr}
  {l front rest : List Ptr} {fuel : Nat}

theorem init_rep (rotation timeSlot : Ptr → Nat) (next prev : Ptr → Ptr) :
    (init rotation timeSlot next prev).Rep fun _ => [] where
  seg _ := trivial
  slot _ := rfl
  nodup _ := List.nodup_nil
  nonnull _ := List.not_mem_nil
  own _ _ mem := absurd mem List.not_mem_nil

theorem Rep.ne_zero (rep : s.Rep lists) (mem : p ∈ lists k) : p ≠ 0 :=
  fun same => rep.nonnull k (same ▸ mem)

/-- A timer is on the list of one slot only. -/
theorem Rep.apart (rep : s.Rep lists) {j : Nat} (other : j ≠ k) (mem : p ∈ lists k) :
    p ∉ lists j := fun mem' => other ((rep.own j p mem').symm.trans (rep.own k p mem))

/-- An operation on one slot that leaves the timers of the other slots alone. -/
theorem Rep.change (rep : s.Rep lists) (seg : Seg t.next t.prev 0 l 0)
    (slots : t.slots = update s.slots k (l.headD 0)) (nodup : l.Nodup) (nonnull : 0 ∉ l)
    (own : ∀ p ∈ l, t.timeSlot p = k)
    (frame : ∀ j, j ≠ k → ∀ p ∈ lists j,
      t.next p = s.next p ∧ t.prev p = s.prev p ∧ t.timeSlot p = s.timeSlot p) :
    t.Rep (update lists k l) where
  seg := (forall_update_iff lists fun _ l => Seg t.next t.prev 0 l 0).mpr
    ⟨seg, fun j other => (rep.seg j).congr fun p mem =>
      ⟨(frame j other p mem).1, (frame j other p mem).2.1⟩⟩
  slot := (forall_update_iff lists fun j l => t.slots j = l.headD 0).mpr
    ⟨by rw [slots, update_self], fun j other => by rw [slots, update_of_ne other, rep.slot j]⟩
  nodup := (forall_update_iff lists fun _ l => l.Nodup).mpr ⟨nodup, fun j _ => rep.nodup j⟩
  nonnull := (forall_update_iff lists fun _ l => 0 ∉ l).mpr ⟨nonnull, fun j _ => rep.nonnull j⟩
  own := (forall_update_iff lists fun j l => ∀ p ∈ l, t.timeSlot p = j).mpr
    ⟨own, fun j other p mem => (frame j other p mem).2.2.trans (rep.own j p mem)⟩

/-- Unlinking a timer from the list of its slot, in the assignments that
`del_timer` and `tick` make. -/
theorem Rep.unlink (rep : s.Rep lists) (here : lists k = front ++ x :: rest)
    (slots : t.slots = update s.slots k ((front ++ rest).headD 0))
    (first : front = [] → t.next = s.next)
    (forth : front ≠ [] → t.next = update s.next (front.getLastD 0) (rest.headD 0))
    (back : t.prev = if rest.headD 0 ≠ 0 then update s.prev (rest.headD 0) (front.getLastD 0)
      else s.prev)
    (timeSlot : t.timeSlot = s.timeSlot) :
    t.Rep (update lists k (front ++ rest)) := by
  have seg := rep.seg k
  have nodup := rep.nodup k
  have sublist : (front ++ rest).Sublist (lists k) := by
    rw [here]
    exact .append_left (List.sublist_cons_self x rest) front
  have last : rest = [] → t.prev = s.prev := by
    rintro rfl
    rw [back, if_neg (by simp)]
  have headMem : rest ≠ [] → rest.headD 0 ∈ lists k := by
    intro nonempty
    obtain ⟨q, rest, rfl⟩ := List.exists_cons_of_ne_nil nonempty
    rw [here]
    simp
  have back' : rest ≠ [] → t.prev = update s.prev (rest.headD 0) (front.getLastD 0) := by
    intro nonempty
    rw [back, if_pos (rep.ne_zero (headMem nonempty))]
  rw [here] at seg nodup
  refine rep.change (seg.unlink nodup first forth last back') slots ((rep.nodup k).sublist sublist)
    (fun mem => rep.nonnull k (sublist.subset mem))
    (fun p mem => by rw [timeSlot]; exact rep.own k p (sublist.subset mem)) fun j other p mem => ?_
  have off : p ∉ lists k := rep.apart other.symm mem
  refine ⟨?_, ?_, by rw [timeSlot]⟩
  · by_cases empty : front = []
    · rw [first empty]
    · have lastMem : front.getLastD 0 ∈ lists k := by
        obtain ⟨q, front, rfl⟩ := List.exists_cons_of_ne_nil empty
        rw [here, List.getLastD_cons]
        exact List.mem_append_left _ List.getLastD_mem_cons
      rw [forth empty, update_of_ne (ne_of_mem_of_not_mem lastMem off).symm]
  · by_cases empty : rest = []
    · rw [last empty]
    · rw [back' empty, update_of_ne (ne_of_mem_of_not_mem (headMem empty) off).symm]

/-- A timer on a list, between its neighbours. -/
theorem Rep.neighbours (rep : s.Rep lists) (here : lists k = front ++ x :: rest) :
    x ∈ lists k ∧ s.next x = rest.headD 0 ∧ s.prev x = front.getLastD 0 ∧
      (front ++ x :: rest).Nodup := by
  have seg := rep.seg k
  have nodup := rep.nodup k
  rw [here] at seg nodup
  exact ⟨by simp [here], (seg_append.mp seg).2.2.1, (seg_append.mp seg).2.1, nodup⟩

/-! ## Operations on the lists -/

/-- `add_timer` of a nonnegative timeout puts the new timer at the front of its slot. -/
theorem addTimer_spec (rep : s.Rep lists) (fresh : ∀ k, p ∉ lists k) (nonnull : p ≠ 0)
    {timeout : Int} (nonneg : 0 ≤ timeout) :
    ∃ t ts, s.addTimer p timeout = (t, p) ∧ ts = (s.curSlot + ticksOf timeout) % N ∧
      t.Rep (update lists ts (p :: lists ts)) ∧ t.curSlot = s.curSlot ∧
      t.rotation = update s.rotation p (ticksOf timeout / N) ∧
      t.timeSlot = update s.timeSlot p ts := by
  have wrap : (s.curSlot + ticksOf timeout % N) % N = (s.curSlot + ticksOf timeout) % N := by
    rw [Nat.add_mod_mod]
  have accepted : ¬ timeout < 0 := Int.not_lt.mpr nonneg
  rw [addTimer, if_neg accepted]
  simp only [wrap, new]
  generalize (s.curSlot + ticksOf timeout) % N = ts
  have nodup : (p :: lists ts).Nodup := List.nodup_cons.mpr ⟨fresh ts, rep.nodup ts⟩
  have nonnull' : 0 ∉ p :: lists ts := by
    rw [List.mem_cons]
    exact not_or.mpr ⟨nonnull.symm, rep.nonnull ts⟩
  have own : ∀ q ∈ p :: lists ts, update s.timeSlot p ts q = ts := by
    intro q mem
    rcases List.mem_cons.mp mem with rfl | mem
    · rw [update_self]
    · rw [update_of_ne (ne_of_mem_of_not_mem mem (fresh ts)), rep.own ts q mem]
  have off : ∀ j, ∀ q ∈ lists j, q ≠ p := fun j q mem => ne_of_mem_of_not_mem mem (fresh j)
  have head : s.slots ts = (lists ts).headD 0 := rep.slot ts
  by_cases empty : s.slots ts = 0
  · have isNil : lists ts = [] := by
      rcases slot : lists ts with _ | ⟨q, l⟩
      · rfl
      · rw [slot, List.headD_cons] at head
        exact absurd (head.symm.trans empty) (rep.ne_zero (slot ▸ List.mem_cons_self))
    refine ⟨_, ts, if_pos empty, rfl, ?_, rfl, rfl, rfl⟩
    rw [isNil] at nodup nonnull' own ⊢
    refine rep.change ⟨update_self _ _ _, update_self _ _ _, trivial⟩ rfl nodup nonnull' own ?_
    intro j other q mem
    simp only [update_of_ne (off j q mem), and_self]
  · obtain ⟨q, l, slot⟩ : ∃ q l, lists ts = q :: l := by
      apply List.exists_cons_of_ne_nil
      intro isNil
      rw [isNil] at head
      exact empty head
    have isHead : s.slots ts = q := by rw [head, slot, List.headD_cons]
    have seg := rep.seg ts
    refine ⟨_, ts, if_neg empty, rfl, ?_, rfl, rfl, rfl⟩
    rw [slot] at nodup nonnull' own seg ⊢
    refine rep.change ?_ rfl nodup nonnull' own ?_
    · have new : Seg (update s.next p 0) (update s.prev p 0) 0 (q :: l) 0 :=
        (seg.setNext_off (List.nodup_cons.mp nodup).1).setPrev_off (List.nodup_cons.mp nodup).1
      simpa only [isHead] using new.insert_first (List.nodup_cons.mp nodup).2
        (List.nodup_cons.mp nodup).1 (update_self _ _ _)
    · intro j other r mem
      have apart : r ≠ q := fun same =>
        rep.apart other (slot ▸ List.mem_cons_self : q ∈ lists ts) (same ▸ mem)
      simp only [isHead, update_of_ne (off j r mem), update_of_ne apart, and_self]

/-- `del_timer` takes the timer out of the list of its slot. -/
theorem delTimer_spec (rep : s.Rep lists) (here : lists k = front ++ x :: rest) :
    (s.delTimer x).Rep (update lists k (front ++ rest)) ∧
      (s.delTimer x).curSlot = s.curSlot ∧ (s.delTimer x).rotation = s.rotation ∧
      (s.delTimer x).timeSlot = s.timeSlot := by
  obtain ⟨mem, next, prev, nodup⟩ := rep.neighbours here
  have slot : s.slots k = (front ++ x :: rest).headD 0 := by rw [rep.slot, here]
  rw [delTimer, if_neg (rep.ne_zero mem)]
  simp only [rep.own k x mem]
  rcases front with _ | ⟨q, front⟩
  · have isHead : x = s.slots k := slot.symm
    rw [if_pos isHead, ← isHead]
    simp only [next, update_self]
    refine ⟨?_, trivial, trivial, trivial⟩
    exact rep.unlink here rfl (fun _ => rfl) (fun h => absurd rfl h) rfl rfl
  · have notHead : x ≠ s.slots k := by
      intro same
      rw [slot] at same
      exact (List.nodup_cons.mp nodup).1 (same ▸ by simp)
    have keep : update s.slots k (s.slots k) = s.slots := update_eq_self k s.slots
    rw [if_neg notHead]
    have lastNe : s.prev x ≠ x := by
      intro same
      rw [prev, List.getLastD_cons] at same
      have : x ∈ q :: front := same ▸ List.getLastD_mem_cons
      exact List.disjoint_left.mp (List.nodup_append'.mp nodup).2.2 this List.mem_cons_self
    simp only [update_of_ne lastNe.symm]
    refine ⟨rep.unlink here ?_ (fun h => absurd h (by simp)) (fun _ => ?_) ?_ rfl, trivial,
      trivial, trivial⟩
    · show s.slots = _
      rw [List.cons_append, List.headD_cons]
      exact (slot ▸ keep).symm
    · show update s.next (s.prev x) (s.next x) = _
      rw [next, prev]
    · simp only [next, prev]

/-- The timers that a tick fires from a list. -/
def expired (s : TimeWheel) (l : List Ptr) : List Ptr := l.filter (s.rotation · = 0)

/-- The timers that a tick leaves on a list. -/
def kept (s : TimeWheel) (l : List Ptr) : List Ptr := l.filter (0 < s.rotation ·)

theorem expired_cons_of_pos (turning : 0 < s.rotation p) :
    s.expired (p :: l) = s.expired l := by
  simp [expired, Nat.ne_of_gt turning]

theorem expired_cons_of_zero (out : s.rotation p = 0) :
    s.expired (p :: l) = p :: s.expired l := by
  simp [expired, out]

theorem kept_cons_of_pos (turning : 0 < s.rotation p) : s.kept (p :: l) = p :: s.kept l := by
  simp [kept, turning]

theorem kept_cons_of_zero (out : s.rotation p = 0) : s.kept (p :: l) = s.kept l := by
  simp [kept, out]

theorem expired_congr (same : ∀ p ∈ l, t.rotation p = s.rotation p) :
    t.expired l = s.expired l := List.filter_congr fun p mem => by rw [same p mem]

theorem kept_congr (same : ∀ p ∈ l, t.rotation p = s.rotation p) :
    t.kept l = s.kept l := List.filter_congr fun p mem => by rw [same p mem]

/-- What the loop of `tick` does with a timer without a rotation left. -/
theorem tickLoop_unlink (fuel : Nat) (rep : s.Rep lists)
    (here : lists s.curSlot = front ++ x :: rest) (out : s.rotation x = 0) :
    ∃ u : TimeWheel, u.Rep (update lists s.curSlot (front ++ rest)) ∧ u.curSlot = s.curSlot ∧
      u.rotation = s.rotation ∧ u.timeSlot = s.timeSlot ∧
      tickLoop (fuel + 1) s x =
        (tickLoop fuel u (rest.headD 0)).map fun (s, fired) => (s, x :: fired) := by
  obtain ⟨mem, next, prev, nodup⟩ := rep.neighbours here
  have slot : s.slots s.curSlot = (front ++ x :: rest).headD 0 := by rw [rep.slot, here]
  have still : ¬ s.rotation x > 0 := by omega
  rw [tickLoop, if_neg (rep.ne_zero mem), if_neg still]
  rcases front with _ | ⟨q, front⟩
  · have isHead : x = s.slots s.curSlot := slot.symm
    let u : TimeWheel := { s with
      slots := update s.slots s.curSlot (rest.headD 0)
      prev := if rest.headD 0 ≠ 0 then update s.prev (rest.headD 0) 0 else s.prev }
    have out : u.Rep (update lists s.curSlot ([] ++ rest)) :=
      rep.unlink here rfl (fun _ => rfl) (fun h => absurd rfl h) rfl rfl
    refine ⟨u, out, rfl, rfl, rfl, ?_⟩
    rw [if_pos isHead]
    simp only [next, update_self]
    rfl
  · have notHead : x ≠ s.slots s.curSlot := by
      intro same
      rw [slot] at same
      exact (List.nodup_cons.mp nodup).1 (same ▸ by simp)
    have lastNe : x ≠ (q :: front).getLastD 0 := by
      rw [List.getLastD_cons]
      intro same
      have : x ∈ q :: front := same ▸ List.getLastD_mem_cons
      exact List.disjoint_left.mp (List.nodup_append'.mp nodup).2.2 this List.mem_cons_self
    let u : TimeWheel := { s with
      next := update s.next ((q :: front).getLastD 0) (rest.headD 0)
      prev := if rest.headD 0 ≠ 0 then update s.prev (rest.headD 0) ((q :: front).getLastD 0)
        else s.prev }
    have head : s.slots = update s.slots s.curSlot ((q :: front ++ rest).headD 0) := by
      have first : s.slots s.curSlot = (q :: front ++ rest).headD 0 := slot
      rw [← first, update_eq_self]
    have out : u.Rep (update lists s.curSlot (q :: front ++ rest)) :=
      rep.unlink here head (fun h => absurd h (List.cons_ne_nil q front)) (fun _ => rfl) rfl rfl
    refine ⟨u, out, rfl, rfl, rfl, ?_⟩
    rw [if_neg notHead]
    simp only [next, prev, update_of_ne lastNe]
    rfl

/-- The loop of `tick` fires the timers without a rotation left, and takes one
rotation off the others. -/
theorem tickLoop_spec (front : List Ptr) (rep : s.Rep lists)
    (here : lists s.curSlot = front ++ rest) (enough : rest.length < fuel) :
    ∃ t, tickLoop fuel s (rest.headD 0) = some (t, s.expired rest) ∧
      t.Rep (update lists s.curSlot (front ++ s.kept rest)) ∧ t.curSlot = s.curSlot ∧
      (∀ p, t.rotation p = if p ∈ rest then s.rotation p - 1 else s.rotation p) ∧
      t.timeSlot = s.timeSlot := by
  obtain ⟨fuel, rfl⟩ := Nat.exists_eq_succ_of_ne_zero (Nat.ne_of_gt (Nat.zero_lt_of_lt enough))
  induction rest generalizing s lists front fuel with
  | nil =>
      refine ⟨s, if_pos rfl, ?_, rfl, fun p => (if_neg List.not_mem_nil).symm, rfl⟩
      rw [kept, List.filter_nil, ← here, update_eq_self]
      exact rep
  | cons x rest ih =>
      obtain ⟨mem, next, -, nodup⟩ := rep.neighbours here
      have off : x ∉ rest := (List.nodup_cons.mp (List.nodup_append'.mp nodup).2.1).1
      obtain ⟨fuel, rfl⟩ := Nat.exists_eq_succ_of_ne_zero
        (Nat.ne_of_gt (Nat.zero_lt_of_lt (Nat.lt_of_succ_lt_succ enough)))
      have enough' : rest.length < fuel + 1 := Nat.lt_of_succ_lt_succ enough
      by_cases turning : s.rotation x > 0
      · rw [tickLoop, List.headD_cons, if_neg (rep.ne_zero mem), if_pos turning]
        let u : TimeWheel := { s with rotation := update s.rotation x (s.rotation x - 1) }
        have repU : u.Rep lists := { rep with }
        have hereU : lists u.curSlot = (front ++ [x]) ++ rest := by simpa using here
        obtain ⟨t, looped, rep', cur, rotation, timeSlot⟩ := ih _ repU hereU fuel enough'
        have same : ∀ p ∈ rest, u.rotation p = s.rotation p := fun p mem =>
          update_of_ne (ne_of_mem_of_not_mem mem off) _ _
        refine ⟨t, ?_, ?_, cur, fun p => ?_, timeSlot⟩
        · simp only [next]
          rw [looped, expired_congr same, expired_cons_of_pos turning]
        · rw [kept_congr same, List.append_assoc] at rep'
          rw [kept_cons_of_pos turning]
          exact rep'
        · rw [rotation]
          by_cases isX : p = x
          · rw [isX, if_neg off, if_pos List.mem_cons_self]
            exact update_self _ _ _
          · have keep : u.rotation p = s.rotation p := update_of_ne isX _ _
            simp only [List.mem_cons, isX, false_or, keep]
      · have out : s.rotation x = 0 := Nat.eq_zero_of_not_pos turning
        obtain ⟨u, repU, curU, rotU, slotU, stepped⟩ :=
          tickLoop_unlink (fuel + 1) rep here out
        have hereU : update lists s.curSlot (front ++ rest) u.curSlot = front ++ rest := by
          rw [curU, update_self]
        obtain ⟨t, looped, rep', cur, rotation, timeSlot⟩ := ih _ repU hereU fuel enough'
        rw [curU, update_idem, kept_congr fun p _ => congrFun rotU p] at rep'
        rw [rotU] at rotation
        refine ⟨t, ?_, ?_, cur.trans curU, fun p => ?_, timeSlot.trans slotU⟩
        · rw [List.headD_cons, stepped, looped, Option.map_some,
            expired_congr fun p _ => congrFun rotU p, expired_cons_of_zero out]
        · rw [kept_cons_of_zero out]
          exact rep'
        · rw [rotation]
          by_cases isX : p = x
          · rw [isX, if_neg off, if_pos List.mem_cons_self, out]
          · simp only [List.mem_cons, isX, false_or]

/-- `tick` works on the current slot only, and moves on to the next slot. -/
theorem tick_spec (rep : s.Rep lists) (enough : (lists s.curSlot).length < fuel) :
    ∃ t, tick fuel s = some (t, s.expired (lists s.curSlot)) ∧
      t.Rep (update lists s.curSlot (s.kept (lists s.curSlot))) ∧
      t.curSlot = (s.curSlot + 1) % N ∧
      (∀ p, t.rotation p =
        if p ∈ lists s.curSlot then s.rotation p - 1 else s.rotation p) ∧
      t.timeSlot = s.timeSlot := by
  obtain ⟨t, looped, rep', cur, rotation, timeSlot⟩ :=
    tickLoop_spec [] rep rfl enough
  refine ⟨{ t with curSlot := (t.curSlot + 1) % N }, ?_, { rep' with }, ?_, rotation, timeSlot⟩
  · rw [tick, rep.slot, looped, Option.map_some]
  · rw [← cur]

/-- `adjust_timer` adds a rotation. -/
theorem adjustTimer_spec (rep : s.Rep lists) (nonnull : p ≠ 0) :
    (s.adjustTimer p).Rep lists ∧ (s.adjustTimer p).curSlot = s.curSlot ∧
      (s.adjustTimer p).rotation = update s.rotation p (s.rotation p + 1) ∧
      (s.adjustTimer p).timeSlot = s.timeSlot := by
  rw [adjustTimer, if_neg nonnull]
  exact ⟨{ rep with }, rfl, rfl, rfl⟩

end TimeWheel

open TimeWheel

/-! ## The ledger -/

/-- What has become of a timer. -/
inductive Fate
  | live
  | deleted
  | fired (tick : Nat)
  deriving DecidableEq

/-- A timer that was added: with which timeout, after how many ticks, and how
often it was adjusted since. -/
structure Record where
  timer : Ptr
  timeout : Int
  addedAt : Nat
  adjusts : Nat
  fate : Fate

/-- The number of the tick on which the timer should fire. -/
def Record.due (r : Record) : Nat :=
  r.addedAt + ((max 1 (r.timeout / TI)).toNat + 1 + 60 * r.adjusts)

/-- The record is of the live timer at `p`. -/
def Record.IsLive (r : Record) (p : Ptr) : Prop := r.fate = .live ∧ r.timer = p

instance (r : Record) (p : Ptr) : Decidable (r.IsLive p) :=
  inferInstanceAs (Decidable (r.fate = .live ∧ r.timer = p))

/-- A change of the record of the live timer at `p`. -/
def modifyLive (p : Ptr) (f : Record → Record) (records : List Record) : List Record :=
  records.map fun r => if r.IsLive p then f r else r

/-- The callback of the timer at `p` ran on a tick: undefined if no live timer is at `p`. -/
def fire (tick : Nat) (records : List Record) (p : Ptr) : Option (List Record) :=
  if ∃ r ∈ records, r.IsLive p then
    some (modifyLive p (fun r => { r with fate := .fired tick }) records)
  else none

/-- The records after a tick that fired the timers `fired`. -/
def fireAll (tick : Nat) (fired : List Ptr) (records : List Record) : List Record :=
  records.map fun r =>
    if r.fate = .live ∧ r.timer ∈ fired then { r with fate := .fired tick } else r

theorem length_fireAll {tick : Nat} {fired : List Ptr} {records : List Record} :
    (fireAll tick fired records).length = records.length := List.length_map _

theorem fireAll_cons {tick : Nat} {p : Ptr} {fired : List Ptr} {records : List Record} :
    fireAll tick fired (modifyLive p (fun r => { r with fate := .fired tick }) records) =
      fireAll tick (p :: fired) records := by
  rw [fireAll, fireAll, modifyLive, List.map_map]
  refine List.map_congr_left fun r _ => ?_
  by_cases live : r.fate = .live
  · by_cases same : r.timer = p
    · simp [Record.IsLive, live, same]
    · simp [Record.IsLive, live, same]
  · simp [Record.IsLive, live]

/-- Callbacks of different live timers are all accounted for. -/
theorem foldlM_fire (tick : Nat) {fired : List Ptr} {records : List Record} (nodup : fired.Nodup)
    (live : ∀ p ∈ fired, ∃ r ∈ records, r.IsLive p) :
    fired.foldlM (fire tick) records = some (fireAll tick fired records) := by
  induction fired generalizing records with
  | nil => simp [fireAll]
  | cons p fired ih =>
      obtain ⟨off, rest⟩ := List.nodup_cons.mp nodup
      have first : fire tick records p =
          some (modifyLive p (fun r => { r with fate := .fired tick }) records) :=
        if_pos (live p List.mem_cons_self)
      rw [List.foldlM_cons, first, Option.bind_eq_bind, Option.bind_some, ih rest, fireAll_cons]
      intro q mem
      obtain ⟨r, rMem, rLive⟩ := live q (List.mem_cons_of_mem p mem)
      have other : ¬ r.IsLive p := fun same =>
        off ((same.2.symm.trans rLive.2) ▸ mem)
      exact ⟨r, List.mem_map.mpr ⟨r, rMem, if_neg other⟩, rLive⟩

/-! ## Runs -/

/-- An operation; a timer is added at the address that `new` returns. -/
inductive Op
  | add (timer : Ptr) (timeout : Int)
  | del (timer : Ptr)
  | adjust (timer : Ptr)
  | tick

/-- The timer an operation is about. -/
def Op.subject : Op → Option Ptr
  | .add timer _ => some timer
  | .del timer => some timer
  | .adjust timer => some timer
  | .tick => none

/-- The wheel, the number of ticks so far and the ledger of all timers added. -/
structure World where
  wheel : TimeWheel
  ticks : Nat
  records : List Record

/-- One operation. A tick is undefined when it runs the callback of a timer
that is not live. -/
def step (fuel : Nat) (w : World) : Op → Option World
  | .add timer timeout =>
      some { w with
        wheel := (w.wheel.addTimer timer timeout).1
        records := ⟨timer, timeout, w.ticks, 0, .live⟩ :: w.records }
  | .del timer =>
      some { w with
        wheel := w.wheel.delTimer timer
        records := modifyLive timer (fun r => { r with fate := .deleted }) w.records }
  | .adjust timer =>
      some { w with
        wheel := w.wheel.adjustTimer timer
        records := modifyLive timer (fun r => { r with adjusts := r.adjusts + 1 }) w.records }
  | .tick => do
      let (wheel, fired) ← w.wheel.tick fuel
      let records ← fired.foldlM (fire (w.ticks + 1)) w.records
      some ⟨wheel, w.ticks + 1, records⟩

/-- What the client keeps to: `new` returns a fresh address, and only live
timers are deleted and adjusted. -/
def Allowed (w : World) : Op → Prop
  | .add timer timeout => 0 ≤ timeout ∧ timer ≠ 0 ∧ ∀ r ∈ w.records, ¬ r.IsLive timer
  | .del timer => ∃ r ∈ w.records, r.IsLive timer
  | .adjust timer => ∃ r ∈ w.records, r.IsLive timer
  | .tick => True

instance (w : World) : (op : Op) → Decidable (Allowed w op)
  | .add timer timeout => inferInstanceAs
      (Decidable (0 ≤ timeout ∧ timer ≠ 0 ∧ ∀ r ∈ w.records, ¬ r.IsLive timer))
  | .del timer => inferInstanceAs (Decidable (∃ r ∈ w.records, r.IsLive timer))
  | .adjust timer => inferInstanceAs (Decidable (∃ r ∈ w.records, r.IsLive timer))
  | .tick => inferInstanceAs (Decidable True)

/-- The wheel's two numbers say that the timer of `r` fires when it is due. -/
structure Placed (w : World) (r : Record) : Prop where
  ahead : w.ticks < r.due
  timeSlot : w.wheel.timeSlot r.timer = (r.due - 1) % N
  rotation : w.wheel.rotation r.timer = (r.due - 1 - w.ticks) / N

/-- The wheel holds the live timers, each where it belongs, and the others
fired when they were due. -/
structure Good (w : World) (lists : Nat → List Ptr) : Prop where
  rep : w.wheel.Rep lists
  cur : w.wheel.curSlot = w.ticks % N
  live : ∀ p, (∃ k, p ∈ lists k) ↔ ∃ r ∈ w.records, r.IsLive p
  placed : ∀ r ∈ w.records, r.fate = .live → Placed w r
  fired : ∀ r ∈ w.records, ∀ tick, r.fate = .fired tick → tick = r.due

theorem ticksOf_eq (timeout : Int) : ticksOf timeout = (max 1 (timeout / TI)).toNat := by
  simp only [ticksOf, TI, Int.ediv_one]
  split <;> omega

variable {w w' : World} {lists : Nat → List Ptr} {p q : Ptr} {fuel : Nat}

/-- A list of the wheel is no longer than the ledger. -/
theorem Good.length_le (good : Good w lists) (k : Nat) :
    (lists k).length ≤ w.records.length := by
  have sub : lists k ⊆ w.records.map Record.timer := by
    intro p mem
    obtain ⟨r, rMem, -, rfl⟩ := (good.live p).mp ⟨k, mem⟩
    exact List.mem_map_of_mem rMem
  have bound := (List.subperm_of_subset (good.rep.nodup k) sub).length_le
  rwa [List.length_map] at bound

/-- A live timer is on the list of its slot. -/
theorem Good.mem_list (good : Good w lists) {r : Record} (mem : r ∈ w.records)
    (live : r.fate = .live) : r.timer ∈ lists ((r.due - 1) % N) := by
  obtain ⟨k, here⟩ := (good.live r.timer).mpr ⟨r, mem, live, rfl⟩
  have own := good.rep.own k r.timer here
  rw [(good.placed r mem live).timeSlot] at own
  rwa [own]

theorem add_good {timeout : Int} (good : Good w lists) (allowed : Allowed w (.add p timeout)) :
    ∃ w' lists', step fuel w (.add p timeout) = some w' ∧ Good w' lists' ∧
      w'.records.length ≤ w.records.length + 1 := by
  obtain ⟨nonneg, nonnull, fresh⟩ := allowed
  have off : ∀ k, p ∉ lists k := by
    intro k mem
    obtain ⟨r, rMem, rLive⟩ := (good.live p).mp ⟨k, mem⟩
    exact fresh r rMem rLive
  obtain ⟨t, ts, added, tsEq, rep, cur, rotation, timeSlot⟩ :=
    addTimer_spec good.rep off nonnull nonneg
  refine ⟨_, update lists ts (p :: lists ts), rfl, ?_, Nat.le_refl _⟩
  rw [added]
  rw [good.cur] at tsEq
  refine ⟨rep, cur.trans good.cur, fun q => ?_, fun r mem live => ?_, fun r mem tick fate => ?_⟩
  · constructor
    · rintro ⟨k, mem⟩
      by_cases slot : k = ts
      · rw [slot, update_self] at mem
        rcases List.mem_cons.mp mem with rfl | mem
        · exact ⟨_, List.mem_cons_self, rfl, rfl⟩
        · obtain ⟨r, rMem, rLive⟩ := (good.live q).mp ⟨ts, mem⟩
          exact ⟨r, List.mem_cons_of_mem _ rMem, rLive⟩
      · rw [update_of_ne slot] at mem
        obtain ⟨r, rMem, rLive⟩ := (good.live q).mp ⟨k, mem⟩
        exact ⟨r, List.mem_cons_of_mem _ rMem, rLive⟩
    · rintro ⟨r, mem, live⟩
      rcases List.mem_cons.mp mem with rfl | mem
      · refine ⟨ts, ?_⟩
        rw [update_self, ← live.2]
        exact List.mem_cons_self
      · obtain ⟨k, here⟩ := (good.live q).mpr ⟨r, mem, live⟩
        refine ⟨k, ?_⟩
        by_cases slot : k = ts
        · rw [slot, update_self]
          exact List.mem_cons_of_mem p (slot ▸ here)
        · rwa [update_of_ne slot]
  · rcases List.mem_cons.mp mem with rfl | mem
    · have due : w.ticks + (ticksOf timeout + 1 + 60 * 0) - 1 = w.ticks + ticksOf timeout := by
        omega
      refine ⟨?_, ?_, ?_⟩
      all_goals simp only [Record.due, ← ticksOf_eq]
      · omega
      · rw [timeSlot, update_self, tsEq, due, Nat.mod_add_mod]
      · rw [rotation, update_self, due, Nat.add_sub_cancel_left]
    · have other : r.timer ≠ p := fun same => fresh r mem ⟨live, same⟩
      obtain ⟨ahead, slot, turns⟩ := good.placed r mem live
      refine ⟨ahead, ?_, ?_⟩
      · simp only [timeSlot, update_of_ne other, slot]
      · simp only [rotation, update_of_ne other, turns]
  · rcases List.mem_cons.mp mem with rfl | mem
    · cases fate
    · exact good.fired r mem tick fate

theorem length_modifyLive {f : Record → Record} {records : List Record} :
    (modifyLive p f records).length = records.length := List.length_map _

/-- The records that `modifyLive` leaves alone, and those it changes. -/
theorem mem_modifyLive {f : Record → Record} {records : List Record} {r : Record} :
    r ∈ modifyLive p f records ↔
      (r ∈ records ∧ ¬ r.IsLive p) ∨ ∃ r₀ ∈ records, r₀.IsLive p ∧ f r₀ = r := by
  rw [modifyLive, List.mem_map]
  constructor
  · rintro ⟨r₀, mem, rfl⟩
    by_cases live : r₀.IsLive p
    · rw [if_pos live]
      exact Or.inr ⟨r₀, mem, live, rfl⟩
    · rw [if_neg live]
      exact Or.inl ⟨mem, live⟩
  · rintro (⟨mem, other⟩ | ⟨r₀, mem, live, rfl⟩)
    · exact ⟨r, mem, if_neg other⟩
    · exact ⟨r₀, mem, if_pos live⟩

theorem del_good (good : Good w lists) (allowed : Allowed w (.del p)) :
    ∃ w' lists', step fuel w (.del p) = some w' ∧ Good w' lists' ∧
      w'.records.length ≤ w.records.length + 1 := by
  obtain ⟨k, mem⟩ := (good.live p).mpr allowed
  obtain ⟨front, rest, here⟩ := List.append_of_mem mem
  obtain ⟨rep, cur, rotation, timeSlot⟩ := delTimer_spec good.rep here
  have nodup := good.rep.nodup k
  rw [here] at nodup
  have off : p ∉ front ++ rest :=
    (List.nodup_cons.mp (List.perm_middle.nodup_iff.mp nodup)).1
  refine ⟨_, _, rfl, ⟨rep, cur.trans good.cur, fun q => ?_, fun r mem live => ?_,
    fun r mem tick fate => ?_⟩, Nat.le_succ_of_le (Nat.le_of_eq length_modifyLive)⟩
  · constructor
    · rintro ⟨j, qMem⟩
      have both : q ∈ lists j ∧ q ≠ p := by
        by_cases slot : j = k
        · rw [slot, update_self] at qMem
          refine ⟨?_, ne_of_mem_of_not_mem qMem off⟩
          rw [slot, here]
          exact List.perm_middle.mem_iff.mpr (List.mem_cons_of_mem p qMem)
        · rw [update_of_ne slot] at qMem
          exact ⟨qMem, ne_of_mem_of_not_mem qMem (good.rep.apart slot mem)⟩
      obtain ⟨r, rMem, rLive⟩ := (good.live q).mp ⟨j, both.1⟩
      have other : ¬ r.IsLive p := fun same => both.2 (rLive.2.symm.trans same.2)
      exact ⟨r, mem_modifyLive.mpr (Or.inl ⟨rMem, other⟩), rLive⟩
    · rintro ⟨r, rMem, rLive⟩
      rcases mem_modifyLive.mp rMem with ⟨rMem, other⟩ | ⟨r₀, -, -, rfl⟩
      · obtain ⟨j, qMem⟩ := (good.live q).mpr ⟨r, rMem, rLive⟩
        have different : q ≠ p := fun same => other (same ▸ rLive)
        refine ⟨j, ?_⟩
        by_cases slot : j = k
        · rw [slot, here] at qMem
          rw [slot, update_self]
          exact List.mem_of_ne_of_mem different (List.perm_middle.mem_iff.mp qMem)
        · rwa [update_of_ne slot]
      · cases rLive.1
  · rcases mem_modifyLive.mp mem with ⟨mem, -⟩ | ⟨r₀, -, -, rfl⟩
    · obtain ⟨ahead, slot, turns⟩ := good.placed r mem live
      exact ⟨ahead, by rw [timeSlot, slot], by rw [rotation, turns]⟩
    · cases live
  · rcases mem_modifyLive.mp mem with ⟨mem, -⟩ | ⟨r₀, -, -, rfl⟩
    · exact good.fired r mem tick fate
    · cases fate

theorem adjust_good (good : Good w lists) (allowed : Allowed w (.adjust p)) :
    ∃ w' lists', step fuel w (.adjust p) = some w' ∧ Good w' lists' ∧
      w'.records.length ≤ w.records.length + 1 := by
  obtain ⟨k, here⟩ := (good.live p).mpr allowed
  obtain ⟨rep, cur, rotation, timeSlot⟩ := adjustTimer_spec good.rep (good.rep.ne_zero here)
  refine ⟨_, _, rfl, ⟨rep, cur.trans good.cur, fun q => ?_, fun r mem live => ?_,
    fun r mem tick fate => ?_⟩, Nat.le_succ_of_le (Nat.le_of_eq length_modifyLive)⟩
  · rw [good.live q]
    constructor
    · rintro ⟨r, mem, live⟩
      by_cases same : r.IsLive p
      · exact ⟨_, mem_modifyLive.mpr (Or.inr ⟨r, mem, same, rfl⟩), live⟩
      · exact ⟨r, mem_modifyLive.mpr (Or.inl ⟨mem, same⟩), live⟩
    · rintro ⟨r, mem, live⟩
      rcases mem_modifyLive.mp mem with ⟨mem, -⟩ | ⟨r₀, mem₀, -, rfl⟩
      · exact ⟨r, mem, live⟩
      · exact ⟨r₀, mem₀, live⟩
  · rcases mem_modifyLive.mp mem with ⟨mem, other⟩ | ⟨r₀, mem₀, same, rfl⟩
    · have different : r.timer ≠ p := fun same => other ⟨live, same⟩
      obtain ⟨ahead, slot, turns⟩ := good.placed r mem live
      refine ⟨ahead, by rw [timeSlot, slot], ?_⟩
      simp only [rotation, update_of_ne different, turns]
    · obtain ⟨ahead, slot, turns⟩ := good.placed r₀ mem₀ live
      have due : Record.due { r₀ with adjusts := r₀.adjusts + 1 } = r₀.due + 60 := by
        simp only [Record.due]
        omega
      refine ⟨?_, ?_, ?_⟩
      · simp only [due]
        omega
      · simp only [due, timeSlot, slot, N]
        omega
      · simp only [rotation, same.2, update_self]
        rw [← same.2, turns, N]
        omega
  · rcases mem_modifyLive.mp mem with ⟨mem, -⟩ | ⟨r₀, -, same, rfl⟩
    · exact good.fired r mem tick fate
    · cases same.1.symm.trans fate

/-- A tick fires exactly the live timers that are due. -/
theorem Good.mem_expired (good : Good w lists) {r : Record} (mem : r ∈ w.records)
    (live : r.fate = .live) :
    r.timer ∈ w.wheel.expired (lists w.wheel.curSlot) ↔ r.due = w.ticks + 1 := by
  obtain ⟨ahead, slot, turns⟩ := good.placed r mem live
  rw [expired, List.mem_filter, decide_eq_true_eq, turns]
  constructor
  · rintro ⟨here, out⟩
    have own := good.rep.own _ _ here
    rw [slot, good.cur] at own
    rw [N] at own out
    omega
  · intro due
    have current : (r.due - 1) % N = w.wheel.curSlot := by
      rw [good.cur, due, Nat.add_sub_cancel]
    exact ⟨current ▸ good.mem_list mem live, by rw [N]; omega⟩

/-- The records that a tick leaves alone, and those it marks as fired. -/
theorem mem_fireAll {tick : Nat} {fired : List Ptr} {records : List Record} {r : Record} :
    r ∈ fireAll tick fired records ↔
      (r ∈ records ∧ ¬ (r.fate = .live ∧ r.timer ∈ fired)) ∨
        ∃ r₀ ∈ records, r₀.fate = .live ∧ r₀.timer ∈ fired ∧
          { r₀ with fate := .fired tick } = r := by
  rw [fireAll, List.mem_map]
  constructor
  · rintro ⟨r₀, mem, rfl⟩
    by_cases fires : r₀.fate = .live ∧ r₀.timer ∈ fired
    · rw [if_pos fires]
      exact Or.inr ⟨r₀, mem, fires.1, fires.2, rfl⟩
    · rw [if_neg fires]
      exact Or.inl ⟨mem, fires⟩
  · rintro (⟨mem, stays⟩ | ⟨r₀, mem, live, fires, rfl⟩)
    · exact ⟨r, mem, if_neg stays⟩
    · exact ⟨r₀, mem, if_pos ⟨live, fires⟩⟩

theorem tick_good (good : Good w lists) (enough : w.records.length < fuel) :
    ∃ w' lists', step fuel w .tick = some w' ∧ Good w' lists' ∧
      w'.records.length ≤ w.records.length + 1 := by
  obtain ⟨t, ticked, rep, cur, rotation, timeSlot⟩ :=
    tick_spec good.rep (Nat.lt_of_le_of_lt (good.length_le _) enough)
  have onList : ∀ p ∈ w.wheel.expired (lists w.wheel.curSlot), p ∈ lists w.wheel.curSlot :=
    fun p mem => (List.mem_filter.mp mem).1
  have counted := foldlM_fire (w.ticks + 1)
    ((good.rep.nodup w.wheel.curSlot).filter (w.wheel.rotation · = 0))
    fun p mem => (good.live p).mp ⟨_, onList p mem⟩
  let records := fireAll (w.ticks + 1) (w.wheel.expired (lists w.wheel.curSlot)) w.records
  refine ⟨⟨t, w.ticks + 1, records⟩, _, ?_, ⟨rep, ?_, fun q => ?_, fun r mem live => ?_,
    fun r mem tick fate => ?_⟩, Nat.le_succ_of_le (Nat.le_of_eq length_fireAll)⟩
  · simp only [step, ticked, Option.bind_eq_bind, Option.bind_some]
    rw [expired, counted, Option.bind_some]
    rfl
  · rw [cur, good.cur, Nat.mod_add_mod]
  · constructor
    · rintro ⟨k, mem⟩
      have both : q ∈ lists k ∧ q ∉ w.wheel.expired (lists w.wheel.curSlot) := by
        by_cases slot : k = w.wheel.curSlot
        · rw [slot, update_self, kept, List.mem_filter, decide_eq_true_eq] at mem
          rw [expired, List.mem_filter, decide_eq_true_eq, slot]
          exact ⟨mem.1, fun out => absurd out.2 (Nat.ne_of_gt mem.2)⟩
        · rw [update_of_ne slot] at mem
          exact ⟨mem, fun out => good.rep.apart slot (onList q out) mem⟩
      obtain ⟨r, rMem, rLive⟩ := (good.live q).mp ⟨k, both.1⟩
      have stays : r.timer ∉ w.wheel.expired (lists w.wheel.curSlot) := rLive.2 ▸ both.2
      exact ⟨r, mem_fireAll.mpr (Or.inl ⟨rMem, fun fires => stays fires.2⟩), rLive⟩
    · rintro ⟨r, rMem, rLive⟩
      rcases mem_fireAll.mp rMem with ⟨rMem, stays⟩ | ⟨r₀, -, -, -, rfl⟩
      · obtain ⟨k, here⟩ := (good.live q).mpr ⟨r, rMem, rLive⟩
        refine ⟨k, ?_⟩
        by_cases slot : k = w.wheel.curSlot
        · have turning : w.wheel.rotation q ≠ 0 := by
            intro out
            refine stays ⟨rLive.1, ?_⟩
            rw [expired, rLive.2, ← slot]
            exact List.mem_filter.mpr ⟨here, decide_eq_true out⟩
          rw [slot, update_self]
          exact List.mem_filter.mpr ⟨slot ▸ here, decide_eq_true (Nat.pos_of_ne_zero turning)⟩
        · rwa [update_of_ne slot]
      · cases rLive.1
  · rcases mem_fireAll.mp mem with ⟨mem, stays⟩ | ⟨r₀, -, -, -, rfl⟩
    · obtain ⟨ahead, slot, turns⟩ := good.placed r mem live
      have notDue : r.due ≠ w.ticks + 1 := fun due =>
        stays ⟨live, (good.mem_expired mem live).mpr due⟩
      have here := good.mem_list mem live
      refine ⟨?_, by rw [timeSlot, slot], ?_⟩
      · show w.ticks + 1 < r.due
        omega
      · show t.rotation r.timer = (r.due - 1 - (w.ticks + 1)) / N
        rw [rotation, turns]
        by_cases current : (r.due - 1) % N = w.wheel.curSlot
        · rw [if_pos (current ▸ here)]
          rw [good.cur] at current
          rw [N] at current ⊢
          omega
        · have elsewhere : r.timer ∉ lists w.wheel.curSlot := good.rep.apart (Ne.symm current) here
          rw [if_neg elsewhere]
          rw [good.cur] at current
          rw [N] at current ⊢
          omega
    · cases live
  · rcases mem_fireAll.mp mem with ⟨mem, -⟩ | ⟨r₀, mem₀, live, fires, rfl⟩
    · exact good.fired r mem tick fate
    · obtain rfl := Fate.fired.inj fate
      exact ((good.mem_expired mem₀ live).mp fires).symm

/-- An allowed operation is defined and keeps the wheel good. -/
theorem step_good {op : Op} (good : Good w lists) (allowed : Allowed w op)
    (enough : w.records.length < fuel) :
    ∃ w' lists', step fuel w op = some w' ∧ Good w' lists' ∧
      w'.records.length ≤ w.records.length + 1 := by
  cases op with
  | add timer timeout => exact add_good good allowed
  | del timer => exact del_good good allowed
  | adjust timer => exact adjust_good good allowed
  | tick => exact tick_good good enough

/-- A run of allowed operations is defined and keeps the wheel good. -/
theorem run_good (ops : List Op) (good : Good w lists)
    (allowed : Along (step fuel) Allowed w ops) (enough : w.records.length + ops.length < fuel) :
    ∃ w' lists', run (step fuel) w ops = some w' ∧ Good w' lists' := by
  induction ops generalizing w lists with
  | nil => exact ⟨w, lists, rfl, good⟩
  | cons op ops ih =>
      rw [List.length_cons] at enough
      obtain ⟨u, lists', stepped, good', grown⟩ :=
        step_good good allowed.1 (Nat.lt_of_le_of_lt (Nat.le_add_right _ _) enough)
      obtain ⟨w', lists'', ran, good''⟩ := ih good' (allowed.2 u stepped) (by omega)
      exact ⟨w', lists'', run_cons_eq_some.mpr ⟨u, stepped, ran⟩, good''⟩

/-- An operation on one timer leaves the records of the other live timers alone. -/
theorem step_other {op : Op} {r : Record} (notTick : op ≠ .tick)
    (stepped : step fuel w op = some w') (mem : r ∈ w.records)
    (other : op.subject ≠ some r.timer) : r ∈ w'.records := by
  cases op with
  | add timer timeout =>
      cases stepped
      exact List.mem_cons_of_mem _ mem
  | del timer =>
      cases stepped
      exact mem_modifyLive.mpr (Or.inl ⟨mem, fun live => other (by rw [Op.subject, live.2])⟩)
  | adjust timer =>
      cases stepped
      exact mem_modifyLive.mpr (Or.inl ⟨mem, fun live => other (by rw [Op.subject, live.2])⟩)
  | tick => exact absurd rfl notTick

/-- The empty wheel. -/
def start (rotation timeSlot : Ptr → Nat) (next prev : Ptr → Ptr) : World :=
  ⟨TimeWheel.init rotation timeSlot next prev, 0, []⟩

/-- Every sequence of allowed operations from the empty wheel is defined, so
every callback is that of a live timer: none runs twice and none after a
deletion. A timer that fired did so on the tick it was due, a live one is not
due yet, and an operation on one timer does not change when another is due. -/
theorem timeWheel_run (rotation timeSlot : Ptr → Nat) (next prev : Ptr → Ptr) (ops : List Op)
    (fuel : Nat) (enough : ops.length < fuel)
    (allowed : Along (step fuel) Allowed (start rotation timeSlot next prev) ops) :
    ∃ w, run (step fuel) (start rotation timeSlot next prev) ops = some w ∧
      (∀ r ∈ w.records,
        (∀ tick, r.fate = .fired tick →
          tick = r.addedAt + ((max 1 (r.timeout / TI)).toNat + 1 + 60 * r.adjusts)) ∧
        (r.fate = .live →
          w.ticks < r.addedAt + ((max 1 (r.timeout / TI)).toNat + 1 + 60 * r.adjusts))) ∧
      ∀ op w', op ≠ .tick → step fuel w op = some w' →
        ∀ r ∈ w.records, op.subject ≠ some r.timer → r ∈ w'.records := by
  have good : Good (start rotation timeSlot next prev) fun _ => [] := by
    refine ⟨init_rep rotation timeSlot next prev, rfl, fun p => ?_, ?_, ?_⟩
    · constructor
      · rintro ⟨k, mem⟩
        cases mem
      · rintro ⟨r, mem, -⟩
        cases mem
    · intro r mem
      cases mem
    · intro r mem
      cases mem
  obtain ⟨w, lists, ran, good'⟩ := run_good ops good allowed (by simpa [start] using enough)
  exact ⟨w, ran, fun r mem => ⟨good'.fired r mem, fun live => (good'.placed r mem live).ahead⟩,
    fun op w' notTick stepped r mem other => step_other notTick stepped mem other⟩

/-- A timer that is adjusted before it fires, next to one that is deleted. -/
theorem timeWheel_run_adjusted :
    ∃ w, run (step 6) (start (fun _ => 0) (fun _ => 0) (fun _ => 0) fun _ => 0)
        [.add 1 0, .add 2 60, .adjust 1, .tick, .del 2] = some w ∧
      ∀ r ∈ w.records, r.fate = .live →
        w.ticks < r.addedAt + ((max 1 (r.timeout / TI)).toNat + 1 + 60 * r.adjusts) := by
  have allowed : Along (step 6) Allowed (start (fun _ => 0) (fun _ => 0) (fun _ => 0) fun _ => 0)
      [.add 1 0, .add 2 60, .adjust 1, .tick, .del 2] := by
    refine ⟨by decide, fun u first => ?_⟩
    cases first
    refine ⟨by decide, fun u second => ?_⟩
    cases second
    refine ⟨by decide, fun u third => ?_⟩
    cases third
    refine ⟨by decide, fun u fourth => ?_⟩
    cases fourth
    exact ⟨by decide, fun _ _ => trivial⟩
  obtain ⟨w, ran, due, -⟩ := timeWheel_run (fun _ => 0) (fun _ => 0) (fun _ => 0) (fun _ => 0)
    [.add 1 0, .add 2 60, .adjust 1, .tick, .del 2] 6 (by decide) allowed
  exact ⟨w, ran, fun r mem => (due r mem).2⟩

end Shang.Timer.TwTimer
