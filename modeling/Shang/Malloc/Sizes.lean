import Shang.Malloc.Realloc

/-!
# Sizes near the end of the range

Sizes are rounded up, enlarged by the header and multiplied modulo `2 ^ 64`, and
the sum goes to `sbrk`, which takes it for a signed number. This module says of
any heap whatever, also one whose list is broken, which requests are served with
a block of at least the size asked for and without moving the break down.

A call that faults returns no block, so it can only break the second half of the
law: `granted` is the heap just after the call of `sbrk`.
-/

namespace Shang.Malloc

open Lib

variable {h h' h₁ : Heap} {a b k last n p q request x : Nat} {r : Heap × Nat}

/-- The heap after the call of `sbrk` that `my_malloc(n)` makes, if it makes one
and the kernel grants it. -/
def granted (h : Heap) (n : Nat) : Option Heap :=
  if n = 0 then
    none
  else if h.first = 0 then
    h.sbrk ((40 + align8 n) % 2 ^ 64)
  else
    match findBlock h h.first (align8 n) with
    | some (ptr, _) => if ptr = 0 then h.sbrk ((40 + align8 n) % 2 ^ 64) else none
    | none => none

/-- The law for a call that asks `my_malloc` for `n` bytes: a block that is
returned has the size asked for, and the break never moves down. -/
structure SizeLaw (h : Heap) (n request : Nat) (result : Option (Heap × Nat)) : Prop where
  size : ∀ h' q, result = some (h', q) → q ≠ 0 → request ≤ h'.get .size (getBlock q)
  during : ∀ h', granted h n = some h' → h.brk ≤ h'.brk
  after : ∀ h' q, result = some (h', q) → h.brk ≤ h'.brk

/-- What `extend_heap` leaves in the size field of a new block at `p`: the size,
unless the link from the last block passed runs over it. -/
def sizeLeft (a p last : Nat) : Nat :=
  let stored := store (fun _ => 0) 8 p a
  load (if last = 0 then stored else store stored 8 (last + 16) p) 8 p

/-- The `zeroed` bytes from `q` on are not all mapped. -/
def Faults (h : Heap) (zeroed q : Nat) : Prop :=
  zeroed ≠ 0 ∧ ¬ h.Mapped zeroed q

/-- A found block serves the request: its size afterwards is large enough, or
cutting or zeroing it faults. -/
def FoundFits (h : Heap) (a ptr request zeroed : Nat) : Prop :=
  request ≤ (if a + 48 ≤ h.get .size ptr then a else h.get .size ptr) ∨
    (a + 48 ≤ h.get .size ptr ∧ blockSplit h ptr a = none) ∨ Faults h zeroed (ptr + 40)

/-- A new block serves the request: the kernel refuses it, or the increment is
not negative and the size is large enough, or writing the header or zeroing the
data faults. -/
def NewFits (h : Heap) (a last request zeroed : Nat) : Prop :=
  ∀ h₁ ∈ h.sbrk ((40 + a) % 2 ^ 64), (40 + a) % 2 ^ 64 < 2 ^ 63 ∧
    (request ≤ sizeLeft a h.brk last ∨ ¬ h₁.Mapped 40 h.brk ∨ Faults h₁ zeroed (h.brk + 40))

/-- The condition for a call that asks `my_malloc` for `n` bytes, meant to be
`request`, and zeroes the first `zeroed` of what it gets. -/
def RequestFits (h : Heap) (n request zeroed : Nat) : Prop :=
  if n = 0 then
    True
  else if h.first = 0 then
    NewFits h (align8 n) 0 request zeroed
  else
    match findBlock h h.first (align8 n) with
    | some (ptr, last) =>
      if ptr = 0 then NewFits h (align8 n) last request zeroed
      else FoundFits h (align8 n) ptr request zeroed
    | none => True

/-! ## The size of a new block -/

theorem store_congr {m m' : Memory} (same : m x = m' x) :
    store m n a b x = store m' n a b x := by
  induction n generalizing a b with
  | zero => exact same
  | succ n ih =>
      unfold store
      split
      · rfl
      · exact ih

theorem store_in {m m' : Memory} (low : a ≤ x) (high : x < a + n) :
    store m n a b x = store m' n a b x := by
  induction n generalizing a b with
  | zero => omega
  | succ n ih =>
      unfold store
      split
      · rfl
      · exact ih (by omega) (by omega)

theorem set_mem_before {f : Field} (before : x < b + f.offset) :
    (h.set f b n).mem x = h.mem x :=
  store_off (.inl before)

theorem appended_size :
    (appended h p last a).get .size p = sizeLeft a p last := by
  unfold appended
  rw [Heap.get_set (by simp), Heap.get_set (by simp)]
  have same : ∀ i < 8, (((h.set .size p a).set .prev p 0).set .next p 0).mem (p + i)
      = store (fun _ => 0) 8 p a (p + i) := by
    intro i inside
    rw [set_mem_before (show p + i < p + 16 by omega), set_mem_before (show p + i < p + 8 by omega)]
    exact store_in (a := p) (n := 8) (by omega) (by omega)
  unfold sizeLeft
  split
  · exact load_congr fun i inside => same i inside
  · rw [Heap.get_set (by simp)]
    exact load_congr fun i inside => store_congr (same i inside)

/-- The size is what it should be where the link does not run over it. -/
theorem sizeLeft_eq (wide : a < 2 ^ 64) (apart : last = 0 ∨ last + 24 ≤ p ∨ p + 8 ≤ last + 16) :
    sizeLeft a p last = a := by
  have self : load (store (fun _ => 0) 8 p a) 8 p = a :=
    load_store_self.trans (Nat.mod_eq_of_lt wide)
  unfold sizeLeft
  split
  · exact self
  · refine Eq.trans ?_ self
    exact load_store_off (by omega)

/-! ## What the helpers do in any heap -/

theorem mapped_of_fetch {f : Field} (read : h.fetch f b = some n) :
    h.Mapped f.width (b + f.offset) := by
  unfold Heap.fetch Heap.read at read
  split at read
  · assumption
  · cases read

theorem get_of_fetch {f : Field} (read : h.fetch f b = some n) : h.get f b = n := by
  unfold Heap.fetch Heap.read at read
  split at read
  · exact Option.some.inj read
  · cases read

/-- The block that a search finds suits, and the last one it passes was read. -/
theorem findLoop_inv (found : findLoop h n k last p = some (x, b)) :
    (x ≠ 0 → suits h n x = some true) ∧
      (x = 0 → p = 0 ∧ b = last ∨ b ≠ 0 ∧ ∃ e, h.fetch .next b = some e) := by
  induction k generalizing last p with
  | zero => cases found
  | succ k ih =>
      unfold findLoop at found
      split at found
      · next none =>
          obtain ⟨rfl, rfl⟩ := Prod.mk.inj (Option.some.inj found)
          exact ⟨fun ne => absurd rfl ne, fun _ => .inl ⟨none, rfl⟩⟩
      · next some =>
          obtain ⟨suited, asked, found⟩ := Option.bind_eq_some_iff.mp found
          split at found
          · next yes =>
              obtain ⟨rfl, rfl⟩ := Prod.mk.inj (Option.some.inj found)
              exact ⟨fun _ => by rw [asked, yes], fun none => absurd none some⟩
          · obtain ⟨next, read, found⟩ := Option.bind_eq_some_iff.mp found
            obtain ⟨suits, passed⟩ := ih found
            refine ⟨suits, fun none => .inr ?_⟩
            rcases passed none with ⟨-, rfl⟩ | passed
            · exact ⟨some, next, read⟩
            · exact passed

theorem suits_inv (suited : suits h n x = some true) :
    h.Mapped 4 (x + 24) ∧ h.fetch .size x = some (h.get .size x) ∧ n ≤ h.get .size x := by
  obtain ⟨free, readFree, suited⟩ := Option.bind_eq_some_iff.mp suited
  split at suited
  · cases suited
  · obtain ⟨size, readSize, suited⟩ := Option.bind_eq_some_iff.mp suited
    have le : n ≤ size := of_decide_eq_true (Option.some.inj suited)
    rw [get_of_fetch readSize]
    exact ⟨mapped_of_fetch readFree, readSize, le⟩

/-- Zeroing returns only where all of it is mapped. -/
theorem zeroWords_inv {i : Nat} (zeroed : zeroWords q n i h = some h')
    (small : q + 8 * i < 2 ^ 64) : n = 0 ∨ h.Mapped (8 * n) (q + 8 * i) := by
  induction n generalizing h i with
  | zero => exact .inl rfl
  | succ n ih =>
      obtain ⟨h₁, wrote, rest⟩ := Option.bind_eq_some_iff.mp zeroed
      rw [Nat.mod_eq_of_lt small] at wrote
      unfold Heap.write at wrote
      split at wrote
      · next mapped =>
          obtain rfl := (Option.some.inj wrote).symm
          have bound := h.limit_lt
          have low := mapped.1
          have high := mapped.2
          rcases ih rest (by omega) with rfl | later
          · exact .inr mapped
          · have last : q + 8 * (i + 1) + 8 * n ≤ h.limit := later.2
            exact .inr ⟨low, by omega⟩
      · cases wrote

theorem zeroWords_brk {i : Nat} (zeroed : zeroWords q n i h = some h') : h'.brk = h.brk := by
  induction n generalizing h i with
  | zero => rw [← Option.some.inj zeroed]
  | succ n ih =>
      obtain ⟨h₁, wrote, rest⟩ := Option.bind_eq_some_iff.mp zeroed
      refine (ih rest).trans ?_
      unfold Heap.write at wrote
      split at wrote
      · rw [← Option.some.inj wrote]
        rfl
      · cases wrote

/-! ## The law, case by case -/

/-- A call whose result is zeroed, `k` words of it. -/
def thenZero (r : Option (Heap × Nat)) (k : Nat) : Option (Heap × Nat) :=
  r.bind fun s => if s.2 = 0 then some (s.1, 0) else (zeroWords s.2 k 0 s.1).map fun h => (h, s.2)

theorem thenZero_zero (r : Option (Heap × Nat)) : thenZero r 0 = r := by
  rcases r with _ | ⟨h, q⟩
  · rfl
  · unfold thenZero
    by_cases none : q = 0
    · simp [none]
    · simp [none, zeroWords]

theorem myCalloc_eq (h : Heap) (num size : Nat) :
    myCalloc h num size = thenZero (myMalloc h (num * size % 2 ^ 64))
      (align8 (num * size % 2 ^ 64) / 8) := by
  unfold myCalloc thenZero
  rcases myMalloc h (num * size % 2 ^ 64) with _ | ⟨h', q⟩
  · rfl
  · rw [Option.bind_eq_bind, Option.bind_some, Option.bind_some]
    dsimp only
    split
    · rfl
    · cases zeroWords q (align8 (num * size % 2 ^ 64) / 8) 0 h' <;> rfl

theorem getBlock_data (small : p + 40 < 2 ^ 64) : getBlock (p + 40) = p := by
  unfold getBlock sub64
  omega

/-- A block that was served has the size asked for, unless zeroing it faults. -/
theorem served_iff (small : p + 40 < 2 ^ 64) :
    (∀ h'' q, thenZero (some (h', p + 40)) k = some (h'', q) → q ≠ 0 →
      request ≤ h''.get .size (getBlock q)) ↔
    request ≤ h'.get .size p ∨ Faults h' (8 * k) (p + 40) := by
  have opened : thenZero (some (h', p + 40)) k
      = (zeroWords (p + 40) k 0 h').map fun h => (h, p + 40) := by
    unfold thenZero
    rw [Option.bind_some, if_neg (by simp)]
  rw [opened]
  by_cases faults : Faults h' (8 * k) (p + 40)
  · refine iff_of_true (fun h'' q called ne => ?_) (.inr faults)
    obtain ⟨h₂, zeroed, -⟩ := Option.map_eq_some_iff.mp called
    rcases zeroWords_inv zeroed (by omega) with rfl | mapped
    · exact absurd rfl faults.1
    · exact absurd mapped faults.2
  · have zeroed : ∃ h₂, zeroWords (p + 40) k 0 h' = some h₂ ∧ h₂.get .size p = h'.get .size p := by
      by_cases none : k = 0
      · exact ⟨h', by rw [none]; rfl, rfl⟩
      · have mapped : h'.Mapped (8 * k) (p + 40) := by
          by_contra unmapped
          exact faults ⟨by omega, unmapped⟩
        obtain ⟨h₂, zeroed, writes⟩ := zeroWords_spec 0 mapped
        exact ⟨h₂, zeroed, load_congr fun i (inside : i < 8) => writes.mem _
          (.inl (show p + i < p + 40 + 8 * 0 by omega))⟩
    obtain ⟨h₂, zeroed, size⟩ := zeroed
    rw [zeroed, Option.map_some]
    constructor
    · intro law
      have enough := law h₂ (p + 40) rfl (Nat.succ_ne_zero _)
      rw [getBlock_data small, size] at enough
      exact .inl enough
    · rintro (enough | bad) h'' q called -
      · obtain ⟨rfl, rfl⟩ := Prod.mk.inj (Option.some.inj called)
        rwa [getBlock_data small, size]
      · exact absurd bad faults

theorem thenZero_brk (called : thenZero (some (h₁, p)) k = some (h', q)) : h'.brk = h₁.brk := by
  unfold thenZero at called
  rw [Option.bind_some] at called
  split at called
  · rw [← (Prod.mk.inj (Option.some.inj called)).1]
  · obtain ⟨h₂, zeroed, eq⟩ := Option.map_eq_some_iff.mp called
    rw [← (Prod.mk.inj eq).1]
    exact zeroWords_brk zeroed

/-- Null was returned before the kernel was asked, or because it refused. -/
theorem law_null (called : myMalloc h n = some (h, 0)) (asked : granted h n = none) :
    SizeLaw h n request (thenZero (myMalloc h n) k) := by
  have same : thenZero (some (h, 0)) k = some (h, 0) := rfl
  rw [called, same]
  refine ⟨fun h' q eq ne => ?_, fun h' eq => ?_, fun h' q eq => ?_⟩
  · exact absurd (Prod.mk.inj (Option.some.inj eq)).2.symm ne
  · rw [asked] at eq
    cases eq
  · rw [← (Prod.mk.inj (Option.some.inj eq)).1]

/-- A block was returned, and the break has not moved down. -/
theorem law_served (called : myMalloc h n = some (h', p + 40)) (small : p + 40 < 2 ^ 64)
    (during : ∀ h₁, granted h n = some h₁ → h.brk ≤ h₁.brk) (after : h.brk ≤ h'.brk) :
    SizeLaw h n request (thenZero (myMalloc h n) k) ↔
      request ≤ h'.get .size p ∨ Faults h' (8 * k) (p + 40) := by
  rw [called, ← served_iff small]
  exact ⟨fun law => law.size, fun size => ⟨size, during, fun h'' q called =>
    after.trans_eq (thenZero_brk called).symm⟩⟩

/-- The call did not return, and the break has not moved down. -/
theorem law_fault (called : myMalloc h n = none)
    (during : ∀ h₁, granted h n = some h₁ → h.brk ≤ h₁.brk) :
    SizeLaw h n request (thenZero (myMalloc h n) k) := by
  have same : thenZero none k = none := rfl
  rw [called, same]
  exact ⟨nofun, during, nofun⟩

theorem faults_congr (brk : h'.brk = h.brk) (base : h'.base = h.base) :
    Faults h' k q ↔ Faults h k q := by
  unfold Faults Heap.Mapped Heap.limit
  rw [brk, base]

/-! ## New blocks -/

theorem sbrk_inv (moved : h.sbrk n = some h₁) :
    h₁.base = h.base ∧ (n < 2 ^ 63 → h₁.brk = h.brk + n) ∧
      (2 ^ 63 ≤ n → n < 2 ^ 64 → h₁.brk < h.brk) := by
  unfold Heap.sbrk Heap.moveBrk at moved
  split at moved
  · split at moved
    · rw [← Option.some.inj moved]
      exact ⟨rfl, fun _ => rfl, fun big => absurd big (by omega)⟩
    · cases moved
  · split at moved
    · split at moved
      · rw [← Option.some.inj moved]
        refine ⟨rfl, fun small => absurd small (by omega), fun _ wide => ?_⟩
        have lower := h.low
        have base := h.lower
        show h.brk - (2 ^ 64 - n) < h.brk
        omega
      · cases moved
    · cases moved

theorem assign_mapped {f : Field} (wrote : h.assign f b n = some h') :
    h.Mapped f.width (b + f.offset) := by
  unfold Heap.assign Heap.write at wrote
  split at wrote
  · assumption
  · cases wrote

theorem assign_brk {f : Field} (wrote : h.assign f b n = some h') :
    h'.brk = h.brk ∧ h'.base = h.base := by
  rw [assign_inv wrote]
  exact ⟨rfl, rfl⟩

/-- A header whose first and last fields could be written is mapped. -/
theorem header_mapped (brk : h'.brk = h.brk) (first : h.Mapped 8 (p + 0))
    (last : h'.Mapped 8 (p + 32)) : h.Mapped 40 p := by
  have upper := last.2
  unfold Heap.limit at upper
  rw [brk] at upper
  exact ⟨first.1, upper⟩

theorem extendHeap_inv (moved : h.sbrk ((40 + a) % 2 ^ 64) = some h₁)
    (called : extendHeap h last a = some r) : h₁.Mapped 40 h.brk := by
  unfold extendHeap at called
  simp only [moved] at called
  obtain ⟨h₂, wrote₂, called⟩ := Option.bind_eq_some_iff.mp called
  obtain ⟨h₃, wrote₃, called⟩ := Option.bind_eq_some_iff.mp called
  obtain ⟨h₄, wrote₄, called⟩ := Option.bind_eq_some_iff.mp called
  have start : h₄.brk = h₁.brk :=
    (assign_brk wrote₄).1.trans ((assign_brk wrote₃).1.trans (assign_brk wrote₂).1)
  have first := assign_mapped wrote₂
  split at called
  · rw [Option.bind_eq_bind, Option.bind_some] at called
    obtain ⟨h₆, wrote₆, called⟩ := Option.bind_eq_some_iff.mp called
    obtain ⟨h₇, wrote₇, called⟩ := Option.bind_eq_some_iff.mp called
    exact header_mapped ((assign_brk wrote₆).1.trans start) first (assign_mapped wrote₇)
  · obtain ⟨h₅, wrote₅, called⟩ := Option.bind_eq_some_iff.mp called
    obtain ⟨h₈, wrote₈, wrote₉⟩ := Option.bind_eq_some_iff.mp wrote₅
    obtain ⟨h₆, wrote₆, called⟩ := Option.bind_eq_some_iff.mp called
    obtain ⟨h₇, wrote₇, called⟩ := Option.bind_eq_some_iff.mp called
    exact header_mapped ((assign_brk wrote₆).1.trans ((assign_brk wrote₉).1.trans
      ((assign_brk wrote₈).1.trans start))) first (assign_mapped wrote₇)

/-- Once the break has moved up, the new block is linked in, or writing its
header faults. -/
theorem extendHeap_up (moved : h.sbrk ((40 + a) % 2 ^ 64) = some h₁) (up : h.brk ≤ h₁.brk)
    (read : last ≠ 0 → h.Mapped 8 (last + 16)) :
    extendHeap h last a =
      if h₁.Mapped 40 h.brk then some (appended h₁ h.brk last a, h.brk) else none := by
  obtain ⟨base, -, -⟩ := sbrk_inv moved
  have upper := h.upper
  have high := h.high
  have start : data h.brk = h.brk + 40 := Nat.mod_eq_of_lt (by omega)
  split
  · next head =>
      have link : last ≠ 0 → h₁.Mapped 8 (last + 16) := by
        intro some
        obtain ⟨low, end_⟩ := read some
        refine ⟨base.trans_le low, end_.trans ?_⟩
        unfold Heap.limit
        omega
      have linked : ∀ g : Heap, g.Mapped 8 (last + 16) →
          g.assign .next last h.brk = some (g.set .next last h.brk) := fun g mapped => if_pos mapped
      unfold extendHeap appended
      simp only [moved, Heap.assign_eq, Heap.mapped_set, head, Option.bind_eq_bind,
        Option.bind_some, start]
      by_cases none : last = 0
      · simp only [if_pos none]
      · simp only [if_neg none, linked, Heap.mapped_set, link none, Option.bind_some,
          Heap.assign_eq, head]
  · next unmapped =>
      rw [Option.eq_none_iff_forall_ne_some]
      intro r called
      exact unmapped (extendHeap_inv moved called)

/-- The law where `my_malloc` asks the kernel for a new block; `root` is what it
does to the heap at the end. -/
theorem law_new (root : Heap → Nat → Heap)
    (made : myMalloc h n = (extendHeap h last (align8 n)).bind fun r =>
      if r.2 = 0 then some (r.1, 0) else some (root r.1 r.2, data r.2))
    (asked : granted h n = h.sbrk ((40 + align8 n) % 2 ^ 64))
    (read : last ≠ 0 → h.Mapped 8 (last + 16))
    (same : ∀ g, (root g h.brk).brk = g.brk ∧ (root g h.brk).base = g.base ∧
      (root g h.brk).mem = g.mem) :
    SizeLaw h n request (thenZero (myMalloc h n) k) ↔
      NewFits h (align8 n) last request (8 * k) := by
  have upper := h.upper
  have high := h.high
  have lower := h.lower
  have low := h.low
  rcases moved : h.sbrk ((40 + align8 n) % 2 ^ 64) with _ | h₁
  · rw [moved] at asked
    refine iff_of_true (law_null ?_ asked) fun h₁ got => ?_
    · rw [made]
      unfold extendHeap
      simp only [moved]
      rfl
    · rw [moved] at got
      cases got
  rw [moved] at asked
  obtain ⟨base, up, down⟩ := sbrk_inv moved
  by_cases small : (40 + align8 n) % 2 ^ 64 < 2 ^ 63
  · have up : h.brk ≤ h₁.brk := (Nat.le_add_right _ _).trans_eq (up small).symm
    have during : ∀ h₂, granted h n = some h₂ → h.brk ≤ h₂.brk := by
      intro h₂ got
      rw [asked] at got
      rwa [← Option.some.inj got]
    have built := extendHeap_up moved up read
    by_cases mapped : h₁.Mapped 40 h.brk
    · rw [if_pos mapped] at built
      rw [built, Option.bind_some, if_neg (show h.brk ≠ 0 by omega),
        show data h.brk = h.brk + 40 from Nat.mod_eq_of_lt (by omega)] at made
      obtain ⟨brk, base', mem⟩ := same (appended h₁ h.brk last (align8 n))
      rw [appended_brk] at brk
      rw [law_served made (by omega) during (up.trans_eq brk.symm), faults_congr brk
        (base'.trans appended_base),
        show (root (appended h₁ h.brk last (align8 n)) h.brk).get .size h.brk = _ from
          (congrArg (load · 8 h.brk) mem).trans appended_size]
      constructor
      · rintro served h₂ got
        obtain rfl := Option.some.inj (moved.symm.trans got)
        exact ⟨small, served.imp_right .inr⟩
      · intro fits
        rcases (fits h₁ moved).2 with enough | unmapped | faults
        · exact .inl enough
        · exact absurd mapped unmapped
        · exact .inr faults
    · rw [if_neg mapped] at built
      rw [built] at made
      refine iff_of_true (law_fault made during) fun h₂ got => ?_
      obtain rfl := Option.some.inj (moved.symm.trans got)
      exact ⟨small, .inr (.inl mapped)⟩
  · refine iff_of_false (fun law => ?_) fun fits => small (fits h₁ moved).1
    have below := down (by omega) (Nat.mod_lt _ (by norm_num))
    have above := law.during h₁ asked
    omega

/-! ## Blocks that are found -/

theorem align8_lt (wide : n < 2 ^ 64) : align8 n < 2 ^ 64 := by
  unfold align8
  split
  · exact wide
  · exact Nat.mod_lt _ (by norm_num)

/-- What `my_malloc` does with a block that suits. -/
theorem found_result (wide : n < 2 ^ 64) (suited : suits h (align8 n) p = some true)
    (made : myMalloc h n = (h.fetch .size p).bind fun s =>
      (if 40 + 8 ≤ sub64 s (align8 n) then blockSplit h p (align8 n) else some (h, p)).bind fun r =>
        (r.1.assign .free r.2 0).bind fun h' => some (h', data r.2)) :
    (align8 n + 48 ≤ h.get .size p ∧ blockSplit h p (align8 n) = none ∧ myMalloc h n = none) ∨
      ∃ h', myMalloc h n = some (h', p + 40) ∧ p + 40 < 2 ^ 64 ∧ h'.brk = h.brk ∧
        h'.base = h.base ∧ (align8 n + 48 ≤ h.get .size p → blockSplit h p (align8 n) ≠ none) ∧
        h'.get .size p = if align8 n + 48 ≤ h.get .size p then align8 n else h.get .size p := by
  obtain ⟨mapped, read, enough⟩ := suits_inv suited
  have size : h.get .size p < 2 ^ 64 := load_lt
  have bound := h.limit_lt
  have inside := mapped.2
  have start : data p = p + 40 := Nat.mod_eq_of_lt (by omega)
  have left : sub64 (h.get .size p) (align8 n) = h.get .size p - align8 n := sub64_size enough
  rw [read, Option.bind_some, left] at made
  by_cases large : align8 n + 48 ≤ h.get .size p
  · rw [if_pos (show 40 + 8 ≤ h.get .size p - align8 n by omega)] at made
    rcases cut : blockSplit h p (align8 n) with _ | ⟨h₁, x⟩
    · rw [cut] at made
      exact .inl ⟨large, rfl, made⟩
    · obtain ⟨rfl, ⟨brk, base⟩, size'⟩ := blockSplit_inv cut
        (fun s got => by
          rw [← get_of_fetch got, left]
          omega) (align8_lt wide)
      have mapped' : h₁.Mapped 4 (x + 24) := by
        unfold Heap.Mapped Heap.limit
        rw [brk, base]
        exact mapped
      rw [cut, Option.bind_some, show h₁.assign .free x 0 = some (h₁.set .free x 0) from
        if_pos mapped', Option.bind_some, start] at made
      refine .inr ⟨_, made, by omega, brk, base, fun _ => by simp, ?_⟩
      rw [if_pos large, Heap.get_set (by simp), size']
  · rw [if_neg (show ¬ 40 + 8 ≤ h.get .size p - align8 n by omega), Option.bind_some,
      show h.assign .free p 0 = some (h.set .free p 0) from if_pos mapped, Option.bind_some,
      start] at made
    refine .inr ⟨_, made, by omega, rfl, rfl, fun yes => absurd yes large, ?_⟩
    rw [if_neg large, Heap.get_set (by simp)]

theorem law_found (wide : n < 2 ^ 64) (suited : suits h (align8 n) p = some true)
    (made : myMalloc h n = (h.fetch .size p).bind fun s =>
      (if 40 + 8 ≤ sub64 s (align8 n) then blockSplit h p (align8 n) else some (h, p)).bind fun r =>
        (r.1.assign .free r.2 0).bind fun h' => some (h', data r.2))
    (asked : granted h n = none) :
    SizeLaw h n request (thenZero (myMalloc h n) k) ↔
      FoundFits h (align8 n) p request (8 * k) := by
  have during : ∀ h₁, granted h n = some h₁ → h.brk ≤ h₁.brk := by
    intro h₁ got
    rw [asked] at got
    cases got
  rcases found_result wide suited made with ⟨large, cut, none⟩ |
    ⟨h', called, small, brk, base, cut, size⟩
  · exact iff_of_true (law_fault none during) (.inr (.inl ⟨large, cut⟩))
  · rw [law_served called small during brk.ge, faults_congr brk base, size]
    constructor
    · exact fun served => served.imp_right .inr
    · rintro (enough | ⟨large, faulted⟩ | faults)
      · exact .inl enough
      · exact absurd faulted (cut large)
      · exact .inr faults

/-! ## The requests that are served as asked -/

/-- The law for a request of `n` bytes, `8 * k` of which are zeroed. -/
theorem law_iff (wide : n < 2 ^ 64) :
    SizeLaw h n request (thenZero (myMalloc h n) k) ↔ RequestFits h n request (8 * k) := by
  unfold RequestFits
  by_cases zero : n = 0
  · rw [if_pos zero]
    refine iff_of_true (law_null ?_ ?_) trivial
    · unfold myMalloc
      exact if_pos zero
    · exact if_pos zero
  rw [if_neg zero]
  by_cases empty : h.first = 0
  · rw [if_pos empty]
    refine law_new (fun g ptr => { g with first := ptr }) ?_ ?_ (absurd rfl)
      fun g => ⟨rfl, rfl, rfl⟩
    · unfold myMalloc
      rw [if_neg zero, if_pos empty]
      rfl
    · unfold granted
      rw [if_neg zero, if_pos empty]
  rw [if_neg empty]
  have called : myMalloc h n = (findBlock h h.first (align8 n)).bind fun r =>
      if r.1 = 0 then (extendHeap h r.2 (align8 n)).bind fun r =>
        if r.2 = 0 then some (r.1, 0) else some (r.1, data r.2)
      else (h.fetch .size r.1).bind fun s =>
        (if 40 + 8 ≤ sub64 s (align8 n) then blockSplit h r.1 (align8 n)
          else some (h, r.1)).bind fun r =>
          (r.1.assign .free r.2 0).bind fun h' => some (h', data r.2) := by
    unfold myMalloc
    rw [if_neg zero, if_neg empty]
    refine congrArg _ (funext fun r => ?_)
    dsimp only
    split
    · rfl
    · refine congrArg _ (funext fun s => ?_)
      split <;> rfl
  have asked : granted h n = match findBlock h h.first (align8 n) with
      | some (ptr, _) => if ptr = 0 then h.sbrk ((40 + align8 n) % 2 ^ 64) else none
      | none => none := by
    unfold granted
    rw [if_neg zero, if_neg empty]
  rcases search : findBlock h h.first (align8 n) with _ | ⟨p, last⟩
  · rw [search] at called asked
    refine iff_of_true (law_fault called fun h₁ got => ?_) trivial
    rw [asked] at got
    cases got
  · rw [search] at called asked
    rw [Option.bind_some] at called
    obtain ⟨suited, passed⟩ := findLoop_inv search
    dsimp only at called asked ⊢
    by_cases none : p = 0
    · rw [if_pos none] at called asked ⊢
      refine law_new (fun g _ => g) called asked (fun _ => ?_) fun g => ⟨rfl, rfl, rfl⟩
      rcases passed none with ⟨zero, -⟩ | ⟨-, e, read⟩
      · exact absurd zero empty
      · exact mapped_of_fetch read
    · rw [if_neg none] at called asked ⊢
      exact law_found wide (suited none) called asked

/-- `my_malloc(size)` and `my_calloc(num, size)` keep the law in exactly the
heaps, and for exactly the requests, where nothing wraps that matters. -/
theorem request_law_iff (h : Heap) (num size : UInt64) :
    (SizeLaw h size.toNat size.toNat (myMalloc h size.toNat) ↔
      RequestFits h size.toNat size.toNat 0) ∧
    (SizeLaw h (num.toNat * size.toNat % 2 ^ 64) (num.toNat * size.toNat)
        (myCalloc h num.toNat size.toNat) ↔
      RequestFits h (num.toNat * size.toNat % 2 ^ 64) (num.toNat * size.toNat)
        (8 * (align8 (num.toNat * size.toNat % 2 ^ 64) / 8))) := by
  constructor
  · have law : SizeLaw h size.toNat size.toNat (thenZero (myMalloc h size.toNat) 0) ↔
        RequestFits h size.toNat size.toNat (8 * 0) := law_iff size.toNat_lt
    rwa [thenZero_zero] at law
  · rw [myCalloc_eq]
    exact law_iff (Nat.mod_lt _ (by norm_num))

/-- In a heap whose list is in order, every request that stays below `2 ^ 63`
with its header is served as asked. -/
theorem Tiles.requestFits {l : List Nat} {zeroed : Nat} (tiles : Tiles h l) (fits : Fits n)
    (small : 40 + align8 n < 2 ^ 63) : RequestFits h n n zeroed := by
  obtain ⟨enough, -, -, -, -⟩ := fits.align8
  have fresh : ∀ last, last = 0 ∨ last + 24 ≤ h.brk → NewFits h (align8 n) last n zeroed := by
    intro last apart h₁ _
    rw [Nat.mod_eq_of_lt (by omega), sizeLeft_eq (by omega) (apart.imp_right .inl)]
    exact ⟨small, .inl enough⟩
  unfold RequestFits
  rw [if_neg (show n ≠ 0 from Nat.ne_of_gt fits.1)]
  split
  · exact fresh 0 (.inl rfl)
  · next some =>
      rcases first_suited h (align8 n) l with unsuited | ⟨l₁, d, l₂, rfl, unsuited, suited⟩
      · rw [tiles.find_none h.first unsuited]
        dsimp only
        rw [if_pos rfl]
        refine fresh _ (.inr ?_)
        have last : l.getLastD h.first ∈ l := by
          rcases List.eq_nil_or_concat l with rfl | ⟨l, x, rfl⟩
          · exact absurd tiles.first some
          · simp
        have below := (pairwise_stop tiles.spans).2 _ last
        have stop := @lt_stop h (l.getLastD h.first)
        omega
      · rw [tiles.find_some h.first unsuited suited]
        dsimp only
        rw [if_neg (tiles.ne_zero (by simp))]
        have large := suited.2
        refine .inl ?_
        split
        · exact enough
        · omega

/-- The law fails on a fresh heap for `my_malloc(2 ^ 64 - 1)`, whose block has
size 0, and for `my_calloc(2 ^ 60 + 1, 16)`, whose block has size 16; after
`my_malloc(4096)` the break goes down in `my_malloc(2 ^ 64 - 56)`. -/
theorem request_law_fails :
    ¬ SizeLaw freshHeap (2 ^ 64 - 1) (2 ^ 64 - 1) (myMalloc freshHeap (2 ^ 64 - 1)) ∧
    ¬ SizeLaw freshHeap ((2 ^ 60 + 1) * 16 % 2 ^ 64) ((2 ^ 60 + 1) * 16)
      (myCalloc freshHeap (2 ^ 60 + 1) 16) ∧
    ∃ h p, myMalloc freshHeap 4096 = some (h, p) ∧
      ¬ SizeLaw h (2 ^ 64 - 56) (2 ^ 64 - 56) (myMalloc h (2 ^ 64 - 56)) := by
  have short : (myMalloc freshHeap (2 ^ 64 - 1)).map
      (fun r => (r.2, r.1.get .size (getBlock r.2))) = some (65576, 0) := by decide +kernel
  have wrapped : (myCalloc freshHeap (2 ^ 60 + 1) 16).map
      (fun r => (r.2, r.1.get .size (getBlock r.2))) = some (65576, 16) := by decide +kernel
  have down : ((myMalloc freshHeap 4096).bind fun r =>
      (myMalloc r.1 (2 ^ 64 - 56)).map fun s => (r.1.brk, s.1.brk)) = some (69672, 69656) := by
    decide +kernel
  refine ⟨fun law => ?_, fun law => ?_, ?_⟩
  · obtain ⟨⟨h', q⟩, called, eq⟩ := Option.map_eq_some_iff.mp short
    obtain ⟨rfl, size⟩ := Prod.mk.inj eq
    exact absurd ((law.size h' _ called (by decide)).trans_eq size) (by decide)
  · obtain ⟨⟨h', q⟩, called, eq⟩ := Option.map_eq_some_iff.mp wrapped
    obtain ⟨rfl, size⟩ := Prod.mk.inj eq
    exact absurd ((law.size h' _ called (by decide)).trans_eq size) (by decide)
  · obtain ⟨⟨h, p⟩, first, second⟩ := Option.bind_eq_some_iff.mp down
    obtain ⟨⟨h', q⟩, called, eq⟩ := Option.map_eq_some_iff.mp second
    obtain ⟨before, after⟩ := Prod.mk.inj eq
    refine ⟨h, p, first, fun law => ?_⟩
    exact absurd (before.symm.trans_le ((law.after h' q called).trans_eq after)) (by decide)

end Shang.Malloc
