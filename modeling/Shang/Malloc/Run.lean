import Mathlib.Data.List.Chain
import Shang.Lib.Run
import Shang.Malloc.Alloc
import Shang.Malloc.Release

/-!
# Runs of the allocator

A client calls `my_malloc`, `my_calloc` and `my_free` in any order and writes to
what it was handed out. `live` is its own account of that: the pointers it
holds, with the number of bytes it asked for.

Two slips make the code break its lists. `my_free` gives a last block back to
the kernel and leaves the `next` of the block before it pointing at it, and
`block_split` leaves the `prev` of the old successor pointing at the block that
was split. Besides, a request of nearly `2 ^ 63` bytes or more reaches `sbrk` as
a negative increment. `Spared` is the condition on a call not to run into
either. As long as every call meets it, the list tiles the heap, and no call
touches what others are using.
-/

namespace Shang.Malloc

open Lib

structure World where
  heap : Heap
  live : List (Nat × Nat)

inductive Call
  | malloc (size : Nat)
  | calloc (num size : Nat)
  | free (ptr : Nat)
  | write (addr : Nat) (byte : UInt8)

namespace World

/-- The client notes the pointer `ptr`, unless it is null. -/
def handOut (w : World) (h : Heap) (ptr size : Nat) : World where
  heap := h
  live := if ptr = 0 then w.live else (ptr, size) :: w.live

def step (w : World) : Call → Option World
  | .malloc size => do
    let (h, ptr) ← myMalloc w.heap size
    some (w.handOut h ptr size)
  | .calloc num size => do
    let (h, ptr) ← myCalloc w.heap num size
    some (w.handOut h ptr (num * size))
  | .free ptr => do
    let h ← myFree w.heap ptr
    some { heap := h, live := w.live.filter fun x => x.1 ≠ ptr }
  | .write addr byte => do
    let h ← w.heap.write 1 addr byte.toNat
    some { w with heap := h }

/-- What a client may do: ask for at least one byte, free what it holds and
write to it. -/
def Legal (w : World) : Call → Prop
  | .malloc size => Fits size
  | .calloc num size => Fits (num * size)
  | .free ptr => ∃ x ∈ w.live, x.1 = ptr
  | .write addr _ => ∃ x ∈ w.live, x.1 ≤ addr ∧ addr < x.1 + x.2

end World

/-- A request for `n` bytes neither splits a block that has a successor nor asks
the kernel for a negative increment that it grants. -/
def SparedRequest (h : Heap) (n : Nat) : Prop :=
  (∀ r ∈ findBlock h h.first (align8 n), r.1 ≠ 0 → align8 n + 48 ≤ h.get .size r.1 →
    h.get .next r.1 = 0) ∧
  (40 + align8 n < 2 ^ 63 ∨ h.sbrk (40 + align8 n) = none)

/-- Freeing the block at `b` does not give a last block back that has one before
it: if `b` is last, it is the first block or the free second one. -/
def SparedRelease (h : Heap) (b : Nat) : Prop :=
  h.get .next b = 0 → h.get .prev b = 0 ∨
    h.get .free (h.get .prev b) ≠ 0 ∧ h.get .prev (h.get .prev b) = 0

/-- The call does not run into one of the slips. -/
def World.Spared (w : World) : Call → Prop
  | .malloc size => SparedRequest w.heap size
  | .calloc num size => SparedRequest w.heap (num * size)
  | .free ptr => SparedRelease w.heap (getBlock ptr)
  | .write _ _ => True

instance World.Legal.decidable (w : World) : ∀ c, Decidable (w.Legal c)
  | .malloc _ => inferInstanceAs (Decidable (_ ∧ _))
  | .calloc _ _ => inferInstanceAs (Decidable (_ ∧ _))
  | .free ptr => inferInstanceAs (Decidable (∃ x ∈ w.live, x.1 = ptr))
  | .write addr _ => inferInstanceAs (Decidable (∃ x ∈ w.live, x.1 ≤ addr ∧ addr < x.1 + x.2))

instance (h : Heap) (n : Nat) : Decidable (SparedRequest h n) :=
  have : Decidable (h.sbrk (40 + align8 n) = none) := decidable_of_iff _ Option.isNone_iff_eq_none
  inferInstanceAs (Decidable (_ ∧ _))

instance World.Spared.decidable (w : World) : ∀ c, Decidable (w.Spared c)
  | .malloc size => inferInstanceAs (Decidable (SparedRequest w.heap size))
  | .calloc num size => inferInstanceAs (Decidable (SparedRequest w.heap (num * size)))
  | .free _ => inferInstanceAs (Decidable (_ → _))
  | .write _ _ => inferInstanceAs (Decidable True)

/-! ## The invariant -/

variable {w w' : World} {h h' : Heap} {c : Call} {n p d x y : Nat} {l l' l₁ l₂ k₁ k₂ : List Nat}

/-- The representation invariant, and what the client holds is what is in use:
no two free blocks lie side by side, and the last block is in use. -/
structure Good (w : World) (l : List Nat) : Prop where
  tiling : Tiling w.heap l
  calm : l.IsChain fun x y => w.heap.get .free x = 0 ∨ w.heap.get .free y = 0
  last : ∀ x ∈ l.getLast?, w.heap.get .free x = 0
  held : ∀ a ∈ w.live, ∃ b ∈ l, a.1 = b + 40 ∧ w.heap.get .free b = 0 ∧ 1 ≤ a.2 ∧
    a.2 ≤ w.heap.get .size b
  used : ∀ b ∈ l, w.heap.get .free b = 0 → ∃ a ∈ w.live, a.1 = b + 40
  distinct : w.live.Pairwise fun a b => a.1 ≠ b.1

/-- Among the bytes that were handed out the call changes at most those that it
was given. -/
def Untouched (w w' : World) (c : Call) : Prop :=
  ∀ a ∈ w.live, ∀ i < a.2,
    c = .free a.1 ∨ (∃ v, c = .write (a.1 + i) v) ∨ w'.heap.mem (a.1 + i) = w.heap.mem (a.1 + i)

/-! ## Requests -/

/-- A free block of a good heap has another one behind it, which is in use. -/
theorem Good.behind (good : Good w (l₁ ++ d :: l₂)) (free : w.heap.get .free d ≠ 0) :
    ∃ e k, l₂ = e :: k ∧ w.heap.get .free e = 0 := by
  rcases l₂ with _ | ⟨e, k⟩
  · exact absurd (good.last d (by simp)) free
  · have pair := (List.isChain_append_cons_cons.mp good.calm).2.1
    exact ⟨e, k, rfl, pair.resolve_left free⟩

/-- A spared request hands out a block that the list had already, or a new last
one, and keeps the representation invariant. -/
theorem request_spec (good : Good w l) (fits : Fits n) (spared : SparedRequest w.heap n) :
    myMalloc w.heap n = some (w.heap, 0) ∨
      ∃ h' d l', myMalloc w.heap n = some (h', d + 40) ∧ Tiling h' l' ∧
        Handed w.heap h' l l' d (align8 n) ∧ (l' = l ∨ l' = l ++ [d]) := by
  have tiles := good.tiling.toTiles
  rcases first_suited w.heap (align8 n) l with unsuited | ⟨l₁, d, l₂, rfl, unsuited, suited⟩
  · by_cases room : w.heap.brk + (40 + align8 n) ≤ w.heap.room
    · obtain ⟨h', called, first, extends_⟩ := myMalloc_grow tiles fits unsuited room
      have handed := extends_.handed tiles first
      refine .inr ⟨h', w.heap.brk, l ++ [w.heap.brk], called, ⟨handed.tiles, ?_⟩, handed, .inr rfl⟩
      obtain ⟨front, next, -⟩ := path_append.mp handed.tiles.links
      exact seg_append.mpr ⟨good.tiling.doubly.of_path front extends_.prev, extends_.prev_new,
        next, trivial⟩
    · have refused : w.heap.sbrk (40 + align8 n) = none := by
        rcases spared.2 with positive | refused
        · exact sbrk_refused (by omega) positive
        · exact refused
      exact .inl (myMalloc_refused tiles fits unsuited refused)
  · obtain ⟨e, k, rfl, -⟩ := good.behind suited.1
    have memD : d ∈ l₁ ++ d :: e :: k := by simp
    have memE : e ∈ l₁ ++ d :: e :: k := by simp
    have next : w.heap.get .next d = e := tiles.next_eq
    have tight : w.heap.get .size d < align8 n + 48 := by
      by_contra large
      have found := tiles.find_some w.heap.first unsuited suited
      have last : w.heap.get .next d = 0 :=
        spared.1 (d, l₁.getLastD w.heap.first) found (tiles.ne_zero memD) (Nat.le_of_not_lt large)
      exact tiles.ne_zero memE (next.symm.trans last)
    have handed := handed_whole tiles suited
    refine .inr ⟨_, d, _, myMalloc_whole tiles fits unsuited suited tight, ⟨handed.tiles, ?_⟩,
      handed, .inl rfl⟩
    exact good.tiling.doubly.of_path handed.tiles.links handed.prev

theorem Good.mem_held (good : Good w l) (mem : d ∈ l) (free : w.heap.get .free d ≠ 0)
    {a : Nat × Nat} (memA : a ∈ w.live) : a.1 ≠ d + 40 := by
  obtain ⟨b, -, start, used, -⟩ := good.held a memA
  rintro same
  obtain rfl : b = d := by omega
  exact free used

theorem handOut_eq (ne : p ≠ 0) : w.handOut h' p n = ⟨h', (p, n) :: w.live⟩ :=
  congrArg (World.mk h') (if_neg ne)

/-- The client holds what it was handed out as well. -/
theorem Good.handOut (good : Good w l) {m : Nat} (tiling : Tiling h' l')
    (handed : Handed w.heap h' l l' d m) (shape : l' = l ∨ l' = l ++ [d]) (pos : 1 ≤ n)
    (le : n ≤ m) : Good ⟨h', (d + 40, n) :: w.live⟩ l' := by
  have fresh : ∀ a ∈ w.live, a.1 ≠ d + 40 := by
    intro a memA
    by_cases old : d ∈ l
    · exact good.mem_held old (handed.was_free old) memA
    · obtain ⟨b, mem, start, -⟩ := good.held a memA
      rintro same
      exact old (by rwa [show d = b by omega])
  have used : ∀ y ∈ l, w.heap.get .free y = 0 → h'.get .free y = 0 := by
    intro y mem free
    by_cases same : y = d
    · rw [same]
      exact handed.used
    · rw [(handed.keeps y mem same).2.free, free]
  have calm : l.IsChain fun x y => h'.get .free x = 0 ∨ h'.get .free y = 0 :=
    good.calm.imp_of_mem_imp fun x y memX memY => Or.imp (used x memX) (used y memY)
  refine ⟨tiling, ?_, ?_, ?_, ?_, ?_⟩
  · rcases shape with rfl | rfl
    · exact calm
    · refine List.isChain_append.mpr ⟨calm, List.isChain_singleton d, fun x _ y mem => .inr ?_⟩
      rw [← Option.mem_some.mp mem]
      exact handed.used
  · rcases shape with rfl | rfl
    · exact fun x mem => used x (List.mem_of_getLast? mem) (good.last x mem)
    · intro x mem
      rw [List.getLast?_concat, Option.mem_some] at mem
      rw [← mem]
      exact handed.used
  · intro a mem
    rcases List.mem_cons.mp mem with rfl | mem
    · exact ⟨d, handed.mem, rfl, handed.used, pos, le.trans handed.room⟩
    · obtain ⟨b, memB, start, free, pos, room⟩ := good.held a mem
      have other : b ≠ d := fun same => fresh a mem (same ▸ start)
      obtain ⟨memB', keeps⟩ := handed.keeps b memB other
      exact ⟨b, memB', start, keeps.free.trans free, pos, room.trans_eq keeps.size.symm⟩
  · intro b mem (free : h'.get .free b = 0)
    by_cases same : b = d
    · exact ⟨_, List.mem_cons_self, by rw [same]⟩
    · have old : b ∈ l := by
        rcases shape with rfl | rfl
        · exact mem
        · exact (List.mem_append.mp mem).resolve_right (by simpa using same)
      rw [(handed.keeps b old same).2.free] at free
      obtain ⟨a, memA, start⟩ := good.used b old free
      exact ⟨a, List.mem_cons_of_mem _ memA, start⟩
  · exact List.pairwise_cons.mpr ⟨fun a mem => (fresh a mem).symm, good.distinct⟩

/-- Writing to what the client holds keeps the heap good. -/
theorem Good.write (good : Good w l) {a k : Nat} {live : List (Nat × Nat)}
    (writes : Writes w.heap h' a k) (mem : d ∈ l) (low : d + 40 ≤ a)
    (high : a + k ≤ w.heap.stop d) (same : w.live = live) : Good ⟨h', live⟩ l := by
  have tiles := good.tiling.toTiles
  have get : ∀ y ∈ l, ∀ g, h'.get g y = w.heap.get g y :=
    fun y memY g => writes.get tiles mem low high memY
  subst same
  refine ⟨⟨writes.tile tiles mem low high, ?_⟩, ?_, ?_, ?_, ?_, good.distinct⟩
  · exact good.tiling.doubly.congr fun y memY => ⟨get y memY _, get y memY _⟩
  · exact good.calm.imp_of_mem_imp fun x y memX memY => Or.imp ((get x memX _).trans ·)
      ((get y memY _).trans ·)
  · exact fun x memX => (get x (List.mem_of_getLast? memX) _).trans (good.last x memX)
  · intro a memA
    obtain ⟨b, memB, start, free, pos, room⟩ := good.held a memA
    exact ⟨b, memB, start, (get b memB _).trans free, pos, room.trans_eq (get b memB _).symm⟩
  · exact fun b memB free => good.used b memB ((get b memB _).symm.trans free)

/-- What is in use stays as it was where its blocks are kept. -/
theorem Good.untouched (good : Good w l)
    (keeps : ∀ b ∈ l, w.heap.get .free b = 0 → Keeps w.heap w'.heap b) : Untouched w w' c := by
  intro a mem i inside
  obtain ⟨b, memB, start, free, -, room⟩ := good.held a mem
  have stop : w.heap.stop b = b + 40 + w.heap.get .size b := rfl
  exact .inr (.inr ((keeps b memB free).data (a.1 + i) (by omega) (by omega)))

theorem malloc_good (good : Good w l) (fits : Fits n) (spared : SparedRequest w.heap n) :
    ∃ w' l', w.step (.malloc n) = some w' ∧ Good w' l' ∧ Untouched w w' (.malloc n) := by
  rcases request_spec good fits spared with called | ⟨h', d, l', called, tiling, handed, shape⟩
  · refine ⟨w, l, ?_, good, fun _ _ _ _ => .inr (.inr rfl)⟩
    simp only [World.step, called, Option.bind_eq_bind, Option.bind_some, World.handOut, if_pos]
  · refine ⟨_, l', ?_, good.handOut tiling handed shape fits.1 fits.align8.1, ?_⟩
    · simp only [World.step, called, Option.bind_eq_bind, Option.bind_some,
        handOut_eq (Nat.succ_ne_zero _)]
    · exact good.untouched fun b mem used => (handed.keeps_used mem used).2.2

theorem calloc_good {num size : Nat} (good : Good w l) (fits : Fits (num * size))
    (spared : SparedRequest w.heap (num * size)) :
    ∃ w' l', w.step (.calloc num size) = some w' ∧ Good w' l' ∧
      Untouched w w' (.calloc num size) := by
  obtain ⟨-, -, aligned, pos, bound⟩ := fits.align8
  have small : num * size % 2 ^ 64 = num * size := by
    apply Nat.mod_eq_of_lt
    have wide := fits.2
    omega
  rcases request_spec good fits spared with called | ⟨h', d, l', called, tiling, handed, shape⟩
  · refine ⟨w, l, ?_, good, fun _ _ _ _ => .inr (.inr rfl)⟩
    simp only [World.step, myCalloc, small, called, Option.bind_eq_bind, Option.bind_some,
      World.handOut, if_pos]
  · have good' := good.handOut tiling handed shape fits.1 fits.align8.1
    have room := handed.room
    have stop : h'.stop d = d + 40 + h'.get .size d := rfl
    have words : 8 * (align8 (num * size) / 8) = align8 (num * size) := by omega
    have mapped : h'.Mapped (8 * (align8 (num * size) / 8)) (d + 40 + 8 * 0) :=
      handed.tiles.mapped handed.mem (by omega) (by omega)
    obtain ⟨h'', zeroed, writes⟩ := zeroWords_spec 0 mapped
    refine ⟨_, l', ?_, good'.write writes handed.mem (by omega)
      (show _ ≤ h'.stop d by omega) rfl, ?_⟩
    · simp only [World.step, myCalloc, small, called, Option.bind_eq_bind, Option.bind_some,
        if_neg (Nat.succ_ne_zero _), zeroed, handOut_eq (Nat.succ_ne_zero _)]
    · refine good.untouched fun b mem used => ?_
      obtain ⟨other, mem', keeps⟩ := handed.keeps_used mem used
      exact keeps.trans
        (writes.keeps handed.tiles handed.mem (by omega) (by omega) mem' other)

theorem write_good {a : Nat} {v : UInt8} (good : Good w l)
    (held : ∃ x ∈ w.live, x.1 ≤ a ∧ a < x.1 + x.2) :
    ∃ w' l', w.step (.write a v) = some w' ∧ Good w' l' ∧ Untouched w w' (.write a v) := by
  obtain ⟨x, memX, low, high⟩ := held
  obtain ⟨b, memB, start, -, -, room⟩ := good.held x memX
  have stop : w.heap.stop b = b + 40 + w.heap.get .size b := rfl
  have wrote : w.heap.write 1 a v.toNat = some (w.heap.put 1 a v.toNat) :=
    if_pos (good.tiling.mapped memB (by omega) (by omega))
  have writes : Writes w.heap (w.heap.put 1 a v.toNat) a 1 := Writes.put _
  refine ⟨⟨_, w.live⟩, l, ?_, good.write writes memB (by omega) (by omega) rfl, ?_⟩
  · simp only [World.step, wrote, Option.bind_eq_bind, Option.bind_some]
  · intro y _ i _
    by_cases same : a = y.1 + i
    · exact .inr (.inl ⟨v, by rw [same]⟩)
    · exact .inr (.inr (writes.mem _ (by omega)))

/-! ## Releases -/

section Release

variable {b : Nat} {k₁ k₂ : List Nat}

theorem Good.prev_eq (good : Good w (l₁ ++ b :: l₂)) : w.heap.get .prev b = l₁.getLastD 0 :=
  good.tiling.doubly.prev_eq

theorem Good.prev_zero (good : Good w (l₁ ++ b :: l₂)) (none : w.heap.get .prev b = 0) :
    l₁ = [] := by
  rcases List.eq_nil_or_concat l₁ with rfl | ⟨l₁, z, rfl⟩
  · rfl
  · rw [good.prev_eq, List.concat_eq_append, getLastD_append_cons, List.getLastD_nil] at none
    exact absurd none (good.tiling.ne_zero (by simp))

theorem Good.back (good : Good w (l₁ ++ b :: l₂)) : Back w.heap l₁ b :=
  back_of_last good.prev_eq

/-- The blocks that the merged one lies between. -/
theorem Front.calm (good : Good w (l₁ ++ b :: l₂)) (front : Front w.heap l₁ b k₁ x) :
    k₁.IsChain (fun x y => w.heap.get .free x = 0 ∨ w.heap.get .free y = 0) ∧
      ∀ y ∈ k₁.getLast?, w.heap.get .free y = 0 := by
  have chain := good.calm.left_of_append
  rcases front with ⟨rfl, rfl, used⟩ | ⟨rfl, free⟩
  · refine ⟨chain, fun y mem => ?_⟩
    obtain ⟨k₁, rfl⟩ := List.getLast?_eq_some_iff.mp mem
    have prev := good.prev_eq
    rw [getLastD_append_cons, List.getLastD_nil] at prev
    rw [prev] at used
    exact used (good.tiling.ne_zero (by simp))
  · obtain ⟨chain, -, seam⟩ := List.isChain_append.mp chain
    exact ⟨chain, fun y mem => (seam y mem x rfl).resolve_right free⟩

theorem Behind.calm (good : Good w (l₁ ++ b :: l₂)) (behind : Behind w.heap l₂ k₂) :
    k₂.IsChain (fun x y => w.heap.get .free x = 0 ∨ w.heap.get .free y = 0) ∧
      ∀ y ∈ k₂.head?, w.heap.get .free y = 0 := by
  have chain : l₂.IsChain _ := good.calm.right_of_append.tail
  rcases behind with ⟨rfl, used⟩ | ⟨e, rfl, free⟩
  · exact ⟨chain, used⟩
  · obtain ⟨seam, chain⟩ := List.isChain_cons.mp chain
    exact ⟨chain, fun y mem => (seam y mem).resolve_left free⟩

theorem Behind.last (good : Good w (l₁ ++ b :: l₂)) (behind : Behind w.heap l₂ k₂) :
    ∀ y ∈ k₂.getLast?, w.heap.get .free y = 0 := by
  intro y mem
  obtain ⟨k, rfl⟩ := List.getLast?_eq_some_iff.mp mem
  apply good.last
  rcases behind with ⟨rfl, -⟩ | ⟨e, rfl, -⟩
  · rw [← List.cons_append, ← List.append_assoc, List.getLast?_concat]
    rfl
  · rw [← List.cons_append, ← List.cons_append, ← List.append_assoc, List.getLast?_concat]
    rfl

/-- The last block is in use: merging with it is no way to leave nothing behind. -/
theorem Behind.nil (good : Good w (l₁ ++ b :: l₂)) (behind : Behind w.heap l₂ []) : l₂ = [] := by
  rcases behind with ⟨rfl, -⟩ | ⟨e, rfl, free⟩
  · rfl
  · exact absurd (good.last e (by simp)) free

/-- The merged block is the only free one among its neighbours. -/
theorem Good.calm_joined (good : Good w (l₁ ++ b :: l₂)) (front : Front w.heap l₁ b k₁ x)
    (behind : Behind w.heap l₂ k₂) (keeps : ∀ y ∈ k₁ ++ k₂, Keeps w.heap h' y) :
    (k₁ ++ x :: k₂).IsChain fun y z => h'.get .free y = 0 ∨ h'.get .free z = 0 := by
  obtain ⟨chain₁, calm₁⟩ := front.calm good
  obtain ⟨chain₂, calm₂⟩ := behind.calm good
  have before : ∀ y ∈ k₁, w.heap.get .free y = 0 → h'.get .free y = 0 :=
    fun y mem used => (keeps y (List.mem_append_left _ mem)).free.trans used
  have beyond : ∀ y ∈ k₂, w.heap.get .free y = 0 → h'.get .free y = 0 :=
    fun y mem used => (keeps y (List.mem_append_right _ mem)).free.trans used
  refine List.isChain_append.mpr ⟨?_, List.isChain_cons.mpr ⟨?_, ?_⟩, ?_⟩
  · exact chain₁.imp_of_mem_imp fun y z memY memZ => Or.imp (before y memY) (before z memZ)
  · exact fun y mem => .inr (beyond y (List.mem_of_head? mem) (calm₂ y mem))
  · exact chain₂.imp_of_mem_imp fun y z memY memZ => Or.imp (beyond y memY) (beyond z memZ)
  · exact fun y mem _ _ => .inl (before y (List.mem_of_getLast? mem) (calm₁ y mem))

/-- Areas in other blocks stay as they are. -/
theorem Good.untouched_free (good : Good w (l₁ ++ b :: l₂)) {w' : World}
    (keeps : ∀ y ∈ l₁ ++ l₂, w.heap.get .free y = 0 → Keeps w.heap w'.heap y) :
    Untouched w w' (.free (b + 40)) := by
  intro a mem i inside
  obtain ⟨y, memY, start, used, -, room⟩ := good.held a mem
  have stop : w.heap.stop y = y + 40 + w.heap.get .size y := rfl
  by_cases same : y = b
  · exact .inl (by rw [start, same])
  · have kept := keeps y (mem_append_of_ne memY same) used
    exact .inr (.inr (kept.data (a.1 + i) (by omega) (by omega)))

/-- A spared release that leaves no block behind the merged one leaves none
before it. -/
theorem SparedRelease.alone (good : Good w (l₁ ++ [b])) (spared : SparedRelease w.heap b)
    (front : Front w.heap l₁ b k₁ x) : k₁ = [] := by
  rcases spared good.tiling.next_eq with none | ⟨free, none⟩
  · rcases front with ⟨rfl, -⟩ | ⟨rfl, -⟩
    · exact good.prev_zero none
    · exact absurd (good.prev_zero none) (by simp)
  · rcases front with ⟨rfl, -, used⟩ | ⟨rfl, -⟩
    · apply good.prev_zero
      by_contra some
      exact free (used some)
    · have prev := good.prev_eq
      rw [getLastD_append_cons, List.getLastD_nil] at prev
      rw [prev] at none
      rw [List.append_assoc] at good
      exact good.prev_zero none

/-- The blocks in use after a release are the ones before it, less the one freed. -/
theorem Good.release (good : Good w (l₁ ++ b :: l₂)) {l' : List Nat} (tiling : Tiling h' l')
    (calm : l'.IsChain fun x y => h'.get .free x = 0 ∨ h'.get .free y = 0)
    (last : ∀ x ∈ l'.getLast?, h'.get .free x = 0)
    (kept : ∀ y ∈ l₁ ++ l₂, w.heap.get .free y = 0 → y ∈ l' ∧ Keeps w.heap h' y)
    (older : ∀ y ∈ l', h'.get .free y = 0 → y ∈ l₁ ++ l₂ ∧ w.heap.get .free y = 0) :
    Good ⟨h', w.live.filter fun a => a.1 ≠ b + 40⟩ l' := by
  refine ⟨tiling, calm, last, ?_, ?_, good.distinct.filter _⟩
  · intro a mem
    obtain ⟨memA, other⟩ := List.mem_filter.mp mem
    obtain ⟨y, memY, start, used, pos, room⟩ := good.held a memA
    have apart : y ≠ b := by
      rintro rfl
      simp [start] at other
    obtain ⟨memL, keeps⟩ := kept y (mem_append_of_ne memY apart) used
    exact ⟨y, memL, start, keeps.free.trans used, pos, room.trans_eq keeps.size.symm⟩
  · intro y mem used
    obtain ⟨memY, used'⟩ := older y mem used
    obtain ⟨a, memA, start⟩ := good.used y (mem_append_cons memY) used'
    refine ⟨a, List.mem_filter.mpr ⟨memA, ?_⟩, start⟩
    have other := ne_of_mem_append good.tiling.nodup memY
    simpa [start] using other

theorem free_good (good : Good w l) (held : ∃ a ∈ w.live, a.1 = p)
    (spared : SparedRelease w.heap (getBlock p)) :
    ∃ w' l', w.step (.free p) = some w' ∧ Good w' l' ∧ Untouched w w' (.free p) := by
  obtain ⟨a, memA, rfl⟩ := held
  obtain ⟨b, memB, start, -⟩ := good.held a memA
  obtain ⟨l₁, l₂, rfl⟩ := List.append_of_mem memB
  have tiles := good.tiling.toTiles
  have high := tiles.high memB
  have after := @lt_stop w.heap b
  rw [start, getBlock_eq (tiles.low memB) (by omega)] at spared
  obtain ⟨h', k₁, x, k₂, called, front, behind, joined⟩ := myFree_spec tiles good.back
  have keeps : ∀ y ∈ k₁ ++ k₂, Keeps w.heap h' y :=
    fun y mem => joined.keeps_old tiles front behind mem
  have kept : ∀ y ∈ l₁ ++ l₂, w.heap.get .free y = 0 → y ∈ k₁ ++ k₂ :=
    fun y mem used => kept_of_merges front behind mem used
  have doubly : Seg (h'.get .next) (h'.get .prev) 0 (k₁ ++ x :: k₂) 0 :=
    joined.doubly (good.tiling.doubly.congr fun y mem =>
      ⟨tiles.mark_get memB mem (by simp), tiles.mark_get memB mem (by simp)⟩)
  rw [start]
  rcases k₂ with _ | ⟨e, k₂⟩
  · obtain rfl := behind.nil good
    obtain rfl := spared.alone good front
    have prev : h'.get .prev x = 0 := doubly.1
    have lower := (joined.tiles.block x (by simp)).low
    have upper := joined.tiles.stop_le (b := x) (by simp)
    have after := @lt_stop h' x
    obtain ⟨brk, base, first, -⟩ :=
      @brkTo_spec { h' with first := 0 } x lower (show x ≤ h'.brk by omega)
    have all : ∀ y ∈ l₁ ++ [], w.heap.get .free y ≠ 0 :=
      fun y mem used => absurd (kept y mem used) List.not_mem_nil
    refine ⟨⟨Heap.brkTo { h' with first := 0 } x, w.live.filter fun a => a.1 ≠ b + 40⟩, [], ?_, ?_,
      good.untouched_free fun y mem used => absurd used (all y mem)⟩
    · simp only [World.step, called, giveBack_only joined.tiles prev, Option.bind_eq_bind,
        Option.bind_some]
    · refine good.release ⟨⟨first, trivial, trivial, by simp⟩, trivial⟩ .nil (by simp) ?_ (by simp)
      exact fun y mem used => absurd used (all y mem)
  · refine ⟨⟨h', w.live.filter fun a => a.1 ≠ b + 40⟩, k₁ ++ x :: e :: k₂, ?_, ?_,
      good.untouched_free fun y mem used => keeps y (kept y mem used)⟩
    · simp only [World.step, called, giveBack_inner joined.tiles, Option.bind_eq_bind,
        Option.bind_some]
    · refine good.release ⟨joined.tiles, doubly⟩ (good.calm_joined front behind keeps) ?_ ?_ ?_
      · intro y mem
        have mem' : y ∈ (e :: k₂).getLast? := by simpa using mem
        have memK := List.mem_append_right k₁ (List.mem_of_getLast? mem')
        exact (keeps y memK).free.trans (behind.last good y mem')
      · intro y mem used
        have memK := kept y mem used
        exact ⟨mem_append_cons memK, keeps y memK⟩
      · intro y mem used
        have apart : y ≠ x := by
          rintro rfl
          exact joined.freed used
        have memK := mem_append_of_ne mem apart
        exact ⟨old_of_merges front behind memK, (keeps y memK).free.symm.trans used⟩

end Release

/-! ## Runs -/

/-- What a client relies on: its areas are apart from each other, below the
break and off the headers. -/
structure Safe (w : World) : Prop where
  disjoint : w.live.Pairwise fun a b => a.1 + a.2 ≤ b.1 ∨ b.1 + b.2 ≤ a.1
  below : ∀ a ∈ w.live, a.1 + a.2 ≤ w.heap.brk
  headers : ∀ a ∈ w.live, ∀ b, Listed w.heap b → b + 40 ≤ a.1 ∨ a.1 + a.2 ≤ b

theorem Good.safe (good : Good w l) : Safe w := by
  have tiles := good.tiling.toTiles
  refine ⟨good.distinct.imp_of_mem ?_, ?_, ?_⟩
  · intro x y memX memY ne
    obtain ⟨b, memB, startB, -, -, roomB⟩ := good.held x memX
    obtain ⟨c, memC, startC, -, -, roomC⟩ := good.held y memY
    have stopB : w.heap.stop b = b + 40 + w.heap.get .size b := rfl
    have stopC : w.heap.stop c = c + 40 + w.heap.get .size c := rfl
    rcases tiles.apart memB memC with same | before | behind <;> omega
  · intro a mem
    obtain ⟨b, memB, start, -, -, room⟩ := good.held a mem
    have stop : w.heap.stop b = b + 40 + w.heap.get .size b := rfl
    have below := tiles.stop_le memB
    omega
  · intro a mem c listed
    obtain ⟨b, memB, start, -, -, room⟩ := good.held a mem
    have stop : w.heap.stop b = b + 40 + w.heap.get .size b := rfl
    have after := @lt_stop w.heap c
    rcases tiles.apart memB (tiles.listed_iff.mp listed) with same | before | behind <;> omega

/-- Every spared call of a lawful client returns, and keeps the heap good. -/
theorem step_good (good : ∃ l, Good w l) (allowed : w.Legal c ∧ w.Spared c) :
    ∃ w', w.step c = some w' ∧ (∃ l, Good w' l) ∧ Untouched w w' c := by
  obtain ⟨l, good⟩ := good
  obtain ⟨legal, spared⟩ := allowed
  have spec : ∃ w' l', w.step c = some w' ∧ Good w' l' ∧ Untouched w w' c := by
    cases c with
    | malloc size => exact malloc_good good legal spared
    | calloc num size => exact calloc_good good legal spared
    | free ptr => exact free_good good legal spared
    | write addr byte => exact write_good good legal
  obtain ⟨w', l', stepped, good', untouched⟩ := spec
  exact ⟨w', stepped, ⟨l', good'⟩, untouched⟩

theorem start_good (empty : h.first = 0) : Good ⟨h, []⟩ [] :=
  ⟨⟨⟨empty, trivial, trivial, nofun⟩, trivial⟩, .nil, nofun, nofun, nofun, .nil⟩

theorem run_good (empty : h.first = 0) (calls : List Call)
    (allowed : Along World.step (fun w c => w.Legal c ∧ w.Spared c) ⟨h, []⟩ calls) :
    ∃ w, run World.step ⟨h, []⟩ calls = some w ∧ ∃ l, Good w l :=
  run_total (I := fun w => ∃ l, Good w l)
    (fun good allowed => by
      obtain ⟨w', stepped, good', -⟩ := step_good good allowed
      exact ⟨w', stepped, good'⟩)
    ⟨[], start_good empty⟩ allowed

/-- A heap of two pages that nothing has been asked of. -/
def freshHeap : Heap where
  base := 65536
  room := 73728
  brk := 65536
  mem := fun _ => 0
  first := 0
  low := by decide
  lower := by decide
  upper := by decide
  high := by decide

/-- As long as every call is spared, the list tiles the heap, and it is empty
when the client holds nothing. -/
theorem tiling_run (empty : h.first = 0) (calls : List Call)
    (allowed : Along World.step (fun w c => w.Legal c ∧ w.Spared c) ⟨h, []⟩ calls) :
    ∃ w, run World.step ⟨h, []⟩ calls = some w ∧ (∃ l, Tiling w.heap l) ∧
      (w.live = [] → w.heap.first = 0) := by
  obtain ⟨w, ran, l, good⟩ := run_good empty calls allowed
  refine ⟨w, ran, ⟨l, good.tiling⟩, fun none => ?_⟩
  rcases List.eq_nil_or_concat l with rfl | ⟨l, b, rfl⟩
  · exact good.tiling.first
  · rw [List.concat_eq_append] at good
    obtain ⟨a, mem, -⟩ := good.used b (by simp) (good.last b List.getLast?_concat)
    rw [none] at mem
    exact absurd mem List.not_mem_nil

/-- A block is freed and used again, and two blocks are merged. -/
theorem tiling_run_merge :
    ∃ w, run World.step ⟨freshHeap, []⟩ [.malloc 8, .malloc 16, .malloc 20, .free 65624, .malloc 5,
        .free 65576, .free 65624] = some w ∧ (∃ l, Tiling w.heap l) ∧
      (w.live = [] → w.heap.first = 0) :=
  tiling_run rfl _ (by decide +kernel)

/-- Freeing the last of two blocks leaves the first one linked to it. -/
theorem tiling_dangling :
    ∃ w, Along World.step World.Legal ⟨freshHeap, []⟩ [.malloc 8, .malloc 8, .free 65624] ∧
      run World.step ⟨freshHeap, []⟩ [.malloc 8, .malloc 8, .free 65624] = some w ∧
      ¬ ∃ l, Tiling w.heap l := by
  have ends : (run World.step ⟨freshHeap, []⟩ [.malloc 8, .malloc 8, .free 65624]).map
      (fun w => (w.heap.first, w.heap.get .next 65536, w.heap.brk)) =
      some (65536, 65584, 65584) := by decide +kernel
  obtain ⟨w, ran, ends⟩ := Option.map_eq_some_iff.mp ends
  refine ⟨w, by decide +kernel, ran, fun ⟨l, tiling⟩ => ?_⟩
  obtain ⟨first, next, brk⟩ : w.heap.first = 65536 ∧ w.heap.get .next 65536 = 65584 ∧
      w.heap.brk = 65584 := by simpa using ends
  have listed : Listed w.heap (w.heap.get .next w.heap.first) :=
    (Listed.first (by omega)).next (by rw [first, next]; decide)
  rw [first, next] at listed
  have below := tiling.stop_le (tiling.listed_iff.mp listed)
  have after := @lt_stop w.heap 65584
  omega

/-- As long as every call is spared, what the client holds is apart, below the
break and off the headers, and no call changes what it was not given. -/
theorem client_safe_run (empty : h.first = 0) (calls : List Call) (c : Call)
    (allowed : Along World.step (fun w c => w.Legal c ∧ w.Spared c) ⟨h, []⟩ (calls ++ [c])) :
    ∃ w w', run World.step ⟨h, []⟩ calls = some w ∧ w.step c = some w' ∧
      Safe w ∧ Safe w' ∧ Untouched w w' c := by
  obtain ⟨before, last⟩ := along_append.mp allowed
  obtain ⟨w, ran, good⟩ := run_good empty calls before
  obtain ⟨w', stepped, good', untouched⟩ := step_good good (last w ran).1
  exact ⟨w, w', ran, stepped, good.choose_spec.safe, good'.choose_spec.safe, untouched⟩

/-- A call writes into one area while another area is in use. -/
theorem client_safe_run_calloc :
    ∃ w w', run World.step ⟨freshHeap, []⟩ [.malloc 8, .calloc 2 8, .malloc 20, .free 65576,
        .write 65624 7] = some w ∧ w.step (.calloc 1 3) = some w' ∧ Safe w ∧ Safe w' ∧
      Untouched w w' (.calloc 1 3) :=
  client_safe_run rfl _ _ (by decide +kernel)

/-- After the last of two blocks has been freed, the next request is served with
the block that was given back, above the break. -/
theorem client_above_break :
    ∃ w, Along World.step World.Legal ⟨freshHeap, []⟩ [.malloc 8, .malloc 8, .free 65624,
        .malloc 8] ∧
      run World.step ⟨freshHeap, []⟩ [.malloc 8, .malloc 8, .free 65624, .malloc 8] = some w ∧
      ¬ Safe w := by
  have ends : (run World.step ⟨freshHeap, []⟩ [.malloc 8, .malloc 8, .free 65624, .malloc 8]).map
      (fun w => (w.live, w.heap.brk)) = some ([(65624, 8), (65576, 8)], 65584) := by
    decide +kernel
  obtain ⟨w, ran, ends⟩ := Option.map_eq_some_iff.mp ends
  refine ⟨w, by decide +kernel, ran, fun safe => ?_⟩
  obtain ⟨live, brk⟩ : w.live = [(65624, 8), (65576, 8)] ∧ w.heap.brk = 65584 := by
    simpa using ends
  have below := safe.below (65624, 8) (by simp [live])
  omega

/-! ## Coalescing -/

/-- Of two blocks side by side in the list one is in use, and so is the last one. -/
structure Coalesced (h : Heap) : Prop where
  apart : ∀ b, Listed h b → h.get .next b ≠ 0 →
    h.get .free b = 0 ∨ h.get .free (h.get .next b) = 0
  last : ∀ b, Listed h b → h.get .next b = 0 → h.get .free b = 0

theorem Good.coalesced (good : Good w l) : Coalesced w.heap := by
  have tiles := good.tiling.toTiles
  refine ⟨fun b listed some => ?_, fun b listed none => ?_⟩
  · obtain ⟨l₁, l₂, rfl⟩ := List.append_of_mem (tiles.listed_iff.mp listed)
    rw [tiles.next_eq] at some ⊢
    rcases l₂ with _ | ⟨e, l₂⟩
    · exact absurd rfl some
    · exact (List.isChain_append_cons_cons.mp good.calm).2.1
  · obtain ⟨l₁, l₂, rfl⟩ := List.append_of_mem (tiles.listed_iff.mp listed)
    rw [tiles.next_eq] at none
    rcases l₂ with _ | ⟨e, l₂⟩
    · exact good.last b (by simp)
    · exact absurd none (tiles.ne_zero (by simp))

/-- As long as every call is spared, no two free blocks lie side by side, and the last one is in
use. -/
theorem coalesced_run (empty : h.first = 0) (calls : List Call)
    (allowed : Along World.step (fun w c => w.Legal c ∧ w.Spared c) ⟨h, []⟩ calls) :
    ∃ w, run World.step ⟨h, []⟩ calls = some w ∧ Coalesced w.heap := by
  obtain ⟨w, ran, l, good⟩ := run_good empty calls allowed
  exact ⟨w, ran, good.coalesced⟩

/-- A block is merged with the one before it, and both are used again as one. -/
theorem coalesced_run_merge :
    ∃ w, run World.step ⟨freshHeap, []⟩ [.malloc 8, .malloc 16, .malloc 20, .free 65576,
        .free 65624, .malloc 60] = some w ∧ Coalesced w.heap :=
  coalesced_run rfl _ (by decide +kernel)

/-- The last of two blocks stays in the list when it is freed. -/
theorem coalesced_dangling :
    ∃ w, Along World.step World.Legal ⟨freshHeap, []⟩ [.malloc 8, .malloc 8, .free 65624] ∧
      run World.step ⟨freshHeap, []⟩ [.malloc 8, .malloc 8, .free 65624] = some w ∧
      ¬ Coalesced w.heap := by
  have ends : (run World.step ⟨freshHeap, []⟩ [.malloc 8, .malloc 8, .free 65624]).map
      (fun w => (w.heap.first, w.heap.get .next 65536, w.heap.get .next 65584,
        w.heap.get .free 65584)) = some (65536, 65584, 0, 1) := by decide +kernel
  obtain ⟨w, ran, ends⟩ := Option.map_eq_some_iff.mp ends
  refine ⟨w, by decide +kernel, ran, fun coalesced => ?_⟩
  obtain ⟨first, next, none, free⟩ : w.heap.first = 65536 ∧ w.heap.get .next 65536 = 65584 ∧
      w.heap.get .next 65584 = 0 ∧ w.heap.get .free 65584 = 1 := by simpa using ends
  have listed : Listed w.heap (w.heap.get .next w.heap.first) :=
    (Listed.first (by omega)).next (by rw [first, next]; decide)
  rw [first, next] at listed
  have used := coalesced.last 65584 listed none
  omega

end Shang.Malloc
