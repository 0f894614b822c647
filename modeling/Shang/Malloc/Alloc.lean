import Shang.Malloc.Tiling

/-!
# What `my_malloc` hands out

A request is served in one of four ways: by the first free block that is large
enough, whole or cut, by a new last block, or not at all. Each has one lemma,
and `Handed` is what the first three have in common.
-/

namespace Shang.Malloc

open Lib

variable {h h' : Heap} {n a b d x y : Nat} {l l' l₁ l₂ : List Nat}

/-- The size of the block for a request of `n` bytes neither wraps around when
it is rounded up nor when the header is added. -/
def Fits (n : Nat) : Prop :=
  1 ≤ n ∧ (n + 7) / 8 * 8 + 40 < 2 ^ 64

theorem Fits.align8 (fits : Fits n) :
    n ≤ align8 n ∧ align8 n < n + 8 ∧ align8 n % 8 = 0 ∧ 0 < align8 n ∧ 40 + align8 n < 2 ^ 64 := by
  obtain ⟨pos, small⟩ := fits
  obtain ⟨low, high, aligned⟩ := align8_spec (n := n) (by omega)
  exact ⟨low, high, aligned, by omega, by omega⟩

/-- From the blocks `l` of `h` the block `d` was handed out for `n` bytes, which
left the blocks `l'` of `h'`. -/
structure Handed (h h' : Heap) (l l' : List Nat) (d n : Nat) : Prop where
  tiles : Tiles h' l'
  mem : d ∈ l'
  used : h'.get .free d = 0
  room : n ≤ h'.get .size d
  was_free : d ∈ l → h.get .free d ≠ 0
  keeps : ∀ y ∈ l, y ≠ d → y ∈ l' ∧ Keeps h h' y
  prev : ∀ y ∈ l, h'.get .prev y = h.get .prev y

/-- A block in use is not the one handed out. -/
theorem Handed.keeps_used (handed : Handed h h' l l' d n) (mem : b ∈ l)
    (used : h.get .free b = 0) : b ≠ d ∧ b ∈ l' ∧ Keeps h h' b := by
  have other : b ≠ d := by
    rintro rfl
    exact handed.was_free mem used
  exact ⟨other, handed.keeps b mem other⟩

section Reuse

variable (tiles : Tiles h (l₁ ++ d :: l₂)) (fits : Fits n)
  (unsuited : ∀ b ∈ l₁, ¬ Suits h (align8 n) b) (suited : Suits h (align8 n) d)
include tiles fits unsuited suited

/-- The block is found, and may be cut before it is marked. -/
theorem myMalloc_suited :
    myMalloc h n =
      (if align8 n + 48 ≤ h.get .size d then blockSplit h d (align8 n) else some (h, d)).bind
        fun r => (r.1.assign .free r.2 0).bind fun h' => some (h', data r.2) := by
  have memD : d ∈ l₁ ++ d :: l₂ := by simp
  have found := tiles.find_some h.first unsuited suited
  have slack : (40 + 8 ≤ h.get .size d - align8 n) = (align8 n + 48 ≤ h.get .size d) :=
    propext (by omega)
  have some : n ≠ 0 := Nat.ne_of_gt fits.1
  simp only [myMalloc, if_neg some, if_neg (tiles.first_ne_zero memD), found, Option.bind_eq_bind,
    Option.bind_some, if_neg (tiles.ne_zero memD), Heap.fetch_eq (tiles.header memD),
    sub64_size suited.2, slack]
  split <;> rfl

omit fits unsuited suited in
/-- The bytes of a block begin behind its header. -/
theorem data_eq : data d = d + 40 := by
  have high := tiles.high (b := d) (by simp)
  have stop : h.stop d = d + 40 + h.get .size d := rfl
  exact Nat.mod_eq_of_lt (by omega)

/-- A block that is not much larger is handed out whole. -/
theorem myMalloc_whole (tight : h.get .size d < align8 n + 48) :
    myMalloc h n = some (h.set .free d 0, d + 40) := by
  have head := tiles.header (b := d) (by simp)
  rw [myMalloc_suited tiles fits unsuited suited, if_neg (by omega), Option.bind_some,
    Heap.assign_eq head, Option.bind_some, data_eq tiles]

/-- A block that is much larger is cut. -/
theorem myMalloc_cut (slack : align8 n + 48 ≤ h.get .size d) :
    myMalloc h n = some ((splitOff h d (align8 n)).set .free d 0, d + 40) := by
  have memD : d ∈ l₁ ++ d :: l₂ := by simp
  have head : (splitOff h d (align8 n)).Mapped 40 d := by
    unfold Heap.Mapped Heap.limit
    rw [splitOff_base, splitOff_brk]
    exact tiles.header memD
  rw [myMalloc_suited tiles fits unsuited suited, if_pos slack, blockSplit_eq tiles memD slack,
    Option.bind_some, Heap.assign_eq head, Option.bind_some, data_eq tiles]

end Reuse

section Handed

variable (tiles : Tiles h (l₁ ++ d :: l₂)) (suited : Suits h n d)
include tiles suited

theorem handed_whole : Handed h (h.set .free d 0) (l₁ ++ d :: l₂) (l₁ ++ d :: l₂) d n := by
  have memD : d ∈ l₁ ++ d :: l₂ := by simp
  refine ⟨tiles.mark memD, memD, Heap.get_set_self (by simp) (by simp), ?_, fun _ => suited.1,
    fun y mem ne => ⟨mem, tiles.mark_keeps memD mem ne⟩,
    fun y mem => tiles.mark_get memD mem fun _ => nofun⟩
  rw [tiles.mark_get memD memD (by simp)]
  exact suited.2

theorem handed_cut (pos : 0 < n) (aligned : n % 8 = 0) (slack : n + 48 ≤ h.get .size d) :
    Handed h ((splitOff h d n).set .free d 0) (l₁ ++ d :: l₂) (l₁ ++ d :: (d + 40 + n) :: l₂) d
      n := by
  have memD : d ∈ l₁ ++ d :: l₂ := by simp
  have memD' : d ∈ l₁ ++ d :: (d + 40 + n) :: l₂ := by simp
  have tiles' := tiles.split slack pos aligned
  obtain ⟨size, -⟩ := splitOff_header slack (tiles.high memD)
  have grown : ∀ y ∈ l₁ ++ d :: l₂, y ∈ l₁ ++ d :: (d + 40 + n) :: l₂ := by
    intro y mem
    rcases List.mem_append.mp mem with mem | mem
    · exact List.mem_append_left _ mem
    · rcases List.mem_cons.mp mem with rfl | mem
      · exact memD'
      · simp [mem]
  refine ⟨tiles'.mark memD', memD', Heap.get_set_self (by simp) (by simp), ?_, fun _ => suited.1,
    ?_, ?_⟩
  · rw [tiles'.mark_get memD' memD' (by simp), size]
  · intro y mem ne
    have other : y ∈ l₁ ++ l₂ := mem_append_of_ne mem ne
    exact ⟨grown y mem, (tiles.split_keeps slack other).trans
      (tiles'.mark_keeps memD' (grown y mem) ne)⟩
  · intro y mem
    rw [tiles'.mark_get memD' (grown y mem) (by simp)]
    apply splitOff_get slack
    have after := @lt_stop h y
    rcases tiles.apart mem memD with same | before | behind
    · exact .inr (.inr ⟨same, nofun, nofun⟩)
    · exact .inl (after.trans before)
    · exact .inr (.inl behind)

end Handed

/-! ## New blocks -/

theorem Extends.rooted (extends_ : Extends h h' l n) (first : h'.first = (l ++ [h.brk]).headD 0) :
    Tiles h' (l ++ [h.brk]) := by
  have tiles := extends_.tiles
  rwa [← first] at tiles

theorem Extends.handed (extends_ : Extends h h' l n) (tiles : Tiles h l)
    (first : h'.first = (l ++ [h.brk]).headD 0) : Handed h h' l (l ++ [h.brk]) h.brk n where
  tiles := extends_.rooted first
  mem := by simp
  used := extends_.free_new
  room := extends_.size_new.ge
  was_free mem := by
    have below := tiles.stop_le mem
    have after := @lt_stop h h.brk
    omega
  keeps y mem _ := ⟨List.mem_append_left _ mem, extends_.keeps y mem⟩
  prev := extends_.prev

section Grow

variable (tiles : Tiles h l) (fits : Fits n) (unsuited : ∀ b ∈ l, ¬ Suits h (align8 n) b)
include tiles fits unsuited

/-- Where no block suits, a new last block is handed out. -/
theorem myMalloc_grow (room : h.brk + (40 + align8 n) ≤ h.room) :
    ∃ h', myMalloc h n = some (h', h.brk + 40) ∧ h'.first = (l ++ [h.brk]).headD 0 ∧
      Extends h h' l (align8 n) := by
  obtain ⟨-, -, aligned, pos, -⟩ := fits.align8
  obtain ⟨h', grown, first, extends_⟩ := tiles.extend pos aligned room
  have low := h.low
  have lower := h.lower
  have high := h.high
  have start : data h.brk = h.brk + 40 := Nat.mod_eq_of_lt (by omega)
  have some : n ≠ 0 := by
    have pos := fits.1
    omega
  have new : h.brk ≠ 0 := by omega
  rcases l with _ | ⟨b, l⟩
  · have empty : h.first = 0 := tiles.first
    refine ⟨{ h' with first := h.brk }, ?_, rfl, ⟨extends_.tiles, nofun, nofun, extends_.prev_new,
      extends_.size_new, extends_.free_new, extends_.fresh⟩⟩
    rw [List.getLastD_nil] at grown
    simp only [myMalloc, if_neg some, if_pos empty, grown, Option.bind_eq_bind, Option.bind_some,
      if_neg new, start]
  · refine ⟨h', ?_, first.trans tiles.first, extends_⟩
    have found := tiles.find_none h.first unsuited
    rw [List.getLastD_cons] at found grown
    simp only [myMalloc, if_neg some, if_neg (tiles.first_ne_zero List.mem_cons_self), found, grown,
      Option.bind_eq_bind, Option.bind_some, if_pos, if_neg new, start]

/-- Where the kernel refuses to make room for it, the request fails. -/
theorem myMalloc_refused (refused : h.sbrk (40 + align8 n) = none) :
    myMalloc h n = some (h, 0) := by
  obtain ⟨-, -, -, -, small⟩ := fits.align8
  have some : n ≠ 0 := by
    have pos := fits.1
    omega
  rcases l with _ | ⟨b, l⟩
  · have empty : h.first = 0 := tiles.first
    simp only [myMalloc, if_neg some, if_pos empty, extendHeap_refused refused small,
      Option.bind_eq_bind, Option.bind_some, if_pos]
  · have found := tiles.find_none h.first unsuited
    simp only [myMalloc, if_neg some, if_neg (tiles.first_ne_zero List.mem_cons_self), found,
      extendHeap_refused refused small, Option.bind_eq_bind, Option.bind_some, if_pos]

end Grow

/-- A list has a first element that suits, or none. -/
theorem first_suited (h : Heap) (n : Nat) (l : List Nat) :
    (∀ b ∈ l, ¬ Suits h n b) ∨
      ∃ l₁ d l₂, l = l₁ ++ d :: l₂ ∧ (∀ b ∈ l₁, ¬ Suits h n b) ∧ Suits h n d := by
  cases found : l.find? fun b => decide (Suits h n b) with
  | none =>
      left
      intro b mem
      simpa using List.find?_eq_none.mp found b mem
  | some d =>
      obtain ⟨suited, l₁, l₂, rfl, unsuited⟩ := List.find?_eq_some_iff_append.mp found
      right
      refine ⟨l₁, d, l₂, rfl, ?_, by simpa using suited⟩
      intro b mem
      simpa using unsuited b mem

/-! ## Zeroing what is handed out -/

theorem Writes.put (v : Nat) : Writes h (h.put n a v) a n :=
  ⟨rfl, rfl, rfl, fun _ off => store_off off⟩

theorem Writes.trans {h'' : Heap} {k : Nat} (first : Writes h h' a n)
    (second : Writes h' h'' (a + n) k) : Writes h h'' a (n + k) where
  base := second.base.trans first.base
  brk := second.brk.trans first.brk
  first := second.first.trans first.first
  mem x off := (second.mem x (by omega)).trans (first.mem x (by omega))

theorem Writes.mapped {k : Nat} (writes : Writes h h' a n) (mapped : h.Mapped k x) :
    h'.Mapped k x := by
  unfold Heap.Mapped Heap.limit
  rw [writes.base, writes.brk]
  exact mapped

/-- Zeroing words that are mapped writes to them only. -/
theorem zeroWords_spec (i : Nat) (mapped : h.Mapped (8 * n) (a + 8 * i)) :
    ∃ h', zeroWords a n i h = some h' ∧ Writes h h' (a + 8 * i) (8 * n) := by
  induction n generalizing h i with
  | zero => exact ⟨h, rfl, rfl, rfl, rfl, fun _ _ => rfl⟩
  | succ n ih =>
      have bound := h.limit_lt
      have inside := mapped.2
      have small : (a + 8 * i) % 2 ^ 64 = a + 8 * i := Nat.mod_eq_of_lt (by omega)
      have wrote : h.write 8 (a + 8 * i) 0 = some (h.put 8 (a + 8 * i) 0) :=
        if_pos (mapped.mono le_rfl (by omega))
      have first : Writes h (h.put 8 (a + 8 * i) 0) (a + 8 * i) 8 := Writes.put 0
      obtain ⟨h', rest, second⟩ := ih (i + 1) (first.mapped (mapped.mono (by omega) (by omega)))
      refine ⟨h', ?_, ?_⟩
      · simp only [zeroWords, small, wrote, Option.bind_eq_bind, Option.bind_some, rest]
      · have both := first.trans second
        rwa [show 8 + 8 * n = 8 * (n + 1) by omega] at both

/-! ## Steps that leave the break alone -/

theorem assign_inv {f : Field} {v : Nat} (wrote : h.assign f b v = some h') :
    h' = h.set f b v := by
  unfold Heap.assign Heap.write at wrote
  split at wrote
  · exact (Option.some.inj wrote).symm
  · cases wrote

theorem blockZero_brk (zeroed : blockZero n a h = some h') :
    h'.brk = h.brk ∧ h'.base = h.base := by
  induction n generalizing a h with
  | zero =>
      rw [← Option.some.inj zeroed]
      exact ⟨rfl, rfl⟩
  | succ n ih =>
      obtain ⟨h₁, wrote, rest⟩ := Option.bind_eq_some_iff.mp zeroed
      obtain ⟨brk, base⟩ := ih rest
      unfold Heap.write at wrote
      split at wrote
      · obtain rfl := (Option.some.inj wrote).symm
        exact ⟨brk, base⟩
      · cases wrote

/-- A split that is large enough returns the block it is given, if it returns, and
leaves it the size asked for. -/
theorem blockSplit_inv (called : blockSplit h b n = some (h', x))
    (large : ∀ s, h.fetch .size b = some s → 48 ≤ sub64 s n) (wide : n < 2 ^ 64) :
    x = b ∧ (h'.brk = h.brk ∧ h'.base = h.base) ∧ h'.get .size b = n := by
  obtain ⟨s, read, called⟩ := Option.bind_eq_some_iff.mp called
  have large := large s read
  rw [if_neg (by omega)] at called
  obtain ⟨h₁, zeroed, called⟩ := Option.bind_eq_some_iff.mp called
  obtain ⟨h₂, wrote₂, called⟩ := Option.bind_eq_some_iff.mp called
  obtain ⟨h₃, wrote₃, called⟩ := Option.bind_eq_some_iff.mp called
  obtain ⟨h₄, wrote₄, called⟩ := Option.bind_eq_some_iff.mp called
  obtain ⟨next, -, called⟩ := Option.bind_eq_some_iff.mp called
  obtain ⟨h₅, wrote₅, called⟩ := Option.bind_eq_some_iff.mp called
  obtain ⟨h₆, wrote₆, called⟩ := Option.bind_eq_some_iff.mp called
  obtain ⟨h₇, wrote₇, called⟩ := Option.bind_eq_some_iff.mp called
  obtain ⟨h₈, wrote₈, called⟩ := Option.bind_eq_some_iff.mp called
  obtain ⟨rfl, rfl⟩ := Prod.mk.inj (Option.some.inj called)
  rw [assign_inv wrote₈, assign_inv wrote₇]
  refine ⟨rfl, ?_, ?_⟩
  · rw [assign_inv wrote₆, assign_inv wrote₅, assign_inv wrote₄, assign_inv wrote₃,
      assign_inv wrote₂]
    simp only [Heap.set_brk, Heap.set_base]
    exact blockZero_brk zeroed
  · rw [Heap.get_set (by simp), Heap.get_set_self (by nofun) wide]

end Shang.Malloc
