import Shang.Malloc.Run

/-!
# Resizing

`my_realloc` is meant to leave the data where they are, cut down, or to move
them to a larger block. Three slips keep it from that. The test for a block that
can be cut down is made on the unsigned difference of the sizes, which is large
as well when the block is too small: every request to grow is taken for one to
shrink, and fails. Where a free block lies behind, the header is returned in
place of the data. And the number of words that are moved is counted in an `int`.

`ReallocMeets` is the contract, and `ReallocFits` the condition under which the
code meets it. An access outside the mapped pages ends the process, so the
contract asks for a result too.
-/

namespace Shang.Malloc

open Lib

variable {h h' h'' : Heap} {a b d i j n p s x y : Nat} {l l' l₁ l₂ : List Nat}

/-- The pointer `q` is the data of a listed block in use that has `n` bytes. -/
def InUse (h : Heap) (q n : Nat) : Prop :=
  ∃ b, q = b + 40 ∧ Listed h b ∧ h.get .magic b = q ∧ h.get .free b = 0 ∧ n ≤ h.get .size b ∧
    q + n ≤ h.brk

/-- The data of the block at `b` are where they were, below the break. -/
def Unchanged (h h' : Heap) (b : Nat) : Prop :=
  h.stop b ≤ h'.brk ∧ ∀ x, b + 40 ≤ x → x < h.stop b → h'.mem x = h.mem x

/-- The contract of `my_realloc` for the block at `b` among the blocks `l`, and
the new size `n`. -/
def ReallocMeets (h : Heap) (l : List Nat) (b n : Nat) : Prop :=
  ∃ h' q, myRealloc h (b + 40) n = some (h', q) ∧
    if q = 0 then
      InUse h' (b + 40) (h.get .size b) ∧ Unchanged h h' b
    else
      InUse h' q n ∧
      (∀ i < min (h.get .size b) n, h'.mem (q + i) = h.mem (b + 40 + i)) ∧
      ∀ y ∈ l, y ≠ b → h.get .free y = 0 → Unchanged h h' y

/-- The bytes that the loop of `copy_block_data` moves between blocks of `s` and
`d` bytes. -/
def moved (s d : Nat) : Nat :=
  8 * toInt (min d s / 8)

/-- The block that data of `a` bytes are moved to holds them already, as far as
they are not moved: a free block, which is cut where it is much larger, or new
memory, unless there is none. -/
def CopyReaches (h : Heap) (l : List Nat) (b a n : Nat) : Prop :=
  match l.find? fun d => decide (Suits h a d) with
  | some d =>
    ∀ i < n, moved (h.get .size b) (if a + 48 ≤ h.get .size d then a else h.get .size d) ≤ i →
      h.mem (d + 40 + i) = h.mem (b + 40 + i)
  | none =>
    h.sbrk (40 + a) = none ∨
    ∀ i < n, moved (h.get .size b) a ≤ i →
      (if h.limit ≤ h.brk + 40 + i then 0 else h.mem (h.brk + 40 + i)) = h.mem (b + 40 + i)

/-- The size stays the same, or is so much smaller that the block is cut; or it
is a little smaller, no free block lies behind, and the move reaches the end. -/
def ReallocFits (h : Heap) (l : List Nat) (b n : Nat) : Prop :=
  h.get .size b = align8 n ∨ align8 n + 48 ≤ h.get .size b ∨
    align8 n < h.get .size b ∧
      (h.get .next b ≠ 0 → h.get .free (h.get .next b) = 0) ∧ CopyReaches h l b (align8 n) n

/-! ## Moving data -/

/-- Copying words from one range to another leaves a copy there. -/
theorem copyWords_spec (i : Nat) (from_ : h.Mapped (8 * n) (a + 8 * i))
    (to_ : h.Mapped (8 * n) (d + 8 * i))
    (apart : a + 8 * i + 8 * n ≤ d + 8 * i ∨ d + 8 * i + 8 * n ≤ a + 8 * i) :
    ∃ h', copyWords a d n i h = some h' ∧ Writes h h' (d + 8 * i) (8 * n) ∧
      ∀ j < 8 * n, h'.mem (d + 8 * i + j) = h.mem (a + 8 * i + j) := by
  induction n generalizing h i with
  | zero => exact ⟨h, rfl, ⟨rfl, rfl, rfl, fun _ _ => rfl⟩, fun j none => absurd none (by omega)⟩
  | succ n ih =>
      have bound := h.limit_lt
      have endA := from_.2
      have endD := to_.2
      have smallA : (a + 8 * i) % 2 ^ 64 = a + 8 * i := Nat.mod_eq_of_lt (by omega)
      have smallD : (d + 8 * i) % 2 ^ 64 = d + 8 * i := Nat.mod_eq_of_lt (by omega)
      have loaded : h.read 8 (a + 8 * i) = some (load h.mem 8 (a + 8 * i)) :=
        if_pos (from_.mono le_rfl (by omega))
      have stored : h.write 8 (d + 8 * i) (load h.mem 8 (a + 8 * i))
          = some (h.put 8 (d + 8 * i) (load h.mem 8 (a + 8 * i))) :=
        if_pos (to_.mono le_rfl (by omega))
      have first : Writes h (h.put 8 (d + 8 * i) (load h.mem 8 (a + 8 * i))) (d + 8 * i) 8 :=
        Writes.put _
      have copied : ∀ j < 8, (h.put 8 (d + 8 * i) (load h.mem 8 (a + 8 * i))).mem (d + 8 * i + j)
          = h.mem (a + 8 * i + j) := fun j inside => store_load inside
      generalize h.put 8 (d + 8 * i) (load h.mem 8 (a + 8 * i)) = h₁ at stored first copied
      obtain ⟨h', rest, second, copied'⟩ := ih (i + 1)
        (first.mapped (from_.mono (by omega) (by omega)))
        (first.mapped (to_.mono (by omega) (by omega))) (by omega)
      refine ⟨h', ?_, ?_, ?_⟩
      · simp only [copyWords, smallA, smallD, loaded, stored, Option.bind_eq_bind, Option.bind_some,
          rest]
      · have both := first.trans second
        rwa [show 8 + 8 * n = 8 * (n + 1) by omega] at both
      · intro j inside
        by_cases word : j < 8
        · rw [second.mem _ (by omega), copied j word]
        · have later := copied' (j - 8) (by omega)
          rw [show d + 8 * (i + 1) + (j - 8) = d + 8 * i + j by omega,
            show a + 8 * (i + 1) + (j - 8) = a + 8 * i + j by omega] at later
          rw [later, first.mem _ (by omega)]

theorem toInt_le : toInt n ≤ n := by
  unfold toInt
  split <;> omega

theorem align8_self (aligned : n % 8 = 0) : align8 n = n :=
  if_pos aligned

/-- The copy fills the front of the block at `d` with the front of the one at `b`. -/
theorem copyBlockData_spec (tiles : Tiles h l) (memB : b ∈ l) (memD : d ∈ l) (ne : b ≠ d) :
    ∃ h', copyBlockData h b d = some (h', true) ∧
      Writes h h' (d + 40) (moved (h.get .size b) (h.get .size d)) ∧
      moved (h.get .size b) (h.get .size d) ≤ min (h.get .size d) (h.get .size b) ∧
      ∀ j < moved (h.get .size b) (h.get .size d), h'.mem (d + 40 + j) = h.mem (b + 40 + j) := by
  have blockB := tiles.block b memB
  have blockD := tiles.block d memD
  have highB := tiles.high memB
  have highD := tiles.high memD
  have stopB : h.stop b = b + 40 + h.get .size b := rfl
  have stopD : h.stop d = d + 40 + h.get .size d := rfl
  have posB := blockB.pos
  have posD := blockD.pos
  have startB : data b = b + 40 := Nat.mod_eq_of_lt (by omega)
  have startD : data d = d + 40 := Nat.mod_eq_of_lt (by omega)
  have words : (if h.get .size d ≤ h.get .size b then align8 (h.get .size d) / 8
      else align8 (h.get .size b) / 8) = min (h.get .size d) (h.get .size b) / 8 := by
    rw [align8_self blockD.aligned, align8_self blockB.aligned]
    split
    · next le => rw [min_eq_left le]
    · next gt => rw [min_eq_right (Nat.le_of_not_le gt)]
  have bound : moved (h.get .size b) (h.get .size d) ≤ min (h.get .size d) (h.get .size b) := by
    have le := @toInt_le (min (h.get .size d) (h.get .size b) / 8)
    unfold moved
    omega
  have within : moved (h.get .size b) (h.get .size d) ≤ h.get .size b ∧
      moved (h.get .size b) (h.get .size d) ≤ h.get .size d := by omega
  unfold moved at within ⊢
  have apart := tiles.apart memB memD
  obtain ⟨h', copied, writes, same⟩ :=
    copyWords_spec (n := toInt (min (h.get .size d) (h.get .size b) / 8)) 0
      (tiles.mapped memB (x := b + 40 + 8 * 0) (by omega) (by omega))
      (tiles.mapped memD (x := d + 40 + 8 * 0) (by omega) (by omega))
      (by rcases apart with eq | before | behind <;> omega)
  refine ⟨h', ?_, writes, bound, same⟩
  simp only [copyBlockData, Heap.fetch_eq (tiles.header memB), Heap.fetch_eq (tiles.header memD),
    Option.bind_eq_bind, Option.bind_some, if_neg (Nat.ne_of_gt posB), if_neg (Nat.ne_of_gt posD),
    words, startB, startD, copied]

/-- The `prev` of a block that writes to data leave alone. -/
theorem Back.congr (back : Back h l₁ b) (prev : h'.get .prev b = h.get .prev b)
    (free : ∀ y ∈ l₁, h'.get .free y = h.get .free y) : Back h' l₁ b := by
  unfold Back
  rw [prev]
  refine back.imp_right fun ⟨mem, last⟩ => ⟨mem, ?_⟩
  rw [free _ mem]
  exact last

theorem moveData_eq {h₂ h₃ : Heap} (called : myMalloc h n = some (h', d + 40))
    (blockB : getBlock (b + 40) = b) (blockD : getBlock (d + 40) = d) (ne : d ≠ 0)
    (copied : copyBlockData h' b d = some (h₂, true)) (freed : myFree h₂ (b + 40) = some h₃) :
    moveData h (b + 40) n = some (h₃, d + 40) := by
  have some : d + 40 ≠ 0 := by omega
  have some' : getBlock (d + 40) ≠ 0 := blockD.trans_ne ne
  unfold moveData
  rw [called, Option.bind_eq_bind, Option.bind_some]
  dsimp only
  rw [if_neg some, if_neg some', blockB, blockD, copied, Option.bind_eq_bind, Option.bind_some]
  dsimp only
  rw [if_pos rfl, freed, Option.bind_eq_bind, Option.bind_some]
/-- A block handed out, and another one in use whose `prev` is as `my_free` needs it. -/
theorem moveData_spec (handed : Handed h h' l l' d n) (tiles : Tiles h l) (memB : b ∈ l)
    (used : h.get .free b = 0) (split : l' = l₁ ++ b :: l₂) (back : Back h' l₁ b)
    (called : myMalloc h n = some (h', d + 40)) :
    ∃ h'', moveData h (b + 40) n = some (h'', d + 40) ∧ InUse h'' (d + 40) n ∧
      (∀ i < n, h''.mem (d + 40 + i) =
        if i < moved (h.get .size b) (h'.get .size d) then h.mem (b + 40 + i)
        else h'.mem (d + 40 + i)) ∧
      ∀ y ∈ l, y ≠ b → h.get .free y = 0 → Unchanged h h'' y := by
  obtain ⟨ne, memB', keepsB⟩ := handed.keeps_used memB used
  have tiles' := handed.tiles
  have highD := tiles'.high handed.mem
  have highB := tiles.high memB
  have afterB := @lt_stop h b
  have room := handed.room
  have stopD : h'.stop d = d + 40 + h'.get .size d := rfl
  have lowD := tiles'.low handed.mem
  have blockB := getBlock_eq (tiles.low memB) (by omega)
  have blockD := getBlock_eq lowD (by omega)
  obtain ⟨h₂, copied, writes, bound, same⟩ :=
    copyBlockData_spec tiles' memB' handed.mem ne
  rw [keepsB.size] at writes bound same
  have inside : d + 40 + moved (h.get .size b) (h'.get .size d) ≤ h'.stop d := by omega
  have get : ∀ y ∈ l', ∀ g, h₂.get g y = h'.get g y :=
    fun y mem g => writes.get tiles' handed.mem le_rfl inside mem
  have tiles₂ := writes.tile tiles' handed.mem le_rfl inside
  subst split
  have back₂ : Back h₂ l₁ b := back.congr (get b memB' _) fun y mem =>
    get y (List.mem_append_left _ mem) _
  have memD : d ∈ l₁ ++ l₂ := mem_append_of_ne handed.mem ne.symm
  have usedD : h₂.get .free d = 0 := (get d handed.mem _).trans handed.used
  obtain ⟨h₃, freed, kept⟩ := myFree_keeps tiles₂ back₂ memD usedD
  obtain ⟨keepsD, listed, below⟩ := kept d memD usedD
  have sizeD : h₃.get .size d = h'.get .size d := keepsD.size.trans (get d handed.mem _)
  have stop₂ : h₂.stop d = h'.stop d := congrArg (d + 40 + ·) (get d handed.mem _)
  refine ⟨h₃, ?_, ⟨d, rfl, listed, ?_, ?_, ?_, by omega⟩, ?_, ?_⟩
  · exact moveData_eq called blockB blockD (tiles'.ne_zero handed.mem) copied freed
  · exact keepsD.magic.trans ((get d handed.mem _).trans (tiles'.block d handed.mem).magic)
  · exact keepsD.free.trans usedD
  · omega
  · intro i short
    rw [keepsD.data _ (by omega) (by omega)]
    split
    · next early =>
        rw [same i early]
        exact keepsB.data _ (by omega) (show _ < b + 40 + h.get .size b by omega)
    · next late => exact writes.mem _ (by omega)
  · intro y memY other usedY
    obtain ⟨neY, memY', keepsY⟩ := handed.keeps_used memY usedY
    have keeps₂ := writes.keeps tiles' handed.mem le_rfl inside memY' neY
    obtain ⟨keeps₃, -, below⟩ := kept y (mem_append_of_ne memY' other)
      ((keepsY.trans keeps₂).free.trans usedY)
    have all := (keepsY.trans keeps₂).trans keeps₃
    have stop := (keepsY.trans keeps₂).stop
    exact ⟨stop ▸ below, all.data⟩

/-! ## The branches of `my_realloc` -/

section Branches

variable (tiles : Tiles h l) (memB : b ∈ l)
include tiles memB

/-- The block is found, and its header can be read. -/
theorem myRealloc_listed :
    myRealloc h (b + 40) n =
      if h.get .size b = align8 n then some (h, b + 40)
      else if 48 ≤ sub64 (h.get .size b) (align8 n) then
        (blockSplit h b (align8 n)).bind fun r =>
          if r.2 = 0 then moveData r.1 (b + 40) (align8 n) else some (r.1, data r.2)
      else
        (neighbourFree h (h.get .next b)).bind fun free =>
          if free ≠ 0 ∧ align8 n ≤ (h.get .size b + h.get .size b + 40) % 2 ^ 64 then
            (blockMerge h b).map fun h => (h, b)
          else
            moveData h (b + 40) (align8 n) := by
  have highB := tiles.high memB
  have afterB := @lt_stop h b
  have blockB := getBlock_eq (tiles.low memB) (by omega)
  unfold myRealloc
  dsimp only
  rw [if_neg (by omega), blockB, Heap.fetch_eq (tiles.header memB), Option.bind_eq_bind,
    Option.bind_some, Heap.fetch_eq (tiles.header memB)]
  simp only [Option.bind_eq_bind, Option.bind_some, Option.map_eq_bind]
  rfl

theorem myRealloc_same (same : h.get .size b = align8 n) :
    myRealloc h (b + 40) n = some (h, b + 40) := by
  rw [myRealloc_listed tiles memB, if_pos same]

theorem myRealloc_split (other : h.get .size b ≠ align8 n)
    (large : 48 ≤ sub64 (h.get .size b) (align8 n)) :
    myRealloc h (b + 40) n = (blockSplit h b (align8 n)).bind fun r =>
      if r.2 = 0 then moveData r.1 (b + 40) (align8 n) else some (r.1, data r.2) := by
  rw [myRealloc_listed tiles memB, if_neg other, if_pos large]

theorem myRealloc_beside (other : h.get .size b ≠ align8 n)
    (small : sub64 (h.get .size b) (align8 n) < 48) {free : Nat}
    (neighbour : neighbourFree h (h.get .next b) = some free) :
    myRealloc h (b + 40) n =
      if free ≠ 0 ∧ align8 n ≤ (h.get .size b + h.get .size b + 40) % 2 ^ 64 then
        (blockMerge h b).map fun h => (h, b)
      else
        moveData h (b + 40) (align8 n) := by
  rw [myRealloc_listed tiles memB, if_neg other, if_neg small.not_ge, neighbour, Option.bind_some]

end Branches

/-! ## The contract -/

section Contract

variable (tiling : Tiling h l) (memB : b ∈ l) (used : h.get .free b = 0)
include tiling memB used

theorem inUse_self (le : n ≤ h.get .size b) : InUse h (b + 40) n := by
  have below := tiling.stop_le memB
  have stop : h.stop b = b + 40 + h.get .size b := rfl
  exact ⟨b, rfl, tiling.listed_iff.mpr memB, (tiling.block b memB).magic, used, le, by omega⟩

theorem meets_same (fits : Fits n) (same : h.get .size b = align8 n) : ReallocMeets h l b n := by
  refine ⟨h, b + 40, myRealloc_same tiling.toTiles memB same, ?_⟩
  rw [if_neg (by omega)]
  exact ⟨inUse_self tiling memB used (fits.align8.1.trans_eq same.symm), fun _ _ => rfl,
    fun y mem _ _ => ⟨tiling.stop_le mem, fun _ _ _ => rfl⟩⟩

/-- A block that is much larger is cut, and its front stays. -/
theorem meets_cut (fits : Fits n) (slack : align8 n + 48 ≤ h.get .size b) :
    ReallocMeets h l b n := by
  obtain ⟨le, -, aligned, pos, -⟩ := fits.align8
  have tiles := tiling.toTiles
  have high := tiles.high memB
  have stop : h.stop b = b + 40 + h.get .size b := rfl
  have excess : sub64 (h.get .size b) (align8 n) = h.get .size b - align8 n :=
    sub64_size (by omega)
  have start : data b = b + 40 := Nat.mod_eq_of_lt (by omega)
  obtain ⟨l₁, l₂, rfl⟩ := List.append_of_mem memB
  have tiles' := tiles.split slack pos aligned
  obtain ⟨size, -⟩ := splitOff_header slack high
  have flags : ∀ g, g ≠ .size → g ≠ .next → (splitOff h b (align8 n)).get g b = h.get g b :=
    fun g size next => splitOff_get slack (.inr (.inr ⟨rfl, size, next⟩))
  have below := tiles'.stop_le (b := b) (by simp)
  have stop' : (splitOff h b (align8 n)).stop b = b + 40 + (splitOff h b (align8 n)).get .size b :=
    rfl
  refine ⟨splitOff h b (align8 n), b + 40, ?_, ?_⟩
  · rw [myRealloc_split tiles memB (by omega) (by omega), blockSplit_eq tiles memB slack,
      Option.bind_some, if_neg (tiles.ne_zero memB), start]
  · rw [if_neg (by omega)]
    refine ⟨⟨b, rfl, tiles'.listed_iff.mpr (by simp), ?_, ?_, ?_, ?_⟩, ?_, ?_⟩
    · exact (flags .magic nofun nofun).trans (tiles.block b memB).magic
    · exact (flags .free nofun nofun).trans used
    · omega
    · omega
    · intro i short
      exact splitOff_mem slack (.inr (.inr ⟨by omega, by omega⟩))
    · intro y mem other _
      have apart : y ∈ l₁ ++ l₂ := mem_append_of_ne mem other
      refine ⟨?_, (tiles.split_keeps slack apart).data⟩
      rw [splitOff_brk]
      exact tiles.stop_le mem

omit used in
/-- Where a free block lies behind, the header is returned. -/
theorem fails_header (less : align8 n < h.get .size b)
    (tight : h.get .size b < align8 n + 48) (next : h.get .next b ≠ 0)
    (free : h.get .free (h.get .next b) ≠ 0) : ¬ ReallocMeets h l b n := by
  have tiles := tiling.toTiles
  have high := tiles.high memB
  have stop : h.stop b = b + 40 + h.get .size b := rfl
  have excess := sub64_size less.le
  obtain ⟨l₁, l₂, rfl⟩ := List.append_of_mem memB
  rw [tiles.next_eq] at next free
  rcases l₂ with _ | ⟨e, l₂⟩
  · exact absurd rfl next
  · rw [List.headD_cons] at next free
    have memE : e ∈ l₁ ++ b :: e :: l₂ := by simp
    have nextB : h.get .next b = e := tiles.next_eq
    have neighbour : neighbourFree h (h.get .next b) = some (h.get .free e) := by
      rw [nextB, neighbourFree, if_neg next, Heap.fetch_eq (tiles.header memE)]
    rintro ⟨h', q, called, meets⟩
    rw [myRealloc_beside tiles memB (by omega) (by omega) neighbour, if_pos ⟨free, by omega⟩,
      blockMerge_eq tiles free, Option.map_some, Option.some_inj] at called
    obtain ⟨rfl, rfl⟩ := Prod.mk.inj called
    rw [if_neg (tiles.ne_zero memB)] at meets
    obtain ⟨⟨c, eq, listed, -⟩, -⟩ := meets
    have merged := tiles.merge
    have memC := merged.listed_iff.mp listed
    have pos := (merged.block c memC).pos
    have memB' : b ∈ l₁ ++ b :: l₂ := by simp
    have stopC : (Malloc.merged h b e (l₂.headD 0)).stop c
        = c + 40 + (Malloc.merged h b e (l₂.headD 0)).get .size c := rfl
    have afterB := @lt_stop (Malloc.merged h b e (l₂.headD 0)) b
    rcases merged.apart memC memB' with same | before | behind <;> omega

omit used in
/-- A request to grow zeroes what lies behind the block, to the end of what is mapped. -/
theorem fails_grow (fits : Fits n) (more : h.get .size b < align8 n) :
    ¬ ReallocMeets h l b n := by
  obtain ⟨-, lt, aligned, -, small⟩ := fits.align8
  have tiles := tiling.toTiles
  have block := tiles.block b memB
  have pos := block.pos
  have alignedB := block.aligned
  have high := tiles.high memB
  have stop : h.stop b = b + 40 + h.get .size b := rfl
  have read : h.fetch .size b = some (h.get .size b) := Heap.fetch_eq (tiles.header memB)
  have large : 48 ≤ sub64 (h.get .size b) (align8 n) := by
    unfold sub64
    omega
  have start : data b = b + 40 := Nat.mod_eq_of_lt (by omega)
  rintro ⟨h', q, called, meets⟩
  rw [myRealloc_split tiles memB (by omega) large] at called
  obtain ⟨⟨h₁, y⟩, split, called⟩ := Option.bind_eq_some_iff.mp called
  obtain ⟨rfl, ⟨brk, -⟩, -⟩ := blockSplit_inv split (fun s eq => by
    rw [read] at eq
    rw [← Option.some.inj eq]
    exact large) (by omega)
  rw [if_neg (tiles.ne_zero memB), start] at called
  obtain ⟨rfl, rfl⟩ := Prod.mk.inj (Option.some.inj called)
  rw [if_neg (by omega)] at meets
  obtain ⟨⟨c, -, -, -, -, -, below⟩, -⟩ := meets
  replace below : y + 40 + n ≤ h.brk := below.trans_eq brk
  have limit := h.limit_lt
  have upper := h.upper
  have room := h.high
  have new : (data y + align8 n) % 2 ^ 64 = y + 40 + align8 n := by
    rw [start]
    exact Nat.mod_eq_of_lt (by omega)
  have count : sub64 (h.get .size y) ((40 + align8 n) % 2 ^ 64)
      = 2 ^ 64 + h.get .size y - (40 + align8 n) := by
    unfold sub64
    omega
  have fault : blockSplit h y (align8 n) = none := by
    rw [blockSplit, read, Option.bind_eq_bind, Option.bind_some, if_neg (by omega)]
    dsimp only
    rw [new, count, blockZero_fault (by omega) (by omega)]
    rfl
  rw [fault] at split
  cases split

/-- Where the data are moved, the contract is met if the destination holds them
as far as they are not copied. -/
theorem meets_moved (fits : Fits n) (less : align8 n < h.get .size b) {k : Nat}
    (called : myRealloc h (b + 40) n = moveData h (b + 40) (align8 n))
    (handed : Handed h h' l l' d (align8 n)) (size : h'.get .size d = k)
    (split : ∃ l₁ l₂, l' = l₁ ++ b :: l₂ ∧ Back h' l₁ b)
    (asked : myMalloc h (align8 n) = some (h', d + 40)) :
    ReallocMeets h l b n ↔
      ∀ i < n, moved (h.get .size b) k ≤ i → h'.mem (d + 40 + i) = h.mem (b + 40 + i) := by
  obtain ⟨le, -⟩ := fits.align8
  obtain ⟨l₁, l₂, split, back⟩ := split
  obtain ⟨h'', did, ⟨c, eq, listed, magic, free, room, below⟩, data, kept⟩ :=
    moveData_spec handed tiling.toTiles memB used split back asked
  rw [size] at data
  have result : myRealloc h (b + 40) n = some (h'', d + 40) := called.trans did
  constructor
  · rintro ⟨h₃, q, called, meets⟩ i short beyond
    obtain ⟨rfl, rfl⟩ := Prod.mk.inj (Option.some.inj (called.symm.trans result))
    rw [if_neg (by omega)] at meets
    have same := meets.2.1 i (by omega)
    rwa [data i (by omega), if_neg (by omega)] at same
  · intro same
    refine ⟨h'', d + 40, result, ?_⟩
    rw [if_neg (by omega)]
    refine ⟨⟨c, eq, listed, magic, free, le.trans room, by omega⟩, ?_, kept⟩
    intro i short
    rw [data i (by omega)]
    split
    · rfl
    · exact same i (by omega) (by omega)

omit memB used in
/-- The `prev` of a block, in a heap that has kept it. -/
theorem back_kept (split : l = l₁ ++ b :: l₂) (prev : h'.get .prev b = h.get .prev b) :
    Back h' l₁ b := by
  subst split
  exact back_of_last (prev.trans tiling.doubly.prev_eq)

omit used in
/-- The `prev` of a block, in a heap where another one has been cut: if that one
lay before it, its `prev` is wrong now, but in use. -/
theorem back_cut {k₁ k₂ : List Nat} {rest : Nat} (shape : l = k₁ ++ d :: k₂) (ne : b ≠ d)
    (prev : h'.get .prev b = h.get .prev b) (usedD : h'.get .free d = 0) :
    ∃ l₁ l₂, k₁ ++ d :: rest :: k₂ = l₁ ++ b :: l₂ ∧ Back h' l₁ b := by
  subst shape
  rcases List.mem_append.mp memB with mem | mem
  · obtain ⟨u, v, rfl⟩ := List.append_of_mem mem
    have split : u ++ b :: v ++ d :: k₂ = u ++ b :: (v ++ d :: k₂) := by simp
    exact ⟨u, v ++ d :: rest :: k₂, by simp, back_kept tiling split prev⟩
  · obtain ⟨u, v, rfl⟩ := List.append_of_mem (List.mem_of_ne_of_mem ne mem)
    refine ⟨k₁ ++ d :: rest :: u, v, by simp, ?_⟩
    have doubly := tiling.doubly
    rw [← List.cons_append, ← List.append_assoc] at doubly
    have last := doubly.prev_eq
    rw [getLastD_append_cons] at last
    rcases List.eq_nil_or_concat u with rfl | ⟨u, z, rfl⟩
    · have before : h'.get .prev b = d := prev.trans last
      refine .inr ⟨?_, fun free => absurd usedD (before ▸ free)⟩
      rw [before]
      simp
    · rw [List.concat_eq_append, getLastD_append_cons, List.getLastD_nil] at last
      refine back_of_last (prev.trans (last.trans ?_))
      rw [List.concat_eq_append, getLastD_append_cons, List.getLastD_cons, getLastD_append_cons,
        List.getLastD_nil]

end Contract

theorem fits_align8 (fits : Fits n) : Fits (align8 n) ∧ align8 (align8 n) = align8 n := by
  obtain ⟨-, -, aligned, pos, small⟩ := fits.align8
  exact ⟨⟨pos, by omega⟩, align8_self aligned⟩

section Move

variable (tiling : Tiling h l) (memB : b ∈ l) (used : h.get .free b = 0) (fits : Fits n)
  (less : align8 n < h.get .size b) (tight : h.get .size b < align8 n + 48)
  (beside : h.get .next b ≠ 0 → h.get .free (h.get .next b) = 0)
include tiling memB fits less tight beside

omit fits in
theorem myRealloc_move : myRealloc h (b + 40) n = moveData h (b + 40) (align8 n) := by
  have excess := sub64_size less.le
  have neighbour : neighbourFree h (h.get .next b) = some 0 := by
    unfold neighbourFree
    split
    · rfl
    · next some =>
        obtain ⟨l₁, l₂, rfl⟩ := List.append_of_mem memB
        have mem : h.get .next b ∈ l₁ ++ b :: l₂ := by
          rw [tiling.next_eq] at some ⊢
          exact mem_append_cons (List.mem_append_right l₁ (headD_mem some))
        rw [Heap.fetch_eq (tiling.header mem), beside some]
  rw [myRealloc_beside tiling.toTiles memB (by omega) (by omega) neighbour, if_neg (by simp)]

include used

/-- A move to new memory. -/
theorem meets_grow (unsuited : ∀ d ∈ l, ¬ Suits h (align8 n) d) :
    ReallocMeets h l b n ↔ h.sbrk (40 + align8 n) = none ∨
      ∀ i < n, moved (h.get .size b) (align8 n) ≤ i →
        (if h.limit ≤ h.brk + 40 + i then 0 else h.mem (h.brk + 40 + i)) = h.mem (b + 40 + i) := by
  obtain ⟨fits', self⟩ := fits_align8 fits
  have tiles := tiling.toTiles
  have high := tiles.high memB
  have stop : h.stop b = b + 40 + h.get .size b := rfl
  have called := myRealloc_move tiling memB less tight beside
  by_cases room : h.brk + (40 + align8 n) ≤ h.room
  · have granted : h.sbrk (40 + align8 n) ≠ none := by
      have lower := h.lower
      obtain ⟨h', grown, -⟩ := moveBrk_eq (h := h) (b := h.brk + (40 + align8 n)) (by omega) room
      rw [Heap.sbrk, if_pos (by omega), grown]
      exact nofun
    obtain ⟨h', asked, first, extends_⟩ := myMalloc_grow tiles fits' (self.symm ▸ unsuited)
      (self.symm ▸ room)
    rw [self] at extends_
    obtain ⟨l₁, l₂, split⟩ := List.append_of_mem memB
    rw [meets_moved tiling memB used fits less called (extends_.handed tiles first)
      extends_.size_new ⟨l₁, l₂ ++ [h.brk], by simp [split],
        back_kept tiling split (extends_.prev b memB)⟩ asked]
    simp only [granted, false_or]
    refine forall₂_congr fun i _ => ?_
    rw [extends_.fresh _ (by omega)]
  · have refused : h.sbrk (40 + align8 n) = none := sbrk_refused (by omega) (by omega)
    have asked := myMalloc_refused tiles fits' (self.symm ▸ unsuited) (self.symm ▸ refused)
    simp only [refused, true_or, iff_true]
    refine ⟨h, 0, ?_, ?_⟩
    · rw [called, moveData, asked, Option.bind_eq_bind, Option.bind_some]
      rfl
    · rw [if_pos rfl]
      exact ⟨inUse_self tiling memB used le_rfl, tiles.stop_le memB, fun _ _ _ => rfl⟩

/-- A move to a free block, whole or cut. -/
theorem meets_reuse {k₁ k₂ : List Nat} (shape : l = k₁ ++ d :: k₂)
    (unsuited : ∀ c ∈ k₁, ¬ Suits h (align8 n) c) (suited : Suits h (align8 n) d) :
    ReallocMeets h l b n ↔ ∀ i < n,
      moved (h.get .size b)
          (if align8 n + 48 ≤ h.get .size d then align8 n else h.get .size d) ≤ i →
        h.mem (d + 40 + i) = h.mem (b + 40 + i) := by
  obtain ⟨fits', self⟩ := fits_align8 fits
  obtain ⟨le, -, aligned, pos, -⟩ := fits.align8
  have called := myRealloc_move tiling memB less tight beside
  obtain ⟨l₁, l₂, split⟩ := List.append_of_mem memB
  have memD : d ∈ l := shape ▸ List.mem_append_right _ List.mem_cons_self
  have ne : b ≠ d := by
    rintro rfl
    exact suited.1 used
  subst shape
  have tiles := tiling.toTiles
  have high := tiles.high memD
  have stop : h.stop d = d + 40 + h.get .size d := rfl
  by_cases large : align8 n + 48 ≤ h.get .size d
  · have asked := myMalloc_cut tiles fits' (self.symm ▸ unsuited) (self.symm ▸ suited)
      (self.symm ▸ large)
    rw [self] at asked
    have handed := handed_cut tiles suited pos aligned large
    have prev := handed.prev b memB
    have size : ((splitOff h d (align8 n)).set .free d 0).get .size d = align8 n := by
      rw [Heap.get_set (by simp)]
      exact (splitOff_header large high).1
    rw [if_pos large, meets_moved tiling memB used fits less called handed size ?_ asked]
    · refine forall₂_congr fun i short => ?_
      rw [Heap.set_mem (by omega), splitOff_mem large (.inr (.inr ⟨by omega, by omega⟩))]
    · exact back_cut tiling memB rfl ne prev handed.used
  · have asked := myMalloc_whole tiles fits' (self.symm ▸ unsuited) (self.symm ▸ suited)
      (by rw [self]; omega)
    have handed := handed_whole tiles suited
    have size : (h.set .free d 0).get .size d = h.get .size d := Heap.get_set (by simp)
    rw [if_neg large, meets_moved tiling memB used fits less called handed size
      ⟨l₁, l₂, split, back_kept tiling split (handed.prev b memB)⟩ asked]
    refine forall₂_congr fun i short => ?_
    rw [Heap.set_mem (by omega)]

end Move

/-- `my_realloc` meets its contract on the sizes and neighbours it is right for,
and on no others. -/
theorem realloc_meets_iff (tiling : Tiling h l) (memB : b ∈ l) (used : h.get .free b = 0)
    (fits : Fits n) : ReallocMeets h l b n ↔ ReallocFits h l b n := by
  unfold ReallocFits
  by_cases same : h.get .size b = align8 n
  · exact iff_of_true (meets_same tiling memB used fits same) (.inl same)
  · by_cases slack : align8 n + 48 ≤ h.get .size b
    · exact iff_of_true (meets_cut tiling memB used fits slack) (.inr (.inl slack))
    · simp only [same, slack, false_or]
      by_cases less : align8 n < h.get .size b
      · by_cases beside : h.get .next b ≠ 0 → h.get .free (h.get .next b) = 0
        · rw [and_iff_right less, and_iff_right beside]
          unfold CopyReaches
          cases found : l.find? fun d => decide (Suits h (align8 n) d) with
          | none =>
              refine meets_grow tiling memB used fits less (by omega) beside fun d mem => ?_
              simpa using List.find?_eq_none.mp found d mem
          | some d =>
              obtain ⟨suited, k₁, k₂, shape, unsuited⟩ := List.find?_eq_some_iff_append.mp found
              exact meets_reuse tiling memB used fits less (by omega) beside shape
                (fun c mem => by simpa using unsuited c mem) (by simpa using suited)
        · obtain ⟨next, free⟩ := Classical.not_imp.mp beside
          exact iff_of_false
            (fails_header tiling memB less (by omega) next free) fun both => beside both.2.1
      · exact iff_of_false (fails_grow tiling memB fits (by omega)) fun both => less both.1

/-- What the client holds is a block in use. -/
theorem Good.block {w : World} (good : Good w l) (held : (b + 40, n) ∈ w.live) :
    b ∈ l ∧ w.heap.get .free b = 0 := by
  obtain ⟨c, mem, start, used, -⟩ := good.held _ held
  obtain rfl : b = c := Nat.add_right_cancel start
  exact ⟨mem, used⟩

/-- The first of two blocks, of 80 bytes, is resized to 40. -/
theorem realloc_meets_iff_shrink :
    ∃ w l, run World.step ⟨freshHeap, []⟩ [.malloc 80, .malloc 8] = some w ∧ 65536 ∈ l ∧
      (ReallocMeets w.heap l 65536 40 ↔ ReallocFits w.heap l 65536 40) := by
  obtain ⟨w, ran, l, good⟩ := run_good (h := freshHeap) rfl [.malloc 80, .malloc 8]
    (by decide +kernel)
  have live : (run World.step ⟨freshHeap, []⟩ [.malloc 80, .malloc 8]).map World.live =
      some [(65696, 8), (65576, 80)] := by decide +kernel
  rw [ran, Option.map_some, Option.some_inj] at live
  obtain ⟨mem, used⟩ := good.block (b := 65536) (n := 80) (by simp [live])
  exact ⟨w, l, ran, mem, realloc_meets_iff good.tiling mem used ⟨by decide, by decide⟩⟩

/-- A block of 48 bytes that is resized to 8, with a free block behind it. -/
theorem realloc_returns_header :
    ∃ w l, run World.step ⟨freshHeap, []⟩ [.malloc 48, .malloc 8, .malloc 8, .free 65664] =
        some w ∧ Tiling w.heap l ∧ 65536 ∈ l ∧ w.heap.get .free 65536 = 0 ∧ Fits 8 ∧
      ¬ ReallocMeets w.heap l 65536 8 := by
  obtain ⟨w, ran, l, good⟩ := run_good (h := freshHeap) rfl
    [.malloc 48, .malloc 8, .malloc 8, .free 65664] (by decide +kernel)
  have facts : (run World.step ⟨freshHeap, []⟩
      [.malloc 48, .malloc 8, .malloc 8, .free 65664]).map (fun w => (w.live,
        w.heap.get .size 65536, w.heap.get .next 65536, w.heap.get .free 65624)) =
      some ([(65712, 8), (65576, 48)], 48, 65624, 1) := by decide +kernel
  rw [ran, Option.map_some, Option.some_inj] at facts
  obtain ⟨live, size, next, free⟩ : w.live = [(65712, 8), (65576, 48)] ∧
      w.heap.get .size 65536 = 48 ∧ w.heap.get .next 65536 = 65624 ∧
      w.heap.get .free 65624 = 1 := by simpa using facts
  obtain ⟨mem, used⟩ := good.block (b := 65536) (n := 48) (by simp [live])
  have eight : align8 8 = 8 := rfl
  refine ⟨w, l, ran, good.tiling, mem, used, ⟨by decide, by decide⟩, ?_⟩
  apply fails_header good.tiling mem
  · rw [size, eight]
    decide
  · rw [size, eight]
    decide
  · rw [next]
    decide
  · rw [next, free]
    decide

end Shang.Malloc
