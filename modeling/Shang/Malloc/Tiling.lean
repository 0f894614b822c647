import Shang.Lib.DList
import Shang.Malloc.Heap

/-!
# Blocks that tile the heap

`Tiles h l` says that the blocks of `l` are linked forwards from `first_block`
on and lie one behind the other up to the break. It does not speak of `prev`:
one branch of the allocator leaves a wrong `prev` behind, and what holds all the
same is proved of such heaps too. `Tiling h l` adds the links back, and is the
invariant that the allocator is meant to keep.

Each helper of the allocator has one lemma here, which gives the blocks that
tile the heap after it, the `prev` of each of them, and the blocks it leaves as
they were.
-/

namespace Shang.Malloc

open Lib

variable {h h' : Heap} {f g : Field} {a b n v x : Nat} {l l₁ l₂ : List Nat}

/-! ## Assignments to headers -/

namespace Heap

@[simp] theorem mapped_set : (h.set f a v).Mapped n b ↔ h.Mapped n b := Iff.rfl

@[simp] theorem set_brk : (h.set f a v).brk = h.brk := rfl

@[simp] theorem set_first : (h.set f a v).first = h.first := rfl

@[simp] theorem set_base : (h.set f a v).base = h.base := rfl

theorem offset_width : f.offset + f.width ≤ 40 := by
  cases f <;> decide

theorem get_set_self (narrow : f = .free → v < 2 ^ 32) (wide : v < 2 ^ 64) :
    (h.set f b v).get f b = v := by
  have fits : v < 256 ^ f.width := by
    cases f with
    | free => exact narrow rfl
    | _ => exact wide
  exact load_store_self.trans (Nat.mod_eq_of_lt fits)

/-- An assignment changes no other field, and nothing in a header elsewhere. -/
theorem get_set (apart : b = a ∧ g ≠ f ∨ a + 40 ≤ b ∨ b + 40 ≤ a) :
    (h.set f a v).get g b = h.get g b := by
  apply load_store_off
  rcases apart with ⟨rfl, other⟩ | apart
  · cases f <;> cases g <;> simp_all [Field.offset, Field.width]
  · have first := offset_width (f := f)
    have second := offset_width (f := g)
    omega

theorem set_mem (off : x < a ∨ a + 40 ≤ x) : (h.set f a v).mem x = h.mem x := by
  apply store_off
  have inside := offset_width (f := f)
  omega

theorem brk_le_limit : h.brk ≤ h.limit := by
  unfold limit
  omega

theorem limit_lt : h.limit < 2 ^ 63 + 4096 := by
  have upper := h.upper
  have high := h.high
  unfold limit
  omega

theorem Mapped.mono (mapped : h.Mapped n a) {k : Nat} (low : a ≤ b) (high : b + k ≤ a + n) :
    h.Mapped k b :=
  ⟨mapped.1.trans low, high.trans mapped.2⟩

theorem fetch_eq (mapped : h.Mapped 40 b) : h.fetch f b = some (h.get f b) := by
  have inside := offset_width (f := f)
  exact if_pos (mapped.mono (by omega) (by omega))

theorem assign_eq (mapped : h.Mapped 40 b) : h.assign f b v = some (h.set f b v) := by
  have inside := offset_width (f := f)
  exact if_pos (mapped.mono (by omega) (by omega))

/-- The heap after zeroing the `n` bytes from `a` on. -/
def zero (h : Heap) (n a : Nat) : Heap :=
  { h with mem := fill h.mem n a }

@[simp] theorem mapped_zero {k : Nat} : (h.zero n a).Mapped k b ↔ h.Mapped k b := Iff.rfl

@[simp] theorem zero_brk : (h.zero n a).brk = h.brk := rfl

@[simp] theorem zero_first : (h.zero n a).first = h.first := rfl

@[simp] theorem zero_base : (h.zero n a).base = h.base := rfl

theorem get_zero (off : b + 40 ≤ a ∨ a + n ≤ b) : (h.zero n a).get f b = h.get f b := by
  have inside := offset_width (f := f)
  exact load_fill_off (by omega)

theorem zero_mem (off : x < a ∨ a + n ≤ x) : (h.zero n a).mem x = h.mem x :=
  fill_off off

end Heap

/-- Zeroing what is mapped zeroes it. -/
theorem blockZero_eq (mapped : h.Mapped n a) : blockZero n a h = some (h.zero n a) := by
  induction n generalizing a h with
  | zero => exact congrArg some (by rw [Heap.zero, fill_zero])
  | succ n ih =>
      have bound := h.limit_lt
      have first : h.write 1 a 0 = some (h.put 1 a 0) := if_pos (mapped.mono le_rfl (by omega))
      have small : (a + 1) % 2 ^ 64 = a + 1 := Nat.mod_eq_of_lt (by have := mapped.2; omega)
      have rest : (h.put 1 a 0).Mapped n (a + 1) := mapped.mono (by omega) (by omega)
      rw [blockZero, first, Option.bind_eq_bind, Option.bind_some, small, ih rest]
      unfold Heap.zero
      rw [fill_succ]
      rfl

/-- Zeroing beyond the last mapped page is a fault. -/
theorem blockZero_fault (some : 0 < n) (beyond : h.limit < a + n) : blockZero n a h = none := by
  induction n generalizing a h with
  | zero => omega
  | succ n ih =>
      have bound := h.limit_lt
      by_cases mapped : h.Mapped 1 a
      · have first : h.write 1 a 0 = Option.some (h.put 1 a 0) := if_pos mapped
        have inside := mapped.2
        have small : (a + 1) % 2 ^ 64 = a + 1 := Nat.mod_eq_of_lt (by omega)
        have still : (h.put 1 a 0).limit < a + 1 + n := show h.limit < a + 1 + n by omega
        rw [blockZero, first, Option.bind_eq_bind, Option.bind_some, small]
        exact ih (by omega) still
      · have first : h.write 1 a 0 = none := if_neg mapped
        rw [blockZero, first]
        rfl

/-! ## The invariant -/

/-- The first address behind the data of the block at `b`. -/
def Heap.stop (h : Heap) (b : Nat) : Nat :=
  b + 40 + h.get .size b

/-- The header of a block. -/
structure Block (h : Heap) (b : Nat) : Prop where
  low : h.base ≤ b
  pos : 0 < h.get .size b
  aligned : h.get .size b % 8 = 0
  magic : h.get .magic b = b + 40

/-- The blocks of `l` are linked forwards and tile the heap up to the break. -/
structure Tiles (h : Heap) (l : List Nat) : Prop where
  first : h.first = l.headD 0
  links : Path (h.get .next) l 0
  spans : Path h.stop l h.brk
  block : ∀ b ∈ l, Block h b

/-- The representation invariant: the blocks of `l` are linked both ways and
tile the heap from `first_block` to the break. -/
structure Tiling (h : Heap) (l : List Nat) : Prop extends Tiles h l where
  doubly : Seg (h.get .next) (h.get .prev) 0 l 0

theorem lt_stop : b + 40 ≤ h.stop b :=
  Nat.le_add_right _ _

/-- The blocks of a path lie one behind the other. -/
theorem pairwise_stop {e : Nat} (path : Path h.stop l e) :
    l.Pairwise (fun x y => h.stop x ≤ y) ∧ ∀ x ∈ l, h.stop x ≤ e := by
  induction l with
  | nil => exact ⟨List.Pairwise.nil, nofun⟩
  | cons x l ih =>
      obtain ⟨sorted, below⟩ := ih path.2
      have next : h.stop x = l.headD e := path.1
      have behind : (∀ y ∈ l, h.stop x ≤ y) ∧ h.stop x ≤ e := by
        rcases l with _ | ⟨y, l⟩
        · exact ⟨nofun, next.le⟩
        · have second : h.stop x = y := next
          have mine : h.stop y ≤ e := below y List.mem_cons_self
          have after := @lt_stop h y
          refine ⟨?_, by omega⟩
          intro z mem
          rcases List.mem_cons.mp mem with rfl | mem
          · exact second.le
          · have := List.rel_of_pairwise_cons sorted mem
            omega
      refine ⟨List.pairwise_cons.mpr ⟨behind.1, sorted⟩, ?_⟩
      intro y mem
      rcases List.mem_cons.mp mem with rfl | mem
      · exact behind.2
      · exact below y mem

namespace Tiles

theorem sorted (tiles : Tiles h l) : l.Pairwise fun x y => h.stop x ≤ y :=
  (pairwise_stop tiles.spans).1

theorem stop_le (tiles : Tiles h l) (mem : b ∈ l) : h.stop b ≤ h.brk :=
  (pairwise_stop tiles.spans).2 b mem

/-- Where a block lies to the others. -/
theorem around (tiles : Tiles h (l₁ ++ b :: l₂)) :
    (∀ y ∈ l₁, h.stop y ≤ b) ∧ ∀ y ∈ l₂, h.stop b ≤ y := by
  obtain ⟨-, rest, before⟩ := List.pairwise_append.mp tiles.sorted
  exact ⟨fun y mem => before y mem b List.mem_cons_self,
    fun y mem => List.rel_of_pairwise_cons rest mem⟩

theorem apart (tiles : Tiles h l) (first : a ∈ l) (second : b ∈ l) :
    a = b ∨ h.stop a ≤ b ∨ h.stop b ≤ a := by
  obtain ⟨l₁, l₂, rfl⟩ := List.append_of_mem second
  obtain ⟨before, behind⟩ := tiles.around
  rcases List.mem_append.mp first with mem | mem
  · exact .inr (.inl (before a mem))
  · rcases List.mem_cons.mp mem with rfl | mem
    · exact .inl rfl
    · exact .inr (.inr (behind a mem))

theorem nodup (tiles : Tiles h l) : l.Nodup := by
  apply tiles.sorted.imp
  rintro x _ before rfl
  have after := @lt_stop h x
  omega

theorem next_eq (tiles : Tiles h (l₁ ++ b :: l₂)) : h.get .next b = l₂.headD 0 :=
  (path_append.mp tiles.links).2.1

theorem stop_eq (tiles : Tiles h (l₁ ++ b :: l₂)) : h.stop b = l₂.headD h.brk :=
  (path_append.mp tiles.spans).2.1

theorem low (tiles : Tiles h l) (mem : b ∈ l) : 4096 ≤ b :=
  h.low.trans (tiles.block b mem).low

theorem ne_zero (tiles : Tiles h l) (mem : b ∈ l) : b ≠ 0 := by
  have low := tiles.low mem
  omega

theorem first_ne_zero (tiles : Tiles h l) (mem : b ∈ l) : h.first ≠ 0 := by
  rcases l with _ | ⟨x, l⟩
  · exact absurd mem List.not_mem_nil
  · rw [tiles.first]
    exact tiles.ne_zero List.mem_cons_self

theorem high (tiles : Tiles h l) (mem : b ∈ l) : h.stop b < 2 ^ 63 := by
  have end_ := tiles.stop_le mem
  have upper := h.upper
  have high := h.high
  omega

/-- The whole block is mapped. -/
theorem mapped (tiles : Tiles h l) (mem : b ∈ l) (low : b ≤ x) (high : x + n ≤ h.stop b) :
    h.Mapped n x := by
  have below := tiles.stop_le mem
  have page := h.brk_le_limit
  exact ⟨(tiles.block b mem).low.trans low, by omega⟩

theorem header (tiles : Tiles h l) (mem : b ∈ l) : h.Mapped 40 b :=
  tiles.mapped mem le_rfl lt_stop

end Tiles

/-- The blocks that are reached from `first_block` through `next`. -/
inductive Listed (h : Heap) : Nat → Prop
  | first (ne : h.first ≠ 0) : Listed h h.first
  | next {b : Nat} (listed : Listed h b) (ne : h.get .next b ≠ 0) : Listed h (h.get .next b)

/-- A path from a listed block goes through listed ones. -/
theorem listed_of_path {e : Nat} (path : Path (h.get .next) l e) (ne : ∀ b ∈ l, b ≠ 0)
    (start : l ≠ [] → Listed h (l.headD 0)) : ∀ b ∈ l, Listed h b := by
  induction l with
  | nil => nofun
  | cons x l ih =>
      have first : Listed h x := start (List.cons_ne_nil x l)
      have rest : ∀ b ∈ l, Listed h b := by
        refine ih path.2 (fun b mem => ne b (List.mem_cons_of_mem x mem)) fun some => ?_
        rcases l with _ | ⟨z, l⟩
        · exact absurd rfl some
        · have next : h.get .next x = z := path.1
          rw [List.headD_cons, ← next]
          exact first.next (next ▸ ne z (by simp))
      intro b mem
      rcases List.mem_cons.mp mem with rfl | mem
      · exact first
      · exact rest b mem

theorem Tiles.listed_iff (tiles : Tiles h l) : Listed h b ↔ b ∈ l := by
  constructor
  · intro listed
    induction listed with
    | first ne =>
        rw [tiles.first] at ne ⊢
        rcases l with _ | ⟨x, l⟩
        · exact absurd rfl ne
        · exact List.mem_cons_self
    | next _ ne ih =>
        obtain ⟨l₁, l₂, rfl⟩ := List.append_of_mem ih
        rw [tiles.next_eq] at ne ⊢
        rcases l₂ with _ | ⟨x, l₂⟩
        · exact absurd rfl ne
        · rw [List.headD_cons]
          simp
  · refine listed_of_path tiles.links (fun b mem => tiles.ne_zero mem) (fun some => ?_) b
    rw [← tiles.first]
    refine .first ?_
    rcases l with _ | ⟨x, l⟩
    · exact absurd rfl some
    · exact tiles.first_ne_zero List.mem_cons_self

/-- The block at `y` is as it was, its links apart. -/
structure Keeps (h h' : Heap) (y : Nat) : Prop where
  size : h'.get .size y = h.get .size y
  free : h'.get .free y = h.get .free y
  magic : h'.get .magic y = h.get .magic y
  data : ∀ x, y + 40 ≤ x → x < h.stop y → h'.mem x = h.mem x

namespace Keeps

theorem refl {y : Nat} : Keeps h h y :=
  ⟨rfl, rfl, rfl, fun _ _ _ => rfl⟩

theorem stop {y : Nat} (keeps : Keeps h h' y) : h'.stop y = h.stop y :=
  congrArg (y + 40 + ·) keeps.size

theorem trans {h'' : Heap} {y : Nat} (first : Keeps h h' y) (second : Keeps h' h'' y) :
    Keeps h h'' y where
  size := second.size.trans first.size
  free := second.free.trans first.free
  magic := second.magic.trans first.magic
  data x low high :=
    (second.data x low (by rwa [first.stop])).trans (first.data x low high)

theorem block {y : Nat} (keeps : Keeps h h' y) (base : h'.base = h.base) (block : Block h y) :
    Block h' y where
  low := base.trans_le block.low
  pos := block.pos.trans_eq keeps.size.symm
  aligned := (congrArg (· % 8) keeps.size).trans block.aligned
  magic := keeps.magic.trans block.magic

end Keeps

/-! ## Merging -/

/-- The heap after `prev` of the block at `n`, if there is one, has become `a`. -/
def relink (h : Heap) (n a : Nat) : Heap :=
  if n = 0 then h else h.set .prev n a

theorem relink_get {y : Nat} (apart : n ≠ 0 → y = n ∧ g ≠ .prev ∨ n + 40 ≤ y ∨ y + 40 ≤ n) :
    (relink h n a).get g y = h.get g y := by
  unfold relink
  split
  · rfl
  · exact Heap.get_set (apart ‹_›)

theorem relink_mem (off : n ≠ 0 → x < n ∨ n + 40 ≤ x) : (relink h n a).mem x = h.mem x := by
  unfold relink
  split
  · rfl
  · exact Heap.set_mem (off ‹_›)

@[simp] theorem relink_brk : (relink h n a).brk = h.brk := by
  unfold relink
  split <;> rfl

@[simp] theorem relink_first : (relink h n a).first = h.first := by
  unfold relink
  split <;> rfl

@[simp] theorem relink_base : (relink h n a).base = h.base := by
  unfold relink
  split <;> rfl

/-- The heap after `b` has been merged into `a`, with `n` behind it. -/
def merged (h : Heap) (a b n : Nat) : Heap :=
  (relink ((h.set .size a (h.get .size a + (40 + h.get .size b))).set .next a n) n a).zero
    (40 + h.get .size b) b

theorem headD_mem (ne : l.headD 0 ≠ 0) : l.headD 0 ∈ l := by
  cases l with
  | nil => exact absurd rfl ne
  | cons x l => exact List.mem_cons_self

theorem blockMerge_eq (tiles : Tiles h (l₁ ++ a :: b :: l₂)) (free : h.get .free b ≠ 0) :
    blockMerge h a = some (merged h a b (l₂.headD 0)) := by
  have memA : a ∈ l₁ ++ a :: b :: l₂ := by simp
  have memB : b ∈ l₁ ++ a :: b :: l₂ := by simp
  have headA := tiles.header memA
  have headB := tiles.header memB
  have nextA : h.get .next a = b := tiles.next_eq
  have behind : h.stop a ≤ b := tiles.around.2 b List.mem_cons_self
  have tilesB : Tiles h ((l₁ ++ [a]) ++ b :: l₂) := by simpa using tiles
  have nextB : h.get .next b = l₂.headD 0 := tilesB.next_eq
  have highB := tiles.high memB
  have stopB : h.stop b = b + 40 + h.get .size b := rfl
  have startA := @lt_stop h a
  have stopA : h.stop a = a + 40 + h.get .size a := rfl
  have whole : h.Mapped (40 + h.get .size b) b := tiles.mapped memB le_rfl (by omega)
  have headN : l₂.headD 0 ≠ 0 → h.Mapped 40 (l₂.headD 0) ∧ h.stop b ≤ l₂.headD 0 := by
    intro ne
    have mem := headD_mem ne
    exact ⟨tilesB.header (mem_append_cons (List.mem_append_right _ mem)),
      tilesB.around.2 _ mem⟩
  generalize l₂.headD 0 = n at nextB headN ⊢
  have small : (h.get .size a + (40 + h.get .size b)) % 2 ^ 64
      = h.get .size a + (40 + h.get .size b) := Nat.mod_eq_of_lt (by omega)
  have small' : (40 + h.get .size b) % 2 ^ 64 = 40 + h.get .size b :=
    Nat.mod_eq_of_lt (by omega)
  unfold merged relink
  simp only [blockMerge, Heap.fetch_eq, Heap.assign_eq, Heap.mapped_set, headA, headB,
    Option.bind_eq_bind, Option.bind_some, nextA, if_neg (tiles.ne_zero memB), if_neg free,
    small, -Nat.reducePow]
  generalize h.get .size a + (40 + h.get .size b) = v
  have stillNext : (h.set .size a v).get .next b = n := by
    rw [Heap.get_set (by omega), nextB]
  have stillSize : ((h.set .size a v).set .next a n).get .size b = h.get .size b := by
    rw [Heap.get_set (by omega), Heap.get_set (by omega)]
  simp only [stillNext]
  by_cases last : n = 0
  · simp only [if_pos last, Heap.mapped_set, stillSize, small', blockZero_eq, whole,
      -Nat.reducePow]
  · obtain ⟨headN, beyond⟩ := headN last
    have stillSize' : (((h.set .size a v).set .next a n).set .prev n a).get .size b
        = h.get .size b := by
      rw [Heap.get_set (by omega), stillSize]
    simp only [if_neg last, Option.bind_some, Heap.fetch_eq, Heap.assign_eq, Heap.mapped_set,
      headB, headN, stillSize', small', blockZero_eq, whole, -Nat.reducePow]

/-- Merging changes the header of `a`, the block at `b` and the `prev` of `n`. -/
theorem merged_get {y : Nat} (front : y + 40 ≤ a ∨ h.stop a ≤ y ∨ y = a ∧ g ≠ .size ∧ g ≠ .next)
    (back : y + 40 ≤ b ∨ h.stop b ≤ y)
    (link : n ≠ 0 → y = n ∧ g ≠ .prev ∨ n + 40 ≤ y ∨ y + 40 ≤ n) :
    (merged h a b n).get g y = h.get g y := by
  have stopB : h.stop b = b + 40 + h.get .size b := rfl
  have startA := @lt_stop h a
  rw [merged, Heap.get_zero (by omega), relink_get link, Heap.get_set, Heap.get_set]
  all_goals
    rcases front with front | front | ⟨same, size, next⟩
    · exact .inr (.inr front)
    · exact .inr (.inl (by omega))
    · exact .inl ⟨same, ‹_›⟩

theorem merged_mem (front : x < a ∨ a + 40 ≤ x) (back : x < b ∨ h.stop b ≤ x)
    (link : n ≠ 0 → x < n ∨ n + 40 ≤ x) : (merged h a b n).mem x = h.mem x := by
  have stopB : h.stop b = b + 40 + h.get .size b := rfl
  rw [merged, Heap.zero_mem (by omega), relink_mem link, Heap.set_mem front, Heap.set_mem front]

section Merge

variable {y : Nat} (tiles : Tiles h (l₁ ++ a :: b :: l₂))
include tiles

/-- Where the other blocks lie to the ones that are merged and the one behind. -/
theorem Tiles.merge_apart (mem : y ∈ l₁ ++ l₂) :
    (h.stop y ≤ a ∨ h.stop b ≤ y) ∧ h.stop a ≤ b ∧
      (l₂.headD 0 ≠ 0 → y = l₂.headD 0 ∨ h.stop y ≤ l₂.headD 0 ∨ h.stop (l₂.headD 0) ≤ y) := by
  have tilesB : Tiles h ((l₁ ++ [a]) ++ b :: l₂) := by simpa using tiles
  have inside : ∀ z ∈ l₁ ++ l₂, z ∈ l₁ ++ a :: b :: l₂ :=
    fun z mem => mem_append_cons (mem_append_cons mem)
  refine ⟨?_, tiles.around.2 b List.mem_cons_self, ?_⟩
  · rcases List.mem_append.mp mem with mem | mem
    · exact .inl (tiles.around.1 y mem)
    · exact .inr (tilesB.around.2 y mem)
  · intro ne
    exact tiles.apart (inside y mem) (inside _ (List.mem_append_right l₁ (headD_mem ne)))

theorem Tiles.merge_get (mem : y ∈ l₁ ++ l₂) (other : y = l₂.headD 0 → g ≠ .prev) :
    (merged h a b (l₂.headD 0)).get g y = h.get g y := by
  obtain ⟨sides, order, link⟩ := tiles.merge_apart mem
  have startY := @lt_stop h y
  have startA := @lt_stop h a
  have startB := @lt_stop h b
  have startN := @lt_stop h (l₂.headD 0)
  apply merged_get
  · omega
  · omega
  · intro ne
    rcases link ne with same | apart
    · exact .inl ⟨same, other same⟩
    · omega

theorem Tiles.merge_keeps (mem : y ∈ l₁ ++ l₂) : Keeps h (merged h a b (l₂.headD 0)) y where
  size := tiles.merge_get mem fun _ => nofun
  free := tiles.merge_get mem fun _ => nofun
  magic := tiles.merge_get mem fun _ => nofun
  data x low high := by
    obtain ⟨sides, order, link⟩ := tiles.merge_apart mem
    have startA := @lt_stop h a
    have startB := @lt_stop h b
    have startN := @lt_stop h (l₂.headD 0)
    apply merged_mem
    · omega
    · omega
    · intro ne
      rcases link ne with same | apart <;> omega

/-- The header that the two blocks have in common afterwards. -/
theorem Tiles.merge_self :
    (merged h a b (l₂.headD 0)).stop a = h.stop b ∧
      (merged h a b (l₂.headD 0)).get .next a = l₂.headD 0 ∧
      ∀ g, g ≠ .size → g ≠ .next → (merged h a b (l₂.headD 0)).get g a = h.get g a := by
  have tilesB : Tiles h ((l₁ ++ [a]) ++ b :: l₂) := by simpa using tiles
  have order : h.stop a = b := tiles.stop_eq
  have highB := tiles.high (b := b) (by simp)
  have startA := @lt_stop h a
  have startB := @lt_stop h b
  have sizeA : h.stop a = a + 40 + h.get .size a := rfl
  have sizeB : h.stop b = b + 40 + h.get .size b := rfl
  have beyond : l₂.headD 0 ≠ 0 → h.stop b ≤ l₂.headD 0 :=
    fun ne => tilesB.around.2 _ (headD_mem ne)
  have highN : l₂.headD 0 < 2 ^ 63 := by
    by_cases none : l₂.headD 0 = 0
    · omega
    · have mem := headD_mem none
      have high := tiles.high (b := l₂.headD 0)
        (mem_append_cons (mem_append_cons (List.mem_append_right l₁ mem)))
      have startN := @lt_stop h (l₂.headD 0)
      omega
  refine ⟨?_, ?_, ?_⟩
  · have size : (merged h a b (l₂.headD 0)).get .size a
        = h.get .size a + (40 + h.get .size b) := by
      rw [merged, Heap.get_zero (by omega), relink_get (by omega), Heap.get_set (by simp),
        Heap.get_set_self (by nofun) (by omega)]
    unfold Heap.stop
    omega
  · rw [merged, Heap.get_zero (by omega), relink_get (by omega),
      Heap.get_set_self (by nofun) (by omega)]
  · intro g size next
    exact merged_get (.inr (.inr ⟨rfl, size, next⟩)) (by omega) (by omega)

/-- Merging takes the block that is merged off the list. -/
theorem Tiles.merge : Tiles (merged h a b (l₂.headD 0)) (l₁ ++ a :: l₂) := by
  obtain ⟨stop, next, others⟩ := tiles.merge_self
  have front : ∀ y ∈ l₁, y ∈ l₁ ++ l₂ := fun y mem => List.mem_append_left l₂ mem
  have back : ∀ y ∈ l₂, y ∈ l₁ ++ l₂ := fun y mem => List.mem_append_right l₁ mem
  obtain ⟨nextFront, -, -, nextBack⟩ := path_append.mp tiles.links
  obtain ⟨stopFront, -, stopB, stopBack⟩ := path_append.mp tiles.spans
  have blockA := tiles.block a (by simp)
  have blockB := tiles.block b (by simp)
  have order : h.stop a = b := tiles.stop_eq
  have base : (merged h a b (l₂.headD 0)).base = h.base := relink_base
  have brk : (merged h a b (l₂.headD 0)).brk = h.brk := relink_brk
  refine ⟨?_, path_append.mpr ⟨?_, next, ?_⟩, path_append.mpr ⟨?_, ?_, ?_⟩, ?_⟩
  · have first : h.first = (l₁ ++ a :: b :: l₂).headD 0 := tiles.first
    rw [headD_append] at first ⊢
    exact relink_first.trans first
  · exact nextFront.congr fun y mem => tiles.merge_get (front y mem) fun _ => nofun
  · exact nextBack.congr fun y mem => tiles.merge_get (back y mem) fun _ => nofun
  · exact stopFront.congr fun y mem => (tiles.merge_keeps (front y mem)).stop
  · rw [stop, brk]
    exact stopB
  · rw [brk]
    exact stopBack.congr fun y mem => (tiles.merge_keeps (back y mem)).stop
  · intro y mem
    rcases List.mem_append.mp mem with mem | mem
    · exact (tiles.merge_keeps (front y mem)).block base (tiles.block y (by simp [mem]))
    · rcases List.mem_cons.mp mem with rfl | mem
      · have sizeA : h.stop y = y + 40 + h.get .size y := rfl
        have sizeB : h.stop b = b + 40 + h.get .size b := rfl
        have size : (merged h y b (l₂.headD 0)).stop y
            = y + 40 + (merged h y b (l₂.headD 0)).get .size y := rfl
        have alignA := blockA.aligned
        have alignB := blockB.aligned
        exact ⟨base.trans_le blockA.low, by omega, by omega,
          (others .magic nofun nofun).trans blockA.magic⟩
      · exact (tiles.merge_keeps (back y mem)).block base (tiles.block y (by simp [mem]))

/-- After merging, the block behind has the merged one before it. -/
theorem Tiles.merge_prev (mem : y ∈ l₁ ++ a :: l₂) :
    (merged h a b (l₂.headD 0)).get .prev y = if y = l₂.headD 0 then a else h.get .prev y := by
  have nodup := tiles.merge.nodup
  have low := tiles.merge.ne_zero mem
  obtain ⟨-, -, others⟩ := tiles.merge_self
  have tilesB : Tiles h ((l₁ ++ [a]) ++ b :: l₂) := by simpa using tiles
  have highA := tiles.high (b := a) (by simp)
  have startA := @lt_stop h a
  split
  · next last =>
      have beyond : h.stop b ≤ l₂.headD 0 := tilesB.around.2 _ (headD_mem (last ▸ low))
      have sizeB : h.stop b = b + 40 + h.get .size b := rfl
      rw [last, merged, Heap.get_zero (.inr (by omega)), relink, if_neg (last ▸ low),
        Heap.get_set_self (by nofun) (by omega)]
  · next other =>
      rcases List.mem_append.mp mem with mem | mem
      · exact tiles.merge_get (List.mem_append_left l₂ mem) fun same => absurd same other
      · rcases List.mem_cons.mp mem with rfl | mem
        · exact others .prev nofun nofun
        · exact tiles.merge_get (List.mem_append_right l₁ mem) fun same => absurd same other

end Merge

/-! ## Splitting -/

theorem align8_spec (fits : n + 7 < 2 ^ 64) :
    n ≤ align8 n ∧ align8 n < n + 8 ∧ align8 n % 8 = 0 := by
  unfold align8
  split <;> omega

theorem sub64_eq (le : b ≤ a) (wide : a < 2 ^ 64) : sub64 a b = a - b := by
  unfold sub64
  omega

/-- What a block has more than is asked for. -/
theorem sub64_size (le : n ≤ h.get .size b) : sub64 (h.get .size b) n = h.get .size b - n :=
  sub64_eq le load_lt

/-- The heap after the block at `d` has been cut behind its first `n` bytes. -/
def splitOff (h : Heap) (d n : Nat) : Heap :=
  let newptr := d + 40 + n
  let zeroed := h.zero (h.get .size d - (40 + n)) newptr
  let sized := (zeroed.set .free newptr 1).set .size newptr (h.get .size d - (40 + n))
  let linked := (sized.set .prev newptr d).set .next newptr (h.get .next d)
  ((linked.set .magic newptr (newptr + 40)).set .size d n).set .next d newptr

@[simp] theorem splitOff_brk {d : Nat} : (splitOff h d n).brk = h.brk := by
  simp [splitOff]

@[simp] theorem splitOff_first {d : Nat} : (splitOff h d n).first = h.first := by
  simp [splitOff]

@[simp] theorem splitOff_base {d : Nat} : (splitOff h d n).base = h.base := by
  simp [splitOff]

theorem blockSplit_eq (tiles : Tiles h l) (mem : b ∈ l) (slack : n + 48 ≤ h.get .size b) :
    blockSplit h b n = some (splitOff h b n, b) := by
  have high := tiles.high mem
  have stop : h.stop b = b + 40 + h.get .size b := rfl
  have head := tiles.header mem
  have head' : h.Mapped 40 (b + 40 + n) := tiles.mapped mem (by omega) (by omega)
  have rest : h.Mapped (h.get .size b - (40 + n)) (b + 40 + n) :=
    tiles.mapped mem (by omega) (by omega)
  have enough : ¬ h.get .size b - n < 40 + 8 := by omega
  have start : data b = b + 40 := Nat.mod_eq_of_lt (by omega)
  have new : (b + 40 + n) % 2 ^ 64 = b + 40 + n := Nat.mod_eq_of_lt (by omega)
  have start' : data (b + 40 + n) = b + 40 + n + 40 := Nat.mod_eq_of_lt (by omega)
  have small : (40 + n) % 2 ^ 64 = 40 + n := Nat.mod_eq_of_lt (by omega)
  have slack : sub64 (h.get .size b) n = h.get .size b - n := sub64_size (by omega)
  have size : sub64 (h.get .size b) (40 + n) = h.get .size b - (40 + n) := sub64_size (by omega)
  have next : ((((h.zero (h.get .size b - (40 + n)) (b + 40 + n)).set .free (b + 40 + n) 1).set
      .size (b + 40 + n) (h.get .size b - (40 + n))).set .prev (b + 40 + n) b).get .next b
      = h.get .next b := by
    rw [Heap.get_set (by omega), Heap.get_set (by omega), Heap.get_set (by omega),
      Heap.get_zero (by omega)]
  simp only [blockSplit, splitOff, Heap.fetch_eq, Heap.assign_eq, Heap.mapped_set,
    Heap.mapped_zero, head, head', Option.bind_eq_bind, Option.bind_some, slack, if_neg enough,
    start, new, small, size, blockZero_eq, rest, next, start', -Nat.reducePow]

/-- Splitting changes nothing outside the block that is split. -/
theorem splitOff_get {d y : Nat} (slack : n + 48 ≤ h.get .size d)
    (apart : y + 40 ≤ d ∨ h.stop d ≤ y ∨ y = d ∧ g ≠ .size ∧ g ≠ .next) :
    (splitOff h d n).get g y = h.get g y := by
  have stop : h.stop d = d + 40 + h.get .size d := rfl
  rw [splitOff, Heap.get_set, Heap.get_set, Heap.get_set (by omega), Heap.get_set (by omega),
    Heap.get_set (by omega), Heap.get_set (by omega), Heap.get_set (by omega),
    Heap.get_zero (by omega)]
  all_goals
    rcases apart with apart | apart | ⟨same, size, next⟩
    · exact .inr (.inr apart)
    · exact .inr (.inl (by omega))
    · exact .inl ⟨same, ‹_›⟩

theorem splitOff_mem {d : Nat} (slack : n + 48 ≤ h.get .size d)
    (apart : x < d ∨ h.stop d ≤ x ∨ d + 40 ≤ x ∧ x < d + 40 + n) :
    (splitOff h d n).mem x = h.mem x := by
  have stop : h.stop d = d + 40 + h.get .size d := rfl
  rw [splitOff, Heap.set_mem (by omega), Heap.set_mem (by omega), Heap.set_mem (by omega),
    Heap.set_mem (by omega), Heap.set_mem (by omega), Heap.set_mem (by omega),
    Heap.set_mem (by omega), Heap.zero_mem (by omega)]

/-- The headers of the two parts. -/
theorem splitOff_header {d : Nat} (slack : n + 48 ≤ h.get .size d) (high : h.stop d < 2 ^ 63) :
    (splitOff h d n).get .size d = n ∧ (splitOff h d n).get .next d = d + 40 + n ∧
      (splitOff h d n).get .size (d + 40 + n) = h.get .size d - (40 + n) ∧
      (splitOff h d n).get .prev (d + 40 + n) = d ∧
      (splitOff h d n).get .next (d + 40 + n) = h.get .next d ∧
      (splitOff h d n).get .free (d + 40 + n) = 1 ∧
      (splitOff h d n).get .magic (d + 40 + n) = d + 40 + n + 40 := by
  have stop : h.stop d = d + 40 + h.get .size d := rfl
  have next : h.get .next d < 2 ^ 64 := load_lt
  refine ⟨?_, ?_, ?_, ?_, ?_, ?_, ?_⟩
  · rw [splitOff, Heap.get_set (by simp), Heap.get_set_self (by nofun) (by omega)]
  · rw [splitOff, Heap.get_set_self (by nofun) (by omega)]
  all_goals rw [splitOff, Heap.get_set (by omega), Heap.get_set (by omega)]
  · rw [Heap.get_set (by simp), Heap.get_set (by simp), Heap.get_set (by simp),
      Heap.get_set_self (by nofun) (by omega)]
  · rw [Heap.get_set (by simp), Heap.get_set (by simp), Heap.get_set_self (by nofun) (by omega)]
  · rw [Heap.get_set (by simp), Heap.get_set_self (by nofun) next]
  · rw [Heap.get_set (by simp), Heap.get_set (by simp), Heap.get_set (by simp),
      Heap.get_set (by simp), Heap.get_set_self (by simp) (by simp)]
  · rw [Heap.get_set_self (by nofun) (by omega)]

section Split

variable {d y : Nat} (tiles : Tiles h (l₁ ++ d :: l₂)) (slack : n + 48 ≤ h.get .size d)
include tiles slack

theorem Tiles.split_get (mem : y ∈ l₁ ++ l₂) : (splitOff h d n).get g y = h.get g y := by
  apply splitOff_get slack
  have startY := @lt_stop h y
  rcases List.mem_append.mp mem with mem | mem
  · exact .inl (startY.trans (tiles.around.1 y mem))
  · exact .inr (.inl (tiles.around.2 y mem))

theorem Tiles.split_keeps (mem : y ∈ l₁ ++ l₂) : Keeps h (splitOff h d n) y where
  size := tiles.split_get slack mem
  free := tiles.split_get slack mem
  magic := tiles.split_get slack mem
  data x low high := by
    apply splitOff_mem slack
    rcases List.mem_append.mp mem with mem | mem
    · exact .inl (high.trans_le (tiles.around.1 y mem))
    · have behind := tiles.around.2 y mem
      omega

/-- Splitting puts the part cut off behind the block on the list. -/
theorem Tiles.split (pos : 0 < n) (aligned : n % 8 = 0) :
    Tiles (splitOff h d n) (l₁ ++ d :: (d + 40 + n) :: l₂) := by
  have memD : d ∈ l₁ ++ d :: l₂ := by simp
  have blockD := tiles.block d memD
  have low := blockD.low
  have alignD := blockD.aligned
  have stop : h.stop d = d + 40 + h.get .size d := rfl
  obtain ⟨size, next, size', -, next', -, magic'⟩ := splitOff_header slack (tiles.high memD)
  have magic : (splitOff h d n).get .magic d = h.get .magic d :=
    splitOff_get slack (.inr (.inr ⟨rfl, nofun, nofun⟩))
  have front : ∀ y ∈ l₁, y ∈ l₁ ++ l₂ := fun y mem => List.mem_append_left l₂ mem
  have back : ∀ y ∈ l₂, y ∈ l₁ ++ l₂ := fun y mem => List.mem_append_right l₁ mem
  obtain ⟨nextFront, nextD, nextBack⟩ := path_append.mp tiles.links
  obtain ⟨stopFront, stopD, stopBack⟩ := path_append.mp tiles.spans
  refine ⟨?_, path_append.mpr ⟨?_, next, next'.trans nextD, ?_⟩,
    path_append.mpr ⟨?_, ?_, ?_, ?_⟩, ?_⟩
  · have first : h.first = (l₁ ++ d :: l₂).headD 0 := tiles.first
    rw [headD_append] at first ⊢
    exact splitOff_first.trans first
  · exact nextFront.congr fun y mem => tiles.split_get slack (front y mem)
  · exact nextBack.congr fun y mem => tiles.split_get slack (back y mem)
  · exact stopFront.congr fun y mem => (tiles.split_keeps slack (front y mem)).stop
  · exact congrArg (d + 40 + ·) size
  · rw [splitOff_brk, ← stopD]
    unfold Heap.stop
    omega
  · rw [splitOff_brk]
    exact stopBack.congr fun y mem => (tiles.split_keeps slack (back y mem)).stop
  · intro y mem
    rcases List.mem_append.mp mem with mem | mem
    · have kept := tiles.split_keeps slack (front y mem)
      exact kept.block splitOff_base (tiles.block y (by simp [mem]))
    · rcases List.mem_cons.mp mem with rfl | mem
      · exact ⟨splitOff_base.trans_le low, by omega, by omega, magic.trans blockD.magic⟩
      · rcases List.mem_cons.mp mem with rfl | mem
        · exact ⟨splitOff_base.trans_le (low.trans (by omega)), by omega, by omega, magic'⟩
        · have kept := tiles.split_keeps slack (back y mem)
          exact kept.block splitOff_base (tiles.block y (by simp [mem]))

end Split

/-! ## Growing -/

/-- The heap after the headers of a new last block at `p` have been written. -/
def appended (h : Heap) (p last n : Nat) : Heap :=
  let fresh := ((h.set .size p n).set .prev p 0).set .next p 0
  let linked := if last = 0 then fresh else (fresh.set .next last p).set .prev p last
  (linked.set .free p 0).set .magic p (p + 40)

@[simp] theorem appended_brk {p last : Nat} : (appended h p last n).brk = h.brk := by
  unfold appended
  split <;> simp

@[simp] theorem appended_first {p last : Nat} : (appended h p last n).first = h.first := by
  unfold appended
  split <;> simp

@[simp] theorem appended_base {p last : Nat} : (appended h p last n).base = h.base := by
  unfold appended
  split <;> simp

/-- Appending changes nothing in front of the new block but the link to it. -/
theorem appended_get {p last y : Nat} (front : y + 40 ≤ p)
    (apart : last ≠ 0 → y = last ∧ g ≠ .next ∨ last + 40 ≤ y ∨ y + 40 ≤ last) :
    (appended h p last n).get g y = h.get g y := by
  unfold appended
  split
  · rw [Heap.get_set (by omega), Heap.get_set (by omega), Heap.get_set (by omega),
      Heap.get_set (by omega), Heap.get_set (by omega)]
  · rw [Heap.get_set (by omega), Heap.get_set (by omega), Heap.get_set (by omega),
      Heap.get_set (apart ‹_›), Heap.get_set (by omega), Heap.get_set (by omega),
      Heap.get_set (by omega)]

theorem appended_mem {p last : Nat} (off : x < p ∨ p + 40 ≤ x)
    (apart : last ≠ 0 → x < last ∨ last + 40 ≤ x) : (appended h p last n).mem x = h.mem x := by
  unfold appended
  split
  · rw [Heap.set_mem off, Heap.set_mem off, Heap.set_mem off, Heap.set_mem off, Heap.set_mem off]
  · rw [Heap.set_mem off, Heap.set_mem off, Heap.set_mem off, Heap.set_mem (apart ‹_›),
      Heap.set_mem off, Heap.set_mem off, Heap.set_mem off]

/-- The header of the new block, and the link to it. -/
theorem appended_header (h : Heap) (p last n : Nat) (small : p + 40 + n < 2 ^ 63)
    (front : last + 40 ≤ p ∨ last = 0) :
    (appended h p last n).get .size p = n ∧ (appended h p last n).get .prev p = last ∧
      (appended h p last n).get .next p = 0 ∧ (appended h p last n).get .free p = 0 ∧
      (appended h p last n).get .magic p = p + 40 ∧
      (last ≠ 0 → (appended h p last n).get .next last = p) := by
  have magic : (appended h p last n).get .magic p = p + 40 := by
    rw [appended, Heap.get_set_self (by nofun) (by omega)]
  have free : (appended h p last n).get .free p = 0 := by
    rw [appended, Heap.get_set (by simp), Heap.get_set_self (by simp) (by simp)]
  refine ⟨?_, ?_, ?_, free, magic, ?_⟩
  all_goals
    unfold appended
  · rw [Heap.get_set (by simp), Heap.get_set (by simp)]
    split
    · rw [Heap.get_set (by simp), Heap.get_set (by simp), Heap.get_set_self (by nofun) (by omega)]
    · rw [Heap.get_set (by simp), Heap.get_set (by omega), Heap.get_set (by simp),
        Heap.get_set (by simp), Heap.get_set_self (by nofun) (by omega)]
  · rw [Heap.get_set (by simp), Heap.get_set (by simp)]
    split
    · next none =>
        rw [Heap.get_set (by simp), Heap.get_set_self (by nofun) (by omega), none]
    · rw [Heap.get_set_self (by nofun) (by omega)]
  · rw [Heap.get_set (by simp), Heap.get_set (by simp)]
    split
    · rw [Heap.get_set_self (by nofun) (by omega)]
    · rw [Heap.get_set (by simp), Heap.get_set (by omega), Heap.get_set_self (by nofun) (by omega)]
  · intro some
    simp only [if_neg some]
    rw [Heap.get_set (by omega), Heap.get_set (by omega), Heap.get_set (by omega),
      Heap.get_set_self (by nofun) (by omega)]

theorem moveBrk_eq (low : h.base ≤ b) (high : b ≤ h.room) :
    ∃ h', h.moveBrk b = some h' ∧ h'.brk = b ∧ h'.base = h.base ∧ h'.room = h.room ∧
      h'.first = h.first ∧ ∀ x, h'.mem x = if h.limit ≤ x then 0 else h.mem x :=
  ⟨_, dif_pos ⟨low, high⟩, rfl, rfl, rfl, rfl, fun _ => rfl⟩

/-- What lies below the break stays as it is when the break moves. -/
theorem get_of_mem {y : Nat} (mem : ∀ x, h'.mem x = if h.limit ≤ x then 0 else h.mem x)
    (below : y + 40 ≤ h.brk) : h'.get g y = h.get g y := by
  have page := h.brk_le_limit
  have inside := Heap.offset_width (f := g)
  apply load_congr
  intro i low
  rw [mem, if_neg (by omega)]

/-- The heap `h'` is `h` with a new last block of `n` bytes at the old break. -/
structure Extends (h h' : Heap) (l : List Nat) (n : Nat) : Prop where
  tiles : Tiles { h' with first := (l ++ [h.brk]).headD 0 } (l ++ [h.brk])
  keeps : ∀ y ∈ l, Keeps h h' y
  prev : ∀ y ∈ l, h'.get .prev y = h.get .prev y
  prev_new : h'.get .prev h.brk = l.getLastD 0
  size_new : h'.get .size h.brk = n
  free_new : h'.get .free h.brk = 0
  fresh : ∀ x, h.brk + 40 ≤ x → h'.mem x = if h.limit ≤ x then 0 else h.mem x

theorem getLastD_mem (ne : l.getLastD 0 ≠ 0) : l.getLastD 0 ∈ l := by
  rcases List.eq_nil_or_concat l with rfl | ⟨l, x, rfl⟩
  · exact absurd rfl ne
  · simp

section Append

variable {h₁ : Heap} (tiles : Tiles h l)
  (mem : ∀ x, h₁.mem x = if h.limit ≤ x then 0 else h.mem x)
include tiles mem

theorem Tiles.append_get {y : Nat} (inside : y ∈ l) (other : y = l.getLastD 0 → g ≠ .next) :
    (appended h₁ h.brk (l.getLastD 0) n).get g y = h.get g y := by
  have below := tiles.stop_le inside
  have afterY := @lt_stop h y
  have afterLast := @lt_stop h (l.getLastD 0)
  refine (appended_get (by omega) fun ne => ?_).trans (get_of_mem mem (by omega))
  rcases tiles.apart inside (getLastD_mem ne) with same | beside
  · exact .inl ⟨same, other same⟩
  · omega

theorem Tiles.append_keeps {y : Nat} (inside : y ∈ l) :
    Keeps h (appended h₁ h.brk (l.getLastD 0) n) y where
  size := tiles.append_get mem inside fun _ => nofun
  free := tiles.append_get mem inside fun _ => nofun
  magic := tiles.append_get mem inside fun _ => nofun
  data x low high := by
    have below := tiles.stop_le inside
    have page := h.brk_le_limit
    have afterLast := @lt_stop h (l.getLastD 0)
    rw [appended_mem (by omega), mem, if_neg (by omega)]
    intro ne
    rcases tiles.apart inside (getLastD_mem ne) with same | beside <;> omega

/-- The last block of the list leads to the new one. -/
theorem Tiles.append_links
    (link : l.getLastD 0 ≠ 0 →
      (appended h₁ h.brk (l.getLastD 0) n).get .next (l.getLastD 0) = h.brk) :
    Path ((appended h₁ h.brk (l.getLastD 0) n).get .next) l h.brk := by
  rcases List.eq_nil_or_concat l with rfl | ⟨l, z, rfl⟩
  · trivial
  · rw [List.concat_eq_append] at *
    have ends : (l ++ [z]).getLastD 0 = z := getLastD_append_cons
    have memZ : z ∈ l ++ [z] := by simp
    obtain ⟨front, -⟩ := path_append.mp tiles.links
    have before := tiles.around.1
    refine path_append.mpr ⟨front.congr fun y memY => ?_, ?_, trivial⟩
    · refine tiles.append_get mem (List.mem_append_left _ memY) fun last => ?_
      have ahead := before y memY
      have afterY := @lt_stop h y
      omega
    · rw [ends] at link ⊢
      exact link (tiles.ne_zero memZ)

/-- Appending puts the new block behind the others. -/
theorem Tiles.append (base : h₁.base = h.base) (brk : h₁.brk = h.brk + (40 + n)) (pos : 0 < n)
    (aligned : n % 8 = 0) (room : h.brk + (40 + n) ≤ h.room) :
    Extends h (appended h₁ h.brk (l.getLastD 0) n) l n := by
  have high := h.high
  have last : l.getLastD 0 ≠ 0 → h.stop (l.getLastD 0) ≤ h.brk :=
    fun ne => tiles.stop_le (getLastD_mem ne)
  have afterLast := @lt_stop h (l.getLastD 0)
  obtain ⟨size, prev, next, free, magic, link⟩ :=
    appended_header h₁ h.brk (l.getLastD 0) n (by omega) (by omega)
  have base' : (appended h₁ h.brk (l.getLastD 0) n).base = h.base := appended_base.trans base
  have brk' : (appended h₁ h.brk (l.getLastD 0) n).brk = h.brk + (40 + n) :=
    appended_brk.trans brk
  have keeps : ∀ y ∈ l, Keeps h (appended h₁ h.brk (l.getLastD 0) n) y :=
    fun y inside => tiles.append_keeps mem inside
  refine ⟨⟨rfl, path_append.mpr ⟨tiles.append_links mem link, next, trivial⟩,
      path_append.mpr ⟨?_, ?_, trivial⟩, ?_⟩, keeps,
    fun y inside => tiles.append_get mem inside fun _ => nofun, prev, size, free, ?_⟩
  · exact tiles.spans.congr fun y inside => (keeps y inside).stop
  · calc h.brk + 40 + (appended h₁ h.brk (l.getLastD 0) n).get .size h.brk
        = h.brk + (40 + n) := by rw [size, Nat.add_assoc]
      _ = (appended h₁ h.brk (l.getLastD 0) n).brk := brk'.symm
  · intro y inside
    rcases List.mem_append.mp inside with inside | inside
    · have block := (keeps y inside).block base' (tiles.block y inside)
      exact ⟨block.low, block.pos, block.aligned, block.magic⟩
    · rw [List.mem_singleton.mp inside]
      exact ⟨base'.trans_le h.lower, pos.trans_eq size.symm,
        (congrArg (· % 8) size).trans aligned, magic⟩
  · intro x beyond
    rw [appended_mem (.inr beyond), mem]
    intro ne
    have below := last ne
    omega

end Append

/-- Asking the kernel for a new last block succeeds where there is room. -/
theorem Tiles.extend (tiles : Tiles h l) (pos : 0 < n) (aligned : n % 8 = 0)
    (room : h.brk + (40 + n) ≤ h.room) :
    ∃ h', extendHeap h (l.getLastD 0) n = some (h', h.brk) ∧ h'.first = h.first ∧
      Extends h h' l n := by
  have high := h.high
  have lower := h.lower
  obtain ⟨h₁, moved, brk, base, -, first, mem⟩ :=
    moveBrk_eq (h := h) (b := h.brk + (40 + n)) (by omega) room
  have small : (40 + n) % 2 ^ 64 = 40 + n := Nat.mod_eq_of_lt (by omega)
  have grown : h.sbrk (40 + n) = some h₁ := (if_pos (by omega)).trans moved
  have page := h₁.brk_le_limit
  have head : h₁.Mapped 40 h.brk := ⟨base ▸ lower, by omega⟩
  have start : data h.brk = h.brk + 40 := Nat.mod_eq_of_lt (by omega)
  refine ⟨appended h₁ h.brk (l.getLastD 0) n, ?_, appended_first.trans first,
    tiles.append mem base brk pos aligned room⟩
  unfold extendHeap appended
  simp only [small, grown, Heap.assign_eq, Heap.mapped_set, head, Option.bind_eq_bind,
    Option.bind_some, start, -Nat.reducePow]
  by_cases none : l.getLastD 0 = 0
  · simp only [if_pos none]
  · have below := tiles.stop_le (getLastD_mem none)
    have after := @lt_stop h (l.getLastD 0)
    have headLast : h₁.Mapped 40 (l.getLastD 0) :=
      ⟨base ▸ (tiles.block _ (getLastD_mem none)).low, by omega⟩
    simp only [if_neg none, Option.bind_some, Heap.assign_eq, Heap.mapped_set, head, headLast]

theorem sbrk_refused (beyond : h.room < h.brk + n) (positive : n < 2 ^ 63) : h.sbrk n = none :=
  (if_pos positive).trans (dif_neg (by omega))

/-- Where the kernel refuses nothing changes. -/
theorem extendHeap_refused {last : Nat} (refused : h.sbrk (40 + n) = none)
    (small : 40 + n < 2 ^ 64) : extendHeap h last n = some (h, 0) := by
  simp only [extendHeap, Nat.mod_eq_of_lt small, refused]

/-! ## Searching -/

/-- The block at `b` is free and has room for `n` bytes. -/
def Suits (h : Heap) (n b : Nat) : Prop :=
  h.get .free b ≠ 0 ∧ n ≤ h.get .size b

instance : Decidable (Suits h n b) :=
  inferInstanceAs (Decidable (_ ∧ _))

theorem suits_eq (head : h.Mapped 40 b) : suits h n b = some (decide (Suits h n b)) := by
  simp only [suits, Heap.fetch_eq head, Option.bind_eq_bind, Option.bind_some, Suits]
  by_cases free : h.get .free b = 0 <;> simp [free]

/-- The search passes the blocks that do not suit. -/
theorem findLoop_skip {e k last : Nat} (links : Path (h.get .next) l e)
    (heads : ∀ b ∈ l, b ≠ 0 ∧ h.Mapped 40 b) (unsuited : ∀ b ∈ l, ¬ Suits h n b) :
    findLoop h n (l.length + k) last (l.headD e) = findLoop h n k (l.getLastD last) e := by
  induction l generalizing last with
  | nil => rw [List.length_nil, Nat.zero_add, List.headD_nil, List.getLastD_nil]
  | cons b l ih =>
      obtain ⟨ne, head⟩ := heads b List.mem_cons_self
      have passed : decide (Suits h n b) = false :=
        decide_eq_false (unsuited b List.mem_cons_self)
      rw [List.length_cons, Nat.add_right_comm, List.headD_cons, List.getLastD_cons, findLoop,
        if_neg ne, suits_eq head, Heap.fetch_eq head, links.1]
      simp only [passed, Option.bind_eq_bind, Option.bind_some, Bool.false_eq_true, ↓reduceIte]
      exact ih links.2 (fun y mem => heads y (List.mem_cons_of_mem b mem))
        fun y mem => unsuited y (List.mem_cons_of_mem b mem)

theorem length_le {e : Nat} (path : Path h.stop l e) : l.headD e + 40 * l.length ≤ e := by
  induction l with
  | nil => simp
  | cons b l ih =>
      have rest := ih path.2
      have next : h.stop b = l.headD e := path.1
      have after := @lt_stop h b
      rw [List.headD_cons, List.length_cons]
      omega

section Find

variable (tiles : Tiles h l)
include tiles

theorem Tiles.length_lt : l.length < h.limit := by
  have count := length_le tiles.spans
  have low := h.low
  have lower := h.lower
  have page := h.brk_le_limit
  omega

theorem Tiles.heads : ∀ b ∈ l, b ≠ 0 ∧ h.Mapped 40 b :=
  fun _ mem => ⟨tiles.ne_zero mem, tiles.header mem⟩

/-- A search that finds nothing ends at the last block. -/
theorem Tiles.find_none (last : Nat) (unsuited : ∀ b ∈ l, ¬ Suits h n b) :
    findBlock h last n = some (0, l.getLastD last) := by
  obtain ⟨k, fuel⟩ := Nat.exists_eq_add_of_lt tiles.length_lt
  rw [findBlock, fuel, Nat.add_assoc, tiles.first, findLoop_skip tiles.links tiles.heads unsuited,
    findLoop, if_pos rfl]

end Find

/-- The search finds the first block that suits. -/
theorem Tiles.find_some {d : Nat} (tiles : Tiles h (l₁ ++ d :: l₂)) (last : Nat)
    (unsuited : ∀ b ∈ l₁, ¬ Suits h n b) (suited : Suits h n d) :
    findBlock h last n = some (d, l₁.getLastD last) := by
  have enough := tiles.length_lt
  rw [List.length_append, List.length_cons] at enough
  obtain ⟨k, fuel⟩ := Nat.exists_eq_add_of_lt (show l₁.length < h.limit by omega)
  obtain ⟨front, -⟩ := path_append.mp tiles.links
  have memD : d ∈ l₁ ++ d :: l₂ := by simp
  rw [findBlock, fuel, Nat.add_assoc, tiles.first, headD_append,
    findLoop_skip front (fun y mem => tiles.heads y (List.mem_append_left _ mem)) unsuited,
    List.headD_cons, findLoop, if_neg (tiles.ne_zero memD), suits_eq (tiles.header memD)]
  simp [suited]

/-! ## Assignments that leave the tiling alone -/

/-- The tiling is a matter of sizes, links and magic pointers. -/
theorem Tiles.congr (tiles : Tiles h l) (base : h'.base = h.base) (brk : h'.brk = h.brk)
    (first : h'.first = h.first)
    (same : ∀ y ∈ l, ∀ g, g ≠ .free → g ≠ .prev → h'.get g y = h.get g y) : Tiles h' l where
  first := first.trans tiles.first
  links := tiles.links.congr fun y mem => same y mem .next nofun nofun
  spans := brk ▸ tiles.spans.congr fun y mem =>
    congrArg (y + 40 + ·) (same y mem .size nofun nofun)
  block y mem := by
    have block := tiles.block y mem
    have size := same y mem .size nofun nofun
    exact ⟨base.trans_le block.low, block.pos.trans_eq size.symm,
      (congrArg (· % 8) size).trans block.aligned,
      (same y mem .magic nofun nofun).trans block.magic⟩

/-- Marking one block changes nothing else. -/
theorem Tiles.mark_get {d y : Nat} (tiles : Tiles h l) (memD : d ∈ l) (mem : y ∈ l)
    (other : y = d → g ≠ .free) : (h.set .free d v).get g y = h.get g y := by
  apply Heap.get_set
  rcases tiles.apart mem memD with same | before | behind
  · exact .inl ⟨same, other same⟩
  · exact .inr (.inr (lt_stop.trans before))
  · exact .inr (.inl (lt_stop.trans behind))

theorem Tiles.mark {d : Nat} (tiles : Tiles h l) (memD : d ∈ l) : Tiles (h.set .free d v) l :=
  tiles.congr rfl rfl rfl fun _ mem _ free _ => tiles.mark_get memD mem fun _ => free

theorem Tiles.mark_keeps {d y : Nat} (tiles : Tiles h l) (memD : d ∈ l) (mem : y ∈ l)
    (ne : y ≠ d) : Keeps h (h.set .free d v) y where
  size := tiles.mark_get memD mem fun same => absurd same ne
  free := tiles.mark_get memD mem fun same => absurd same ne
  magic := tiles.mark_get memD mem fun same => absurd same ne
  data x low high := by
    apply Heap.set_mem
    have afterD := @lt_stop h d
    rcases tiles.apart mem memD with same | before | behind
    · exact absurd same ne
    · omega
    · omega

/-- The heaps differ in the `n` bytes from `a` on only. -/
structure Writes (h h' : Heap) (a n : Nat) : Prop where
  base : h'.base = h.base
  brk : h'.brk = h.brk
  first : h'.first = h.first
  mem : ∀ x, x < a ∨ a + n ≤ x → h'.mem x = h.mem x

section Writes

variable {d y : Nat} (writes : Writes h h' a n) (tiles : Tiles h l) (memD : d ∈ l)
  (low : d + 40 ≤ a) (high : a + n ≤ h.stop d)
include writes tiles memD low high

/-- Writing to the data of a block changes no header. -/
theorem Writes.get (mem : y ∈ l) : h'.get g y = h.get g y := by
  have inside := Heap.offset_width (f := g)
  have afterY := @lt_stop h y
  apply load_congr
  intro i short
  apply writes.mem
  rcases tiles.apart mem memD with rfl | before | behind <;> omega

theorem Writes.tile : Tiles h' l :=
  tiles.congr writes.base writes.brk writes.first fun _ mem _ _ _ =>
    writes.get tiles memD low high mem

theorem Writes.keeps (mem : y ∈ l) (ne : y ≠ d) : Keeps h h' y where
  size := writes.get tiles memD low high mem
  free := writes.get tiles memD low high mem
  magic := writes.get tiles memD low high mem
  data x from_ to_ := by
    apply writes.mem
    rcases tiles.apart mem memD with same | before | behind
    · exact absurd same ne
    · omega
    · omega

end Writes

end Shang.Malloc
