import Shang.Malloc.Tiling

/-!
# What `my_free` takes back

A block that is freed is merged with the free blocks around it, and what
results is given back to the kernel if it is the last block. `Joined` says what
the merging has left; the three ways to go on from there have one lemma each.

The lemmas ask less of `prev` than the representation invariant gives: the
block that is freed must not have a free block as its `prev` that is not the
one before it.
-/

namespace Shang.Malloc

open Lib

variable {h h' h'' : Heap} {b c e n v x y : Nat} {f g : Field} {l l₁ l₂ k₁ k₂ : List Nat}

theorem getBlock_eq (low : 4096 ≤ b) (high : b < 2 ^ 63) : getBlock (b + 40) = b := by
  unfold getBlock sub64
  omega

theorem validAddr_eq (tiles : Tiles h l) (mem : b ∈ l) : validAddr h (b + 40) = some true := by
  have high := tiles.high mem
  have after := @lt_stop h b
  have below := tiles.stop_le mem
  have stop : h.stop b = b + 40 + h.get .size b := rfl
  have block := tiles.block b mem
  have pos := block.pos
  have start : h.first ≤ b := by
    rcases l with _ | ⟨z, l⟩
    · exact absurd mem List.not_mem_nil
    · rw [tiles.first, List.headD_cons]
      rcases List.mem_cons.mp mem with rfl | mem
      · exact le_rfl
      · have ahead := List.rel_of_pairwise_cons tiles.sorted mem
        have afterZ := @lt_stop h z
        omega
  rw [validAddr, if_neg (tiles.first_ne_zero mem), if_pos (by omega),
    getBlock_eq (tiles.low mem) (by omega), Heap.fetch_eq (tiles.header mem), block.magic]
  simp

/-! ## Merging the neighbours -/

theorem neighbourFree_eq (head : b ≠ 0 → h.Mapped 40 b) :
    neighbourFree h b = some (if b = 0 then 0 else h.get .free b) := by
  unfold neighbourFree
  split
  · rfl
  · exact Heap.fetch_eq (head ‹_›)

/-- The block before `b` is not free, as far as `b` knows. -/
theorem mergePrev_stay (head : h.Mapped 40 b)
    (used : h.get .prev b ≠ 0 → h.Mapped 40 (h.get .prev b) ∧ h.get .free (h.get .prev b) = 0) :
    mergePrev h b = some (h, b) := by
  have read := neighbourFree_eq fun ne => (used ne).1
  have zero : (if h.get .prev b = 0 then 0 else h.get .free (h.get .prev b)) = 0 := by
    split
    · rfl
    · exact (used ‹_›).2
  rw [zero] at read
  simp only [mergePrev, Heap.fetch_eq head, read, Option.bind_eq_bind, Option.bind_some, if_pos]

theorem mergePrev_merge (tiles : Tiles h (l₁ ++ c :: b :: l₂)) (freed : h.get .free b ≠ 0)
    (prev : h.get .prev b = c) (free : h.get .free c ≠ 0) :
    mergePrev h b = some (merged h c b (l₂.headD 0), c) := by
  have memB : b ∈ l₁ ++ c :: b :: l₂ := by simp
  have memC : c ∈ l₁ ++ c :: b :: l₂ := by simp
  have read := neighbourFree_eq (h := h) (b := c) fun _ => tiles.header memC
  rw [if_neg (tiles.ne_zero memC)] at read
  simp only [mergePrev, Heap.fetch_eq (tiles.header memB), prev, read, Option.bind_eq_bind,
    Option.bind_some, if_neg free, blockMerge_eq tiles freed]

theorem mergeNext_stay (tiles : Tiles h (l₁ ++ b :: l₂))
    (used : ∀ e ∈ l₂.head?, h.get .free e = 0) : mergeNext h b = some h := by
  have memB : b ∈ l₁ ++ b :: l₂ := by simp
  have read : neighbourFree h (l₂.headD 0) = some 0 := by
    rcases l₂ with _ | ⟨e, l₂⟩
    · rfl
    · have memE : e ∈ l₁ ++ b :: e :: l₂ := by simp
      rw [List.headD_cons, neighbourFree, if_neg (tiles.ne_zero memE),
        Heap.fetch_eq (tiles.header memE), used e rfl]
  simp only [mergeNext, Heap.fetch_eq (tiles.header memB), tiles.next_eq, read,
    Option.bind_eq_bind, Option.bind_some, if_pos]

theorem mergeNext_merge (tiles : Tiles h (l₁ ++ b :: e :: l₂)) (free : h.get .free e ≠ 0) :
    mergeNext h b = some (merged h b e (l₂.headD 0)) := by
  have memB : b ∈ l₁ ++ b :: e :: l₂ := by simp
  have memE : e ∈ l₁ ++ b :: e :: l₂ := by simp
  have next : h.get .next b = e := tiles.next_eq
  have read : neighbourFree h e = some (h.get .free e) := by
    rw [neighbourFree, if_neg (tiles.ne_zero memE), Heap.fetch_eq (tiles.header memE)]
  simp only [mergeNext, Heap.fetch_eq (tiles.header memB), next, read, Option.bind_eq_bind,
    Option.bind_some, if_neg free, blockMerge_eq tiles free]

/-- Merging keeps the list linked both ways. -/
theorem Tiles.merge_doubly (tiles : Tiles h (l₁ ++ c :: b :: l₂))
    (doubly : Seg (h.get .next) (h.get .prev) 0 (l₁ ++ c :: b :: l₂) 0) :
    Seg ((merged h c b (l₂.headD 0)).get .next) ((merged h c b (l₂.headD 0)).get .prev) 0
      (l₁ ++ c :: l₂) 0 := by
  have nodup : (l₁ ++ [c] ++ b :: l₂).Nodup := by simpa using tiles.nodup
  have unlinked : Seg (Function.update (h.get .next) c (l₂.headD 0))
      (if l₂ = [] then h.get .prev else Function.update (h.get .prev) (l₂.headD 0) c) 0
      (l₁ ++ [c] ++ l₂) 0 := by
    have joined : Seg (h.get .next) (h.get .prev) 0 (l₁ ++ [c] ++ b :: l₂) 0 := by
      simpa using doubly
    apply joined.unlink nodup
    · simp
    · simp
    · exact fun last => if_pos last
    · intro some
      rw [if_neg some]
      simp
  rw [List.append_assoc] at unlinked
  refine unlinked.congr ?_
  intro y mem
  obtain ⟨-, next, others⟩ := tiles.merge_self
  have nodup' := tiles.merge.nodup
  constructor
  · by_cases same : y = c
    · rw [same, next, Function.update_self]
    · rw [Function.update_of_ne same]
      exact tiles.merge_get (mem_append_of_ne mem same) fun _ => by nofun
  · rw [tiles.merge_prev mem]
    rcases l₂ with _ | ⟨e, l₂⟩
    · rw [List.headD_nil, if_neg (tiles.merge.ne_zero mem), if_pos rfl]
    · rw [if_neg (List.cons_ne_nil e l₂), List.headD_cons, Function.update_apply]

/-- Some blocks of `l` have been merged into `x`, which lies between `k₁` and
`k₂`; the blocks of these are as they were. -/
structure Joined (h h' : Heap) (l k₁ : List Nat) (x : Nat) (k₂ : List Nat) : Prop where
  tiles : Tiles h' (k₁ ++ x :: k₂)
  keeps : ∀ y ∈ k₁ ++ k₂, Keeps h h' y
  prev : h'.get .prev x = h.get .prev x
  freed : h'.get .free x ≠ 0
  brk : h'.brk = h.brk
  base : h'.base = h.base
  doubly : Seg (h.get .next) (h.get .prev) 0 l 0 →
    Seg (h'.get .next) (h'.get .prev) 0 (k₁ ++ x :: k₂) 0

theorem joined_refl (tiles : Tiles h (k₁ ++ x :: k₂)) (freed : h.get .free x ≠ 0) :
    Joined h h (k₁ ++ x :: k₂) k₁ x k₂ :=
  ⟨tiles, fun _ _ => Keeps.refl, rfl, freed, rfl, rfl, id⟩

theorem joined_merge (tiles : Tiles h (k₁ ++ x :: b :: k₂)) (freed : h.get .free x ≠ 0) :
    Joined h (merged h x b (k₂.headD 0)) (k₁ ++ x :: b :: k₂) k₁ x k₂ := by
  obtain ⟨-, -, others⟩ := tiles.merge_self
  refine ⟨tiles.merge, fun y mem => tiles.merge_keeps mem, others .prev nofun nofun, ?_,
    relink_brk, relink_base, tiles.merge_doubly⟩
  rwa [others .free nofun nofun]

theorem Joined.trans {k : List Nat} (first : Joined h h' l k₁ x k)
    (second : Joined h' h'' (k₁ ++ x :: k) k₁ x k₂) (fewer : k₂ ⊆ k) : Joined h h'' l k₁ x k₂ where
  tiles := second.tiles
  keeps y mem := by
    refine (first.keeps y ?_).trans (second.keeps y mem)
    rcases List.mem_append.mp mem with mem | mem
    · exact List.mem_append_left _ mem
    · exact List.mem_append_right _ (fewer mem)
  prev := second.prev.trans first.prev
  freed := second.freed
  brk := second.brk.trans first.brk
  base := second.base.trans first.base
  doubly := second.doubly ∘ first.doubly

/-- The `prev` of `b` is a block before it, and the one just before it where
that is free. -/
def Back (h : Heap) (l₁ : List Nat) (b : Nat) : Prop :=
  h.get .prev b = 0 ∨
    h.get .prev b ∈ l₁ ∧ (h.get .free (h.get .prev b) ≠ 0 → l₁.getLast? = some (h.get .prev b))

/-- What the merge with the predecessor has done. -/
def Front (h : Heap) (l₁ : List Nat) (b : Nat) (k₁ : List Nat) (x : Nat) : Prop :=
  k₁ = l₁ ∧ x = b ∧ (h.get .prev b ≠ 0 → h.get .free (h.get .prev b) = 0) ∨
    l₁ = k₁ ++ [x] ∧ h.get .free x ≠ 0

/-- What the merge with the successor has done. -/
def Behind (h : Heap) (l₂ k₂ : List Nat) : Prop :=
  k₂ = l₂ ∧ (∀ e ∈ l₂.head?, h.get .free e = 0) ∨ ∃ e, l₂ = e :: k₂ ∧ h.get .free e ≠ 0

theorem mergePrev_spec (tiles : Tiles h (l₁ ++ b :: l₂)) (freed : h.get .free b ≠ 0)
    (back : Back h l₁ b) :
    ∃ h' x k₁, mergePrev h b = some (h', x) ∧ Front h l₁ b k₁ x ∧
      Joined h h' (l₁ ++ b :: l₂) k₁ x l₂ := by
  have memB : b ∈ l₁ ++ b :: l₂ := by simp
  by_cases used : h.get .prev b ≠ 0 → h.get .free (h.get .prev b) = 0
  · refine ⟨h, b, l₁, mergePrev_stay (tiles.header memB) fun ne => ⟨?_, used ne⟩,
      .inl ⟨rfl, rfl, used⟩, joined_refl tiles freed⟩
    obtain none | ⟨mem, -⟩ := back
    · exact absurd none ne
    · exact tiles.header (List.mem_append_left _ mem)
  · obtain ⟨ne, free⟩ := Classical.not_imp.mp used
    obtain none | ⟨-, last⟩ := back
    · exact absurd none ne
    · obtain ⟨k₁, rfl⟩ := List.getLast?_eq_some_iff.mp (last free)
      rw [List.append_assoc, List.singleton_append] at tiles ⊢
      exact ⟨_, _, k₁, mergePrev_merge tiles freed rfl free, .inr ⟨rfl, free⟩,
        joined_merge tiles free⟩

theorem mergeNext_spec (tiles : Tiles h (k₁ ++ x :: l₂)) (freed : h.get .free x ≠ 0) :
    ∃ h' k₂, mergeNext h x = some h' ∧ Behind h l₂ k₂ ∧ k₂ ⊆ l₂ ∧
      Joined h h' (k₁ ++ x :: l₂) k₁ x k₂ := by
  by_cases used : ∀ e ∈ l₂.head?, h.get .free e = 0
  · exact ⟨h, l₂, mergeNext_stay tiles used, .inl ⟨rfl, used⟩, List.Subset.refl _,
      joined_refl tiles freed⟩
  · rcases l₂ with _ | ⟨e, k₂⟩
    · exact absurd (fun _ mem => nomatch mem) used
    · have free : h.get .free e ≠ 0 := fun zero => used fun _ mem => by
        rw [← Option.mem_some.mp mem]
        exact zero
      exact ⟨_, k₂, mergeNext_merge tiles free, .inr ⟨e, rfl, free⟩, List.subset_cons_self e k₂,
        joined_merge tiles freed⟩

/-! ## Giving back -/

/-- What `my_free` does with the block it is given before it looks whether the
block that results is the last one. -/
theorem myFree_spec (tiles : Tiles h (l₁ ++ b :: l₂)) (back : Back h l₁ b) :
    ∃ h' k₁ x k₂, myFree h (b + 40) = giveBack h' x ∧ Front h l₁ b k₁ x ∧ Behind h l₂ k₂ ∧
      Joined (h.set .free b 1) h' (l₁ ++ b :: l₂) k₁ x k₂ := by
  have memB : b ∈ l₁ ++ b :: l₂ := by simp
  have high := tiles.high memB
  have after := @lt_stop h b
  have marked : Tiles (h.set .free b 1) (l₁ ++ b :: l₂) := tiles.mark memB
  have freed : (h.set .free b 1).get .free b ≠ 0 := by
    rw [Heap.get_set_self (by simp) (by simp)]
    exact one_ne_zero
  have prev : (h.set .free b 1).get .prev b = h.get .prev b := Heap.get_set (by simp)
  have same : ∀ y ∈ l₁ ++ b :: l₂, y ≠ b → (h.set .free b 1).get .free y = h.get .free y :=
    fun y mem ne => (tiles.mark_keeps memB mem ne).free
  have nodup := tiles.nodup
  have ahead : ∀ y ∈ l₁, y ≠ b := fun y mem =>
    ne_of_mem_append nodup (List.mem_append_left _ mem)
  have beyond : ∀ y ∈ l₂, y ≠ b := fun y mem =>
    ne_of_mem_append nodup (List.mem_append_right _ mem)
  have back' : Back (h.set .free b 1) l₁ b := by
    unfold Back
    rw [prev]
    refine back.imp_right fun ⟨mem, last⟩ => ⟨mem, ?_⟩
    rw [same _ (List.mem_append_left _ mem) (ahead _ mem)]
    exact last
  obtain ⟨h₁, x, k₁, merged₁, front, joined₁⟩ := mergePrev_spec marked freed back'
  obtain ⟨h₂, k₂, merged₂, behind, fewer, joined₂⟩ := mergeNext_spec joined₁.tiles joined₁.freed
  refine ⟨h₂, k₁, x, k₂, ?_, ?_, ?_, joined₁.trans joined₂ fewer⟩
  · simp only [myFree, validAddr_eq tiles memB, getBlock_eq (tiles.low memB) (by omega),
      Heap.assign_eq (tiles.header memB), merged₁, merged₂, Option.bind_eq_bind, Option.bind_some,
      ↓reduceIte]
  · unfold Front at front ⊢
    rw [prev] at front
    rcases front with ⟨same₁, same₂, used⟩ | ⟨rfl, free⟩
    · refine .inl ⟨same₁, same₂, fun ne => ?_⟩
      obtain none | ⟨mem, -⟩ := back
      · exact absurd none ne
      · rw [← same _ (List.mem_append_left _ mem) (ahead _ mem)]
        exact used ne
    · refine .inr ⟨rfl, ?_⟩
      have memX : x ∈ k₁ ++ [x] := by simp
      rwa [same x (List.mem_append_left _ memX) (ahead x memX)] at free
  · have flags : ∀ e ∈ l₂, h₁.get .free e = h.get .free e := by
      intro e mem
      rw [(joined₁.keeps e (List.mem_append_right _ mem)).free]
      exact same e (by simp [mem]) (beyond e mem)
    refine behind.imp (fun ⟨same₁, used⟩ => ⟨same₁, fun e mem => ?_⟩) fun ⟨e, eq, free⟩ => ?_
    · rw [← flags e (List.mem_of_head? mem)]
      exact used e mem
    · refine ⟨e, eq, ?_⟩
      rwa [flags e (by simp [eq])] at free

/-- What lies below the new break stays when the break moves down. -/
theorem brkTo_spec (low : h.base ≤ b) (high : b ≤ h.brk) :
    (h.brkTo b).brk = b ∧ (h.brkTo b).base = h.base ∧ (h.brkTo b).first = h.first ∧
      ∀ x < h.brk, (h.brkTo b).mem x = h.mem x := by
  have upper := h.upper
  obtain ⟨h', moved, brk, base, -, first, mem⟩ := moveBrk_eq low (high.trans upper)
  have page := h.brk_le_limit
  rw [Heap.brkTo, moved, Option.getD_some]
  refine ⟨brk, base, first, fun x below => ?_⟩
  rw [mem, if_neg (by omega)]

theorem giveBack_inner (tiles : Tiles h (k₁ ++ x :: e :: k₂)) : giveBack h x = some h := by
  have memX : x ∈ k₁ ++ x :: e :: k₂ := by simp
  have memE : e ∈ k₁ ++ x :: e :: k₂ := by simp
  have next : h.get .next x = e := tiles.next_eq
  have ne := tiles.ne_zero memE
  simp only [giveBack, Heap.fetch_eq (tiles.header memX), next, Option.bind_eq_bind,
    Option.bind_some, if_neg ne, if_neg (fun both : h.get .prev x = 0 ∧ e = 0 => ne both.2)]

theorem giveBack_last (tiles : Tiles h (k₁ ++ [x])) (some : k₁ ≠ []) :
    giveBack h x = Option.some (h.brkTo x) := by
  have memX : x ∈ k₁ ++ [x] := by simp
  have next : h.get .next x = 0 := tiles.next_eq
  have second : x ≠ h.first := by
    rcases k₁ with _ | ⟨z, k₁⟩
    · exact absurd rfl some
    · rw [tiles.first]
      rintro rfl
      exact (List.nodup_cons.mp tiles.nodup).1 (by simp)
  simp only [giveBack, Heap.fetch_eq (tiles.header memX), next, Option.bind_eq_bind,
    Option.bind_some, and_true, ↓reduceIte, if_neg second, ite_self]

theorem giveBack_only (tiles : Tiles h [x]) (prev : h.get .prev x = 0) :
    giveBack h x = some (Heap.brkTo { h with first := 0 } x) := by
  have memX : x ∈ [x] := List.mem_singleton_self x
  have tiles' : Tiles h ([] ++ [x]) := tiles
  have next : h.get .next x = 0 := tiles'.next_eq
  have first : x = h.first := tiles.first.symm
  simp only [giveBack, Heap.fetch_eq (tiles.header memX), next, Option.bind_eq_bind,
    Option.bind_some, prev, and_self, ↓reduceIte, if_pos first]

/-! ## What is kept -/

theorem back_of_last (prev : h.get .prev b = l₁.getLastD 0) : Back h l₁ b := by
  unfold Back
  rw [prev]
  rcases List.eq_nil_or_concat l₁ with rfl | ⟨l₁, z, rfl⟩
  · exact .inl rfl
  · rw [List.concat_eq_append, getLastD_append_cons, List.getLastD_nil]
    exact .inr ⟨by simp, fun _ => List.getLast?_concat⟩

/-- A block in use is not merged. -/
theorem Front.kept (front : Front h l₁ b k₁ x) (mem : y ∈ l₁) (used : h.get .free y = 0) :
    y ∈ k₁ := by
  rcases front with ⟨rfl, -⟩ | ⟨rfl, free⟩
  · exact mem
  · rcases List.mem_append.mp mem with mem | mem
    · exact mem
    · rw [List.mem_singleton.mp mem] at used
      exact absurd used free

theorem Behind.kept (behind : Behind h l₂ k₂) (mem : y ∈ l₂) (used : h.get .free y = 0) :
    y ∈ k₂ := by
  rcases behind with ⟨rfl, -⟩ | ⟨e, rfl, free⟩
  · exact mem
  · rcases List.mem_cons.mp mem with rfl | mem
    · exact absurd used free
    · exact mem

theorem kept_of_merges (front : Front h l₁ b k₁ x) (behind : Behind h l₂ k₂)
    (mem : y ∈ l₁ ++ l₂) (used : h.get .free y = 0) : y ∈ k₁ ++ k₂ := by
  rcases List.mem_append.mp mem with mem | mem
  · exact List.mem_append_left _ (front.kept mem used)
  · exact List.mem_append_right _ (behind.kept mem used)

/-- No block comes in by merging. -/
theorem Front.subset (front : Front h l₁ b k₁ x) : k₁ ⊆ l₁ := by
  rcases front with ⟨rfl, -⟩ | ⟨rfl, -⟩
  · exact List.Subset.refl _
  · exact List.subset_append_left _ _

theorem Behind.subset (behind : Behind h l₂ k₂) : k₂ ⊆ l₂ := by
  rcases behind with ⟨rfl, -⟩ | ⟨e, rfl, -⟩
  · exact List.Subset.refl _
  · exact List.subset_cons_self e k₂

theorem old_of_merges (front : Front h l₁ b k₁ x) (behind : Behind h l₂ k₂)
    (mem : y ∈ k₁ ++ k₂) : y ∈ l₁ ++ l₂ := by
  rcases List.mem_append.mp mem with mem | mem
  · exact List.mem_append_left _ (front.subset mem)
  · exact List.mem_append_right _ (behind.subset mem)

/-- The blocks beside the merged one are as they were before `b` was marked. -/
theorem Joined.keeps_old {l : List Nat} (tiles : Tiles h (l₁ ++ b :: l₂))
    (front : Front h l₁ b k₁ x) (behind : Behind h l₂ k₂)
    (joined : Joined (h.set .free b 1) h' l k₁ x k₂) (mem : y ∈ k₁ ++ k₂) : Keeps h h' y := by
  have old := old_of_merges front behind mem
  have marked : Keeps h (h.set .free b 1) y :=
    tiles.mark_keeps (by simp) (mem_append_cons old) (ne_of_mem_append tiles.nodup old)
  exact marked.trans (joined.keeps y mem)

/-- A block below the new break is kept when the break moves down. -/
theorem brkTo_keeps (low : h.base ≤ b) (high : b ≤ h.brk) (below : h.stop y ≤ b) :
    Keeps h (h.brkTo b) y ∧ (h.brkTo b).get .next y = h.get .next y := by
  obtain ⟨-, -, -, mem⟩ := brkTo_spec low high
  have after := @lt_stop h y
  have get : ∀ g, (h.brkTo b).get g y = h.get g y := by
    intro g
    have inside := Heap.offset_width (f := g)
    exact load_congr fun i short => mem _ (by omega)
  exact ⟨⟨get _, get _, get _, fun x _ to_ => mem x (by omega)⟩, get _⟩

/-- When one of two blocks in use is freed, the other one stays listed. -/
theorem myFree_keeps (tiles : Tiles h (l₁ ++ b :: l₂)) (back : Back h l₁ b) {d : Nat}
    (memD : d ∈ l₁ ++ l₂) (used : h.get .free d = 0) :
    ∃ h', myFree h (b + 40) = some h' ∧
      ∀ y ∈ l₁ ++ l₂, h.get .free y = 0 → Keeps h h' y ∧ Listed h' y ∧ h.stop y ≤ h'.brk := by
  obtain ⟨h', k₁, x, k₂, called, front, behind, joined⟩ := myFree_spec tiles back
  have kept : ∀ y ∈ l₁ ++ l₂, h.get .free y = 0 → y ∈ k₁ ++ k₂ ∧ Keeps h h' y := by
    intro y mem used
    have memK := kept_of_merges front behind mem used
    exact ⟨memK, joined.keeps_old tiles front behind memK⟩
  rcases k₂ with _ | ⟨e, k₂⟩
  · have some : k₁ ≠ [] := by
      rintro rfl
      exact absurd (kept d memD used).1 List.not_mem_nil
    refine ⟨_, called.trans (giveBack_last joined.tiles some), fun y mem used => ?_⟩
    obtain ⟨memK, keeps⟩ := kept y mem used
    rw [List.append_nil] at memK
    have lower := (joined.tiles.block x (by simp)).low
    have upper := joined.tiles.stop_le (b := x) (by simp)
    have after := @lt_stop h' x
    have below : ∀ z ∈ k₁, h'.stop z ≤ x := joined.tiles.around.1
    obtain ⟨brk, -, first, -⟩ := brkTo_spec lower (show x ≤ h'.brk by omega)
    obtain ⟨front, -⟩ := path_append.mp joined.tiles.links
    refine ⟨keeps.trans (brkTo_keeps lower (by omega) (below y memK)).1, ?_, ?_⟩
    · refine listed_of_path (front.congr fun z mem =>
        (brkTo_keeps lower (by omega) (below z mem)).2)
        (fun z mem => joined.tiles.ne_zero (List.mem_append_left _ mem)) (fun _ => ?_) y memK
      have head : h'.first = k₁.headD 0 := by
        rw [joined.tiles.first, headD_append]
        rcases k₁ with _ | ⟨z, k₁⟩
        · exact absurd rfl some
        · rfl
      rw [← head, ← first]
      refine .first ?_
      rw [first]
      exact joined.tiles.first_ne_zero (List.mem_append_left _ memK)
    · rw [brk, ← keeps.stop]
      exact below y memK
  · refine ⟨h', called.trans (giveBack_inner joined.tiles), fun y mem used => ?_⟩
    obtain ⟨memK, keeps⟩ := kept y mem used
    have memY : y ∈ k₁ ++ x :: e :: k₂ := mem_append_cons memK
    refine ⟨keeps, joined.tiles.listed_iff.mpr memY, ?_⟩
    rw [← keeps.stop]
    exact joined.tiles.stop_le memY

end Shang.Malloc
