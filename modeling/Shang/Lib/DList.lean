import Mathlib.Logic.Function.Basic
import Mathlib.Data.List.Nodup

/-!
# Doubly linked list segments

Nodes are named by pointers and linked by two fields, given as functions
`next prev : P → P`. `Seg next prev b l e` says that the nodes of `l` are
linked both ways, that the first one's `prev` is `b` and the last one's `next`
is `e`. A whole list is a segment between two null pointers.

Edits of a list are assignments to single fields: an assignment to a node off
the segment changes nothing, one to the last node's `next` or to the first
node's `prev` moves that end. `seg_append` cuts a list open at the edit and
joins it again.
-/

namespace Shang.Lib

variable {P : Type*} {next prev next' prev' : P → P} {b e x p q : P} {l l₁ l₂ : List P}

/-- The nodes of `l`, linked both ways between `b` and `e`. -/
def Seg (next prev : P → P) : P → List P → P → Prop
  | _, [], _ => True
  | b, p :: l, e => prev p = b ∧ next p = l.headD e ∧ Seg next prev p l e

@[simp] theorem seg_nil : Seg next prev b [] e := trivial

theorem seg_cons :
    Seg next prev b (p :: l) e ↔ prev p = b ∧ next p = l.headD e ∧ Seg next prev p l e := Iff.rfl

theorem headD_append : (l₁ ++ l₂).headD e = l₁.headD (l₂.headD e) := by
  cases l₁ <;> rfl

@[simp] theorem getLastD_append_cons : (l₁ ++ p :: l₂).getLastD b = l₂.getLastD p := by
  induction l₁ generalizing b with
  | nil => rw [List.nil_append, List.getLastD_cons]
  | cons q l₁ ih => rw [List.cons_append, List.getLastD_cons, ih]

/-- The last of `b` and the nodes behind it. -/
theorem exists_getLastD (b : P) (l : List P) : ∃ l', b :: l = l' ++ [l.getLastD b] := by
  induction l generalizing b with
  | nil => exact ⟨[], rfl⟩
  | cons p l ih =>
      obtain ⟨l', last⟩ := ih p
      exact ⟨b :: l', by rw [List.getLastD_cons, last, List.cons_append]⟩

/-- The nodes that a node stands between. -/
theorem mem_append_cons (mem : q ∈ l₁ ++ l₂) : q ∈ l₁ ++ p :: l₂ :=
  List.perm_middle.mem_iff.mpr (List.mem_cons_of_mem p mem)

theorem mem_append_of_ne (mem : q ∈ l₁ ++ p :: l₂) (ne : q ≠ p) : q ∈ l₁ ++ l₂ :=
  List.mem_of_ne_of_mem ne (List.perm_middle.mem_iff.mp mem)

theorem ne_of_mem_append (nodup : (l₁ ++ p :: l₂).Nodup) (mem : q ∈ l₁ ++ l₂) : q ≠ p := by
  rintro rfl
  exact (List.nodup_middle.mp nodup).notMem mem

/-- A segment is two segments that meet at a seam. -/
theorem seg_append :
    Seg next prev b (l₁ ++ l₂) e ↔
      Seg next prev b l₁ (l₂.headD e) ∧ Seg next prev (l₁.getLastD b) l₂ e := by
  induction l₁ generalizing b with
  | nil => simp
  | cons p l₁ ih =>
      simp only [List.cons_append, seg_cons, headD_append, ih, List.getLastD_cons, and_assoc]

/-- A segment reads only the links of its own nodes. -/
theorem Seg.congr (seg : Seg next prev b l e)
    (same : ∀ p ∈ l, next' p = next p ∧ prev' p = prev p) : Seg next' prev' b l e := by
  induction l generalizing b with
  | nil => trivial
  | cons p l ih =>
      obtain ⟨back, forth, rest⟩ := seg
      obtain ⟨nextSame, prevSame⟩ := same p List.mem_cons_self
      exact ⟨prevSame.trans back, nextSame.trans forth,
        ih rest fun q mem => same q (List.mem_cons_of_mem p mem)⟩

/-- The nodes of `l`, linked forwards only, the last one to `e`. -/
def Path (next : P → P) : List P → P → Prop
  | [], _ => True
  | p :: l, e => next p = l.headD e ∧ Path next l e

theorem path_append :
    Path next (l₁ ++ l₂) e ↔ Path next l₁ (l₂.headD e) ∧ Path next l₂ e := by
  induction l₁ with
  | nil => simp [Path]
  | cons p l₁ ih => simp only [List.cons_append, Path, headD_append, ih, and_assoc]

/-- A path reads only the links of its own nodes. -/
theorem Path.congr (path : Path next l e) (same : ∀ p ∈ l, next' p = next p) :
    Path next' l e := by
  induction l with
  | nil => trivial
  | cons p l ih =>
      exact ⟨(same p List.mem_cons_self).trans path.1,
        ih path.2 fun q mem => same q (List.mem_cons_of_mem p mem)⟩

/-- A path along a segment's nodes is a segment with the links back it has. -/
theorem Seg.of_path {e' : P} (seg : Seg next prev b l e') (path : Path next' l e)
    (same : ∀ p ∈ l, prev' p = prev p) : Seg next' prev' b l e := by
  induction l generalizing b with
  | nil => trivial
  | cons p l ih =>
      exact ⟨(same p List.mem_cons_self).trans seg.1, path.1,
        ih seg.2.2 path.2 fun q mem => same q (List.mem_cons_of_mem p mem)⟩

theorem Seg.prev_eq (seg : Seg next prev b (l₁ ++ p :: l₂) e) : prev p = l₁.getLastD b :=
  (seg_append.mp seg).2.1

theorem Seg.path (seg : Seg next prev b l e) : Path next l e := by
  induction l generalizing b with
  | nil => trivial
  | cons p l ih => exact ⟨seg.2.1, ih seg.2.2⟩

variable [DecidableEq P]

theorem Seg.setNext_off (seg : Seg next prev b l e) (off : p ∉ l) :
    Seg (Function.update next p x) prev b l e :=
  seg.congr fun _ mem => ⟨Function.update_of_ne (ne_of_mem_of_not_mem mem off) _ _, rfl⟩

theorem Seg.setPrev_off (seg : Seg next prev b l e) (off : p ∉ l) :
    Seg next (Function.update prev p x) b l e :=
  seg.congr fun _ mem => ⟨rfl, Function.update_of_ne (ne_of_mem_of_not_mem mem off) _ _⟩

/-- Assigning the last node's `next` moves the end of the segment. -/
theorem Seg.setNext_last (seg : Seg next prev b (l ++ [p]) e) (off : p ∉ l) :
    Seg (Function.update next p x) prev b (l ++ [p]) x := by
  obtain ⟨front, back, -, -⟩ := seg_append.mp seg
  exact seg_append.mpr ⟨front.setNext_off off, back, Function.update_self _ _ _, trivial⟩

/-- Assigning the first node's `prev` moves the start of the segment. -/
theorem Seg.setPrev_first (seg : Seg next prev b (p :: l) e) (off : p ∉ l) :
    Seg next (Function.update prev p x) x (p :: l) e :=
  ⟨Function.update_self _ _ _, seg.2.1, seg.2.2.setPrev_off off⟩

/-! ## Linking a node in -/

variable {q x : P}

/-- Link `x` in between `p` and `q`. -/
theorem Seg.insert (seg : Seg next prev b (l₁ ++ p :: q :: l₂) e)
    (nodup : (l₁ ++ p :: q :: l₂).Nodup) (fresh : x ∉ l₁ ++ p :: q :: l₂) :
    Seg (Function.update (Function.update next p x) x q)
      (Function.update (Function.update prev q x) x p) b (l₁ ++ p :: x :: q :: l₂) e := by
  rw [List.append_cons] at seg nodup fresh ⊢
  obtain ⟨front, rest⟩ := seg_append.mp seg
  obtain ⟨frontNodup, restNodup, apart⟩ := List.nodup_append'.mp nodup
  obtain ⟨offFront, offRest⟩ := not_or.mp (fun h => fresh (List.mem_append.mpr h))
  have offP : p ∉ l₁ := fun mem =>
    (List.nodup_append'.mp frontNodup).2.2 mem (List.mem_singleton_self p)
  have pOff : p ∉ q :: l₂ := List.disjoint_left.mp apart (by simp)
  have qOff : q ∉ l₁ ++ [p] := List.disjoint_right.mp apart List.mem_cons_self
  have last : (l₁ ++ [p]).getLastD b = p := by simp
  rw [last] at rest
  have front' := ((front.setNext_last (x := x) offP).setNext_off offFront (x := q)).setPrev_off
    qOff (x := x) |>.setPrev_off offFront (x := p)
  have rest' := ((rest.setPrev_first (x := x) (List.nodup_cons.mp restNodup).1).setNext_off
    pOff (x := x)).setNext_off offRest (x := q) |>.setPrev_off offRest (x := p)
  refine seg_append.mpr ⟨front', ?_⟩
  rw [last]
  exact ⟨Function.update_self _ _ _, Function.update_self _ _ _, rest'⟩

/-- Link `x` in behind the last node. -/
theorem Seg.insert_last (seg : Seg next prev b (l ++ [p]) e) (nodup : (l ++ [p]).Nodup)
    (fresh : x ∉ l ++ [p]) :
    Seg (Function.update (Function.update next p x) x e) (Function.update prev x p) b
      (l ++ [p] ++ [x]) e := by
  have offP : p ∉ l := fun mem =>
    (List.nodup_append'.mp nodup).2.2 mem (List.mem_singleton_self p)
  refine seg_append.mpr ⟨((seg.setNext_last offP).setNext_off fresh).setPrev_off fresh, ?_⟩
  rw [show (l ++ [p]).getLastD b = p by simp]
  exact ⟨Function.update_self _ _ _, Function.update_self _ _ _, trivial⟩

/-- Link `x`, whose `prev` is the front end already, in before the first node. -/
theorem Seg.insert_first (seg : Seg next prev b (q :: l) e) (nodup : (q :: l).Nodup)
    (fresh : x ∉ q :: l) (back : prev x = b) :
    Seg (Function.update next x q) (Function.update prev q x) b (x :: q :: l) e := by
  refine ⟨?_, Function.update_self _ _ _,
    (seg.setPrev_first (List.nodup_cons.mp nodup).1).setNext_off fresh⟩
  rw [Function.update_of_ne (List.ne_of_not_mem_cons fresh)]
  exact back

/-! ## Unlinking a node -/

/-- Unlink `x` from between `p` and `q`. -/
theorem Seg.remove (seg : Seg next prev b (l₁ ++ p :: x :: q :: l₂) e)
    (nodup : (l₁ ++ p :: x :: q :: l₂).Nodup) :
    Seg (Function.update next p q) (Function.update prev q p) b (l₁ ++ p :: q :: l₂) e := by
  rw [List.append_cons] at seg nodup ⊢
  obtain ⟨front, -, -, rest⟩ := seg_append.mp seg
  obtain ⟨frontNodup, restNodup, apart⟩ := List.nodup_append'.mp nodup
  have offP : p ∉ l₁ := fun mem =>
    (List.nodup_append'.mp frontNodup).2.2 mem (List.mem_singleton_self p)
  have pOff : p ∉ q :: l₂ := fun mem =>
    List.disjoint_left.mp apart (by simp) (List.mem_cons_of_mem x mem)
  have qOff : q ∉ l₁ ++ [p] := List.disjoint_right.mp apart (by simp)
  have first : q ∉ l₂ := (List.nodup_cons.mp (List.nodup_cons.mp restNodup).2).1
  refine seg_append.mpr ⟨(front.setNext_last offP).setPrev_off qOff, ?_⟩
  rw [show (l₁ ++ [p]).getLastD b = p by simp]
  exact (rest.setPrev_first first).setNext_off pOff

/-- Unlink the first of at least two nodes. -/
theorem Seg.remove_first (seg : Seg next prev b (x :: q :: l) e) (nodup : (x :: q :: l).Nodup) :
    Seg next (Function.update prev q b) b (q :: l) e :=
  seg.2.2.setPrev_first (List.nodup_cons.mp (List.nodup_cons.mp nodup).2).1

/-- Unlink the last of at least two nodes. -/
theorem Seg.remove_last (seg : Seg next prev b (l ++ [p] ++ [x]) e)
    (nodup : (l ++ [p] ++ [x]).Nodup) :
    Seg (Function.update next p e) prev b (l ++ [p]) e := by
  obtain ⟨front, -⟩ := seg_append.mp seg
  have offP : p ∉ l := fun mem =>
    (List.nodup_append'.mp (List.nodup_append'.mp nodup).1).2.2 mem (List.mem_singleton_self p)
  exact front.setNext_last offP

/-- Unlink `x`, whatever its place in the segment: the assignment to a neighbour's
link is skipped where the neighbour is missing. -/
theorem Seg.unlink (seg : Seg next prev b (l₁ ++ x :: l₂) e) (nodup : (l₁ ++ x :: l₂).Nodup)
    (first : l₁ = [] → next' = next)
    (forth : l₁ ≠ [] → next' = Function.update next (l₁.getLastD b) (l₂.headD e))
    (last : l₂ = [] → prev' = prev)
    (back : l₂ ≠ [] → prev' = Function.update prev (l₂.headD e) (l₁.getLastD b)) :
    Seg next' prev' b (l₁ ++ l₂) e := by
  rcases List.eq_nil_or_concat l₁ with rfl | ⟨l₁, p, rfl⟩
  · rw [first rfl]
    rcases l₂ with _ | ⟨q, l₂⟩
    · trivial
    · rw [back (List.cons_ne_nil q l₂)]
      exact seg.remove_first nodup
  · rw [List.concat_eq_append] at *
    rw [forth (by simp)]
    rcases l₂ with _ | ⟨q, l₂⟩
    · rw [last rfl, List.append_nil]
      simpa using seg.remove_last nodup
    · rw [back (List.cons_ne_nil q l₂)]
      rw [List.append_assoc] at seg nodup ⊢
      simpa using seg.remove nodup

end Shang.Lib
