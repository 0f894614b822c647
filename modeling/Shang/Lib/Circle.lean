import Mathlib.Data.List.Defs
import Shang.Lib.DList

/-!
# Circular lists around a head

`Circle next prev h l`: the nodes of `l` hang in a circle with the head `h`,
which stands for no element. The head is the neighbour of the nodes at both ends,
and its own neighbour when there are none, so that linking a node in and out takes
the same two assignments everywhere.
-/

namespace Shang.Lib

variable {P : Type*} {next prev : P → P} {b e h p q x : P} {l l₁ l₂ : List P}

/-- The head `h` and the nodes of `l`, linked both ways in a circle. -/
structure Circle (next prev : P → P) (h : P) (l : List P) : Prop where
  nodup : (h :: l).Nodup
  first : next h = l.headD h
  seg : Seg next prev h l h
  last : prev h = l.getLastD h

theorem headD_mem_cons : l.headD h ∈ h :: l := by
  cases l with
  | nil => exact List.mem_cons_self
  | cons p l => exact List.mem_cons_of_mem h List.mem_cons_self

theorem getLastD_cons_ne (off : h ∉ p :: l) : (p :: l).getLastD h ≠ h := by
  rw [List.getLastD_cons]
  exact ne_of_mem_of_not_mem List.getLastD_mem_cons off

theorem getLastD_append : (l₁ ++ l₂).getLastD b = l₂.getLastD (l₁.getLastD b) := by
  cases l₂ with
  | nil => rw [List.append_nil, List.getLastD_nil]
  | cons p l₂ => rw [getLastD_append_cons, List.getLastD_cons]

/-- The two nodes that a seam of the circle lies between. -/
theorem Circle.seam (circle : Circle next prev h (l₁ ++ l₂)) :
    l₁.getLastD h ∈ h :: l₁ ∧ l₂.headD h ∈ h :: l₂ ∧ l₁.getLastD h ∉ l₂ ∧ l₂.headD h ∉ l₁ := by
  obtain ⟨offH, nodup⟩ := List.nodup_cons.mp circle.nodup
  obtain ⟨-, -, apart⟩ := List.nodup_append'.mp nodup
  have left : l₁.getLastD h ∈ h :: l₁ := List.getLastD_mem_cons
  have right : l₂.headD h ∈ h :: l₂ := headD_mem_cons
  refine ⟨left, right, fun mem => ?_, fun mem => ?_⟩
  · rcases List.mem_cons.mp left with same | inside
    · exact offH (List.mem_append_right l₁ (same ▸ mem))
    · exact List.disjoint_left.mp apart inside mem
  · rcases List.mem_cons.mp right with same | inside
    · exact offH (List.mem_append_left l₂ (same ▸ mem))
    · exact List.disjoint_left.mp apart mem inside

/-- On the circle the links are inverse to each other. -/
theorem Circle.inverse (circle : Circle next prev h l) (mem : p ∈ h :: l) :
    prev (next p) = p ∧ next (prev p) = p ∧ next p ∈ h :: l ∧ prev p ∈ h :: l := by
  have forth (l₁ l₂ : List P) (cut : l = l₁ ++ l₂) :
      next (l₁.getLastD h) = l₂.headD h ∧ prev (l₂.headD h) = l₁.getLastD h := by
    subst cut
    obtain ⟨front, rest⟩ := seg_append.mp circle.seg
    constructor
    · rcases List.eq_nil_or_concat l₁ with rfl | ⟨l₁, q, rfl⟩
      · simpa using circle.first
      · rw [List.concat_eq_append] at front ⊢
        simpa using (seg_append.mp front).2.2.1
    · rcases l₂ with _ | ⟨q, l₂⟩
      · simpa using circle.last
      · exact rest.1
  have inside (l₁ l₂ : List P) (cut : l = l₁ ++ l₂) :
      l₁.getLastD h ∈ h :: l ∧ l₂.headD h ∈ h :: l := by
    subst cut
    obtain ⟨left, right, -, -⟩ := circle.seam
    simp only [List.mem_cons, List.mem_append] at left right ⊢
    exact ⟨left.imp_right .inl, right.imp_right .inr⟩
  rcases List.mem_cons.mp mem with rfl | mem
  · obtain ⟨next', prev'⟩ := forth [] l rfl
    obtain ⟨next'', prev''⟩ := forth l [] (List.append_nil l).symm
    rw [List.getLastD_nil] at next' prev'
    rw [List.headD_nil] at next'' prev''
    refine ⟨by rw [next', prev'], by rw [prev'', next''], ?_, ?_⟩
    · rw [next']
      exact headD_mem_cons
    · rw [prev'']
      exact List.getLastD_mem_cons
  · obtain ⟨l₁, l₂, rfl⟩ := List.append_of_mem mem
    obtain ⟨next', prev'⟩ := forth (l₁ ++ [p]) l₂ (by simp)
    obtain ⟨next'', prev''⟩ := forth l₁ (p :: l₂) rfl
    obtain ⟨-, after⟩ := inside (l₁ ++ [p]) l₂ (by simp)
    obtain ⟨before, -⟩ := inside l₁ (p :: l₂) rfl
    rw [getLastD_append_cons, List.getLastD_nil] at next' prev'
    rw [List.headD_cons] at next'' prev''
    exact ⟨by rw [next', prev'], by rw [prev'', next''], by rwa [next'], by rwa [prev'']⟩

/-- A circle reads only the links of its own nodes. -/
theorem Circle.congr {next' prev' : P → P} (circle : Circle next prev h l)
    (same : ∀ p ∈ h :: l, next' p = next p ∧ prev' p = prev p) : Circle next' prev' h l where
  nodup := circle.nodup
  first := (same h List.mem_cons_self).1.trans circle.first
  seg := circle.seg.congr fun p mem => same p (List.mem_cons_of_mem h mem)
  last := (same h List.mem_cons_self).2.trans circle.last

/-- A segment, read backwards. -/
theorem Seg.reverse (seg : Seg next prev b l e) : Seg prev next e l.reverse b := by
  induction l generalizing b with
  | nil => trivial
  | cons p l ih =>
      obtain ⟨back, forth, rest⟩ := seg
      rw [List.reverse_cons]
      refine seg_append.mpr ⟨ih rest, ?_, back, trivial⟩
      rw [forth]
      simp [List.getLastD_eq_getLast?]

theorem Circle.reverse (circle : Circle next prev h l) : Circle prev next h l.reverse where
  nodup := ((List.reverse_perm l).cons h).nodup_iff.mpr circle.nodup
  first := by
    rw [circle.last]
    simp [List.headD_eq_head?_getD, List.getLastD_eq_getLast?]
  seg := circle.seg.reverse
  last := by
    rw [circle.first]
    simp [List.getLastD_eq_getLast?]

/-- The walk along a segment. -/
theorem Seg.iterate (seg : Seg next prev b l e) (first : next b = l.headD e) :
    List.iterate next b (l.length + 1) = b :: l := by
  induction l generalizing b with
  | nil => rfl
  | cons p l ih =>
      obtain ⟨-, forth, rest⟩ := seg
      rw [List.length_cons, List.iterate, first, List.headD_cons, ih rest forth]

/-- The walk around the circle meets the head and each node once. -/
theorem Circle.iterate_next (circle : Circle next prev h l) :
    List.iterate next h (l.length + 1) = h :: l :=
  circle.seg.iterate circle.first

theorem Circle.iterate_prev (circle : Circle next prev h l) :
    List.iterate prev h (l.length + 1) = h :: l.reverse := by
  rw [← List.length_reverse]
  exact circle.reverse.iterate_next

variable [DecidableEq P]

/-- Moving the end of a segment, which may be empty. -/
theorem Seg.setNext_end (seg : Seg next prev b l e) (nodup : l.Nodup) :
    Seg (Function.update next (l.getLastD b) x) prev b l x := by
  rcases List.eq_nil_or_concat l with rfl | ⟨l, p, rfl⟩
  · trivial
  · rw [List.concat_eq_append] at *
    rw [getLastD_append_cons, List.getLastD_nil]
    exact seg.setNext_last fun mem => (List.nodup_append'.mp nodup).2.2 mem
      (List.mem_singleton_self p)

/-- Moving the start of a segment, which may be empty. -/
theorem Seg.setPrev_start (seg : Seg next prev b l e) (nodup : l.Nodup) :
    Seg next (Function.update prev (l.headD e) x) x l e := by
  rcases l with _ | ⟨p, l⟩
  · trivial
  · exact seg.setPrev_first (List.nodup_cons.mp nodup).1

/-- Link `x` in at a seam. -/
theorem Circle.insert (circle : Circle next prev h (l₁ ++ l₂)) (fresh : x ∉ h :: (l₁ ++ l₂))
    (left : p = l₁.getLastD h) (right : q = l₂.headD h) :
    Circle (Function.update (Function.update next x q) p x)
      (Function.update (Function.update prev x p) q x) h (l₁ ++ x :: l₂) := by
  obtain ⟨pMem, qMem, pOff, qOff⟩ := circle.seam
  rw [← left] at pMem pOff
  rw [← right] at qMem qOff
  obtain ⟨offH, nodup⟩ := List.nodup_cons.mp circle.nodup
  obtain ⟨nodup₁, nodup₂, -⟩ := List.nodup_append'.mp nodup
  obtain ⟨neH, off⟩ := not_or.mp (mt List.mem_cons.mpr fresh)
  obtain ⟨off₁, off₂⟩ := not_or.mp (mt List.mem_append.mpr off)
  have neP : p ≠ x := by
    rintro rfl
    rcases List.mem_cons.mp pMem with same | mem
    · exact neH same
    · exact off₁ mem
  have neQ : q ≠ x := by
    rintro rfl
    rcases List.mem_cons.mp qMem with same | mem
    · exact neH same
    · exact off₂ mem
  obtain ⟨front, rest⟩ := seg_append.mp circle.seg
  rw [← left] at rest
  rw [← right] at front
  refine ⟨?_, ?_, seg_append.mpr ⟨?_, ?_, ?_, ?_⟩, ?_⟩
  · have all : (x :: h :: (l₁ ++ l₂)).Nodup := List.nodup_cons.mpr ⟨fresh, circle.nodup⟩
    have shuffle : (h :: (l₁ ++ x :: l₂)).Perm (x :: h :: (l₁ ++ l₂)) :=
      (List.perm_middle.cons h).trans (List.Perm.swap x h _)
    exact shuffle.nodup_iff.mpr all
  · rcases l₁ with _ | ⟨y, l₁⟩
    · rw [left, List.getLastD_nil, Function.update_self, List.nil_append, List.headD_cons]
    · have inner := getLastD_cons_ne (not_or.mp (mt List.mem_append.mpr offH)).1
      rw [← left] at inner
      rw [Function.update_of_ne inner.symm, Function.update_of_ne (Ne.symm neH)]
      exact circle.first
  · rw [left]
    have moved := (front.setNext_off (x := q) off₁).setNext_end (x := x) nodup₁
    exact (moved.setPrev_off off₁).setPrev_off qOff
  · rw [Function.update_of_ne neQ.symm, Function.update_self, left]
  · rw [Function.update_of_ne neP.symm, Function.update_self, right]
  · rw [right]
    have moved := (rest.setPrev_off (x := p) off₂).setPrev_start (x := x) nodup₂
    exact (moved.setNext_off off₂).setNext_off pOff
  · rw [getLastD_append_cons]
    rcases l₂ with _ | ⟨y, l₂⟩
    · rw [right, List.headD_nil, Function.update_self, List.getLastD_nil]
    · have inner : h ≠ q := by
        rintro rfl
        exact offH (List.mem_append_right l₁ (right ▸ List.mem_cons_self))
      rw [Function.update_of_ne inner, Function.update_of_ne (Ne.symm neH), circle.last,
        getLastD_append_cons, List.getLastD_cons]

/-- Unlink `x`. -/
theorem Circle.remove (circle : Circle next prev h (l₁ ++ x :: l₂)) (left : p = prev x)
    (right : q = next x) :
    Circle (Function.update next p q) (Function.update prev q p) h (l₁ ++ l₂) := by
  obtain ⟨front, back, forth, rest⟩ := seg_append.mp circle.seg
  rw [back] at left
  rw [forth] at right
  have onward : Circle next prev h (l₁ ++ [x] ++ l₂) := by simpa using circle
  obtain ⟨-, -, pOff, -⟩ := circle.seam
  obtain ⟨-, -, -, qOff⟩ := onward.seam
  rw [← left] at pOff
  rw [← right] at qOff
  obtain ⟨offH, nodup⟩ := List.nodup_cons.mp circle.nodup
  obtain ⟨nodup₁, nodup₂, -⟩ := List.nodup_append'.mp nodup
  refine ⟨?_, ?_, seg_append.mpr ⟨?_, ?_⟩, ?_⟩
  · have fewer : (l₁ ++ l₂).Sublist (l₁ ++ x :: l₂) :=
      .append_left (List.sublist_cons_self x l₂) l₁
    exact circle.nodup.sublist (fewer.cons_cons h)
  · rcases l₁ with _ | ⟨y, l₁⟩
    · rw [left, right, List.getLastD_nil, Function.update_self, List.nil_append]
    · have inner := getLastD_cons_ne (not_or.mp (mt List.mem_append.mpr offH)).1
      rw [← left] at inner
      rw [Function.update_of_ne inner.symm]
      exact circle.first
  · rw [left, ← right]
    have moved := front.setNext_end (x := q) nodup₁
    exact moved.setPrev_off fun mem => qOff (List.mem_append_left _ mem)
  · rw [right, ← left]
    have moved := rest.setPrev_start (x := p) (List.nodup_cons.mp nodup₂).2
    exact moved.setNext_off fun mem => pOff (List.mem_cons_of_mem x mem)
  · have last := circle.last
    rw [getLastD_append_cons] at last
    rw [getLastD_append]
    rcases l₂ with _ | ⟨y, l₂⟩
    · rw [right, List.headD_nil, Function.update_self, List.getLastD_nil, left]
    · have inner : h ≠ q := by
        rintro rfl
        refine offH (List.mem_append_right l₁ (List.mem_cons_of_mem x ?_))
        exact right ▸ List.mem_cons_self
      rw [Function.update_of_ne inner, last, List.getLastD_cons, List.getLastD_cons]

end Shang.Lib
