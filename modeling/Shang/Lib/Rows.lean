import Mathlib.Data.List.Count

/-!
# Rows that are cleared

A board is the list of its rows from the top. Full rows are taken out, and as many
empty ones come in at the top, so that the others keep their order and lie at the
bottom.
-/

namespace Shang.Lib

variable {ρ : Type} {full : ρ → Bool} {empty r : ρ} {rows above block below : List ρ}

/-- The rows that are not full, under as many empty ones as were full. -/
def settled (full : ρ → Bool) (empty : ρ) (rows : List ρ) : List ρ :=
  List.replicate (rows.countP full) empty ++ rows.filter fun r => !full r

/-- The first rows and those that follow. -/
theorem map_range_add (f : Nat → ρ) (a b : Nat) :
    (List.range (a + b)).map f =
      (List.range a).map f ++ (List.range b).map fun i => f (a + i) := by
  rw [List.range_add, List.map_append, List.map_map]
  rfl

/-- No row is full afterwards. -/
theorem not_full_of_mem_settled (notFull : full empty = false)
    (mem : r ∈ settled full empty rows) : full r = false := by
  rcases List.mem_append.mp mem with top | rest
  · rw [List.eq_of_mem_replicate top, notFull]
  · simpa using (List.mem_filter.mp rest).2

theorem countP_eq_zero_iff : rows.countP full = 0 ↔ ∀ r ∈ rows, full r = false := by
  simp only [List.countP_eq_zero, Bool.not_eq_true]

theorem filter_eq_self_of_none (none_ : ∀ r ∈ rows, full r = false) :
    rows.filter (fun r => !full r) = rows :=
  List.filter_eq_self.mpr fun r mem => by rw [none_ r mem, Bool.not_false]

theorem settled_of_none (none_ : ∀ r ∈ rows, full r = false) :
    settled full empty rows = rows := by
  rw [settled, countP_eq_zero_iff.mpr none_, filter_eq_self_of_none none_, List.replicate_zero,
    List.nil_append]

/-- Full rows that are next to each other make room for those above them. -/
theorem settled_block (above_ : ∀ r ∈ above, full r = false) (block_ : ∀ r ∈ block, full r = true)
    (below_ : ∀ r ∈ below, full r = false) :
    settled full empty (above ++ (block ++ below)) =
      List.replicate block.length empty ++ (above ++ below) := by
  have gone : block.filter (fun r => !full r) = [] :=
    List.filter_eq_nil_iff.mpr fun r mem => by
      rw [block_ r mem]
      exact Bool.false_ne_true
  have all : block.countP full = block.length := List.countP_eq_length.mpr block_
  rw [settled, List.countP_append, List.countP_append, List.filter_append, List.filter_append,
    countP_eq_zero_iff.mpr above_, countP_eq_zero_iff.mpr below_, filter_eq_self_of_none above_,
    filter_eq_self_of_none below_, gone, all, Nat.zero_add, Nat.add_zero, List.nil_append]

theorem countP_apart {x y z : ρ} (above_ : ∀ r ∈ above, full r = false) (x_ : full x = true)
    (y_ : full y = false) (z_ : full z = true) (below_ : ∀ r ∈ below, full r = false) :
    (above ++ x :: y :: z :: below).countP full = 2 := by
  have free : ¬ full y = true := by rw [y_]; exact Bool.false_ne_true
  rw [List.countP_append, countP_eq_zero_iff.mpr above_, List.countP_cons_of_pos x_,
    List.countP_cons_of_neg free, List.countP_cons_of_pos z_, countP_eq_zero_iff.mpr below_]

/-- Two full rows make room for the row between them too. -/
theorem settled_apart {x y z : ρ} (above_ : ∀ r ∈ above, full r = false) (x_ : full x = true)
    (y_ : full y = false) (z_ : full z = true) (below_ : ∀ r ∈ below, full r = false) :
    settled full empty (above ++ x :: y :: z :: below) =
      empty :: empty :: (above ++ y :: below) := by
  have kept : (above ++ x :: y :: z :: below).filter (fun r => !full r) = above ++ y :: below := by
    rw [List.filter_append, filter_eq_self_of_none above_]
    simp [x_, y_, z_, filter_eq_self_of_none below_]
  rw [settled, countP_apart above_ x_ y_ z_ below_, kept]
  rfl

/-- To clear one full row is enough if there is no other. -/
theorem settled_one_iff (notFull : full empty = false) (here : full r = true) :
    empty :: (above ++ below) = settled full empty (above ++ r :: below) ↔
      (above ++ r :: below).countP full ≤ 1 := by
  have count : (above ++ r :: below).countP full = (above ++ below).countP full + 1 := by
    rw [List.countP_append, List.countP_cons_of_pos here, List.countP_append, Nat.add_assoc]
  have one : (above ++ below).countP full + 1 ≤ 1 ↔ (above ++ below).countP full = 0 := by omega
  rw [count, one, countP_eq_zero_iff]
  constructor
  · intro same r mem
    exact not_full_of_mem_settled notFull (same ▸ List.mem_cons_of_mem empty mem)
  · intro none_
    obtain ⟨above_, below_⟩ := List.forall_mem_append.mp none_
    exact (settled_block above_ (List.forall_mem_singleton.mpr here) below_).symm

end Shang.Lib
