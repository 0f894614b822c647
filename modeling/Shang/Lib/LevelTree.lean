import Shang.Lib.Heap
import Mathlib.Data.List.Induction

/-!
# Trees in an array, level by level

Cell `i` has its children in the cells `2 * i + 1` and `2 * i + 2`. A list of turns
leads from a cell to one of the cells below it, and to each of them in one way only,
so that a subtree is a function on lists of turns: its values, with a blank where it
has no node. `Closed` says that nothing hangs below a blank.
-/

namespace Shang.Lib

variable {i j k : Nat} {b c : Bool} {v w : List Bool}

/-- A cell below, the right one for `true`. -/
def child (b : Bool) (i : Nat) : Nat := 2 * i + 1 + b.toNat

theorem child_false : child false i = 2 * i + 1 := rfl

theorem child_true : child true i = 2 * i + 2 := rfl

theorem lt_child : i < child b i := by
  unfold child
  omega

theorem child_le : child b i ≤ 2 * i + 2 := by
  have := b.toNat_le
  unfold child
  omega

theorem parent_child : parent (child b i) = i := by
  have := b.toNat_le
  unfold parent child
  omega

theorem child_inj (same : child b i = child c k) : b = c ∧ i = k := by
  have above : i = k := by
    rw [← parent_child (b := b) (i := i), same, parent_child]
  subst above
  refine ⟨?_, rfl⟩
  unfold child at same
  cases b <;> cases c <;> simp_all

theorem exists_child (pos : 0 < i) : ∃ b, child b (parent i) = i := by
  rcases (parent_eq_iff pos).mp rfl with left | right
  · exact ⟨false, by rw [child_false, ← left]⟩
  · exact ⟨true, by rw [child_true, ← right]⟩

/-! ## Turns -/

/-- The cell at the end of the turns. -/
def below : Nat → List Bool → Nat
  | i, [] => i
  | i, b :: w => below (child b i) w

@[simp] theorem below_nil : below i [] = i := rfl

theorem below_cons : below i (b :: w) = below (child b i) w := rfl

theorem below_append : below i (v ++ w) = below (below i v) w := by
  induction v generalizing i with
  | nil => rfl
  | cons b v ih => exact ih

theorem below_concat : below i (w ++ [b]) = child b (below i w) := below_append

theorem le_below : i + w.length ≤ below i w := by
  induction w generalizing i with
  | nil => exact le_refl _
  | cons b w ih =>
      have step := lt_child (b := b) (i := i)
      have rest := ih (i := child b i)
      rw [below_cons, List.length_cons]
      omega

/-- There is one way to each cell. -/
theorem below_inj (same : below i v = below i w) : v = w := by
  induction v using List.reverseRecOn generalizing w with
  | nil =>
      have deep := le_below (i := i) (w := w)
      rw [← same, below_nil] at deep
      exact (List.eq_nil_of_length_eq_zero (by omega)).symm
  | append_singleton v b ih =>
      rcases List.eq_nil_or_concat w with rfl | ⟨w, c, rfl⟩
      · have deep := le_below (i := i) (w := v ++ [b])
        rw [same, below_nil, List.length_append, List.length_singleton] at deep
        omega
      · rw [List.concat_eq_append, below_concat, below_concat] at same
        obtain ⟨rfl, rest⟩ := child_inj same
        rw [ih rest, List.concat_eq_append]

/-- Every cell is somewhere below the first one. -/
theorem exists_below_zero (k : Nat) : ∃ w, below 0 w = k := by
  induction k using Nat.strongRecOn with
  | ind k ih =>
      rcases Nat.eq_zero_or_pos k with rfl | pos
      · exact ⟨[], rfl⟩
      · obtain ⟨w, above⟩ := ih (parent k) (parent_lt pos)
        obtain ⟨b, here⟩ := exists_child pos
        exact ⟨w ++ [b], by rw [below_concat, above, here]⟩

/-- `k` is in the subtree of `i`. -/
def Under (i k : Nat) : Prop := ∃ w, below i w = k

theorem under_below (i : Nat) (w : List Bool) : Under i (below i w) := ⟨w, rfl⟩

theorem Under.of_child (under : Under (child b i) k) : Under i k := by
  obtain ⟨w, rfl⟩ := under
  exact under_below i (b :: w)

theorem Under.child (under : Under i k) : Under i (child b k) := by
  obtain ⟨w, rfl⟩ := under
  exact ⟨w ++ [b], below_concat⟩

/-- A cell is under another one if the way to it goes on from there. -/
theorem under_below_iff : Under (below i v) (below i w) ↔ v <+: w := by
  constructor
  · rintro ⟨u, same⟩
    rw [← below_append] at same
    exact ⟨u, below_inj same⟩
  · rintro ⟨u, rfl⟩
    exact ⟨u, below_append.symm⟩

theorem not_under_child : ¬ Under (child b i) i := fun under =>
  List.cons_ne_nil b [] (List.prefix_nil.mp ((under_below_iff (i := i) (w := [])).mp under))

/-- What is below the one child of a cell is not below the other. -/
theorem not_under_sibling (ne : b ≠ c) : ¬ Under (child b i) (below (child c i) w) := fun under =>
  ne (List.cons_prefix_cons.mp
    ((under_below_iff (i := i) (v := [b]) (w := c :: w)).mp under)).1

/-! ## Values -/

section values

variable {α : Type*} {blank : α} {f g : List Bool → α}

/-- Nothing hangs below a blank. -/
def Closed (blank : α) (f : List Bool → α) : Prop := ∀ w b, f (w ++ [b]) ≠ blank → f w ≠ blank

theorem Closed.of_append (closed : Closed blank f) (here : f (v ++ w) ≠ blank) : f v ≠ blank := by
  induction w using List.reverseRecOn with
  | nil => rwa [List.append_nil] at here
  | append_singleton w b ih => exact ih (closed (v ++ w) b (by rwa [List.append_assoc]))

/-- A subtree with a blank root is blank. -/
theorem Closed.eq_blank (closed : Closed blank f) (none : f v = blank) : f (v ++ w) = blank := by
  by_contra some
  exact closed.of_append some none

theorem Closed.cons (closed : Closed blank f) (b : Bool) : Closed blank fun w => f (b :: w) :=
  fun w c => closed (b :: w) c

/-- A tree with another one in the place of the right subtree of its root. -/
def graft (f g : List Bool → α) : List Bool → α
  | true :: w => g w
  | w => f w

theorem graft_true : graft f g (true :: w) = g w := rfl

theorem graft_false : graft f g (false :: w) = f (false :: w) := rfl

theorem graft_nil : graft f g [] = f [] := rfl

theorem Closed.graft (left : Closed blank f) (right : Closed blank g) (root : f [] ≠ blank) :
    Closed blank (graft f g) := by
  intro w b here
  match w with
  | [] => exact root
  | true :: w => exact right w b here
  | false :: w => exact left (false :: w) b here

end values

end Shang.Lib
