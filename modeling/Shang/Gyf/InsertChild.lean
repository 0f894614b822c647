import Shang.Gyf.Traverse

/-!
# A subtree inside another tree

`Move` and `Insert_child` of `bo6-1.c`. To make room for the new child, the subtree in
cell `j` becomes the right subtree of what comes into cell `j`: `Move` takes it, in the
same array and node by node from below, to cell `2*j+2`. There the left subtree of a
node on the right edge comes to where the left subtree of the next node on the edge
is, or would be. That one has not been moved yet; it is overwritten, and what has come
there is moved once more with the next node. All is well if the right edge turns only
where there is nothing to the left.
-/

namespace Shang.Gyf

open Shang.Lib Shang.Lib.Act Function

variable {ν : Type} [DecidableEq ν]

/-! ## The program -/

/-- `Move(t1, i, t2, j)` -/
def move (t₁ t₂ : ν) : Nat → Nat → Nat → Act (Mem ν) Unit
  | 0, _, _ => spent
  | fuel + 1, i, j => do
      ifNode t₁ (2 * i + 1) (move t₁ t₂ fuel (2 * i + 1) (2 * j + 1)) ()
      ifNode t₁ (2 * i + 2) (move t₁ t₂ fuel (2 * i + 2) (2 * j + 2)) ()
      let x ← get t₁ i
      put t₂ j x
      put t₁ i Nil

/-- The first loop of `BiTreeDepth`, downwards, with `i++` after it. -/
def lastNode (t : ν) : Nat → Act (Mem ν) Nat
  | 0 => pure 0
  | i + 1 => do
      let x ← get t i
      if x ≠ Nil then pure (i + 1) else lastNode t i

/-- `for (j = 0; pow(2, j) <= i; j++)` -/
def powLoop (i : Nat) : Nat → Nat → Nat
  | 0, j => j
  | fuel + 1, j => if 2 ^ j ≤ i then powLoop i fuel (j + 1) else j

def biTreeDepth (t : ν) : Act (Mem ν) Nat := do
  let i ← lastNode t MAX_TREE_SIZE
  pure (powLoop i (i + 1) 0)

/-- The loop of `Insert_child`. -/
def findLoop (t : ν) (p : Int) : Nat → Nat → Act (Mem ν) Nat
  | 0, _ => spent
  | fuel + 1, i => do
      let depth ← biTreeDepth t
      if i < 2 ^ depth - 1 then do
        let x ← get t i
        if x = p then pure i else findLoop t p fuel (i + 1)
      else pure i

/-- `Insert_child(t1, p, lr, t2)` -/
def insertChild (t₁ : ν) (p : Int) (lr : Nat) (t₂ : ν) : Act (Mem ν) Status := do
  let i ← findLoop t₁ p (MAX_TREE_SIZE + 1) 0
  let j := 2 * i + 1 + lr
  ifNode t₁ j (move t₁ t₁ MAX_TREE_SIZE j (2 * j + 2)) ()
  move t₂ t₁ MAX_TREE_SIZE 0 j
  pure .OK

/-! ## The search -/

section search

variable {t : ν} {m : Mem ν} {p : Int} {i j k n fuel : Nat}

omit [DecidableEq ν] in
theorem lastNode_ended (bound : n ≤ MAX_TREE_SIZE) :
    ∃ i, lastNode t n m = .ended i m ∧ ∀ k, i ≤ k → k < n → m (t, k) = Nil := by
  induction n with
  | zero => exact ⟨0, rfl, fun k _ less => absurd less (Nat.not_lt_zero k)⟩
  | succ n ih =>
      rw [lastNode, bind_ended (get_eq bound)]
      split
      next => exact ⟨n + 1, rfl, fun k le less => absurd less (Nat.not_lt.mpr le)⟩
      next blank =>
        obtain ⟨i, ended, rest⟩ := ih (by omega)
        refine ⟨i, ended, fun k le less => ?_⟩
        rcases Nat.lt_succ_iff_lt_or_eq.mp less with earlier | rfl
        · exact rest k le earlier
        · exact not_not.mp blank

theorem lt_powLoop (i fuel j : Nat) (enough : i < j + fuel) : i < 2 ^ powLoop i fuel j := by
  induction fuel generalizing j with
  | zero => exact enough.trans Nat.lt_two_pow_self
  | succ fuel ih =>
      rw [powLoop]
      split
      next => exact ih (j + 1) (by omega)
      next greater => exact Nat.lt_of_not_le greater

omit [DecidableEq ν] in
/-- All nodes are in the levels that are counted. -/
theorem biTreeDepth_ended (t : ν) (m : Mem ν) :
    ∃ depth, biTreeDepth t m = .ended depth m ∧
      ∀ k, k < MAX_TREE_SIZE → m (t, k) ≠ Nil → k < 2 ^ depth - 1 := by
  obtain ⟨i, ended, rest⟩ := lastNode_ended (t := t) (m := m) (Nat.le_refl MAX_TREE_SIZE)
  refine ⟨_, bind_ended ended, fun k bound there => ?_⟩
  have before : k < i := by
    by_contra le
    exact there (rest k (Nat.le_of_not_lt le) bound)
  have levels := lt_powLoop i (i + 1) 0 (by omega)
  omega

/-- The first cell that has this value. -/
structure FirstWith (t : ν) (m : Mem ν) (p : Int) (i : Nat) : Prop where
  value : p ≠ Nil
  bound : i < MAX_TREE_SIZE
  here : m (t, i) = p
  before : ∀ k, k < i → m (t, k) ≠ p

omit [DecidableEq ν] in
theorem findLoop_ended (first : FirstWith t m p i) (le : k ≤ i) (enough : i < k + fuel) :
    findLoop t p fuel k m = .ended i m := by
  induction fuel generalizing k with
  | zero => omega
  | succ fuel ih =>
      obtain ⟨depth, ended, levels⟩ := biTreeDepth_ended t m
      have inside := levels i first.bound (first.here ▸ first.value)
      have bound := first.bound
      rw [findLoop, bind_ended ended, if_pos (by omega), bind_ended (get_eq (by omega))]
      split
      next found =>
        obtain rfl : k = i := by
          by_contra apart
          exact first.before k (by omega) found
        rfl
      next other =>
        have apart : k ≠ i := fun same => other (same ▸ first.here)
        exact ih (by omega) (by omega)

end search

/-! ## One call of `Move` -/

/-- The place is not in the tree below cell `i` of `t`. -/
def Off (t : ν) (i : Nat) (p : ν × Nat) : Prop := p.1 = t → ¬ Under i p.2

/-- The two trees have no cell in common. -/
def Apart (t₁ : ν) (i : Nat) (t₂ : ν) (j : Nat) : Prop := ∀ v, Off t₁ i (t₂, below j v)

/-- What is left of a cell that went from `p` to `q`. -/
def carried (m : Mem ν) (p q : ν × Nat) : Mem ν := update (update m q (m p)) p Nil

section off

variable {t t₁ t₂ : ν} {m m' : Mem ν} {i j k : Nat} {b c : Bool} {p q r : ν × Nat} {w : List Bool}

omit [DecidableEq ν]

theorem Off.ne (off : Off t i p) : p ≠ (t, i) :=
  fun same => off (same ▸ rfl) (same ▸ under_below i [])

theorem Off.child (off : Off t i p) (b : Bool) : Off t (child b i) p :=
  fun same under => off same under.of_child

theorem off_child (t : ν) (b : Bool) (i : Nat) : Off t (child b i) (t, i) :=
  fun _ => not_under_child

theorem off_sibling (ne : b ≠ c) : Off t (child b i) (t, below (child c i) w) :=
  fun _ => not_under_sibling ne

theorem Apart.off (apart : Apart t₁ i t₂ j) (w : List Bool) : Off t₂ j (t₁, below i w) := by
  rintro rfl ⟨v, same⟩
  exact apart v rfl ⟨w, same.symm⟩

theorem Apart.child (apart : Apart t₁ i t₂ j) (b c : Bool) :
    Apart t₁ (child b i) t₂ (child c j) :=
  fun v => (apart (c :: v)).child b

theorem apart_of_ne (ne : t₁ ≠ t₂) : Apart t₁ i t₂ j := fun _ same => absurd same.symm ne

theorem off_below {v : List Bool} (other : ¬ v <+: w) : Off t (below i v) (t, below i w) :=
  fun _ under => other (under_below_iff.mp under)

/-- The left subtree of a node is not where it goes to. -/
theorem apart_left (t : ν) (i : Nat) : Apart t (child false i) t (child false (child true i)) :=
  fun v => off_below (i := i) (v := [false]) (w := true :: false :: v) (by simp)

theorem subtree_eq (same : m' (t, below i w) = m (t, below i w)) :
    subtree t m' i w = subtree t m i w := by
  rw [subtree, subtree, node, node, same]

theorem subtree_congr (same : ∀ w, m' (t, below i w) = m (t, below i w)) :
    subtree t m' i = subtree t m i :=
  funext fun w => subtree_eq (same w)

end off

section carried

variable {t : ν} {m : Mem ν} {p q r : ν × Nat}

theorem carried_source : carried m p q p = Nil := update_self _ _ _

theorem carried_target (ne : q ≠ p) : carried m p q q = m p := by
  rw [carried, update_of_ne ne, update_self]

theorem carried_of_ne (source : r ≠ p) (target : r ≠ q) : carried m p q r = m r := by
  rw [carried, update_of_ne source, update_of_ne target]

/-- To carry a value to an empty place is to exchange the two. -/
theorem carried_rearranged {s : Set (ν × Nat)} (empty : m q = Nil) (source : p ∈ s)
    (target : q ∈ s) : Rearranged s m (carried m p q) := by
  have exchanged := Rearranged.exchange target source m
  rwa [empty] at exchanged

end carried

section peel

variable {α : Type} {t t₁ t₂ : ν} {m m' : Mem ν} {i j k fuel : Nat}

omit [DecidableEq ν] in
theorem ifNode_ended {next : Act (Mem ν) Unit} :
    ifNode t k next () m = .ended () m' ↔ k < MAX_TREE_SIZE ∧
      (m (t, k) = Nil ∧ m' = m ∨ m (t, k) ≠ Nil ∧ next m = .ended () m') := by
  rcases Nat.lt_or_ge k MAX_TREE_SIZE with inside | outside
  · rw [ifNode, bind_ended (get_eq inside)]
    split
    next there => simp [inside, there]
    next blank =>
      rw [not_not] at blank
      constructor
      · intro ran
        cases ran
        exact ⟨inside, .inl ⟨blank, rfl⟩⟩
      · rintro ⟨-, ⟨-, rfl⟩ | ⟨there, -⟩⟩
        · rfl
        · exact absurd blank there
  · rw [ifNode, bind_stopped (get_stopped outside)]
    refine iff_of_false (fun ran => ?_) fun ran => absurd ran.1 (Nat.not_lt.mpr outside)
    cases ran

/-- What a call does about one child. -/
def Half (t₁ t₂ : ν) (fuel i j : Nat) (b : Bool) (m m' : Mem ν) : Prop :=
  child b i < MAX_TREE_SIZE ∧ (m (t₁, child b i) = Nil ∧ m' = m ∨
    m (t₁, child b i) ≠ Nil ∧ move t₁ t₂ fuel (child b i) (child b j) m = .ended () m')

/-- The two children, then the node itself. -/
theorem move_ended : move t₁ t₂ (fuel + 1) i j m = .ended () m' ↔
    ∃ m₁ m₂, Half t₁ t₂ fuel i j false m m₁ ∧ Half t₁ t₂ fuel i j true m₁ m₂ ∧
      j < MAX_TREE_SIZE ∧ m' = carried m₂ (t₁, i) (t₂, j) := by
  have last : ∀ {m₂ : Mem ν}, i < MAX_TREE_SIZE → ((do
      let x ← get t₁ i
      put t₂ j x
      put t₁ i Nil : Act (Mem ν) Unit) m₂ = .ended () m' ↔
      j < MAX_TREE_SIZE ∧ m' = carried m₂ (t₁, i) (t₂, j)) := by
    intro m₂ inside
    rw [bind_ended (get_eq inside)]
    rcases Nat.lt_or_ge j MAX_TREE_SIZE with there | outside
    · rw [bind_ended (put_eq there), put_eq inside]
      constructor
      · intro ran
        cases ran
        exact ⟨there, rfl⟩
      · rintro ⟨-, rfl⟩
        rfl
    · have stopped : put t₂ j (m₂ (t₁, i)) m₂ = .stopped m₂ := if_neg (Nat.not_lt.mpr outside)
      rw [bind_stopped stopped]
      exact iff_of_false nofun fun ran => absurd ran.1 (Nat.not_lt.mpr outside)
  rw [move, bind_eq_ended]
  constructor
  · rintro ⟨⟨⟩, m₁, left, rest⟩
    obtain ⟨⟨⟩, m₂, right, rest⟩ := bind_eq_ended.mp rest
    have left := ifNode_ended.mp left
    exact ⟨m₁, m₂, left, ifNode_ended.mp right, (last (by omega)).mp rest⟩
  · rintro ⟨m₁, m₂, left, right, rest⟩
    have bound : i < MAX_TREE_SIZE := lt_child.trans left.1
    exact ⟨(), m₁, ifNode_ended.mpr left,
      bind_eq_ended.mpr ⟨(), m₂, ifNode_ended.mpr right, (last bound).mpr rest⟩⟩

end peel

/-! ## A subtree that goes elsewhere -/

section frame

variable {t₁ t₂ : ν} {m m' : Mem ν} {i j fuel : Nat} {b : Bool} {p : ν × Nat}

/-- Only the two trees are changed. -/
theorem move_frame (ran : move t₁ t₂ fuel i j m = .ended () m') (source : Off t₁ i p)
    (target : Off t₂ j p) : m' p = m p := by
  induction fuel generalizing i j m m' with
  | zero => cases ran
  | succ fuel ih =>
      obtain ⟨m₁, m₂, left, right, -, rfl⟩ := move_ended.mp ran
      have half : ∀ {b} {m m' : Mem ν}, Half t₁ t₂ fuel i j b m m' → m' p = m p := by
        rintro b m m' ⟨-, ⟨-, rfl⟩ | ⟨-, ran⟩⟩
        · rfl
        · exact ih ran (source.child b) (target.child b)
      rw [carried_of_ne source.ne target.ne, half right, half left]

theorem Half.frame (half : Half t₁ t₂ fuel i j b m m') (source : Off t₁ (child b i) p)
    (target : Off t₂ (child b j) p) : m' p = m p := by
  rcases half.2 with ⟨-, rfl⟩ | ⟨-, ran⟩
  · rfl
  · exact move_frame ran source target

/-- The node itself goes last. -/
theorem move_root (ran : move t₁ t₂ fuel i j m = .ended () m') : m' (t₁, i) = Nil := by
  match fuel with
  | 0 => cases ran
  | fuel + 1 =>
      obtain ⟨m₁, m₂, -, -, -, rfl⟩ := move_ended.mp ran
      exact carried_source

end frame

/-- The cells of the two arrays. -/
def cellsOf (t₁ t₂ : ν) : Set (ν × Nat) := {p | (p.1 = t₁ ∨ p.1 = t₂) ∧ p.2 < MAX_TREE_SIZE}

/-- A tree has gone over another one, of which its nodes leave the rest. -/
structure Moved (t₁ : ν) (i : Nat) (t₂ : ν) (j : Nat) (m m' : Mem ν) : Prop where
  target : ∀ w, subtree t₂ m' j w =
    if subtree t₁ m i w = Nil then subtree t₂ m j w else subtree t₁ m i w
  source : ∀ w, subtree t₁ m' i w = Nil
  frame : ∀ p, Off t₁ i p → Off t₂ j p → m' p = m p
  rearranged : (∀ w, subtree t₁ m i w ≠ Nil → subtree t₂ m j w = Nil) →
    Rearranged (cellsOf t₁ t₂) m m'

/-- The nodes of a tree can be asked for their children, and have cells to go to. -/
def RoomFor (f : List Bool → Int) (i j : Nat) : Prop :=
  ∀ w, f w ≠ Nil → 2 * below i w + 2 < MAX_TREE_SIZE ∧ below j w < MAX_TREE_SIZE

theorem RoomFor.cons {f : List Bool → Int} {i j : Nat} (fits : RoomFor f i j) (b : Bool) :
    RoomFor (fun w => f (b :: w)) (child b i) (child b j) :=
  fun w there => fits (b :: w) there

section moved

variable {t₁ t₂ : ν} {m m' m₁ m₂ : Mem ν} {i j fuel : Nat} {b : Bool}

omit [DecidableEq ν] in
/-- Where there is no tree, none has to go. -/
theorem Moved.of_empty (empty : ∀ w, subtree t₁ m i w = Nil) : Moved t₁ i t₂ j m m :=
  ⟨fun w => (if_pos (empty w)).symm, empty, fun _ _ _ => rfl, fun _ => .refl _ m⟩

/-- The step for the node itself leaves the trees below it. -/
theorem carried_below (apart : Apart t₁ i t₂ j) (m : Mem ν) (b : Bool) :
    subtree t₁ (carried m (t₁, i) (t₂, j)) (child b i) = subtree t₁ m (child b i) ∧
      subtree t₂ (carried m (t₁, i) (t₂, j)) (child b j) = subtree t₂ m (child b j) := by
  have deeper : ∀ {t k w}, (t, below (child b k) w) ≠ ((t, k) : ν × Nat) :=
    fun {t k w} same => not_under_child ⟨w, (Prod.mk.inj same).2⟩
  refine ⟨subtree_congr fun w => carried_of_ne deeper fun same => ?_,
    subtree_congr fun w => carried_of_ne (fun same => ?_) deeper⟩
  · exact apart.off (b :: w) (Prod.mk.inj same).1 ⟨[], (Prod.mk.inj same).2.symm⟩
  · exact apart (b :: w) (Prod.mk.inj same).1 ⟨[], (Prod.mk.inj same).2.symm⟩

/-- The two subtrees, and then the node. -/
theorem Moved.node (apart : Apart t₁ i t₂ j) (bound : i < MAX_TREE_SIZE)
    (room : j < MAX_TREE_SIZE) (root : m (t₁, i) ≠ Nil)
    (left : Moved t₁ (child false i) t₂ (child false j) m m₁)
    (right : Moved t₁ (child true i) t₂ (child true j) m₁ m₂) :
    Moved t₁ i t₂ j m (carried m₂ (t₁, i) (t₂, j)) := by
  -- what the left subtree leaves to the right one, and what the right one leaves of it
  have source₁ : subtree t₁ m₁ (child true i) = subtree t₁ m (child true i) :=
    subtree_congr fun w => left.frame _ (off_sibling nofun) ((apart.child true false).off w)
  have target₁ : subtree t₂ m₁ (child true j) = subtree t₂ m (child true j) :=
    subtree_congr fun w => left.frame _ (apart.child false true w) (off_sibling nofun)
  have source₂ : subtree t₁ m₂ (child false i) = subtree t₁ m₁ (child false i) :=
    subtree_congr fun w => right.frame _ (off_sibling nofun) ((apart.child false true).off w)
  have target₂ : subtree t₂ m₂ (child false j) = subtree t₂ m₁ (child false j) :=
    subtree_congr fun w => right.frame _ (apart.child true false w) (off_sibling nofun)
  have keptSource : m₂ (t₁, i) = m (t₁, i) := by
    rw [right.frame _ (off_child t₁ true i) ((apart.off []).child true),
      left.frame _ (off_child t₁ false i) ((apart.off []).child false)]
  have offTarget : Off t₁ i (t₂, j) := apart []
  have keptTarget : m₂ (t₂, j) = m (t₂, j) := by
    rw [right.frame _ (offTarget.child true) (off_child t₂ true j),
      left.frame _ (offTarget.child false) (off_child t₂ false j)]
  have ne : (t₂, j) ≠ (t₁, i) := offTarget.ne
  have here : subtree t₁ m i [] = m (t₁, i) := node_eq bound
  refine ⟨fun w => ?_, fun w => ?_, fun p source target => ?_, fun empty => ?_⟩
  · match w with
    | [] =>
        rw [if_neg (here ▸ root), here, ← keptSource]
        exact (node_eq room).trans (carried_target ne)
    | true :: w =>
        have there := right.target w
        rw [source₁, target₁] at there
        exact (congrFun (carried_below apart m₂ true).2 w).trans there
    | false :: w =>
        have there := left.target w
        rw [← target₂] at there
        exact (congrFun (carried_below apart m₂ false).2 w).trans there
  · match w with
    | [] => exact (node_eq bound).trans carried_source
    | true :: w => exact (congrFun (carried_below apart m₂ true).1 w).trans (right.source w)
    | false :: w =>
        have gone := left.source w
        rw [← source₂] at gone
        exact (congrFun (carried_below apart m₂ false).1 w).trans gone
  · rw [carried_of_ne source.ne target.ne, right.frame p (source.child true) (target.child true),
      left.frame p (source.child false) (target.child false)]
  · have first := left.rearranged fun w there => empty (false :: w) there
    have second := right.rearranged fun w there => by
      rw [source₁] at there
      rw [target₁]
      exact empty (true :: w) there
    have free : m₂ (t₂, j) = Nil := by
      have blank : subtree t₂ m j [] = Nil := empty [] (here ▸ root)
      rw [keptTarget]
      exact (node_eq room).symm.trans blank
    exact (first.trans second).trans (carried_rearranged free ⟨.inl rfl, bound⟩ ⟨.inr rfl, room⟩)

/-- A subtree goes if it is there. -/
theorem half_moved (inside : child b i < MAX_TREE_SIZE)
    (closed : Closed Nil (subtree t₁ m (child b i)))
    (goes : subtree t₁ m (child b i) [] ≠ Nil →
      ∃ m', move t₁ t₂ fuel (child b i) (child b j) m = .ended () m' ∧
        Moved t₁ (child b i) t₂ (child b j) m m') :
    ∃ m', Half t₁ t₂ fuel i j b m m' ∧ Moved t₁ (child b i) t₂ (child b j) m m' := by
  have top : subtree t₁ m (child b i) [] = m (t₁, child b i) := node_eq inside
  by_cases blank : m (t₁, child b i) = Nil
  · exact ⟨m, ⟨inside, .inl ⟨blank, rfl⟩⟩,
      .of_empty fun w => closed.eq_blank (v := []) (top.trans blank)⟩
  · obtain ⟨m', ran, moved⟩ := goes (top ▸ blank)
    exact ⟨m', ⟨inside, .inr ⟨blank, ran⟩⟩, moved⟩

/-- A tree can go to where it has no cell of its own. -/
theorem move_moved (apart : Apart t₁ i t₂ j) (closed : Closed Nil (subtree t₁ m i))
    (fits : RoomFor (subtree t₁ m i) i j) (root : subtree t₁ m i [] ≠ Nil)
    (enough : MAX_TREE_SIZE ≤ i + fuel) :
    ∃ m', move t₁ t₂ fuel i j m = .ended () m' ∧ Moved t₁ i t₂ j m m' := by
  induction fuel generalizing i j m with
  | zero =>
      have bound := lt_of_node root
      rw [below_nil] at bound
      omega
  | succ fuel ih =>
      have bound : i < MAX_TREE_SIZE := lt_of_node root
      have inner : 2 * i + 2 < MAX_TREE_SIZE := (fits [] root).1
      have half : ∀ b (m₁ : Mem ν), subtree t₁ m₁ (child b i) = subtree t₁ m (child b i) →
          ∃ m₂, Half t₁ t₂ fuel i j b m₁ m₂ ∧ Moved t₁ (child b i) t₂ (child b j) m₁ m₂ := by
        intro b m₁ same
        have inside : child b i < MAX_TREE_SIZE := Nat.lt_of_le_of_lt child_le inner
        have later : i < child b i := lt_child
        have closed₁ : Closed Nil (subtree t₁ m₁ (child b i)) := same ▸ closed.cons b
        exact half_moved inside closed₁ fun there =>
          ih (apart.child b b) closed₁ (same ▸ fits.cons b) there (by omega)
      obtain ⟨m₁, left, movedLeft⟩ := half false m rfl
      obtain ⟨m₂, right, movedRight⟩ := half true m₁ (subtree_congr fun w =>
        movedLeft.frame _ (off_sibling nofun) ((apart.child true false).off w))
      have room : j < MAX_TREE_SIZE := (fits [] root).2
      exact ⟨_, move_ended.mpr ⟨m₁, m₂, left, right, room, rfl⟩,
        .node apart bound room (fun blank => root ((node_eq bound).trans blank)) movedLeft
          movedRight⟩

end moved

/-! ## A subtree that goes below itself -/

/-- On the right edge of the tree, a node with a right child has no left one. -/
def Straight (f : List Bool → Int) : Prop :=
  ∀ n, f (List.replicate n true ++ [true]) ≠ Nil → f (List.replicate n true ++ [false]) = Nil

/-- A tree has become the right subtree of its old root. -/
structure Shifted (t : ν) (i : Nat) (m m' : Mem ν) : Prop where
  target : ∀ w, subtree t m' (child true i) w = subtree t m i w
  root : m' (t, i) = Nil
  left : ∀ w, subtree t m' (child false i) w = Nil
  frame : ∀ p, Off t i p → m' p = m p
  rearranged : Rearranged (cellsOf t t) m m'

section shifted

variable {t : ν} {m m' m₁ m₂ : Mem ν} {i fuel : Nat}

theorem Straight.cons {f : List Bool → Int} (straight : Straight f) :
    Straight fun w => f (true :: w) := fun n => straight (n + 1)

omit [DecidableEq ν] in
theorem subtree_child (t : ν) (m : Mem ν) (i : Nat) (b : Bool) (w : List Bool) :
    subtree t m (child b i) w = subtree t m i (b :: w) := rfl

/-- The last step for a node that goes to the cell of its right child. -/
theorem subtree_carried (m : Mem ν) (i : Nat) {w : List Bool} (deep : w ≠ [])
    (other : w ≠ [true]) :
    subtree t (carried m (t, i) (t, child true i)) i w = subtree t m i w := by
  have notSource : (t, below i w) ≠ ((t, i) : ν × Nat) := fun same =>
    deep (below_inj (i := i) (w := []) (Prod.mk.inj same).2)
  have notTarget : (t, below i w) ≠ ((t, child true i) : ν × Nat) := fun same =>
    other (below_inj (i := i) (w := [true]) (Prod.mk.inj same).2)
  exact subtree_eq (carried_of_ne notSource notTarget)

theorem subtree_carried_root (m : Mem ν) (bound : child true i < MAX_TREE_SIZE) :
    subtree t (carried m (t, i) (t, child true i)) i [true] = subtree t m i [] := by
  have ne : (t, child true i) ≠ ((t, i) : ν × Nat) := fun same => lt_child.ne' (Prod.mk.inj same).2
  have inside : i < MAX_TREE_SIZE := lt_child.trans bound
  exact (node_eq bound).trans ((carried_target ne).trans (node_eq inside).symm)

theorem carried_frame {p : ν × Nat} (off : Off t i p) :
    carried m (t, i) (t, child true i) p = m p :=
  carried_of_ne off.ne (off.child true).ne

/-- A node with a left child only. -/
theorem Shifted.of_left (closed : Closed Nil (subtree t m i)) (bound : child true i < MAX_TREE_SIZE)
    (none : m (t, child true i) = Nil)
    (left : Moved t (child false i) t (child false (child true i)) m m₁) :
    Shifted t i m (carried m₁ (t, i) (t, child true i)) := by
  have top : subtree t m i [true] = Nil := (node_eq bound).trans none
  have inside : i < MAX_TREE_SIZE := lt_child.trans bound
  have kept : ∀ w, ¬ [false] <+: w → ¬ [true, false] <+: w →
      m₁ (t, below i w) = m (t, below i w) :=
    fun w source target => left.frame _ (off_below source) (off_below target)
  have keptNode : ∀ w, ¬ [false] <+: w → ¬ [true, false] <+: w →
      subtree t m₁ i w = subtree t m i w :=
    fun w source target => subtree_eq (kept w source target)
  refine ⟨fun w => ?_, carried_source, fun w => ?_, fun p off => ?_, ?_⟩
  · rw [subtree_child]
    match w with
    | [] => rw [subtree_carried_root m₁ bound, keptNode [] (by simp) (by simp)]
    | true :: w =>
        have right : subtree t m i (true :: w) = Nil := closed.eq_blank (v := [true]) top
        rw [subtree_carried m₁ i (by simp) (by simp), keptNode _ (by simp) (by simp), right]
        exact closed.eq_blank (v := [true]) top
    | false :: w =>
        have under : subtree t m i (true :: false :: w) = Nil := closed.eq_blank (v := [true]) top
        have there : subtree t m₁ i (true :: false :: w) =
            if subtree t m i (false :: w) = Nil then subtree t m i (true :: false :: w)
            else subtree t m i (false :: w) := left.target w
        rw [under] at there
        rw [subtree_carried m₁ i (by simp) (by simp), there]
        split
        next blank => exact blank.symm
        next => rfl
  · rw [subtree_child, subtree_carried m₁ i (by simp) (by simp)]
    exact left.source w
  · rw [carried_frame off]
    exact left.frame p (off.child false) ((off.child true).child false)
  · have first := left.rearranged fun w _ => closed.eq_blank (v := [true]) (w := false :: w) top
    have free : m₁ (t, child true i) = Nil := (kept [true] (by simp) (by simp)).trans none
    exact first.trans (carried_rearranged free ⟨.inl rfl, inside⟩ ⟨.inl rfl, bound⟩)

/-- A node with a right child only. -/
theorem Shifted.of_right (closed : Closed Nil (subtree t m i))
    (bound : child true i < MAX_TREE_SIZE) (none : subtree t m i [false] = Nil)
    (right : Shifted t (child true i) m m₁) :
    Shifted t i m (carried m₁ (t, i) (t, child true i)) := by
  have inside : i < MAX_TREE_SIZE := lt_child.trans bound
  have keptNode : ∀ w, ¬ [true] <+: w → subtree t m₁ i w = subtree t m i w :=
    fun w off => subtree_eq (right.frame _ (off_below (v := [true]) off))
  refine ⟨fun w => ?_, carried_source, fun w => ?_, fun p off => ?_, ?_⟩
  · rw [subtree_child]
    match w with
    | [] => rw [subtree_carried_root m₁ bound, keptNode [] (by simp)]
    | true :: w =>
        rw [subtree_carried m₁ i (by simp) (by simp)]
        exact right.target w
    | false :: w =>
        have blank : subtree t m i (false :: w) = Nil := closed.eq_blank (v := [false]) none
        rw [subtree_carried m₁ i (by simp) (by simp), blank]
        exact right.left w
  · rw [subtree_child, subtree_carried m₁ i (by simp) (by simp), keptNode _ (by simp)]
    exact closed.eq_blank (v := [false]) none
  · rw [carried_frame off]
    exact right.frame p (off.child true)
  · exact right.rearranged.trans
      (carried_rearranged right.root ⟨.inl rfl, inside⟩ ⟨.inl rfl, bound⟩)

/-- A tree with a straight right edge can go to the cell of its right child. -/
theorem move_shifted (closed : Closed Nil (subtree t m i)) (straight : Straight (subtree t m i))
    (fits : RoomFor (subtree t m i) i (child true i)) (root : subtree t m i [] ≠ Nil)
    (enough : MAX_TREE_SIZE ≤ i + fuel) :
    ∃ m', move t t fuel i (child true i) m = .ended () m' ∧ Shifted t i m m' := by
  induction fuel generalizing i m with
  | zero =>
      have bound := lt_of_node root
      rw [below_nil] at bound
      omega
  | succ fuel ih =>
      obtain ⟨inner, bound⟩ : 2 * i + 2 < MAX_TREE_SIZE ∧ child true i < MAX_TREE_SIZE :=
        fits [] root
      have inside : child false i < MAX_TREE_SIZE := Nat.lt_of_le_of_lt child_le inner
      by_cases none : m (t, child true i) = Nil
      · have later : i < child false i := lt_child
        have goes : subtree t m (child false i) [] ≠ Nil → ∃ m₁,
            move t t fuel (child false i) (child false (child true i)) m = .ended () m₁ ∧
              Moved t (child false i) t (child false (child true i)) m m₁ := fun there =>
          move_moved (apart_left t i) (closed.cons false) (fits.cons false) there (by omega)
        obtain ⟨m₁, left, moved⟩ := half_moved inside (closed.cons false) goes
        have still : m₁ (t, child true i) = Nil :=
          (moved.frame _ (off_below (i := i) (v := [false]) (w := [true]) (by simp))
            (off_below (i := i) (v := [true, false]) (w := [true]) (by simp))).trans none
        exact ⟨_, move_ended.mpr ⟨m₁, m₁, left, ⟨bound, .inl ⟨still, rfl⟩⟩, bound, rfl⟩,
          .of_left closed bound none moved⟩
      · have there : subtree t m i [true] ≠ Nil :=
          fun blank => none ((node_eq bound).symm.trans blank)
        have alone : subtree t m i [false] = Nil := straight 0 there
        have blank : m (t, child false i) = Nil := (node_eq inside).symm.trans alone
        obtain ⟨m₁, ran, shifted⟩ := ih (closed.cons true) straight.cons (fits.cons true) there
          (by unfold child; omega)
        exact ⟨_, move_ended.mpr ⟨m, m₁, ⟨inside, .inl ⟨blank, rfl⟩⟩,
          ⟨bound, .inr ⟨none, ran⟩⟩, bound, rfl⟩, .of_right closed bound alone shifted⟩

/-- After the move there is nothing in the cell of the left child. -/
theorem move_left (ran : move t t fuel i (child true i) m = .ended () m') :
    m' (t, child false i) = Nil := by
  match fuel with
  | 0 => cases ran
  | fuel + 1 =>
      obtain ⟨m₁, m₂, left, right, -, rfl⟩ := move_ended.mp ran
      have gone : m₁ (t, child false i) = Nil := by
        rcases left.2 with ⟨blank, rfl⟩ | ⟨-, moved⟩
        · exact blank
        · exact move_root moved
      have still : m₂ (t, child false i) = Nil :=
        (right.frame (off_below (i := i) (v := [true]) (w := [false]) (by simp))
          (off_below (i := i) (v := [true, true]) (w := [false]) (by simp))).trans gone
      have source : (t, child false i) ≠ ((t, i) : ν × Nat) :=
        fun same => lt_child.ne' (Prod.mk.inj same).2
      have target : (t, child false i) ≠ ((t, child true i) : ν × Nat) :=
        fun same => Bool.false_ne_true (child_inj (Prod.mk.inj same).2).1
      rw [carried_of_ne source target, still]

/-- A move to the cell of the right child is right only for a tree with a straight right edge. -/
theorem straight_of_move (closed : Closed Nil (subtree t m i))
    (ran : move t t fuel i (child true i) m = .ended () m')
    (target : ∀ w, subtree t m' (child true i) w = subtree t m i w) :
    Straight (subtree t m i) := by
  induction fuel generalizing i m m' with
  | zero => cases ran
  | succ fuel ih =>
      obtain ⟨m₁, m₂, left, right, -, rfl⟩ := move_ended.mp ran
      have after : ∀ w, w ≠ [] → subtree t m₂ i (true :: w) = subtree t m i w := by
        intro w deep
        rw [← target w, subtree_child]
        exact (subtree_carried m₂ i (by simp) (by simpa using deep)).symm
      have goes : subtree t m i [true] ≠ Nil →
          move t t fuel (child true i) (child true (child true i)) m₁ = .ended () m₂ := by
        intro there
        have kept : m₁ (t, child true i) = m (t, child true i) :=
          left.frame (off_below (i := i) (v := [false]) (w := [true]) (by simp))
            (off_below (i := i) (v := [true, false]) (w := [true]) (by simp))
        rcases right.2 with ⟨blank, -⟩ | ⟨-, moved⟩
        · exact absurd ((node_eq right.1).trans (kept.symm.trans blank)) there
        · exact moved
      have top : subtree t m i [true] ≠ Nil → subtree t m i [false] = Nil := by
        intro there
        have gone := move_left (goes there)
        rw [← after [false] (by simp)]
        unfold subtree node
        split
        next => exact gone
        next => rfl
      intro n there
      match n with
      | 0 => exact top there
      | n + 1 =>
          have edge : subtree t m i [true] ≠ Nil := closed.of_append (v := [true]) there
          obtain rfl : m₁ = m := by
            rcases left.2 with ⟨-, same⟩ | ⟨some, -⟩
            · exact same
            · exact absurd ((node_eq left.1).symm.trans (top edge)) some
          exact ih (closed.cons true) (goes edge) (fun w => after (true :: w) (by simp)) n there

end shifted

/-! ## `Insert_child` -/

/-- The values of a tree. -/
def values (t : ν) (m : Mem ν) : List Int :=
  ((List.range MAX_TREE_SIZE).map fun k => m (t, k)).filter (· ≠ Nil)

/-- A call of `Insert_child` for `p`, which is in cell `i` first, with room for all nodes. -/
structure Insertion (t₁ t₂ : ν) (m : Mem ν) (p : Int) (lr i : Nat) : Prop where
  arrays : t₁ ≠ t₂
  formed₁ : WellFormed t₁ m
  formed₂ : WellFormed t₂ m
  first : FirstWith t₁ m p i
  side : lr < 2
  root : m (t₂, 0) ≠ Nil
  noRight : m (t₂, 2) = Nil
  room : 2 * i + 1 + lr < MAX_TREE_SIZE
  moves₁ : RoomFor (subtree t₁ m (2 * i + 1 + lr)) (2 * i + 1 + lr) (2 * (2 * i + 1 + lr) + 2)
  moves₂ : RoomFor (subtree t₂ m 0) 0 (2 * i + 1 + lr)

/-- The tree of `t₂` is in cell `j` of `t₁`, with what was there as its right subtree. -/
structure Inserted (t₁ t₂ : ν) (j : Nat) (m m' : Mem ν) : Prop where
  tree : ∀ w, subtree t₁ m' j w = graft (subtree t₂ m 0) (subtree t₁ m j) w
  others : ∀ k, ¬ Under j k → node t₁ m' k = node t₁ m k
  formed : WellFormed t₁ m'
  emptied : ∀ k, node t₂ m' k = Nil
  values : (values t₁ m').Perm (values t₁ m ++ values t₂ m)

section insert

variable {t t₁ t₂ : ν} {m m' m₁ : Mem ν} {p : Int} {lr i j : Nat}

omit [DecidableEq ν] in
/-- Values that have changed places are still there. -/
theorem values_perm (arrays : t₁ ≠ t₂) (rearranged : Rearranged (cellsOf t₁ t₂) m m')
    (emptied : ∀ k, node t₂ m' k = Nil) : (values t₁ m').Perm (values t₁ m ++ values t₂ m) := by
  have none : values t₂ m' = [] := by
    refine List.filter_eq_nil_iff.mpr fun x mem => ?_
    obtain ⟨k, bound, rfl⟩ := List.mem_map.mp mem
    have blank := emptied k
    rw [node_eq (List.mem_range.mp bound)] at blank
    simp [blank]
  have distinct : ∀ t : ν, ((List.range MAX_TREE_SIZE).map fun k => (t, k)).Nodup := fun t =>
    List.nodup_range.map fun _ _ same => (Prod.mk.inj same).2
  have nodup : (((List.range MAX_TREE_SIZE).map fun k => (t₁, k)) ++
      (List.range MAX_TREE_SIZE).map fun k => (t₂, k)).Nodup := by
    refine (distinct t₁).append (distinct t₂) fun q mem mem' => arrays ?_
    obtain ⟨_, -, rfl⟩ := List.mem_map.mp mem
    obtain ⟨_, -, same⟩ := List.mem_map.mp mem'
    exact (Prod.mk.inj same).1.symm
  have perm := rearranged.perm nodup fun q mem => by
    obtain ⟨t, k⟩ := q
    obtain ⟨rfl | rfl, bound⟩ := mem
    · exact List.mem_append_left _ (List.mem_map.mpr ⟨k, List.mem_range.mpr bound, rfl⟩)
    · exact List.mem_append_right _ (List.mem_map.mpr ⟨k, List.mem_range.mpr bound, rfl⟩)
  rw [List.map_append, List.map_append, List.map_map, List.map_map, List.map_map,
    List.map_map] at perm
  have kept := perm.filter (· ≠ Nil)
  rw [List.filter_append, List.filter_append] at kept
  have same : values t₁ m' = values t₁ m' ++ values t₂ m' := by rw [none, List.append_nil]
  rw [same]
  exact kept

omit [DecidableEq ν] in
/-- Where there is no tree, there is room. -/
theorem Shifted.of_empty (empty : ∀ w, subtree t m i w = Nil) (bound : i < MAX_TREE_SIZE) :
    Shifted t i m m :=
  ⟨fun w => (empty (true :: w)).trans (empty w).symm, (node_eq bound).symm.trans (empty []),
    fun w => empty (false :: w), fun _ _ => rfl, .refl _ m⟩

namespace Insertion

omit [DecidableEq ν] in
/-- The tree of `t₂` has nothing to the right of its root. -/
theorem right_nil (given : Insertion t₁ t₂ m p lr i) (w : List Bool) :
    subtree t₂ m 0 (true :: w) = Nil :=
  (given.formed₂.closed 0).eq_blank (v := [true]) given.noRight

/-- The second move is one between two arrays. -/
theorem exists_moved (given : Insertion t₁ t₂ m p lr i)
    (same : subtree t₂ m₁ 0 = subtree t₂ m 0) :
    ∃ m', move t₂ t₁ MAX_TREE_SIZE 0 (2 * i + 1 + lr) m₁ = .ended () m' ∧
      Moved t₂ 0 t₁ (2 * i + 1 + lr) m₁ m' :=
  move_moved (apart_of_ne given.arrays.symm) (same ▸ given.formed₂.closed 0)
    (same ▸ given.moves₂) (same ▸ given.root) (by omega)

omit [DecidableEq ν] in
/-- What the two moves make of the two trees. -/
theorem inserted (given : Insertion t₁ t₂ m p lr i)
    (shifted : Shifted t₁ (2 * i + 1 + lr) m m₁) (same : subtree t₂ m₁ 0 = subtree t₂ m 0)
    (moved : Moved t₂ 0 t₁ (2 * i + 1 + lr) m₁ m') :
    Inserted t₁ t₂ (2 * i + 1 + lr) m m' := by
  have arrays := given.arrays
  have side := given.side
  have root : subtree t₂ m 0 [] ≠ Nil := given.root
  have rootFree : subtree t₁ m₁ (2 * i + 1 + lr) [] = Nil :=
    (node_eq given.room).trans shifted.root
  have leftFree : ∀ w, subtree t₁ m₁ (2 * i + 1 + lr) (false :: w) = Nil := shifted.left
  have tree : ∀ w, subtree t₁ m' (2 * i + 1 + lr) w =
      graft (subtree t₂ m 0) (subtree t₁ m (2 * i + 1 + lr)) w := by
    intro w
    rw [moved.target, same]
    match w with
    | [] => rw [if_neg root, graft_nil]
    | true :: w =>
        rw [if_pos (given.right_nil w), graft_true]
        exact shifted.target w
    | false :: w =>
        rw [leftFree, graft_false]
        split
        next blank => exact blank.symm
        next => rfl
  have others : ∀ k, ¬ Under (2 * i + 1 + lr) k → node t₁ m' k = node t₁ m k := by
    intro k off
    have first : m₁ (t₁, k) = m (t₁, k) := shifted.frame _ fun _ => off
    rw [node, node, moved.frame _ (fun eq => absurd eq arrays) fun _ => off, first]
  have emptied : ∀ k, node t₂ m' k = Nil := by
    intro k
    obtain ⟨w, rfl⟩ := exists_below_zero k
    exact moved.source w
  have closed := (given.formed₂.closed 0).graft (given.formed₁.closed (2 * i + 1 + lr)) root
  refine ⟨tree, others, fun k pos bound there => ?_, emptied, ?_⟩
  · have above := (parent_lt pos).trans bound
    have there : node t₁ m' k ≠ Nil := fun blank => there ((node_eq bound).symm.trans blank)
    suffices node t₁ m' (parent k) ≠ Nil from
      fun blank => this ((node_eq above).trans blank)
    obtain ⟨b, here⟩ := exists_child pos
    by_cases under : Under (2 * i + 1 + lr) k
    · obtain ⟨w, rfl⟩ := under
      rcases List.eq_nil_or_concat w with rfl | ⟨w, c, rfl⟩
      · -- the parent of the new child
        have up : parent (2 * i + 1 + lr) = i := by
          unfold parent
          omega
        have outside : ¬ Under (2 * i + 1 + lr) i := by
          rintro ⟨v, same⟩
          have := le_below (i := 2 * i + 1 + lr) (w := v)
          omega
        rw [below_nil, up, others i outside, node_eq given.first.bound, given.first.here]
        exact given.first.value
      · rw [List.concat_eq_append] at there ⊢
        have deeper : graft (subtree t₂ m 0) (subtree t₁ m (2 * i + 1 + lr)) (w ++ [c]) ≠ Nil :=
          tree (w ++ [c]) ▸ there
        rw [below_concat, parent_child]
        exact fun blank => closed w c deeper ((tree w).symm.trans blank)
    · have apart : ¬ Under (2 * i + 1 + lr) (parent k) := fun up => under (here ▸ up.child)
      rw [others k under] at there
      rw [others _ apart]
      exact given.formed₁.node_parent (here.symm ▸ there)
  · have first := shifted.rearranged.mono (t := cellsOf t₁ t₂) fun q mem =>
      ⟨.inl (mem.1.elim id id), mem.2⟩
    have second := moved.rearranged fun w there => by
      rw [same] at there
      match w with
      | [] => exact rootFree
      | true :: w => exact absurd (given.right_nil w) there
      | false :: w => exact leftFree w
    have swapped := second.mono (t := cellsOf t₁ t₂) fun q mem => ⟨mem.1.symm, mem.2⟩
    exact values_perm arrays (first.trans swapped) emptied

/-- The cell of `p` is found, and the rest of the call is two moves. -/
theorem insertChild_ended (given : Insertion t₁ t₂ m p lr i) :
    insertChild t₁ p lr t₂ m = .ended .OK m' ↔
      ∃ m₁, ifNode t₁ (2 * i + 1 + lr) (move t₁ t₁ MAX_TREE_SIZE (2 * i + 1 + lr)
          (child true (2 * i + 1 + lr))) () m = .ended () m₁ ∧
        move t₂ t₁ MAX_TREE_SIZE 0 (2 * i + 1 + lr) m₁ = .ended () m' := by
  have bound := given.first.bound
  have found : findLoop t₁ p (MAX_TREE_SIZE + 1) 0 m = .ended i m :=
    findLoop_ended given.first (Nat.zero_le i) (by omega)
  rw [insertChild, bind_ended found, bind_eq_ended]
  constructor
  · rintro ⟨⟨⟩, m₁, first, rest⟩
    obtain ⟨⟨⟩, m₂, second, last⟩ := bind_eq_ended.mp rest
    cases last
    exact ⟨m₁, first, second⟩
  · rintro ⟨m₁, first, second⟩
    exact ⟨(), m₁, first, bind_ended second⟩

/-- With a straight right edge the child comes in. -/
theorem exists_inserted (given : Insertion t₁ t₂ m p lr i)
    (straight : Straight (subtree t₁ m (2 * i + 1 + lr))) :
    ∃ m', insertChild t₁ p lr t₂ m = .ended .OK m' ∧ Inserted t₁ t₂ (2 * i + 1 + lr) m m' := by
  have closed := given.formed₁.closed (2 * i + 1 + lr)
  obtain ⟨m₁, first, shifted⟩ : ∃ m₁, ifNode t₁ (2 * i + 1 + lr) (move t₁ t₁ MAX_TREE_SIZE
      (2 * i + 1 + lr) (child true (2 * i + 1 + lr))) () m = .ended () m₁ ∧
        Shifted t₁ (2 * i + 1 + lr) m m₁ := by
    have top : subtree t₁ m (2 * i + 1 + lr) [] = m (t₁, 2 * i + 1 + lr) := node_eq given.room
    by_cases blank : m (t₁, 2 * i + 1 + lr) = Nil
    · have empty : ∀ w, subtree t₁ m (2 * i + 1 + lr) w = Nil := fun w =>
        closed.eq_blank (v := []) (top.trans blank)
      exact ⟨m, ifNode_ended.mpr ⟨given.room, .inl ⟨blank, rfl⟩⟩, .of_empty empty given.room⟩
    · obtain ⟨m₁, ran, shifted⟩ := move_shifted closed straight given.moves₁ (top ▸ blank)
        (Nat.le_add_left MAX_TREE_SIZE _)
      exact ⟨m₁, ifNode_ended.mpr ⟨given.room, .inr ⟨blank, ran⟩⟩, shifted⟩
  have same : subtree t₂ m₁ 0 = subtree t₂ m 0 := subtree_congr fun w =>
    shifted.frame _ fun eq => absurd eq.symm given.arrays
  obtain ⟨m', second, moved⟩ := given.exists_moved same
  exact ⟨m', given.insertChild_ended.mpr ⟨m₁, first, second⟩, given.inserted shifted same moved⟩

/-- It does so only then. -/
theorem straight (given : Insertion t₁ t₂ m p lr i)
    (ran : insertChild t₁ p lr t₂ m = .ended .OK m')
    (inserted : Inserted t₁ t₂ (2 * i + 1 + lr) m m') :
    Straight (subtree t₁ m (2 * i + 1 + lr)) := by
  have closed := given.formed₁.closed (2 * i + 1 + lr)
  obtain ⟨m₁, first, second⟩ := given.insertChild_ended.mp ran
  rcases (ifNode_ended.mp first).2 with ⟨blank, -⟩ | ⟨-, first⟩
  · have top : subtree t₁ m (2 * i + 1 + lr) [] = Nil := (node_eq given.room).trans blank
    exact fun n _ => closed.eq_blank (v := []) top
  · have same : subtree t₂ m₁ 0 = subtree t₂ m 0 := subtree_congr fun w =>
      move_frame first (fun eq => absurd eq.symm given.arrays)
        fun eq => absurd eq.symm given.arrays
    obtain ⟨m₂, second', moved⟩ := given.exists_moved same
    obtain rfl : m' = m₂ := by
      have both := second.symm.trans second'
      injection both
    refine straight_of_move closed first fun w => ?_
    have there := moved.target (true :: w)
    rw [same, if_pos (given.right_nil w), inserted.tree, graft_true] at there
    exact there.symm

end Insertion

end insert

/-- `Insert_child` puts the one tree into the other where the right edge of what has to make
room is straight, and nowhere else. -/
theorem insertChild_iff {t₁ t₂ : ν} {m : Mem ν} {p : Int} {lr i : Nat}
    (given : Insertion t₁ t₂ m p lr i) :
    (∃ m', insertChild t₁ p lr t₂ m = .ended .OK m' ∧ Inserted t₁ t₂ (2 * i + 1 + lr) m m') ↔
      Straight (subtree t₁ m (2 * i + 1 + lr)) :=
  ⟨fun ⟨_, ran, inserted⟩ => given.straight ran inserted, given.exists_inserted⟩

/-! A root `1` with the left child `2`, which has a left child `4` and perhaps a right one, and
a second tree that is its root. -/

def twoTrees (x : Int) : Mem Bool
  | (false, 0) => 1
  | (false, 1) => 2
  | (false, 3) => 4
  | (false, 4) => x
  | (true, 0) => 10
  | _ => Nil

theorem wellFormed_twoTrees (x : Int) (t : Bool) : WellFormed t (twoTrees x) := by
  intro i pos bound there
  match t, i with
  | false, 1 => exact Int.one_ne_zero
  | false, 3 => exact (by decide : (2 : Int) ≠ 0)
  | false, 4 => exact (by decide : (2 : Int) ≠ 0)
  | false, 2 | false, _ + 5 | true, _ + 1 => exact absurd rfl there

theorem insertion_twoTrees (x : Int) : Insertion false true (twoTrees x) 1 0 0 where
  arrays := by decide
  formed₁ := wellFormed_twoTrees x false
  formed₂ := wellFormed_twoTrees x true
  first := ⟨by decide, by decide, rfl, fun k less => absurd less (Nat.not_lt_zero k)⟩
  side := by decide
  root := (by decide : (10 : Int) ≠ 0)
  noRight := rfl
  room := by decide
  moves₁ := by
    have closed := (wellFormed_twoTrees x false).closed 1
    intro w there
    match w with
    | [] | [false] | [true] => decide
    | b :: c :: w =>
        refine absurd (closed.eq_blank (v := [b, c]) ?_) there
        cases b <;> cases c <;> rfl
  moves₂ := by
    have closed := (wellFormed_twoTrees x true).closed 0
    intro w there
    match w with
    | [] => decide
    | b :: w =>
        refine absurd (closed.eq_blank (v := [b]) ?_) there
        cases b <;> rfl

/-- With a left and a right child of `2`, the left one is moved twice. -/
theorem insertChild_fails :
    Insertion false true (twoTrees 5) 1 0 0 ∧
      ¬ ∃ m', insertChild false 1 0 true (twoTrees 5) = .ended .OK m' ∧
        Inserted false true 1 (twoTrees 5) m' := by
  refine ⟨insertion_twoTrees 5, ?_⟩
  rintro ⟨m', ran, inserted⟩
  have straight := (insertion_twoTrees 5).straight ran inserted
  exact absurd (straight 0 (by decide)) (by decide)

theorem insertChild_leaf :
    ∃ m', insertChild false 1 0 true (twoTrees 0) = .ended .OK m' ∧
      Inserted false true 1 (twoTrees 0) m' := by
  refine (insertChild_iff (insertion_twoTrees 0)).mpr fun n there => ?_
  have closed := (wellFormed_twoTrees 0 false).closed 1
  match n with
  | 0 => exact absurd rfl there
  | n + 1 => exact absurd (closed.eq_blank (v := [true]) rfl) there

end Shang.Gyf
