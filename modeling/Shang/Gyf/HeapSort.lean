import Shang.Lib.Places
import Mathlib

/-!
# The heap sort of records

`HeapAdjust` and `HeapSort` of `algo10-9.c`. The loop of `HeapAdjust` exchanges a
record with the greater one of its children, but goes on below the left child in any
case. So a record that has gone to the right is not sifted further down, and later a
greatest record may be where the next call does not look: a call for the root looks
at the first three places only.
-/

namespace Shang.Gyf

open Shang.Lib Shang.Lib.Act Function

def MAXSIZE : Int := 20

structure RedType where
  key : Int
  otherinfo : Int
  deriving DecidableEq

/-- `H->r`, with the place 0 that is not used. -/
def r : Arr Int := .plain 0 (MAXSIZE + 1)

/-! ## The program -/

/-- `H->r[i]` and `H->r[j]` change places. -/
def swap (i j : Int) : Act (Int → RedType) Unit := do
  let tmp ← load r i
  let x ← load r j
  store r i x
  store r j tmp

/-- The comparison with the left child. -/
def leftTarget (index : Int) : Act (Int → RedType) Int := do
  let x ← load r index
  let y ← load r (index / 2)
  if x.key > y.key then pure index else pure (index / 2)

/-- The comparison with the right child, if there is one. -/
def rightTarget (h index target : Int) : Act (Int → RedType) Int :=
  if index + 1 ≤ h then do
    let x ← load r (index + 1)
    let y ← load r target
    if x.key > y.key then pure (index + 1) else pure target
  else pure target

/-- The body of the loop before `index*=2`, and whether the loop goes on. -/
def adjustRound (h index : Int) : Act (Int → RedType) Bool := do
  let target ← leftTarget index
  let target ← rightTarget h index target
  if target = index / 2 then pure false
  else do
    let x ← load r target
    let y ← load r (index / 2)
    if x.key > y.key then do
      swap (index / 2) target
      pure true
    else pure true

/-- `while (index <= h)` -/
def adjustLoop (h : Int) : Nat → Int → Act (Int → RedType) Unit
  | 0, _ => spent
  | fuel + 1, index =>
      if index ≤ h then do
        let more ← adjustRound h index
        if more then adjustLoop h fuel (index * 2) else pure ()
      else pure ()

/-- `HeapAdjust(H, s, h)` -/
def heapAdjust (fuel : Nat) (s h : Int) : Act (Int → RedType) Unit := adjustLoop h fuel (2 * s)

/-- The first loop of `HeapSort`, from `i` on. -/
def buildLoop (fuel : Nat) (length : Int) : Nat → Act (Int → RedType) Unit
  | 0 => pure ()
  | i + 1 => do
      heapAdjust fuel (i + 1 : Nat) length
      buildLoop fuel length i

/-- The second loop of `HeapSort`, from `i` on. -/
def sortLoop (fuel : Nat) : Nat → Act (Int → RedType) Unit
  | 0 => pure ()
  | 1 => pure ()
  | i + 2 => do
      swap 1 (i + 2 : Nat)
      heapAdjust fuel 1 (i + 1 : Nat)
      sortLoop fuel (i + 1)

/-- `HeapSort(H)`, where `H` has `length` records. -/
def heapSort (fuel length : Nat) : Act (Int → RedType) Unit := do
  buildLoop fuel length (length / 2)
  sortLoop fuel length

/-! ## A round -/

variable {h p : Int} {a b c : Int → RedType} {fuel i n : Nat}

/-- `t` is the place `p` or a child of it, within the first `h`. -/
def Near (h p t : Int) : Prop := (t = p ∨ t = 2 * p ∨ t = 2 * p + 1) ∧ t ≤ h

theorem swap_eq {i j : Int} (lowI : 0 ≤ i) (highI : i ≤ MAXSIZE) (lowJ : 0 ≤ j)
    (highJ : j ≤ MAXSIZE) (a : Int → RedType) :
    swap i j a = .ended () (update (update a i (a j)) j (a i)) := by
  rw [swap, r, bind_ended (load_plain lowI (by omega) a),
    bind_ended (load_plain lowJ (by omega) a), bind_ended (store_plain lowI (by omega) _ a),
    store_plain lowJ (by omega)]

theorem leftTarget_spec (pos : 1 ≤ p) (inside : 2 * p ≤ h) (small : h ≤ MAXSIZE)
    (a : Int → RedType) :
    ∃ t, leftTarget (2 * p) a = .ended t a ∧ (t = p ∨ t = 2 * p ∧ (a p).key < (a t).key) ∧
      (a (2 * p)).key ≤ (a t).key := by
  have half : 2 * p / 2 = p := by omega
  rw [leftTarget, half, r, bind_ended (load_plain (by omega) (by omega) a),
    bind_ended (load_plain (by omega) (by omega) a)]
  by_cases greater : (a (2 * p)).key > (a p).key
  · rw [if_pos greater]
    exact ⟨2 * p, rfl, .inr ⟨rfl, greater⟩, Int.le_refl _⟩
  · rw [if_neg greater]
    exact ⟨p, rfl, .inl rfl, Int.not_lt.mp greater⟩

theorem rightTarget_spec {t : Int} (pos : 1 ≤ p) (low : 1 ≤ t) (inside : t ≤ h)
    (small : h ≤ MAXSIZE) (a : Int → RedType) :
    ∃ u, rightTarget h (2 * p) t a = .ended u a ∧
      (u = t ∨ (u = 2 * p + 1 ∧ u ≤ h) ∧ (a t).key < (a u).key) ∧
      (2 * p + 1 ≤ h → (a (2 * p + 1)).key ≤ (a u).key) := by
  rw [rightTarget]
  by_cases more : 2 * p + 1 ≤ h
  case neg =>
    rw [if_neg more]
    exact ⟨t, rfl, .inl rfl, fun le => absurd le more⟩
  rw [if_pos more, r, bind_ended (load_plain (by omega) (by omega) a),
    bind_ended (load_plain (by omega) (by omega) a)]
  by_cases greater : (a (2 * p + 1)).key > (a t).key
  · rw [if_pos greater]
    exact ⟨2 * p + 1, rfl, .inr ⟨⟨rfl, more⟩, greater⟩, fun _ => Int.le_refl _⟩
  · rw [if_neg greater]
    exact ⟨t, rfl, .inl rfl, fun _ => Int.not_lt.mp greater⟩

/-- The record at `p` changes places with the child that has the greatest key, unless its own key
is the greatest. -/
theorem adjustRound_spec (pos : 1 ≤ p) (inside : 2 * p ≤ h) (small : h ≤ MAXSIZE)
    (a : Int → RedType) :
    ∃ t, Near h p t ∧ (∀ q, Near h p q → (a q).key ≤ (a t).key) ∧
      (t = p ∧ adjustRound h (2 * p) a = .ended false a ∨
        t ≠ p ∧ (a p).key < (a t).key ∧
          adjustRound h (2 * p) a = .ended true (update (update a p (a t)) t (a p))) := by
  obtain ⟨t, left, whichL, leastL⟩ := leftTarget_spec pos inside small a
  obtain ⟨u, right, whichR, leastR⟩ : ∃ u, rightTarget h (2 * p) t a = .ended u a ∧ _ ∧ _ :=
    rightTarget_spec pos (by omega) (by omega) small a
  have half : 2 * p / 2 = p := by omega
  have near : Near h p u := ⟨by omega, by omega⟩
  have greatest : ∀ q, Near h p q → (a q).key ≤ (a u).key := by
    rintro q ⟨rfl | rfl | rfl, bound⟩
    · rcases whichL with rfl | ⟨-, lessL⟩ <;> rcases whichR with rfl | ⟨-, lessR⟩ <;> omega
    · rcases whichR with rfl | ⟨-, lessR⟩ <;> omega
    · exact leastR bound
  refine ⟨u, near, greatest, ?_⟩
  rw [adjustRound, bind_ended left, bind_ended right, half]
  by_cases stays : u = p
  · rw [if_pos stays]
    exact .inl ⟨stays, rfl⟩
  · have less : (a p).key < (a u).key := by
      rcases whichL with rfl | ⟨-, lessL⟩ <;> rcases whichR with rfl | ⟨-, lessR⟩ <;> omega
    rw [if_neg stays, r, bind_ended (load_plain (by omega) (by omega) a),
      bind_ended (load_plain (by omega) (by omega) a), if_pos less,
      bind_ended (swap_eq (by omega) (by omega) (by omega) (by omega) a)]
    exact .inr ⟨stays, less, rfl⟩

/-! ## A call -/

/-- What a call of `HeapAdjust` for `p` comes to: at `p` is a record with the greatest of the keys
that were there and in the children. -/
structure Adjusted (h p : Int) (a b : Int → RedType) : Prop where
  moved : Rearranged (Set.Icc p h) a b
  top : ∃ t, Near h p t ∧ b p = a t
  greatest : ∀ q, Near h p q → (a q).key ≤ (b p).key

theorem Adjusted.refl (inside : p ≤ h)
    (greatest : ∀ q, Near h p q → (a q).key ≤ (a p).key) : Adjusted h p a a :=
  ⟨.refl _ a, ⟨p, ⟨.inl rfl, inside⟩, rfl⟩, greatest⟩

theorem adjustLoop_spec (pos : 1 ≤ p) (inside : p ≤ h) (small : h ≤ MAXSIZE)
    (enough : (h - p).toNat < fuel) (a : Int → RedType) :
    ∃ b, adjustLoop h fuel (2 * p) a = .ended () b ∧ Adjusted h p a b := by
  induction fuel generalizing p a with
  | zero => omega
  | succ fuel ih =>
      rw [adjustLoop]
      by_cases more : 2 * p ≤ h
      case neg =>
        rw [if_neg more]
        refine ⟨a, rfl, .refl inside ?_⟩
        rintro q ⟨rfl | rfl | rfl, bound⟩ <;> omega
      rw [if_pos more]
      obtain ⟨t, near, greatest, ⟨rfl, ran⟩ | ⟨ne, -, ran⟩⟩ := adjustRound_spec pos more small a
      · rw [bind_ended ran]
        exact ⟨a, rfl, .refl inside greatest⟩
      · obtain ⟨left, -, -⟩ := update_exchange ne.symm a
        obtain ⟨b, rest, moved, -, -⟩ := ih (p := 2 * p) (by omega) more (by omega)
          (update (update a p (a t)) t (a p))
        have here : p ∈ Set.Icc p h := ⟨Int.le_refl p, inside⟩
        have there : t ∈ Set.Icc p h := ⟨by have := near.1; omega, near.2⟩
        have sub : Set.Icc (2 * p) h ⊆ Set.Icc p h := Set.Icc_subset_Icc_left (by omega)
        have kept : b p = a t :=
          (moved.of_notMem fun mem => absurd mem.1 (by omega)).trans left
        rw [bind_ended ran, if_pos rfl, Int.mul_comm (2 * p) 2]
        exact ⟨b, rest, ((Rearranged.exchange here there a).trans (moved.mono sub)),
          ⟨t, near, kept⟩, fun q mem => kept ▸ greatest q mem⟩

theorem heapAdjust_spec (pos : 1 ≤ p) (inside : p ≤ h) (small : h ≤ MAXSIZE)
    (enough : h < fuel) (a : Int → RedType) :
    ∃ b, heapAdjust fuel p h a = .ended () b ∧ Adjusted h p a b :=
  adjustLoop_spec pos inside small (by omega) a

/-! ## When it sorts -/

/-- The keys of the first `n` records are in order. -/
def InOrder (n : Int) (a : Int → RedType) : Prop :=
  ∀ i j, 1 ≤ i → i ≤ j → j ≤ n → (a i).key ≤ (a j).key

/-- The records of the list are in order, and no other ones than before. -/
def Sorts (fuel length : Nat) (a : Int → RedType) : Prop :=
  ∃ b, heapSort fuel length a = .ended () b ∧
    (slice b 1 (length + 1)).Perm (slice a 1 (length + 1)) ∧ InOrder length b

/-- One of the first three records has a greatest key of the first `h`. -/
def Seen (h : Int) (a : Int → RedType) : Prop :=
  ∃ p, Near h 1 p ∧ ∀ q, 1 ≤ q → q ≤ h → (a q).key ≤ (a p).key

/-- The call for the root in the first loop sees a greatest key. -/
def BuildSees (fuel : Nat) (length : Int) : Nat → (Int → RedType) → Prop
  | 0, _ => True
  | i + 1, a => (i = 0 → Seen length a) ∧
      ∀ b, heapAdjust fuel (i + 1 : Nat) length a = .ended () b → BuildSees fuel length i b

/-- Each call in the second loop sees a greatest key. -/
def SortSees (fuel : Nat) : Nat → (Int → RedType) → Prop
  | 0, _ => True
  | 1, _ => True
  | i + 2, a => ∀ b, swap 1 (i + 2 : Nat) a = .ended () b → Seen (i + 1 : Nat) b ∧
      ∀ c, heapAdjust fuel 1 (i + 1 : Nat) b = .ended () c → SortSees fuel (i + 1) c

/-- Before each call of `HeapAdjust` for the root, a greatest key of the records that are to be
adjusted is in one of the first three places. -/
def Sees (fuel length : Nat) (a : Int → RedType) : Prop :=
  BuildSees fuel length (length / 2) a ∧
    ∀ b, buildLoop fuel length (length / 2) a = .ended () b → SortSees fuel length b

/-- The first record has a greatest key of the first `h`. -/
def Greatest (h : Int) (a : Int → RedType) : Prop := ∀ q, 1 ≤ q → q ≤ h → (a q).key ≤ (a 1).key

/-- A call for the root brings a greatest key up if it sees one. -/
theorem Adjusted.seen_iff (adjusted : Adjusted h 1 a b) : Seen h a ↔ Greatest h b := by
  obtain ⟨moved, ⟨t, near, top⟩, greatest⟩ := adjusted
  constructor
  · rintro ⟨p, nearP, all⟩ q low high
    have bound := moved.forall_mem (p := fun x => x.key ≤ (a p).key)
      (fun i mem => all i mem.1 mem.2) q ⟨low, high⟩
    exact Int.le_trans bound (greatest p nearP)
  · intro all
    refine ⟨t, near, fun q low high => ?_⟩
    have bound := moved.symm.forall_mem (p := fun x => x.key ≤ (b 1).key)
      (fun i mem => all i mem.1 mem.2) q ⟨low, high⟩
    rwa [top] at bound

theorem buildLoop_spec (pos : 0 < i) (inside : i ≤ n) (small : n ≤ MAXSIZE) (enough : n < fuel)
    (a : Int → RedType) :
    ∃ b, buildLoop fuel n i a = .ended () b ∧ Rearranged (Set.Icc 1 (n : Int)) a b ∧
      (BuildSees fuel n i a ↔ Greatest n b) := by
  induction i generalizing a with
  | zero => omega
  | succ i ih =>
      obtain ⟨b, ran, adjusted⟩ : ∃ b, heapAdjust fuel (i + 1 : Nat) n a = .ended () b ∧ _ :=
        heapAdjust_spec (by omega) (by omega) small (by omega) a
      have sees : (∀ c, heapAdjust fuel (i + 1 : Nat) n a = .ended () c → BuildSees fuel n i c) ↔
          BuildSees fuel n i b := forall_ended_iff ran
      have sub : Set.Icc ((i + 1 : Nat) : Int) n ⊆ Set.Icc 1 n := Set.Icc_subset_Icc_left (by omega)
      rw [buildLoop, bind_ended ran, BuildSees, sees]
      rcases Nat.eq_zero_or_pos i with rfl | more
      · refine ⟨b, rfl, adjusted.moved, ?_⟩
        rw [← Adjusted.seen_iff adjusted]
        exact ⟨fun h => h.1 rfl, fun seen => ⟨fun _ => seen, trivial⟩⟩
      · obtain ⟨c, rest, moved, iff⟩ := ih more (by omega) b
        refine ⟨c, rest, (adjusted.moved.mono sub).trans moved, ?_⟩
        rw [← iff]
        exact and_iff_right fun none => absurd none more.ne'

theorem inOrder_succ :
    InOrder (h + 1) a ↔ InOrder h a ∧ ∀ q, 1 ≤ q → q ≤ h → (a q).key ≤ (a (h + 1)).key := by
  constructor
  · intro order
    exact ⟨fun i j low le high => order i j low le (by omega),
      fun q low high => order q (h + 1) low (by omega) (Int.le_refl _)⟩
  · rintro ⟨order, last⟩ i j low le high
    by_cases inside : j ≤ h
    · exact order i j low le inside
    · obtain rfl : j = h + 1 := by omega
      by_cases same : i = h + 1
      · rw [same]
      · exact last i low (by omega)

/-- The first record and the last one change places. -/
theorem exists_swapped (small : (i + 2 : Nat) ≤ MAXSIZE) (a : Int → RedType) :
    ∃ b, b = update (update a 1 (a (i + 2 : Nat))) (i + 2 : Nat) (a 1) ∧
      swap 1 (i + 2 : Nat) a = .ended () b :=
  ⟨_, rfl, swap_eq (by decide) (by decide) (by omega) small a⟩

/-- The second loop from `i` on ends, and sorts if it begins with a greatest record and sees the
others. -/
def SortsFrom (fuel i : Nat) : Prop :=
  ∀ a, ∃ b, sortLoop fuel i a = .ended () b ∧ Rearranged (Set.Icc 1 (i : Int)) a b ∧
    (Greatest i a ∧ SortSees fuel i a ↔ InOrder i b)

theorem sortsFrom_step (small : (i + 2 : Nat) ≤ MAXSIZE) (enough : i + 2 < fuel)
    (ih : SortsFrom fuel (i + 1)) : SortsFrom fuel (i + 2) := by
  intro a
  obtain ⟨b, isB, swapped⟩ := exists_swapped small a
  obtain ⟨c, ran, adjusted⟩ : ∃ c, heapAdjust fuel 1 (i + 1 : Nat) b = .ended () c ∧ _ :=
    heapAdjust_spec (Int.le_refl 1) (by omega) (by omega) (by omega) b
  obtain ⟨d, rest, moved, iff⟩ := ih c
  have sees : SortSees fuel (i + 2) a ↔ Greatest (i + 1 : Nat) c ∧ SortSees fuel (i + 1) c := by
    rw [SortSees, forall_ended_iff swapped, forall_ended_iff ran, Adjusted.seen_iff adjusted]
  have first : (1 : Int) ∈ Set.Icc 1 ((i + 2 : Nat) : Int) := ⟨Int.le_refl 1, by omega⟩
  have last : ((i + 2 : Nat) : Int) ∈ Set.Icc 1 ((i + 2 : Nat) : Int) :=
    ⟨by omega, Int.le_refl _⟩
  have sub : Set.Icc 1 ((i + 1 : Nat) : Int) ⊆ Set.Icc 1 ((i + 2 : Nat) : Int) :=
    Set.Icc_subset_Icc_right (by omega)
  have below : Rearranged (Set.Icc 1 ((i + 1 : Nat) : Int)) b d := adjusted.moved.trans moved
  have whole : Rearranged (Set.Icc 1 ((i + 2 : Nat) : Int)) a d := by
    have exchanged := Rearranged.exchange first last a
    rw [← isB] at exchanged
    exact exchanged.trans (below.mono sub)
  have top : d (i + 2 : Nat) = a 1 := by
    rw [below.of_notMem fun mem => absurd mem.2 (by omega), isB, update_self]
  have greatest : Greatest (i + 2 : Nat) a ↔
      ∀ q, 1 ≤ q → q ≤ ((i + 1 : Nat) : Int) → (d q).key ≤ (d (i + 2 : Nat)).key := by
    have all := whole.forall_mem_iff (p := fun x => x.key ≤ (a 1).key)
    rw [top]
    constructor
    · intro most q low high
      exact all.mpr (fun q mem => most q mem.1 mem.2) q ⟨low, by omega⟩
    · intro below q low high
      refine all.mp (fun q mem => ?_) q ⟨low, high⟩
      by_cases same : q = (i + 2 : Nat)
      · rw [same, top]
      · exact below q mem.1 (by have := mem.2; omega)
  have next : ((i + 2 : Nat) : Int) = (i + 1 : Nat) + 1 := by omega
  refine ⟨d, ?_, whole, ?_⟩
  · change (swap 1 (i + 2 : Nat) >>= fun _ => heapAdjust fuel 1 (i + 1 : Nat) >>= fun _ =>
      sortLoop fuel (i + 1)) a = _
    rw [bind_ended swapped, bind_ended ran]
    exact rest
  · rw [sees, iff, greatest, next, inOrder_succ, and_comm]

theorem sortsFrom (small : (i : Int) ≤ MAXSIZE) (enough : i < fuel) : SortsFrom fuel i := by
  induction i with
  | zero =>
      refine fun a => ⟨a, rfl, .refl _ a, iff_of_true ⟨fun q low high => ?_, trivial⟩
        fun i j low le high => ?_⟩ <;> omega
  | succ i ih =>
      rcases i with _ | i
      · refine fun a => ⟨a, rfl, .refl _ a, iff_of_true ⟨fun q low high => ?_, trivial⟩
          fun i j low le high => ?_⟩
        · rw [show q = 1 by omega]
        · rw [show i = j by omega]
      · exact sortsFrom_step small enough (ih (by omega) (by omega))

theorem build_spec (small : (n : Int) ≤ MAXSIZE) (enough : n < fuel) (a : Int → RedType) :
    ∃ b, buildLoop fuel n (n / 2) a = .ended () b ∧ Rearranged (Set.Icc 1 (n : Int)) a b ∧
      (BuildSees fuel n (n / 2) a ↔ Greatest n b) := by
  rcases Nat.eq_zero_or_pos (n / 2) with none | some
  · rw [none]
    exact ⟨a, rfl, .refl _ a, iff_of_true trivial fun q low high => by rw [show q = 1 by omega]⟩
  · exact buildLoop_spec some (by omega) small (by omega) a

/-- The sort ends with the same records, and they are in order if each call sees a greatest key. -/
theorem heapSort_spec (small : (n : Int) ≤ MAXSIZE) (enough : n < fuel) (a : Int → RedType) :
    ∃ b, heapSort fuel n a = .ended () b ∧ (slice b 1 (n + 1)).Perm (slice a 1 (n + 1)) ∧
      (InOrder n b ↔ Sees fuel n a) := by
  obtain ⟨b, built, movedB, seen⟩ := build_spec small enough a
  obtain ⟨c, sorted, movedC, order⟩ := sortsFrom small enough b
  refine ⟨c, ?_, (movedB.trans movedC).slice fun i mem => ⟨mem.1, by have := mem.2; omega⟩, ?_⟩
  · rw [heapSort, bind_ended built]
    exact sorted
  · rw [← order, Sees, seen, forall_ended_iff built]

theorem sorts_iff (small : (n : Int) ≤ MAXSIZE) (enough : n < fuel) (a : Int → RedType) :
    Sorts fuel n a ↔ Sees fuel n a := by
  obtain ⟨b, ran, perm, order⟩ := heapSort_spec small enough a
  rw [← order]
  constructor
  · rintro ⟨b', ran', -, order'⟩
    cases ran.symm.trans ran'
    exact order'
  · exact fun order => ⟨b, ran, perm, order⟩

/-! ## Short lists -/

/-- The keys from `lo` on, up to `hi`, are not greater than those of their parents. -/
def Fits (lo hi : Int) (a : Int → RedType) : Prop :=
  ∀ q, lo ≤ q → q ≤ hi → (a q).key ≤ (a (q / 2)).key

theorem seen_of_fits (pos : 1 ≤ h) (short : h ≤ 7) (fits : Fits 4 h a) : Seen h a := by
  obtain ⟨t, near, greatest⟩ : ∃ t, Near h 1 t ∧ ∀ q, Near h 1 q → (a q).key ≤ (a t).key := by
    rcases Int.lt_or_eq_of_le pos with more | rfl
    · obtain ⟨t, near, greatest, -⟩ :=
        adjustRound_spec (Int.le_refl 1) (show 2 * 1 ≤ h by omega) (by rw [MAXSIZE]; omega) a
      exact ⟨t, near, greatest⟩
    · refine ⟨1, ⟨.inl rfl, Int.le_refl 1⟩, fun q ⟨which, bound⟩ => ?_⟩
      rw [show q = 1 by omega]
  refine ⟨t, near, fun q low high => ?_⟩
  by_cases top : q ≤ 3
  · exact greatest q ⟨by omega, high⟩
  · exact Int.le_trans (fits q (by omega) high) (greatest (q / 2) ⟨by omega, by omega⟩)

/-- Where the children have no children, a call leaves the greatest key on top. -/
theorem heapAdjust_leaf (pos : 1 ≤ p) (leaf : h < 4 * p) (small : h ≤ MAXSIZE)
    (enough : h < fuel + p) (some : 0 < fuel) (a : Int → RedType) :
    ∃ b, heapAdjust fuel p h a = .ended () b ∧ (∀ q, Near h p q → (b q).key ≤ (b p).key) ∧
      ∀ q, ¬ Near h p q → b q = a q := by
  obtain ⟨fuel, rfl⟩ : ∃ n, fuel = n + 1 := ⟨fuel - 1, by omega⟩
  rw [heapAdjust, adjustLoop]
  by_cases more : 2 * p ≤ h
  case neg =>
    rw [if_neg more]
    refine ⟨a, rfl, ?_, fun _ _ => rfl⟩
    rintro q ⟨rfl | rfl | rfl, bound⟩ <;> omega
  rw [if_pos more]
  obtain ⟨t, near, greatest, ⟨rfl, ran⟩ | ⟨ne, less, ran⟩⟩ := adjustRound_spec pos more small a
  · rw [bind_ended ran]
    exact ⟨a, rfl, greatest, fun _ _ => rfl⟩
  · obtain ⟨left, right, other⟩ := update_exchange ne.symm a
    obtain ⟨fuel, rfl⟩ : ∃ n, fuel = n + 1 := ⟨fuel - 1, by omega⟩
    rw [bind_ended ran, if_pos rfl, adjustLoop, if_neg (by omega)]
    refine ⟨_, rfl, fun q nearQ => ?_, fun q far => ?_⟩
    · rw [left]
      by_cases first : q = p
      · rw [first, left]
      · by_cases second : q = t
        · rw [second, right]
          exact Int.le_of_lt less
        · rw [other q first second]
          exact greatest q nearQ
    · refine other q (fun same => far ?_) fun same => far (same ▸ near)
      rw [same]
      exact ⟨.inl rfl, by omega⟩

/-- A call for the root keeps the places 4 and 5 in order, which are below the left child. -/
theorem heapAdjust_root (pos : 1 ≤ h) (short : h ≤ 7) (enough : h < fuel)
    (fits : Fits 4 (min h 5) a) :
    ∃ b, heapAdjust fuel 1 h a = .ended () b ∧ Fits 4 (min h 5) b := by
  obtain ⟨fuel, rfl⟩ : ∃ n, fuel = n + 1 := ⟨fuel - 1, by omega⟩
  have small : h ≤ MAXSIZE := by
    rw [MAXSIZE]
    omega
  rw [heapAdjust, adjustLoop]
  by_cases more : 2 * 1 ≤ h
  case neg =>
    rw [if_neg more]
    exact ⟨a, rfl, fits⟩
  rw [if_pos more]
  obtain ⟨t, near, -, ⟨rfl, ran⟩ | ⟨-, -, ran⟩⟩ :=
    adjustRound_spec (Int.le_refl 1) more small a
  · rw [bind_ended ran]
    exact ⟨a, rfl, fits⟩
  · obtain ⟨b, rest, greatest, -⟩ : ∃ b, adjustLoop h fuel (2 * 1 * 2) _ = .ended () b ∧ _ ∧ _ :=
      heapAdjust_leaf (p := 2) (by decide) (by omega) small (by omega) (by omega)
        (update (update a 1 (a t)) t (a 1))
    rw [bind_ended ran, if_pos rfl]
    refine ⟨b, rest, fun q low high => ?_⟩
    rw [show q / 2 = 2 by omega]
    exact greatest q ⟨by omega, by omega⟩

theorem buildSees_of_short (short : n ≤ 7) (enough : n < fuel) (pos : 0 < i) (inside : 2 * i ≤ n)
    (a : Int → RedType) (fits : Fits (2 * (i + 1)) n a) :
    BuildSees fuel n i a ∧ ∀ b, buildLoop fuel n i a = .ended () b → Fits 4 (min n 5) b := by
  have small : (n : Int) ≤ MAXSIZE := by
    rw [MAXSIZE]
    omega
  induction i generalizing a with
  | zero => omega
  | succ i ih =>
      rcases Nat.eq_zero_or_pos i with rfl | more
      · obtain ⟨b, ran, fits'⟩ : ∃ b, heapAdjust fuel 1 n a = .ended () b ∧ _ :=
          heapAdjust_root (by omega) (by omega) (by omega)
            fun q low high => fits q (by omega) (by omega)
        have built : buildLoop fuel n (0 + 1) a = .ended () b := (bind_ended ran).trans rfl
        exact ⟨⟨fun _ => seen_of_fits (by omega) (by omega) fits, fun _ _ => trivial⟩,
          (forall_ended_iff built).mpr fits'⟩
      · obtain ⟨b, ran, top, other⟩ :
            ∃ b, heapAdjust fuel (i + 1 : Nat) n a = .ended () b ∧ _ ∧ _ :=
          heapAdjust_leaf (by omega) (by omega) small (by omega) (by omega) a
        have fits' : Fits (2 * (i + 1)) n b := by
          intro q low high
          by_cases here : q / 2 = i + 1
          · rw [here]
            exact top q ⟨by omega, high⟩
          · rw [other q fun near => by have := near.1; omega,
              other (q / 2) fun near => by have := near.1; omega]
            exact fits q (by omega) high
        obtain ⟨sees, done⟩ := ih more (by omega) b fits'
        exact ⟨⟨fun none => absurd none more.ne', (forall_ended_iff ran).mpr sees⟩,
          fun c built => done c ((bind_ended ran).symm.trans built)⟩

theorem sortSees_of_short (short : i ≤ 6) (enough : i < fuel) (a : Int → RedType)
    (fits : Fits 4 (min i 5) a) : SortSees fuel i a := by
  induction i generalizing a with
  | zero => trivial
  | succ i ih =>
      rcases i with _ | i
      · trivial
      obtain ⟨b, isB, swapped⟩ := exists_swapped (i := i) (by rw [MAXSIZE]; omega) a
      have fitsB : Fits 4 (min (i + 1 : Nat) 5) b := by
        intro q low high
        have half : q / 2 = 2 := by omega
        have old := fits q low (by omega)
        rw [half] at old
        rwa [half, isB, update_of_ne (by omega), update_of_ne (by omega), update_of_ne (by omega),
          update_of_ne (by decide)]
      obtain ⟨c, ran, fitsC⟩ : ∃ c, heapAdjust fuel 1 (i + 1 : Nat) b = .ended () c ∧ _ :=
        heapAdjust_root (by omega) (by omega) (by omega) fitsB
      rw [SortSees, forall_ended_iff swapped, forall_ended_iff ran]
      exact ⟨seen_of_fits (by omega) (by omega) fun q low high => fitsB q low (by omega),
        ih (by omega) (by omega) c fitsC⟩

theorem sees_of_short (short : n ≤ 6) (enough : n < fuel) (a : Int → RedType) :
    Sees fuel n a := by
  rcases Nat.eq_zero_or_pos (n / 2) with none | some
  · rw [Sees, none]
    refine ⟨trivial, fun b built => ?_⟩
    cases built
    exact sortSees_of_short short enough a fun q low high => by omega
  · obtain ⟨sees, fits⟩ := buildSees_of_short (by omega) enough some (by omega) a
      fun q low high => by omega
    exact ⟨sees, fun b built => sortSees_of_short short enough b (fits b built)⟩

/-! ## A record that is lost sight of -/

/-- A call for a place with the greatest key changes nothing. -/
theorem heapAdjust_settled (pos : 1 ≤ p) (small : h ≤ MAXSIZE) (some : 0 < fuel)
    (fits : ∀ q, Near h p q → (a q).key ≤ (a p).key) : heapAdjust fuel p h a = .ended () a := by
  obtain ⟨fuel, rfl⟩ : ∃ n, fuel = n + 1 := ⟨fuel - 1, by omega⟩
  rw [heapAdjust, adjustLoop]
  by_cases more : 2 * p ≤ h
  · obtain ⟨t, near, -, ⟨-, ran⟩ | ⟨-, less, -⟩⟩ := adjustRound_spec pos more small a
    · rw [if_pos more, bind_ended ran]
      rfl
    · exact absurd less (Int.not_lt.mpr (fits t near))
  · rw [if_neg more]
    rfl

/-- The second key is below the greatest one, which goes up and leaves a least one in between. -/
def stray (p : Int) : RedType := ⟨if p = 3 then 2 else if p = 6 then 1 else 0, 0⟩

theorem stray_fits (pos : 2 ≤ p) : ∀ q, Near h p q → (stray q).key ≤ (stray p).key := by
  rintro q ⟨which, -⟩
  simp only [stray]
  split_ifs <;> omega

/-- The heap that `stray` is made into. -/
def heaped : Int → RedType := update (update stray 1 (stray 3)) 3 (stray 1)

theorem heaped_fits : ∀ q, Near h 2 q → (heaped q).key ≤ (heaped 2).key := by
  rintro q ⟨rfl | rfl | rfl, -⟩ <;> decide

theorem heapAdjust_stray (large : 7 ≤ n) (small : (n : Int) ≤ MAXSIZE) (enough : 1 < fuel) :
    heapAdjust fuel 1 n stray = .ended () heaped := by
  obtain ⟨fuel, rfl⟩ : ∃ n, fuel = n + 1 := ⟨fuel - 1, by omega⟩
  rw [heapAdjust, adjustLoop, if_pos (by omega)]
  obtain ⟨t, near, greatest, found⟩ := adjustRound_spec (Int.le_refl 1) (by omega) small stray
  have most := greatest 3 ⟨by omega, by omega⟩
  obtain rfl : t = 3 := by
    obtain ⟨rfl | rfl | rfl, -⟩ := near
    · exact absurd most (by decide)
    · exact absurd most (by decide)
    · rfl
  obtain ⟨same, -⟩ | ⟨-, -, ran⟩ := found
  · exact absurd same (by decide)
  · rw [bind_ended ran, if_pos rfl]
    exact heapAdjust_settled (p := 2) (by decide) small (by omega) heaped_fits

theorem buildLoop_stray (large : 7 ≤ n) (small : (n : Int) ≤ MAXSIZE) (enough : 1 < fuel)
    (pos : 0 < i) : buildLoop fuel n i stray = .ended () heaped := by
  induction i with
  | zero => omega
  | succ i ih =>
      rcases Nat.eq_zero_or_pos i with rfl | more
      · exact bind_ended (heapAdjust_stray large small enough)
      · have settled : heapAdjust fuel (i + 1 : Nat) n stray = .ended () stray :=
          heapAdjust_settled (by omega) small (by omega) (stray_fits (by omega))
        rw [buildLoop, bind_ended settled]
        exact ih more

theorem not_sees_stray (large : 7 ≤ n) (small : (n : Int) ≤ MAXSIZE) (enough : 1 < fuel) :
    ¬ Sees fuel n stray := by
  rintro ⟨-, sees⟩
  have sorting := sees heaped (buildLoop_stray large small enough (by omega))
  obtain ⟨i, rfl⟩ : ∃ i, n = i + 2 := ⟨n - 2, by omega⟩
  obtain ⟨⟨t, ⟨near, -⟩, greatest⟩, -⟩ :=
    sorting _ (swap_eq (by decide) (by decide) (by omega) small heaped)
  have lost := greatest 6 (by decide) (by omega)
  have far : heaped (i + 2 : Nat) = stray (i + 2 : Nat) := by
    rw [heaped, update_of_ne (by omega), update_of_ne (by omega)]
  have last : (stray (i + 2 : Nat)).key = 0 := by
    rw [stray, if_neg (by omega), if_neg (by omega)]
  rw [update_of_ne (show (6 : Int) ≠ (i + 2 : Nat) by omega),
    update_of_ne (show (6 : Int) ≠ 1 by decide)] at lost
  obtain rfl | rfl | rfl := near
  · rw [update_of_ne (by omega), update_self, far, last] at lost
    exact absurd lost (by decide)
  · rw [update_of_ne (by omega), update_of_ne (by decide)] at lost
    exact absurd lost (by decide)
  · rw [update_of_ne (by omega), update_of_ne (by decide)] at lost
    exact absurd lost (by decide)

/-- A list is sorted if and only if each call for the root sees a greatest key. All lists of a
length are if and only if it is at most 6. -/
theorem heapSort_sorts_iff (small : (n : Int) ≤ MAXSIZE) (enough : n < fuel) :
    (∀ a, Sorts fuel n a ↔ Sees fuel n a) ∧ ((∀ a, Sorts fuel n a) ↔ n ≤ 6) := by
  refine ⟨sorts_iff small enough, fun sorts => ?_, fun short a => ?_⟩
  · by_contra long
    have sees := (sorts_iff small enough stray).mp (sorts stray)
    exact not_sees_stray (by omega) small (by omega) sees
  · exact (sorts_iff small enough a).mpr (sees_of_short short enough a)

theorem heapSort_sorts_iff_eight :
    (∀ a, Sorts 9 8 a ↔ Sees 9 8 a) ∧ ((∀ a, Sorts 9 8 a) ↔ 8 ≤ 6) :=
  heapSort_sorts_iff (by decide) (by decide)

/-- Seven records, of which the second greatest ends up before a least one. -/
theorem heapSort_stray : ∃ b, heapSort 8 7 stray = .ended () b ∧ ¬ InOrder 7 b := by
  have small : ((7 : Nat) : Int) ≤ MAXSIZE := by decide
  have enough : 7 < 8 := by decide
  obtain ⟨b, ran, -, order⟩ := heapSort_spec small enough stray
  exact ⟨b, ran, fun sorted => not_sees_stray (by decide) small (by decide) (order.mp sorted)⟩

end Shang.Gyf
