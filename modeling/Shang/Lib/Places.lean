import Shang.Lib.Act
import Mathlib.Data.Int.Range
import Mathlib.Data.List.Nodup
import Mathlib.Logic.Equiv.Basic
import Mathlib.Order.Basic

/-!
# Arrays in memory

A memory is a function on places. An array says where its elements are and which
indices may be used; a program that uses another one stops. A part of an array is
read as a list, `slice`. `Rearranged` says that values have changed places, all of
them in a given set.
-/

namespace Shang.Lib

open Function

variable {ι α : Type}

/-! ## Access -/

/-- The places of an array, with the indices that may be used: from `lo` on, before `hi`. -/
structure Arr (ι : Type) where
  place : Int → ι
  lo : Int
  hi : Int

/-- An array that is the memory itself. -/
def Arr.plain (lo hi : Int) : Arr Int := ⟨id, lo, hi⟩

namespace Act

/-- Read `arr[i]`. -/
def load (arr : Arr ι) (i : Int) : Act (ι → α) α := fun a =>
  if arr.lo ≤ i ∧ i < arr.hi then .ended (a (arr.place i)) a else .stopped a

/-- Write `x` to `arr[i]`. -/
def store [DecidableEq ι] (arr : Arr ι) (i : Int) (x : α) : Act (ι → α) Unit := fun a =>
  if arr.lo ≤ i ∧ i < arr.hi then .ended () (update a (arr.place i) x) else .stopped a

variable {arr : Arr ι} {lo hi i : Int}

theorem load_eq (low : arr.lo ≤ i) (high : i < arr.hi) (a : ι → α) :
    load arr i a = .ended (a (arr.place i)) a := if_pos ⟨low, high⟩

theorem load_plain (low : lo ≤ i) (high : i < hi) (a : Int → α) :
    load (.plain lo hi) i a = .ended (a i) a := if_pos ⟨low, high⟩

theorem store_eq [DecidableEq ι] (low : arr.lo ≤ i) (high : i < arr.hi) (x : α) (a : ι → α) :
    store arr i x a = .ended () (update a (arr.place i) x) := if_pos ⟨low, high⟩

theorem store_plain (low : lo ≤ i) (high : i < hi) (x : α) (a : Int → α) :
    store (.plain lo hi) i x a = .ended () (update a i x) := if_pos ⟨low, high⟩

theorem load_ended {a b : ι → α} {x : α} (ran : load arr i a = .ended x b) :
    arr.lo ≤ i ∧ i < arr.hi := by
  rw [load] at ran
  split at ran
  · assumption
  · cases ran

theorem store_ended [DecidableEq ι] {a b : ι → α} {x : α} (ran : store arr i x a = .ended () b) :
    arr.lo ≤ i ∧ i < arr.hi := by
  rw [store] at ran
  split at ran
  · assumption
  · cases ran

end Act

/-- The values of an array after two of them have changed places. -/
theorem update_exchange [DecidableEq ι] {i j : ι} (ne : i ≠ j) (a : ι → α) :
    update (update a i (a j)) j (a i) i = a j ∧ update (update a i (a j)) j (a i) j = a i ∧
      ∀ k, k ≠ i → k ≠ j → update (update a i (a j)) j (a i) k = a k :=
  ⟨by rw [update_of_ne ne, update_self], update_self _ _ _,
    fun k left right => by rw [update_of_ne right, update_of_ne left]⟩

/-! ## Parts of an array -/

/-- The values from `lo` on, before `hi`. -/
def slice (a : Int → α) (lo hi : Int) : List α := (Int.range lo hi).map a

variable {a b c : Int → α} {lo hi i k : Int}

theorem range_eq_nil (none : hi ≤ lo) : Int.range lo hi = [] := by
  rw [Int.range, Int.toNat_of_nonpos (by omega)]
  rfl

theorem range_append (mid : Int) (low : lo ≤ mid) (high : mid ≤ hi) :
    Int.range lo hi = Int.range lo mid ++ Int.range mid hi := by
  have split : (hi - lo).toNat = (mid - lo).toNat + (hi - mid).toNat := by omega
  rw [Int.range, Int.range, Int.range, split, List.range_add, List.map_append, List.map_map]
  refine congrArg _ (List.map_congr_left fun n _ => ?_)
  simp only [Function.comp_apply]
  omega

theorem range_succ (some : lo < hi) : Int.range lo hi = lo :: Int.range (lo + 1) hi := by
  have one : Int.range lo (lo + 1) = [lo] := by
    simp [Int.range]
  rw [range_append (lo + 1) (by omega) (by omega), one]
  rfl

theorem range_pairwise (lo hi : Int) : (Int.range lo hi).Pairwise (· < ·) :=
  List.pairwise_map.mpr (List.pairwise_lt_range.imp fun less => by omega)

theorem slice_eq_nil (none : hi ≤ lo) : slice a lo hi = [] := by
  rw [slice, range_eq_nil none]
  rfl

theorem slice_append (mid : Int) (low : lo ≤ mid) (high : mid ≤ hi) :
    slice a lo hi = slice a lo mid ++ slice a mid hi := by
  rw [slice, range_append mid low high, List.map_append]
  rfl

theorem slice_succ (some : lo < hi) : slice a lo hi = a lo :: slice a (lo + 1) hi := by
  rw [slice, range_succ some]
  rfl

theorem length_slice (a : Int → α) (lo hi : Int) : (slice a lo hi).length = (hi - lo).toNat := by
  rw [slice, Int.range, List.length_map, List.length_map, List.length_range]

theorem slice_congr (same : ∀ i, lo ≤ i → i < hi → a i = b i) : slice a lo hi = slice b lo hi :=
  List.map_congr_left fun i mem => by
    obtain ⟨low, high⟩ := Int.mem_range_iff.mp mem
    exact same i low high

theorem eq_of_slice_eq (same : slice a lo hi = slice b lo hi) (low : lo ≤ i) (high : i < hi) :
    a i = b i :=
  List.map_inj_left.mp same i (Int.mem_range_iff.mpr ⟨low, high⟩)

theorem slice_add (a : Int → α) (p lo hi : Int) :
    slice (fun i => a (p + i)) lo hi = slice a (p + lo) (p + hi) := by
  have same : p + hi - (p + lo) = hi - lo := by omega
  rw [slice, slice, Int.range, Int.range, same, List.map_map, List.map_map]
  refine List.map_congr_left fun n _ => ?_
  simp only [Function.comp_apply, Int.add_assoc]

theorem mem_slice {x : α} : x ∈ slice a lo hi ↔ ∃ i, (lo ≤ i ∧ i < hi) ∧ a i = x := by
  simp only [slice, List.mem_map, Int.mem_range_iff]

/-- A part is in order if each value is, with all that are behind it. -/
theorem pairwise_slice_iff [Preorder α] :
    (slice a lo hi).Pairwise (· ≤ ·) ↔ ∀ i j, lo ≤ i → i ≤ j → j < hi → a i ≤ a j := by
  constructor
  · intro sorted i j low le high
    rcases Int.le_iff_eq_or_lt.mp le with rfl | less
    · exact le_refl _
    · rw [slice_append j (by omega) (by omega)] at sorted
      exact (List.pairwise_append.mp sorted).2.2 _ (mem_slice.mpr ⟨i, ⟨low, less⟩, rfl⟩) _
        (mem_slice.mpr ⟨j, ⟨by omega, high⟩, rfl⟩)
  · intro ordered
    refine List.pairwise_map.mpr ((range_pairwise lo hi).imp_of_mem fun memI memJ less => ?_)
    exact ordered _ _ (Int.mem_range_iff.mp memI).1 (by omega) (Int.mem_range_iff.mp memJ).2

/-! ## Rearrangements -/

/-- The values in `s` have changed places among each other. -/
def Rearranged (s : Set ι) (a b : ι → α) : Prop :=
  ∃ σ : Equiv.Perm ι, (∀ i, i ∉ s → σ i = i) ∧ b = a ∘ σ

namespace Rearranged

variable {s t : Set ι} {a b c : ι → α} {i j : ι}

theorem refl (s : Set ι) (a : ι → α) : Rearranged s a a := ⟨.refl ι, fun _ _ => rfl, rfl⟩

theorem trans (first : Rearranged s a b) (second : Rearranged s b c) : Rearranged s a c := by
  obtain ⟨σ, fixed, rfl⟩ := first
  obtain ⟨τ, fixed', rfl⟩ := second
  refine ⟨τ.trans σ, fun i off => ?_, rfl⟩
  rw [Equiv.trans_apply, fixed' i off, fixed i off]

theorem symm (rearranged : Rearranged s a b) : Rearranged s b a := by
  obtain ⟨σ, fixed, rfl⟩ := rearranged
  refine ⟨σ.symm, fun i off => (σ.symm_apply_eq).mpr (fixed i off).symm, ?_⟩
  rw [Function.comp_assoc, σ.self_comp_symm, Function.comp_id]

theorem mono (rearranged : Rearranged s a b) (sub : s ⊆ t) : Rearranged t a b := by
  obtain ⟨σ, fixed, rfl⟩ := rearranged
  exact ⟨σ, fun i off => fixed i fun mem => off (sub mem), rfl⟩

theorem exchange [DecidableEq ι] (memI : i ∈ s) (memJ : j ∈ s) (a : ι → α) :
    Rearranged s a (update (update a i (a j)) j (a i)) := by
  refine ⟨Equiv.swap i j, fun k off => ?_, ?_⟩
  · exact Equiv.swap_apply_of_ne_of_ne (fun same => off (same ▸ memI)) fun same => off (same ▸ memJ)
  · funext k
    rw [Function.comp_apply, Equiv.swap_apply_def]
    by_cases right : k = j
    · by_cases left : j = i <;> simp [right, left]
    · by_cases left : k = i
      · subst left
        simp [update_of_ne right]
      · simp [left, right]

theorem of_notMem (rearranged : Rearranged s a b) (off : i ∉ s) : b i = a i := by
  obtain ⟨σ, fixed, rfl⟩ := rearranged
  rw [Function.comp_apply, fixed i off]

theorem maps (σ : Equiv.Perm ι) (fixed : ∀ i, i ∉ s → σ i = i) (mem : i ∈ s) : σ i ∈ s := by
  by_contra off
  exact off (by rwa [σ.injective (fixed _ off)])

/-- What holds of all values in `s` still holds of them. -/
theorem forall_mem (rearranged : Rearranged s a b) {p : α → Prop} (all : ∀ i ∈ s, p (a i)) :
    ∀ i ∈ s, p (b i) := by
  obtain ⟨σ, fixed, rfl⟩ := rearranged
  exact fun i mem => all _ (maps σ fixed mem)

theorem forall_mem_iff (rearranged : Rearranged s a b) {p : α → Prop} :
    (∀ i ∈ s, p (b i)) ↔ ∀ i ∈ s, p (a i) :=
  ⟨rearranged.symm.forall_mem, rearranged.forall_mem⟩

/-- A list of places that covers `s` still has the same values. -/
theorem perm (rearranged : Rearranged s a b) {l : List ι} (nodup : l.Nodup)
    (cover : ∀ i ∈ s, i ∈ l) : (l.map b).Perm (l.map a) := by
  classical
  obtain ⟨σ, fixed, rfl⟩ := rearranged
  have stays : ∀ i, σ i ∈ l ↔ i ∈ l := by
    intro i
    by_cases mem : i ∈ s
    · exact ⟨fun _ => cover i mem, fun _ => cover _ (maps σ fixed mem)⟩
    · rw [fixed i mem]
  have same : (l.map σ).Perm l := by
    refine (List.perm_ext_iff_of_nodup (nodup.map σ.injective) nodup).mpr fun i => ?_
    have back := stays (σ.symm i)
    rw [σ.apply_symm_apply] at back
    rw [back, List.mem_map]
    exact ⟨fun ⟨k, mem, here⟩ => by rwa [← here, σ.symm_apply_apply],
      fun mem => ⟨_, mem, σ.apply_symm_apply i⟩⟩
  rw [← List.map_map]
  exact same.map a

end Rearranged

theorem Rearranged.slice {s : Set Int} (rearranged : Rearranged s a b)
    (inside : ∀ i ∈ s, lo ≤ i ∧ i < hi) : (slice b lo hi).Perm (slice a lo hi) :=
  rearranged.perm ((range_pairwise lo hi).imp fun less => Int.ne_of_lt less)
    fun i mem => Int.mem_range_iff.mpr (inside i mem)

end Shang.Lib
