import Shang.Lib.DList
import Shang.Lib.Update
import Mathlib.Data.List.Nodup

/-!
# Several lists in one memory

Doubly linked lists that share the arrays of their links, each with a pointer to its first
node. No node is in two of them, so that a node may be put to the front of one list, or taken
out of one, and the others stay as they are.
-/

namespace Shang.Lib

open Function

variable {P ι : Type*} [DecidableEq P] [DecidableEq ι]

/-- The lists `q`, by their links and first nodes. -/
structure Queues (next prev : P → P) (null : P) (first : ι → P) (q : ι → List P) : Prop where
  seg : ∀ i, Seg next prev null (q i) null
  nodup : ∀ i, (q i).Nodup
  null_off : ∀ i, null ∉ q i
  first : ∀ i, first i = (q i).headD null
  apart : ∀ {i j p}, p ∈ q i → p ∈ q j → i = j

variable {next prev : P → P} {null : P} {first : ι → P} {q : ι → List P} {i j : ι} {p : P}

namespace Queues

omit [DecidableEq P] [DecidableEq ι] in
theorem first_eq_null (h : Queues next prev null first q) : first i = null ↔ q i = [] := by
  rw [h.first]
  cases list : q i with
  | nil => simp
  | cons a l =>
      have off := h.null_off i
      rw [list] at off
      simpa using fun same : a = null => off (by simp [same])

omit [DecidableEq P] [DecidableEq ι] in
theorem ne_null (h : Queues next prev null first q) (mem : p ∈ q i) : p ≠ null :=
  ne_of_mem_of_not_mem mem (h.null_off i)

omit [DecidableEq P] in
/-- What the lists are when one of them is another one, of the same nodes and `extra`. -/
theorem apart_update (h : Queues next prev null first q) {l : List P} (extra : P → Prop)
    (sub : ∀ p ∈ l, p ∈ q i ∨ extra p) (off : ∀ j p, extra p → p ∉ q j) {j k : ι}
    (left : p ∈ update q i l j) (right : p ∈ update q i l k) : j = k := by
  rw [update_apply] at left right
  split at left <;> split at right
  · next here there => rw [here, there]
  · next here there =>
    rcases sub p left with mem | new
    · exact here.trans (h.apart mem right)
    · exact absurd right (off k p new)
  · next here there =>
    rcases sub p right with mem | new
    · exact (h.apart left mem).trans there.symm
    · exact absurd left (off j p new)
  · exact h.apart left right

/-- A node goes to the front of a list. -/
theorem push (h : Queues next prev null first q) (i : ι) (off : ∀ j, p ∉ q j) (some : p ≠ null) :
    Queues (update next p (first i))
      (if first i = null then update prev p null else update (update prev p null) (first i) p)
      null (update first i p) (update q i (p :: q i)) where
  seg j := by
    have clear : ∀ j, Seg (update next p (first i)) (update prev p null) null (q j) null := fun j =>
      ((h.seg j).setNext_off (off j)).setPrev_off (off j)
    have others : ∀ j ≠ i, Seg (update next p (first i))
        (if first i = null then update prev p null else update (update prev p null) (first i) p)
        null (q j) null := by
      intro j other
      split
      · exact clear j
      · next present =>
        refine (clear j).setPrev_off fun mem => other (h.apart mem (j := i) ?_)
        rw [h.first] at present ⊢
        cases list : q i with
        | nil => simp [list] at present
        | cons a l => simp
    rcases eq_or_ne j i with rfl | other
    · rw [update_self]
      have unlinked := (h.seg j).setPrev_off (off j) (x := null)
      rw [h.first]
      cases list : q j with
      | nil => simp [seg_cons]
      | cons a l =>
          rw [list] at unlinked
          have fresh := list ▸ off j
          have some_ : a ≠ null := h.ne_null (by rw [list]; exact List.mem_cons_self)
          rw [List.headD_cons, if_neg some_]
          exact unlinked.insert_first (list ▸ h.nodup j) fresh (update_self _ _ _)
    · rw [update_of_ne other]
      exact others j other
  nodup j := by
    rw [update_apply]
    split
    · exact List.nodup_cons.mpr ⟨off i, h.nodup i⟩
    · exact h.nodup j
  null_off j := by
    rw [update_apply]
    split
    · exact List.not_mem_cons_of_ne_of_not_mem some.symm (h.null_off i)
    · exact h.null_off j
  first j := by
    rw [update_apply, update_apply]
    split
    · rfl
    · exact h.first j
  apart := h.apart_update (· = p) (fun a mem => (List.mem_cons.mp mem).symm)
    fun j a same => same ▸ off j

omit [DecidableEq ι] in
/-- The links of a node that is in no list do not matter. -/
theorem unlinked (h : Queues next prev null first q) (off : ∀ i, p ∉ q i) (a b : P) :
    Queues (update next p a) (update prev p b) null first q where
  seg i := ((h.seg i).setNext_off (off i)).setPrev_off (off i)
  nodup := h.nodup
  null_off := h.null_off
  first := h.first
  apart := h.apart

omit [DecidableEq ι] in
/-- A node between its neighbours. -/
theorem around (h : Queues next prev null first q) (mem : p ∈ q i) :
    ∃ l₁ l₂, q i = l₁ ++ p :: l₂ ∧ (q i).erase p = l₁ ++ l₂ ∧
      prev p = l₁.getLastD null ∧ next p = l₂.headD null ∧
      (prev p = null ↔ l₁ = []) ∧ (next p = null ↔ l₂ = []) := by
  obtain ⟨l₁, l₂, list⟩ := List.append_of_mem mem
  have seg := list ▸ h.seg i
  have nodup := list ▸ h.nodup i
  have off : null ∉ l₁ ++ p :: l₂ := list ▸ h.null_off i
  have fresh : p ∉ l₁ := fun mem =>
    (List.nodup_append'.mp nodup).2.2 mem List.mem_cons_self
  have back := seg.prev_eq
  have forth : next p = l₂.headD null := (seg_append.mp seg).2.2.1
  refine ⟨l₁, l₂, list, ?_, back, forth, ?_, ?_⟩
  · rw [list, List.erase_append_right _ fresh, List.erase_cons_head]
  · rw [back]
    rcases List.eq_nil_or_concat l₁ with rfl | ⟨l, a, rfl⟩
    · simp
    · have some : a ≠ null := by
        rintro rfl
        exact off (by simp)
      simp [some]
  · rw [forth]
    cases l₂ with
    | nil => simp
    | cons a l =>
        have some : a ≠ null := by
          rintro rfl
          exact off (by simp)
        simp [some]

/-- A node is taken out of its list. -/
theorem remove (h : Queues next prev null first q) (mem : p ∈ q i) :
    Queues (if prev p = null then next else update next (prev p) (next p))
      (if next p = null then prev else update prev (next p) (prev p))
      null (if first i = p then update first i (next p) else first)
      (update q i ((q i).erase p)) where
  seg j := by
    obtain ⟨l₁, l₂, list, rest, back, forth, front, last⟩ := h.around mem
    rcases eq_or_ne j i with rfl | other
    · rw [update_self, rest]
      refine (list ▸ h.seg j).unlink (list ▸ h.nodup j) (fun none => if_pos (front.mpr none))
        (fun some => ?_) (fun none => if_pos (last.mpr none)) fun some => ?_
      · rw [if_neg (mt front.mp some), back, forth]
      · rw [if_neg (mt last.mp some), back, forth]
    · rw [update_of_ne other]
      have ofI {a : P} (mem : a ∈ l₁ ++ p :: l₂) : a ∉ q j := fun there =>
        other (h.apart there (list ▸ mem))
      have clear : Seg (if prev p = null then next else update next (prev p) (next p)) prev null
          (q j) null := by
        split
        · exact h.seg j
        · next some =>
          refine (h.seg j).setNext_off (ofI ?_)
          rcases List.eq_nil_or_concat l₁ with none | ⟨l, a, rfl⟩
          · exact absurd (front.mpr none) some
          · simp [back]
      by_cases some : next p = null
      · rw [if_pos some]
        exact clear
      · rw [if_neg some]
        refine clear.setPrev_off (ofI ?_)
        cases l₂ with
        | nil => exact absurd (last.mpr rfl) some
        | cons a l => simp [forth]
  nodup j := by
    rw [update_apply]
    split
    · exact (h.nodup i).erase p
    · exact h.nodup j
  null_off j := by
    rw [update_apply]
    split
    · exact fun there => h.null_off i (List.mem_of_mem_erase there)
    · exact h.null_off j
  first j := by
    obtain ⟨l₁, l₂, list, rest, back, forth, front, last⟩ := h.around mem
    have head := h.first i
    rw [list] at head
    rcases eq_or_ne j i with rfl | other
    · rw [update_self, rest]
      cases l₁ with
      | nil =>
          have head : first j = p := head
          rw [if_pos head, update_self, forth, List.nil_append]
      | cons a l =>
          have ne : a ≠ p := by
            rintro rfl
            have nodup := list ▸ h.nodup j
            simp at nodup
          rw [if_neg (by rw [head]; exact ne), head]
          rfl
    · rw [update_of_ne other]
      split
      · rw [update_of_ne other]
        exact h.first j
      · exact h.first j
  apart := h.apart_update (fun _ => False) (fun a mem => .inl (List.mem_of_mem_erase mem))
    fun _ _ none => none.elim

omit [DecidableEq ι] in
/-- The last node of a list that a node is taken out of. -/
theorem last_erase (h : Queues next prev null first q) (mem : p ∈ q i) :
    ((q i).erase p).getLastD null =
      if (q i).getLastD null = p then prev p else (q i).getLastD null := by
  obtain ⟨l₁, l₂, list, rest, back, -, -, -⟩ := h.around mem
  rw [rest, list]
  cases l₂ with
  | nil => simp [back]
  | cons a l =>
      have ne : (a :: l).getLastD p ≠ p := by
        have nodup := list ▸ h.nodup i
        have apart := (List.nodup_cons.mp (List.nodup_append'.mp nodup).2.1).1
        obtain ⟨l', same⟩ := exists_getLastD a l
        rw [List.getLastD_cons]
        refine ne_of_mem_of_not_mem ?_ apart
        rw [same]
        simp
      rw [getLastD_append_cons, getLastD_append_cons, if_neg ne, List.getLastD_cons]

end Queues

end Shang.Lib
