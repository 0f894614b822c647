import Mathlib.Data.List.Basic
import Mathlib.Data.List.Nodup
import Mathlib.Logic.Function.Basic

/-!
# Chained tables

Items with keys are kept in chains. `Homed` relates the chains to the list of all
items that are stored: an item is in the chain that is the home of its key and in
no other, and no key is there twice. A search of the home of a key is then a search
of all that is stored (`Homed.find`), whatever the chains are. The homes may change
while items are stored: `Homed.rename` takes every chain to another place, and
`Homed.scatter` takes one chain apart and puts its items in front of others.

A table is an array of chains with a size, so that an access outside is seen.
-/

namespace Shang.Lib

open Function

variable {κ ι α : Type*} {key : α → κ} {k : κ} {a b : α} {c d : List α}

/-! ## One chain -/

/-- No key is there twice. -/
def Distinct (key : α → κ) (c : List α) : Prop := c.Pairwise fun a b => key a ≠ key b

theorem Distinct.eq (distinct : Distinct key c) (left : a ∈ c) (right : b ∈ c)
    (same : key a = key b) : a = b :=
  List.inj_on_of_nodup_map (List.pairwise_map.mpr distinct) left right same

section Search

variable [DecidableEq κ]

/-- The first item with the key `k`. -/
def findKey (key : α → κ) (k : κ) (c : List α) : Option α := c.find? fun a => key a = k

/-- The chain without the first item with the key `k`. -/
def eraseKey (key : α → κ) (k : κ) (c : List α) : List α := c.eraseP fun a => key a = k

theorem findKey_eq_some (distinct : Distinct key c) :
    findKey key k c = some a ↔ a ∈ c ∧ key a = k := by
  constructor
  · intro found
    exact ⟨List.mem_of_find?_eq_some found, by simpa using List.find?_some found⟩
  · intro ⟨mem, own⟩
    cases found : findKey key k c with
    | none => simpa [own] using List.find?_eq_none.mp found a mem
    | some b =>
        have there := List.mem_of_find?_eq_some found
        have same : key b = k := by simpa using List.find?_some found
        rw [distinct.eq there mem (same.trans own.symm)]

theorem findKey_eq_none : findKey key k c = none ↔ ∀ a ∈ c, key a ≠ k := by
  simp [findKey]

/-- A search finds the same in two chains that have the same items with the key. -/
theorem findKey_congr (left : Distinct key c) (right : Distinct key d)
    (same : ∀ a, key a = k → (a ∈ c ↔ a ∈ d)) : findKey key k c = findKey key k d := by
  refine Option.ext fun a => ?_
  rw [findKey_eq_some left, findKey_eq_some right]
  exact and_congr_left fun own => same a own

theorem mem_eraseKey (distinct : Distinct key c) : a ∈ eraseKey key k c ↔ a ∈ c ∧ key a ≠ k := by
  induction c with
  | nil => simp [eraseKey]
  | cons b c ih =>
      obtain ⟨apart, rest⟩ := List.pairwise_cons.mp distinct
      rw [eraseKey]
      by_cases here : key b = k
      · rw [List.eraseP_cons_of_pos (by simpa using here), List.mem_cons]
        constructor
        · exact fun mem => ⟨.inr mem, fun same => apart a mem (here.trans same.symm)⟩
        · rintro ⟨rfl | mem, other⟩
          · exact absurd here other
          · exact mem
      · rw [List.eraseP_cons_of_neg (by simpa using here), List.mem_cons, List.mem_cons,
          ← eraseKey, ih rest]
        constructor
        · rintro (rfl | ⟨mem, other⟩)
          · exact ⟨.inl rfl, here⟩
          · exact ⟨.inr mem, other⟩
        · rintro ⟨rfl | mem, other⟩
          · exact .inl rfl
          · exact .inr ⟨mem, other⟩

theorem Distinct.eraseKey (distinct : Distinct key c) : Distinct key (eraseKey key k c) :=
  distinct.sublist List.eraseP_sublist

end Search

/-! ## Many chains -/

/-- The chains hold what is stored, each item at the home of its key. -/
structure Homed (key : α → κ) (home : κ → ι) (chains : ι → List α) (stored : List α) : Prop where
  own : ∀ i, ∀ a ∈ chains i, home (key a) = i
  once : ∀ i, Distinct key (chains i)
  mem : ∀ a, a ∈ stored ↔ a ∈ chains (home (key a))
  distinct : Distinct key stored

variable {home home' : κ → ι} {chains chains' : ι → List α} {stored : List α}

/-- The home of a key answers for all that is stored. -/
theorem Homed.find [DecidableEq κ] (h : Homed key home chains stored) :
    findKey key k (chains (home k)) = findKey key k stored := by
  refine findKey_congr (h.once _) h.distinct fun a own => ?_
  rw [h.mem, own]

/-- Every chain at another place. -/
theorem Homed.rename {ι' : Type*} {home' : κ → ι'} {chains' : ι' → List α}
    (h : Homed key home chains stored) (f : ι → ι') (to_ : ∀ k, home' k = f (home k))
    (kept : ∀ i, chains' (f i) = chains i)
    (only : ∀ j, ∀ a ∈ chains' j, ∃ i, f i = j) :
    Homed key home' chains' stored where
  own j a mem := by
    obtain ⟨i, rfl⟩ := only j a mem
    rw [to_, h.own i a (kept i ▸ mem)]
  once j := by
    cases eq : chains' j with
    | nil => exact List.Pairwise.nil
    | cons a c =>
        obtain ⟨i, rfl⟩ := only j a (eq ▸ List.mem_cons_self)
        rw [← eq, kept]
        exact h.once i
  mem a := by rw [h.mem, to_, kept]
  distinct := h.distinct

section Updates

variable [DecidableEq ι]

/-- An item with a new key, in front of its chain. -/
theorem Homed.push (h : Homed key home chains stored) (fresh : ∀ b ∈ stored, key b ≠ key a) :
    Homed key home (update chains (home (key a)) (a :: chains (home (key a)))) (a :: stored) where
  own i b mem := by
    by_cases here : i = home (key a)
    · rw [here, update_self] at mem
      rcases List.mem_cons.mp mem with rfl | mem
      · exact here.symm
      · exact (h.own _ b mem).trans here.symm
    · rw [update_of_ne here] at mem
      exact h.own i b mem
  once i := by
    by_cases here : i = home (key a)
    · rw [here, update_self]
      refine List.pairwise_cons.mpr ⟨fun b mem same => ?_, h.once _⟩
      refine fresh b ((h.mem b).mpr ?_) same.symm
      rwa [← same]
    · rw [update_of_ne here]
      exact h.once i
  mem b := by
    by_cases here : home (key b) = home (key a)
    · rw [here, update_self, List.mem_cons, List.mem_cons, h.mem, here]
    · rw [update_of_ne here, List.mem_cons, h.mem]
      have other : b ≠ a := fun same => here (by rw [same])
      simp [other]
  distinct := List.pairwise_cons.mpr ⟨fun b mem same => fresh b mem same.symm, h.distinct⟩

/-- A key is taken out of its chain. -/
theorem Homed.remove [DecidableEq κ] (h : Homed key home chains stored) (k : κ) :
    Homed key home (update chains (home k) (eraseKey key k (chains (home k))))
      (eraseKey key k stored) where
  own i b mem := by
    by_cases here : i = home k
    · rw [here, update_self, mem_eraseKey (h.once _)] at mem
      rw [here]
      exact h.own _ b mem.1
    · rw [update_of_ne here] at mem
      exact h.own i b mem
  once i := by
    by_cases here : i = home k
    · rw [here, update_self]
      exact (h.once _).eraseKey
    · rw [update_of_ne here]
      exact h.once i
  mem b := by
    rw [mem_eraseKey h.distinct, h.mem]
    by_cases here : home (key b) = home k
    · rw [here, update_self, mem_eraseKey (h.once _)]
    · rw [update_of_ne here]
      have other : key b ≠ k := fun same => here (by rw [same])
      simp [other]
  distinct := h.distinct.eraseKey

/-- The items of a chain go one after the other to the front of the chains at `target`. -/
def scatter (target : α → ι) (c : List α) (chains : ι → List α) : ι → List α :=
  c.foldl (fun chains a => update chains (target a) (a :: chains (target a))) chains

@[simp] theorem scatter_nil (target : α → ι) (chains : ι → List α) :
    scatter target [] chains = chains := rfl

theorem scatter_cons (target : α → ι) (c : List α) (chains : ι → List α) :
    scatter target (a :: c) chains =
      scatter target c (update chains (target a) (a :: chains (target a))) := rfl

theorem mem_scatter (target : α → ι) (c : List α) (chains : ι → List α) (i : ι) :
    a ∈ scatter target c chains i ↔ a ∈ chains i ∨ a ∈ c ∧ target a = i := by
  induction c generalizing chains with
  | nil => simp
  | cons b c ih =>
      rw [scatter_cons, ih, List.mem_cons]
      by_cases here : i = target b
      · rw [here, update_self, List.mem_cons]
        constructor
        · rintro ((rfl | mem) | ⟨mem, there⟩)
          · exact .inr ⟨.inl rfl, rfl⟩
          · exact .inl mem
          · exact .inr ⟨.inr mem, there⟩
        · rintro (mem | ⟨rfl | mem, there⟩)
          · exact .inl (.inr mem)
          · exact .inl (.inl rfl)
          · exact .inr ⟨mem, there⟩
      · rw [update_of_ne here]
        constructor
        · rintro (mem | ⟨mem, there⟩)
          · exact .inl mem
          · exact .inr ⟨.inr mem, there⟩
        · rintro (mem | ⟨rfl | mem, there⟩)
          · exact .inl mem
          · exact absurd there.symm here
          · exact .inr ⟨mem, there⟩

theorem scatter_congr {f g : α → ι} (same : ∀ a ∈ c, f a = g a) (chains : ι → List α) :
    scatter f c chains = scatter g c chains :=
  List.foldl_ext _ _ _ fun chains a mem => by rw [same a mem]

/-- A chain that is no target. -/
theorem scatter_off {f : α → ι} {i : ι} (off : ∀ a ∈ c, f a ≠ i) (chains : ι → List α) :
    scatter f c chains i = chains i := by
  induction c generalizing chains with
  | nil => rfl
  | cons a c ih =>
      rw [scatter_cons, ih fun b mem => off b (List.mem_cons_of_mem a mem),
        update_of_ne (off a List.mem_cons_self).symm]

/-- The targets are among chains that stand elsewhere under another name. -/
theorem scatter_comp {ι' : Type*} [DecidableEq ι'] {e : ι → ι'} (inj : Injective e) (f : α → ι)
    (chains : ι' → List α) (i : ι) :
    scatter (fun a => e (f a)) c chains (e i) = scatter f c (fun i => chains (e i)) i := by
  induction c generalizing chains with
  | nil => rfl
  | cons a c ih =>
      rw [scatter_cons, ih, scatter_cons]
      refine congrArg (fun chains => scatter f c chains i) (funext fun j => ?_)
      by_cases here : j = f a
      · rw [here, update_self, update_self]
      · rw [update_of_ne here, update_of_ne fun same => here (inj same)]

theorem distinct_scatter (target : α → ι) {c : List α} {chains : ι → List α}
    (once : ∀ i, Distinct key (chains i)) (distinct : Distinct key c)
    (apart : ∀ a ∈ c, ∀ i, ∀ b ∈ chains i, key b ≠ key a) (i : ι) :
    Distinct key (scatter target c chains i) := by
  induction c generalizing chains with
  | nil => exact once i
  | cons a c ih =>
      obtain ⟨others, rest⟩ := List.pairwise_cons.mp distinct
      rw [scatter_cons]
      refine ih (fun j => ?_) rest fun b mem j d there => ?_
      · by_cases here : j = target a
        · rw [here, update_self]
          exact List.pairwise_cons.mpr ⟨fun b mem same =>
            apart a List.mem_cons_self _ b mem same.symm, once _⟩
        · rw [update_of_ne here]
          exact once j
      · by_cases here : j = target a
        · rw [here, update_self] at there
          rcases List.mem_cons.mp there with rfl | there
          · exact others b mem
          · exact apart b (List.mem_cons_of_mem a mem) _ d there
        · rw [update_of_ne here] at there
          exact apart b (List.mem_cons_of_mem a mem) j d there

/-- The chain at `i` is taken apart: its keys get new homes, all others keep theirs. -/
theorem Homed.scatter {i : ι} (h : Homed key home chains stored)
    (others : ∀ k, home k ≠ i → home' k = home k) :
    Homed key home' (scatter (fun a => home' (key a)) (chains i) (update chains i []))
      stored where
  own j a mem := by
    rcases (mem_scatter _ _ _ j).mp mem with there | ⟨_, there⟩
    · by_cases here : j = i
      · simp [here] at there
      · rw [update_of_ne here] at there
        have own := h.own j a there
        rw [others _ (own ▸ here), own]
    · exact there
  once j := by
    refine distinct_scatter _ (fun j => ?_) (h.once i) (fun a mem j b there same => ?_) j
    · by_cases here : j = i
      · rw [here, update_self]
        exact List.Pairwise.nil
      · rw [update_of_ne here]
        exact h.once j
    · by_cases here : j = i
      · simp [here] at there
      · rw [update_of_ne here] at there
        exact here ((h.own j b there).symm.trans ((congrArg home same).trans (h.own i a mem)))
  mem a := by
    rw [mem_scatter, h.mem]
    by_cases here : home (key a) = i
    · rw [here]
      constructor
      · exact fun mem => .inr ⟨mem, rfl⟩
      · rintro (there | ⟨mem, _⟩)
        · by_cases same : home' (key a) = i
          · simp [same] at there
          · rw [update_of_ne same] at there
            exact absurd ((h.own _ a there).symm.trans here) same
        · exact mem
    · rw [others _ here, update_of_ne here]
      constructor
      · exact .inl
      · rintro (mem | ⟨mem, _⟩)
        · exact mem
        · exact absurd (h.own i a mem) here
  distinct := h.distinct

end Updates

/-! ## Tables -/

/-- An array of chains. -/
structure Table (α : Type*) where
  size : Nat
  chain : Nat → List α

namespace Table

variable {t u : Table α} {i j : Int}

/-- A table of empty chains. -/
def calloc (n : Nat) : Table α := ⟨n, fun _ => []⟩

/-- The null pointer, or a table that was given back. -/
def null : Table α := calloc 0

/-- Read a chain of the table. -/
def get? (t : Table α) (i : Int) : Option (List α) :=
  if 0 ≤ i ∧ i < t.size then some (t.chain i.toNat) else none

/-- Write a chain of the table. -/
def set? (t : Table α) (i : Int) (c : List α) : Option (Table α) :=
  if 0 ≤ i ∧ i < t.size then some { t with chain := update t.chain i.toNat c } else none

theorem get?_of_lt {n : Nat} (inside : n < t.size) : t.get? n = some (t.chain n) := by
  simp [get?, inside]

theorem set?_of_lt {n : Nat} (inside : n < t.size) (c : List α) :
    t.set? n c = some { t with chain := update t.chain n c } := by
  simp [set?, inside]

theorem get?_null (i : Int) : (null : Table α).get? i = none :=
  if_neg fun inside => by simp [null, calloc] at inside; omega

end Table

end Shang.Lib
