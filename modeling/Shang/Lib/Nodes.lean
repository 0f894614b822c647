import Shang.Lib.Act
import Shang.Lib.DList
import Mathlib.Algebra.GroupWithZero.Nat
import Mathlib.Data.Finset.Insert
import Mathlib.Data.Finset.Erase

/-!
# Nodes in dynamic memory

Nodes of one type that are allocated, read, written and freed by their addresses. A
program that uses a node that is not allocated stops there, so that one that ends has
used neither a null pointer nor a node after it was freed. `Chain` says that nodes in
use are linked in a row.
-/

namespace Shang.Lib

/-- What is at each address, which nodes are in use, and those freed so far, in order. -/
structure Nodes (P ν : Type) [Zero P] where
  node : P → ν
  live : Finset P
  null : 0 ∉ live
  freed : List P

variable {P ν : Type} [Zero P]

namespace Nodes

theorem ne_null {s : Nodes P ν} {p : P} (mem : p ∈ s.live) : p ≠ 0 :=
  ne_of_mem_of_not_mem mem s.null

/-! ## Chains -/

/-- The nodes of `l` are in use, and each is linked to the one behind it, the last one to `e`. -/
structure Chain (next : ν → P) (s : Nodes P ν) (l : List P) (e : P) : Prop where
  path : Path (fun p => next (s.node p)) l e
  live : ∀ p ∈ l, p ∈ s.live
  nodup : l.Nodup

variable {next : ν → P} {s : Nodes P ν} {l l₁ l₂ : List P} {p e e' : P}

theorem chain_cons : Chain next s (p :: l) e ↔
    p ∈ s.live ∧ next (s.node p) = l.headD e ∧ p ∉ l ∧ Chain next s l e := by
  constructor
  · rintro ⟨⟨first, rest⟩, live, nodup⟩
    obtain ⟨off, nodup⟩ := List.nodup_cons.mp nodup
    obtain ⟨here, live⟩ := List.forall_mem_cons.mp live
    exact ⟨here, first, off, rest, live, nodup⟩
  · rintro ⟨here, first, off, rest, live, nodup⟩
    exact ⟨⟨first, rest⟩, List.forall_mem_cons.mpr ⟨here, live⟩, List.nodup_cons.mpr ⟨off, nodup⟩⟩

theorem chain_nil : Chain next s [] e := ⟨trivial, fun _ mem => (List.not_mem_nil mem).elim, .nil⟩

theorem chain_append : Chain next s (l₁ ++ l₂) e ↔
    Chain next s l₁ (l₂.headD e) ∧ Chain next s l₂ e ∧ l₁.Disjoint l₂ := by
  constructor
  · rintro ⟨path, live, nodup⟩
    obtain ⟨front, rest⟩ := path_append.mp path
    obtain ⟨nodup₁, nodup₂, apart⟩ := List.nodup_append'.mp nodup
    obtain ⟨live₁, live₂⟩ := List.forall_mem_append.mp live
    exact ⟨⟨front, live₁, nodup₁⟩, ⟨rest, live₂, nodup₂⟩, apart⟩
  · rintro ⟨⟨front, live₁, nodup₁⟩, ⟨rest, live₂, nodup₂⟩, apart⟩
    exact ⟨path_append.mpr ⟨front, rest⟩, List.forall_mem_append.mpr ⟨live₁, live₂⟩,
      List.nodup_append'.mpr ⟨nodup₁, nodup₂, apart⟩⟩

theorem chain_singleton : Chain next s [p] e ↔ p ∈ s.live ∧ next (s.node p) = e := by
  rw [chain_cons]
  exact ⟨fun ⟨live, link, _⟩ => ⟨live, link⟩,
    fun ⟨live, link⟩ => ⟨live, link, List.not_mem_nil, chain_nil⟩⟩

theorem Chain.last_link {b : P} (chain : Chain next s (b :: (l₁ ++ l₂)) e) :
    l₁.getLastD b ∈ s.live ∧ next (s.node (l₁.getLastD b)) = l₂.headD e := by
  obtain ⟨l, front⟩ := exists_getLastD b l₁
  rw [← List.cons_append, front, chain_append] at chain
  exact chain_singleton.mp (chain_append.mp chain.1).2.1

/-- A closed chain may be read from the next node on. -/
theorem Chain.turn (chain : Chain next s (p :: l) p) : Chain next s (l ++ [p]) (l.headD p) := by
  obtain ⟨live, link, off, rest⟩ := chain_cons.mp chain
  exact chain_append.mpr ⟨rest, chain_singleton.mpr ⟨live, link⟩, List.disjoint_singleton.mpr off⟩

/-- A chain depends on its own nodes only. -/
theorem Chain.congr {t : Nodes P ν} (chain : Chain next s l e)
    (same : ∀ q ∈ l, next (t.node q) = next (s.node q)) (live : ∀ q ∈ l, q ∈ t.live) :
    Chain next t l e :=
  ⟨chain.path.congr same, live, chain.nodup⟩

/-! ## Changes -/

variable [DecidableEq P]

/-- Another node at `p`. -/
def put (s : Nodes P ν) (p : P) (x : ν) : Nodes P ν :=
  { s with node := Function.update s.node p x }

/-- The node at `p` is in use. -/
def add (s : Nodes P ν) (p : P) (some : p ≠ 0) : Nodes P ν :=
  { s with
    live := insert p s.live
    null := fun mem => (Finset.mem_insert.mp mem).elim some.symm s.null }

/-- The node at `p` is freed. -/
def drop (s : Nodes P ν) (p : P) : Nodes P ν :=
  { s with
    live := s.live.erase p
    null := fun mem => s.null (Finset.mem_of_mem_erase mem)
    freed := s.freed ++ [p] }

variable {q : P} {x : ν} {some : p ≠ 0}

@[simp] theorem put_live : (s.put p x).live = s.live := rfl

@[simp] theorem put_freed : (s.put p x).freed = s.freed := rfl

@[simp] theorem put_self : (s.put p x).node p = x := Function.update_self _ _ _

@[simp] theorem put_put {y : ν} : (s.put p x).put p y = s.put p y := by
  rw [put, put, put, Function.update_idem]

@[simp] theorem put_node : s.put p (s.node p) = s := by
  rw [put, Function.update_eq_self]

theorem put_of_ne (ne : q ≠ p) : (s.put p x).node q = s.node q := Function.update_of_ne ne _ _

@[simp] theorem add_node : (s.add p some).node = s.node := rfl

@[simp] theorem add_live : (s.add p some).live = insert p s.live := rfl

@[simp] theorem add_freed : (s.add p some).freed = s.freed := rfl

@[simp] theorem drop_node : (s.drop p).node = s.node := rfl

@[simp] theorem drop_live : (s.drop p).live = s.live.erase p := rfl

@[simp] theorem drop_freed : (s.drop p).freed = s.freed ++ [p] := rfl

theorem Chain.put_off (chain : Chain next s l e) (off : p ∉ l) : Chain next (s.put p x) l e :=
  chain.congr (fun _ mem => by rw [put_of_ne (ne_of_mem_of_not_mem mem off)]) chain.live

/-- Writing the last node's link moves the end of the chain. -/
theorem Chain.put_last (chain : Chain next s (l ++ [p]) e) (link : next x = e') :
    Chain next (s.put p x) (l ++ [p]) e' := by
  obtain ⟨front, last, apart⟩ := chain_append.mp chain
  have off : p ∉ l := fun mem => apart mem List.mem_cons_self
  refine chain_append.mpr ⟨front.put_off off, chain_singleton.mpr ⟨?_, ?_⟩, apart⟩
  · exact (chain_singleton.mp last).1
  · rw [put_self, link]

theorem Chain.add (chain : Chain next s l e) : Chain next (s.add p some) l e :=
  chain.congr (fun _ _ => rfl) fun q mem => Finset.mem_insert_of_mem (chain.live q mem)

theorem Chain.drop (chain : Chain next s l e) (off : p ∉ l) : Chain next (s.drop p) l e :=
  chain.congr (fun _ _ => rfl) fun q mem =>
    Finset.mem_erase_of_ne_of_mem (ne_of_mem_of_not_mem mem off) (chain.live q mem)

/-- Link a new node in behind `l₁`. -/
theorem Chain.insert {b : P} {y : ν} (chain : Chain next s (b :: (l₁ ++ l₂)) e) (some : q ≠ 0)
    (fresh : q ∉ s.live) (link : next x = l₂.headD e) (link' : next y = q) :
    Chain next (((s.add q some).put q x).put (l₁.getLastD b) y) (b :: (l₁ ++ q :: l₂)) e := by
  obtain ⟨l, front⟩ := exists_getLastD b l₁
  generalize l₁.getLastD b = p at *
  rw [← List.cons_append, front, chain_append] at chain ⊢
  obtain ⟨first, rest, apart⟩ := chain
  have offFirst : q ∉ l ++ [p] := fun mem => fresh (first.live q mem)
  have offRest : q ∉ l₂ := fun mem => fresh (rest.live q mem)
  have lastMem : p ∈ l ++ [p] := List.mem_append_right l List.mem_cons_self
  have ne : q ≠ p := fun same => offFirst (same ▸ lastMem)
  refine ⟨(first.add.put_off offFirst).put_last link', chain_cons.mpr ⟨?_, ?_, offRest, ?_⟩, ?_⟩
  · exact Finset.mem_insert_self _ _
  · rw [put_of_ne ne, put_self, link]
  · exact (rest.add.put_off offRest).put_off (apart lastMem)
  · exact List.disjoint_cons_right.mpr ⟨offFirst, apart⟩

/-- Link a node out from behind `l₁` and free it. -/
theorem Chain.remove {b : P} {y : ν} (chain : Chain next s (b :: (l₁ ++ q :: l₂)) e)
    (link : next y = next (s.node q)) :
    Chain next ((s.put (l₁.getLastD b) y).drop q) (b :: (l₁ ++ l₂)) e := by
  obtain ⟨l, front⟩ := exists_getLastD b l₁
  generalize l₁.getLastD b = p at *
  rw [← List.cons_append, front, chain_append] at chain ⊢
  obtain ⟨first, rest, apart⟩ := chain
  obtain ⟨offFirst, apart⟩ := List.disjoint_cons_right.mp apart
  obtain ⟨-, next, offRest, rest⟩ := chain_cons.mp rest
  have lastMem : p ∈ l ++ [p] := List.mem_append_right l List.mem_cons_self
  exact ⟨(first.put_last (link.trans next)).drop offFirst,
    (rest.put_off (apart lastMem)).drop offRest, apart⟩

/-! ## Footprints -/

/-- What uses the nodes `ps`, and leaves `qs` in their place, has left all other nodes in use
as they were. -/
def Framed (s t : Nodes P ν) (ps qs : List P) : Prop :=
  ∀ p ∈ s.live, p ∉ ps → p ∈ t.live ∧ t.node p = s.node p ∧ p ∉ qs

variable {t u : Nodes P ν} {ps qs rs : List P}

omit [DecidableEq P] in
theorem Framed.refl (s : Nodes P ν) (ps : List P) : Framed s s ps ps :=
  fun _ live off => ⟨live, rfl, off⟩

omit [DecidableEq P] in
theorem Framed.trans (first : Framed s t ps qs) (second : Framed t u qs rs) :
    Framed s u ps rs := by
  intro p live off
  obtain ⟨live', same, off'⟩ := first p live off
  obtain ⟨live'', same', off''⟩ := second p live' off'
  exact ⟨live'', same'.trans same, off''⟩

omit [DecidableEq P] in
/-- More nodes that stay. -/
theorem Framed.append (framed : Framed s t ps qs) (rs : List P) :
    Framed s t (ps ++ rs) (qs ++ rs) := by
  intro p live off
  obtain ⟨offPs, offRs⟩ := not_or.mp (mt List.mem_append.mpr off)
  obtain ⟨live', same, offQs⟩ := framed p live offPs
  exact ⟨live', same, fun mem => (List.mem_append.mp mem).elim offQs offRs⟩

omit [DecidableEq P] in
theorem Framed.cons (framed : Framed s t ps qs) (p : P) : Framed s t (p :: ps) (p :: qs) := by
  intro q live off
  obtain ⟨ne, offPs⟩ := not_or.mp (mt List.mem_cons.mpr off)
  obtain ⟨live', same, offQs⟩ := framed q live offPs
  exact ⟨live', same, List.not_mem_cons_of_ne_of_not_mem ne offQs⟩

omit [DecidableEq P] in
/-- The same nodes in another order, or more of them used. -/
theorem Framed.mono {ps' qs' : List P} (framed : Framed s t ps qs) (more : ps ⊆ ps')
    (left : ∀ p ∈ qs', p ∈ qs ∨ p ∈ ps') : Framed s t ps' qs' := by
  intro p live off
  obtain ⟨live', same, off'⟩ := framed p live fun mem => off (more mem)
  exact ⟨live', same, fun mem => (left p mem).elim off' off⟩

theorem framed_put (mem : p ∈ ps) : Framed s (s.put p x) ps ps := fun _ live off =>
  ⟨live, put_of_ne fun same => off (same ▸ mem), off⟩

theorem framed_add (fresh : p ∉ s.live) : Framed s (s.add p some) ps (p :: ps) := by
  intro q live off
  refine ⟨Finset.mem_insert_of_mem live, rfl, fun mem => ?_⟩
  rcases List.mem_cons.mp mem with rfl | mem
  · exact fresh live
  · exact off mem

theorem framed_drop : Framed s (s.drop p) (p :: ps) ps := by
  intro q live off
  obtain ⟨ne, off⟩ := not_or.mp (mt List.mem_cons.mpr off)
  exact ⟨Finset.mem_erase_of_ne_of_mem ne live, rfl, off⟩

/-! ## Access -/

/-- `*p` -/
def deref (p : P) : Act (Nodes P ν) ν := fun s =>
  if p ∈ s.live then .ended (s.node p) s else .stopped s

/-- Write to some fields of `*p`. -/
def assign (p : P) (f : ν → ν) : Act (Nodes P ν) Unit := fun s =>
  if p ∈ s.live then .ended () (s.put p (f (s.node p))) else .stopped s

/-- `malloc`, which returns `p`. -/
def malloc (p : P) : Act (Nodes P ν) Unit := fun s =>
  if usable : p ≠ 0 ∧ p ∉ s.live then .ended () (s.add p usable.1) else .stopped s

/-- `free(p)` -/
def free (p : P) : Act (Nodes P ν) Unit := fun s =>
  if p ∈ s.live then .ended () (s.drop p) else .stopped s

variable {α : Type}

theorem deref_eq (mem : p ∈ s.live) : deref p s = .ended (s.node p) s := if_pos mem

theorem bind_deref (mem : p ∈ s.live) (rest : ν → Act (Nodes P ν) α) :
    (deref p >>= rest) s = rest (s.node p) s := Act.bind_ended (deref_eq mem)

theorem bind_assign (mem : p ∈ s.live) (f : ν → ν) (rest : Unit → Act (Nodes P ν) α) :
    (assign p f >>= rest) s = rest () (s.put p (f (s.node p))) := Act.bind_ended (if_pos mem)

theorem bind_malloc (some : p ≠ 0) (fresh : p ∉ s.live) (rest : Unit → Act (Nodes P ν) α) :
    (malloc p >>= rest) s = rest () (s.add p some) := Act.bind_ended (dif_pos ⟨some, fresh⟩)

theorem deref_ended {t : Nodes P ν} (ran : deref p s = .ended x t) : t = s ∧ p ∈ s.live := by
  rw [deref] at ran
  split at ran
  · cases ran
    exact ⟨rfl, ‹_›⟩
  · cases ran

/-- A call of `malloc` that comes back has found an address that is not in use. -/
theorem malloc_ended {u : Unit} {t : Nodes P ν} (ran : malloc p s = .ended u t) :
    ∃ usable : p ≠ 0 ∧ p ∉ s.live, t = s.add p usable.1 := by
  rw [malloc] at ran
  split at ran
  · cases ran
    exact ⟨‹_›, rfl⟩
  · cases ran

theorem bind_free (mem : p ∈ s.live) (rest : Unit → Act (Nodes P ν) α) :
    (free p >>= rest) s = rest () (s.drop p) := Act.bind_ended (if_pos mem)

end Nodes

end Shang.Lib
