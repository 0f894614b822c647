import Shang.Lib.Josephus
import Shang.Lib.Nodes

/-!
# The Josephus problem

The circle of nodes of `josufu/main.c`, a list without a head. `josufu_kill` stands
before the node it may have to unlink, so that its counter runs to the kill number less
one. In the model the order of the kills is the order in which nodes are freed.
-/

namespace Shang.Josufu

open Shang.Lib Shang.Lib.Act Shang.Lib.Nodes

/-- `NODE` -/
structure Node (P : Type) where
  num : Int
  next : P

section Program

variable {P : Type} [Zero P] [DecidableEq P]

/-- `for (i = 2; i <= num; i++)` of `list_insert`; `malloc` returns `addr i` for the node `i`. -/
def listInsertLoop (addr : Nat → P) (num : Int) (head : P) :
    Nat → Nat → P → Act (Nodes P (Node P)) Unit
  | 0, _, _ => spent
  | fuel + 1, i, tmpHead =>
      if i ≤ num then do
        let me := addr i
        malloc me
        assign me fun node => { node with num := i }
        assign tmpHead fun node => { node with next := me }
        assign me fun node => { node with next := head }
        listInsertLoop addr num head fuel (i + 1) me
      else pure ()

/-- `list_insert(num)` -/
def listInsert (addr : Nat → P) (num : Int) (fuel : Nat) : Act (Nodes P (Node P)) P := do
  let head := addr 1
  malloc head
  assign head fun node => { node with num := 1 }
  assign head fun node => { node with next := head }
  listInsertLoop addr num head fuel 2 head
  pure head

/-- The loop of `josufu_kill`; the node that remains. -/
def josufuKillLoop (killNum : Int) : Nat → P → Int → Act (Nodes P (Node P)) P
  | 0, _, _ => spent
  | fuel + 1, tmp, tmpNum => do
      let node ← deref tmp
      if node.next ≠ tmp then
        let tmpNum := tmpNum - 1
        if tmpNum = 0 then do
          let node ← deref tmp
          let tmpNext := node.next
          let victim ← deref tmpNext
          assign tmp fun node => { node with next := victim.next }
          free tmpNext
          let node ← deref tmp
          josufuKillLoop killNum fuel node.next (killNum - 1)
        else do
          let node ← deref tmp
          josufuKillLoop killNum fuel node.next tmpNum
      else pure tmp

/-- `josufu_kill(list, kill_num)`, with the number that it prints. -/
def josufuKill (list : P) (killNum : Int) (fuel : Nat) : Act (Nodes P (Node P)) Int := do
  let tmp ← josufuKillLoop killNum fuel list (killNum - 1)
  let node ← deref tmp
  pure node.num

end Program

/-! ## The circle -/

variable {P : Type} {addr : Nat → P}

/-- The nodes from 1 to `n`. -/
def nodes (addr : Nat → P) (n : Nat) : List P := (List.range' 1 n).map addr

theorem nodes_succ (n : Nat) : nodes addr (n + 1) = nodes addr n ++ [addr (n + 1)] := by
  rw [nodes, List.range'_1_concat, List.map_append, List.map_singleton, Nat.add_comm 1 n]
  rfl

theorem headD_nodes (n : Nat) (p : P) : (nodes addr (n + 1)).headD p = addr 1 := rfl

theorem mem_nodes {n : Nat} (i : Nat) (low : 1 ≤ i) (high : i ≤ n) : addr i ∈ nodes addr n :=
  List.mem_map_of_mem (List.mem_range'_1.mpr ⟨low, by omega⟩)

theorem addr_ne {n i j : Nat} (nodup : (nodes addr n).Nodup) (low : 1 ≤ i) (high : i ≤ n)
    (low' : 1 ≤ j) (high' : j ≤ n) (ne : i ≠ j) : addr i ≠ addr j := fun same =>
  ne (List.inj_on_of_nodup_map nodup (List.mem_range'_1.mpr ⟨low, by omega⟩)
    (List.mem_range'_1.mpr ⟨low', by omega⟩) same)

theorem exists_two {m : Nat} {L : List P} (size : L.length = m + 2) : ∃ x y l, L = x :: y :: l := by
  match L, size with
  | x :: y :: l, _ => exact ⟨x, y, l, rfl⟩

variable [Zero P] {s t : Nodes P (Node P)}

variable [DecidableEq P]

/-- One round of `list_insert` writes to the new node and to the one before it. -/
theorem listInsertLoop_next {num : Int} (head : P) {tmpHead : P} {i : Nat} (more : i ≤ num)
    (some : addr i ≠ 0) (fresh : addr i ∉ s.live) (live : tmpHead ∈ s.live) :
    ∃ t, (∀ fuel, listInsertLoop addr num head (fuel + 1) i tmpHead s =
        listInsertLoop addr num head fuel (i + 1) (addr i) t) ∧
      t.live = insert (addr i) s.live ∧ t.freed = s.freed ∧ t.node (addr i) = ⟨i, head⟩ ∧
      t.node tmpHead = ⟨(s.node tmpHead).num, addr i⟩ ∧
      ∀ q, q ≠ addr i → q ≠ tmpHead → t.node q = s.node q := by
  have apart : tmpHead ≠ addr i := ne_of_mem_of_not_mem live fresh
  refine ⟨(((s.add (addr i) some).put (addr i) ⟨i, (s.node (addr i)).next⟩).put tmpHead
    ⟨(s.node tmpHead).num, addr i⟩).put (addr i) ⟨i, head⟩, ?_, rfl, rfl, put_self, ?_, ?_⟩
  · intro fuel
    rw [listInsertLoop, if_pos more, bind_malloc some fresh, bind_assign (by simp),
      bind_assign (by simp [live]), bind_assign (by simp)]
    simp only [put_self, put_of_ne apart, put_of_ne apart.symm, add_node]
  · rw [put_of_ne apart, put_self]
  · intro q offMe offTmp
    rw [put_of_ne offMe, put_of_ne offTmp, put_of_ne offMe, add_node]

/-- The first `n` nodes are linked in a circle and numbered from 1 on. -/
structure Built (addr : Nat → P) (s : Nodes P (Node P)) (n : Nat) : Prop where
  chain : Chain Node.next s (nodes addr n) (addr 1)
  num : ∀ i, 1 ≤ i → i ≤ n → (s.node (addr i)).num = i

theorem Built.step {n : Nat} (built : Built addr s (n + 1)) (fresh : addr (n + 2) ∉ s.live)
    (live : t.live = insert (addr (n + 2)) s.live) (here : t.node (addr (n + 2)) = ⟨n + 2, addr 1⟩)
    (before : t.node (addr (n + 1)) = ⟨(s.node (addr (n + 1))).num, addr (n + 2)⟩)
    (rest : ∀ q, q ≠ addr (n + 2) → q ≠ addr (n + 1) → t.node q = s.node q) :
    Built addr t (n + 2) := by
  have lives (q : P) (mem : q ∈ s.live) : q ∈ t.live := live ▸ Finset.mem_insert_of_mem mem
  have apart (q : P) (mem : q ∈ s.live) : q ≠ addr (n + 2) := ne_of_mem_of_not_mem mem fresh
  have linked := built.chain
  rw [nodes_succ, chain_append] at linked
  obtain ⟨front, last, off⟩ := linked
  have lastLive := (chain_singleton.mp last).1
  constructor
  · rw [nodes_succ, nodes_succ, List.append_assoc, chain_append]
    refine ⟨front.congr (fun q mem => ?_) fun q mem => lives q (front.live q mem), ?_, ?_⟩
    · rw [rest q (apart q (front.live q mem)) fun same => off mem (List.mem_singleton.mpr same)]
    · exact chain_cons.mpr ⟨lives _ lastLive, congrArg Node.next before,
        fun mem => apart _ lastLive (List.mem_singleton.mp mem),
        chain_singleton.mpr ⟨live ▸ Finset.mem_insert_self _ _, congrArg Node.next here⟩⟩
    · refine List.disjoint_append_right.mpr ⟨off, List.disjoint_singleton.mpr fun mem => ?_⟩
      exact fresh (front.live _ mem)
  · intro i low high
    rcases Nat.lt_or_ge i (n + 2) with earlier | latest
    · have mem := built.chain.live _ (mem_nodes i low (by omega))
      by_cases final : addr i = addr (n + 1)
      · rw [final, before, ← final]
        exact built.num i low (by omega)
      · rw [rest _ (apart _ mem) final]
        exact built.num i low (by omega)
    · obtain rfl : i = n + 2 := by omega
      rw [here]
      rfl

/-- The rounds that link the nodes from `i + 2` to `n` in. -/
theorem listInsertLoop_spec {n i d : Nat} (left : i + 1 + d = n) (built : Built addr s (i + 1))
    (nodup : (nodes addr n).Nodup)
    (usable : ∀ j, i + 1 < j → j ≤ n → addr j ≠ 0 ∧ addr j ∉ s.live) :
    ∃ t, (∀ fuel, d < fuel →
        listInsertLoop addr n (addr 1) fuel (i + 2) (addr (i + 1)) s = .ended () t) ∧
      Built addr t n ∧ t.freed = s.freed := by
  induction d generalizing s i with
  | zero =>
      obtain rfl : i + 1 = n := left
      refine ⟨s, fun fuel enough => ?_, built, rfl⟩
      obtain ⟨fuel, rfl⟩ := Nat.exists_eq_add_one.mpr enough
      rw [listInsertLoop, if_neg (by omega)]
      rfl
  | succ d ih =>
      obtain ⟨some, fresh⟩ := usable (i + 2) (by omega) (by omega)
      have last := built.chain.live _ (mem_nodes (i + 1) (by omega) (Nat.le_refl _))
      obtain ⟨t, next, live, freed, here, before, rest⟩ :=
        listInsertLoop_next (addr 1) (Int.ofNat_le.mpr (show i + 2 ≤ n by omega)) some fresh last
      obtain ⟨u, ran, builtU, freedU⟩ :=
        ih (by omega) (built.step fresh live here before rest) fun j later inside => by
          obtain ⟨some, fresh⟩ := usable j (by omega) inside
          refine ⟨some, fun mem => ?_⟩
          rw [live, Finset.mem_insert] at mem
          exact mem.elim (addr_ne nodup (by omega) inside (by omega) (by omega) (by omega)) fresh
      refine ⟨u, fun fuel enough => ?_, builtU, freedU.trans freed⟩
      obtain ⟨fuel, rfl⟩ := Nat.exists_eq_add_one.mpr (Nat.zero_lt_of_lt enough)
      exact (next fuel).trans (ran fuel (by omega))

/-- `list_insert` makes the circle of `n` nodes. -/
theorem listInsert_spec {n : Nat} (some : 1 ≤ n) (nodup : (nodes addr n).Nodup)
    (usable : ∀ p ∈ nodes addr n, p ≠ 0 ∧ p ∉ s.live) :
    ∃ t, (∀ fuel, n ≤ fuel → listInsert addr n fuel s = .ended (addr 1) t) ∧ Built addr t n ∧
      t.freed = s.freed := by
  obtain ⟨valid, fresh⟩ := usable _ (mem_nodes 1 (Nat.le_refl _) some)
  let head := ((s.add (addr 1) valid).put (addr 1) ⟨1, (s.node (addr 1)).next⟩).put (addr 1)
    ⟨1, addr 1⟩
  have built : Built addr head 1 := by
    constructor
    · exact chain_singleton.mpr ⟨Finset.mem_insert_self _ _, congrArg Node.next put_self⟩
    · intro i low high
      obtain rfl : i = 1 := by omega
      exact congrArg Node.num put_self
  obtain ⟨t, ran, builtT, freed⟩ :=
    listInsertLoop_spec (Nat.add_sub_cancel' some) built nodup fun j later inside => by
      obtain ⟨valid', fresh'⟩ := usable _ (mem_nodes j (by omega) inside)
      refine ⟨valid', fun mem => ?_⟩
      have either : addr j = addr 1 ∨ addr j ∈ s.live := Finset.mem_insert.mp mem
      exact either.elim
        (addr_ne nodup (by omega) inside (Nat.le_refl _) some (by omega)) fresh'
  refine ⟨t, fun fuel enough => ?_, builtT, freed⟩
  rw [listInsert, bind_malloc valid fresh, bind_assign (by simp), bind_assign (by simp)]
  simp only [put_self, add_node]
  rw [bind_ended (ran fuel (by omega))]
  rfl

/-! ## Killing -/

section Kill

variable {k c : Int} {fuel : Nat} {p q : P} {l : List P}

/-- The only node left is linked to itself. -/
theorem josufuKillLoop_done (chain : Chain Node.next s [p] p) :
    josufuKillLoop k (fuel + 1) p c s = .ended p s := by
  obtain ⟨live, link⟩ := chain_singleton.mp chain
  rw [josufuKillLoop, bind_deref live, link, if_neg fun other => other rfl]
  rfl

/-- The count goes on to the next node. -/
theorem josufuKillLoop_pass (chain : Chain Node.next s (p :: q :: l) p) (more : c ≠ 1) :
    josufuKillLoop k (fuel + 1) p c s = josufuKillLoop k fuel q (c - 1) s := by
  obtain ⟨live, link, off, -⟩ := chain_cons.mp chain
  have apart : q ≠ p := fun same => off (same ▸ List.mem_cons_self)
  rw [List.headD_cons] at link
  rw [josufuKillLoop, bind_deref live, link, if_pos apart, if_neg (by omega), bind_deref live, link]

/-- The count is over before `q`, which is unlinked and freed. -/
theorem josufuKillLoop_kill (chain : Chain Node.next s (p :: q :: l) p) :
    ∃ t, (∀ fuel, josufuKillLoop k (fuel + 1) p 1 s =
        josufuKillLoop k fuel (l.headD p) (k - 1) t) ∧
      Chain Node.next t (p :: l) p ∧ t.freed = s.freed ++ [q] ∧
      ∀ x, (t.node x).num = (s.node x).num := by
  obtain ⟨live, link, off, rest⟩ := chain_cons.mp chain
  obtain ⟨live', link', off', rest'⟩ := chain_cons.mp rest
  have apart : q ≠ p := fun same => off (same ▸ List.mem_cons_self)
  have offRest : p ∉ l := fun mem => off (List.mem_cons_of_mem q mem)
  rw [List.headD_cons] at link
  let t := (s.put p ⟨(s.node p).num, l.headD p⟩).drop q
  have liveP : p ∈ t.live := Finset.mem_erase_of_ne_of_mem apart.symm live
  refine ⟨t, fun fuel => ?_, ?_, rfl, fun x => ?_⟩
  · rw [josufuKillLoop, bind_deref live, link, if_pos apart, if_pos (Int.sub_self 1),
      bind_deref live, link, bind_deref live', link', bind_assign live, bind_free (by exact live'),
      bind_deref liveP, drop_node, put_self]
  · refine chain_cons.mpr ⟨liveP, ?_, offRest, (rest'.put_off offRest).drop off'⟩
    exact congrArg Node.next put_self
  · rcases eq_or_ne x p with rfl | other
    · rw [drop_node, put_self]
    · rw [drop_node, put_of_ne other]

/-- One turn of the count, from `c` rounds before the kill on. -/
theorem josufuKillLoop_turn {c m : Nat} {L rest : List P} (size : L.length = m + 2)
    (chain : Chain Node.next s L (L.headD 0)) (turned : L.rotate (c + 1) = q :: rest) :
    ∃ t, (∀ fuel, josufuKillLoop k (fuel + (c + 1)) (L.headD 0) (c + 1 : Nat) s =
        josufuKillLoop k fuel (rest.headD 0) (k - 1) t) ∧
      Chain Node.next t rest (rest.headD 0) ∧ t.freed = s.freed ++ [q] ∧
      ∀ x, (t.node x).num = (s.node x).num := by
  induction c generalizing L with
  | zero =>
      obtain ⟨x, y, l, rfl⟩ := exists_two size
      rw [List.rotate_cons_succ, List.rotate_zero, List.cons_append, List.cons.injEq] at turned
      obtain ⟨rfl, rfl⟩ := turned
      obtain ⟨t, ran, chain', freed, num⟩ := josufuKillLoop_kill chain
      rw [headD_append]
      exact ⟨t, ran, chain'.turn, freed, num⟩
  | succ c ih =>
      obtain ⟨x, y, l, rfl⟩ := exists_two size
      rw [List.rotate_cons_succ] at turned
      obtain ⟨t, ran, rest⟩ := ih (by simpa using size) chain.turn turned
      refine ⟨t, fun fuel => ?_, rest⟩
      have pass := @josufuKillLoop_pass P _ s _ k (c + 1 + 1 : Nat) (fuel + (c + 1)) x y l chain
        (by omega)
      rw [show ((c + 1 + 1 : Nat) : Int) - 1 = (c + 1 : Nat) by omega] at pass
      exact pass.trans (ran fuel)

/-- The whole loop, with a count of `c + 1` to each kill. -/
theorem josufuKillLoop_spec {c m : Nat} {L : List P} (size : L.length = m + 1)
    (chain : Chain Node.next s L (L.headD 0)) :
    ∃ x t, (∀ fuel, m * (c + 1) < fuel →
        josufuKillLoop (c + 2 : Nat) fuel (L.headD 0) (c + 1 : Nat) s = .ended x t) ∧
      (countOut (c + 2) m L).2 = [x] ∧ t.freed = s.freed ++ (countOut (c + 2) m L).1 ∧
      Chain Node.next t [x] x ∧ ∀ y, (t.node y).num = (s.node y).num := by
  induction m generalizing s L with
  | zero =>
      obtain ⟨x, rfl⟩ := List.length_eq_one_iff.mp size
      refine ⟨x, s, fun fuel enough => ?_, rfl, (List.append_nil _).symm, chain, fun _ => rfl⟩
      obtain ⟨fuel, rfl⟩ := Nat.exists_eq_add_one.mpr (Nat.zero_lt_of_lt enough)
      exact josufuKillLoop_done chain
  | succ m ih =>
      obtain ⟨q, rest, turned, left⟩ := exists_turned (c + 2) size
      obtain ⟨t, ran, chainT, freedT, numT⟩ := josufuKillLoop_turn size chain turned
      obtain ⟨x, u, ranU, last, freedU, chainU, numU⟩ := ih left chainT
      rw [countOut_succ turned]
      refine ⟨x, u, fun fuel enough => ?_, last, ?_, chainU, fun y => (numU y).trans (numT y)⟩
      · obtain ⟨fuel, rfl⟩ : ∃ f, fuel = f + (c + 1) := ⟨fuel - (c + 1), by
          rw [Nat.succ_mul] at enough
          omega⟩
        rw [Nat.succ_mul] at enough
        have rest := ranU fuel (by omega)
        rw [show ((c + 1 : Nat) : Int) = (c + 2 : Nat) - 1 by omega] at rest
        exact (ran fuel).trans rest
      · rw [freedU, freedT, List.append_assoc, List.singleton_append]

end Kill

end Shang.Josufu
