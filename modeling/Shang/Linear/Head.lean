import Shang.Lib.Nodes

/-!
# Linked lists with a head

`head/list.c`: the head stands for no element. `list_insert_at` and `list_delete_at` walk
to the predecessor of an index and stop at the last node if the list is shorter.
`list_insert_at` then puts the new element at the end; `list_delete_at` asks whether the
node it has stopped at is there, and not whether there is one behind it.
-/

namespace Shang.Head

open Shang.Lib Shang.Lib.Act Shang.Lib.Nodes

/-- `list` -/
structure Cell (P : Type) where
  data : Int
  next : P

section Program

variable {P : Type} [Zero P] [DecidableEq P]

/-- `list_create()`; `malloc` returns `m`, or `NULL` for `none`. -/
def listCreate (m : Option P) : Act (Nodes P (Cell P)) P :=
  match m with
  | none => pure 0
  | some me => do
      malloc me
      assign me fun node => { node with next := 0 }
      pure me

/-- A loop that goes on to the next node and counts, as long as `more` says so. -/
def walkLoop (more : Int → P → Act (Nodes P (Cell P)) Bool) :
    Nat → Int → P → Act (Nodes P (Cell P)) P
  | 0, _, _ => spent
  | fuel + 1, j, p => do
      if ← more j p then do
        let node ← deref p
        walkLoop more fuel (j + 1) node.next
      else pure p

/-- `j < i && p->next` -/
def before (i j : Int) (p : P) : Act (Nodes P (Cell P)) Bool :=
  if j < i then do
    let node ← deref p
    pure (node.next ≠ 0)
  else pure false

/-- `p->next && (p->next->data < *data)` -/
def below (data : Int) (p : P) : Act (Nodes P (Cell P)) Bool := do
  let node ← deref p
  if node.next ≠ 0 then do
    let next ← deref node.next
    pure (next.data < data)
  else pure false

/-- A new node with `data` behind `p`; `err` if `malloc` fails, and -2 if there is no `p`. -/
def insertBehind (p : P) (data : Int) (m : Option P) (err : Int) : Act (Nodes P (Cell P)) Int :=
  if p ≠ 0 then
    match m with
    | none => pure err
    | some q => do
        malloc q
        assign q fun node => { node with data := data }
        let node ← deref p
        assign q fun new => { new with next := node.next }
        assign p fun node => { node with next := q }
        pure 0
  else pure (-2)

/-- `list_insert_at(me, i, &data)` -/
def listInsertAt (me : P) (i data : Int) (m : Option P) (fuel : Nat) :
    Act (Nodes P (Cell P)) Int :=
  if i < 0 then pure (-1)
  else do
    let node ← walkLoop (before i) fuel 0 me
    insertBehind node data m (-3)

/-- `list_order_insert(me, &data)` -/
def listOrderInsert (me : P) (data : Int) (m : Option P) (fuel : Nat) :
    Act (Nodes P (Cell P)) Int := do
  let p ← walkLoop (fun _ => below data) fuel 0 me
  insertBehind p data m (-1)

/-- `list_delete_at(me, i, &data)`, with what it returns and `data` afterwards. -/
def listDeleteAt (me : P) (i : Int) (fuel : Nat) : Act (Nodes P (Cell P)) (Int × Int) := do
  let data := -1
  if i < 0 then pure (-1, data)
  else do
    let p ← walkLoop (before i) fuel 0 me
    if p ≠ 0 then do
      let node ← deref p
      let q := node.next
      let node ← deref q
      assign p fun node' => { node' with next := node.next }
      let node ← deref q
      let data := node.data
      free q
      pure (0, data)
    else pure (-2, data)

end Program

/-! ## Elements -/

variable {P : Type} [Zero P] {s t : Nodes P (Cell P)} {me p q : P} {L L₁ L₂ : List P}
  {i j data err r : Int} {m : Option P} {fuel : Nat} {vals : List Int}

/-- The data in the nodes. -/
def dataOf (s : Nodes P (Cell P)) (L : List P) : List Int := L.map fun p => (s.node p).data

/-- The elements of the list `me` are `vals`. -/
def Holds (s : Nodes P (Cell P)) (me : P) (vals : List Int) : Prop :=
  ∃ L, Chain Cell.next s (me :: L) 0 ∧ dataOf s L = vals

theorem dataOf_congr (same : ∀ p ∈ L, (t.node p).data = (s.node p).data) :
    dataOf t L = dataOf s L := List.map_congr_left same

theorem dataOf_append : dataOf s (L₁ ++ L₂) = dataOf s L₁ ++ dataOf s L₂ := List.map_append

theorem dataOf_cons : dataOf s (p :: L) = (s.node p).data :: dataOf s L := rfl

variable [DecidableEq P]

/-- A new node with `data` behind `L₁`. -/
theorem holds_insert (chain : Chain Cell.next s (me :: (L₁ ++ L₂)) 0) (some : q ≠ 0)
    (fresh : q ∉ s.live) :
    Holds (((s.add q some).put q ⟨data, L₂.headD 0⟩).put (L₁.getLastD me)
      ⟨(s.node (L₁.getLastD me)).data, q⟩) me (dataOf s L₁ ++ data :: dataOf s L₂) := by
  refine ⟨_, chain.insert some fresh rfl rfl, ?_⟩
  obtain ⟨last, -⟩ := chain.last_link
  generalize L₁.getLastD me = p at *
  have ne : q ≠ p := (ne_of_mem_of_not_mem last fresh).symm
  have same (x : P) (mem : x ∈ L₁ ++ L₂) : ((((s.add q some).put q ⟨data, L₂.headD 0⟩).put p
      ⟨(s.node p).data, q⟩).node x).data = (s.node x).data := by
    have old : x ≠ q := ne_of_mem_of_not_mem (chain.live x (List.mem_cons_of_mem me mem)) fresh
    rcases eq_or_ne x p with rfl | other
    · rw [put_self]
    · rw [put_of_ne other, put_of_ne old, add_node]
  rw [dataOf_append, dataOf_cons, put_of_ne ne, put_self,
    dataOf_congr fun x mem => same x (List.mem_append_left L₂ mem),
    dataOf_congr fun x mem => same x (List.mem_append_right L₁ mem)]

/-- The node behind `L₁` removed. -/
theorem holds_remove (chain : Chain Cell.next s (me :: (L₁ ++ q :: L₂)) 0) :
    Holds ((s.put (L₁.getLastD me) ⟨(s.node (L₁.getLastD me)).data, (s.node q).next⟩).drop q) me
      (dataOf s L₁ ++ dataOf s L₂) := by
  refine ⟨_, chain.remove rfl, ?_⟩
  generalize L₁.getLastD me = p at *
  rw [← dataOf_append]
  refine dataOf_congr fun x _ => ?_
  rw [drop_node]
  rcases eq_or_ne x p with rfl | other
  · rw [put_self]
  · rw [put_of_ne other]

/-! ## Walking -/

theorem before_eq (live : p ∈ s.live) :
    before i j p s = .ended (decide (j < i ∧ (s.node p).next ≠ 0)) s := by
  rw [before]
  by_cases more : j < i
  · rw [if_pos more, bind_deref live]
    simp [more, pure_eq]
  · rw [if_neg more]
    simp [more, pure_eq]

/-- The walk passes `i - j` nodes, or as many as there are. -/
theorem walkLoop_before (chain : Chain Cell.next s (p :: L) 0) (start : j ≤ i)
    (enough : i - j < fuel) :
    walkLoop (before i) fuel j p s = .ended ((L.take (i - j).toNat).getLastD p) s := by
  obtain ⟨fuel, rfl⟩ : ∃ f, fuel = f + 1 := Nat.exists_eq_add_one.mpr (by omega)
  induction L generalizing p j fuel with
  | nil =>
      obtain ⟨live, link, -⟩ := chain_cons.mp chain
      rw [walkLoop, bind_ended (before_eq live), if_neg (by simpa using fun _ => link),
        List.take_nil]
      rfl
  | cons x L ih =>
      obtain ⟨live, link, -, rest⟩ := chain_cons.mp chain
      rw [List.headD_cons] at link
      have some : x ≠ 0 := ne_null (rest.live x List.mem_cons_self)
      rcases Int.lt_or_eq_of_le start with more | rfl
      · obtain ⟨fuel, rfl⟩ : ∃ f, fuel = f + 1 := Nat.exists_eq_add_one.mpr (by omega)
        rw [walkLoop, bind_ended (before_eq live), link, if_pos (by simpa using ⟨more, some⟩),
          bind_deref live, link, ih rest (by omega) fuel (by omega),
          show (i - j).toNat = (i - (j + 1)).toNat + 1 by omega, List.take_succ_cons,
          List.getLastD_cons]
      · rw [walkLoop, bind_ended (before_eq live), if_neg (by simp), Int.sub_self]
        rfl

/-- A walk that asks for a next node before it goes on comes to the head or a node of the list. -/
theorem walkLoop_ended {more : Int → P → Act (Nodes P (Cell P)) Bool}
    (asks : ∀ {j p b t}, p ∈ s.live → more j p s = .ended b t →
      t = s ∧ (b = true → (s.node p).next ≠ 0))
    (chain : Chain Cell.next s (p :: L) 0) (ran : walkLoop more fuel j p s = .ended q t) :
    t = s ∧ ∃ L₁ L₂, L = L₁ ++ L₂ ∧ q = L₁.getLastD p := by
  induction fuel generalizing p L j with
  | zero => cases ran
  | succ fuel ih =>
      obtain ⟨live, link, -, rest⟩ := chain_cons.mp chain
      rw [walkLoop] at ran
      obtain ⟨b, u, asked, ran⟩ := bind_eq_ended.mp ran
      obtain ⟨rfl, some⟩ := asks live asked
      cases b with
      | false =>
          cases ran
          exact ⟨rfl, [], L, rfl, rfl⟩
      | true =>
          rw [if_pos rfl, bind_deref live, link] at ran
          rcases L with _ | ⟨x, L⟩
          · exact absurd link (some rfl)
          · obtain ⟨same, L₁, L₂, rfl, rfl⟩ := ih rest ran
            exact ⟨same, x :: L₁, L₂, rfl, List.getLastD_cons.symm⟩

theorem below_ended {b : Bool} (live : p ∈ s.live) (ran : below data p s = .ended b t) :
    t = s ∧ (b = true → (s.node p).next ≠ 0) := by
  rw [below, bind_deref live] at ran
  by_cases some : (s.node p).next ≠ 0
  · rw [if_pos some] at ran
    obtain ⟨x, u, read, compared⟩ := bind_eq_ended.mp ran
    obtain ⟨rfl, -⟩ := deref_ended read
    cases compared
    exact ⟨rfl, fun _ => some⟩
  · rw [if_neg some] at ran
    cases ran
    exact ⟨rfl, fun no => absurd no Bool.false_ne_true⟩

/-! ## Building -/

theorem insertBehind_ended (chain : Chain Cell.next s (me :: (L₁ ++ L₂)) 0)
    (ran : insertBehind (L₁.getLastD me) data m err s = .ended r t) :
    t = s ∨ Holds t me (dataOf s L₁ ++ data :: dataOf s L₂) := by
  obtain ⟨last, link⟩ := chain.last_link
  cases m with
  | none =>
      rw [insertBehind, if_pos (ne_null last)] at ran
      cases ran
      exact .inl rfl
  | some q =>
      rw [insertBehind, if_pos (ne_null last)] at ran
      obtain ⟨_, u, allocated, ran⟩ := bind_eq_ended.mp ran
      obtain ⟨⟨some, fresh⟩, rfl⟩ := malloc_ended allocated
      have ne : L₁.getLastD me ≠ q := ne_of_mem_of_not_mem last fresh
      have live : L₁.getLastD me ∈ (s.add q some).live := Finset.mem_insert_of_mem last
      rw [bind_assign (by simp), bind_deref (by exact live), bind_assign (by simp), put_self,
        put_put, put_of_ne ne, bind_assign (by exact live), put_of_ne ne, add_node, link] at ran
      cases ran
      exact .inr (holds_insert chain some fresh)

/-- The lists made by `list_create` and the two functions that insert, whatever `malloc` returns. -/
inductive Built : Nodes P (Cell P) → P → Prop
  | create {s t : Nodes P (Cell P)} {me : P} {m : Option P} (some : me ≠ 0)
      (ran : listCreate m s = .ended me t) : Built t me
  | insertAt {s t : Nodes P (Cell P)} {me : P} {i data r : Int} {m : Option P} {fuel : Nat}
      (built : Built s me) (ran : listInsertAt me i data m fuel s = .ended r t) : Built t me
  | orderInsert {s t : Nodes P (Cell P)} {me : P} {data r : Int} {m : Option P} {fuel : Nat}
      (built : Built s me) (ran : listOrderInsert me data m fuel s = .ended r t) : Built t me

theorem listCreate_ended (some : me ≠ 0) (ran : listCreate m s = .ended me t) :
    Holds t me [] := by
  cases m with
  | none =>
      cases ran
      exact absurd rfl some
  | some q =>
      rw [listCreate] at ran
      obtain ⟨_, u, allocated, rest⟩ := bind_eq_ended.mp ran
      obtain ⟨usable, rfl⟩ := malloc_ended allocated
      rw [bind_assign (by simp)] at rest
      cases rest
      exact ⟨[], chain_singleton.mpr ⟨Finset.mem_insert_self _ _, congrArg Cell.next put_self⟩, rfl⟩

/-- An insertion behind a walk leaves a list, with the new element if it has taken place. -/
theorem holds_of_walk {more : Int → P → Act (Nodes P (Cell P)) Bool}
    (asks : ∀ {j p b t}, p ∈ s.live → more j p s = .ended b t →
      t = s ∧ (b = true → (s.node p).next ≠ 0))
    (holds : Holds s me vals)
    (ran : (walkLoop more fuel 0 me >>= fun p => insertBehind p data m err) s = .ended r t) :
    ∃ vals', Holds t me vals' := by
  obtain ⟨L, chain, rfl⟩ := holds
  obtain ⟨p, u, walked, rest⟩ := bind_eq_ended.mp ran
  obtain ⟨rfl, L₁, L₂, rfl, rfl⟩ := walkLoop_ended asks chain walked
  rcases insertBehind_ended chain rest with rfl | inserted
  · exact ⟨_, _, chain, rfl⟩
  · exact ⟨_, inserted⟩

theorem Built.holds (built : Built s me) : ∃ vals, Holds s me vals := by
  induction built with
  | create some ran => exact ⟨[], listCreate_ended some ran⟩
  | @insertAt s t me i data r m fuel built ran ih =>
      obtain ⟨vals, holds⟩ := ih
      rw [listInsertAt] at ran
      split at ran
      · cases ran
        exact ⟨vals, holds⟩
      · refine holds_of_walk (fun live asked => ?_) holds ran
        rw [before_eq live] at asked
        cases asked
        exact ⟨rfl, fun more => (of_decide_eq_true more).2⟩
  | @orderInsert s t me data r m fuel built ran ih =>
      obtain ⟨vals, holds⟩ := ih
      exact holds_of_walk below_ended holds ran

/-! ## Deleting -/

/-- `list_delete_at` removes the element `i` and returns it with 0, or returns a negative number and
leaves all as it is. -/
def Deletes (s : Nodes P (Cell P)) (me : P) (i : Int) : Prop :=
  ∃ r d t, (∀ fuel : Nat, i < fuel → listDeleteAt me i fuel s = .ended (r, d) t) ∧
    ((r = 0 ∧ ∃ front back, (front.length : Int) = i ∧ Holds s me (front ++ d :: back) ∧
        Holds t me (front ++ back)) ∨
      (r < 0 ∧ t = s))

theorem listDeleteAt_negative (negative : i < 0) :
    listDeleteAt me i fuel s = .ended (-1, -1) s := by
  rw [listDeleteAt, if_pos negative]
  rfl

theorem listDeleteAt_within (chain : Chain Cell.next s (me :: (L₁ ++ q :: L₂)) 0)
    (here : (L₁.length : Int) = i) :
    ∃ t, (∀ fuel : Nat, i < fuel → listDeleteAt me i fuel s = .ended (0, (s.node q).data) t) ∧
      Holds t me (dataOf s L₁ ++ dataOf s L₂) := by
  refine ⟨_, fun fuel enough => ?_, holds_remove chain⟩
  have walked := walkLoop_before chain (show 0 ≤ i by omega) (show i - 0 < fuel by omega)
  rw [List.take_left' (by omega)] at walked
  obtain ⟨last, link⟩ := chain.last_link
  have live : q ∈ s.live :=
    chain.live q (List.mem_cons_of_mem me (List.mem_append_right L₁ List.mem_cons_self))
  have apart : (me :: L₁).Disjoint (q :: L₂) := (chain_append.mp chain).2.2
  have ne : q ≠ L₁.getLastD me := fun same =>
    apart List.getLastD_mem_cons (same ▸ List.mem_cons_self)
  rw [listDeleteAt, if_neg (by omega), bind_ended walked, if_pos (ne_null last), bind_deref last,
    link, List.headD_cons, bind_deref live, bind_assign last, bind_deref (by exact live),
    put_of_ne ne, bind_free (by exact live)]
  rfl

/-- Behind the last node there is none to be read. -/
theorem listDeleteAt_beyond (chain : Chain Cell.next s (me :: L) 0) (beyond : L.length ≤ i)
    (enough : i < fuel) : listDeleteAt me i fuel s = .stopped s := by
  have walked := walkLoop_before chain (show 0 ≤ i by omega) (show i - 0 < fuel by omega)
  rw [List.take_of_length_le (by omega)] at walked
  have ends : Chain Cell.next s (me :: (L ++ [])) 0 := by rwa [List.append_nil]
  obtain ⟨last, link⟩ := ends.last_link
  rw [listDeleteAt, if_neg (by omega), bind_ended walked, if_pos (ne_null last), bind_deref last,
    link]
  exact bind_stopped (if_neg s.null)

end Shang.Head
