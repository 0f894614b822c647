import Shang.Btree.Glist

/-!
# What `load_` does with malformed input

A call of `load_` that meets a wrong byte has taken this byte from the file, and
returns `NULL`. The call that made it takes this `NULL` for an empty tree and goes
on with the next byte. So `load_` reads a larger language than `save_` writes: these
are its words.
-/

namespace Shang.Glist

open BinaryTree Shang.Lib.Tree

/-- What one call of `load_` takes from the file. -/
inductive Word where
  /-- `()` -/
  | null
  /-- A byte in the place of the opening bracket. -/
  | stray (c : UInt8)
  /-- An opening bracket and a datum, when `malloc` fails. -/
  | denied (data : UInt8)
  /-- A byte in the place of the closing bracket. -/
  | broken (data : UInt8) (left right : Word) (c : UInt8)
  | node (data : UInt8) (left right : Word)

namespace Word

def bytes : Word → List UInt8
  | null => [40, 41]
  | stray c => [c]
  | denied data => [40, data]
  | broken data left right c => 40 :: data :: (left.bytes ++ (right.bytes ++ [c]))
  | node data left right => 40 :: data :: (left.bytes ++ (right.bytes ++ [41]))

/-- The tree that the call returns. -/
def tree : Word → BtNode
  | node data left right => .node data.toNat left.tree right.tree
  | _ => .nil

/-- The word is one that `save_` writes. -/
def Proper : Word → Prop
  | null => True
  | node _ left right => left.Proper ∧ right.Proper
  | _ => False

/-- The word is taken when `malloc` has so many nodes left, and leaves it so many. -/
def Takes : Nat → Word → Nat → Prop
  | mem, null, mem' => mem' = mem
  | mem, stray c, mem' => c ≠ 40 ∧ mem' = mem
  | mem, denied data, mem' => data ≠ 41 ∧ mem = 0 ∧ mem' = mem
  | mem, broken data left right c, mem' =>
      data ≠ 41 ∧ c ≠ 41 ∧ 0 < mem ∧ ∃ mid, left.Takes (mem - 1) mid ∧ right.Takes mid mem'
  | mem, node data left right, mem' =>
      data ≠ 41 ∧ 0 < mem ∧ ∃ mid, left.Takes (mem - 1) mid ∧ right.Takes mid mem'

end Word

/-- The file begins with a node that has a word below it which `save_` does not write. -/
def Botched (mem : Nat) (fp : List UInt8) : Prop :=
  ∃ data left right mem', (Word.node data left right).Takes mem mem' ∧
    ¬ (left.Proper ∧ right.Proper) ∧ (Word.node data left right).bytes <+: fp

/-! ## The words are what `load_` takes -/

theorem close_iff (c : UInt8) : (c.toNat : Int) = CLOSE ↔ c = 41 := by
  rw [CLOSE, ← UInt8.toNat_inj]
  exact Int.ofNat_inj

theorem open_iff (c : UInt8) : (c.toNat : Int) = OPEN ↔ c = 40 := by
  rw [OPEN, ← UInt8.toNat_inj]
  exact Int.ofNat_inj

theorem load_nil (mem : Nat) (err : List String) :
    load_ ⟨[], mem, err⟩ = (.nil, ⟨[], mem, err ++ ["format error\n"]⟩) := by
  rw [load_eq]
  rfl

theorem load_stray {c : UInt8} (stray : c ≠ 40) (fp : List UInt8) (mem : Nat)
    (err : List String) :
    load_ ⟨c :: fp, mem, err⟩ = (.nil, ⟨fp, mem, err ++ ["format error\n"]⟩) := by
  rw [load_eq]
  simp [complain, open_iff, stray]

theorem load_denied {data : UInt8} (inner : data ≠ 41) (fp : List UInt8) (err : List String) :
    load_ ⟨40 :: data :: fp, 0, err⟩ = (.nil, ⟨fp, 0, err⟩) := by
  rw [load_eq]
  simp [OPEN, close_iff, inner]

/-- `load_` behind an opening bracket, from what its calls for the two subtrees read. -/
theorem load_closing {c close : UInt8} {fp fp₁ fp₂ : List UInt8} {mem mem₁ mem₂ : Nat}
    {err err₁ err₂ : List String} {l r : BtNode} (inner : c ≠ 41) (some : 0 < mem)
    (left : load_ ⟨fp, mem - 1, err⟩ = (l, ⟨fp₁, mem₁, err₁⟩))
    (right : load_ ⟨fp₁, mem₁, err₁⟩ = (r, ⟨close :: fp₂, mem₂, err₂⟩)) :
    load_ ⟨40 :: c :: fp, mem, err⟩ =
      if close = 41 then (.node c.toNat l r, ⟨fp₂, mem₂, err₂⟩)
      else (.nil, ⟨fp₂, mem₂, err₂ ++ ["format error\n"]⟩) := by
  rw [load_eq]
  simp [OPEN, close_iff, inner, Nat.pos_iff_ne_zero.mp some, left, right, complain]

/-- The file ends where a node should be closed. -/
theorem load_unclosed {c : UInt8} {fp fp₁ : List UInt8} {mem mem₁ mem₂ : Nat}
    {err err₁ err₂ : List String} {l r : BtNode} (inner : c ≠ 41) (some : 0 < mem)
    (left : load_ ⟨fp, mem - 1, err⟩ = (l, ⟨fp₁, mem₁, err₁⟩))
    (right : load_ ⟨fp₁, mem₁, err₁⟩ = (r, ⟨[], mem₂, err₂⟩)) :
    load_ ⟨40 :: c :: fp, mem, err⟩ = (.nil, ⟨[], mem₂, err₂ ++ ["format error\n"]⟩) := by
  have ended : fgetc ⟨[], mem₂, err₂⟩ = (EOF, ⟨[], mem₂, err₂⟩) := rfl
  rw [load_eq]
  simp [OPEN, close_iff, inner, Nat.pos_iff_ne_zero.mp some, left, right, ended, complain,
    show EOF ≠ CLOSE by decide]

/-- The file ends behind the opening bracket. -/
theorem load_open (mem : Nat) (err : List String) :
    ∃ mem' err', load_ ⟨[40], mem, err⟩ = (.nil, ⟨[], mem', err'⟩) := by
  have ended (m : Nat) (e : List String) : fgetc ⟨[], m, e⟩ = (EOF, ⟨[], m, e⟩) := rfl
  have inner : EOF ≠ CLOSE := by decide
  rw [load_eq]
  rcases Nat.eq_zero_or_pos mem with rfl | some
  · exact ⟨0, err, by simp [OPEN, ended, inner]⟩
  · refine ⟨mem - 1, err ++ ["format error\n", "format error\n", "format error\n"], ?_⟩
    simp [OPEN, ended, inner, Nat.pos_iff_ne_zero.mp some, load_nil, complain]

/-- A word in front of the file is taken, and its tree returned. -/
theorem Word.Takes.load {w : Word} {mem mem' : Nat} (takes : w.Takes mem mem')
    (rest : List UInt8) (err : List String) :
    ∃ err', load_ ⟨w.bytes ++ rest, mem, err⟩ = (w.tree, ⟨rest, mem', err'⟩) := by
  induction w generalizing mem mem' rest err with
  | null =>
      obtain rfl := takes
      exact ⟨err, load_null rest _ err⟩
  | stray c =>
      obtain ⟨stray, rfl⟩ := takes
      exact ⟨_, load_stray stray rest _ err⟩
  | denied data =>
      obtain ⟨inner, rfl, rfl⟩ := takes
      exact ⟨err, load_denied inner rest err⟩
  | broken data left right c ihl ihr =>
      obtain ⟨inner, wrong, some, mid, takesL, takesR⟩ := takes
      obtain ⟨err₁, ofLeft⟩ := ihl takesL (right.bytes ++ c :: rest) err
      obtain ⟨err₂, ofRight⟩ := ihr takesR (c :: rest) err₁
      refine ⟨err₂ ++ ["format error\n"], ?_⟩
      simp only [bytes, List.cons_append, List.append_assoc, List.nil_append]
      rw [load_closing inner some ofLeft ofRight, if_neg wrong]
      rfl
  | node data left right ihl ihr =>
      obtain ⟨inner, some, mid, takesL, takesR⟩ := takes
      obtain ⟨err₁, ofLeft⟩ := ihl takesL (right.bytes ++ 41 :: rest) err
      obtain ⟨err₂, ofRight⟩ := ihr takesR (41 :: rest) err₁
      refine ⟨err₂, ?_⟩
      simp only [bytes, List.cons_append, List.append_assoc, List.nil_append]
      rw [load_closing inner some ofLeft ofRight, if_pos rfl]
      rfl

/-- What `load_` takes is a word, unless the file ends before it is complete. -/
theorem load_takes_word (fp : List UInt8) (mem : Nat) (err : List String) :
    ∃ t fp' mem' err', load_ ⟨fp, mem, err⟩ = (t, ⟨fp', mem', err'⟩) ∧ fp'.length ≤ fp.length ∧
      ((∃ w : Word, w.Takes mem mem' ∧ fp = w.bytes ++ fp' ∧ t = w.tree) ∨
        t = .nil ∧ fp' = []) := by
  induction n : fp.length using Nat.strong_induction_on generalizing fp mem err with
  | _ n ih =>
  subst n
  rcases fp with _ | ⟨c, fp⟩
  · exact ⟨_, _, _, _, load_nil mem err, Nat.le_refl _, .inr ⟨rfl, rfl⟩⟩
  by_cases opened : c = 40
  case neg =>
    exact ⟨_, _, _, _, load_stray opened fp mem err, Nat.le_succ _,
      .inl ⟨.stray c, ⟨opened, rfl⟩, rfl, rfl⟩⟩
  subst opened
  rcases fp with _ | ⟨c, fp⟩
  · obtain ⟨mem', err', ended⟩ := load_open mem err
    exact ⟨_, _, _, _, ended, Nat.zero_le _, .inr ⟨rfl, rfl⟩⟩
  have longer : fp.length < (40 :: c :: fp).length := by
    simp only [List.length_cons]
    omega
  by_cases closed : c = 41
  · subst closed
    exact ⟨_, _, _, _, load_null fp mem err, Nat.le_of_lt longer, .inl ⟨.null, rfl, rfl, rfl⟩⟩
  rcases Nat.eq_zero_or_pos mem with rfl | some
  · exact ⟨_, _, _, _, load_denied closed fp err, Nat.le_of_lt longer,
      .inl ⟨.denied c, ⟨closed, rfl, rfl⟩, rfl, rfl⟩⟩
  obtain ⟨l, fp₁, mem₁, err₁, left, shorter₁, ofLeft⟩ := ih _ longer fp (mem - 1) err rfl
  obtain ⟨r, fp₂, mem₂, err₂, right, shorter₂, ofRight⟩ :=
    ih _ (Nat.lt_of_le_of_lt shorter₁ longer) fp₁ mem₁ err₁ rfl
  rcases fp₂ with _ | ⟨close, fp₂⟩
  · exact ⟨_, _, _, _, load_unclosed closed some left right, Nat.zero_le _, .inr ⟨rfl, rfl⟩⟩
  obtain ⟨wr, takesR, rfl, rfl⟩ := ofRight.resolve_right fun ended => by simp at ended
  obtain ⟨wl, takesL, rfl, rfl⟩ := ofLeft.resolve_right fun ended => by simp at ended
  have both := load_closing closed some left right
  by_cases shut : close = 41
  · subst shut
    rw [if_pos rfl] at both
    refine ⟨_, _, _, _, both, ?_, .inl ⟨.node c wl wr, ⟨closed, some, _, takesL, takesR⟩, ?_, rfl⟩⟩
    · simp only [List.length_cons, List.length_append]
      omega
    · simp [Word.bytes]
  · rw [if_neg shut] at both
    refine ⟨_, _, _, _, both, ?_,
      .inl ⟨.broken c wl wr close, ⟨closed, shut, some, _, takesL, takesR⟩, ?_, rfl⟩⟩
    · simp only [List.length_cons, List.length_append]
      omega
    · simp [Word.bytes]

/-! ## Where the bytes are those of the tree -/

theorem ofInt_toNat (c : UInt8) : UInt8.ofInt (c.toNat : Int) = c := by
  have small : c.toNat < 256 := c.toNat_lt
  exact UInt8.toNat_inj.mp (Int.ofNat_inj.mp (toNat_ofInt (by omega) (by omega)))

theorem Word.Proper.bytes_eq {w : Word} (proper : w.Proper) : w.bytes = save_ w.tree [] := by
  induction w with
  | null => rfl
  | node data left right ihl ihr =>
      rw [tree, save_node, bytes, ihl proper.1, ihr proper.2, ofInt_toNat]
  | stray | denied | broken => exact proper.elim

/-- A word that looks like the bytes of its own tree, whatever follows, is one of `save_`'s. -/
theorem Word.Takes.proper {w : Word} {mem mem' : Nat} (takes : w.Takes mem mem')
    {xs ys : List UInt8} (same : w.bytes ++ xs = save_ w.tree [] ++ ys) : w.Proper ∧ xs = ys := by
  induction w generalizing mem mem' xs ys with
  | null => exact ⟨trivial, List.append_cancel_left same⟩
  | stray c => exact absurd (List.head_eq_of_cons_eq same) takes.1
  | denied data => exact absurd (List.cons.inj (List.cons.inj same).2).1 takes.1
  | broken data left right c ihl ihr =>
      exact absurd (List.cons.inj (List.cons.inj same).2).1 takes.1
  | node data left right ihl ihr =>
      obtain ⟨inner, some, mid, takesL, takesR⟩ := takes
      simp only [bytes, tree, save_node, List.cons_append, List.append_assoc, List.cons.injEq,
        true_and] at same
      obtain ⟨properL, same⟩ := ihl takesL same.2
      obtain ⟨properR, same⟩ := ihr takesR same
      exact ⟨⟨properL, properR⟩, by simpa using same⟩

/-- A tree comes from exactly the bytes that `save_` writes for it, unless the file begins with a
node that has an error below it. -/
theorem load_exact_iff (fp : List UInt8) (mem : Nat) (err : List String) :
    (∀ t io, load_ ⟨fp, mem, err⟩ = (t, io) → t ≠ .nil → fp = save_ t [] ++ io.fp) ↔
      ¬ Botched mem fp := by
  constructor
  · rintro exactly ⟨data, left, right, mem', takes, wrong, rest, rfl⟩
    obtain ⟨err', loaded⟩ := takes.load rest err
    have same := exactly _ _ loaded (by simp [Word.tree])
    exact wrong (takes.proper same).1
  · intro fine t io loaded some
    obtain ⟨t', fp', mem', err', loaded', -, word⟩ := load_takes_word fp mem err
    rw [loaded] at loaded'
    obtain ⟨rfl, rfl⟩ := Prod.mk.inj loaded'
    obtain ⟨w, takes, rfl, rfl⟩ := word.resolve_right fun ended => some ended.1
    rcases w with _ | _ | _ | _ | ⟨data, left, right⟩
    case node =>
      have proper : left.Proper ∧ right.Proper := by
        refine Classical.byContradiction fun wrong => fine ?_
        exact ⟨data, left, right, mem', takes, wrong, List.prefix_append _ _⟩
      exact congrArg (· ++ fp') (Word.Proper.bytes_eq (w := .node data left right) proper)
    all_goals exact absurd rfl some

/-- A byte that belongs nowhere, in the place of a subtree: the node comes without a left child. -/
theorem load_stray_inside :
    ¬ ∀ fp mem err t io,
      load_ ⟨fp, mem, err⟩ = (t, io) → t ≠ .nil → fp = save_ t [] ++ io.fp := by
  intro exactly
  have left := load_stray (c := 120) (by decide) [40, 41, 41] 0 []
  have right := load_null [41] 0 ["format error\n"]
  have loaded := load_closing (c := 97) (by decide) Nat.one_pos left right
  exact absurd (exactly [40, 97, 120, 40, 41, 41] 1 [] _ _ loaded (by simp)) (by decide)

end Shang.Glist
