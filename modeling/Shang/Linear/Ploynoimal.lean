import Shang.Lib.Nodes
import Shang.Lib.Terms
import Shang.Sort.Func
import Mathlib.Algebra.Polynomial.Laurent

/-!
# Adding polynomials in place

`ploy_union` of `ploynoimal/main.c` relinks the nodes of two lists into one that begins
at the header of the first. `lp` is the last node taken so far; its link is written when
the next one is taken, or at the end.
-/

namespace Shang.Ploynoimal

open Shang.Lib Shang.Lib.Act Shang.Lib.Nodes Shang.Sort

/-- `NODE` -/
structure Node (P : Type) where
  coef : Int
  exp : Int
  next : P

section Program

variable {P : Type} [Zero P] [DecidableEq P]

/-- The loop of `ploy_union`, with `dp`, `sp` and `lp` behind it. -/
def ployUnionLoop : Nat → P → P → P → Act (Nodes P (Node P)) (P × P × P)
  | 0, _, _, _ => spent
  | fuel + 1, dp, sp, lp =>
      if dp ≠ 0 ∧ sp ≠ 0 then do
        let d ← deref dp
        let s ← deref sp
        if d.exp < s.exp then do
          assign lp fun node => { node with next := dp }
          let d ← deref dp
          ployUnionLoop fuel d.next sp dp
        else if d.exp > s.exp then do
          assign lp fun node => { node with next := sp }
          let s ← deref sp
          ployUnionLoop fuel dp s.next sp
        else do
          assign dp fun node => { node with coef := wrap (node.coef + s.coef) }
          let d ← deref dp
          if d.coef ≠ 0 then do
            assign lp fun node => { node with next := dp }
            let d ← deref dp
            let s ← deref sp
            ployUnionLoop fuel d.next s.next dp
          else do
            let s ← deref sp
            ployUnionLoop fuel d.next s.next lp
      else pure (dp, sp, lp)

/-- What comes behind the loop. -/
def ployUnionEnd (dp sp lp : P) : Act (Nodes P (Node P)) Unit :=
  if dp = 0 then assign lp fun node => { node with next := sp }
  else if sp = 0 then assign lp fun node => { node with next := dp }
  else pure ()

/-- `ploy_union(des_p, src_p)` -/
def ployUnion (desP srcP : P) (fuel : Nat) : Act (Nodes P (Node P)) Unit := do
  let des ← deref desP
  let src ← deref srcP
  let (dp, sp, lp) ← ployUnionLoop fuel des.next src.next desP
  ployUnionEnd dp sp lp

end Program

variable {P : Type} {l D S R : List P} {d q x lp lp' : P}

theorem tail_subset : D ++ S ⊆ D ++ q :: S :=
  ((List.sublist_cons_self q S).append_left D).subset

theorem tails_subset : D ++ S ⊆ (d :: D) ++ q :: S :=
  List.Subset.trans tail_subset (List.subset_cons_self d _)

variable [Zero P] {s t u : Nodes P (Node P)}

/-- The terms in the nodes. -/
def terms (s : Nodes P (Node P)) (l : List P) : List (Int × Int) :=
  l.map fun p => ((s.node p).exp, (s.node p).coef)

theorem terms_cons : terms s (d :: l) = ((s.node d).exp, (s.node d).coef) :: terms s l := rfl

theorem terms_congr (same : ∀ p ∈ l, t.node p = s.node p) : terms t l = terms s l :=
  List.map_congr_left fun p mem => by rw [same p mem]

/-! ## The loop -/

/-- Before a round: `lp` is on neither list, and sums are in the range of int. -/
structure Ready (s : Nodes P (Node P)) (lp : P) (D S : List P) : Prop where
  left : Chain Node.next s D 0
  right : Chain Node.next s S 0
  apart : D.Disjoint S
  offLeft : lp ∉ D
  offRight : lp ∉ S
  live : lp ∈ s.live
  fits : ∀ x ∈ terms s D, ∀ y ∈ terms s S, x.1 = y.1 → IsInt (x.2 + y.2)

theorem Ready.tailLeft (ready : Ready s lp (d :: D) S) : Ready s lp D S where
  left := (chain_cons.mp ready.left).2.2.2
  right := ready.right
  apart := (List.disjoint_cons_left.mp ready.apart).2
  offLeft := fun mem => ready.offLeft (List.mem_cons_of_mem d mem)
  offRight := ready.offRight
  live := ready.live
  fits := fun x mem => ready.fits x (List.mem_cons_of_mem _ mem)

theorem Ready.tailRight (ready : Ready s lp D (q :: S)) : Ready s lp D S where
  left := ready.left
  right := (chain_cons.mp ready.right).2.2.2
  apart := (List.disjoint_cons_right.mp ready.apart).2
  offLeft := ready.offLeft
  offRight := fun mem => ready.offRight (List.mem_cons_of_mem q mem)
  live := ready.live
  fits := fun x mem y mem' => ready.fits x mem y (List.mem_cons_of_mem _ mem')

/-- Other nodes may change, and another one may be the last. -/
theorem Ready.congr (ready : Ready s lp D S) (same : ∀ p ∈ D ++ S, t.node p = s.node p)
    (live : t.live = s.live) (last : lp' ∈ s.live) (off : lp' ∉ D ++ S) : Ready t lp' D S := by
  have sameLeft (p : P) (mem : p ∈ D) := same p (List.mem_append_left S mem)
  have sameRight (p : P) (mem : p ∈ S) := same p (List.mem_append_right D mem)
  constructor
  · exact ready.left.congr (fun p mem => by rw [sameLeft p mem]) fun p mem =>
      live ▸ ready.left.live p mem
  · exact ready.right.congr (fun p mem => by rw [sameRight p mem]) fun p mem =>
      live ▸ ready.right.live p mem
  · exact ready.apart
  · exact fun mem => off (List.mem_append_left S mem)
  · exact fun mem => off (List.mem_append_right D mem)
  · exact live ▸ last
  · rw [terms_congr sameLeft, terms_congr sameRight]
    exact ready.fits

/-- The lists `D` and `S` joined behind `lp` into `R`. -/
structure Joined (s t : Nodes P (Node P)) (lp : P) (D S R : List P) : Prop where
  link : t.node lp = { s.node lp with next := R.headD 0 }
  chain : Chain Node.next t R 0
  subset : R ⊆ D ++ S
  frame : ∀ p, p ≠ lp → p ∉ D ++ S → t.node p = s.node p
  live : t.live = s.live
  terms : terms t R = addTerms (terms s D) (terms s S)

variable {D' S' : List P}

/-- The rest joined behind the node `x` that has been taken behind `lp`. -/
theorem Joined.take (joined : Joined t u x D' S' R) (live : t.live = s.live) (last : x ∈ s.live)
    (mem : x ∈ D ++ S) (apart : x ≠ lp) (rest : D' ++ S' ⊆ D ++ S) (off : x ∉ D' ++ S')
    (off' : lp ∉ D' ++ S') (link : t.node lp = { s.node lp with next := x })
    (frame : ∀ p, p ≠ lp → p ∉ D ++ S → t.node p = s.node p)
    (sum : ((t.node x).exp, (t.node x).coef) ::
      addTerms (Ploynoimal.terms t D') (Ploynoimal.terms t S') =
        addTerms (Ploynoimal.terms s D) (Ploynoimal.terms s S)) :
    Joined s u lp D S (x :: R) where
  link := (joined.frame lp apart.symm off').trans link
  chain := by
    refine chain_cons.mpr ⟨?_, congrArg Node.next joined.link, fun mem => ?_, joined.chain⟩
    · rw [joined.live, live]
      exact last
    · exact off (joined.subset mem)
  subset := List.cons_subset.mpr ⟨mem, fun _ mem => rest (joined.subset mem)⟩
  frame := fun p other away => by
    have ne : p ≠ x := fun same => away (same ▸ mem)
    rw [joined.frame p ne fun mem => away (rest mem), frame p other away]
  live := joined.live.trans live
  terms := by rw [terms_cons, joined.link, joined.terms, sum]

/-- A round leads from `s` to `t`: once the rest is joined behind `lp'`, all is behind `lp`. -/
structure Round [DecidableEq P] (s t : Nodes P (Node P)) (lp lp' : P) (D S D' S' : List P) :
    Prop where
  ran : ∀ fuel, ployUnionLoop (fuel + 1) (D.headD 0) (S.headD 0) lp s =
    ployUnionLoop fuel (D'.headD 0) (S'.headD 0) lp' t
  ready : Ready t lp' D' S'
  joined : ∀ {R u}, Joined t u lp' D' S' R → ∃ R', Joined s u lp D S R'

/-- The nodes at the front of both lists. -/
theorem Ready.front (ready : Ready s lp (d :: D) (q :: S)) :
    (d ∈ s.live ∧ d ≠ lp ∧ (s.node d).next = D.headD 0 ∧ d ∉ D ++ q :: S) ∧
      (q ∈ s.live ∧ q ≠ lp ∧ (s.node q).next = S.headD 0 ∧ q ∉ (d :: D) ++ S) := by
  obtain ⟨live, link, off, -⟩ := chain_cons.mp ready.left
  obtain ⟨live', link', off', -⟩ := chain_cons.mp ready.right
  refine ⟨⟨live, fun same => ready.offLeft (same ▸ List.mem_cons_self), link, fun mem => ?_⟩,
    live', fun same => ready.offRight (same ▸ List.mem_cons_self), link', fun mem => ?_⟩
  · rcases List.mem_append.mp mem with inD | inS
    · exact off inD
    · exact ready.apart List.mem_cons_self inS
  · rcases List.mem_append.mp mem with inD | inS
    · exact ready.apart inD List.mem_cons_self
    · exact off' inS

/-- Terms of one exponent are added in the node of the first list. -/
theorem Ready.sum (ready : Ready s lp (d :: D) (q :: S))
    (same : (s.node d).exp = (s.node q).exp) :
    wrap ((s.node d).coef + (s.node q).coef) = (s.node d).coef + (s.node q).coef :=
  wrap_eq (ready.fits _ List.mem_cons_self _ List.mem_cons_self same)

theorem Ready.off (ready : Ready s lp D S) : lp ∉ D ++ S := fun mem =>
  (List.mem_append.mp mem).elim ready.offLeft ready.offRight

variable [DecidableEq P]

theorem round_less (ready : Ready s lp (d :: D) (q :: S))
    (less : (s.node d).exp < (s.node q).exp) :
    ∃ t, Round s t lp d (d :: D) (q :: S) D (q :: S) := by
  obtain ⟨⟨live, apart, next, off⟩, live', -⟩ := ready.front
  have some : d ≠ 0 ∧ q ≠ 0 := ⟨ne_null live, ne_null live'⟩
  have offLp := ready.tailLeft.off
  let t := s.put lp { s.node lp with next := d }
  have here : t.node d = s.node d := put_of_ne apart
  have same (p : P) (mem : p ∈ D ++ q :: S) : t.node p = s.node p :=
    put_of_ne (ne_of_mem_of_not_mem mem offLp)
  refine ⟨t, fun fuel => ?_, ready.tailLeft.congr same rfl live off, fun {R u} joined => ?_⟩
  · rw [List.headD_cons, List.headD_cons, ployUnionLoop, if_pos some, bind_deref live,
      bind_deref live', if_pos less, bind_assign ready.live, bind_deref (by exact live), here, next]
  · refine ⟨d :: R, joined.take rfl live List.mem_cons_self apart (List.subset_cons_self d _) off
      offLp put_self (fun p other _ => put_of_ne other) ?_⟩
    rw [here, terms_congr fun p mem => same p (List.mem_append_left _ mem),
      terms_congr fun p mem => same p (List.mem_append_right _ mem), terms_cons, terms_cons,
      addTerms_less less]

theorem round_greater (ready : Ready s lp (d :: D) (q :: S))
    (greater : (s.node q).exp < (s.node d).exp) :
    ∃ t, Round s t lp q (d :: D) (q :: S) (d :: D) S := by
  obtain ⟨⟨live, -⟩, live', apart, next, off⟩ := ready.front
  have some : d ≠ 0 ∧ q ≠ 0 := ⟨ne_null live, ne_null live'⟩
  have offLp := ready.tailRight.off
  let t := s.put lp { s.node lp with next := q }
  have here : t.node q = s.node q := put_of_ne apart
  have same (p : P) (mem : p ∈ (d :: D) ++ S) : t.node p = s.node p :=
    put_of_ne (ne_of_mem_of_not_mem mem offLp)
  refine ⟨t, fun fuel => ?_, ready.tailRight.congr same rfl live' off, fun {R u} joined => ?_⟩
  · rw [List.headD_cons, List.headD_cons, ployUnionLoop, if_pos some, bind_deref live,
      bind_deref live', if_neg greater.not_gt, if_pos greater, bind_assign ready.live,
      bind_deref (by exact live'), here, next]
  · refine ⟨q :: R, joined.take rfl live' (List.mem_append_right _ List.mem_cons_self) apart
      tail_subset off offLp put_self
      (fun p other _ => put_of_ne other) ?_⟩
    rw [here, terms_congr fun p mem => same p (List.mem_append_left _ mem),
      terms_congr fun p mem => same p (List.mem_append_right _ mem), terms_cons, terms_cons,
      addTerms_greater greater]

theorem round_sum (ready : Ready s lp (d :: D) (q :: S)) (same : (s.node d).exp = (s.node q).exp)
    (some : (s.node d).coef + (s.node q).coef ≠ 0) :
    ∃ t, Round s t lp d (d :: D) (q :: S) D S := by
  obtain ⟨⟨live, apart, next, off⟩, live', apart', next', off'⟩ := ready.front
  have valid : d ≠ 0 ∧ q ≠ 0 := ⟨ne_null live, ne_null live'⟩
  have offLp := ready.tailLeft.tailRight.off
  have offD : d ∉ D ++ S := fun mem => off (tail_subset mem)
  have ne : q ≠ d := fun same => off' (same ▸ List.mem_cons_self)
  let t := (s.put d { s.node d with coef := (s.node d).coef + (s.node q).coef }).put lp
    { s.node lp with next := d }
  have here : t.node d = { s.node d with coef := (s.node d).coef + (s.node q).coef } := by
    rw [put_of_ne apart, put_self]
  have there : t.node q = s.node q := by rw [put_of_ne apart', put_of_ne ne]
  have rest (p : P) (mem : p ∈ D ++ S) : t.node p = s.node p := by
    rw [put_of_ne (ne_of_mem_of_not_mem mem offLp), put_of_ne (ne_of_mem_of_not_mem mem offD)]
  refine ⟨t, fun fuel => ?_, ready.tailLeft.tailRight.congr rest rfl live offD,
    fun {R u} joined => ?_⟩
  · rw [List.headD_cons, List.headD_cons, ployUnionLoop, if_pos valid, bind_deref live,
      bind_deref live', if_neg same.not_lt, if_neg same.not_gt, bind_assign live,
      bind_deref (by exact live), put_self, ready.sum same, if_pos some,
      bind_assign (by exact ready.live), put_of_ne apart.symm, bind_deref (by exact live),
      bind_deref (by exact live')]
    exact congrArg₂ (ployUnionLoop fuel · · d t) ((congrArg Node.next here).trans next)
      ((congrArg Node.next there).trans next')
  · refine ⟨d :: R, joined.take rfl live List.mem_cons_self apart
      tails_subset offD
      offLp put_self (fun p other away => ?_) ?_⟩
    · rw [put_of_ne other, put_of_ne (ne_of_mem_of_not_mem List.mem_cons_self away).symm]
    · rw [here, terms_congr fun p mem => rest p (List.mem_append_left _ mem),
        terms_congr fun p mem => rest p (List.mem_append_right _ mem), terms_cons, terms_cons,
        addTerms_same same, if_pos some]

theorem round_cancel (ready : Ready s lp (d :: D) (q :: S))
    (same : (s.node d).exp = (s.node q).exp)
    (none : (s.node d).coef + (s.node q).coef = 0) :
    ∃ t, Round s t lp lp (d :: D) (q :: S) D S := by
  obtain ⟨⟨live, apart, next, off⟩, live', apart', next', off'⟩ := ready.front
  have valid : d ≠ 0 ∧ q ≠ 0 := ⟨ne_null live, ne_null live'⟩
  have offLp := ready.tailLeft.tailRight.off
  have offD : d ∉ D ++ S := fun mem => off (tail_subset mem)
  have ne : q ≠ d := fun same => off' (same ▸ List.mem_cons_self)
  let t := s.put d { s.node d with coef := (s.node d).coef + (s.node q).coef }
  have there : t.node q = s.node q := put_of_ne ne
  have last : t.node lp = s.node lp := put_of_ne apart.symm
  have rest (p : P) (mem : p ∈ D ++ S) : t.node p = s.node p :=
    put_of_ne (ne_of_mem_of_not_mem mem offD)
  refine ⟨t, fun fuel => ?_, ready.tailLeft.tailRight.congr rest rfl ready.live offLp,
    fun {R u} joined => ⟨R, ?_, joined.chain, ?_, fun p other away => ?_, joined.live, ?_⟩⟩
  · rw [List.headD_cons, List.headD_cons, ployUnionLoop, if_pos valid, bind_deref live,
      bind_deref live', if_neg same.not_lt, if_neg same.not_gt, bind_assign live,
      bind_deref (by exact live), put_self, ready.sum same, if_neg (not_not.mpr none),
      bind_deref (by exact live')]
    exact congrArg₂ (ployUnionLoop fuel · · lp t) next ((congrArg Node.next there).trans next')
  · rw [joined.link, last]
  · exact fun p mem => tails_subset (joined.subset mem)
  · rw [joined.frame p other fun mem => away (tails_subset mem),
      put_of_ne (ne_of_mem_of_not_mem List.mem_cons_self away).symm]
  · rw [joined.terms, terms_congr fun p mem => rest p (List.mem_append_left _ mem),
      terms_congr fun p mem => rest p (List.mem_append_right _ mem), terms_cons, terms_cons,
      addTerms_same same, if_neg (by simpa using none)]

/-- When one of the lists is at its end, the other one is linked behind `lp`. -/
theorem Ready.rest (ready : Ready s lp D S) (past : D = [] ∨ S = []) :
    ∃ R t, (∀ fuel, 0 < fuel → (ployUnionLoop fuel (D.headD 0) (S.headD 0) lp >>=
        fun r => ployUnionEnd r.1 r.2.1 r.2.2) s = .ended () t) ∧ Joined s t lp D S R := by
  rcases D with _ | ⟨d, D⟩
  · let t := s.put lp { s.node lp with next := S.headD 0 }
    refine ⟨S, t, fun fuel enough => ?_, put_self, ready.right.put_off ready.offRight,
      List.Subset.refl S, fun p other _ => put_of_ne other, rfl, ?_⟩
    · obtain ⟨fuel, rfl⟩ := Nat.exists_eq_add_one.mpr enough
      rw [ployUnionLoop, if_neg fun both => both.1 rfl]
      change ployUnionEnd 0 (S.headD 0) lp s = _
      rw [ployUnionEnd, if_pos rfl]
      exact if_pos ready.live
    · rw [terms_congr fun p mem => put_of_ne (ne_of_mem_of_not_mem mem ready.offRight)]
      exact nil_addTerms.symm
  · obtain rfl : S = [] := past.resolve_left (List.cons_ne_nil d D)
    have some : d ≠ 0 := ne_null (ready.left.live d List.mem_cons_self)
    let t := s.put lp { s.node lp with next := d }
    refine ⟨d :: D, t, fun fuel enough => ?_, put_self, ready.left.put_off ready.offLeft,
      List.subset_append_left _ _, fun p other _ => put_of_ne other, rfl, ?_⟩
    · obtain ⟨fuel, rfl⟩ := Nat.exists_eq_add_one.mpr enough
      rw [ployUnionLoop, if_neg fun both => both.2 rfl]
      change ployUnionEnd d 0 lp s = _
      rw [ployUnionEnd, if_neg some, if_pos rfl]
      exact if_pos ready.live
    · rw [terms_congr fun p mem => put_of_ne (ne_of_mem_of_not_mem mem ready.offLeft)]
      exact addTerms_nil.symm

/-- The loop and what is behind it. -/
theorem Ready.union {n : Nat} (ready : Ready s lp D S) (size : D.length + S.length ≤ n) :
    ∃ R t, (∀ fuel, n < fuel → (ployUnionLoop fuel (D.headD 0) (S.headD 0) lp >>=
        fun r => ployUnionEnd r.1 r.2.1 r.2.2) s = .ended () t) ∧ Joined s t lp D S R := by
  induction n generalizing s lp D S with
  | zero => exact ready.rest (.inl (List.length_eq_zero_iff.mp (by omega)))
  | succ n ih =>
      have step {t lp' D' S'} (round : Round s t lp lp' D S D' S')
          (less : D'.length + S'.length < D.length + S.length) :
          ∃ R u, (∀ fuel, n + 1 < fuel → (ployUnionLoop fuel (D.headD 0) (S.headD 0) lp >>=
            fun r => ployUnionEnd r.1 r.2.1 r.2.2) s = .ended () u) ∧ Joined s u lp D S R := by
        obtain ⟨R, u, ran, joined⟩ := ih round.ready (by omega)
        obtain ⟨R', joined'⟩ := round.joined joined
        refine ⟨R', u, fun fuel enough => ?_, joined'⟩
        obtain ⟨fuel, rfl⟩ := Nat.exists_eq_add_one.mpr (Nat.zero_lt_of_lt enough)
        exact (bind_congr (round.ran fuel)).trans (ran fuel (by omega))
      rcases D with _ | ⟨d, D⟩
      · obtain ⟨R, t, ran, joined⟩ := ready.rest (.inl rfl)
        exact ⟨R, t, fun fuel enough => ran fuel (Nat.zero_lt_of_lt enough), joined⟩
      rcases S with _ | ⟨q, S⟩
      · obtain ⟨R, t, ran, joined⟩ := ready.rest (.inr rfl)
        exact ⟨R, t, fun fuel enough => ran fuel (Nat.zero_lt_of_lt enough), joined⟩
      rcases lt_trichotomy (s.node d).exp (s.node q).exp with less | same | greater
      · obtain ⟨t, round⟩ := round_less ready less
        exact step round (by simp)
      · rcases eq_or_ne ((s.node d).coef + (s.node q).coef) 0 with none | some
        · obtain ⟨t, round⟩ := round_cancel ready same none
          exact step round (by simp; omega)
        · obtain ⟨t, round⟩ := round_sum ready same some
          exact step round (by simp; omega)
      · obtain ⟨t, round⟩ := round_greater ready greater
        exact step round (by simp)

/-- `des` is left with a proper list of terms that stands for the sum of the polynomials. -/
theorem ployUnion_adds {desP srcP : P} (des : Chain Node.next s (desP :: D) 0)
    (src : Chain Node.next s (srcP :: S) 0) (apart : (desP :: D).Disjoint (srcP :: S))
    (left : Proper (terms s D)) (right : Proper (terms s S))
    (fits : ∀ x ∈ terms s D, ∀ y ∈ terms s S, x.1 = y.1 → IsInt (x.2 + y.2)) :
    ∃ R t, (∀ fuel, D.length + S.length < fuel → ployUnion desP srcP fuel s = .ended () t) ∧
      Chain Node.next t (desP :: R) 0 ∧ Proper (terms t R) ∧
      (poly (terms t R) : LaurentPolynomial Int) = poly (terms s D) + poly (terms s S) := by
  obtain ⟨live, link, off, chain⟩ := chain_cons.mp des
  obtain ⟨live', link', off', chain'⟩ := chain_cons.mp src
  have ready : Ready s desP D S :=
    ⟨chain, chain', fun p mem mem' => apart (List.mem_cons_of_mem _ mem)
      (List.mem_cons_of_mem _ mem'), off, fun mem => apart List.mem_cons_self
      (List.mem_cons_of_mem _ mem), live, fits⟩
  obtain ⟨R, t, ran, joined⟩ := ready.union (Nat.le_refl _)
  refine ⟨R, t, fun fuel enough => ?_, ?_, ?_, ?_⟩
  · rw [ployUnion, bind_deref live, bind_deref live', link, link']
    exact ran fuel enough
  · refine chain_cons.mpr ⟨joined.live ▸ live, congrArg Node.next joined.link, fun mem => ?_,
      joined.chain⟩
    exact ready.off (joined.subset mem)
  · rw [joined.terms]
    exact left.addTerms right
  · rw [joined.terms]
    exact poly_addTerms _ _

/-- Two terms of exponent 1 are added, and two of exponent 8 cancel. -/
theorem ployUnion_adds_main :
    let node : Nat → Node Nat := fun p => [⟨0, 0, 0⟩, ⟨0, 0, 2⟩, ⟨5, 0, 3⟩, ⟨2, 1, 4⟩, ⟨8, 8, 5⟩,
      ⟨3, 16, 0⟩, ⟨0, 0, 7⟩, ⟨6, 1, 8⟩, ⟨16, 6, 9⟩, ⟨-8, 8, 0⟩].getD p ⟨0, 0, 0⟩
    let s : Nodes Nat (Node Nat) := ⟨node, {1, 2, 3, 4, 5, 6, 7, 8, 9}, by decide, []⟩
    ∃ R t, ployUnion 1 6 8 s = .ended () t ∧ Chain Node.next t (1 :: R) 0 ∧ Proper (terms t R) ∧
      (poly (terms t R) : LaurentPolynomial Int) =
        poly (terms s [2, 3, 4, 5]) + poly (terms s [7, 8, 9]) := by
  intro node s
  obtain ⟨R, t, ran, rest⟩ := @ployUnion_adds Nat [2, 3, 4, 5] [7, 8, 9] _ s _ 1 6
    ⟨by simp [Lib.Path, s, node], by decide, by decide⟩
    ⟨by simp [Lib.Path, s, node], by decide, by decide⟩
    (List.disjoint_left.mpr (by decide)) ⟨by decide, by decide⟩ ⟨by decide, by decide⟩ (by decide)
  exact ⟨R, t, ran 8 (by decide), rest⟩

end Shang.Ploynoimal
