import Shang.Stack.ComputerTrace

/-!
# When no call of the calculator fails

What the calculator does with any well-formed expression over non-negative
literals. It pushes no literal 0, and it pushes on a full stack when more than
`MAXSIZE` operators or operands wait, which `Needs` counts. Otherwise it pushes
every literal once and no call fails, `disciplined_iff`, unless an operation that
has no result stops it before the last literal.
-/

namespace Shang.Computer

open Shang.Lib

/-- Infix notation over non-negative decimal literals. -/
def nonnegGrammar : Grammar UInt8 Arith Nat :=
  { infixGrammar with literal := fun w n => w ≠ [] ∧ w.all isdigit = true ∧ decimal w = n }

namespace Machine

variable (m : Machine)

/-- What `compute` makes of a left and a right operand; it adds the other way round. -/
def operate (op : Arith) (x y : Int) : Option Int :=
  match op with
  | .add => m.arith .add y x
  | op => m.arith op x y

/-- The value of an expression on the machine. -/
def value (t : Expr Arith Nat) : Option Int :=
  t.eval m.operate fun n : Nat => if IsInt n then some (n : Int) else none

/-- Every literal is an `int`, and what is computed before the last one has a result. -/
def Early : Expr Arith Nat → Prop
  | .lit n => IsInt n
  | .bin _ l r => (m.value l).isSome = true ∧ Early r

/-- The run on the expression pushes its literals, each once and in order, and no call fails. -/
def Disciplined (fuel : Nat) (e : List UInt8) (t : Expr Arith Nat) (op num : Nat → Int) : Prop :=
  ¬ (m.main fuel e (.start op num)).Cut ∧
    (∀ c ∈ (m.main fuel e (.start op num)).state.calls, c.ret = 0) ∧
    (m.main fuel e (.start op num)).state.calls.filterMap Call.literal =
      t.literals.map fun n : Nat => (n : Int)

variable {m} {s t : Conf} {T nums : List Int} {x y data : Int} {fuel : Nat} {op : Arith}
  {ops : List Arith}

/-! ## Applying operators -/

/-- The pending operators give these numbers, or applying them stops. No call fails. -/
def Applies {α : Type} (s : Conf) (T : List Int) (o : Outcome Conf α) : Option (List Int) → Prop
  | some nums => ∃ a t, o = .ended a t ∧ At t T nums ∧ Sound s [] t
  | none => ∃ t, o = .stopped t ∧ Sound s [] t

theorem Applies.from {α : Type} {o : Outcome Conf α} {r : Option (List Int)}
    (h : Applies t T o r) (sound : Sound s [] t) : Applies s T o r := by
  cases r with
  | none =>
      obtain ⟨u, stopped, later⟩ := h
      exact ⟨u, stopped, sound.then later⟩
  | some nums =>
      obtain ⟨a, u, ended, holds, later⟩ := h
      exact ⟨a, u, ended, holds, sound.then later⟩

theorem result_code (op : Arith) (x y : Int) :
    m.result (code op) y x = .ofOption (m.operate op x y) := by
  cases op <;> rfl

theorem compute_applies (op : Arith) (h : At s T (y :: x :: nums)) :
    Applies s T (m.compute (code op) s) ((m.operate op x y).map (· :: nums)) := by
  obtain ⟨s₁, pop₁, h₁, sound₁⟩ := h.popNum (m.junk s.calls.length)
  obtain ⟨s₂, pop₂, h₂, sound₂⟩ := h₁.popNum (m.junk s₁.calls.length)
  have room := h.stNum.fits
  rw [List.length_cons, List.length_cons] at room
  have ran : m.compute (code op) s = (m.result (code op) y x >>= callPush .num none) s₂ := by
    rw [compute, Act.bind_ended (m.unset_eq s), Act.bind_ended pop₁,
      Act.bind_ended (m.unset_eq s₁), Act.bind_ended pop₂]
  rw [ran, result_code]
  cases m.operate op x y with
  | none => exact ⟨s₂, Act.bind_stopped rfl, sound₁.then sound₂⟩
  | some z =>
      obtain ⟨s₃, pushed, h₃, sound₃⟩ := h₂.pushNum (show nums.length < MAXSIZE by omega) none z
      exact ⟨(), s₃, (Act.bind_ended rfl).trans pushed, h₃, (sound₁.then sound₂).then sound₃⟩

/-- Every loop pops an operator, applies it and goes on. -/
theorem applies_top {α : Type} {T' : List Int} {f : Int → Act Conf α}
    (h : At s (code op :: T) (y :: x :: nums))
    (rest : ∀ z t, At t T (z :: nums) →
      Applies t T' (f (code op) t) (reduce m.operate ops (z :: nums))) :
    Applies s T' ((callPop .op data >>= fun old => m.compute old >>= fun _ => f old) s)
      (reduce m.operate (op :: ops) (y :: x :: nums)) := by
  obtain ⟨s₁, popped, h₁, sound₁⟩ := h.popOp data
  rw [Act.bind_ended popped, reduce]
  have computed := compute_applies (m := m) op h₁
  cases result : m.operate op x y with
  | none =>
      rw [result] at computed
      obtain ⟨s₂, stopped, sound₂⟩ := computed
      exact ⟨s₂, Act.bind_stopped stopped, sound₁.then sound₂⟩
  | some z =>
      rw [result] at computed
      obtain ⟨_, s₂, ended, h₂, sound₂⟩ := computed
      rw [Act.bind_ended ended]
      exact (rest z s₂ h₂).from (sound₁.then sound₂)

/-- An operator that waits finds its operands. -/
theorem exists_operands (count : (op :: ops).length < nums.length) :
    ∃ y x rest, nums = y :: x :: rest ∧ ops.length < (x :: rest).length := by
  match nums, count with
  | y :: x :: rest, count => exact ⟨y, x, rest, rfl, Nat.lt_of_succ_lt_succ count⟩

/-- `deal_bracket` from its `st_top` on, and what it does in each round from there. -/
theorem bracketLoop_applies (data : Int) (h : At s (ops.map code ++ 40 :: T) nums)
    (count : ops.length < nums.length) (enough : ops.length < fuel) :
    Applies s (40 :: T) ((callTop .op data >>= m.bracketLoop fuel) s)
      (reduce m.operate ops nums) := by
  induction ops generalizing s nums data fuel with
  | nil =>
      obtain ⟨fuel, rfl⟩ : ∃ f, fuel = f + 1 := ⟨fuel - 1, by simp at enough; omega⟩
      obtain ⟨t, read, ht, sound⟩ := At.topOp h data
      rw [Act.bind_ended read]
      exact ⟨40, t, rfl, ht, sound⟩
  | cons op ops ih =>
      obtain ⟨fuel, rfl⟩ : ∃ f, fuel = f + 1 := ⟨fuel - 1, by omega⟩
      obtain ⟨y, x, rest, rfl, fewer⟩ := exists_operands count
      obtain ⟨t, read, ht, sound⟩ := At.topOp h data
      rw [Act.bind_ended read, bracketLoop, if_pos (code_ne_bracket op)]
      refine Applies.from (applies_top ht fun z u hu => ?_) sound
      exact ih _ hu fewer (Nat.lt_of_succ_lt_succ enough)

/-- The right bracket applies what waits behind the left one, which goes. -/
theorem dealBracket_applies (data : Int) (h : At s (ops.map code ++ 40 :: T) nums)
    (count : ops.length < nums.length) (enough : ops.length < fuel) :
    Applies s T (m.dealBracket fuel data s) (reduce m.operate ops nums) := by
  have looped := bracketLoop_applies (m := m) data h count enough
  have ran : m.dealBracket fuel data s = ((callTop .op data >>= m.bracketLoop fuel) >>=
      fun old => callPop .op old >>= fun _ => pure ()) s := (Act.bind_assoc _ _ _ s).symm
  rw [ran]
  cases reduced : reduce m.operate ops nums with
  | none =>
      rw [reduced] at looped
      obtain ⟨t, stopped, sound⟩ := looped
      exact ⟨t, Act.bind_stopped stopped, sound⟩
  | some nums' =>
      rw [reduced] at looped
      obtain ⟨old, t, ended, ht, sound⟩ := looped
      obtain ⟨u, popped, hu, sound'⟩ := ht.popOp old
      exact ⟨(), u, (Act.bind_ended ended).trans (Act.bind_ended popped), hu, sound.then sound'⟩

/-- `deal_op` from the `st_top` before its loop on. -/
theorem opLoop_applies (data : Int) (pending : ops ≠ []) (h : At s (ops.map code ++ T) nums)
    (strong : ∀ o ∈ ops, op.prec ≤ o.prec) (waits : ∀ t ∈ T.head?, getPri t ≤ op.prec)
    (count : ops.length < nums.length) (enough : ops.length < fuel) :
    Applies s T ((callTop .op data >>= m.opLoop (code op) fuel) s)
      (reduce m.operate ops nums) := by
  induction ops generalizing s nums data fuel with
  | nil => exact absurd rfl pending
  | cons o ops ih =>
      obtain ⟨fuel, rfl⟩ : ∃ f, fuel = f + 1 := ⟨fuel - 1, by omega⟩
      obtain ⟨y, x, rest, rfl, fewer⟩ := exists_operands count
      obtain ⟨t, read, ht, sound⟩ := At.topOp h data
      have binds : getPri (code op) ≤ getPri (code o) := by
        rw [getPri_code, getPri_code]
        exact Nat.succ_le_succ (strong o List.mem_cons_self)
      rw [Act.bind_ended read, opLoop, if_pos binds]
      refine Applies.from (applies_top ht fun z u hu => ?_) sound
      rw [Act.bind_ended (isempty_eq u)]
      cases ops with
      | cons o' ops =>
          have stored : stIsempty u.stOp = false := Holds.stIsempty_cons hu.stOp
          rw [stored, if_neg Bool.false_ne_true]
          exact ih _ (List.cons_ne_nil _ _) hu
            (fun o mem => strong o (List.mem_cons_of_mem _ mem)) fewer
            (Nat.lt_of_succ_lt_succ enough)
      | nil =>
          cases T with
          | nil =>
              rw [Holds.stIsempty_nil hu.stOp, if_pos rfl]
              exact ⟨(), u, rfl, hu, .refl u⟩
          | cons t T =>
              obtain ⟨fuel, rfl⟩ : ∃ f, fuel = f + 1 := ⟨fuel - 1, by simp at enough; omega⟩
              have weak : ¬ getPri (code op) ≤ getPri t := by
                have := waits t rfl
                rw [getPri_code]
                omega
              have stored : stIsempty u.stOp = false := Holds.stIsempty_cons hu.stOp
              obtain ⟨v, read', hv, sound'⟩ := At.topOp hu (code o)
              rw [stored, if_neg Bool.false_ne_true, Act.bind_ended read', opLoop, if_neg weak]
              exact ⟨(), v, rfl, hv, sound'⟩

/-- These literals were pushed, and the pending operators applied, or that stopped; then the
program goes on like `rest`. -/
def AppliesThen {α : Type} (s : Conf) (lits T : List Int) (o : Outcome Conf α)
    (rest : Act Conf α) : Option (List Int) → Prop
  | some nums => ∃ t, o = rest t ∧ At t T nums ∧ Sound s lits t
  | none => ∃ t, o = .stopped t ∧ Sound s lits t

theorem Applies.then {α β : Type} {x : Act Conf α} {r : Option (List Int)}
    (h : Applies s T (x s) r) (rest : Act Conf β) :
    AppliesThen s [] T ((x >>= fun _ => rest) s) rest r := by
  cases r with
  | none =>
      obtain ⟨t, stopped, sound⟩ := h
      exact ⟨t, Act.bind_stopped stopped, sound⟩
  | some nums =>
      obtain ⟨a, t, ended, holds, sound⟩ := h
      exact ⟨t, Act.bind_ended ended, holds, sound⟩

theorem AppliesThen.bind {α β : Type} {x : Act Conf α} {rest : Act Conf α} {f : α → Act Conf β}
    {lits : List Int} {r : Option (List Int)} (h : AppliesThen s lits T (x s) rest r) :
    AppliesThen s lits T ((x >>= f) s) (rest >>= f) r := by
  cases r with
  | none =>
      obtain ⟨t, stopped, sound⟩ := h
      exact ⟨t, Act.bind_stopped stopped, sound⟩
  | some nums =>
      obtain ⟨t, goes, holds, sound⟩ := h
      exact ⟨t, Act.bind_congr goes, holds, sound⟩

theorem AppliesThen.from {α : Type} {o : Outcome Conf α} {rest : Act Conf α} {lits : List Int}
    {r : Option (List Int)} (h : AppliesThen t [] T o rest r) (sound : Sound s lits t) :
    AppliesThen s lits T o rest r := by
  cases r with
  | none =>
      obtain ⟨u, stopped, later⟩ := h
      exact ⟨u, stopped, sound.then later⟩
  | some nums =>
      obtain ⟨u, goes, holds, later⟩ := h
      exact ⟨u, goes, holds, sound.then later⟩

/-- An operator applies the pending ones that do not bind less, and is pushed. -/
theorem dealOp_applies (h : At s (ops.map code ++ T) nums)
    (strong : ∀ o ∈ ops, op.prec ≤ o.prec) (waits : ∀ t ∈ T.head?, getPri t ≤ op.prec)
    (count : ops.length < nums.length) (enough : ops.length < fuel) :
    AppliesThen s [] T (m.dealOp fuel (code op) s) (callPush .op none (code op))
      (reduce m.operate ops nums) := by
  rw [dealOp, Act.bind_ended (isempty_eq s)]
  cases ops with
  | nil =>
      cases T with
      | nil =>
          rw [if_pos (.inl (Holds.stIsempty_nil h.stOp))]
          exact ⟨s, rfl, h, .refl s⟩
      | cons t T =>
          have stored : stIsempty s.stOp = false := Holds.stIsempty_cons h.stOp
          have weak : getPri (code op) > getPri t := by
            have := waits t rfl
            rw [getPri_code]
            omega
          obtain ⟨u, read, hu, sound⟩ := At.topOp h (m.junk s.calls.length)
          rw [if_neg (by simp [stored, code_ne_bracket]), Act.bind_ended (m.unset_eq s),
            Act.bind_ended read, if_pos weak]
          exact ⟨u, rfl, hu, sound⟩
  | cons o ops =>
      have stored : stIsempty s.stOp = false := Holds.stIsempty_cons h.stOp
      have binds : ¬ getPri (code op) > getPri (code o) := by
        have := strong o List.mem_cons_self
        rw [getPri_code, getPri_code]
        omega
      obtain ⟨u, read, hu, sound⟩ := At.topOp h (m.junk s.calls.length)
      have looped := (opLoop_applies (m := m) (m.junk s.calls.length)
        (List.cons_ne_nil o ops) h strong waits count enough).then (callPush .op none (code op))
      rw [Act.bind_assoc, Act.bind_ended read] at looped
      rw [if_neg (by simp [stored, code_ne_bracket]), Act.bind_ended (m.unset_eq s),
        Act.bind_ended read, if_neg binds]
      exact looped

/-- The loop at the end applies what waits. -/
theorem endLoop_applies (h : At s (ops.map code) nums) (count : ops.length < nums.length)
    (enough : ops.length < fuel) :
    Applies s [] (m.endLoop fuel s) (reduce m.operate ops nums) := by
  induction ops generalizing s nums fuel with
  | nil =>
      obtain ⟨fuel, rfl⟩ : ∃ f, fuel = f + 1 := ⟨fuel - 1, by simp at enough; omega⟩
      rw [endLoop, Act.bind_ended (isempty_eq s), if_pos (Holds.stIsempty_nil h.stOp)]
      exact ⟨(), s, rfl, h, .refl s⟩
  | cons op ops ih =>
      obtain ⟨fuel, rfl⟩ : ∃ f, fuel = f + 1 := ⟨fuel - 1, by omega⟩
      obtain ⟨y, x, rest, rfl, fewer⟩ := exists_operands count
      have stored : stIsempty s.stOp = false := Holds.stIsempty_cons h.stOp
      rw [endLoop, Act.bind_ended (isempty_eq s), stored, if_neg Bool.false_ne_true,
        Act.bind_ended (m.unset_eq s)]
      exact applies_top h fun z u hu => ih hu fewer (Nat.lt_of_succ_lt_succ enough)

/-! ## Reading an expression -/

/-- The literal that was read and is not pushed yet. -/
def unpushed (val : Int) : List Int := if val ≠ 0 then [val] else []

variable {val : Int} {str : List UInt8} {c : UInt8} {stored : List Int}

theorem callVal_room (h : At s T stored) (room : (unpushed val ++ stored).length ≤ MAXSIZE) :
    ∃ t, callVal val s = .ended 0 t ∧ At t T (unpushed val ++ stored) ∧
      Sound s (unpushed val) t := by
  unfold unpushed at room ⊢
  rw [callVal]
  split at room
  · next nonzero =>
      obtain ⟨t, pushed, ht, sound⟩ := h.pushNum room (some val) val
      rw [if_pos nonzero, if_pos nonzero, Act.bind_ended pushed]
      exact ⟨t, rfl, ht, sound⟩
  · next zero =>
      rw [if_neg zero, if_neg zero, not_not.mp zero]
      exact ⟨s, rfl, h, .refl s⟩

theorem failed_after (s : Conf) (p : Place) (st : SK) (literal : Option Int) :
    (s.after p st ⟨literal, -1⟩).Failed := by
  refine ⟨⟨literal, -1⟩, ?_, show (-1 : Int) ≠ 0 by decide⟩
  rw [Conf.calls_after]
  exact List.mem_append_right _ (List.mem_singleton.mpr rfl)

theorem callVal_full (h : At s T stored) (full : ¬ (unpushed val ++ stored).length ≤ MAXSIZE) :
    ∃ t, callVal val s = .ended 0 t ∧ t.Failed := by
  have fits := h.stNum.fits
  have nonzero : val ≠ 0 := by
    intro zero
    rw [unpushed, if_neg (not_not.mpr zero)] at full
    exact full fits
  rw [unpushed, if_pos nonzero, List.singleton_append, List.length_cons] at full
  have refused := h.stNum.stPush_full (show stored.length = MAXSIZE by omega) val
  refine ⟨s.after .num s.stNum ⟨some val, -1⟩, ?_, failed_after s .num s.stNum (some val)⟩
  have called : callPush .num (some val) val s =
      .ended () (s.after .num s.stNum ⟨some val, -1⟩) := by
    rw [callPush, Conf.stack, refused]
  rw [callVal, if_pos nonzero]
  exact Act.bind_ended called

theorem mainLoop_sign (other : isdigit c = false) :
    m.mainLoop fuel (c :: str) val s = (callVal val >>= fun val =>
      m.deal fuel c str.length >>= fun _ => m.mainLoop fuel str val) s := by
  rw [mainLoop, other, if_neg Bool.false_ne_true]

/-- There is no room for the literal in front of the sign. -/
theorem sign_full (fuel : Nat) (str : List UInt8) (other : isdigit c = false) (h : At s T stored)
    (full : ¬ (unpushed val ++ stored).length ≤ MAXSIZE) :
    (m.mainLoop fuel (c :: str) val s).state.Failed := by
  obtain ⟨t, called, failed⟩ := callVal_full h full
  rw [mainLoop_sign other, Act.bind_ended called]
  have later : Act.Keeps Grows (m.deal fuel c str.length >>= fun _ => m.mainLoop fuel str 0) :=
    .bind Grows.trans (m.grows_deal fuel c str.length) fun _ =>
      m.grows_mainLoop fuel str isInt_zero
  exact failed.grows (later t)

theorem sign_room (fuel : Nat) (str : List UInt8) (other : isdigit c = false) (h : At s T stored)
    (room : (unpushed val ++ stored).length ≤ MAXSIZE) :
    ∃ t, m.mainLoop fuel (c :: str) val s =
        (m.deal fuel c str.length >>= fun _ => m.mainLoop fuel str 0) t ∧
      At t T (unpushed val ++ stored) ∧ Sound s (unpushed val) t := by
  obtain ⟨t, called, ht, sound⟩ := callVal_room h room
  exact ⟨t, (mainLoop_sign other).trans (Act.bind_ended called), ht, sound⟩

/-- An expression was read: applying what waits on the rest of the stacks gives its value. -/
structure Awaits (m : Machine) (k : Nat) (T nums : List Int) (x : Option Int) (val : Int)
    (s : Conf) (ops : List Arith) (stored : List Int) : Prop where
  holds : At s (ops.map code ++ T) stored
  above : ∀ o ∈ ops, k ≤ o.prec
  count : (unpushed val ++ stored).length = ops.length + nums.length + 1
  value : reduce m.operate ops (unpushed val ++ stored) = x.map (· :: nums)

variable {k : Nat} {v : Option Int}

theorem Awaits.length_lt (h : Awaits m k T nums v val s ops stored) (enough : MAXSIZE < fuel) :
    ops.length < fuel := by
  have fits := h.holds.stOp.fits
  rw [List.length_append, List.length_map] at fits
  omega

theorem Awaits.right (str : List UInt8) (h : Awaits m k (40 :: T) nums v val s ops stored)
    (room : (unpushed val ++ stored).length ≤ MAXSIZE) (enough : MAXSIZE < fuel) :
    AppliesThen s (unpushed val) T (m.mainLoop fuel (41 :: str) val s) (m.mainLoop fuel str 0)
      (v.map (· :: nums)) := by
  obtain ⟨t, read, ht, sound⟩ := sign_room (m := m) fuel str
    (show isdigit 41 = false by decide) h.holds room
  have count := h.count
  have closed := dealBracket_applies (m := m) (m.oldOp str.length) ht (by omega)
    (h.length_lt enough)
  rw [h.value] at closed
  rw [read]
  exact (closed.then (m.mainLoop fuel str 0)).from sound

theorem Awaits.operator (str : List UInt8) (h : Awaits m op.prec T nums v val s ops stored)
    (waits : ∀ c ∈ T.head?, getPri c ≤ op.prec)
    (room : (unpushed val ++ stored).length ≤ MAXSIZE) (enough : MAXSIZE < fuel) :
    AppliesThen s (unpushed val) T (m.mainLoop fuel (op.char :: str) val s)
      (callPush .op none (code op) >>= fun _ => m.mainLoop fuel str 0) (v.map (· :: nums)) := by
  have other : isdigit op.char = false ∧ op.char ≠ 41 := by
    cases op <;> decide
  obtain ⟨t, read, ht, sound⟩ := sign_room (m := m) fuel str other.1 h.holds room
  have count := h.count
  have waited := dealOp_applies (m := m) ht h.above waits (by omega) (h.length_lt enough)
  rw [h.value] at waited
  rw [read, deal, if_neg other.2, signed_char]
  exact waited.bind.from sound

/-- The literals as they are pushed. -/
def pushes (t : Expr Arith Nat) : List Int := t.literals.map fun n : Nat => (n : Int)

/-- There is room for the operators and the operands of an expression. -/
def Fits (T nums : List Int) (o n : Nat) : Prop :=
  T.length + o ≤ MAXSIZE ∧ nums.length + n ≤ MAXSIZE

/-- What reading an expression comes to: the program reads on, it stopped at an operation without a
result, or some call failed. -/
inductive Reading (m : Machine) (fuel : Nat) (str : List UInt8) (k : Nat) (T nums : List Int)
    (t : Expr Arith Nat) (o n : Nat) (s : Conf) : Outcome Conf Int → Prop
  | on {lits : List Int} {val : Int} {s' : Conf} {ops : List Arith} {stored : List Int} :
      Sound s lits s' → lits ++ unpushed val = pushes t →
      Awaits m k T nums (m.value t) val s' ops stored → T.length + o ≤ MAXSIZE →
      (nums.length + n ≤ MAXSIZE ↔ (unpushed val ++ stored).length ≤ MAXSIZE) → m.Early t →
      Reading m fuel str k T nums t o n s (m.mainLoop fuel str val s')
  | halt {lits : List Int} {s' : Conf} : Sound s lits s' → m.value t = none →
      lits.length ≤ t.literals.length → (lits = pushes t ↔ m.Early t) →
      (m.Early t → Fits T nums o n) → Reading m fuel str k T nums t o n s (.stopped s')
  | fail {out : Outcome Conf Int} : out.state.Failed → ¬ Fits T nums o n →
      Reading m fuel str k T nums t o n s out

theorem mainLoop_literal {w : List UInt8} (digits : w.all isdigit = true) (nonneg : 0 ≤ val)
    (int : IsInt (w.foldl addDigit val)) (s : Conf) :
    m.mainLoop fuel (w ++ str) val s = m.mainLoop fuel str (w.foldl addDigit val) s := by
  induction w generalizing val with
  | nil => rfl
  | cons c w ih =>
      rw [List.all_cons, Bool.and_eq_true] at digits
      rw [List.foldl_cons] at int ⊢
      have grown := le_addDigit digits.1 nonneg
      have later := le_foldl digits.2 (Int.le_trans nonneg grown)
      have same : val * 10 + (signed c - 48) = addDigit val c := by
        rw [signed_digit digits.1, addDigit]
      have small : IsInt (val * 10 + (signed c - 48)) := by
        rw [same]
        exact ⟨by omega, Int.le_trans later int.2⟩
      rw [List.cons_append, mainLoop, if_pos digits.1]
      refine (m.ends_digit digits.1 nonneg small s _).trans ?_
      rw [same]
      exact ih digits.2 (Int.le_trans nonneg grown) int

theorem unpushed_pos {n : Nat} (positive : 0 < n) : unpushed n = [(n : Int)] :=
  if_pos (show (n : Int) ≠ 0 by omega)

theorem reading_literal {w : List UInt8} {n : Nat} (word : infixGrammar.literal w n)
    (int : IsInt n) (h : At s T nums) (str : List UInt8) :
    Reading m fuel str 2 T nums (.lit n) 0 1 s (m.mainLoop fuel (w ++ str) 0 s) := by
  obtain ⟨digits, number, positive⟩ := word
  have whole : w.foldl addDigit 0 = n := number
  rw [mainLoop_literal digits (Int.le_refl 0) (by rwa [whole]), whole]
  have value : m.value (.lit n) = some (n : Int) := if_pos int
  have awaits : Awaits m 2 T nums (m.value (.lit n)) n s [] nums := by
    refine ⟨h, by simp, ?_, ?_⟩
    · rw [unpushed_pos positive, List.singleton_append, List.length_cons, List.length_nil,
        Nat.zero_add]
    · rw [unpushed_pos positive, value]
      rfl
  refine .on (.refl s) (unpushed_pos positive) awaits h.stOp.fits ?_ int
  rw [unpushed_pos positive, List.singleton_append, List.length_cons]

theorem pushes_bin (op : Arith) (l r : Expr Arith Nat) :
    pushes (.bin op l r) = pushes l ++ pushes r := List.map_append

theorem length_pushes (t : Expr Arith Nat) : (pushes t).length = t.literals.length :=
  List.length_map _

theorem literals_pos (t : Expr Arith Nat) : 0 < t.literals.length := by
  induction t with
  | lit n => exact Nat.one_pos
  | bin op l r ihl _ =>
      rw [Expr.literals, List.length_append]
      omega

/-- The value is on the stack and nothing waits. -/
theorem awaits_value (h : At s T (x :: nums)) : Awaits m k T nums (some x) 0 s [] (x :: nums) where
  holds := h
  above := by simp
  count := by
    rw [unpushed, if_neg (not_not.mpr rfl), List.nil_append, List.length_cons, List.length_nil,
      Nat.zero_add]
  value := rfl

theorem failed_callPush (full : T.length = MAXSIZE) (h : Holds s.stOp T) (x : Int) :
    ∃ t, callPush .op none x s = .ended () t ∧ t.Failed := by
  refine ⟨s.after .op s.stOp ⟨none, -1⟩, ?_, failed_after s .op s.stOp none⟩
  rw [callPush, Conf.stack, h.stPush_full full x]

/-- An operator is pushed and the program reads on, or there is no room for it. -/
theorem push_or_fail (fuel : Nat) (h : At s T nums) (x : Int) (str : List UInt8) :
    (T.length < MAXSIZE ∧ ∃ t, (callPush .op none x >>= fun _ => m.mainLoop fuel str 0) s =
      m.mainLoop fuel str 0 t ∧ At t (x :: T) nums ∧ Sound s [] t) ∨
    (T.length = MAXSIZE ∧
      ((callPush .op none x >>= fun _ => m.mainLoop fuel str 0) s).state.Failed) := by
  rcases Nat.lt_or_eq_of_le h.stOp.fits with room | full
  · obtain ⟨t, pushed, ht, sound⟩ := h.pushOp room x
    exact .inl ⟨room, t, Act.bind_ended pushed, ht, sound⟩
  · obtain ⟨t, pushed, failed⟩ := failed_callPush full h.stOp x
    refine .inr ⟨full, ?_⟩
    rw [Act.bind_ended pushed]
    exact failed.grows (m.grows_mainLoop fuel str isInt_zero t)

theorem mainLoop_left (str : List UInt8) (s : Conf) :
    m.mainLoop fuel (40 :: str) 0 s =
      (callPush .op none 40 >>= fun _ => m.mainLoop fuel str 0) s := by
  have sign : signed 40 = 40 := by decide
  rw [mainLoop_sign (by decide), callVal, if_neg (not_not.mpr rfl),
    Act.bind_ended (Act.pure_eq 0 s), deal, if_neg (by decide), sign]
  refine Act.bind_congr ?_
  rw [dealOp, Act.bind_ended (isempty_eq s), if_pos (.inr rfl)]

theorem reading_bracket {w : List UInt8} {t : Expr Arith Nat} {o n : Nat}
    (inner : ∀ {s T nums}, At s T nums → (∀ c ∈ T.head?, getPri c ≤ 0) → ∀ str,
      Reading m fuel str 0 T nums t o n s (m.mainLoop fuel (w ++ str) 0 s))
    (enough : MAXSIZE < fuel) (h : At s T nums) (str : List UInt8) :
    Reading m fuel str 2 T nums t (o + 1) n s
      (m.mainLoop fuel (40 :: (w ++ [41]) ++ str) 0 s) := by
  rw [List.cons_append, List.append_assoc, mainLoop_left]
  rcases push_or_fail (m := m) fuel h 40 (w ++ ([41] ++ str)) with
    ⟨room, t₁, pushed, h₁, sound₁⟩ | ⟨full, failed⟩
  · rw [pushed]
    have read := inner h₁ (fun c top => by cases top; exact Nat.le_refl 0) ([41] ++ str)
    generalize m.mainLoop fuel (w ++ ([41] ++ str)) 0 t₁ = out at read ⊢
    have shift : Fits (40 :: T) nums o n → Fits T nums (o + 1) n := by
      rintro ⟨ops, nums⟩
      rw [List.length_cons] at ops
      exact ⟨by omega, nums⟩
    have shift' : Fits T nums (o + 1) n → Fits (40 :: T) nums o n := by
      rintro ⟨ops, nums⟩
      exact ⟨by rw [List.length_cons]; omega, nums⟩
    cases read with
    | fail failed unfit => exact .fail failed fun fits => unfit (shift' fits)
    | halt sound₂ stuck short all early =>
        exact .halt (sound₁.trans sound₂) stuck short all fun h => shift (early h)
    | @on lits val s₂ ops stored sound₂ all awaits roomOp roomNum early =>
        rcases Nat.lt_or_ge MAXSIZE (unpushed val ++ stored).length with full | room
        · refine .fail (sign_full fuel str (by decide) awaits.holds (by omega)) fun fits => ?_
          have := roomNum.mp fits.2
          omega
        · have fits : Fits T nums (o + 1) n := shift ⟨roomOp, roomNum.mpr room⟩
          have closed := awaits.right str room enough
          have through := sound₁.trans sound₂
          rw [List.nil_append] at through
          rw [List.singleton_append]
          cases value : m.value t with
          | none =>
              rw [value] at closed
              obtain ⟨s₃, stopped, sound₃⟩ := closed
              rw [stopped]
              have through := through.trans sound₃
              rw [all] at through
              exact .halt through value (Nat.le_of_eq (length_pushes t))
                (iff_of_true rfl early) fun _ => fits
          | some x =>
              rw [value] at closed
              obtain ⟨s₃, goes, h₃, sound₃⟩ := closed
              rw [goes]
              have through := through.trans sound₃
              rw [all] at through
              have fitsNum := h₃.stNum.fits
              have awaits' : Awaits m 2 T nums (m.value t) 0 s₃ [] (x :: nums) := by
                rw [value]
                exact awaits_value h₃
              exact .on through (List.append_nil _) awaits' fits.1 (iff_of_true fits.2 fitsNum)
                early
  · exact .fail failed fun fits => by
      have := fits.1
      omega

/-- The value of an operation whose left operand has the value `x`. -/
theorem value_bin {l : Expr Arith Nat} (known : m.value l = some x) (r : Expr Arith Nat) :
    m.value (.bin op l r) = (m.value r).bind (m.operate op x) := by
  rw [value] at known
  rw [value, Expr.eval, known, Option.bind_some]
  rfl

/-- An operation whose left operand has no value has none either. -/
theorem value_bin_none {l : Expr Arith Nat} (stuck : m.value l = none) (r : Expr Arith Nat) :
    m.value (.bin op l r) = none ∧ ¬ m.Early (.bin op l r) := by
  rw [Early, stuck]
  refine ⟨?_, fun h => Bool.false_ne_true h.1⟩
  rw [value] at stuck
  rw [value, Expr.eval, stuck, Option.bind_none]

/-- The left operand alone has fewer literals than the operation. -/
theorem ne_pushes_bin {l : Expr Arith Nat} {lits : List Int}
    (short : lits.length ≤ l.literals.length) (r : Expr Arith Nat) :
    lits ≠ pushes (.bin op l r) := by
  intro same
  have some := literals_pos r
  have all := length_pushes (.bin op l r)
  rw [← same, Expr.literals, List.length_append] at all
  omega

/-- What waits behind the right operand waits behind the operation, with its operator. -/
theorem Awaits.operation {l r : Expr Arith Nat} {val : Int} {u : Conf} {ops : List Arith}
    {stored : List Int}
    (awaits : Awaits m (op.prec + 1) (code op :: T) (x :: nums) (m.value r) val u ops stored)
    (known : m.value l = some x) :
    Awaits m op.prec T nums (m.value (.bin op l r)) val u (ops ++ [op]) stored := by
  refine ⟨?_, fun o mem => ?_, ?_, ?_⟩
  · rw [List.map_append, List.append_assoc]
    exact awaits.holds
  · rcases List.mem_append.mp mem with mem | mem
    · exact Nat.le_of_succ_le (awaits.above o mem)
    · rw [List.mem_singleton.mp mem]
  · rw [awaits.count, List.length_append, List.length_cons, List.length_singleton]
    omega
  · rw [reduce_append, awaits.value, value_bin known]
    cases m.value r with
    | none => rfl
    | some y =>
        rw [Option.map_some, Option.bind_some, Option.bind_some, reduce]
        cases m.operate op x y <;> rfl

/-- Reading the right operand, when the left one and the operator are on the stacks. -/
theorem Reading.behind {l r : Expr Arith Nat} {o n o' n' : Nat} {out : Outcome Conf Int}
    (read : Reading m fuel str (op.prec + 1) (code op :: T) (x :: nums) r o' n' t out)
    (before : Sound s (pushes l) t) (known : m.value l = some x) (fits : Fits T nums o n) :
    Reading m fuel str op.prec T nums (.bin op l r) (max o (o' + 1)) (max n (n' + 1)) s out := by
  have both : m.Early (.bin op l r) ↔ m.Early r := by
    rw [Early, known, Option.isSome_some]
    exact and_iff_right rfl
  have shift : Fits (code op :: T) (x :: nums) o' n' ↔
      Fits T nums (max o (o' + 1)) (max n (n' + 1)) := by
    obtain ⟨fitsOp, fitsNum⟩ := fits
    rw [Fits, Fits, List.length_cons, List.length_cons]
    omega
  cases read with
  | fail failed unfit => exact .fail failed fun fits => unfit (shift.mpr fits)
  | @halt lits u sound stuck short all early =>
      refine .halt (before.trans sound) ?_ ?_ ?_ fun h => shift.mp (early (both.mp h))
      · rw [value_bin known, stuck, Option.bind_none]
      · rw [Expr.literals, List.length_append, List.length_append, length_pushes]
        exact Nat.add_le_add_left short _
      · rw [pushes_bin, List.append_cancel_left_eq, both]
        exact all
  | @on lits val u ops stored sound all awaits roomOp roomNum early =>
      rw [List.length_cons] at roomOp roomNum
      refine .on (before.trans sound) ?_ (awaits.operation known) ?_ ?_ (both.mpr early)
      · rw [List.append_assoc, all, pushes_bin]
      · have := fits.1
        omega
      · have := fits.2
        omega

theorem reading_binary {u w : List UInt8} {l r : Expr Arith Nat} {o n o' n' : Nat}
    (left : ∀ str, Reading m fuel str op.prec T nums l o n s (m.mainLoop fuel (u ++ str) 0 s))
    (right : ∀ {s T nums}, At s T nums → (∀ c ∈ T.head?, getPri c ≤ op.prec + 1) → ∀ str,
      Reading m fuel str (op.prec + 1) T nums r o' n' s (m.mainLoop fuel (w ++ str) 0 s))
    (enough : MAXSIZE < fuel) (waits : ∀ c ∈ T.head?, getPri c ≤ op.prec) (str : List UInt8) :
    Reading m fuel str op.prec T nums (.bin op l r) (max o (o' + 1)) (max n (n' + 1)) s
      (m.mainLoop fuel (u ++ op.char :: w ++ str) 0 s) := by
  rw [List.append_assoc, List.cons_append]
  have read := left (op.char :: (w ++ str))
  generalize m.mainLoop fuel (u ++ op.char :: (w ++ str)) 0 s = out at read ⊢
  have longer : l.literals.length < (Expr.bin op l r).literals.length := by
    have := literals_pos r
    rw [Expr.literals, List.length_append]
    omega
  cases read with
  | fail failed unfit =>
      refine .fail failed fun fits => unfit ?_
      exact ⟨by have := fits.1; omega, by have := fits.2; omega⟩
  | halt sound stuck short all early =>
      obtain ⟨stuck, late⟩ := value_bin_none stuck r
      exact .halt sound stuck (by omega) (iff_of_false (ne_pushes_bin short r) late)
        fun h => absurd h late
  | @on lits val s₁ ops stored sound all awaits roomOp roomNum early =>
      rcases Nat.lt_or_ge MAXSIZE (unpushed val ++ stored).length with full | room
      · have other : isdigit op.char = false := by
          cases op <;> decide
        refine .fail (sign_full fuel _ other awaits.holds (by omega)) fun fits => ?_
        have := roomNum.mp (by have := fits.2; omega)
        omega
      have fitsLeft := roomNum.mpr room
      have waited := awaits.operator (w ++ str) waits room enough
      cases known : m.value l with
      | none =>
          rw [known] at waited
          obtain ⟨s₂, stopped, sound₂⟩ := waited
          rw [stopped]
          obtain ⟨stuck, late⟩ := value_bin_none known r
          have through := sound.trans sound₂
          rw [all] at through
          have short := Nat.le_of_eq (length_pushes l)
          exact .halt through stuck (by rw [length_pushes]; omega)
            (iff_of_false (ne_pushes_bin short r) late) fun h => absurd h late
      | some a =>
          rw [known] at waited
          obtain ⟨s₂, goes, h₂, sound₂⟩ := waited
          rw [goes]
          have through := sound.trans sound₂
          rw [all] at through
          rcases push_or_fail (m := m) fuel h₂ (code op) (w ++ str) with
            ⟨free, s₃, pushed, h₃, sound₃⟩ | ⟨full, failed⟩
          · rw [pushed]
            have before := through.trans sound₃
            rw [List.append_nil] at before
            have next := right h₃ (fun c top => by cases top; exact (getPri_code op).le) str
            exact next.behind before known ⟨roomOp, fitsLeft⟩
          · refine .fail failed fun fits => ?_
            have := fits.1
            omega

/-- What reading a well-formed expression over positive literals comes to. -/
theorem reading {w : List UInt8} {t : Expr Arith Nat} {o n : Nat} (needs : Needs k w t o n)
    (ints : ∀ n ∈ t.literals, IsInt n) (enough : MAXSIZE < fuel) (h : At s T nums)
    (waits : ∀ c ∈ T.head?, getPri c ≤ k) (str : List UInt8) :
    Reading m fuel str k T nums t o n s (m.mainLoop fuel (w ++ str) 0 s) := by
  induction needs generalizing s T nums str with
  | @literal w n word => exact reading_literal word (ints n (List.mem_singleton.mpr rfl)) h str
  | bracket _ ih =>
      exact reading_bracket (fun h waits str => ih ints h waits str) enough h str
  | @binary op u w l r _ _ _ _ _ _ ihl ihr =>
      have intsLeft : ∀ n ∈ l.literals, IsInt n := fun n mem => ints n (List.mem_append_left _ mem)
      have intsRight : ∀ n ∈ r.literals, IsInt n := fun n mem =>
        ints n (List.mem_append_right _ mem)
      exact reading_binary (fun str => ihl intsLeft h waits str)
        (fun h waits str => ihr intsRight h waits str) enough waits str
  | weaken _ ih =>
      have read := ih ints h (fun c top => Nat.le_succ_of_le (waits c top)) str
      generalize m.mainLoop fuel _ 0 s = out at read ⊢
      cases read with
      | fail failed unfit => exact .fail failed unfit
      | halt sound stuck short all early => exact .halt sound stuck short all early
      | on sound all awaits roomOp roomNum early =>
          obtain ⟨holds, above, count, value⟩ := awaits
          exact .on sound all ⟨holds, fun o mem => Nat.le_of_succ_le (above o mem), count, value⟩
            roomOp roomNum early

/-! ## The whole run -/

/-- Positive literals are what the calculator can tell from no literal. -/
theorem derives_of_positive {w : List UInt8} {t : Expr Arith Nat}
    (wf : nonnegGrammar.Derives k w t) (positive : ∀ n ∈ t.literals, 0 < n) :
    infixGrammar.Derives k w t := by
  induction wf with
  | literal word => exact .literal ⟨word.2.1, word.2.2, positive _ (List.mem_singleton.mpr rfl)⟩
  | bracket _ ih => exact .bracket (ih positive)
  | binary op _ _ ihl ihr =>
      exact .binary op (ihl fun n mem => positive n (List.mem_append_left _ mem))
        (ihr fun n mem => positive n (List.mem_append_right _ mem))
  | weaken _ ih => exact .weaken (ih positive)

theorem Early.ints {t : Expr Arith Nat} (h : m.Early t) : ∀ n ∈ t.literals, IsInt n := by
  have known : ∀ {l : Expr Arith Nat}, (m.value l).isSome = true → ∀ n ∈ l.literals, IsInt n := by
    intro l
    induction l with
    | lit n =>
        intro known k mem
        rw [List.mem_singleton.mp mem]
        rw [value, Expr.eval] at known
        split at known
        · next int => exact int
        · cases known
    | bin op l r ihl ihr =>
        intro known k mem
        obtain ⟨z, eq⟩ := Option.isSome_iff_exists.mp known
        obtain ⟨x, left, eq⟩ := Option.bind_eq_some_iff.mp eq
        obtain ⟨y, right, -⟩ := Option.bind_eq_some_iff.mp eq
        rcases List.mem_append.mp mem with mem | mem
        · exact ihl (Option.isSome_iff_exists.mpr ⟨x, left⟩) k mem
        · exact ihr (Option.isSome_iff_exists.mpr ⟨y, right⟩) k mem
  induction t with
  | lit n =>
      intro k mem
      rw [List.mem_singleton.mp mem]
      exact h
  | bin op l r _ ihr =>
      intro k mem
      rcases List.mem_append.mp mem with mem | mem
      · exact known h.1 k mem
      · exact ihr h.2 k mem

variable {e : List UInt8} {tree : Expr Arith Nat} {o n : Nat} {cellsOp cellsNum : Nat → Int}
  {lits : List Int}

/-- A run in which no call failed. -/
theorem disciplined_of_sound {out : Outcome Conf Int}
    (ran : m.main fuel e (.start cellsOp cellsNum) = out) (uncut : ¬ out.Cut)
    (sound : Sound (.start cellsOp cellsNum) lits out.state) :
    m.Disciplined fuel e tree cellsOp cellsNum ↔ lits = pushes tree := by
  obtain ⟨more, calls, fine, rfl⟩ := sound
  have calls : out.state.calls = more := calls
  rw [Disciplined, ran, calls]
  exact ⟨fun h => h.2.2, fun all => ⟨uncut, fine, all⟩⟩

theorem not_disciplined (failed : (m.main fuel e (.start cellsOp cellsNum)).state.Failed) :
    ¬ m.Disciplined fuel e tree cellsOp cellsNum := by
  rintro ⟨-, fine, -⟩
  obtain ⟨c, mem, bad⟩ := failed
  exact bad (fine c mem)

theorem failed_main (failed : (m.mainLoop fuel e 0 s).state.Failed) :
    (m.main fuel e s).state.Failed := by
  have split : m.main fuel e s = (m.mainLoop fuel e 0 >>= m.finish fuel) s := rfl
  rw [split]
  cases ran : m.mainLoop fuel e 0 s with
  | ended val t =>
      rw [ran] at failed
      rw [Act.bind_ended ran]
      exact failed.grows (m.grows_finish fuel (m.isInt_of_mainLoop isInt_zero ran) t)
  | stopped t =>
      rw [ran] at failed
      rw [Act.bind_stopped ran]
      exact failed
  | cut t =>
      rw [ran] at failed
      rw [Act.bind_cut ran]
      exact failed

/-- The last literal is pushed and everything that waits is applied, or there is no room for the
literal. -/
theorem Awaits.finish (h : Awaits m k [] [] v val s ops stored) (enough : MAXSIZE < fuel) :
    ((unpushed val ++ stored).length ≤ MAXSIZE ∧ ¬ (m.finish fuel val s).Cut ∧
      Sound s (unpushed val) (m.finish fuel val s).state) ∨
    (¬ (unpushed val ++ stored).length ≤ MAXSIZE ∧ (m.finish fuel val s).state.Failed) := by
  have few := h.length_lt enough
  obtain ⟨holds, -, count, value⟩ := h
  rw [List.append_nil] at holds
  by_cases room : (unpushed val ++ stored).length ≤ MAXSIZE
  · obtain ⟨t, called, ht, sound⟩ := callVal_room holds room
    have applied := endLoop_applies (m := m) ht (by omega) few
    rw [value] at applied
    refine .inl ⟨room, ?_⟩
    rw [Machine.finish, Act.bind_ended called]
    cases v with
    | none =>
        obtain ⟨u, stopped, later⟩ := applied
        rw [Act.bind_stopped stopped]
        exact ⟨id, sound.then later⟩
    | some x =>
        obtain ⟨_, u, ended, hu, later⟩ := applied
        obtain ⟨w, popped, -, last⟩ := At.popNum hu 0
        rw [Act.bind_ended ended, popped]
        exact ⟨id, (sound.then later).then last⟩
  · obtain ⟨t, called, failed⟩ := callVal_full holds room
    refine .inr ⟨room, ?_⟩
    have later : Act.Keeps Grows (m.endLoop fuel >>= fun _ => callPop .num 0) :=
      .bind Grows.trans (m.grows_endLoop fuel) fun _ => grows_pop .num 0
    rw [Machine.finish, Act.bind_ended called]
    exact failed.grows (later t)

theorem disciplined_iff_of_needs (needs : Needs 0 e tree o n)
    (ints : ∀ n ∈ tree.literals, IsInt n) (enough : MAXSIZE < fuel) :
    m.Disciplined fuel e tree cellsOp cellsNum ↔
      m.Early tree ∧ o ≤ MAXSIZE ∧ n ≤ MAXSIZE := by
  have start : At (.start cellsOp cellsNum) [] [] := at_start cellsOp cellsNum
  have read := reading (m := m) needs ints enough start (fun c top => by cases top) []
  have unpack : Fits [] [] o n ↔ o ≤ MAXSIZE ∧ n ≤ MAXSIZE := by
    rw [Fits, List.length_nil, Nat.zero_add, Nat.zero_add]
  have split : ∀ s, m.main fuel e s = (m.mainLoop fuel e 0 >>= m.finish fuel) s := fun _ => rfl
  rw [List.append_nil] at read
  rw [← unpack]
  generalize looped : m.mainLoop fuel e 0 (.start cellsOp cellsNum) = out at read
  cases read with
  | fail failed unfit =>
      rw [← looped] at failed
      exact iff_of_false (not_disciplined (failed_main failed)) fun h => unfit h.2
  | halt sound stuck short all early =>
      rw [disciplined_of_sound ((split _).trans (Act.bind_stopped looped)) id sound, all]
      exact ⟨fun h => ⟨h, early h⟩, fun h => h.1⟩
  | @on lits val s ops stored sound all awaits roomOp roomNum early =>
      have ran := (split _).trans (Act.bind_ended looped)
      rcases awaits.finish enough with ⟨room, uncut, later⟩ | ⟨full, failed⟩
      · have through := sound.trans later
        rw [disciplined_of_sound ran uncut through]
        exact iff_of_true all ⟨early, roomOp, roomNum.mpr room⟩
      · rw [← ran] at failed
        exact iff_of_false (not_disciplined failed) fun h => full (roomNum.mp h.2.2)

/-- For every well-formed expression over non-negative literals, the calculator pushes each literal
once and no call fails exactly when the literals are positive, the expression needs no more than
`MAXSIZE` entries on either stack, and nothing stops the program before the last literal. -/
theorem disciplined_iff (m : Machine) (wf : nonnegGrammar.Derives 0 e tree)
    (enough : MAXSIZE < fuel) (cellsOp cellsNum : Nat → Int) :
    m.Disciplined fuel e tree cellsOp cellsNum ↔
      m.Early tree ∧ ∃ o n, Needs 0 e tree o n ∧ o ≤ MAXSIZE ∧ n ≤ MAXSIZE := by
  constructor
  · intro h
    obtain ⟨more, calls, good⟩ := m.grows_main fuel e (.start cellsOp cellsNum)
    have calls : (m.main fuel e (.start cellsOp cellsNum)).state.calls = more := calls
    have all := h.2.2
    rw [calls] at all
    rw [all] at good
    have literal : ∀ n ∈ tree.literals, (n : Int) ≠ 0 ∧ IsInt n := fun n mem =>
      good n (List.mem_map_of_mem mem)
    have wf := derives_of_positive wf fun n mem => by
      have := (literal n mem).1
      omega
    obtain ⟨o, n, needs⟩ := derives_iff_needs.mp wf
    obtain ⟨early, fitsOp, fitsNum⟩ :=
      (disciplined_iff_of_needs needs (fun n mem => (literal n mem).2) enough).mp h
    exact ⟨early, o, n, needs, fitsOp, fitsNum⟩
  · rintro ⟨early, o, n, needs, fitsOp, fitsNum⟩
    exact (disciplined_iff_of_needs needs early.ints enough).mpr ⟨early, fitsOp, fitsNum⟩

/-- The machine on which an operation without a result stops the program. -/
def strict : Machine := ⟨Arith.apply, fun _ => 0, fun _ => 0, id, Arith.isInt_of_apply⟩

theorem disciplined_iff_sum :
    strict.Disciplined 6 (ascii "1+2") (.bin .add (.lit 1) (.lit 2)) (fun _ => 0) (fun _ => 0) := by
  have one : infixGrammar.literal (ascii "1") 1 := ⟨by decide, by decide, by decide⟩
  have two : infixGrammar.literal (ascii "2") 2 := ⟨by decide, by decide, by decide⟩
  have sum : Needs 0 (ascii "1" ++ Arith.add.char :: ascii "2") (.bin .add (.lit 1) (.lit 2)) 1 2 :=
    .binary Arith.add (.weaken (.weaken (.literal one))) (.weaken (.literal two))
  have wf : nonnegGrammar.Derives 0 (ascii "1" ++ Arith.add.char :: ascii "2")
      (.bin .add (.lit 1) (.lit 2)) :=
    .binary (g := nonnegGrammar) Arith.add
      (.weaken (.weaken (.literal ⟨by decide, by decide, by decide⟩)))
      (.weaken (.literal ⟨by decide, by decide, by decide⟩))
  exact (disciplined_iff strict wf (by decide) _ _).mpr
    ⟨⟨by decide, show IsInt (2 : Nat) by decide⟩, 1, 2, sum, by decide, by decide⟩

/-- A literal 0 is not pushed, and an `st_pop` fails for want of it. -/
theorem zero_not_pushed :
    nonnegGrammar.Derives 0 (ascii "1+0") (.bin .add (.lit 1) (.lit 0)) ∧
      (⟨none, -1⟩ : Call) ∈
        (strict.main 6 (ascii "1+0") (.start (fun _ => 0) fun _ => 0)).state.calls ∧
      ¬ strict.Disciplined 6 (ascii "1+0") (.bin .add (.lit 1) (.lit 0)) (fun _ => 0)
        (fun _ => 0) := by
  have wf : nonnegGrammar.Derives 0 (ascii "1" ++ Arith.add.char :: ascii "0")
      (.bin .add (.lit 1) (.lit 0)) :=
    .binary (g := nonnegGrammar) Arith.add
      (.weaken (.weaken (.literal ⟨by decide, by decide, by decide⟩)))
      (.weaken (.literal ⟨by decide, by decide, by decide⟩))
  have refused : (⟨none, -1⟩ : Call) ∈
      (strict.main 6 (ascii "1+0") (.start (fun _ => 0) fun _ => 0)).state.calls := by
    decide +kernel
  exact ⟨wf, refused, fun h => absurd (h.2.1 _ refused) (by decide)⟩

end Machine

end Shang.Computer
