import Shang.Lib.Act
import Shang.Stack.ComputerExpr

/-!
# The calculator with its stack calls

The program of `Computer` once more, as it also runs where the stack functions
fail or where C says nothing: every call of `st_push`, `st_pop` and `st_top` is
written down with what it returns, a local that was never set has the value of
its junk, and the machine decides what an operation without a result comes to. A
run of `Computer.main` is one of these, `main_eq`.
-/

namespace Shang.Computer

open Shang.Lib

/-- What is open in C. Where an `int` operation has no result there is some `int`, or the program
stops. A local of `compute` that was never set is `junk` after so many calls, and `old_op` of
`deal_bracket` is `oldOp` when so many characters are left. -/
structure Machine where
  arith : Arith → Int → Int → Option Int
  junk : Nat → Int
  oldOp : Nat → Int
  arith_of_apply : ∀ {op x y z}, op.apply x y = some z → arith op x y = some z
  isInt_of_arith : ∀ {op x y z}, arith op x y = some z → IsInt z

/-- A call of a stack function: the literal, when it is `main` that pushes one, and what is
returned. -/
structure Call where
  literal : Option Int
  ret : Int
  deriving DecidableEq

/-- The stacks, and the calls so far. -/
structure Conf where
  stOp : SK
  stNum : SK
  calls : List Call

/-- One of the stacks. -/
inductive Place
  | op
  | num

namespace Conf

def stack (s : Conf) : Place → SK
  | .op => s.stOp
  | .num => s.stNum

/-- A call left the stack like this. -/
def after (s : Conf) (p : Place) (st : SK) (call : Call) : Conf :=
  match p with
  | .op => { s with stOp := st, calls := s.calls ++ [call] }
  | .num => { s with stNum := st, calls := s.calls ++ [call] }

@[simp] theorem calls_after (s : Conf) (p : Place) (st : SK) (call : Call) :
    (s.after p st call).calls = s.calls ++ [call] := by
  cases p <;> rfl

end Conf

/-- `st_push(st, &data)` -/
def callPush (p : Place) (literal : Option Int) (data : Int) : Act Conf Unit := fun s =>
  let (st, ret) := stPush (s.stack p) data
  .ended () (s.after p st ⟨literal, ret⟩)

/-- `st_pop(st, &data)`: what `data` is afterwards. -/
def callPop (p : Place) (data : Int) : Act Conf Int := fun s =>
  let (st, popped, ret) := stPop (s.stack p) (some data)
  .ended (popped.getD data) (s.after p st ⟨none, ret⟩)

/-- `st_top(st, &data)`: what `data` is afterwards. -/
def callTop (p : Place) (data : Int) : Act Conf Int := fun s =>
  let (read, ret) := stTop (s.stack p) (some data)
  .ended (read.getD data) (s.after p (s.stack p) ⟨none, ret⟩)

/-- `st_isempty(st)` -/
def callIsempty (p : Place) : Act Conf Bool := fun s => .ended (stIsempty (s.stack p)) s

namespace Machine

variable (m : Machine)

/-- A local that was not set. -/
def unset : Act Conf Int := fun s => .ended (m.junk s.calls.length) s

/-- An operation of the machine. -/
def calculate (op : Arith) (x y : Int) : Act Conf Int := .ofOption (m.arith op x y)

/-- The `switch` of `compute`: what `v3` is. -/
def result (op v1 v2 : Int) : Act Conf Int :=
  match op with
  | 43 => m.calculate .add v1 v2
  | 45 => m.calculate .sub v2 v1
  | 42 => m.calculate .mul v2 v1
  | 47 => m.calculate .div v2 v1
  | _ => m.unset

/-- `compute(s_num, op)` -/
def compute (op : Int) : Act Conf Unit := do
  let v1 ← m.unset
  let v1 ← callPop .num v1
  let v2 ← m.unset
  let v2 ← callPop .num v2
  let v3 ← m.result op v1 v2
  callPush .num none v3

/-- The loop of `deal_bracket`. -/
def bracketLoop : Nat → Int → Act Conf Int
  | 0, _ => .spent
  | fuel + 1, oldOp =>
      if oldOp ≠ 40 then do
        let oldOp ← callPop .op oldOp
        m.compute oldOp
        let oldOp ← callTop .op oldOp
        bracketLoop fuel oldOp
      else pure oldOp

/-- `deal_bracket(s_op, s_num)`, with what `old_op` is at first. -/
def dealBracket (fuel : Nat) (oldOp : Int) : Act Conf Unit := do
  let oldOp ← callTop .op oldOp
  let oldOp ← m.bracketLoop fuel oldOp
  let _ ← callPop .op oldOp

/-- The loop of `deal_op`. -/
def opLoop (op : Int) : Nat → Int → Act Conf Unit
  | 0, _ => .spent
  | fuel + 1, oldOp =>
      if getPri op ≤ getPri oldOp then do
        let oldOp ← callPop .op oldOp
        m.compute oldOp
        if ← callIsempty .op then pure ()
        else
          let oldOp ← callTop .op oldOp
          opLoop op fuel oldOp
      else pure ()

/-- `deal_op(s_op, s_num, op)` -/
def dealOp (fuel : Nat) (op : Int) : Act Conf Unit := do
  let empty ← callIsempty .op
  if empty ∨ op = 40 then callPush .op none op
  else
    let oldOp ← m.unset
    let oldOp ← callTop .op oldOp
    if getPri op > getPri oldOp then callPush .op none op
    else
      m.opLoop op fuel oldOp
      callPush .op none op

/-- `if (val) { st_push(st_num, &val); val = 0; }`: what `val` is afterwards. -/
def callVal (val : Int) : Act Conf Int :=
  if val ≠ 0 then do
    callPush .num (some val) val
    pure 0
  else pure val

/-- A character that is no digit, when so many characters are left. -/
def deal (fuel : Nat) (c : UInt8) (left : Nat) : Act Conf Unit :=
  if c = 41 then m.dealBracket fuel (m.oldOp left) else m.dealOp fuel (signed c)

/-- The main loop, for the characters from `str[i]` on: what `val` is afterwards. -/
def mainLoop (fuel : Nat) : List UInt8 → Int → Act Conf Int
  | [], val => pure val
  | c :: str, val =>
      if isdigit c then do
        let tens ← m.calculate .mul val 10
        let val ← m.calculate .add tens (signed c - 48)
        mainLoop fuel str val
      else do
        let val ← callVal val
        m.deal fuel c str.length
        mainLoop fuel str val

/-- The loop behind the main loop. -/
def endLoop : Nat → Act Conf Unit
  | 0 => .spent
  | fuel + 1 => do
      if ← callIsempty .op then pure ()
      else
        let oldOp ← m.unset
        let oldOp ← callPop .op oldOp
        m.compute oldOp
        endLoop fuel

/-- `main` up to the output, which is `val`. -/
def main (fuel : Nat) (str : List UInt8) : Act Conf Int := do
  let val ← m.mainLoop fuel str 0
  let val ← callVal val
  m.endLoop fuel
  callPop .num val

end Machine

/-- The stacks of a new run, whose cells are not initialized. -/
def Conf.start (op num : Nat → Int) : Conf := ⟨stCreate op, stCreate num, []⟩

/-! ## Calls that succeed -/

/-- What is on the stacks, from the top. -/
structure At (s : Conf) (T nums : List Int) : Prop where
  stOp : Holds s.stOp T
  stNum : Holds s.stNum nums

/-- The calls between the two states succeeded, and pushed these literals. -/
def Sound (s : Conf) (literals : List Int) (t : Conf) : Prop :=
  ∃ more, t.calls = s.calls ++ more ∧ (∀ c ∈ more, c.ret = 0) ∧
    more.filterMap Call.literal = literals

variable {s t u : Conf} {T nums lits lits' : List Int} {x y data : Int} {fuel : Nat}

theorem at_start (op num : Nat → Int) : At (.start op num) [] [] :=
  ⟨holds_stCreate op, holds_stCreate num⟩

theorem Sound.refl (s : Conf) : Sound s [] s := ⟨[], (List.append_nil _).symm, by simp, rfl⟩

theorem Sound.trans (h : Sound s lits t) (h' : Sound t lits' u) : Sound s (lits ++ lits') u := by
  obtain ⟨first, calls, fine, rfl⟩ := h
  obtain ⟨more, calls', fine', rfl⟩ := h'
  refine ⟨first ++ more, ?_, fun c mem => ?_, List.filterMap_append⟩
  · rw [calls', calls, List.append_assoc]
  · exact (List.mem_append.mp mem).elim (fine c) (fine' c)

/-- Calls that push no literal. -/
theorem Sound.then (h : Sound s lits t) (h' : Sound t [] u) : Sound s lits u := by
  have both := h.trans h'
  rwa [List.append_nil] at both

theorem sound_after (s : Conf) (p : Place) (st : SK) (literal : Option Int) :
    Sound s literal.toList (s.after p st ⟨literal, 0⟩) := by
  refine ⟨[⟨literal, 0⟩], s.calls_after p st _, by simp, ?_⟩
  cases literal <;> rfl

/-- A push with room for the entry. -/
theorem At.pushOp (h : At s T nums) (room : T.length < MAXSIZE) (x : Int) :
    ∃ t, callPush .op none x s = .ended () t ∧ At t (x :: T) nums ∧ Sound s [] t := by
  have ret : (stPush s.stOp x).2 = 0 := h.stOp.stPush_ret room x
  refine ⟨s.after .op (stPush s.stOp x).1 ⟨none, 0⟩, ?_, ⟨h.stOp.stPush room x, h.stNum⟩,
    sound_after s .op _ none⟩
  rw [← ret]
  rfl

theorem At.pushNum (h : At s T nums) (room : nums.length < MAXSIZE) (literal : Option Int)
    (x : Int) :
    ∃ t, callPush .num literal x s = .ended () t ∧ At t T (x :: nums) ∧
      Sound s literal.toList t := by
  have ret : (stPush s.stNum x).2 = 0 := h.stNum.stPush_ret room x
  refine ⟨s.after .num (stPush s.stNum x).1 ⟨literal, 0⟩, ?_, ⟨h.stOp, h.stNum.stPush room x⟩,
    sound_after s .num _ literal⟩
  rw [← ret]
  rfl

theorem At.popOp (h : At s (x :: T) nums) (data : Int) :
    ∃ t, callPop .op data s = .ended x t ∧ At t T nums ∧ Sound s [] t := by
  obtain ⟨st, popped, holds⟩ := h.stOp.stPop (some data)
  refine ⟨s.after .op st ⟨none, 0⟩, ?_, ⟨holds, h.stNum⟩, sound_after s .op st none⟩
  rw [callPop, Conf.stack, popped]
  rfl

theorem At.popNum (h : At s T (x :: nums)) (data : Int) :
    ∃ t, callPop .num data s = .ended x t ∧ At t T nums ∧ Sound s [] t := by
  obtain ⟨st, popped, holds⟩ := h.stNum.stPop (some data)
  refine ⟨s.after .num st ⟨none, 0⟩, ?_, ⟨h.stOp, holds⟩, sound_after s .num st none⟩
  rw [callPop, Conf.stack, popped]
  rfl

theorem At.topOp (h : At s (x :: T) nums) (data : Int) :
    ∃ t, callTop .op data s = .ended x t ∧ At t (x :: T) nums ∧ Sound s [] t := by
  refine ⟨s.after .op s.stOp ⟨none, 0⟩, ?_, ⟨h.stOp, h.stNum⟩,
    sound_after s .op s.stOp none⟩
  rw [callTop, Conf.stack, h.stOp.stTop (some data)]
  rfl

/-! ## Calls that fail -/

/-- Some call failed. -/
def Conf.Failed (s : Conf) : Prop := ∃ c ∈ s.calls, c.ret ≠ 0

/-- Calls are not taken back, and a literal that is pushed is a positive `int` or a negative one. -/
def Grows (s t : Conf) : Prop :=
  ∃ more, t.calls = s.calls ++ more ∧ ∀ x ∈ more.filterMap Call.literal, x ≠ 0 ∧ IsInt x

theorem Grows.refl (s : Conf) : Grows s s := ⟨[], (List.append_nil _).symm, by simp⟩

theorem Grows.trans (h : Grows s t) (h' : Grows t u) : Grows s u := by
  obtain ⟨first, calls, good⟩ := h
  obtain ⟨more, calls', good'⟩ := h'
  refine ⟨first ++ more, ?_, fun x mem => ?_⟩
  · rw [calls', calls, List.append_assoc]
  · rw [List.filterMap_append] at mem
    exact (List.mem_append.mp mem).elim (good x) (good' x)

theorem Conf.Failed.grows (h : s.Failed) (later : Grows s t) : t.Failed := by
  obtain ⟨c, mem, bad⟩ := h
  obtain ⟨more, calls, -⟩ := later
  refine ⟨c, ?_, bad⟩
  rw [calls]
  exact List.mem_append_left more mem

theorem grows_after (s : Conf) (p : Place) (st : SK) (ret : Int) :
    Grows s (s.after p st ⟨none, ret⟩) :=
  ⟨[⟨none, ret⟩], s.calls_after p st _, by simp⟩

theorem grows_push (p : Place) (x : Int) : Act.Keeps Grows (callPush p none x) :=
  fun s => grows_after s p _ _

theorem grows_pop (p : Place) (data : Int) : Act.Keeps Grows (callPop p data) :=
  fun s => grows_after s p _ _

theorem grows_top (p : Place) (data : Int) : Act.Keeps Grows (callTop p data) :=
  fun s => grows_after s p _ _

theorem grows_isempty (p : Place) : Act.Keeps Grows (callIsempty p) := Grows.refl

namespace Machine

variable (m : Machine)

theorem grows_unset : Act.Keeps Grows m.unset := Grows.refl

theorem grows_calculate (op : Arith) (x y : Int) : Act.Keeps Grows (m.calculate op x y) :=
  Act.Keeps.ofOption Grows.refl _

theorem grows_compute (op : Int) : Act.Keeps Grows (m.compute op) := by
  refine .bind Grows.trans m.grows_unset fun v1 => .bind Grows.trans (grows_pop _ _) fun v1 => ?_
  refine .bind Grows.trans m.grows_unset fun v2 => .bind Grows.trans (grows_pop _ _) fun v2 => ?_
  refine .bind Grows.trans ?_ fun v3 => grows_push .num v3
  unfold result
  split
  · exact m.grows_calculate _ _ _
  · exact m.grows_calculate _ _ _
  · exact m.grows_calculate _ _ _
  · exact m.grows_calculate _ _ _
  · exact m.grows_unset

theorem grows_bracketLoop (fuel : Nat) (oldOp : Int) :
    Act.Keeps Grows (m.bracketLoop fuel oldOp) := by
  induction fuel generalizing oldOp with
  | zero => exact .spent Grows.refl
  | succ fuel ih =>
      rw [bracketLoop]
      split
      · refine .bind Grows.trans (grows_pop _ _) fun oldOp => ?_
        exact .bind Grows.trans (m.grows_compute _) fun _ => .bind Grows.trans (grows_top _ _) ih
      · exact .pure Grows.refl oldOp

theorem grows_dealBracket (fuel : Nat) (oldOp : Int) :
    Act.Keeps Grows (m.dealBracket fuel oldOp) := by
  refine .bind Grows.trans (grows_top _ _) fun oldOp => ?_
  refine .bind Grows.trans (m.grows_bracketLoop _ _) fun oldOp => ?_
  exact .bind Grows.trans (grows_pop _ _) fun _ => .pure Grows.refl _

theorem grows_opLoop (op : Int) (fuel : Nat) (oldOp : Int) :
    Act.Keeps Grows (m.opLoop op fuel oldOp) := by
  induction fuel generalizing oldOp with
  | zero => exact .spent Grows.refl
  | succ fuel ih =>
      rw [opLoop]
      split
      · refine .bind Grows.trans (grows_pop _ _) fun oldOp => ?_
        refine .bind Grows.trans (m.grows_compute _) fun _ => ?_
        refine .bind Grows.trans (grows_isempty _) fun empty => ?_
        split
        · exact .pure Grows.refl _
        · exact .bind Grows.trans (grows_top _ _) ih
      · exact .pure Grows.refl _

theorem grows_dealOp (fuel : Nat) (op : Int) : Act.Keeps Grows (m.dealOp fuel op) := by
  refine .bind Grows.trans (grows_isempty _) fun empty => ?_
  split
  · exact grows_push _ _
  · refine .bind Grows.trans m.grows_unset fun oldOp => ?_
    refine .bind Grows.trans (grows_top _ _) fun oldOp => ?_
    split
    · exact grows_push _ _
    · exact .bind Grows.trans (m.grows_opLoop _ _ _) fun _ => grows_push _ _

theorem grows_deal (fuel : Nat) (c : UInt8) (left : Nat) :
    Act.Keeps Grows (m.deal fuel c left) := by
  rw [deal]
  split
  · exact m.grows_dealBracket _ _
  · exact m.grows_dealOp _ _

theorem grows_callVal {val : Int} (int : IsInt val) : Act.Keeps Grows (callVal val) := by
  rw [callVal]
  split
  · next nonzero =>
      refine .bind Grows.trans (fun s => ⟨[_], s.calls_after .num _ _, ?_⟩) fun _ =>
        .pure Grows.refl _
      intro x mem
      obtain rfl := List.mem_singleton.mp mem
      exact ⟨nonzero, int⟩
  · exact .pure Grows.refl _

theorem callVal_val {val : Int} (ran : callVal val s = .ended x t) : x = 0 := by
  rw [callVal] at ran
  split at ran
  · obtain ⟨-, u, -, last⟩ := Act.bind_eq_ended.mp ran
    cases last
    rfl
  · next zero =>
      cases ran
      exact not_not.mp zero

theorem isInt_zero : IsInt 0 := by decide

theorem isInt_of_calculate {op : Arith} (ran : m.calculate op x y s = .ended data t) :
    IsInt data := by
  rw [calculate] at ran
  cases result : m.arith op x y with
  | none =>
      rw [result] at ran
      cases ran
  | some z =>
      rw [result] at ran
      cases ran
      exact m.isInt_of_arith result

theorem grows_mainLoop (fuel : Nat) (str : List UInt8) {val : Int} (int : IsInt val) :
    Act.Keeps Grows (m.mainLoop fuel str val) := by
  induction str generalizing val with
  | nil => exact .pure Grows.refl _
  | cons c str ih =>
      rw [mainLoop]
      split
      · refine .bind Grows.trans (m.grows_calculate _ _ _) fun tens => ?_
        refine .bind_of_ended Grows.trans (m.grows_calculate _ _ _) fun {val _ _} ran => ?_
        exact ih (m.isInt_of_calculate ran)
      · refine .bind_of_ended Grows.trans (grows_callVal int) fun {val _ _} ran => ?_
        obtain rfl := callVal_val ran
        exact .bind Grows.trans (m.grows_deal _ _ _) fun _ => ih isInt_zero

theorem isInt_of_mainLoop {str : List UInt8} {val : Int} (int : IsInt val)
    (ran : m.mainLoop fuel str val s = .ended x t) : IsInt x := by
  induction str generalizing val s with
  | nil =>
      cases ran
      exact int
  | cons c str ih =>
      rw [mainLoop] at ran
      split at ran
      · obtain ⟨tens, s₁, -, ran⟩ := Act.bind_eq_ended.mp ran
        obtain ⟨val', s₂, added, ran⟩ := Act.bind_eq_ended.mp ran
        exact ih (m.isInt_of_calculate added) ran
      · obtain ⟨val', s₁, called, ran⟩ := Act.bind_eq_ended.mp ran
        obtain rfl := callVal_val called
        obtain ⟨-, s₂, -, ran⟩ := Act.bind_eq_ended.mp ran
        exact ih isInt_zero ran

theorem grows_endLoop (fuel : Nat) : Act.Keeps Grows (m.endLoop fuel) := by
  induction fuel with
  | zero => exact .spent Grows.refl
  | succ fuel ih =>
      refine .bind Grows.trans (grows_isempty _) fun empty => ?_
      split
      · exact .pure Grows.refl _
      · refine .bind Grows.trans m.grows_unset fun oldOp => ?_
        refine .bind Grows.trans (grows_pop _ _) fun oldOp => ?_
        exact .bind Grows.trans (m.grows_compute _) fun _ => ih

/-- What `main` does behind the main loop. -/
def finish (fuel : Nat) (val : Int) : Act Conf Int := do
  let val ← callVal val
  m.endLoop fuel
  callPop .num val

theorem grows_finish (fuel : Nat) {val : Int} (int : IsInt val) :
    Act.Keeps Grows (m.finish fuel val) := by
  refine .bind Grows.trans (grows_callVal int) fun val => ?_
  exact .bind Grows.trans (m.grows_endLoop fuel) fun _ => grows_pop _ _

/-- Every literal that `main` pushes is an `int` other than 0. -/
theorem grows_main (fuel : Nat) (str : List UInt8) : Act.Keeps Grows (m.main fuel str) :=
  .bind_of_ended Grows.trans (m.grows_mainLoop fuel str isInt_zero) fun ran =>
    m.grows_finish fuel (m.isInt_of_mainLoop isInt_zero ran)

/-! ## The run that C defines -/

/-- A pop that leaves something in the local does so whatever was in it. -/
theorem callPop_of_stPop {p : Place} {init : Option Int} {st : SK} {ret : Int}
    (popped : stPop (s.stack p) init = (st, some x, ret)) (same : ∀ y ∈ init, y = data) :
    callPop p data s = .ended x (s.after p st ⟨none, ret⟩) := by
  rw [callPop]
  rw [stPop] at popped ⊢
  split at popped
  · next empty =>
      cases popped
      rw [if_pos empty, same x rfl]
      rfl
  · next stored =>
      cases popped
      rw [if_neg stored]
      rfl

theorem callTop_of_stTop {p : Place} {init : Option Int} {ret : Int}
    (read : stTop (s.stack p) init = (some x, ret)) (same : ∀ y ∈ init, y = data) :
    callTop p data s = .ended x (s.after p (s.stack p) ⟨none, ret⟩) := by
  rw [callTop]
  rw [stTop] at read ⊢
  split at read
  · next empty =>
      cases read
      rw [if_pos empty, same x rfl]
      rfl
  · next stored =>
      cases read
      rw [if_neg stored]
      rfl

theorem unset_eq (s : Conf) : m.unset s = .ended (m.junk s.calls.length) s := rfl

/-- The program ends with such a value and these stacks. -/
def Ends {α : Type} (x : Act Conf α) (s : Conf) (Q : α → Prop) (stOp stNum : SK) : Prop :=
  ∃ a t, x s = .ended a t ∧ Q a ∧ t.stOp = stOp ∧ t.stNum = stNum

theorem Ends.bind {α β : Type} {x : Act Conf α} {f : α → Act Conf β} {Q : α → Prop}
    {Q' : β → Prop} {stOp stNum stOp' stNum' : SK} (first : Ends x s Q stOp stNum)
    (rest : ∀ a t, Q a → t.stOp = stOp → t.stNum = stNum → Ends (f a) t Q' stOp' stNum') :
    Ends (x >>= f) s Q' stOp' stNum' := by
  obtain ⟨a, t, ran, value, hOp, hNum⟩ := first
  obtain ⟨b, u, ran', rest⟩ := rest a t value hOp hNum
  exact ⟨b, u, (Act.bind_ended ran).trans ran', rest⟩

/-- A first program that ends in a known state. -/
theorem Ends.after {α β : Type} {x : Act Conf α} {f : α → Act Conf β} {Q : β → Prop} {a : α}
    {stOp stNum : SK} (ran : x s = .ended a t) (rest : Ends (f a) t Q stOp stNum) :
    Ends (x >>= f) s Q stOp stNum := by
  obtain ⟨b, u, ran', rest⟩ := rest
  exact ⟨b, u, (Act.bind_ended ran).trans ran', rest⟩

theorem isempty_eq (s : Conf) : callIsempty .op s = .ended (stIsempty s.stOp) s := rfl

theorem ends_compute {op : Int} {st : SK} (done : Computer.compute s.stNum op = some st) :
    Ends (m.compute op) s (fun _ => True) s.stOp st := by
  rcases first : stPop s.stNum none with ⟨st₁, v1, ret₁⟩
  rcases second : stPop st₁ none with ⟨st₂, v2, ret₂⟩
  rw [Computer.compute, first] at done
  dsimp only at done
  rw [second] at done
  dsimp only at done
  obtain ⟨x, rfl, rest⟩ := Option.bind_eq_some_iff.mp done
  obtain ⟨y, rfl, switch⟩ := Option.bind_eq_some_iff.mp rest
  have finish : ∀ {z}, (∀ t, m.result op x y t = .ended z t) →
      Ends (m.compute op) s (fun _ => True) s.stOp (stPush st₂ z).1 := by
    intro z result
    let s₁ := s.after .num st₁ ⟨none, ret₁⟩
    let s₂ := s₁.after .num st₂ ⟨none, ret₂⟩
    have pop₁ : callPop .num (m.junk s.calls.length) s = .ended x s₁ :=
      callPop_of_stPop (p := .num) first (by simp)
    have pop₂ : callPop .num (m.junk s₁.calls.length) s₁ = .ended y s₂ :=
      callPop_of_stPop (p := .num) second (by simp)
    refine ⟨(), s₂.after .num (stPush st₂ z).1 ⟨none, (stPush st₂ z).2⟩, ?_, trivial, rfl, rfl⟩
    rw [Machine.compute, Act.bind_ended (m.unset_eq s), Act.bind_ended pop₁,
      Act.bind_ended (m.unset_eq s₁), Act.bind_ended pop₂, Act.bind_ended (result s₂)]
    rfl
  have calculated : ∀ {op x y z}, op.apply x y = some z → ∀ t,
      m.calculate op x y t = .ended z t := by
    intro op x y z applied t
    rw [calculate, m.arith_of_apply applied]
    rfl
  split at switch
  case h_5 => cases switch
  all_goals
    obtain ⟨z, applied, pushed⟩ := Option.bind_eq_some_iff.mp switch
    cases pushed
    exact finish (calculated applied)

theorem ends_pop {st : SK} {ret : Int} (popped : stPop s.stOp (some data) = (st, some x, ret)) :
    Ends (callPop .op data) s (· = x) st s.stNum :=
  ⟨x, _, callPop_of_stPop (p := .op) popped fun _ mem => (Option.some.inj mem).symm, rfl, rfl, rfl⟩

theorem ends_top {init : Option Int} {ret : Int} (read : stTop s.stOp init = (some x, ret))
    (same : ∀ y ∈ init, y = data) : Ends (callTop .op data) s (· = x) s.stOp s.stNum :=
  ⟨x, _, callTop_of_stTop (p := .op) read same, rfl, rfl, rfl⟩

/-- One operator is popped and applied. -/
theorem ends_apply {α : Type} {st stOp stNum num : SK} {op oldOp ret : Int} {f : Int → Act Conf α}
    {Q : α → Prop} (popped : stPop s.stOp (some oldOp) = (st, some op, ret))
    (computed : Computer.compute s.stNum op = some num)
    (rest : ∀ t, t.stOp = st → t.stNum = num → Ends (f op) t Q stOp stNum) :
    Ends (callPop .op oldOp >>= fun oldOp => m.compute oldOp >>= fun _ => f oldOp) s Q
      stOp stNum := by
  refine (ends_pop popped).bind fun a t value hOp hNum => ?_
  subst value
  rw [← hNum] at computed
  refine (m.ends_compute computed).bind fun _ u _ hOp' hNum' => ?_
  exact rest u (hOp'.trans hOp) hNum'

/-- What is read is written into a local that has a value. -/
theorem stTop_some (st : SK) (x : Int) : ∃ y ret, stTop st (some x) = (some y, ret) := by
  rw [stTop]
  split
  · exact ⟨x, -1, rfl⟩
  · exact ⟨_, 0, rfl⟩

theorem ends_bracketLoop {oldOp : Int} {stOp stNum : SK} {o : Option Int}
    (done : Computer.bracketLoop fuel s.stOp s.stNum (some oldOp) = some (stOp, stNum, o)) :
    Ends (m.bracketLoop fuel oldOp) s (fun _ => True) stOp stNum := by
  induction fuel generalizing s oldOp with
  | zero => cases done
  | succ fuel ih =>
      rw [Computer.bracketLoop, Option.bind_eq_bind, Option.bind_some] at done
      rw [bracketLoop]
      split at done
      · next pending =>
          rw [if_pos pending]
          rcases popped : stPop s.stOp (some oldOp) with ⟨st, v, ret⟩
          rw [popped] at done
          obtain ⟨op, rfl, applied⟩ := Option.bind_eq_some_iff.mp done
          obtain ⟨num, computed, rest⟩ := Option.bind_eq_some_iff.mp applied
          refine m.ends_apply popped computed fun t hOp hNum => ?_
          subst hOp hNum
          obtain ⟨top, ret', read⟩ := stTop_some t.stOp op
          rw [read] at rest
          refine (ends_top read fun _ mem => (Option.some.inj mem).symm).bind ?_
          intro x u value hOp hNum
          subst value
          rw [← hOp, ← hNum] at rest
          exact ih rest
      · next left =>
          rw [if_neg left]
          cases done
          exact ⟨oldOp, s, rfl, trivial, rfl, rfl⟩

/-- What is left on the stack does not depend on the local. -/
theorem stPop_stack (st : SK) (init init' : Option Int) :
    (stPop st init).1 = (stPop st init').1 := by
  rw [stPop, stPop]
  split
  · rfl
  · rfl

theorem ends_dealBracket {stOp stNum : SK}
    (done : Computer.dealBracket fuel s.stOp s.stNum = some (stOp, stNum)) (oldOp : Int) :
    Ends (m.dealBracket fuel oldOp) s (fun _ => True) stOp stNum := by
  rcases read : stTop s.stOp none with ⟨v, ret⟩
  rw [Computer.dealBracket, read] at done
  obtain ⟨⟨sOp₁, sNum₁, oldOp₁⟩, looped, done⟩ := Option.bind_eq_some_iff.mp done
  cases done
  cases v with
  | none =>
      cases fuel with
      | zero => cases looped
      | succ fuel => cases looped
  | some x =>
      refine (ends_top read (by simp)).bind fun a t value hOp hNum => ?_
      subst value
      rw [← hOp, ← hNum] at looped
      refine (m.ends_bracketLoop looped).bind fun b u _ hOp' hNum' => ?_
      subst hOp' hNum'
      exact ⟨(), _, Act.bind_ended rfl, trivial, stPop_stack u.stOp _ _, rfl⟩

theorem ends_opLoop {op oldOp : Int} {stOp stNum : SK}
    (done : Computer.opLoop op fuel s.stOp s.stNum (some oldOp) = some (stOp, stNum)) :
    Ends (m.opLoop op fuel oldOp) s (fun _ => True) stOp stNum := by
  induction fuel generalizing s oldOp with
  | zero => cases done
  | succ fuel ih =>
      rw [Computer.opLoop, Option.bind_eq_bind, Option.bind_some] at done
      rw [opLoop]
      split at done
      · next binds =>
          rw [if_pos binds]
          rcases popped : stPop s.stOp (some oldOp) with ⟨st, v, ret⟩
          rw [popped] at done
          obtain ⟨old, rfl, applied⟩ := Option.bind_eq_some_iff.mp done
          obtain ⟨num, computed, rest⟩ := Option.bind_eq_some_iff.mp applied
          refine m.ends_apply popped computed fun t hOp hNum => ?_
          subst hOp hNum
          refine .after (isempty_eq t) ?_
          dsimp only at rest
          split at rest
          · next empty =>
              rw [if_pos empty]
              cases rest
              exact ⟨(), t, rfl, trivial, rfl, rfl⟩
          · next stored =>
              rw [if_neg stored]
              obtain ⟨top, ret', read⟩ := stTop_some t.stOp old
              rw [read] at rest
              refine (ends_top read fun _ mem => (Option.some.inj mem).symm).bind ?_
              intro x u value hOp hNum
              subst value
              rw [← hOp, ← hNum] at rest
              exact ih rest
      · next weak =>
          rw [if_neg weak]
          cases done
          exact ⟨(), s, rfl, trivial, rfl, rfl⟩

theorem ends_dealOp {op : Int} {stOp stNum : SK}
    (done : Computer.dealOp fuel s.stOp s.stNum op = some (stOp, stNum)) :
    Ends (m.dealOp fuel op) s (fun _ => True) stOp stNum := by
  have pushed : ∀ t : Conf, Ends (callPush .op none op) t (fun _ => True)
      (stPush t.stOp op).1 t.stNum := fun t => ⟨(), _, rfl, trivial, rfl, rfl⟩
  rw [Computer.dealOp] at done
  refine .after (isempty_eq s) ?_
  split at done
  · next now =>
      rw [if_pos now]
      cases done
      exact pushed s
  · next later =>
      rw [if_neg later]
      refine .after (m.unset_eq s) ?_
      rcases read : stTop s.stOp none with ⟨v, ret⟩
      rw [read] at done
      obtain ⟨old, rfl, applied⟩ := Option.bind_eq_some_iff.mp done
      refine (ends_top read (by simp)).bind fun a t value hOp hNum => ?_
      subst value
      rw [← hOp, ← hNum] at applied
      split at applied
      · next weak =>
          rw [if_pos weak]
          cases applied
          exact pushed t
      · next binds =>
          rw [if_neg binds]
          obtain ⟨⟨sOp, sNum⟩, looped, applied⟩ := Option.bind_eq_some_iff.mp applied
          cases applied
          refine (m.ends_opLoop looped).bind fun _ u _ hOp' hNum' => ?_
          subst hOp' hNum'
          exact pushed u

theorem ends_callVal (v : Vars) (hOp : s.stOp = v.stOp) (hNum : s.stNum = v.stNum) :
    Ends (callVal v.val) s (· = (pushVal v).val) (pushVal v).stOp (pushVal v).stNum := by
  rw [callVal, pushVal]
  split
  · exact ⟨0, _, Act.bind_ended rfl, rfl, hOp, congrArg (fun st => (stPush st v.val).1) hNum⟩
  · exact ⟨v.val, s, rfl, rfl, hOp, hNum⟩

theorem ends_deal {c : UInt8} {α : Type} {f : SK × SK → Option α} {r : α}
    (done : (if c = 41 then Computer.dealBracket fuel s.stOp s.stNum >>= f
      else Computer.dealOp fuel s.stOp s.stNum (signed c) >>= f) = some r) (left : Nat) :
    ∃ stOp stNum, Ends (m.deal fuel c left) s (fun _ => True) stOp stNum ∧
      f (stOp, stNum) = some r := by
  rw [deal]
  split at done
  · next bracket =>
      rw [if_pos bracket]
      obtain ⟨⟨stOp, stNum⟩, dealt, rest⟩ := Option.bind_eq_some_iff.mp done
      exact ⟨stOp, stNum, m.ends_dealBracket dealt _, rest⟩
  · next other =>
      rw [if_neg other]
      obtain ⟨⟨stOp, stNum⟩, dealt, rest⟩ := Option.bind_eq_some_iff.mp done
      exact ⟨stOp, stNum, m.ends_dealOp dealt, rest⟩

/-- One more digit of a literal that stays an `int`. -/
theorem ends_digit {c : UInt8} {val : Int} (digit : isdigit c = true) (nonneg : 0 ≤ val)
    (int : IsInt (val * 10 + (signed c - 48))) (s : Conf) {α : Type} (f : Int → Act Conf α) :
    (m.calculate .mul val 10 >>= fun tens => m.calculate .add tens (signed c - 48) >>= f) s =
      f (val * 10 + (signed c - 48)) s := by
  have range := isdigit_iff.mp digit
  rw [signed_digit digit] at int ⊢
  have tens : Arith.mul.apply val 10 = some (val * 10) := by
    have small : IsInt (val * 10) := ⟨by omega, by have := int.2; omega⟩
    rw [Arith.apply, if_neg (by simp [Arith.result, small])]
    rfl
  have sum : Arith.add.apply (val * 10) (c.toNat - 48) = some (val * 10 + (c.toNat - 48)) := by
    rw [Arith.apply, if_neg (by simp [Arith.result, int])]
    rfl
  rw [calculate, m.arith_of_apply tens]
  refine (Act.bind_ended rfl).trans ?_
  rw [calculate, m.arith_of_apply sum]
  exact Act.bind_ended rfl

theorem ends_mainLoop {str : List UInt8} {v v' : Vars}
    (done : Computer.mainLoop fuel str v = some v') (nonneg : 0 ≤ v.val) (hOp : s.stOp = v.stOp)
    (hNum : s.stNum = v.stNum) :
    Ends (m.mainLoop fuel str v.val) s (· = v'.val) v'.stOp v'.stNum := by
  induction str generalizing v s with
  | nil =>
      cases done
      exact ⟨_, s, rfl, rfl, hOp, hNum⟩
  | cons c str ih =>
      rw [Computer.mainLoop] at done
      rw [mainLoop]
      split at done
      · next digit =>
          rw [if_pos digit]
          dsimp only at done
          split at done
          · next int =>
              have range := isdigit_iff.mp digit
              have grown : 0 ≤ v.val * 10 + (signed c - 48) := by
                rw [signed_digit digit]
                omega
              obtain ⟨a, t, ran, rest⟩ := ih done grown hOp hNum
              exact ⟨a, t, (m.ends_digit digit nonneg int s _).trans ran, rest⟩
          · cases done
      · next sign =>
          rw [if_neg sign]
          refine (ends_callVal v hOp hNum).bind fun val t value hOp₁ hNum₁ => ?_
          subst value
          dsimp only at done
          rw [← hOp₁, ← hNum₁] at done
          obtain ⟨stOp, stNum, dealt, rest⟩ := m.ends_deal done str.length
          refine dealt.bind fun _ u _ hOp₂ hNum₂ => ?_
          have zero : 0 ≤ (pushVal v).val := Int.le_of_eq (pushVal_val v).symm
          exact ih (v := ⟨stOp, stNum, (pushVal v).val⟩) rest zero hOp₂ hNum₂

theorem ends_endLoop {st : SK} (done : Computer.endLoop fuel s.stOp s.stNum = some st) :
    ∃ stOp, Ends (m.endLoop fuel) s (fun _ => True) stOp st := by
  induction fuel generalizing s with
  | zero => cases done
  | succ fuel ih =>
      rw [Computer.endLoop] at done
      split at done
      · next empty =>
          cases done
          refine ⟨s.stOp, .after (isempty_eq s) ?_⟩
          rw [if_pos empty]
          exact ⟨(), s, rfl, trivial, rfl, rfl⟩
      · next stored =>
          rcases popped : stPop s.stOp none with ⟨sOp, v, ret⟩
          rw [popped] at done
          obtain ⟨op, rfl, applied⟩ := Option.bind_eq_some_iff.mp done
          obtain ⟨num, computed, rest⟩ := Option.bind_eq_some_iff.mp applied
          have pop : callPop .op (m.junk s.calls.length) s =
              .ended op (s.after .op sOp ⟨none, ret⟩) :=
            callPop_of_stPop (p := .op) popped (by simp)
          obtain ⟨_, t, ran, -, hOp, hNum⟩ :=
            m.ends_compute (s := s.after .op sOp ⟨none, ret⟩) computed
          rw [show sOp = t.stOp from hOp.symm, ← hNum] at rest
          obtain ⟨stOp, ends⟩ := ih rest
          refine ⟨stOp, .after (isempty_eq s) ?_⟩
          rw [if_neg stored]
          exact .after (m.unset_eq s) (.after pop (.after ran ends))

/-- Where C says what the calculator does, every machine does it: what `Computer.main` leaves on
the operand stack is what the last `st_pop` finds there. -/
theorem main_of_computer {op num : Nat → Int} {str : List UInt8} {st : SK}
    (done : Computer.main fuel str op num = some st) :
    ∃ val t, m.main fuel str (.start op num) = .ended val t ∧ t.stNum = (stPop st none).1 := by
  obtain ⟨v, looped, ended⟩ := Option.bind_eq_some_iff.mp done
  obtain ⟨val, s₁, ran₁, rfl, hOp₁, hNum₁⟩ :=
    m.ends_mainLoop (s := .start op num) looped (Int.le_refl 0) rfl rfl
  obtain ⟨val', s₂, ran₂, -, hOp₂, hNum₂⟩ := ends_callVal v hOp₁ hNum₁
  dsimp only at ended
  rw [← hOp₂, ← hNum₂] at ended
  obtain ⟨stOp, _, s₃, ran₃, -, -, rfl⟩ := m.ends_endLoop ended
  have ran : m.main fuel str (.start op num) = callPop .num val' s₃ := by
    rw [main, Act.bind_ended ran₁, Act.bind_ended ran₂, Act.bind_ended ran₃]
  exact ⟨_, _, ran, stPop_stack s₃.stNum (some val') none⟩

end Machine

end Shang.Computer
