import Shang.Stack.ComputerTrace

/-!
# When the calculator ends

The loop of `deal_bracket` goes on until `old_op` is a left bracket, and a failed
`st_pop` or `st_top` leaves `old_op` as it is. Behind the last operator it goes on
forever. What waits on `st_op` depends on the characters only, so `Passes` follows
it along the input, and the calculator ends exactly on the inputs that pass,
`main_ends_iff`.
-/

namespace Shang.Computer

open Shang.Lib

/-- What waits on `st_op` behind an operator or a left bracket, from the top. -/
def waiting (T : List Int) (op : Int) : List Int :=
  let T' := if op = 40 then T else T.dropWhile fun old => getPri op ≤ getPri old
  if T'.length < MAXSIZE then op :: T' else T'

/-- Each right bracket of the input finds a left one on `st_op`, where these wait; or it finds the
stack empty, and `old_op`, which was not set, happens to be a left bracket. -/
def Passes (oldOp : Nat → Int) : List Int → List UInt8 → Prop
  | _, [] => True
  | T, c :: str =>
      if isdigit c then Passes oldOp T str
      else if c = 41 then
        (40 ∈ T ∨ T = [] ∧ oldOp str.length = 40) ∧
          Passes oldOp (T.dropWhile fun op => op ≠ 40).tail str
      else Passes oldOp (waiting T (signed c)) str

namespace Machine

variable {m : Machine} {s : Conf} {T : List Int} {x data op : Int} {fuel : Nat} {stops : Prop}

/-! ## The operator stack -/

theorem top_cons (h : Holds s.stOp (x :: T)) (data : Int) :
    ∃ t, callTop .op data s = .ended x t ∧ t.stOp = s.stOp := by
  refine ⟨s.after .op s.stOp ⟨none, 0⟩, ?_, rfl⟩
  rw [callTop, Conf.stack, h.stTop (some data)]
  rfl

theorem top_nil (h : Holds s.stOp []) (data : Int) :
    ∃ t, callTop .op data s = .ended data t ∧ t.stOp = s.stOp := by
  refine ⟨s.after .op s.stOp ⟨none, -1⟩, ?_, rfl⟩
  rw [callTop, Conf.stack, stTop, h.stIsempty_nil, if_pos rfl]
  rfl

theorem pop_cons (h : Holds s.stOp (x :: T)) (data : Int) :
    ∃ t, callPop .op data s = .ended x t ∧ Holds t.stOp T := by
  obtain ⟨st, popped, holds⟩ := h.stPop (some data)
  refine ⟨s.after .op st ⟨none, 0⟩, ?_, holds⟩
  rw [callPop, Conf.stack, popped]
  rfl

theorem pop_nil (h : Holds s.stOp []) (data : Int) :
    ∃ t, callPop .op data s = .ended data t ∧ Holds t.stOp [] := by
  refine ⟨s.after .op s.stOp ⟨none, -1⟩, ?_, h⟩
  rw [callPop, Conf.stack, stPop, h.stIsempty_nil, if_pos rfl]
  rfl

theorem popNum_stOp (s : Conf) (data : Int) :
    ∃ x t, callPop .num data s = .ended x t ∧ t.stOp = s.stOp := ⟨_, _, rfl, rfl⟩

/-- `compute` works on the other stack. -/
def Works (m : Machine) (stops : Prop) (op : Int) : Prop :=
  ∀ s : Conf, (m.compute op s).Meets (fun _ t => t.stOp = s.stOp) stops False

theorem works (op : Int) (may : ∀ o x y, m.arith o x y = none → code o = op → stops) :
    Works m stops op := by
  intro s
  have switch : ∀ x y t, (m.result op x y t).Meets (fun _ u => u = t) stops False := by
    intro x y t
    have calculated : ∀ o x y, code o = op →
        (m.calculate o x y t).Meets (fun _ u => u = t) stops False := by
      intro o x y same
      rw [calculate]
      cases result : m.arith o x y with
      | none => exact may o x y result same
      | some z => rfl
    unfold Machine.result
    split
    · exact calculated .add _ _ rfl
    · exact calculated .sub _ _ rfl
    · exact calculated .mul _ _ rfl
    · exact calculated .div _ _ rfl
    · rfl
  obtain ⟨v1, s₁, pop₁, same₁⟩ := popNum_stOp s (m.junk s.calls.length)
  obtain ⟨v2, s₂, pop₂, same₂⟩ := popNum_stOp s₁ (m.junk s₁.calls.length)
  rw [compute, Act.bind_ended (m.unset_eq s), Act.bind_ended pop₁, Act.bind_ended (m.unset_eq s₁),
    Act.bind_ended pop₂]
  refine Act.meets_bind (switch v1 v2 s₂) fun v3 t same => ?_
  subst same
  exact same₂.trans same₁

/-- No `compute` runs out of fuel. -/
theorem works_true (op : Int) : Works m True op := works op fun _ _ _ _ _ => trivial

/-! ## Right brackets -/

/-- Without an operator on the stack, nothing changes `old_op`. -/
theorem bracketLoop_runs (compute : Works m stops x) (other : x ≠ 40) (h : Holds s.stOp []) :
    (m.bracketLoop fuel x s).Meets (fun _ _ => False) stops True := by
  induction fuel generalizing s with
  | zero => trivial
  | succ fuel ih =>
      rw [bracketLoop, if_pos other]
      obtain ⟨t, popped, ht⟩ := pop_nil h x
      rw [Act.bind_ended popped]
      refine Act.meets_bind ((compute t).mono id id False.elim) fun _ u same => ?_
      rw [← same] at ht
      obtain ⟨w, read, same'⟩ := top_nil ht x
      rw [Act.bind_ended read]
      rw [← same'] at ht
      exact ih ht

theorem dealBracket_split (fuel : Nat) (data : Int) (s : Conf) :
    m.dealBracket fuel data s = ((callTop .op data >>= m.bracketLoop fuel) >>=
      fun old => callPop .op old >>= fun _ => pure ()) s := (Act.bind_assoc _ _ _ s).symm

/-- No left bracket waits: the loop never ends. -/
theorem topLoop_runs (fuel : Nat) (computes : ∀ op, op ∈ T ∨ T = [] ∧ op = data → Works m stops op)
    (h : Holds s.stOp T) (none : 40 ∉ T) (other : T = [] → data ≠ 40) :
    ((callTop .op data >>= m.bracketLoop fuel) s).Meets (fun _ _ => False) stops True := by
  induction T generalizing s data fuel with
  | nil =>
      obtain ⟨t, read, same⟩ := top_nil h data
      rw [← same] at h
      rw [Act.bind_ended read]
      exact bracketLoop_runs (computes data (.inr ⟨rfl, rfl⟩)) (other rfl) h
  | cons x T ih =>
      have compute : Works m stops x := computes x (.inl List.mem_cons_self)
      have noBracket : x ≠ 40 := fun eq => none (eq ▸ List.mem_cons_self)
      obtain ⟨t, read, same⟩ := top_cons h data
      rw [← same] at h
      rw [Act.bind_ended read]
      cases fuel with
      | zero => trivial
      | succ fuel =>
          obtain ⟨u, popped, hu⟩ := pop_cons h x
          rw [bracketLoop, if_pos noBracket, Act.bind_ended popped]
          refine Act.meets_bind ((compute u).mono id id False.elim) fun _ w same' => ?_
          rw [← same'] at hu
          refine ih fuel (fun op which => computes op ?_) hu
            (fun mem => none (List.mem_cons_of_mem x mem)) fun _ => noBracket
          rcases which with mem | ⟨-, rfl⟩
          · exact .inl (List.mem_cons_of_mem x mem)
          · exact .inl List.mem_cons_self

theorem dealBracket_runs (fuel : Nat)
    (computes : ∀ op, op ∈ T ∨ T = [] ∧ op = data → Works m stops op) (h : Holds s.stOp T)
    (none : 40 ∉ T) (other : T = [] → data ≠ 40) :
    (m.dealBracket fuel data s).Meets (fun _ _ => False) stops True := by
  rw [dealBracket_split]
  exact Act.meets_bind (topLoop_runs fuel computes h none other) fun _ _ => False.elim

/-- A left bracket waits: everything above it is applied. -/
theorem bracketLoop_meets (h : Holds s.stOp T) (bracket : 40 ∈ T) :
    ((callTop .op data >>= m.bracketLoop fuel) s).Meets
      (fun _ t => Holds t.stOp (T.dropWhile fun op => op ≠ 40)) True (fuel ≤ T.length) := by
  induction T generalizing s data fuel with
  | nil => cases bracket
  | cons x T ih =>
      obtain ⟨t, read, same⟩ := top_cons h data
      rw [← same] at h
      rw [Act.bind_ended read]
      cases fuel with
      | zero => exact Nat.zero_le _
      | succ fuel =>
          rw [bracketLoop]
          by_cases here : x = 40
          · subst here
            rw [if_neg (not_not.mpr rfl)]
            exact h
          · obtain ⟨u, popped, hu⟩ := pop_cons h x
            rw [if_pos here, Act.bind_ended popped,
              List.dropWhile_cons_of_pos (by simpa using here)]
            refine Act.meets_bind (((works_true x) u).mono id id False.elim) fun _ w same' => ?_
            rw [← same'] at hu
            exact (ih hu ((List.mem_cons.mp bracket).resolve_left (Ne.symm here))).mono id id
              Nat.succ_le_succ

/-- The right bracket ends with what waits below the left one. -/
theorem dealBracket_meets (h : Holds s.stOp T) (closes : 40 ∈ T ∨ T = [] ∧ data = 40) :
    (m.dealBracket fuel data s).Meets
      (fun _ t => Holds t.stOp (T.dropWhile fun op => op ≠ 40).tail) True (fuel ≤ T.length) := by
  rw [dealBracket_split]
  rcases closes with bracket | ⟨rfl, rfl⟩
  · refine Act.meets_bind (bracketLoop_meets h bracket) fun old t ht => ?_
    cases left : T.dropWhile fun op => op ≠ 40 with
    | nil =>
        have := List.dropWhile_eq_nil_iff.mp left 40 bracket
        simp at this
    | cons x T' =>
        rw [left] at ht
        obtain ⟨u, popped, hu⟩ := pop_cons ht old
        rw [Act.bind_ended popped]
        exact hu
  · obtain ⟨t, read, same⟩ := top_nil h 40
    cases fuel with
    | zero =>
        rw [Act.bind_cut ((Act.bind_ended read).trans rfl)]
        exact Nat.le_refl 0
    | succ fuel =>
        rw [← same] at h
        obtain ⟨u, popped, hu⟩ := pop_nil h 40
        have looped : (callTop .op 40 >>= m.bracketLoop (fuel + 1)) s = .ended 40 t := by
          rw [Act.bind_ended read, bracketLoop, if_neg (not_not.mpr rfl)]
          rfl
        rw [Act.bind_ended looped, Act.bind_ended popped]
        exact hu

/-! ## Operators -/

/-- The operators that do not bind less go, one in each round. -/
theorem opLoop_meets (h : Holds s.stOp (x :: T)) :
    (m.opLoop op fuel x s).Meets
      (fun _ t => Holds t.stOp ((x :: T).dropWhile fun old => getPri op ≤ getPri old)) True
      (fuel ≤ T.length + 1) := by
  induction T generalizing s x fuel with
  | nil =>
      cases fuel with
      | zero => exact Nat.zero_le _
      | succ fuel =>
          rw [opLoop]
          split
          · next binds =>
              obtain ⟨u, popped, hu⟩ := pop_cons h x
              rw [Act.bind_ended popped, List.dropWhile_cons_of_pos (by simpa using binds)]
              refine Act.meets_bind (((works_true x) u).mono id id False.elim) fun _ w same' => ?_
              rw [← same'] at hu
              rw [Act.bind_ended (isempty_eq w), if_pos hu.stIsempty_nil]
              exact hu
          · next weak =>
              rw [List.dropWhile_cons_of_neg (by simpa using weak)]
              exact h
  | cons y T ih =>
      cases fuel with
      | zero => exact Nat.zero_le _
      | succ fuel =>
          rw [opLoop]
          split
          · next binds =>
              obtain ⟨u, popped, hu⟩ := pop_cons h x
              rw [Act.bind_ended popped, List.dropWhile_cons_of_pos (by simpa using binds)]
              refine Act.meets_bind (((works_true x) u).mono id id False.elim) fun _ w same' => ?_
              rw [← same'] at hu
              obtain ⟨t, read, same⟩ := top_cons hu x
              rw [← same] at hu
              rw [Act.bind_ended (isempty_eq w), ← same, hu.stIsempty_cons,
                if_neg Bool.false_ne_true, Act.bind_ended read]
              exact (ih hu).mono id id Nat.succ_le_succ
          · next weak =>
              rw [List.dropWhile_cons_of_neg (by simpa using weak)]
              exact h

theorem callPush_meets (h : Holds s.stOp T) (op : Int) {cuts : Prop} :
    (callPush .op none op s).Meets
      (fun _ t => Holds t.stOp (if T.length < MAXSIZE then op :: T else T)) True cuts := by
  split
  · next room => exact h.stPush room op
  · next full =>
      have fits := h.fits
      have refused := h.stPush_full (show T.length = MAXSIZE by omega) op
      rw [callPush, Conf.stack, refused]
      exact h

/-- An operator waits on those that bind less, if there is room. -/
theorem dealOp_meets (h : Holds s.stOp T) :
    (m.dealOp fuel op s).Meets (fun _ t => Holds t.stOp (waiting T op)) True (fuel ≤ T.length) := by
  rw [dealOp, Act.bind_ended (isempty_eq s)]
  by_cases bracket : op = 40
  · rw [if_pos (.inr bracket), waiting, if_pos bracket]
    exact callPush_meets h op
  · cases T with
    | nil =>
        rw [if_pos (.inl h.stIsempty_nil), waiting, if_neg bracket]
        exact callPush_meets h op
    | cons x T =>
        obtain ⟨t, read, same⟩ := top_cons h (m.junk s.calls.length)
        have stored := h.stIsempty_cons
        rw [← same] at h
        rw [if_neg (by simp [stored, bracket]), Act.bind_ended (m.unset_eq s), Act.bind_ended read]
        rcases Nat.lt_or_ge (getPri x) (getPri op) with weak | binds
        · rw [if_pos weak, waiting, if_neg bracket,
            List.dropWhile_cons_of_neg (by simpa using weak)]
          exact callPush_meets h op
        · rw [if_neg (Nat.not_lt.mpr binds), waiting, if_neg bracket]
          exact Act.meets_bind (opLoop_meets h) fun _ u hu => callPush_meets hu op

/-! ## The program -/

variable {c : UInt8} {val : Int} {str : List UInt8}

theorem callVal_stOp (val : Int) (s : Conf) :
    ∃ t, callVal val s = .ended 0 t ∧ t.stOp = s.stOp := by
  rw [callVal]
  split
  · exact ⟨_, Act.bind_ended rfl, rfl⟩
  · next zero =>
      rw [not_not.mp zero]
      exact ⟨s, rfl, rfl⟩

/-- The main loop comes to its end only if the input passes, and then it does. -/
theorem mainLoop_meets (h : Holds s.stOp T) :
    (m.mainLoop fuel str val s).Meets
      (fun _ t => Passes m.oldOp T str ∧ ∃ T', Holds t.stOp T') True
      (Passes m.oldOp T str → fuel ≤ MAXSIZE) := by
  induction str generalizing s T val with
  | nil => exact ⟨trivial, T, h⟩
  | cons c str ih =>
      rw [mainLoop, Passes]
      split
      · rw [calculate]
        cases m.arith .mul val 10 with
        | none => trivial
        | some tens =>
            refine (Act.meets_bind (Q := fun _ t => t = s) rfl fun tens t same => ?_)
            subst same
            rw [calculate]
            cases m.arith .add tens (signed c - 48) with
            | none => trivial
            | some sum => exact ih h
      · obtain ⟨t, called, same⟩ := callVal_stOp val s
        rw [← same] at h
        rw [Act.bind_ended called, deal]
        split
        · by_cases closes : 40 ∈ T ∨ T = [] ∧ m.oldOp str.length = 40
          · have fits := h.fits
            refine Act.meets_bind ((dealBracket_meets h closes).mono id id fun few _ => ?_)
              fun _ u hu => ?_
            · omega
            · exact (ih hu).mono (fun h => ⟨⟨closes, h.1⟩, h.2⟩) id fun few passes => few passes.2
          · rw [not_or, not_and] at closes
            have runs := dealBracket_runs (m := m) fuel (fun op _ => works_true op) h closes.1
              closes.2
            refine Act.meets_bind (runs.mono False.elim id fun _ passes => ?_) fun _ _ => False.elim
            rcases passes.1 with mem | ⟨rfl, eq⟩
            · exact absurd mem closes.1
            · exact absurd eq (closes.2 rfl)
        · have fits := h.fits
          refine Act.meets_bind ((dealOp_meets h).mono id id fun few _ => ?_) fun _ u hu => ih hu
          omega

theorem endLoop_meets (h : Holds s.stOp T) :
    (m.endLoop fuel s).Meets (fun _ _ => True) True (fuel ≤ T.length) := by
  induction T generalizing s fuel with
  | nil =>
      cases fuel with
      | zero => exact Nat.le_refl 0
      | succ fuel =>
          rw [endLoop, Act.bind_ended (isempty_eq s), if_pos h.stIsempty_nil]
          trivial
  | cons x T ih =>
      cases fuel with
      | zero => exact Nat.zero_le _
      | succ fuel =>
          obtain ⟨t, popped, ht⟩ := pop_cons h (m.junk s.calls.length)
          rw [endLoop, Act.bind_ended (isempty_eq s), h.stIsempty_cons, if_neg Bool.false_ne_true,
            Act.bind_ended (m.unset_eq s), Act.bind_ended popped]
          refine Act.meets_bind (((works_true x) t).mono id id False.elim) fun _ u same => ?_
          rw [← same] at ht
          exact (ih ht).mono id id Nat.succ_le_succ

theorem main_meets (m : Machine) (fuel : Nat) (str : List UInt8) (op num : Nat → Int) :
    (m.main fuel str (.start op num)).Meets (fun _ _ => Passes m.oldOp [] str) True
      (Passes m.oldOp [] str → fuel ≤ MAXSIZE) := by
  refine Act.meets_bind (mainLoop_meets (holds_stCreate op)) fun val s => ?_
  rintro ⟨passes, T, h⟩
  have fits := h.fits
  obtain ⟨t, called, same⟩ := callVal_stOp val s
  rw [← same] at h
  rw [Act.bind_ended called]
  refine Act.meets_bind ((endLoop_meets h).mono id id fun few _ => ?_) fun _ _ _ => passes
  omega

/-- The machine on which results wrap around, and a division by zero stops the program. -/
def wrapping : Machine where
  arith op x y := if op = .div ∧ y = 0 then none else some ((op.result x y).bmod 4294967296)
  junk _ := 0
  oldOp _ := 0
  arith_of_apply := by
    intro op x y z applied
    unfold Arith.apply at applied
    split at applied
    · cases applied
    · next sound =>
        obtain ⟨defined, int⟩ := not_or.mp sound
        have int := not_not.mp int
        rw [if_neg defined, ← Option.some.inj applied]
        exact congrArg some (Int.bmod_eq_of_le (by have := int.1; omega) (by have := int.2; omega))
  isInt_of_arith := by
    intro op x y z applied
    split at applied
    · cases applied
    · rw [← Option.some.inj applied]
      have low := Int.le_bmod (x := op.result x y) (m := 4294967296) (by decide)
      have high := Int.bmod_lt (x := op.result x y) (m := 4294967296) (by decide)
      exact ⟨by omega, by omega⟩

theorem wrapping_adds : Works wrapping False 43 := by
  refine works 43 fun o x y result same => ?_
  cases o with
  | add => cases result
  | sub => cases same
  | mul => cases same
  | div => cases same

set_option maxRecDepth 100000 in
theorem wrapping_unmatched (fuel : Nat) :
    (wrapping.main fuel (ascii "1+2)") (.start (fun _ => 0) fun _ => 0)).Meets
      (fun _ _ => False) False True := by
  let s : Conf := ⟨⟨Function.update (fun _ => 0) 0 43, 0⟩,
    ⟨Function.update (Function.update (fun _ => 0) 0 1) 1 2, 1⟩,
    [⟨some 1, 0⟩, ⟨none, 0⟩, ⟨some 2, 0⟩]⟩
  have reads : wrapping.mainLoop fuel (ascii "1+2)") 0 (.start (fun _ => 0) fun _ => 0) =
      (wrapping.dealBracket fuel 0 >>= fun _ => pure 0) s := rfl
  have h : Holds s.stOp [43] := ⟨show (-1 : Int) ≤ 0 by decide, rfl, by decide⟩
  have computes : ∀ op, op ∈ [43] ∨ [43] = ([] : List Int) ∧ op = 0 → Works wrapping False op := by
    rintro op (mem | ⟨empty, -⟩)
    · rw [List.mem_singleton.mp mem]
      exact wrapping_adds
    · cases empty
  have runs := dealBracket_runs fuel computes h (by decide) fun empty => by cases empty
  refine Act.meets_bind (Q := fun _ _ => False) ?_ fun _ _ => False.elim
  rw [reads]
  exact Act.meets_bind runs fun _ _ => False.elim

end Machine

end Shang.Computer
