import Shang.Stack.Transform

/-!
# Where `transform` ends

The loop over the characters ends, and so do the loops behind it; what need not
end is the loop for a left bracket, which waits for a right one to come off the
stack `tmp`. Once `tmp` is empty, `pop_stack` leaves the variable `num` alone,
and the loop pushes it to `res` for ever, unless `num` is a right bracket from
an earlier pair or by chance.

`ends` says which inputs reach such a bracket. It reads the characters from the
end, as `transform` does, and keeps what counts of them in a `Seen`.
-/

namespace Shang.Transform

open Shang.Lib Shang.LinkStack

/-! ## The condition -/

/-- What was read: the number of right brackets without a left one, whether there was an operator
outside of brackets, and whether a pair of brackets was closed. -/
structure Seen where
  depth : Nat
  operator : Bool
  closed : Bool

/-- Every left bracket has a right one, or it comes before any operator outside of brackets and
finds a right bracket in `num`, whose first value is the parameter. What is in front of the last
character that is none of an expression is not read. -/
def ends (num : UInt8) : Seen → List UInt8 → Bool
  | _, [] => true
  | s, c :: front =>
      if isNumber c then ends num s front
      else if isOperator c then ends num { s with operator := s.operator || s.depth = 0 } front
      else if isRight c then ends num { s with depth := s.depth + 1 } front
      else if isLeft c then
        if s.depth = 0 then !s.operator && (s.closed || num = 41) && ends num s front
        else ends num { s with depth := s.depth - 1, closed := true } front
      else true

/-- The characters of expressions. -/
def valid (c : UInt8) : Bool := isNumber c || isOperator c || isRight c || isLeft c

/-- The kinds of characters. -/
inductive Kind : UInt8 → Prop
  | number {c : UInt8} (digit : isNumber c = true) : Kind c
  | operator (o : Arith) : Kind o.char
  | right : Kind 41
  | left : Kind 40
  | other {c : UInt8} (invalid : valid c = false) : Kind c

theorem kind (c : UInt8) : Kind c := by
  cases digit : isNumber c with
  | true => exact .number digit
  | false =>
      by_cases known : valid c = true
      · simp only [valid, digit, isOperator, isRight, isLeft, Bool.or_eq_true, decide_eq_true_eq,
          Bool.false_eq_true, false_or] at known
        rcases known with ((((rfl | rfl) | rfl) | rfl) | rfl) | rfl
        · exact .operator .add
        · exact .operator .sub
        · exact .operator .mul
        · exact .operator .div
        · exact .right
        · exact .left
      · exact .other (Bool.eq_false_iff.mpr known)

variable {v v' : Vars} {op c data num first : UInt8} {s : Seen} {R T ops front rest : List UInt8}
  {fuel : Nat}

theorem valid_number (digit : isNumber c = true) : valid c = true := by
  rw [valid, digit]
  rfl

theorem valid_operator (o : Arith) : valid o.char = true := by
  cases o <;> rfl

theorem scanLoop_number (digit : isNumber c = true) :
    scanLoop fuel (c :: front) v = scanLoop fuel front { v with res := pushStack v.res [c] } := by
  rw [scanLoop, if_pos digit]

theorem scanLoop_other (invalid : valid c = false) :
    scanLoop fuel (c :: front) v = some (v, c :: front) := by
  rw [valid, Bool.or_eq_false_iff, Bool.or_eq_false_iff, Bool.or_eq_false_iff] at invalid
  obtain ⟨⟨⟨number, operator⟩, right⟩, left⟩ := invalid
  rw [scanLoop, number, operator, right, left]
  rfl

theorem ends_number (digit : isNumber c = true) :
    ends first s (c :: front) = ends first s front := by
  rw [ends, if_pos digit]

theorem ends_operator (o : Arith) :
    ends first s (o.char :: front) =
      ends first { s with operator := s.operator || s.depth = 0 } front := by
  cases o <;> rfl

theorem ends_left :
    ends first s (40 :: front) =
      if s.depth = 0 then !s.operator && (s.closed || first = 41) && ends first s front
      else ends first { s with depth := s.depth - 1, closed := true } front := rfl

theorem ends_other (invalid : valid c = false) : ends first s (c :: front) = true := by
  rw [valid, Bool.or_eq_false_iff, Bool.or_eq_false_iff, Bool.or_eq_false_iff] at invalid
  obtain ⟨⟨⟨number, operator⟩, right⟩, left⟩ := invalid
  rw [ends, number, operator, right, left]
  rfl

/-! ## More fuel -/

theorem operatorLoop_mono (ran : operatorLoop op fuel v = some v') :
    operatorLoop op (fuel + 1) v = some v' := by
  induction fuel generalizing v with
  | zero => cases ran
  | succ fuel ih =>
      rw [operatorLoop] at ran ⊢
      dsimp only at ran ⊢
      split at ran
      · next empty =>
          rw [if_pos empty]
          exact ran
      · next stored =>
          rw [if_neg stored]
          split at ran
          · next binds =>
              rw [if_pos binds]
              exact ih ran
          · next weak =>
              rw [if_neg weak]
              exact ran

theorem bracketLoop_mono (ran : bracketLoop fuel v = some v') :
    bracketLoop (fuel + 1) v = some v' := by
  induction fuel generalizing v with
  | zero => cases ran
  | succ fuel ih =>
      rw [bracketLoop] at ran ⊢
      dsimp only at ran ⊢
      split at ran
      · next here =>
          rw [if_pos here]
          exact ran
      · next other =>
          rw [if_neg other]
          exact ih ran

theorem scanLoop_succ (ran : scanLoop fuel front v = some (v', rest)) :
    scanLoop (fuel + 1) front v = some (v', rest) := by
  induction front generalizing v with
  | nil => exact ran
  | cons c front ih =>
      cases kind c with
      | number digit =>
          rw [scanLoop_number digit] at ran ⊢
          exact ih ran
      | operator o =>
          rw [scanLoop_operator] at ran ⊢
          obtain ⟨u, loop, later⟩ := Option.bind_eq_some_iff.mp ran
          exact Option.bind_eq_some_iff.mpr ⟨u, operatorLoop_mono loop, ih later⟩
      | right => exact ih ran
      | left =>
          rw [scanLoop_left] at ran ⊢
          obtain ⟨u, loop, later⟩ := Option.bind_eq_some_iff.mp ran
          exact Option.bind_eq_some_iff.mpr ⟨u, bracketLoop_mono loop, ih later⟩
      | other invalid =>
          rw [scanLoop_other invalid] at ran ⊢
          exact ran

theorem scanLoop_mono (more : Nat)
    (ran : scanLoop fuel front v = some (v', rest)) :
    scanLoop (fuel + more) front v = some (v', rest) := by
  induction more with
  | zero => exact ran
  | succ more ih => exact scanLoop_succ ih

theorem flushLoop_mono (ran : flushLoop fuel v = some v') : flushLoop (fuel + 1) v = some v' := by
  induction fuel generalizing v with
  | zero => cases ran
  | succ fuel ih =>
      rw [flushLoop] at ran ⊢
      dsimp only at ran ⊢
      split at ran
      · next empty =>
          rw [if_pos empty]
          exact ran
      · next stored =>
          rw [if_neg stored]
          exact ih ran

theorem emitLoop_mono {res : ByteStack} {buf buf' : List UInt8} {i : Nat}
    (ran : emitLoop fuel res buf i = some buf') : emitLoop (fuel + 1) res buf i = some buf' := by
  induction fuel generalizing res buf i with
  | zero => cases ran
  | succ fuel ih =>
      rw [emitLoop] at ran ⊢
      dsimp only at ran ⊢
      split at ran
      · next empty =>
          rw [if_pos empty]
          exact ran
      · next stored =>
          rw [if_neg stored]
          split at ran
          · next inside =>
              rw [if_pos inside]
              exact ih ran
          · cases ran

theorem transform_mono {e buf : List UInt8} {r : Int × List UInt8} (more : Nat)
    (ran : transform fuel e buf data num = some r) :
    transform (fuel + more) e buf data num = some r := by
  induction more with
  | zero => exact ran
  | succ more ih =>
      obtain ⟨⟨v, rest⟩, scan, later⟩ := Option.bind_eq_some_iff.mp ih
      refine Option.bind_eq_some_iff.mpr ⟨⟨v, rest⟩, scanLoop_succ scan, ?_⟩
      dsimp only at later ⊢
      split at later
      · next unread =>
          rw [if_pos unread]
          exact later
      · next read =>
          rw [if_neg read]
          obtain ⟨v', flushed, later⟩ := Option.bind_eq_some_iff.mp later
          obtain ⟨buf', written, later⟩ := Option.bind_eq_some_iff.mp later
          refine Option.bind_eq_some_iff.mpr ⟨v', flushLoop_mono flushed, ?_⟩
          exact Option.bind_eq_some_iff.mpr ⟨buf', emitLoop_mono written, later⟩

/-- All that was read are characters of expressions. -/
theorem scanLoop_rest (ran : scanLoop fuel front v = some (v', rest)) :
    rest = [] ↔ front.all valid = true := by
  induction front generalizing v with
  | nil =>
      cases ran
      simp
  | cons c front ih =>
      rw [List.all_cons]
      cases kind c with
      | number digit =>
          rw [scanLoop_number digit] at ran
          rw [valid_number digit, Bool.true_and]
          exact ih ran
      | operator o =>
          rw [scanLoop_operator] at ran
          obtain ⟨u, -, later⟩ := Option.bind_eq_some_iff.mp ran
          rw [valid_operator, Bool.true_and]
          exact ih later
      | right => exact ih (v := { v with tmp := pushStack v.tmp [41] }) ran
      | left =>
          rw [scanLoop_left] at ran
          obtain ⟨u, -, later⟩ := Option.bind_eq_some_iff.mp ran
          exact ih later
      | other invalid =>
          rw [scanLoop_other invalid] at ran
          cases ran
          rw [invalid]
          simp

/-! ## The stack and what was read -/

/-- The stack `tmp` and the variable `num` after reading. -/
structure Fits (first : UInt8) (T : List UInt8) (num : UInt8) (s : Seen) : Prop where
  depth : T.count 41 = s.depth
  operator : s.operator = true ↔ T.getLast?.getD 41 ≠ 41
  fresh : T = [] → num = if s.closed then 41 else first

theorem Fits.plain (fits : Fits first T num s) (outside : s.depth = 0) : 41 ∉ T :=
  List.count_eq_zero.mp (fits.depth.trans outside)

/-- Outside of brackets, the stack is empty before the first operator. -/
theorem Fits.nil_iff (fits : Fits first T num s) (outside : s.depth = 0) :
    T = [] ↔ s.operator = false := by
  have plain := fits.plain outside
  rw [← Bool.not_eq_true, fits.operator, not_not]
  cases same : T.getLast? with
  | none => simpa using same
  | some o =>
      have mem := List.mem_of_getLast? same
      refine ⟨fun empty => ?_, fun bracket => ?_⟩
      · rw [empty] at mem
        cases mem
      · rw [show o = 41 from bracket] at mem
        exact absurd mem plain

theorem Fits.bracket_iff (fits : Fits first T num s) (empty : T = []) :
    num = 41 ↔ (s.closed || first = 41) = true := by
  rw [fits.fresh empty]
  cases s.closed <;> simp

/-- An operator is pushed, after some operators were moved. -/
theorem Fits.operator_step (fits : Fits first (ops ++ T) num s) (plain : 41 ∉ ops)
    (other : c ≠ 41) (num' : UInt8) :
    Fits first (c :: T) num' { s with operator := s.operator || s.depth = 0 } := by
  have depth : T.count 41 = s.depth := by
    rw [← fits.depth, List.count_append, List.count_eq_zero.mpr plain, Nat.zero_add]
  have operator := fits.operator
  rw [List.getLast?_append] at operator
  refine ⟨?_, ?_, fun empty => by cases empty⟩
  · rw [List.count_cons_of_ne other, depth]
  · dsimp only
    rw [List.getLast?_cons, Option.getD_some, Bool.or_eq_true, operator, decide_eq_true_eq, ← depth]
    cases same : T.getLast? with
    | none =>
        rw [List.getLast?_eq_none_iff.mp same]
        simpa using other
    | some o =>
        have mem := List.mem_of_getLast? same
        simp only [Option.some_or, Option.getD_some, List.count_eq_zero, ne_eq]
        exact ⟨fun h => h.elim id fun out bracket => out (bracket ▸ mem), .inl⟩

theorem Fits.right_step (fits : Fits first T num s) :
    Fits first (41 :: T) num { s with depth := s.depth + 1 } := by
  refine ⟨?_, ?_, fun empty => by cases empty⟩
  · rw [List.count_cons_self, fits.depth]
  · rw [fits.operator, List.getLast?_cons, Option.getD_some]

/-- A right bracket is dropped, after some operators were moved. -/
theorem Fits.left_step (fits : Fits first (ops ++ 41 :: T) num s) (plain : 41 ∉ ops) :
    Fits first T 41 { s with depth := s.depth - 1, closed := true } := by
  refine ⟨?_, ?_, fun _ => rfl⟩
  · rw [← fits.depth, List.count_append, List.count_eq_zero.mpr plain, List.count_cons_self,
      Nat.zero_add, Nat.add_sub_cancel]
  · rw [fits.operator, List.getLast?_append, List.getLast?_cons, Option.some_or, Option.getD_some]

theorem fits_start : Fits first [] first ⟨0, false, false⟩ :=
  ⟨rfl, by simp, fun _ => rfl⟩

/-- The operators that are moved are no brackets. -/
theorem bracket_not_stronger (op : UInt8) : 41 ∉ T.takeWhile (stronger op) := by
  intro mem
  have strong := List.mem_takeWhile_imp mem
  rw [stronger, decide_eq_true_eq] at strong
  exact Nat.not_lt_zero _ strong

/-- Reading ends where the condition says, and no character is on the stacks twice. -/
def Outcome (k : Nat) (returns : Bool) : Option (Vars × List UInt8) → Prop
  | none => returns = false
  | some (v, _) => returns = true ∧
      ∃ R T data num, v = vars R T data num ∧ R.length + T.length ≤ k

/-- Outside of brackets, a left one is passed only with a right one in `num`. -/
theorem bracketLoop_outside (R : List UInt8) (data : UInt8) (fits : Fits first T num s)
    (outside : s.depth = 0) (enough : 0 < fuel) :
    bracketLoop fuel (vars R T data num) = none ∧
        (!s.operator && (s.closed || first = 41)) = false ∨
      bracketLoop fuel (vars R T data num) = some (vars R T data num) ∧
        (!s.operator && (s.closed || first = 41)) = true := by
  by_cases reaches : T = [] ∧ num = 41
  · obtain ⟨rfl, rfl⟩ := reaches
    obtain ⟨f, rfl⟩ : ∃ f, fuel = f + 1 := ⟨fuel - 1, by omega⟩
    refine .inr ⟨rfl, ?_⟩
    rw [(fits.nil_iff outside).mp rfl, (fits.bracket_iff rfl).mp rfl]
    rfl
  · refine .inl ⟨bracketLoop_open fuel R data num (fits.plain outside) fun empty bracket =>
      reaches ⟨empty, bracket⟩, Bool.eq_false_iff.mpr fun may => ?_⟩
    rw [Bool.and_eq_true, Bool.not_eq_true'] at may
    have empty := (fits.nil_iff outside).mpr may.1
    exact reaches ⟨empty, (fits.bracket_iff empty).mpr may.2⟩

/-- The fuel is enough for the loops that end. -/
theorem scanLoop_outcome {k : Nat} (R : List UInt8) (data : UInt8) (fits : Fits first T num s)
    (size : R.length + T.length + front.length ≤ k) (enough : k < fuel) :
    Outcome k (ends first s front) (scanLoop fuel front (vars R T data num)) := by
  induction front generalizing R T data num s with
  | nil => exact ⟨rfl, R, T, data, num, rfl, size⟩
  | cons c front ih =>
      rw [List.length_cons] at size
      cases kind c with
      | number digit =>
          rw [ends_number digit, scanLoop_number digit]
          exact ih (c :: R) data fits (by rw [List.length_cons]; omega)
      | operator o =>
          have other : o.char ≠ 41 := by
            cases o <;> decide
          obtain ⟨data', moved⟩ :=
            operatorLoop_spec o.char R data num (show T.length < fuel by omega)
          have parts := T.takeWhile_append_dropWhile (p := stronger o.char)
          have lengths := congrArg List.length parts
          rw [List.length_append] at lengths
          rw [← parts] at fits
          rw [ends_operator, scanLoop_operator, moved, Option.bind_some]
          refine ih _ data' (fits.operator_step (bracket_not_stronger o.char) other _) ?_
          rw [List.length_append, List.length_reverse, List.length_cons]
          omega
      | right => exact ih R data fits.right_step (by rw [List.length_cons]; omega)
      | left =>
          rw [ends_left, scanLoop_left]
          split
          · next outside =>
              rcases bracketLoop_outside R data fits outside (show 0 < fuel by omega) with
                ⟨ran, stops⟩ | ⟨ran, passes⟩
              · rw [ran, stops]
                rfl
              · rw [ran, passes, Option.bind_some, Bool.true_and]
                exact ih R data fits (by omega)
          · next inside =>
              have mem : 41 ∈ T := List.count_pos_iff.mp (by rw [fits.depth]; omega)
              obtain ⟨ops, T', rfl, plain⟩ := List.eq_append_cons_of_mem mem
              rw [List.length_append, List.length_cons] at size
              rw [bracketLoop_closed R data num plain (by omega), Option.bind_some]
              refine ih _ data (fits.left_step plain) ?_
              rw [List.length_append, List.length_reverse]
              omega
      | other invalid =>
          rw [ends_other invalid, scanLoop_other invalid]
          exact ⟨rfl, R, T, data, num, rfl, by omega⟩

/-! ## The whole function -/

theorem start_outcome (e : List UInt8) (data num : UInt8) (enough : e.length < fuel) :
    Outcome e.length (ends num ⟨0, false, false⟩ e.reverse)
      (scanLoop fuel e.reverse ⟨initStack 1, initStack 1, data, num⟩) :=
  scanLoop_outcome [] data fits_start (by simp) enough

/-- What is left on `tmp` is moved and `res` is written, if all characters were read. -/
theorem transform_of_scanLoop {e buf rest : List UInt8}
    (scan : scanLoop fuel e.reverse ⟨initStack 1, initStack 1, data, num⟩ = some (v, rest))
    (form : ∃ R T data num, v = vars R T data num ∧ R.length + T.length ≤ e.length)
    (room : e.length ≤ buf.length) (enough : e.length < fuel) :
    ∃ buf', transform fuel e buf data num = some (if e.all valid then 0 else -1, buf') := by
  have read := scanLoop_rest scan
  rw [List.all_reverse] at read
  rw [transform, scan, Option.bind_eq_bind, Option.bind_some]
  by_cases whole : rest = []
  · obtain ⟨R, T, data', num', rfl, size⟩ := form
    have flushed := flushLoop_spec R data' num' (show T.length < fuel by omega)
    have all : (T.reverse ++ R).length = R.length + T.length := by
      rw [List.length_append, List.length_reverse, Nat.add_comm]
    have written : emitLoop fuel (chars (T.reverse ++ R)) buf 0 =
        some (splice buf 0 (T.reverse ++ R)) :=
      emitLoop_spec (by omega) (by omega)
    refine ⟨splice buf 0 (T.reverse ++ R), ?_⟩
    simp only [whole, ne_eq, not_true_eq_false, ↓reduceIte, flushed, Option.bind_eq_bind,
      Option.bind_some, read.mp whole]
    simp only [vars, written, Option.bind_some]
  · refine ⟨buf, ?_⟩
    dsimp only
    rw [if_pos whole, if_neg (fun all => whole (read.mpr all))]

/-- `transform` comes to an end, with `0` for a string of characters of expressions and with `-1`
for any other, if and only if the condition says so. -/
theorem transform_returns (e : List UInt8) {buf : List UInt8} (room : e.length ≤ buf.length)
    (data num : UInt8) :
    (∃ fuel buf', transform fuel e buf data num = some (if e.all valid then 0 else -1, buf')) ↔
      ends num ⟨0, false, false⟩ e.reverse = true := by
  constructor
  · rintro ⟨fuel, buf', ran⟩
    obtain ⟨⟨v, rest⟩, scan, -⟩ := Option.bind_eq_some_iff.mp ran
    have outcome := start_outcome e data num (show e.length < fuel + (e.length + 1) by omega)
    rw [scanLoop_mono (e.length + 1) scan] at outcome
    exact outcome.1
  · intro may
    have outcome := start_outcome e data num (Nat.lt_succ_self e.length)
    rw [may] at outcome
    refine ⟨e.length + 1, ?_⟩
    cases scan : scanLoop (e.length + 1) e.reverse ⟨initStack 1, initStack 1, data, num⟩ with
    | none =>
        rw [scan] at outcome
        cases outcome
    | some r =>
        rw [scan] at outcome
        exact transform_of_scanLoop scan outcome.2 room (Nat.lt_succ_self e.length)

theorem transform_returns_closed :
    ∃ fuel buf', transform fuel (ascii "(1)+2") (List.replicate 32 0) 0 0 = some (0, buf') :=
  (transform_returns (ascii "(1)+2")
    (show (ascii "(1)+2").length ≤ (List.replicate 32 (0 : UInt8)).length by decide) 0 0).mpr
    (by decide)

/-- The left bracket of `(1+2` waits for a right one for ever, whatever is in the variables. -/
theorem transform_open_bracket :
    ¬ ∃ fuel data num r, transform fuel (ascii "(1+2") (List.replicate 32 0) data num = some r := by
  rintro ⟨fuel, data, num, r, ran⟩
  obtain ⟨_, scan, -⟩ := Option.bind_eq_some_iff.mp ran
  cases fuel with
  | zero => cases scan
  | succ fuel =>
      have waits : bracketLoop (fuel + 1) (vars [49, 50] [43] data num) = none :=
        bracketLoop_open (fuel + 1) [49, 50] data num (by decide) (fun empty => by cases empty)
      have read : scanLoop (fuel + 1) (ascii "(1+2").reverse ⟨initStack 1, initStack 1, data, num⟩ =
          (bracketLoop (fuel + 1) (vars [49, 50] [43] data num)).bind
            (scanLoop (fuel + 1) []) :=
        rfl
      rw [read, waits] at scan
      cases scan

end Shang.Transform
