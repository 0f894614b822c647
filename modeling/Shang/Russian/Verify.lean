import Shang.Russian.Placement

/-!
# The answers of verify

`verify` looks for fixed elements under the cells of the turned block, which it sets in
the static `tmp_arr` and resets one by one. When it returns in the middle, the others stay
set, and the next call looks under them too. Of the sides of the board it compares one
at most with the turned block.
-/

namespace Shang.Russian

open Lib

/-- `tmp_arr` after some calls of `verify`, each with its own variables and position. -/
def scratch (calls : List (World × Position)) : Grid :=
  calls.foldl (fun tmp call => (verify { call.1 with tmp := tmp } call.2).2) fun _ _ => false

/-- The variables when these calls have been made. -/
def World.after (s : World) (calls : List (World × Position)) : World :=
  { s with tmp := scratch calls }

/-- The cells of the turned block are on the board, and none of them is at a fixed element. -/
def Turns (s : World) (pos : Position) : Prop :=
  ∀ c ∈ shape pos, Inside (s.x c) (s.y c) ∧ ¬ Fixed s.russian (s.x c) (s.y c)

/-- The turned block is not at a fixed element, nor across the side that `verify` compares. -/
def Passes (s : World) (pos : Position) : Prop :=
  (∀ c ∈ shape pos, ¬ Fixed s.russian (s.x c) (s.y c)) ∧ within s pos (extremes pos) = true

/-- The turned block is across a side of the board that `verify` does not compare. -/
def Crosses (s : World) : Position → Prop
  | .up => (extremes .up).minX + s.autodownX < bounds.minX
  | .right => (extremes .right).maxX + s.autodownX > bounds.maxX
  | .down => (extremes .down).maxX + s.autodownX > bounds.maxX
  | .left => (extremes .left).minX + s.autodownX < bounds.minX ∨
      (extremes .left).maxY + s.autodownY > bounds.maxY

/-- A cell that is still set in `tmp_arr` is at a fixed element. -/
def Stale (s : World) : Prop :=
  ∃ c ∈ canvas, s.tmp c.1 c.2 = true ∧ Fixed s.russian (s.x c) (s.y c)

variable {s : World} {pos : Position}

/-- A block that is on the board is turned within it if it is across no side. -/
theorem inside_turned (placed : Placed s) (pos : Position) :
    (∀ c ∈ shape pos, Inside (s.x c) (s.y c)) ↔
      within s pos (extremes pos) = true ∧ ¬ Crosses s pos := by
  obtain ⟨across, down⟩ := (inside_shape s s.pos).mp fun c mem => (placed c mem).1
  rw [inside_shape]
  cases current : s.pos with
  | up | right | down | left =>
      rw [current] at across down
      cases pos with
      | up | right | down | left =>
          simp [within, Crosses, bounds_eq, extremes, maxX, maxY, minX,
            DRAW_BLOCK_SIZE] at across down ⊢
          omega

theorem turns_iff (placed : Placed s) : Turns s pos ↔ Passes s pos ∧ ¬ Crosses s pos := by
  rw [Turns, forall₂_and, inside_turned placed, Passes]
  constructor
  · exact fun ⟨⟨room, whole⟩, free⟩ => ⟨⟨free, room⟩, whole⟩
  · exact fun ⟨⟨free, room⟩, whole⟩ => ⟨⟨room, whole⟩, free⟩

theorem verify_iff_stale : (verify s pos).1 = true ↔ Passes s pos ∧ ¬ Stale s := by
  rw [verify_iff, Passes]
  constructor
  · intro ⟨free, room⟩
    refine ⟨⟨fun c mem => free c (canvas_of_shape mem) (.inr mem), room⟩, ?_⟩
    exact fun ⟨c, mem, set, fixed⟩ => free c mem (.inl set) fixed
  · intro ⟨⟨free, room⟩, clean⟩
    refine ⟨fun c mem there fixed => ?_, room⟩
    rcases there with set | own
    · exact clean ⟨c, mem, set, fixed⟩
    · exact free c own fixed

/-! ## What is left over -/

/-- A scan resets cells and sets none. -/
theorem scan_resets {cs : List Cell} {tmp : Grid} {e : Extremes} {i j : Nat}
    (set : (scan s pos cs tmp e).2 i j = true) : tmp i j = true := by
  induction cs generalizing tmp e with
  | nil => exact set
  | cons c cs ih =>
      have kept : tmp.set c.1 c.2 false i j = true → tmp i j = true := by
        intro set
        rw [Grid.set] at set
        split at set
        · cases set
        · exact set
      rw [scan] at set
      split at set
      · dsimp only at set
        split at set
        · exact kept set
        · exact kept (ih set)
      · exact ih set

/-- A scan that comes to its end has reset all cells. -/
theorem scan_empties {cs : List Cell} {tmp : Grid} {e test : Extremes}
    (done : (scan s pos cs tmp e).1 = some test) {c : Cell} (mem : c ∈ cs) :
    (scan s pos cs tmp e).2 c.1 c.2 = false := by
  induction cs generalizing tmp e with
  | nil => cases mem
  | cons d cs ih =>
      rw [scan] at done ⊢
      by_cases there : c ∈ cs
      · split at done
        · next set =>
            rw [if_pos set]
            dsimp only at done ⊢
            split at done
            · cases done
            · next free =>
                rw [if_neg free]
                exact ih done there
        · next unset =>
            rw [if_neg unset]
            exact ih done there
      · obtain rfl := (List.mem_cons.mp mem).resolve_right there
        by_contra left
        rw [Bool.not_eq_false] at left
        split at left
        · dsimp only at left
          have reset : tmp.set c.1 c.2 false c.1 c.2 = false := if_pos ⟨rfl, rfl⟩
          split at left
          · cases reset.symm.trans left
          · cases reset.symm.trans (scan_resets left)
        · next unset => exact unset (scan_resets left)

/-- A call that allows a turn leaves nothing over. -/
theorem verify_empties (allowed : (verify s pos).1 = true) {c : Cell} (mem : c ∈ canvas) :
    (verify s pos).2 c.1 c.2 = false := by
  unfold verify at allowed ⊢
  rcases scanned : scan s pos canvas (stamp s.tmp pos) ⟨0, 0, 0⟩ with ⟨_ | test, tmp⟩
  · rw [scanned] at allowed
    cases allowed
  · have empty := scan_empties (congrArg Prod.fst scanned) mem
    rwa [scanned] at empty

/-! ## Any history -/

variable {calls : List (World × Position)}

/-- After these calls, the turn is allowed if and only if the block can be turned, and this is the
answer that there would have been without the calls. -/
def Answers (s : World) (calls : List (World × Position)) (pos : Position) : Prop :=
  ((verify (s.after calls) pos).1 = true ↔ Turns s pos) ∧
    (verify (s.after calls) pos).1 = (verify (s.after []) pos).1

theorem not_stale_nil : ¬ Stale (s.after []) := fun ⟨_, _, set, _⟩ => nomatch set

/-- Where `verify` has nothing against a turn, the block must keep to the sides that it does not
compare, and no cell left over from a refused call may be at a fixed element. -/
theorem verify_answers_iff (placed : Placed s) (calls : List (World × Position))
    (pos : Position) :
    Answers s calls pos ↔ (Passes s pos → ¬ Crosses s pos ∧ ¬ Stale (s.after calls)) := by
  have after : (verify (s.after calls) pos).1 = true ↔ Passes s pos ∧ ¬ Stale (s.after calls) :=
    verify_iff_stale
  have fresh : (verify (s.after []) pos).1 = true ↔ Passes s pos ∧ ¬ Stale (s.after []) :=
    verify_iff_stale
  rw [and_iff_left not_stale_nil] at fresh
  rw [Answers, after, turns_iff placed, and_congr_right_iff, Bool.eq_iff_iff, after, fresh,
    and_iff_left_iff_imp]
  constructor
  · intro ⟨right, same⟩ passes
    have clean := same passes
    exact ⟨(right passes).mp clean, clean⟩
  · intro good
    exact ⟨fun passes => iff_of_true (good passes).2 (good passes).1,
      fun passes => (good passes).2⟩

/-- After a call that allowed a turn, the earlier ones do not matter any more. -/
theorem verify_answers_iff_allowed {u : World} {pos' : Position} (placed : Placed s)
    (allowed : (verify (u.after calls) pos').1 = true) (pos : Position) :
    Answers s (calls ++ [(u, pos')]) pos ↔ (Passes s pos → ¬ Crosses s pos) := by
  have clean : ¬ Stale (s.after (calls ++ [(u, pos')])) := by
    rintro ⟨c, mem, set, -⟩
    rw [World.after, scratch, List.foldl_append] at set
    have empty : (verify (u.after calls) pos').2 c.1 c.2 = false := verify_empties allowed mem
    cases empty.symm.trans set
  rw [verify_answers_iff placed, and_iff_left clean]

/-- Two fixed elements. -/
def twoFixed : Grid := fun i j => decide ((i, j) = (5, 4) ∨ (i, j) = (10, 3))

/-- The block at these pixels in this position. -/
def blockAt (x y : Int) (pos : Position) : World := drawPicture
  { start with
    russian := twoFixed
    autodownX := x
    autodownY := y
    pos := pos
    arr := fun _ _ => false }

theorem placed_blockAt : Placed (blockAt 20 200 .up) :=
  placed_of_pixels (by
    show ∀ c ∈ shape .up, _
    decide +kernel)

theorem verify_answers_iff_blockAt :
    Answers (blockAt 20 200 .up) [(blockAt 80 100 .right, .down)] .right ↔
      (Passes (blockAt 20 200 .up) .right → ¬ Crosses (blockAt 20 200 .up) .right ∧
        ¬ Stale ((blockAt 20 200 .up).after [(blockAt 80 100 .right, .down)])) :=
  verify_answers_iff placed_blockAt _ _

/-- The first call is refused at the cell (0,0) and leaves (0,2) over, which the second call finds
at a fixed element. -/
theorem verify_misled :
    ¬ ∀ (s : World) (calls : List (World × Position)) (pos : Position), Placed s →
      Answers s calls pos := by
  intro answers
  have same := (answers _ [(blockAt 80 100 .right, .down)] .right placed_blockAt).2
  have refused : (verify ((blockAt 20 200 .up).after [(blockAt 80 100 .right, .down)]) .right).1 =
      false := by decide +kernel
  have allowed : (verify ((blockAt 20 200 .up).after []) .right).1 = true := by decide +kernel
  cases (refused.symm.trans same).trans allowed

end Shang.Russian
