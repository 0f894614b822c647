import Mathlib.Tactic.Ring

/-!
# Token buckets

The two versions of `mytbf.c` modelled here, with signals and with threads, do
the same arithmetic on a bucket. An `int` that overflows has no meaning in C;
the numbers are integers here, and the results speak of runs without overflow.

`Books` is what an observer of a bucket counts. The law of the bucket ties its
token to its books.
-/

namespace Shang.Tbf

/-- `MYTBF_MAX` -/
abbrev MYTBF_MAX : Nat := 1024

/-- `-EINVAL` -/
def EINVAL : Int := 22

/-- `struct _mytbf_st` without what serves to find and to lock it. -/
structure Bucket where
  cps : Int
  burst : Int
  token : Int

/-- Add tokens and clamp to the burst limit. -/
def Bucket.add (b : Bucket) (n : Int) : Bucket :=
  let token := b.token + n
  { b with token := if token > b.burst then b.burst else token }

/-- What a tick does to a bucket. -/
def Bucket.refill (b : Bucket) : Bucket :=
  b.add b.cps

/-- What `min(token, size)` takes out. -/
def Bucket.take (b : Bucket) (n : Int) : Bucket :=
  { b with token := b.token - n }

/-- The ticks a bucket has seen, and the tokens fetched from it and returned to
it so far. -/
structure Books where
  ticks : Nat
  fetched : Int
  returned : Int

/-- What has come in: a bound for what can go out. -/
def Books.income (k : Books) (cps : Int) : Int :=
  cps * k.ticks + k.returned

def Books.tick (k : Books) : Books :=
  { k with ticks := k.ticks + 1 }

def Books.fetch (k : Books) (n : Int) : Books :=
  { k with fetched := k.fetched + n }

def Books.give (k : Books) (n : Int) : Books :=
  { k with returned := k.returned + n }

variable {b : Bucket} {k : Books} {n : Int}

@[simp] theorem add_cps : (b.add n).cps = b.cps := rfl

@[simp] theorem add_burst : (b.add n).burst = b.burst := rfl

theorem add_le : (b.add n).token ≤ b.token + n := by
  unfold Bucket.add
  dsimp only
  split <;> omega

theorem add_le_burst : (b.add n).token ≤ b.burst := by
  unfold Bucket.add
  dsimp only
  split <;> omega

theorem add_nonneg (token : 0 ≤ b.token) (burst : 0 ≤ b.burst) (pos : 0 ≤ n) :
    0 ≤ (b.add n).token := by
  unfold Bucket.add
  dsimp only
  split <;> omega

/-- Below the limit nothing is clamped. -/
theorem add_token (below : b.token + n ≤ b.burst) : (b.add n).token = b.token + n :=
  if_neg (by omega)

@[simp] theorem income_tick (cps : Int) : k.tick.income cps = k.income cps + cps := by
  unfold Books.tick Books.income
  push_cast
  ring

@[simp] theorem income_fetch (cps : Int) : (k.fetch n).income cps = k.income cps := rfl

@[simp] theorem income_give (cps : Int) : (k.give n).income cps = k.income cps + n :=
  (Int.add_assoc _ _ _).symm

/-! ## A bucket and its books -/

/-- The bucket is within its limits, and what went out of it is covered by what
came in. -/
structure Holds (b : Bucket) (k : Books) : Prop where
  rate : 0 ≤ b.cps
  limit : 0 ≤ b.burst
  low : 0 ≤ b.token
  high : b.token ≤ b.burst
  bound : b.token + k.fetched ≤ k.income b.cps

theorem holds_new {cps burst : Int} (rate : 0 ≤ cps) (limit : 0 ≤ burst) :
    Holds ⟨cps, burst, 0⟩ ⟨0, 0, 0⟩ where
  rate := rate
  limit := limit
  low := Int.le_refl 0
  high := limit
  bound := by simp [Books.income]

theorem Holds.refill (holds : Holds b k) : Holds b.refill k.tick where
  rate := holds.rate
  limit := holds.limit
  low := add_nonneg holds.low holds.limit holds.rate
  high := add_le_burst
  bound := by
    have bound := holds.bound
    have le := @add_le b b.cps
    show (b.add b.cps).token + k.fetched ≤ k.tick.income b.cps
    rw [income_tick]
    omega

theorem Holds.give (holds : Holds b k) (pos : 0 ≤ n) : Holds (b.add n) (k.give n) where
  rate := holds.rate
  limit := holds.limit
  low := add_nonneg holds.low holds.limit pos
  high := add_le_burst
  bound := by
    have bound := holds.bound
    have le := @add_le b n
    show (b.add n).token + k.fetched ≤ (k.give n).income b.cps
    rw [income_give]
    omega

theorem Holds.take (holds : Holds b k) (pos : 0 ≤ n) (covered : n ≤ b.token) :
    Holds (b.take n) (k.fetch n) where
  rate := holds.rate
  limit := holds.limit
  low := Int.sub_nonneg.mpr covered
  high := (Int.sub_le_self _ pos).trans holds.high
  bound := by
    have bound := holds.bound
    show b.token - n + (k.fetched + n) ≤ k.income b.cps
    omega

end Shang.Tbf
