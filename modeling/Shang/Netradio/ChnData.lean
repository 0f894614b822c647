import Mathlib.Data.Stream.Init
import Shang.Lib.Run
import Shang.Tbf.Bucket

/-!
# The data of a net radio channel

`mlib_getchndata` of `server/medialib.c` reads the files of a channel one after the
other, and from the first one again after the last, as fast as the channel's token
bucket of `server/mytbf.c` lets it. The thread of the channel calls it again and
again, while `thr_alrm` refills the bucket once a second.

The two threads meet in the critical sections of the bucket, so these and the
system calls on the file are the steps. A `read` may return fewer bytes than asked
for: how many is part of the step.
-/

namespace Shang.Netradio.ChnData

open Lib Tbf

/-- `CPS` -/
def CPS : Int := 16 * 1024

/-- `BURST` -/
def BURST : Int := 240 * 1024

/-- Where a call is: at the lock or the wait of `mytbf_fetchtoken`, or before a `read`
with the tokens it has fetched. -/
inductive Call
  | idle
  | fetch (size : Int)
  | read (size tsize : Int)
  deriving DecidableEq

/-- A call that is over: what was asked for, what was returned, and what it put into
`buf`. -/
structure Returned where
  size : Int
  len : Int
  bytes : List UInt8
  deriving DecidableEq

/-- `struct mlib_chn_context_st`, where `fd` is the file `cur` at the offset `pos`. With
it the call that is running, the calls that are over, and the tokens that the bucket
has received from its refills. -/
structure Chn where
  cur : Nat
  pos : Nat
  tbf : Bucket
  call : Call
  returned : List Returned
  received : Int

/-- A channel after `getchncontent`. -/
def init : Chn := ⟨0, 0, ⟨CPS, BURST, 0⟩, .idle, [], 0⟩

inductive Event
  | tick
  | call (size : Int)
  | run (len : Nat)
  deriving DecidableEq

/-- A call asks for at least one byte. -/
def Event.Asks : Event → Prop
  | .call size => 1 ≤ size
  | _ => True

instance Event.Asks.decidable : (e : Event) → Decidable e.Asks
  | .call size => inferInstanceAs (Decidable (1 ≤ size))
  | .tick | .run _ => isTrue trivial

/-- The bytes of the file `cur`. -/
def content (files : List (List UInt8)) (cur : Nat) : List UInt8 := files.getD cur []

/-- What is left to read in the open file. -/
def Chn.left (files : List (List UInt8)) (c : Chn) : List UInt8 :=
  (content files c.cur).drop c.pos

/-- A pass of `thr_alrm`. -/
def tick (c : Chn) : Chn :=
  { c with tbf := c.tbf.refill, received := c.received + (c.tbf.refill.token - c.tbf.token) }

/-- `mytbf_returntoken` -/
def returntoken (tbf : Bucket) (size : Int) : Bucket :=
  if size ≤ 0 then tbf else tbf.add size

/-- A call of `mlib_getchndata`, up to the lock in `mytbf_fetchtoken`. -/
def enter (c : Chn) (size : Int) : Option Chn :=
  if c.call ≠ .idle then none
  else if size ≤ 0 then some { c with returned := c.returned ++ [⟨size, -100, []⟩] }
  else some { c with call := .fetch size }

/-- The next section of the running call, where `read` returns `len` bytes. -/
def advance (files : List (List UInt8)) (c : Chn) (len : Nat) : Option Chn :=
  match c.call with
  | .idle => none
  | .fetch size =>
    if c.tbf.token ≤ 0 then some c
    else
      let n := min c.tbf.token size
      some { c with tbf := c.tbf.take n, call := .read size n }
  | .read size tsize =>
    if c.left files = [] then
      let cur := c.cur + 1
      let cur := if cur = files.length then 0 else cur
      some { c with cur := cur, pos := 0 }
    else if 1 ≤ len ∧ len ≤ tsize ∧ len ≤ (c.left files).length then
      some {
        c with
          pos := c.pos + len
          tbf := returntoken c.tbf (tsize - len)
          call := .idle
          returned := c.returned ++ [⟨size, len, (c.left files).take len⟩] }
    else none

def step (files : List (List UInt8)) (c : Chn) : Event → Option Chn
  | .tick => some (tick c)
  | .call size => enter c size
  | .run len => advance files c len

/-- The bytes returned so far. -/
def Chn.data (c : Chn) : List UInt8 := c.returned.flatMap Returned.bytes

/-! ## What a step does -/

variable {files : List (List UInt8)} {c d : Chn} {e : Event} {es post : List Event}
variable {size tsize : Int} {len : Nat}

/-- The step of a call. -/
inductive Advance (files : List (List UInt8)) (c : Chn) (len : Nat) : Chn → Prop
  | wait (size : Int) (call : c.call = .fetch size) (empty : c.tbf.token ≤ 0) :
      Advance files c len c
  | fetch (size : Int) (call : c.call = .fetch size) (filled : 0 < c.tbf.token) :
      Advance files c len { c with
        tbf := c.tbf.take (min c.tbf.token size), call := .read size (min c.tbf.token size) }
  | reopen (size tsize : Int) (call : c.call = .read size tsize) (eof : c.left files = [])
      (cur : Nat) (next : cur = if c.cur + 1 = files.length then 0 else c.cur + 1) :
      Advance files c len { c with cur := cur, pos := 0, call := .read size tsize }
  | read (size tsize : Int) (call : c.call = .read size tsize) (some : 1 ≤ len)
      (asked : len ≤ tsize) (there : len ≤ (c.left files).length) :
      Advance files c len { c with
        pos := c.pos + len, tbf := returntoken c.tbf (tsize - len), call := .idle,
        returned := c.returned ++ [⟨size, len, (c.left files).take len⟩] }

theorem advance_cases (stepped : advance files c len = some d) : Advance files c len d := by
  unfold advance at stepped
  cases call : c.call with
  | idle =>
      rw [call] at stepped
      cases stepped
  | fetch size =>
      simp only [call] at stepped
      split at stepped
      · rename_i empty
        cases stepped
        exact .wait size call empty
      · rename_i filled
        cases stepped
        exact .fetch size call (Int.not_le.mp filled)
  | read size tsize =>
      simp only [call] at stepped
      split at stepped
      · rename_i eof
        cases stepped
        exact .reopen size tsize call eof _ rfl
      · split at stepped
        · rename_i count
          cases stepped
          exact .read size tsize call count.1 count.2.1 count.2.2
        · cases stepped

/-! ## The invariant -/

/-- The tokens that the running call holds. -/
def Call.held : Call → Int
  | .read _ tsize => tsize
  | _ => 0

/-- A running call has asked for at least one byte, and holds at least one token when it
reads. -/
def Call.Asks : Call → Prop
  | .idle => True
  | .fetch size => 1 ≤ size
  | .read size tsize => 1 ≤ tsize ∧ tsize ≤ size

/-- What is left to read before the first file comes again. -/
def Chn.rest (files : List (List UInt8)) (c : Chn) : List UInt8 :=
  c.left files ++ (files.drop (c.cur + 1)).flatten

/-- What holds between the steps. -/
structure Inv (files : List (List UInt8)) (h : files.flatten ≠ []) (c : Chn) : Prop where
  cur : c.cur < files.length
  cps : c.tbf.cps = CPS
  burst : c.tbf.burst = BURST
  low : 0 ≤ c.tbf.token
  asks : c.call.Asks
  bound : c.tbf.token + c.call.held + c.data.length ≤ c.received
  returned : ∀ r ∈ c.returned, 1 ≤ r.len ∧ r.len ≤ r.size ∧ r.len = r.bytes.length
  laps : (c.data ++ c.rest files) ++ₛ Stream'.cycle files.flatten h = Stream'.cycle files.flatten h

variable {h : files.flatten ≠ []}

/-- Every file comes before those behind it. -/
theorem flatten_drop {cur : Nat} (inside : cur < files.length) :
    (files.drop cur).flatten = content files cur ++ (files.drop (cur + 1)).flatten := by
  rw [List.drop_eq_getElem_cons inside, List.flatten_cons, content, List.getD_eq_getElem?_getD,
    List.getElem?_eq_getElem inside, Option.getD_some]

/-- At the start of the first file all the files are to come. -/
theorem rest_first (h : files.flatten ≠ []) :
    content files 0 ++ (files.drop 1).flatten = files.flatten := by
  have inside : 0 < files.length :=
    List.length_pos_iff.mpr fun none => h (by rw [none, List.flatten_nil])
  rw [← flatten_drop inside, List.drop_zero]

theorem init_inv (h : files.flatten ≠ []) : Inv files h init where
  cur := List.length_pos_iff.mpr fun none => h (by rw [none, List.flatten_nil])
  cps := rfl
  burst := rfl
  low := Int.le_refl 0
  asks := trivial
  bound := Int.le_refl 0
  returned := List.forall_mem_nil _
  laps := by
    have all : init.rest files = files.flatten := rest_first h
    rw [all]
    exact (Stream'.cycle_eq files.flatten h).symm

theorem Inv.tick (inv : Inv files h c) : Inv files h (tick c) where
  cur := inv.cur
  cps := inv.cps
  burst := inv.burst
  low := add_nonneg inv.low (by rw [inv.burst]; decide) (by rw [inv.cps]; decide)
  asks := inv.asks
  bound := by
    have bound := inv.bound
    show c.tbf.refill.token + c.call.held + c.data.length ≤
      c.received + (c.tbf.refill.token - c.tbf.token)
    omega
  returned := inv.returned
  laps := inv.laps

theorem Inv.enter (inv : Inv files h c) (entered : enter c size = some d) (some : 1 ≤ size) :
    Inv files h d := by
  unfold ChnData.enter at entered
  split at entered
  · cases entered
  · rename_i idle
    have idle : c.call = .idle := not_not.mp idle
    rw [if_neg (Int.not_le.mpr some)] at entered
    cases entered
    have bound := inv.bound
    rw [idle] at bound
    exact { inv with asks := some, bound := bound }

/-- What the bucket does with the tokens that are left. -/
theorem returntoken_spec {b : Bucket} (left : 0 ≤ size) (low : 0 ≤ b.token) (burst : 0 ≤ b.burst) :
    (returntoken b size).token ≤ b.token + size ∧ 0 ≤ (returntoken b size).token ∧
      (returntoken b size).cps = b.cps ∧ (returntoken b size).burst = b.burst := by
  unfold returntoken
  split
  · exact ⟨by omega, low, rfl, rfl⟩
  · exact ⟨add_le, add_nonneg low burst left, rfl, rfl⟩

theorem Inv.advance (inv : Inv files h c) (advanced : advance files c len = some d) :
    Inv files h d := by
  have bound := inv.bound
  have asks := inv.asks
  have laps := inv.laps
  cases advance_cases advanced with
  | wait size call empty => exact inv
  | fetch size call filled =>
      rw [call] at bound asks
      have asks : 1 ≤ size := asks
      have least : min c.tbf.token size ≤ c.tbf.token := Int.min_le_left ..
      have asked : min c.tbf.token size ≤ size := Int.min_le_right ..
      have one : 1 ≤ min c.tbf.token size := Int.le_min.mpr ⟨filled, asks⟩
      refine { inv with low := Int.sub_nonneg.mpr least, asks := ⟨one, asked⟩, bound := ?_ }
      have held : (Call.fetch size).held = 0 := rfl
      rw [held] at bound
      show c.tbf.token - min c.tbf.token size + min c.tbf.token size + c.data.length ≤ c.received
      omega
  | reopen size tsize call eof cur next =>
      have inside := inv.cur
      rw [call] at bound asks
      rw [Chn.rest, eof, List.nil_append] at laps
      by_cases last : c.cur + 1 = files.length
      · rw [if_pos last] at next
        subst next
        refine { inv with
          cur := Nat.zero_lt_of_lt inside, asks := asks, bound := bound, laps := ?_ }
        have all : Chn.rest files { c with cur := 0, pos := 0, call := .read size tsize } =
            files.flatten := rest_first h
        rw [last, List.drop_length, List.flatten_nil, List.append_nil] at laps
        rw [all, Stream'.append_append_stream, ← Stream'.cycle_eq]
        exact laps
      · rw [if_neg last] at next
        subst next
        have inside' : c.cur + 1 < files.length := by omega
        rw [flatten_drop inside'] at laps
        exact { inv with cur := inside', asks := asks, bound := bound, laps := laps }
  | read size tsize call some asked there =>
      rw [call] at bound asks
      have unused : 0 ≤ tsize - len := by omega
      have limit : 0 ≤ c.tbf.burst := by
        rw [inv.burst]
        decide
      obtain ⟨le, low, cps, burst⟩ := returntoken_spec unused inv.low limit
      have count : ((c.left files).take len).length = len := List.length_take_of_le there
      have grown : c.data ++ (c.left files).take len =
          Chn.data { c with
            pos := c.pos + len, tbf := returntoken c.tbf (tsize - len), call := .idle,
            returned := c.returned ++ [⟨size, len, (c.left files).take len⟩] } := by
        simp [Chn.data]
      refine {
        cur := inv.cur
        cps := cps.trans inv.cps
        burst := burst.trans inv.burst
        low := low
        asks := trivial
        bound := ?_
        returned := ?_
        laps := ?_ }
      · rw [← grown, List.length_append, count]
        simp only [Call.held] at bound ⊢
        push_cast
        omega
      · have last : ∀ r ∈ [(⟨size, len, (c.left files).take len⟩ : Returned)],
            1 ≤ r.len ∧ r.len ≤ r.size ∧ r.len = r.bytes.length :=
          List.forall_mem_singleton.mpr
            ⟨Int.ofNat_le.mpr some, Int.le_trans asked asks.2, by rw [count]⟩
        exact List.forall_mem_append.mpr ⟨inv.returned, last⟩
      · have split : c.rest files = (c.left files).take len ++
            ((content files c.cur).drop (c.pos + len) ++ (files.drop (c.cur + 1)).flatten) := by
          have onward : (content files c.cur).drop (c.pos + len) = (c.left files).drop len :=
            List.drop_drop.symm
          rw [Chn.rest, onward, ← List.append_assoc, List.take_append_drop]
        rw [split, ← List.append_assoc, grown] at laps
        exact laps

/-- **Invariant.** -/
theorem Inv.step (inv : Inv files h c) (allowed : e.Asks)
    (stepped : step files c e = some d) : Inv files h d := by
  cases e with
  | tick =>
      cases stepped
      exact inv.tick
  | call size => exact inv.enter stepped allowed
  | run len => exact inv.advance stepped

theorem Inv.run (inv : Inv files h c) (allowed : ∀ e ∈ es, e.Asks)
    (ran : run (ChnData.step files) c es = some d) : Inv files h d := by
  have along := (@along_true _ _ (ChnData.step files) es c).and_forall allowed
  exact run_invariant (fun inv allowed stepped => inv.step allowed.2 stepped) inv along ran

/-! ## A call comes to its end -/

/-- A waiting call finds tokens. -/
def Ready (c : Chn) : Prop :=
  match c.call with
  | .fetch _ => 0 < c.tbf.token
  | _ => True

/-- How many files are opened before the file `m` is. -/
def turns (files : List (List UInt8)) (m : Nat) (c : Chn) : Nat :=
  if c.left files ≠ [] then 0
  else if c.cur < m then m - c.cur
  else m + files.length - c.cur

/-- How many sections of the running call are left at most. -/
def due (files : List (List UInt8)) (m : Nat) (c : Chn) : Nat :=
  match c.call with
  | .idle => 0
  | .fetch _ => files.length + 2
  | .read _ _ => turns files m c + 1

theorem tick_ready (inv : Inv files h c) : Ready (tick c) := by
  unfold Ready
  split
  · have low := inv.low
    have rate : c.tbf.cps = 16 * 1024 := inv.cps
    have limit : c.tbf.burst = 240 * 1024 := inv.burst
    show 0 < c.tbf.refill.token
    unfold Bucket.refill Bucket.add
    dsimp only
    split <;> omega
  · trivial

theorem turns_le {m : Nat} (inv : Inv files h c) (inside : m < files.length) :
    turns files m c ≤ files.length := by
  have cur := inv.cur
  unfold turns
  split
  · exact Nat.zero_le _
  · split <;> omega

/-- Opening the next file brings the file `m` closer. -/
theorem turns_reopen {m cur : Nat} {call : Call} (inv : Inv files h c) (inside : m < files.length)
    (filled : content files m ≠ []) (eof : c.left files = [])
    (next : cur = if c.cur + 1 = files.length then 0 else c.cur + 1) :
    turns files m { c with cur := cur, pos := 0, call := call } < turns files m c := by
  have here := inv.cur
  have opened : Chn.left files { c with cur := cur, pos := 0, call := call } = content files cur :=
    rfl
  have old : turns files m c = if c.cur < m then m - c.cur else m + files.length - c.cur :=
    if_neg (not_not_intro eof)
  rw [old]
  by_cases arrived : cur = m
  · have now : turns files m { c with cur := cur, pos := 0, call := call } = 0 :=
      if_pos (by rwa [opened, arrived])
    rw [now]
    split <;> omega
  · unfold turns
    rw [opened]
    dsimp only
    split at next <;> split_ifs <;> omega

/-- Each section of a call that has tokens brings it closer to its end. -/
theorem advance_due {m : Nat} (inv : Inv files h c) (inside : m < files.length)
    (filled : content files m ≠ []) (ready : Ready c) (advanced : advance files c len = some d) :
    d.returned.length = c.returned.length + 1 ∨
      d.returned.length = c.returned.length ∧ d.call ≠ .idle ∧ Ready d ∧
        due files m d < due files m c := by
  unfold Ready at ready
  cases advance_cases advanced with
  | wait size call empty =>
      rw [call] at ready
      omega
  | fetch size call filled =>
      have few := turns_le inv inside
      have old : due files m c = files.length + 2 := by rw [due, call]
      refine .inr ⟨rfl, Call.noConfusion, trivial, ?_⟩
      rw [old]
      show turns files m c + 1 < _
      omega
  | reopen size tsize call eof cur next =>
      have old : due files m c = turns files m c + 1 := by rw [due, call]
      refine .inr ⟨rfl, Call.noConfusion, trivial, ?_⟩
      rw [old]
      exact Nat.succ_lt_succ (turns_reopen inv inside filled eof next)
  | read size tsize call some asked there => exact .inl (by simp)

/-- The running call can go on. -/
theorem advance_enabled (inv : Inv files h c) (busy : c.call ≠ .idle) :
    ∃ len d, advance files c len = some d := by
  have asks := inv.asks
  refine ⟨1, ?_⟩
  unfold advance
  cases call : c.call with
  | idle => exact absurd call busy
  | fetch size =>
      dsimp only
      split <;> exact ⟨_, rfl⟩
  | read size tsize =>
      rw [call] at asks
      dsimp only
      split
      · exact ⟨_, rfl⟩
      · rename_i more
        exact ⟨_, if_pos ⟨Nat.le_refl 1, asks.1, List.length_pos_iff.mpr more⟩⟩

theorem step_returned (stepped : step files c e = some d) :
    c.returned.length ≤ d.returned.length := by
  cases e with
  | tick =>
      cases stepped
      exact Nat.le_refl _
  | call size =>
      unfold step enter at stepped
      dsimp only at stepped
      split at stepped
      · cases stepped
      · split at stepped <;> cases stepped
        · exact (List.prefix_append _ _).length_le
        · exact Nat.le_refl _
  | run len =>
      cases advance_cases stepped with
      | wait size call empty => exact Nat.le_refl _
      | fetch size call filled => exact Nat.le_refl _
      | reopen size tsize call eof cur next => exact Nat.le_refl _
      | read size tsize call some asked there => exact (List.prefix_append _ _).length_le

theorem run_returned (ran : run (step files) c es = some d) :
    c.returned.length ≤ d.returned.length := by
  induction es generalizing c with
  | nil =>
      cases ran
      exact Nat.le_refl _
  | cons e es ih =>
      obtain ⟨b, first, rest⟩ := run_cons_eq_some.mp ran
      exact Nat.le_trans (step_returned first) (ih rest)

/-- The steps of the calling thread. -/
def sections (es : List Event) : Nat := es.countP fun e => e matches .run _

/-- A call that has tokens returns when it gets as many sections as are due. -/
theorem returns {m : Nat} (inv : Inv files h c) (inside : m < files.length)
    (filled : content files m ≠ []) (ready : Ready c) (busy : c.call ≠ .idle)
    (enough : due files m c ≤ sections post) (ran : run (step files) c post = some d) :
    c.returned.length < d.returned.length := by
  induction post generalizing c with
  | nil =>
      have none : due files m c = 0 := Nat.eq_zero_of_le_zero enough
      unfold due at none
      split at none
      · rename_i idle
        exact absurd idle busy
      · omega
      · omega
  | cons e post ih =>
      obtain ⟨b, first, rest⟩ := run_cons_eq_some.mp ran
      cases e with
      | tick =>
          cases first
          have later := ih inv.tick (tick_ready inv) busy enough rest
          exact later
      | call size =>
          have entered : enter c size = some b := first
          rw [enter, if_pos busy] at entered
          cases entered
      | run len =>
          have more := run_returned rest
          have counted : sections (.run len :: post) = sections post + 1 := by simp [sections]
          rcases advance_due inv inside filled ready first with over' | ⟨same, busy', ready', less⟩
          · omega
          · rw [← same]
            exact ih (inv.advance first) ready' busy' (by omega) rest

theorem Inv.held (inv : Inv files h c) : 0 ≤ c.call.held := by
  have asks := inv.asks
  unfold Call.held
  split
  · rename_i call
    rw [call] at asks
    exact Int.le_trans (by decide) asks.1
  · exact Int.le_refl 0

/-- There is a file to come to. -/
theorem exists_content (h : files.flatten ≠ []) : ∃ m, m < files.length ∧ content files m ≠ [] := by
  obtain ⟨f, mem, filled⟩ := List.flatten_ne_nil_iff.mp h
  obtain ⟨m, inside, same⟩ := List.mem_iff_getElem.mp mem
  refine ⟨m, inside, ?_⟩
  rw [content, List.getD_eq_getElem?_getD, List.getElem?_eq_getElem inside, Option.getD_some, same]
  exact filled

/-- **Streaming.** Calls for at least one byte each return at least one byte and no more
than was asked for; together they return the files in order, again and again, and no more
than the bucket was refilled with; and a call returns at the latest when it has gone
through two more sections than there are files after the next refill. -/
theorem getchndata_streams (h : files.flatten ≠ []) (allowed : ∀ e ∈ es, e.Asks)
    (ran : run (step files) init es = some c) :
    (∀ r ∈ c.returned, 1 ≤ r.len ∧ r.len ≤ r.size ∧ r.len = r.bytes.length) ∧
    (∃ later, c.data ++ₛ later = Stream'.cycle files.flatten h) ∧
    c.data.length ≤ c.received ∧
    (c.call ≠ .idle →
      (∃ len d, step files c (.run len) = some d) ∧
      ∀ post d, run (step files) c (.tick :: post) = some d →
        files.length + 2 ≤ sections post → c.returned.length < d.returned.length) := by
  have inv := (init_inv h).run allowed ran
  have bound := inv.bound
  have low := inv.low
  have held := inv.held
  refine ⟨inv.returned, ⟨c.rest files ++ₛ Stream'.cycle _ h, ?_⟩, by omega, fun busy => ⟨?_, ?_⟩⟩
  · rw [← Stream'.append_append_stream]
    exact inv.laps
  · exact advance_enabled inv busy
  · intro post d ran' enough
    obtain ⟨m, inside, filled⟩ := exists_content h
    obtain ⟨b, ticked, rest⟩ := run_cons_eq_some.mp ran'
    have few := turns_le inv.tick inside
    have due : due files m (tick c) ≤ sections post := by
      unfold ChnData.due
      split <;> omega
    cases ticked
    have later := returns inv.tick inside filled (tick_ready inv) busy due rest
    exact later

/-- Two files, of which the first one is empty. -/
theorem getchndata_streams_two :
    (∀ r ∈ [(⟨2, 1, [5]⟩ : Returned)], 1 ≤ r.len ∧ r.len ≤ r.size ∧ r.len = r.bytes.length) ∧
    ∃ later, [(5 : UInt8)] ++ₛ later = Stream'.cycle [5, 6] (List.cons_ne_nil _ _) := by
  have ran : run (step [[], [5, 6]]) init [.tick, .call 2, .run 0, .run 0, .run 1] =
      some ⟨1, 1, ⟨CPS, BURST, 16383⟩, .idle, [⟨2, 1, [5]⟩], 16384⟩ := rfl
  have streams := getchndata_streams (by decide) (by decide) ran
  exact ⟨streams.1, streams.2.1⟩

end Shang.Netradio.ChnData
