import Shang.Lib.Run
import Mathlib.Data.List.Infix
import Mathlib.Tactic.Linarith

/-!
# The relay copy FSM

`fsm_driver` of the relayer library, which copies one direction of a job
through a 1024-byte buffer. The non-blocking relayer and the epoll relayer
share the function; the epoll version's extra constant `STATE_AUTO` is never
stored and would reach the `abort()` of the default case.

The kernel's answers to `read` and `write` are the events of a run; `Relay`
carries the system calls made so far next to the FSM. `Relay.Inv` says what of
the chunk in the buffer is still to be written in each state.
-/

namespace Shang.Relayer

open Shang.Lib

/-- `BUFSIZE`. -/
def BUFSIZE : Nat := 1024

/-- The `STATE_*` constants of an FSM. -/
inductive FsmState
  | stateR
  | stateW
  | stateAuto
  | stateEx
  | stateT
  deriving DecidableEq, Repr

/-- `struct rel_fsm_st`. -/
structure RelFsm where
  state : FsmState
  sfd : Int
  dfd : Int
  buf : List UInt8
  len : Int
  pos : Int
  count : Int
  errstr : String

/-- What the kernel answers to `read`: the bytes it stores (none at end of
file), `EAGAIN`, or another error. -/
inductive ReadResult
  | got (bytes : List UInt8)
  | eagain
  | error

/-- What the kernel answers to `write`: the number of bytes it took, `EAGAIN`,
or another error. -/
inductive WriteResult
  | took (n : Nat)
  | eagain
  | error

/-- The return value of `read`. -/
def ReadResult.ret : ReadResult → Int
  | .got bytes => bytes.length
  | .eagain => -1
  | .error => -1

/-- The return value of `write`. -/
def WriteResult.ret : WriteResult → Int
  | .took n => n
  | .eagain => -1
  | .error => -1

/-- The buffer after `read` has stored its bytes at the front. -/
def ReadResult.fill : ReadResult → List UInt8 → List UInt8
  | .got bytes, buf => bytes ++ buf.drop bytes.length
  | .eagain, buf => buf
  | .error, buf => buf

/-- A system call of the driver: the descriptor, the bytes offered to
`write`, and the kernel's answer. -/
inductive Syscall
  | read (fd : Int) (res : ReadResult)
  | write (fd : Int) (offered : List UInt8) (res : WriteResult)

/-- `fsm_driver`, given the answers the kernel has for a `read` and for a
`write` at this moment; it makes at most one of the two calls. `none` is
`abort()`. -/
def fsmDriver (fsm : RelFsm) (rd : ReadResult) (wr : WriteResult) :
    Option (RelFsm × List Syscall) :=
  match fsm.state with
  | .stateR =>
      let called := [Syscall.read fsm.sfd rd]
      let fsm : RelFsm := { fsm with len := rd.ret, buf := rd.fill fsm.buf }
      if fsm.len = 0 then
        some ({ fsm with state := .stateT }, called)
      else if fsm.len < 0 then
        match rd with
        | .eagain => some ({ fsm with state := .stateR }, called)
        | _ => some ({ fsm with errstr := "read()", state := .stateEx }, called)
      else
        some ({ fsm with pos := 0, state := .stateW }, called)
  | .stateW =>
      let called :=
        [Syscall.write fsm.dfd ((fsm.buf.drop fsm.pos.toNat).take fsm.len.toNat) wr]
      let ret := wr.ret
      if ret < 0 then
        match wr with
        | .eagain => some ({ fsm with state := .stateW }, called)
        | _ => some ({ fsm with errstr := "write()", state := .stateEx }, called)
      else
        let fsm : RelFsm := { fsm with
          count := fsm.count + ret, pos := fsm.pos + ret, len := fsm.len - ret }
        if fsm.len = 0 then
          some ({ fsm with state := .stateR }, called)
        else
          some ({ fsm with state := .stateW }, called)
  | .stateEx => some ({ fsm with state := .stateT }, [])
  | .stateT => some (fsm, [])
  | .stateAuto => none

/-- The FSM `rel_addjob` prepares in freshly allocated memory `raw`: only the
descriptors, the count and the state are assigned. -/
def relAddjobFsm (raw : RelFsm) (sfd dfd : Int) : RelFsm :=
  { raw with sfd := sfd, dfd := dfd, count := 0, state := .stateR }

/-! ## The bytes that crossed the descriptors -/

/-- The bytes a call read. -/
def Syscall.input : Syscall → List UInt8
  | .read _ (.got bytes) => bytes
  | _ => []

/-- The bytes a call wrote. -/
def Syscall.output : Syscall → List UInt8
  | .write _ offered (.took n) => offered.take n
  | _ => []

/-- An FSM together with the system calls it has made, in order. -/
structure Relay where
  fsm : RelFsm
  calls : List Syscall

/-- One call of `fsm_driver`. -/
def Relay.step (s : Relay) (answers : ReadResult × WriteResult) : Option Relay :=
  (fsmDriver s.fsm answers.1 answers.2).map fun (fsm, called) => ⟨fsm, s.calls ++ called⟩

/-- The kernel reads at most `BUFSIZE` bytes and takes at most the bytes it
is offered. -/
def Relay.Allowed (s : Relay) : ReadResult × WriteResult → Prop
  | (rd, wr) =>
      (∀ bytes, rd = .got bytes → bytes.length ≤ BUFSIZE) ∧
        ∀ n : Nat, wr = .took n → s.fsm.state = .stateW → (n : Int) ≤ s.fsm.len

/-- The relay of a job that was just added. -/
def Relay.start (raw : RelFsm) (sfd dfd : Int) : Relay := ⟨relAddjobFsm raw sfd dfd, []⟩

/-- The bytes read from `sfd` so far. -/
def Relay.input (s : Relay) : List UInt8 := s.calls.flatMap Syscall.input

/-- The bytes written to `dfd` so far. -/
def Relay.output (s : Relay) : List UInt8 := s.calls.flatMap Syscall.output

/-- The last chunk read: the bytes of the last non-empty `read`. -/
def Relay.chunk (s : Relay) : List UInt8 :=
  ((s.calls.map Syscall.input).filter (· ≠ [])).getLastD []

/-- The last call made was a `read` that found the end of the file. -/
def Relay.AtEof (s : Relay) : Prop := ∃ fd, s.calls.getLast? = some (.read fd (.got []))

/-! ## The invariant -/

/-- What the FSM still owes the destination in each state. -/
structure Relay.Inv (s : Relay) : Prop where
  count : s.fsm.count = s.output.length
  copied : s.output <+: s.input
  idle : s.fsm.state = .stateR → s.output = s.input
  busy : s.fsm.state = .stateW → 0 ≤ s.fsm.pos ∧ 0 < s.fsm.len ∧
    s.fsm.pos + s.fsm.len = s.chunk.length ∧ s.chunk.length ≤ BUFSIZE ∧
    s.fsm.pos + s.fsm.len ≤ s.fsm.buf.length ∧
    s.input = s.output ++ (s.fsm.buf.drop s.fsm.pos.toNat).take s.fsm.len.toNat
  failed : s.fsm.state = .stateEx → ¬ s.AtEof
  ended : s.fsm.state = .stateT → s.AtEof → s.output = s.input
  auto : s.fsm.state ≠ .stateAuto

theorem Relay.start_inv (raw : RelFsm) (sfd dfd : Int) : (Relay.start raw sfd dfd).Inv where
  count := rfl
  copied := List.prefix_rfl
  idle _ := rfl
  busy h := nomatch h
  failed h := nomatch h
  ended h := nomatch h
  auto h := nomatch h

/-! ## One more system call -/

variable {s t : Relay} {fsm : RelFsm} {call : Syscall} {rd : ReadResult} {wr : WriteResult}

/-- The relay after one more call, with the FSM the driver leaves behind. -/
def Relay.after (s : Relay) (call : Syscall) (fsm : RelFsm) : Relay := ⟨fsm, s.calls ++ [call]⟩

@[simp] theorem Relay.after_fsm : (s.after call fsm).fsm = fsm := rfl

@[simp] theorem Relay.after_input : (s.after call fsm).input = s.input ++ call.input := by
  simp [after, Relay.input]

@[simp] theorem Relay.after_output : (s.after call fsm).output = s.output ++ call.output := by
  simp [after, Relay.output]

@[simp] theorem Relay.after_chunk :
    (s.after call fsm).chunk = if call.input = [] then s.chunk else call.input := by
  by_cases empty : call.input = [] <;> simp [after, Relay.chunk, empty]

@[simp] theorem Relay.after_atEof :
    (s.after call fsm).AtEof ↔ ∃ fd, call = .read fd (.got []) := by
  simp [after, Relay.AtEof]

@[simp] theorem Syscall.input_got (fd : Int) (bytes : List UInt8) :
    (Syscall.read fd (.got bytes)).input = bytes := rfl

@[simp] theorem Syscall.input_read_eagain (fd : Int) :
    (Syscall.read fd .eagain).input = [] := rfl

@[simp] theorem Syscall.input_read_error (fd : Int) :
    (Syscall.read fd .error).input = [] := rfl

@[simp] theorem Syscall.input_write (fd : Int) (offered : List UInt8) (res : WriteResult) :
    (Syscall.write fd offered res).input = [] := rfl

@[simp] theorem Syscall.output_read (fd : Int) (res : ReadResult) :
    (Syscall.read fd res).output = [] := rfl

@[simp] theorem Syscall.output_took (fd : Int) (offered : List UInt8) (n : Nat) :
    (Syscall.write fd offered (.took n)).output = offered.take n := rfl

@[simp] theorem Syscall.output_write_eagain (fd : Int) (offered : List UInt8) :
    (Syscall.write fd offered .eagain).output = [] := rfl

@[simp] theorem Syscall.output_write_error (fd : Int) (offered : List UInt8) :
    (Syscall.write fd offered .error).output = [] := rfl

/-! ## One call of the driver -/

/-- In `STATE_R` the driver reads: a chunk is queued for writing, end of file
ends the copy, `EAGAIN` tries again and any other error is reported next. -/
theorem Relay.advance_stateR (inv : s.Inv) (state : s.fsm.state = .stateR)
    (allowed : s.Allowed (rd, wr)) : ∃ t, s.step (rd, wr) = some t ∧ t.Inv := by
  have same := inv.idle state
  have count := inv.count
  rcases rd with (_ | ⟨b, bytes⟩) | _ | _
  · refine ⟨s.after (.read s.fsm.sfd (.got [])) { s.fsm with len := 0, state := .stateT },
      by simp [step, after, fsmDriver, state, ReadResult.ret, ReadResult.fill], ?_⟩
    exact {
      count := by simpa using count
      copied := by simp [same]
      idle := by simp
      busy := by simp
      failed := by simp
      ended := by simp [same]
      auto := by simp }
  · have size := allowed.1 _ rfl
    have positive : ¬ ((bytes.length : Int) + 1 = 0) ∧ ¬ ((bytes.length : Int) + 1 < 0) := by
      omega
    refine ⟨s.after (.read s.fsm.sfd (.got (b :: bytes))) { s.fsm with
        buf := ReadResult.fill (.got (b :: bytes)) s.fsm.buf
        len := (b :: bytes).length, pos := 0, state := .stateW },
      by simp [step, after, fsmDriver, state, ReadResult.ret, positive], ?_⟩
    exact {
      count := by simpa using count
      copied := by simp [same]
      idle := by simp
      busy _ := by
        refine ⟨le_rfl, by simp, by simp, by simpa using size, ?_, ?_⟩
        · simp [ReadResult.fill]
        · simp [same, ReadResult.fill]
      failed := by simp
      ended := by simp
      auto := by simp }
  · refine ⟨s.after (.read s.fsm.sfd .eagain) { s.fsm with len := -1, state := .stateR },
      by simp [step, after, fsmDriver, state, ReadResult.ret, ReadResult.fill], ?_⟩
    exact {
      count := by simpa using count
      copied := by simp [same]
      idle := by simp [same]
      busy := by simp
      failed := by simp
      ended := by simp
      auto := by simp }
  · refine ⟨s.after (.read s.fsm.sfd .error)
        { s.fsm with len := -1, errstr := "read()", state := .stateEx },
      by simp [step, after, fsmDriver, state, ReadResult.ret, ReadResult.fill], ?_⟩
    exact {
      count := by simpa using count
      copied := by simp [same]
      idle := by simp
      busy := by simp
      failed := by simp
      ended := by simp
      auto := by simp }

/-- In `STATE_W` the driver offers the unwritten rest of the chunk: what the
kernel takes is the front of that rest. -/
theorem Relay.advance_stateW (inv : s.Inv) (state : s.fsm.state = .stateW)
    (allowed : s.Allowed (rd, wr)) : ∃ t, s.step (rd, wr) = some t ∧ t.Inv := by
  obtain ⟨pos, len, total, size, inside, owed⟩ := inv.busy state
  have count := inv.count
  let offered := (s.fsm.buf.drop s.fsm.pos.toNat).take s.fsm.len.toNat
  have offeredLen : offered.length = s.fsm.len.toNat := by
    simp only [offered, List.length_take, List.length_drop]
    omega
  rcases wr with n | _ | _
  · have fits := allowed.2 n rfl state
    let fsm := { s.fsm with
      count := s.fsm.count + n, pos := s.fsm.pos + n, len := s.fsm.len - n }
    have split : offered = offered.take n ++
        (s.fsm.buf.drop (s.fsm.pos + n).toNat).take (s.fsm.len - n).toNat := by
      have drop : (s.fsm.buf.drop (s.fsm.pos + n).toNat).take (s.fsm.len - n).toNat =
          offered.drop n := by
        simp only [offered, List.drop_take, List.drop_drop]
        congr 2 <;> omega
      rw [drop, List.take_append_drop]
    have count' : s.fsm.count + n = ((s.output ++ offered.take n).length : Nat) := by
      rw [List.length_append, List.length_take, offeredLen, count]
      omega
    by_cases all : s.fsm.len - n = 0
    · have whole : s.output ++ offered.take n = s.input := by
        rw [owed, List.take_of_length_le (by omega)]
      refine ⟨s.after (.write s.fsm.dfd offered (.took n)) { fsm with state := .stateR },
        by simp [step, after, fsmDriver, state, WriteResult.ret, all, offered, fsm], ?_⟩
      exact {
        count := by simpa using count'
        copied := by simp [whole]
        idle := by simp [whole]
        busy := by simp
        failed := by simp
        ended := by simp
        auto := by simp }
    · refine ⟨s.after (.write s.fsm.dfd offered (.took n)) { fsm with state := .stateW },
        by simp [step, after, fsmDriver, state, WriteResult.ret, all, offered, fsm], ?_⟩
      have rest : s.input = s.output ++ offered.take n ++
          (s.fsm.buf.drop (s.fsm.pos + n).toNat).take (s.fsm.len - n).toNat := by
        rw [List.append_assoc, ← split]
        exact owed
      exact {
        count := by simpa using count'
        copied := by
          rw [after_output, after_input, Syscall.output_took, Syscall.input_write,
            List.append_nil, rest]
          exact List.prefix_append _ _
        idle := by simp
        busy _ := by
          simp only [after_fsm, after_chunk, after_input, after_output, Syscall.input_write,
            Syscall.output_took, List.append_nil, if_true, fsm]
          exact ⟨by omega, by omega, by omega, size, by omega, rest⟩
        failed := by simp
        ended := by simp
        auto := by simp }
  · refine ⟨s.after (.write s.fsm.dfd offered .eagain) { s.fsm with state := .stateW },
      by simp [step, after, fsmDriver, state, WriteResult.ret, offered], ?_⟩
    exact {
      count := by simpa using count
      copied := by simpa using inv.copied
      idle := by simp
      busy _ := by simpa using ⟨pos, len, total, size, inside, owed⟩
      failed := by simp
      ended := by simp
      auto := by simp }
  · refine ⟨s.after (.write s.fsm.dfd offered .error)
        { s.fsm with errstr := "write()", state := .stateEx },
      by simp [step, after, fsmDriver, state, WriteResult.ret, offered], ?_⟩
    exact {
      count := by simpa using count
      copied := by simpa using inv.copied
      idle := by simp
      busy := by simp
      failed := by simp
      ended := by simp
      auto := by simp }

/-- Every call of the driver that the kernel can answer so is defined (the
`abort()` is unreachable) and keeps the invariant. -/
theorem Relay.advance (inv : s.Inv) (allowed : s.Allowed (rd, wr)) :
    ∃ t, s.step (rd, wr) = some t ∧ t.Inv := by
  cases state : s.fsm.state with
  | stateR => exact advance_stateR inv state allowed
  | stateW => exact advance_stateW inv state allowed
  | stateEx =>
      refine ⟨⟨{ s.fsm with state := .stateT }, s.calls ++ []⟩,
        by simp [step, fsmDriver, state], ?_⟩
      rw [List.append_nil]
      exact {
        count := inv.count
        copied := inv.copied
        idle := by simp
        busy := by simp
        failed := by simp
        ended _ eof := absurd eof (inv.failed state)
        auto := by simp }
  | stateT => exact ⟨s, by simp [step, fsmDriver, state], inv⟩
  | stateAuto => exact absurd state inv.auto

/-- `STATE_T` is final and silent. -/
theorem Relay.run_stateT {answers : List (ReadResult × WriteResult)}
    (state : s.fsm.state = .stateT) (ran : run Relay.step s answers = some t) : t = s := by
  have silent : ∀ a, s.step a = some s := by simp [step, fsmDriver, state]
  induction answers with
  | nil => exact (Option.some.inj ran).symm
  | cons a answers ih =>
      obtain ⟨u, first, rest⟩ := run_cons_eq_some.mp ran
      rw [silent a] at first
      cases first
      exact ih rest

/-- Along every sequence of kernel answers, the driver never aborts and the
bytes written are a prefix of the bytes read: all of them in `STATE_R` and
after an end of file, and short of the unwritten part of the last chunk in
`STATE_W`. Nothing is read or written once `STATE_T` is reached. -/
theorem relay_copies (raw : RelFsm) (sfd dfd : Int)
    (answers : List (ReadResult × WriteResult))
    (allowed : Along Relay.step Relay.Allowed (Relay.start raw sfd dfd) answers) :
    ∃ s, run Relay.step (Relay.start raw sfd dfd) answers = some s ∧
      s.output <+: s.input ∧
      (s.fsm.state = .stateR → s.output = s.input) ∧
      (s.fsm.state = .stateT → s.AtEof → s.output = s.input) ∧
      s.fsm.count = s.output.length ∧
      (s.fsm.state = .stateW → 0 ≤ s.fsm.pos ∧ 0 < s.fsm.len ∧
        s.fsm.pos + s.fsm.len = s.chunk.length ∧ s.chunk.length ≤ BUFSIZE) ∧
      (s.fsm.state = .stateT →
        ∀ more t, run Relay.step s more = some t → t.calls = s.calls ∧ t.fsm.state = .stateT) := by
  obtain ⟨s, ran, inv⟩ := run_total (fun inv allowed => Relay.advance inv allowed)
    (Relay.start_inv raw sfd dfd) allowed
  refine ⟨s, ran, inv.copied, inv.idle, inv.ended, inv.count, ?_, ?_⟩
  · intro state
    obtain ⟨pos, len, total, size, -, -⟩ := inv.busy state
    exact ⟨pos, len, total, size⟩
  · intro state more t ran
    have same := Relay.run_stateT state ran
    exact ⟨by rw [same], by rw [same, state]⟩

/-- A two-byte chunk written in two short writes, then end of file. -/
theorem relay_copies_shortWrites :
    ∃ s, run Relay.step (Relay.start ⟨.stateT, 0, 0, [], 0, 0, 0, ""⟩ 3 4)
        [(.got [7, 8], .eagain), (.eagain, .took 1), (.eagain, .took 1), (.got [], .eagain)] =
          some s ∧ s.output <+: s.input ∧ s.fsm.count = s.output.length := by
  obtain ⟨s, ran, copied, -, -, count, -⟩ :=
    relay_copies ⟨.stateT, 0, 0, [], 0, 0, 0, ""⟩ 3 4
      [(.got [7, 8], .eagain), (.eagain, .took 1), (.eagain, .took 1), (.got [], .eagain)] (by
        simp [Along, Relay.Allowed, Relay.step, Relay.start, relAddjobFsm, fsmDriver,
          ReadResult.ret, WriteResult.ret, BUFSIZE])
  exact ⟨s, ran, copied, count⟩

/-! ## A call with any answer of the kernel -/

/-- The machine has ended, has reported an error, or finds the end of its file. -/
def RelFsm.Ends (fsm : RelFsm) (rd : ReadResult) : Prop :=
  fsm.state = .stateT ∨ fsm.state = .stateEx ∨ fsm.state = .stateR ∧ rd = .got []

/-- What the machine does in its state: it reads from `sfd` or writes to `dfd`. -/
def RelFsm.Calls (fsm : RelFsm) : Syscall → Prop
  | .read fd _ => fd = fsm.sfd ∧ fsm.state = .stateR
  | .write fd _ _ => fd = fsm.dfd ∧ fsm.state = .stateW

/-- What `fsm_driver` has made of the machine `fsm`, and the calls it has made. -/
structure Driven (fsm : RelFsm) (rd : ReadResult) (fsm' : RelFsm) (calls : List Syscall) :
    Prop where
  known : fsm'.state ≠ .stateAuto
  sfd : fsm'.sfd = fsm.sfd
  dfd : fsm'.dfd = fsm.dfd
  ended : fsm'.state = .stateT ↔ fsm.Ends rd
  calls : ∀ call ∈ calls, fsm.Calls call

theorem ReadResult.ret_eq_zero {rd : ReadResult} : rd.ret = 0 ↔ rd = .got [] := by
  rcases rd with bytes | _ | _ <;> simp [ret]

/-- A machine in one of the four states of the library is driven without an `abort()`. -/
theorem exists_driven (known : fsm.state ≠ .stateAuto) (rd : ReadResult) (wr : WriteResult) :
    ∃ fsm' calls, fsmDriver fsm rd wr = some (fsm', calls) ∧ Driven fsm rd fsm' calls := by
  unfold fsmDriver
  cases state : fsm.state with
  | stateR =>
      have read {fsm' : RelFsm} (known : fsm'.state ≠ .stateAuto) (sfd : fsm'.sfd = fsm.sfd)
          (dfd : fsm'.dfd = fsm.dfd) (ended : fsm'.state = .stateT ↔ rd.ret = 0) :
          Driven fsm rd fsm' [.read fsm.sfd rd] :=
        ⟨known, sfd, dfd, by simp [ended, RelFsm.Ends, state, ReadResult.ret_eq_zero],
          by simp [RelFsm.Calls, state]⟩
      dsimp only
      split
      · next eof => exact ⟨_, _, rfl, read nofun rfl rfl (iff_of_true rfl eof)⟩
      · next more =>
          split
          · split <;> exact ⟨_, _, rfl, read nofun rfl rfl (iff_of_false nofun more)⟩
          · exact ⟨_, _, rfl, read nofun rfl rfl (iff_of_false nofun more)⟩
  | stateW =>
      have wrote {fsm' : RelFsm} {offered : List UInt8} (known : fsm'.state ≠ .stateAuto)
          (sfd : fsm'.sfd = fsm.sfd) (dfd : fsm'.dfd = fsm.dfd) (goesOn : fsm'.state ≠ .stateT) :
          Driven fsm rd fsm' [.write fsm.dfd offered wr] :=
        ⟨known, sfd, dfd, by simp [goesOn, RelFsm.Ends, state], by simp [RelFsm.Calls, state]⟩
      dsimp only
      split
      · split <;> exact ⟨_, _, rfl, wrote nofun rfl rfl nofun⟩
      · split <;> exact ⟨_, _, rfl, wrote nofun rfl rfl nofun⟩
  | stateEx =>
      exact ⟨_, _, rfl, nofun, rfl, rfl, by simp [RelFsm.Ends, state], by simp⟩
  | stateT =>
      exact ⟨_, _, rfl, known, rfl, rfl, by simp [RelFsm.Ends, state], by simp⟩
  | stateAuto => exact absurd state known

end Shang.Relayer
