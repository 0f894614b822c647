import Shang.Lib.Run

/-!
# The acknowledged file transfer over UDP

`client.c` and `server.c` of `6.myftp_udp_fork_ack`: the client asks for a path,
a child of the server sends the file in numbered pieces, and waits for the
acknowledgement of each before it reads the next. Between them is a network that
loses, repeats and reorders datagrams: whatever was sent to a socket can be
received there at any time, any number of times or never.
-/

namespace Shang.Myftp

open Lib

abbrev Bytes := List UInt8

def MSGMAX : Nat := 512 - 20 - 8

def DATASIZE : Nat := MSGMAX - 8 - 4 - 4

/-- `msg_s2c_t`: the member of the union that `mtype` selects, with as much of
the array `data` as `datalen` says. -/
inductive Msg
  | path (path : String)
  | data (dataNum : BitVec 32) (data : Bytes)
  | ack (ackDataNum : BitVec 32)
  | eot
  | err (errno : Int)
  deriving DecidableEq

inductive State
  | rcv
  | send
  | read
  | output
  | ex
  | t
  deriving DecidableEq

/-- What becomes of the system call that a step makes: it does what it is asked
to, is interrupted by a signal or fails, or it is a `recvfrom` that gets a
datagram. -/
inductive Answer
  | done
  | eintr
  | failed (errno : Int)
  | got (m : Msg)
  deriving DecidableEq

/-- What the client writes to its standard output: the bytes of a datagram, or
the text of an error. -/
inductive Write
  | data (bytes : Bytes)
  | strerror (errno : Int)
  deriving DecidableEq

def Write.bytes : Write → Bytes
  | .data bytes => bytes
  | .strerror _ => []

/-! ## The client -/

structure Client where
  state : State
  dataBuf : Msg
  stdout : List Write
  exited : Option Int
  deriving DecidableEq

/-- Whom a datagram of the client is for: `server_addr` or `server_child_addr`. -/
inductive Peer
  | server
  | child
  deriving DecidableEq

namespace Client

variable (c : Client)

/-- The bytes of the file in the standard output. -/
def out : Bytes :=
  c.stdout.flatMap Write.bytes

/-- What `STATE_SEND` of the client sends. -/
def datagram : Option (Peer × Msg) :=
  match c.dataBuf with
  | .path path => some (.server, .path path)
  | .ack ackDataNum => some (.child, .ack ackDataNum)
  | _ => none

/-- `STATE_SEND` of the client; if there is nothing to send it goes by the value
that `len` happens to have. -/
def send (answer : Answer) : Option (Client × Option (Peer × Msg)) :=
  match answer with
  | .done => some ({ c with state := .rcv }, c.datagram)
  | .eintr => some ({ c with state := .send }, none)
  | .failed _ => some ({ c with state := .ex }, none)
  | .got _ => none

/-- `STATE_RCV` of the client -/
def rcv (answer : Answer) : Option Client :=
  match answer with
  | .done => none
  | .eintr => some { c with state := .rcv }
  | .failed _ => some { c with state := .ex }
  | .got m =>
    some { c with
      dataBuf := m
      state := match m with
        | .data _ _ => .output
        | .err _ => .output
        | .eot => .t
        | _ => .rcv }

/-- `STATE_OUTPUT` of the client -/
def output (answer : Answer) : Option Client :=
  match c.dataBuf with
  | .data dataNum data =>
    match answer with
    | .done =>
      some { c with
        stdout := c.stdout ++ [.data data]
        dataBuf := .ack dataNum
        state := .send }
    | .eintr => some { c with state := .output }
    | .failed _ => some { c with state := .ex }
    | .got _ => none
  | .err errno =>
    match answer with
    | .done => some { c with stdout := c.stdout ++ [.strerror errno], state := .t }
    | .eintr => some { c with state := .output }
    | .failed _ => some { c with state := .ex }
    | .got _ => none
  | _ => some c

/-- `fsm_driver` of the client, and the datagram it sends. -/
def fsmDriver (answer : Answer) : Option (Client × Option (Peer × Msg)) :=
  if c.exited.isSome then none
  else
    match c.state with
    | .send => c.send answer
    | .rcv => (c.rcv answer).map fun c => (c, none)
    | .output => (c.output answer).map fun c => (c, none)
    | .t => some ({ c with exited := some 0 }, none)
    | .ex => some ({ c with state := .t }, none)
    | .read => some ({ c with exited := some 0 }, none)

end Client

/-! ## The child of the server -/

/-- A child of the server; `fd` is what the open file still has to give, and
`files` what `open` finds under a path. -/
structure Child where
  state : State
  dataBuf : Msg
  fd : Bytes
  num : BitVec 32
  init : Bool
  exited : Option Int
  deriving DecidableEq

namespace Child

variable (files : String → Except Int Bytes) (d : Child)

/-- A child that is forked on a datagram. -/
def fork (m : Msg) : Child :=
  ⟨.rcv, m, [], 1, false, none⟩

/-- `STATE_RCV` of the child, with the datagram in `data_buf`. -/
def rcv : Child :=
  match d.dataBuf with
  | .path path =>
    match files path with
    | .error errno => { d with state := .send, dataBuf := .err errno }
    | .ok contents => { d with init := true, fd := contents, state := .read }
  | .ack ackDataNum =>
    if ackDataNum ≠ d.num then { d with exited := some (-1) }
    else { d with state := .read, num := d.num + 1 }
  | _ => d

/-- `STATE_READ` of the child -/
def read (answer : Answer) : Option Child :=
  match answer with
  | .eintr => some { d with state := .read }
  | .failed errno => some { d with state := .send, dataBuf := .err errno }
  | .done =>
    let data := d.fd.take DATASIZE
    if data.length = 0 then some { d with state := .send, dataBuf := .eot }
    else
      some { d with
        state := .send
        dataBuf := .data d.num data
        fd := d.fd.drop DATASIZE }
  | .got _ => none

/-- `STATE_SEND` of the child -/
def send (answer : Answer) : Option (Child × Option Msg) :=
  match answer with
  | .eintr => some ({ d with state := .send }, none)
  | .failed _ => some ({ d with state := .ex }, none)
  | .done =>
    let d := match d.dataBuf with
      | .data _ _ => { d with state := .rcv }
      | .err _ => { d with exited := some 0 }
      | .eot => { d with exited := some 0 }
      | _ => d
    some (d, some d.dataBuf)
  | .got _ => none

/-- `fsm_driver` of the child, and the datagram it sends. -/
def fsmDriver (answer : Answer) : Option (Child × Option Msg) :=
  if d.exited.isSome then none
  else
    match d.state with
    | .rcv =>
      if d.init then
        match answer with
        | .got m => some ({ d with dataBuf := m }.rcv files, none)
        | .eintr => some (d, none)
        | .failed _ => some ({ d with exited := some 1 }, none)
        | .done => none
      else
        some (d.rcv files, none)
    | .read => (d.read answer).map fun d => (d, none)
    | .send => d.send answer
    | .ex => some ({ d with exited := some 0 }, none)
    | .output => some ({ d with exited := some 0 }, none)
    | .t => some ({ d with exited := some 0 }, none)

end Child

/-! ## Both of them and the network -/

/-- The client, the child once it is forked, everything that was ever sent to
each socket, and the places in `toClient` of what the client has received. -/
structure Sys where
  client : Client
  child : Option Child
  toServer : List Msg
  toChild : List Msg
  toClient : List Msg
  received : List Nat
  deriving DecidableEq

/-- A step of the client or of the child, with a datagram or without, or the
server forks its child. -/
inductive Event
  | client (answer : Answer)
  | clientRecv (k : Nat)
  | fork (k : Nat)
  | child (answer : Answer)
  | childRecv (k : Nat)
  deriving DecidableEq

/-- An answer that is not a datagram. -/
def Answer.isLocal : Answer → Bool
  | .got _ => false
  | _ => true

namespace Sys

variable (files : String → Except Int Bytes) (s : Sys)

def start (path : String) : Sys :=
  ⟨⟨.send, .path path, [], none⟩, none, [], [], [], []⟩

/-- The client has become `c` and sent `sent`. -/
def clientDone (c : Client) (sent : Option (Peer × Msg)) : Sys :=
  match sent with
  | none => { s with client := c }
  | some (.server, m) => { s with client := c, toServer := s.toServer ++ [m] }
  | some (.child, m) => { s with client := c, toChild := s.toChild ++ [m] }

/-- The child has become `d` and sent `sent`. -/
def childDone (d : Child) (sent : Option Msg) : Sys :=
  { s with child := some d, toClient := s.toClient ++ sent.toList }

def step : Event → Option Sys
  | .client answer =>
    if answer.isLocal then
      (s.client.fsmDriver answer).map fun (c, sent) => s.clientDone c sent
    else none
  | .clientRecv k =>
    if s.client.state = .rcv then
      s.toClient[k]?.bind fun m =>
        (s.client.fsmDriver (.got m)).map fun (c, sent) =>
          { s.clientDone c sent with received := k :: s.received }
    else none
  | .fork k =>
    match s.child with
    | some _ => none
    | none => s.toServer[k]?.map fun m => { s with child := some (Child.fork m) }
  | .child answer =>
    if answer.isLocal then
      s.child.bind fun d => (d.fsmDriver files answer).map fun (d, sent) => s.childDone d sent
    else none
  | .childRecv k =>
    s.child.bind fun d =>
      if d.state = .rcv ∧ d.init then
        s.toChild[k]?.bind fun m =>
          (d.fsmDriver files (.got m)).map fun (d, sent) => s.childDone d sent
      else none

end Sys

/-- The contents of the file that the client asks for, if it can be opened. -/
def contents (files : String → Except Int Bytes) (path : String) : Bytes :=
  match files path with
  | .ok contents => contents
  | .error _ => []

/-- What the transfer is for: the client has written the file as far as it got,
and all of it once it has seen the end. -/
structure Faithful (file : Bytes) (s : Sys) : Prop where
  begun : s.client.out <+: file
  whole : s.client.state = .t → s.client.dataBuf = .eot → s.client.out = file

def INT_MAX : Nat := 2147483647

/-- The client is not given a piece of the file that it has received before, and
the child's `num` does not overflow. -/
def Once (s : Sys) : Event → Prop
  | .clientRecv k =>
    match s.toClient[k]? with
    | some (.data _ _) => k ∉ s.received
    | _ => True
  | .childRecv k =>
    match s.child with
    | some d => s.toChild[k]? = some (.ack d.num) → d.num.toNat < INT_MAX
    | none => True
  | _ => True

instance (s : Sys) : (e : Event) → Decidable (Once s e)
  | .clientRecv k =>
    match found : s.toClient[k]? with
    | some (.data _ _) => decidable_of_iff (k ∉ s.received) (by simp [Once, found])
    | some (.path _) => isTrue (by simp [Once, found])
    | some (.ack _) => isTrue (by simp [Once, found])
    | some .eot => isTrue (by simp [Once, found])
    | some (.err _) => isTrue (by simp [Once, found])
    | none => isTrue (by simp [Once, found])
  | .childRecv k =>
    match found : s.child with
    | some d =>
      decidable_of_iff (s.toChild[k]? = some (.ack d.num) → d.num.toNat < INT_MAX)
        (by simp [Once, found])
    | none => isTrue (by simp [Once, found])
  | .client _ => isTrue trivial
  | .fork _ => isTrue trivial
  | .child _ => isTrue trivial

variable {files : String → Except Int Bytes} {path : String} {s t : Sys} {e : Event}
  {es : List Event} {c c' : Client} {d d' : Child} {m : Msg} {answer : Answer} {k : Nat} {b : Bytes}

/-! ## One piece at a time -/

/-- Where the piece is that the child has read last: on its way, or written and
on its way to be acknowledged; or the child is ready for the next one, or done. -/
inductive Stage
  | ready
  | loaded (b : Bytes)
  | flying (k : Nat) (b : Bytes)
  | held (b : Bytes)
  | written
  | acked
  | ended
  | refused

/-- The part of the file that is read but not written. -/
def Stage.piece : Stage → Bytes
  | .loaded b => b
  | .flying _ b => b
  | .held b => b
  | _ => []

/-- What the child does meanwhile. -/
def Stage.Role (d : Child) : Stage → Prop
  | .ready => d.state = .read ∧ d.init = true
  | .loaded b => d.dataBuf = .data d.num b ∧ d.init = true ∧ (d.state = .send ∨ d.state = .ex)
  | .ended => d.dataBuf = .eot ∧ d.fd = [] ∧ (d.state = .send ∨ d.state = .ex)
  | .refused => (∃ errno, d.dataBuf = .err errno) ∧ (d.state = .send ∨ d.state = .ex)
  | _ => d.state = .rcv ∧ d.init = true

/-- Before the child has opened the file nothing is sent but the path. -/
structure Early (path : String) (s : Sys) : Prop where
  nothing : s.toChild = [] ∧ s.toClient = []
  asked : ∀ m ∈ s.toServer, m = .path path
  client : s.client.stdout = [] ∧ s.client.dataBuf = .path path ∧ s.client.state ≠ .output
  child : ∀ d, s.child = some d → d = Child.fork (.path path)

/-- Afterwards there is one piece at most that is not yet acknowledged, and only
the stage that it is in lets the client write or the child go on. -/
structure At (file : Bytes) (d : Child) (stage : Stage) (s : Sys) : Prop where
  child : s.child = some d
  role : stage.Role d
  split : s.client.out ++ stage.piece ++ d.fd = file
  acks : ∀ m ∈ s.toChild, ∃ n, m = .ack n ∧ (n.toNat < d.num.toNat ∨ n = d.num ∧ stage = .acked)
  pieces : ∀ k n b, s.toClient[k]? = some (.data n b) →
    k ∈ s.received ∨ stage = .flying k b ∧ n = d.num
  ends : Msg.eot ∈ s.toClient → stage = .ended
  holds : ∀ n b, s.client.state = .output → s.client.dataBuf = .data n b →
    stage = .held b ∧ n = d.num
  answers : ∀ n, s.client.state = .send → s.client.dataBuf = .ack n →
    stage = .written ∧ n = d.num
  seen : s.client.dataBuf = .eot → stage = .ended

/-- What holds in every state: the invariant of the transfer. -/
def Inv (path : String) (file : Bytes) (s : Sys) : Prop :=
  Early path s ∨ ∃ d stage, At file d stage s

/-- A step of the client that neither writes a piece nor sends an acknowledgement. -/
theorem At.clientMoves {file : Bytes} {stage : Stage} (at_ : At file d stage s)
    (out : c.out = s.client.out)
    (holds : ∀ n b, c.state = .output → c.dataBuf = .data n b → stage = .held b ∧ n = d.num)
    (answers : ∀ n, c.state = .send → c.dataBuf = .ack n → stage = .written ∧ n = d.num)
    (seen : c.dataBuf = .eot → stage = .ended) : At file d stage { s with client := c } :=
  ⟨at_.child, at_.role, out ▸ at_.split, at_.acks, at_.pieces, at_.ends, holds, answers, seen⟩

/-- A step of the child that leaves the piece where it is and sends nothing. -/
theorem At.childMoves {file : Bytes} {stage : Stage} (at_ : At file d stage s)
    (role : stage.Role d') (fd : d'.fd = d.fd) (num : d'.num = d.num) :
    At file d' stage (s.childDone d' none) where
  child := rfl
  role := role
  split := fd ▸ at_.split
  acks := num ▸ at_.acks
  pieces k n b found := num ▸ at_.pieces k n b (by simpa [Sys.childDone] using found)
  ends eot := at_.ends (by simpa [Sys.childDone] using eot)
  holds := num ▸ at_.holds
  answers := num ▸ at_.answers
  seen := at_.seen

/-- The driver of a client that has not exited, one state at a time. -/
theorem client_cases {sent : Option (Peer × Msg)} (stepped : c.fsmDriver answer = some (c', sent)) :
    c.exited = none ∧ (
      (c.state = .send ∧ c.send answer = some (c', sent)) ∨
      (c.state = .rcv ∧ c.rcv answer = some c' ∧ sent = none) ∨
      (c.state = .output ∧ c.output answer = some c' ∧ sent = none) ∨
      ((c.state = .t ∨ c.state = .read) ∧ c' = { c with exited := some 0 } ∧ sent = none) ∨
      (c.state = .ex ∧ c' = { c with state := .t } ∧ sent = none)) := by
  unfold Client.fsmDriver at stepped
  split at stepped
  · cases stepped
  · next alive =>
      refine ⟨by simpa using alive, ?_⟩
      split at stepped
      · next state => exact .inl ⟨state, stepped⟩
      · next state =>
          obtain ⟨c₁, eq, pair⟩ := Option.map_eq_some_iff.mp stepped
          cases pair
          exact .inr (.inl ⟨state, eq, rfl⟩)
      · next state =>
          obtain ⟨c₁, eq, pair⟩ := Option.map_eq_some_iff.mp stepped
          cases pair
          exact .inr (.inr (.inl ⟨state, eq, rfl⟩))
      · next state =>
          cases stepped
          exact .inr (.inr (.inr (.inl ⟨.inl state, rfl, rfl⟩)))
      · next state =>
          cases stepped
          exact .inr (.inr (.inr (.inr ⟨state, rfl, rfl⟩)))
      · next state =>
          cases stepped
          exact .inr (.inr (.inr (.inl ⟨.inr state, rfl, rfl⟩)))

/-- The client writes: a piece, which it then holds no longer. -/
theorem At.output {file : Bytes} {stage : Stage} (at_ : At file d stage s)
    (state : s.client.state = .output) (stepped : s.client.output answer = some c) :
    ∃ stage, At file d stage { s with client := c } := by
  unfold Client.output at stepped
  split at stepped
  · next n b buf =>
      cases answer with
      | done =>
          cases stepped
          obtain ⟨rfl, rfl⟩ := at_.holds n b state buf
          refine ⟨.written, at_.child, at_.role, ?_, fun m mem => ?_, fun k n b found => ?_,
            fun eot => (nomatch at_.ends eot), nofun, fun n _ eq => ⟨rfl, ?_⟩, nofun⟩
          · have split := at_.split
            simpa [Client.out, Stage.piece, Write.bytes] using split
          · obtain ⟨n, eq, older | ⟨-, acked⟩⟩ := at_.acks m mem
            · exact ⟨n, eq, .inl older⟩
            · cases acked
          · rcases at_.pieces k n b found with got | ⟨flying, -⟩
            · exact .inl got
            · cases flying
          · simpa using eq.symm
      | eintr =>
          cases stepped
          exact ⟨stage, at_.clientMoves rfl (fun n b _ => at_.holds n b state) nofun at_.seen⟩
      | failed errno =>
          cases stepped
          exact ⟨stage, at_.clientMoves rfl nofun nofun at_.seen⟩
      | got m => cases stepped
  · next errno buf =>
      cases answer with
      | done =>
          cases stepped
          refine ⟨stage, at_.clientMoves ?_ nofun nofun at_.seen⟩
          simp [Client.out, Write.bytes]
      | eintr =>
          cases stepped
          exact ⟨stage, at_.clientMoves rfl (fun n b _ => at_.holds n b state) nofun at_.seen⟩
      | failed errno =>
          cases stepped
          exact ⟨stage, at_.clientMoves rfl nofun nofun at_.seen⟩
      | got m => cases stepped
  · cases stepped
    exact ⟨stage, at_⟩

theorem datagram_cases (c : Client) :
    (∃ path, c.datagram = some (.server, .path path)) ∨
      (∃ n, c.dataBuf = .ack n ∧ c.datagram = some (.child, .ack n)) ∨ c.datagram = none := by
  unfold Client.datagram
  split
  · next path buf => exact .inl ⟨path, rfl⟩
  · next n buf => exact .inr (.inl ⟨n, buf, rfl⟩)
  · exact .inr (.inr rfl)

/-- The client sends: an acknowledgement of the piece that it has written. -/
theorem At.send {file : Bytes} {stage : Stage} {sent : Option (Peer × Msg)}
    (at_ : At file d stage s) (state : s.client.state = .send)
    (stepped : s.client.send answer = some (c, sent)) :
    ∃ stage, At file d stage (s.clientDone c sent) := by
  cases answer with
  | done =>
      simp only [Client.send, Option.some.injEq, Prod.mk.injEq] at stepped
      obtain ⟨rfl, rfl⟩ := stepped
      have moved := at_.clientMoves (c := { s.client with state := .rcv }) rfl nofun nofun at_.seen
      rcases datagram_cases s.client with ⟨path, sent⟩ | ⟨n, buf, sent⟩ | sent
      · rw [sent]
        exact ⟨stage, moved.child, moved.role, moved.split, moved.acks, moved.pieces, moved.ends,
          moved.holds, moved.answers, moved.seen⟩
      · rw [sent]
        obtain ⟨rfl, rfl⟩ := at_.answers n state buf
        refine ⟨.acked, moved.child, moved.role, moved.split, fun m mem => ?_,
          fun k n b found => ?_, fun eot => (nomatch moved.ends eot), nofun, nofun,
          fun eot => (nomatch moved.seen eot)⟩
        · rcases List.mem_append.mp mem with old | new
          · obtain ⟨n, eq, older | ⟨-, acked⟩⟩ := at_.acks m old
            · exact ⟨n, eq, .inl older⟩
            · cases acked
          · exact ⟨d.num, List.mem_singleton.mp new, .inr ⟨rfl, rfl⟩⟩
        · rcases at_.pieces k n b found with got | ⟨flying, -⟩
          · exact .inl got
          · cases flying
      · rw [sent]
        exact ⟨stage, moved⟩
  | eintr =>
      cases stepped
      exact ⟨stage, at_.clientMoves rfl nofun (fun n _ => at_.answers n state) at_.seen⟩
  | failed errno =>
      cases stepped
      exact ⟨stage, at_.clientMoves rfl nofun nofun at_.seen⟩
  | got m => cases stepped

theorem At.clientLocal {file : Bytes} {stage : Stage} {sent : Option (Peer × Msg)}
    (at_ : At file d stage s) (local_ : answer.isLocal)
    (stepped : s.client.fsmDriver answer = some (c, sent)) :
    ∃ stage, At file d stage (s.clientDone c sent) := by
  rcases client_cases stepped with ⟨-, ⟨state, sends⟩ | ⟨state, receives, rfl⟩ |
    ⟨state, writes, rfl⟩ | ⟨state, rfl, rfl⟩ | ⟨state, rfl, rfl⟩⟩
  · exact at_.send state sends
  · cases answer with
    | done => cases receives
    | eintr =>
        cases receives
        exact ⟨stage, at_.clientMoves rfl nofun nofun at_.seen⟩
    | failed errno =>
        cases receives
        exact ⟨stage, at_.clientMoves rfl nofun nofun at_.seen⟩
    | got m => cases local_
  · exact at_.output state writes
  · refine ⟨stage, at_.clientMoves rfl (fun n b output => ?_) (fun n send => ?_) at_.seen⟩
    · rcases state with state | state
      · cases state.symm.trans output
      · cases state.symm.trans output
    · rcases state with state | state
      · cases state.symm.trans send
      · cases state.symm.trans send
  · exact ⟨stage, at_.clientMoves rfl nofun nofun at_.seen⟩

/-- The client receives: the piece that is on its way, if it is a piece that it
has not received before. -/
theorem At.clientRecv {file : Bytes} {stage : Stage} (at_ : At file d stage s)
    (once : Once s (.clientRecv k)) (found : s.toClient[k]? = some m)
    (stepped : s.client.rcv (.got m) = some c) :
    ∃ stage, At file d stage { s with client := c, received := k :: s.received } := by
  have sent := List.mem_of_getElem? found
  have later : ∀ x n b, s.toClient[x]? = some (.data n b) →
      x ∈ k :: s.received ∨ stage = .flying x b ∧ n = d.num := by
    intro x n b piece
    rcases at_.pieces x n b piece with got | flying
    · exact .inl (List.mem_cons_of_mem k got)
    · exact .inr flying
  simp only [Client.rcv, Option.some.injEq] at stepped
  subst stepped
  cases m with
  | data n b =>
      have fresh : k ∉ s.received := by simpa [Once, found] using once
      obtain ⟨rfl, rfl⟩ := (at_.pieces k n b found).resolve_left fresh
      refine ⟨.held b, at_.child, at_.role, at_.split, fun m mem => ?_, fun x n b piece => ?_,
        fun eot => (nomatch at_.ends eot), fun n' b' _ eq => ?_, nofun, nofun⟩
      · obtain ⟨n, eq, older | ⟨-, acked⟩⟩ := at_.acks m mem
        · exact ⟨n, eq, .inl older⟩
        · cases acked
      · rcases later x n b piece with got | ⟨flying, -⟩
        · exact .inl got
        · cases flying
          exact .inl List.mem_cons_self
      · cases eq
        exact ⟨rfl, rfl⟩
  | eot =>
      exact ⟨stage, at_.child, at_.role, at_.split, at_.acks, later, at_.ends, nofun, nofun,
        fun _ => at_.ends sent⟩
  | err errno =>
      exact ⟨stage, at_.child, at_.role, at_.split, at_.acks, later, at_.ends, nofun, nofun, nofun⟩
  | path path =>
      exact ⟨stage, at_.child, at_.role, at_.split, at_.acks, later, at_.ends, nofun, nofun, nofun⟩
  | ack n =>
      exact ⟨stage, at_.child, at_.role, at_.split, at_.acks, later, at_.ends, nofun, nofun, nofun⟩

/-- A child that is ready goes on to another stage. -/
theorem At.goesOn {file : Bytes} {stage : Stage} (at_ : At file d .ready s)
    (role : stage.Role d') (num : d'.num = d.num)
    (split : s.client.out ++ stage.piece ++ d'.fd = file) :
    At file d' stage (s.childDone d' none) where
  child := rfl
  role := role
  split := split
  acks m mem := by
    obtain ⟨n, eq, older | ⟨-, acked⟩⟩ := at_.acks m mem
    · exact ⟨n, eq, .inl (num ▸ older)⟩
    · cases acked
  pieces k n b found := by
    rcases at_.pieces k n b (by simpa [Sys.childDone] using found) with got | ⟨flying, -⟩
    · exact .inl got
    · cases flying
  ends eot := nomatch at_.ends (by simpa [Sys.childDone] using eot)
  holds n b state buf := nomatch (at_.holds n b state buf).1
  answers n state buf := nomatch (at_.answers n state buf).1
  seen eot := nomatch at_.seen eot

/-- The child reads the next piece, or finds that there is none. -/
theorem At.read {file : Bytes} (at_ : At file d .ready s) (stepped : d.read answer = some d') :
    ∃ stage, At file d' stage (s.childDone d' none) := by
  have split : s.client.out ++ [] ++ d.fd = file := at_.split
  cases answer with
  | eintr =>
      cases stepped
      exact ⟨.ready, at_.childMoves ⟨rfl, at_.role.2⟩ rfl rfl⟩
  | failed errno =>
      cases stepped
      exact ⟨.refused, at_.goesOn ⟨⟨errno, rfl⟩, .inl rfl⟩ rfl split⟩
  | done =>
      simp only [Child.read] at stepped
      split at stepped
      · next none_ =>
          cases stepped
          have exhausted : d.fd = [] := by
            rw [List.length_take] at none_
            have positive : 0 < DATASIZE := by decide
            exact List.length_eq_zero_iff.mp (by omega)
          exact ⟨.ended, at_.goesOn ⟨rfl, exhausted, .inl rfl⟩ rfl split⟩
      · cases stepped
        refine ⟨.loaded (d.fd.take DATASIZE), at_.goesOn ⟨rfl, at_.role.2, .inl rfl⟩ rfl ?_⟩
        show s.client.out ++ d.fd.take DATASIZE ++ d.fd.drop DATASIZE = file
        rw [List.append_assoc, List.take_append_drop, ← split, List.append_nil]
  | got m => cases stepped

/-- The stages in which the child sends. -/
theorem sending_cases {stage : Stage} (role : stage.Role d) (state : d.state = .send) :
    (∃ b, stage = .loaded b) ∨ stage = .ended ∨ stage = .refused := by
  cases stage with
  | loaded b => exact .inl ⟨b, rfl⟩
  | ended => exact .inr (.inl rfl)
  | refused => exact .inr (.inr rfl)
  | ready => cases state.symm.trans role.1
  | flying k b => cases state.symm.trans role.1
  | held b => cases state.symm.trans role.1
  | written => cases state.symm.trans role.1
  | acked => cases state.symm.trans role.1

/-- The child sends something that is not a piece, and exits. -/
theorem At.last {file : Bytes} {stage : Stage} (at_ : At file d stage s)
    (role : stage.Role { d with exited := some 0 }) (piece : ∀ n b, m ≠ .data n b)
    (eot : m = .eot → stage = .ended) :
    At file { d with exited := some 0 } stage
      (s.childDone { d with exited := some 0 } (some m)) where
  child := rfl
  role := role
  split := at_.split
  acks := at_.acks
  pieces k n b found := by
    rcases Nat.lt_trichotomy k s.toClient.length with old | new | beyond
    · exact at_.pieces k n b (by simpa [Sys.childDone, List.getElem?_append_left old] using found)
    · simp [Sys.childDone, new] at found
      exact absurd found (piece n b)
    · rw [List.getElem?_eq_none (by simp [Sys.childDone]; omega)] at found
      cases found
  ends mem := by
    rcases List.mem_append.mp mem with old | new
    · exact at_.ends old
    · exact eot (List.mem_singleton.mp new).symm
  holds := at_.holds
  answers := at_.answers
  seen := at_.seen

/-- The child sends the piece that it has read. -/
theorem At.flies {file : Bytes} (at_ : At file d (.loaded b) s) :
    At file { d with state := .rcv } (.flying s.toClient.length b)
      (s.childDone { d with state := .rcv } (some (.data d.num b))) where
  child := rfl
  role := ⟨rfl, at_.role.2.1⟩
  split := at_.split
  acks m mem := by
    obtain ⟨n, eq, older | ⟨-, acked⟩⟩ := at_.acks m mem
    · exact ⟨n, eq, .inl older⟩
    · cases acked
  pieces k n b' found := by
    rcases Nat.lt_trichotomy k s.toClient.length with old | new | beyond
    · rcases at_.pieces k n b' (by simpa [Sys.childDone, List.getElem?_append_left old] using found)
        with got | ⟨flying, -⟩
      · exact .inl got
      · cases flying
    · simp [Sys.childDone, new] at found
      rw [new, found.1, found.2]
      exact .inr ⟨rfl, rfl⟩
    · rw [List.getElem?_eq_none (by simp [Sys.childDone]; omega)] at found
      cases found
  ends mem := by
    rcases List.mem_append.mp mem with old | new
    · cases at_.ends old
    · cases List.mem_singleton.mp new
  holds n b state buf := nomatch (at_.holds n b state buf).1
  answers n state buf := nomatch (at_.answers n state buf).1
  seen eot := nomatch at_.seen eot

/-- The child sends: the piece that it has read, or the end, or an error. -/
theorem At.childSends {file : Bytes} {stage : Stage} {sent : Option Msg} (at_ : At file d stage s)
    (state : d.state = .send) (stepped : d.send answer = some (d', sent)) :
    ∃ stage, At file d' stage (s.childDone d' sent) := by
  cases answer with
  | done =>
      obtain ⟨state', buf, fd, num, init, exited⟩ := d
      rcases sending_cases at_.role state with ⟨b, rfl⟩ | rfl | rfl
      · obtain ⟨rfl, -, -⟩ : buf = .data num b ∧ _ := at_.role
        cases stepped
        exact ⟨_, at_.flies⟩
      · obtain ⟨rfl, exhausted, sending⟩ : buf = .eot ∧ _ := at_.role
        cases stepped
        exact ⟨.ended, at_.last ⟨rfl, exhausted, sending⟩ (fun _ _ => nofun) fun _ => rfl⟩
      · obtain ⟨⟨errno, rfl⟩, sending⟩ : (∃ errno, buf = .err errno) ∧ _ := at_.role
        cases stepped
        exact ⟨.refused, at_.last ⟨⟨errno, rfl⟩, sending⟩ (fun _ _ => nofun) nofun⟩
  | eintr =>
      cases stepped
      rw [← state]
      exact ⟨stage, at_.childMoves at_.role rfl rfl⟩
  | failed errno =>
      cases stepped
      refine ⟨stage, at_.childMoves ?_ rfl rfl⟩
      rcases sending_cases at_.role state with ⟨b, rfl⟩ | rfl | rfl
      · exact ⟨at_.role.1, at_.role.2.1, .inr rfl⟩
      · exact ⟨at_.role.1, at_.role.2.1, .inr rfl⟩
      · exact ⟨at_.role.1, .inr rfl⟩
  | got m => cases stepped

theorem reading {stage : Stage} (role : stage.Role d) (state : d.state = .read) :
    stage = .ready := by
  cases stage with
  | ready => rfl
  | loaded b => rcases role.2.2 with other | other <;> cases state.symm.trans other
  | ended => rcases role.2.2 with other | other <;> cases state.symm.trans other
  | refused => rcases role.2 with other | other <;> cases state.symm.trans other
  | flying k b => cases state.symm.trans role.1
  | held b => cases state.symm.trans role.1
  | written => cases state.symm.trans role.1
  | acked => cases state.symm.trans role.1

/-- A child that receives is in one of the stages that ask no more of it. -/
theorem receiving {stage : Stage} (role : stage.Role d) (state : d.state = .rcv) (d' : Child) :
    d.init = true ∧ (d'.state = .rcv → d'.init = true → stage.Role d') := by
  cases stage with
  | ready => cases state.symm.trans role.1
  | loaded b => rcases role.2.2 with other | other <;> cases state.symm.trans other
  | ended => rcases role.2.2 with other | other <;> cases state.symm.trans other
  | refused => rcases role.2 with other | other <;> cases state.symm.trans other
  | flying k b => exact ⟨role.2, fun state init => ⟨state, init⟩⟩
  | held b => exact ⟨role.2, fun state init => ⟨state, init⟩⟩
  | written => exact ⟨role.2, fun state init => ⟨state, init⟩⟩
  | acked => exact ⟨role.2, fun state init => ⟨state, init⟩⟩

theorem role_exited {stage : Stage} (role : stage.Role d) (status : Int) :
    stage.Role { d with exited := some status } := by
  cases stage <;> exact role

theorem At.childLocal {file : Bytes} {stage : Stage} {sent : Option Msg} (at_ : At file d stage s)
    (local_ : answer.isLocal) (stepped : d.fsmDriver files answer = some (d', sent)) :
    ∃ stage, At file d' stage (s.childDone d' sent) := by
  unfold Child.fsmDriver at stepped
  split at stepped
  · cases stepped
  · split at stepped
    · next state =>
        rw [if_pos (receiving at_.role state d).1] at stepped
        cases answer with
        | done => cases stepped
        | eintr =>
            cases stepped
            exact ⟨stage, at_.childMoves at_.role rfl rfl⟩
        | failed errno =>
            cases stepped
            exact ⟨stage, at_.childMoves (role_exited at_.role 1) rfl rfl⟩
        | got m => cases local_
    · next state =>
        obtain ⟨d₁, reads, pair⟩ := Option.map_eq_some_iff.mp stepped
        cases pair
        obtain rfl := reading at_.role state
        exact at_.read reads
    · next state => exact at_.childSends state stepped
    · cases stepped
      exact ⟨stage, at_.childMoves (role_exited at_.role 0) rfl rfl⟩
    · cases stepped
      exact ⟨stage, at_.childMoves (role_exited at_.role 0) rfl rfl⟩
    · cases stepped
      exact ⟨stage, at_.childMoves (role_exited at_.role 0) rfl rfl⟩

/-- The child receives an acknowledgement: of the piece that it waits for, or it
exits. -/
theorem At.childRecv {file : Bytes} {stage : Stage} {sent : Option Msg} (at_ : At file d stage s)
    (once : Once s (.childRecv k)) (state : d.state = .rcv) (found : s.toChild[k]? = some m)
    (stepped : d.fsmDriver files (.got m) = some (d', sent)) :
    ∃ stage, At file d' stage (s.childDone d' sent) := by
  obtain ⟨n, rfl, order⟩ := at_.acks m (List.mem_of_getElem? found)
  unfold Child.fsmDriver at stepped
  split at stepped
  · cases stepped
  · rw [state] at stepped
    dsimp only at stepped
    obtain ⟨opened, role⟩ := receiving at_.role state
      { d with state := .rcv, dataBuf := .ack n, exited := some (-1) }
    rw [if_pos opened] at stepped
    cases stepped
    unfold Child.rcv
    dsimp only
    split
    · exact ⟨stage, at_.childMoves (role rfl opened) rfl rfl⟩
    · next same =>
        obtain rfl : n = d.num := not_not.mp same
        obtain rfl : stage = .acked := (order.resolve_left (Nat.lt_irrefl _)).2
        have bounded : d.num.toNat < INT_MAX := by
          unfold Once at once
          rw [at_.child] at once
          exact once found
        have next : (d.num + 1).toNat = d.num.toNat + 1 := by
          rw [BitVec.toNat_add]
          unfold INT_MAX at bounded
          exact Nat.mod_eq_of_lt (by simp; omega)
        refine ⟨.ready, rfl, ⟨rfl, opened⟩, at_.split, fun m mem => ?_, fun k n b piece => ?_,
          fun eot => ?_, fun n b state buf => (nomatch (at_.holds n b state buf).1),
          fun n state buf => (nomatch (at_.answers n state buf).1),
          fun eot => (nomatch at_.seen eot)⟩
        · obtain ⟨n, eq, older | ⟨same, -⟩⟩ := at_.acks m mem
          · exact ⟨n, eq, .inl (by rw [next]; omega)⟩
          · exact ⟨n, eq, .inl (by rw [next, same]; omega)⟩
        · rcases at_.pieces k n b (by simpa [Sys.childDone] using piece) with got | ⟨flying, -⟩
          · exact .inl got
          · cases flying
        · exact nomatch at_.ends (by simpa [Sys.childDone] using eot)

/-- The child opens the file. -/
theorem Early.opens {sent : Option Msg} (early : Early path s) (found : s.child = some d)
    (stepped : d.fsmDriver files answer = some (d', sent)) :
    Inv path (contents files path) (s.childDone d' sent) := by
  obtain rfl := early.child d found
  obtain ⟨⟨noAcks, noPieces⟩, -, ⟨unwritten, asks, silent⟩, -⟩ := early
  have out : s.client.out = [] := by
    unfold Client.out
    rw [unwritten]
    rfl
  have opened : ∀ (d₁ : Child) (stage : Stage), stage.Role d₁ → stage.piece = [] →
      d₁.fd = contents files path →
      Inv path (contents files path) (s.childDone d₁ none) := by
    intro d₁ stage role piece fd
    refine .inr ⟨d₁, stage, rfl, role, ?_, fun m mem => ?_, fun k n b found => ?_, fun eot => ?_,
      fun n b output => ?_, fun n _ ack => ?_, fun eot => ?_⟩
    · show s.client.out ++ _ ++ _ = _
      rw [out, piece, fd]
      rfl
    · change m ∈ s.toChild at mem
      rw [noAcks] at mem
      cases mem
    · simp [Sys.childDone, noPieces] at found
    · simp [Sys.childDone, noPieces] at eot
    · exact absurd output silent
    · cases asks.symm.trans ack
    · cases asks.symm.trans eot
  cases there : files path with
  | ok file =>
      simp only [Child.fsmDriver, Child.fork, Child.rcv, there] at stepped
      cases stepped
      exact opened _ .ready ⟨rfl, rfl⟩ rfl (by rw [contents, there])
  | error errno =>
      simp only [Child.fsmDriver, Child.fork, Child.rcv, there] at stepped
      cases stepped
      exact opened _ .refused ⟨⟨errno, rfl⟩, .inl rfl⟩ rfl (by rw [contents, there])

/-- A step of the client that has not been sent anything. -/
theorem Early.clientLocal {sent : Option (Peer × Msg)} (early : Early path s)
    (local_ : answer.isLocal) (stepped : s.client.fsmDriver answer = some (c, sent)) :
    Early path (s.clientDone c sent) := by
  obtain ⟨nothing, asked, ⟨unwritten, asks, silent⟩, child⟩ := early
  have moved : ∀ state exited, state ≠ .output →
      Early path { s with client := { s.client with state := state, exited := exited } } :=
    fun state exited silent => ⟨nothing, asked, ⟨unwritten, asks, silent⟩, child⟩
  rcases client_cases stepped with ⟨-, ⟨state, sends⟩ | ⟨state, receives, rfl⟩ |
    ⟨state, writes, rfl⟩ | ⟨state, rfl, rfl⟩ | ⟨state, rfl, rfl⟩⟩
  · cases answer with
    | done =>
        simp only [Client.send, Client.datagram, asks, Option.some.injEq, Prod.mk.injEq] at sends
        obtain ⟨rfl, rfl⟩ := sends
        refine ⟨nothing, fun m mem => ?_, ⟨unwritten, rfl, nofun⟩, child⟩
        rcases List.mem_append.mp mem with old | new
        · exact asked m old
        · exact List.mem_singleton.mp new
    | eintr =>
        cases sends
        exact moved .send _ nofun
    | failed errno =>
        cases sends
        exact moved .ex _ nofun
    | got m => cases sends
  · cases answer with
    | done => cases receives
    | eintr =>
        cases receives
        exact moved .rcv _ nofun
    | failed errno =>
        cases receives
        exact moved .ex _ nofun
    | got m => cases local_
  · exact absurd state silent
  · exact moved _ _ silent
  · exact moved .t _ nofun

theorem Inv.step (inv : Inv path (contents files path) s) (once : Once s e)
    (stepped : s.step files e = some t) : Inv path (contents files path) t := by
  cases e with
  | client answer =>
      simp only [Sys.step] at stepped
      split at stepped
      · next local_ =>
          obtain ⟨⟨c, sent⟩, moves, rfl⟩ := Option.map_eq_some_iff.mp stepped
          rcases inv with early | ⟨d, stage, at_⟩
          · exact .inl (early.clientLocal local_ moves)
          · obtain ⟨stage, at_⟩ := at_.clientLocal local_ moves
            exact .inr ⟨d, stage, at_⟩
      · cases stepped
  | clientRecv k =>
      simp only [Sys.step] at stepped
      split at stepped
      · next state =>
          obtain ⟨m, found, stepped⟩ := Option.bind_eq_some_iff.mp stepped
          obtain ⟨⟨c, sent⟩, moves, rfl⟩ := Option.map_eq_some_iff.mp stepped
          rcases inv with early | ⟨d, stage, at_⟩
          · rw [early.nothing.2] at found
            cases found
          · rcases client_cases moves with ⟨-, ⟨other, -⟩ | ⟨-, receives, rfl⟩ | ⟨other, -⟩ |
              ⟨other, -⟩ | ⟨other, -⟩⟩
            · cases state.symm.trans other
            · obtain ⟨stage, at_⟩ := at_.clientRecv once found receives
              exact .inr ⟨d, stage, at_⟩
            · cases state.symm.trans other
            · rcases other with other | other <;> cases state.symm.trans other
            · cases state.symm.trans other
      · cases stepped
  | fork k =>
      simp only [Sys.step] at stepped
      split at stepped
      · cases stepped
      · next unforked =>
          obtain ⟨m, found, rfl⟩ := Option.map_eq_some_iff.mp stepped
          rcases inv with early | ⟨d, stage, at_⟩
          · refine .inl ⟨early.nothing, early.asked, early.client, fun d forked => ?_⟩
            rw [← Option.some.inj forked, early.asked m (List.mem_of_getElem? found)]
          · cases unforked.symm.trans at_.child
  | child answer =>
      simp only [Sys.step] at stepped
      split at stepped
      · next local_ =>
          obtain ⟨d, forked, stepped⟩ := Option.bind_eq_some_iff.mp stepped
          obtain ⟨⟨d', sent⟩, moves, rfl⟩ := Option.map_eq_some_iff.mp stepped
          rcases inv with early | ⟨d₁, stage, at_⟩
          · exact early.opens forked moves
          · obtain rfl := Option.some.inj (at_.child.symm.trans forked)
            obtain ⟨stage, at_⟩ := at_.childLocal local_ moves
            exact .inr ⟨d', stage, at_⟩
      · cases stepped
  | childRecv k =>
      obtain ⟨d, forked, stepped⟩ := Option.bind_eq_some_iff.mp stepped
      split at stepped
      · next waiting =>
          obtain ⟨m, found, stepped⟩ := Option.bind_eq_some_iff.mp stepped
          obtain ⟨⟨d', sent⟩, moves, rfl⟩ := Option.map_eq_some_iff.mp stepped
          rcases inv with early | ⟨d₁, stage, at_⟩
          · rw [early.nothing.1] at found
            cases found
          · obtain rfl := Option.some.inj (at_.child.symm.trans forked)
            obtain ⟨stage, at_⟩ := at_.childRecv once waiting.1 found moves
            exact .inr ⟨d', stage, at_⟩
      · cases stepped

theorem Inv.faithful {file : Bytes} (inv : Inv path file s) : Faithful file s := by
  rcases inv with early | ⟨d, stage, at_⟩
  · obtain ⟨unwritten, asks, -⟩ := early.client
    refine ⟨?_, fun _ eot => (nomatch asks.symm.trans eot)⟩
    unfold Client.out
    rw [unwritten]
    exact List.nil_prefix
  · refine ⟨⟨stage.piece ++ d.fd, by rw [← List.append_assoc, at_.split]⟩, fun _ eot => ?_⟩
    obtain rfl := at_.seen eot
    have split := at_.split
    rw [at_.role.2.1, List.append_nil] at split
    exact (List.append_nil _).symm.trans split

theorem start_inv (path : String) (file : Bytes) : Inv path file (Sys.start path) :=
  .inl ⟨⟨rfl, rfl⟩, nofun, ⟨rfl, rfl, nofun⟩, nofun⟩

/-- In every run in which the client is never given the same piece twice, the
transfer is faithful, whatever the network loses, reorders or repeats otherwise. -/
theorem transfer_run (allowed : Along (Sys.step files) Once (Sys.start path) es)
    (ran : run (Sys.step files) (Sys.start path) es = some s) :
    Faithful (contents files path) s :=
  (run_invariant (fun inv once stepped => inv.step once stepped)
    (start_inv path (contents files path)) allowed ran).faithful

/-- A file of two bytes under every path. -/
def twoBytes (_ : String) : Except Int Bytes :=
  .ok [1, 2]

/-- The events of a transfer up to the receipt of the first piece. -/
def firstPiece : List Event :=
  [.client .done, .fork 0, .child .done, .child .done, .child .done, .clientRecv 0]

/-- A transfer to its end. -/
theorem transfer_run_twoBytes :
    ∃ s, run (Sys.step twoBytes) (Sys.start "hosts")
        (firstPiece ++ [.client .done, .client .done, .childRecv 0, .child .done, .child .done,
          .clientRecv 1]) = some s ∧
      (s.client.state = .t ∧ s.client.out = [1, 2]) ∧ Faithful (contents twoBytes "hosts") s := by
  have ran : (run (Sys.step twoBytes) (Sys.start "hosts")
      (firstPiece ++ [.client .done, .client .done, .childRecv 0, .child .done, .child .done,
        .clientRecv 1])).map (fun s => (s.client.state, s.client.out)) = some (.t, [1, 2]) := by
    decide
  obtain ⟨s, ran, eq⟩ := Option.map_eq_some_iff.mp ran
  simp only [Prod.mk.injEq] at eq
  exact ⟨s, ran, eq, transfer_run (by decide) ran⟩

/-- The network repeats the first piece, and the client writes it again. -/
theorem transfer_fails :
    ∃ s, run (Sys.step twoBytes) (Sys.start "hosts")
        (firstPiece ++ [.client .done, .client .done, .clientRecv 0, .client .done]) = some s ∧
      s.client.out = [1, 2, 1, 2] ∧ ¬ Faithful (contents twoBytes "hosts") s := by
  have ran : (run (Sys.step twoBytes) (Sys.start "hosts")
      (firstPiece ++ [.client .done, .client .done, .clientRecv 0, .client .done])).map
        (fun s => s.client.out) = some [1, 2, 1, 2] := by
    decide
  obtain ⟨s, ran, out⟩ := Option.map_eq_some_iff.mp ran
  refine ⟨s, ran, out, fun faithful => ?_⟩
  have begun := faithful.begun
  rw [out] at begun
  exact absurd begun (by decide)

end Shang.Myftp
