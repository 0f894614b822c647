import Mathlib.Logic.Function.Basic
import Shang.Lib.CString
import Shang.Lib.Run

/-!
# The chat server

`9-7.ybxtalk_server_epoll_et.c`: the users are in the entries 1 to `user_counter` of
`fds`. A message is received into the entry of its sender, and every other user gets a
pointer to it and has `EPOLLOUT` enabled; what is sent to him is what is there when his
output event is handled. An entry that becomes free is filled with the last one.

The order of the events is not decided by the program: each branch of the main loop is a
step.
-/

namespace Shang.Talk

open Lib

def USER_LIMIT : Nat := 3

def BUFFER_SIZE : Nat := 128

/-- What one `recv` returns: text that fits into the buffer and leaves room for a NUL. -/
structure Message where
  bytes : List UInt8
  nonempty : bytes ≠ []
  short : bytes.length < BUFFER_SIZE
  text : 0 ∉ bytes

/-- `struct client_data`; `writeBuf` is the entry whose buffer is pointed to. -/
structure Client where
  fd : Int
  writeBuf : Option Nat
  buf : List UInt8

/-- The variables of `main`, the descriptors with `EPOLLOUT` enabled, and what `send` was
called with: for users, and for those who found the server full. -/
structure World where
  fds : Nat → Client
  userCounter : Nat
  epollout : Int → Bool
  sent : List (Int × List UInt8)
  refused : List (Int × String)

/-- Before the main loop. `fds` is on the stack, and of its fields only `fd` is set. -/
def init (stack : Nat → Client) (listenfd : Int) : World where
  fds i :=
    if i = 0 then { stack i with fd := listenfd }
    else if i ≤ USER_LIMIT then { stack i with fd := -1 }
    else stack i
  userCounter := 0
  epollout _ := false
  sent := []
  refused := []

/-- The entries of the users. -/
def users (s : World) : List Nat := List.range' 1 s.userCounter

/-- `get_fds_index` -/
def getFdsIndex (s : World) (connfd : Int) : Option Nat :=
  (users s).find? fun i => connfd = (s.fds i).fd

/-- The string in the buffer of an entry. -/
def text (s : World) (i : Nat) : List UInt8 := cstr (s.fds i).buf 0

def info : String := "服务器服务客户数已达上限"

/-- `accept` returns a descriptor that is not in use. -/
def accept (s : World) (connfd : Int) : Option World :=
  if connfd < 0 ∨ (List.range (s.userCounter + 1)).any fun i => (s.fds i).fd = connfd then none
  else if s.userCounter = USER_LIMIT then
    some { s with refused := s.refused ++ [(connfd, info)] }
  else
    let n := s.userCounter + 1
    some { s with
      userCounter := n
      fds := Function.update s.fds n { s.fds n with fd := connfd }
      epollout := Function.update s.epollout connfd false }

/-- `EPOLLRDHUP`. With the descriptor closed, nothing is enabled for it. -/
def rdhup (s : World) (connfd : Int) : Option World := do
  let j ← getFdsIndex s connfd
  some { s with
    fds := Function.update s.fds j (s.fds s.userCounter)
    userCounter := s.userCounter - 1
    epollout := Function.update s.epollout connfd false }

/-- The buffer after `bzero` and the reception of some bytes. -/
def receive (s : World) (k : Nat) (bytes : List UInt8) : World :=
  { s with fds := Function.update s.fds k { s.fds k with
      buf := splice (List.replicate BUFFER_SIZE 0) 0 bytes } }

/-- One round of the loop that tells the users of a message in the entry `k`. -/
def tell (connfd : Int) (k : Nat) (s : World) (j : Nat) : World :=
  if (s.fds j).fd = connfd then s
  else { s with
    epollout := Function.update s.epollout (s.fds j).fd true
    fds := Function.update s.fds j { s.fds j with writeBuf := some k } }

/-- `EPOLLIN`. If there is nothing to receive, `recv` fails with `EAGAIN`. -/
def epollin (s : World) (connfd : Int) (message : Option Message) : Option World := do
  let k ← getFdsIndex s connfd
  match message with
  | none => some (receive s k [])
  | some message => some ((users s).foldl (tell connfd k) (receive s k message.bytes))

/-- `EPOLLOUT`, which must have been enabled. -/
def epollout (s : World) (connfd : Int) : Option World :=
  if s.epollout connfd then do
    let k ← getFdsIndex s connfd
    match (s.fds k).writeBuf with
    | none => some { s with epollout := Function.update s.epollout connfd false }
    | some b =>
      some { s with
        sent := s.sent ++ [(connfd, text s b)]
        fds := Function.update s.fds k { s.fds k with writeBuf := none }
        epollout := Function.update s.epollout connfd false }
  else none

inductive Event
  | accept (connfd : Int)
  | rdhup (connfd : Int)
  | epollin (connfd : Int) (message : Option Message)
  | epollout (connfd : Int)

def step (s : World) : Event → Option World
  | .accept connfd => accept s connfd
  | .rdhup connfd => rdhup s connfd
  | .epollin connfd message => epollin s connfd message
  | .epollout connfd => epollout s connfd

/-! ## Users and their entries -/

variable {s t : World} {connfd : Int} {i j k : Nat} {message : Option Message}

theorem mem_users : i ∈ users s ↔ 1 ≤ i ∧ i ≤ s.userCounter := by
  rw [users, List.mem_range'_1]
  omega

theorem getFdsIndex_some (found : getFdsIndex s connfd = some k) :
    k ∈ users s ∧ (s.fds k).fd = connfd := by
  have same := List.find?_some found
  exact ⟨List.mem_of_find?_eq_some found, (of_decide_eq_true same).symm⟩

theorem exists_getFdsIndex (mem : i ∈ users s) : ∃ k, getFdsIndex s (s.fds i).fd = some k := by
  apply Option.isSome_iff_exists.mp
  rw [getFdsIndex, List.find?_isSome]
  exact ⟨i, mem, by simp⟩

/-! ## What a step does -/

theorem accept_cases (accepted : accept s connfd = some t) :
    (∀ i, i ≤ s.userCounter → (s.fds i).fd ≠ connfd) ∧
      (t = { s with refused := s.refused ++ [(connfd, info)] } ∨
        t = { s with
          userCounter := s.userCounter + 1
          fds := Function.update s.fds (s.userCounter + 1)
            { s.fds (s.userCounter + 1) with fd := connfd }
          epollout := Function.update s.epollout connfd false }) := by
  unfold accept at accepted
  split at accepted
  · cases accepted
  · rename_i fresh
    have fresh (i : Nat) (inside : i ≤ s.userCounter) : (s.fds i).fd ≠ connfd := by
      intro same
      apply fresh
      right
      rw [List.any_eq_true]
      exact ⟨i, List.mem_range.mpr (Nat.lt_succ_of_le inside), by simpa using same⟩
    split at accepted
    · cases accepted
      exact ⟨fresh, .inl rfl⟩
    · cases accepted
      exact ⟨fresh, .inr rfl⟩

theorem rdhup_cases (left : rdhup s connfd = some t) :
    ∃ j, getFdsIndex s connfd = some j ∧
      t = { s with
        fds := Function.update s.fds j (s.fds s.userCounter)
        userCounter := s.userCounter - 1
        epollout := Function.update s.epollout connfd false } := by
  obtain ⟨j, found, left⟩ := Option.bind_eq_some_iff.mp left
  cases left
  exact ⟨j, found, rfl⟩

theorem epollin_cases (read : epollin s connfd message = some t) :
    ∃ k, getFdsIndex s connfd = some k ∧
      (message = none ∧ t = receive s k [] ∨
        ∃ m, message = some m ∧
          t = (users s).foldl (tell connfd k) (receive s k m.bytes)) := by
  obtain ⟨k, found, read⟩ := Option.bind_eq_some_iff.mp read
  cases message with
  | none =>
      cases read
      exact ⟨k, found, .inl ⟨rfl, rfl⟩⟩
  | some m =>
      obtain rfl := Option.some.inj read
      exact ⟨k, found, .inr ⟨m, rfl, rfl⟩⟩

/-- What the loop over the users of `l` has done. -/
structure Told (connfd : Int) (k : Nat) (s : World) (l : List Nat) (t : World) : Prop where
  userCounter : t.userCounter = s.userCounter
  sent : t.sent = s.sent
  fd (i : Nat) : (t.fds i).fd = (s.fds i).fd
  buf (i : Nat) : (t.fds i).buf = (s.fds i).buf
  writeBuf (i : Nat) : (t.fds i).writeBuf =
    if i ∈ l ∧ (s.fds i).fd ≠ connfd then some k else (s.fds i).writeBuf
  epollout (c : Int) : t.epollout c = true ↔
    s.epollout c = true ∨ ∃ i ∈ l, (s.fds i).fd ≠ connfd ∧ (s.fds i).fd = c

theorem told_tell (connfd : Int) (k : Nat) (s : World) (j : Nat) :
    Told connfd k s [j] (tell connfd k s j) := by
  unfold tell
  by_cases own : (s.fds j).fd = connfd
  · rw [if_pos own]
    exact {
      userCounter := rfl
      sent := rfl
      fd _ := rfl
      buf _ := rfl
      writeBuf i := by
        refine (if_neg ?_).symm
        intro ⟨mem, other⟩
        rw [List.mem_singleton.mp mem] at other
        exact other own
      epollout c := by
        refine (or_iff_left ?_).symm
        intro ⟨i, mem, other, _⟩
        rw [List.mem_singleton.mp mem] at other
        exact other own }
  · rw [if_neg own]
    have at' (i : Nat) : Function.update s.fds j { s.fds j with writeBuf := some k } i =
        { s.fds i with writeBuf := if i = j then some k else (s.fds i).writeBuf } := by
      by_cases here : i = j
      · rw [here, Function.update_self, if_pos rfl]
      · rw [Function.update_of_ne here, if_neg here]
    exact {
      userCounter := rfl
      sent := rfl
      fd i := (congrArg Client.fd (at' i)).trans rfl
      buf i := (congrArg Client.buf (at' i)).trans rfl
      writeBuf i := by
        apply (congrArg Client.writeBuf (at' i)).trans
        by_cases here : i = j
        · subst here
          simp [own]
        · simp [here]
      epollout c := by
        dsimp only
        by_cases here : c = (s.fds j).fd
        · subst here
          simp [own]
        · rw [Function.update_of_ne here]
          refine (or_iff_left ?_).symm
          intro ⟨i, mem, _, same⟩
          rw [List.mem_singleton.mp mem] at same
          exact here same.symm }

theorem told_foldl (l : List Nat) (s : World) : Told connfd k s l (l.foldl (tell connfd k) s) := by
  induction l generalizing s with
  | nil =>
      exact {
        userCounter := rfl
        sent := rfl
        fd _ := rfl
        buf _ := rfl
        writeBuf _ := (if_neg fun both => List.not_mem_nil both.1).symm
        epollout c := by simp }
  | cons j l ih =>
      have first := told_tell connfd k s j
      have rest := ih (tell connfd k s j)
      exact {
        userCounter := rest.userCounter.trans first.userCounter
        sent := rest.sent.trans first.sent
        fd i := (rest.fd i).trans (first.fd i)
        buf i := (rest.buf i).trans (first.buf i)
        writeBuf i := by
          rw [List.foldl_cons, rest.writeBuf, first.writeBuf, first.fd]
          by_cases own : (s.fds i).fd = connfd
          · simp [own]
          · by_cases here : i = j
            · subst here
              simp [own]
            · simp [here]
        epollout c := by
          rw [List.foldl_cons, rest.epollout, first.epollout, or_assoc]
          simp only [first.fd, List.mem_singleton, exists_eq_left, List.exists_mem_cons_iff] }

end Shang.Talk
