import Mathlib.Data.Finset.Basic
import Shang.Talk.Delivery

/-!
# The user table of the chat server

The main loop of `9-7.ybxtalk_server_epoll_et.c` with the batches that `epoll_wait`
returns: the events of a batch are handled one after the other, against a table that
the earlier ones have changed, and in a process whose descriptors the kernel gives out
again when they are closed.

The calls of `accept` and `close` are recorded. What they leave open are the users: the
others are closed before the next event.
-/

namespace Shang.Talk

open Lib

/-- The descriptors that are open before the main loop, among them the listening one. -/
structure Process where
  listenfd : Int
  base : Finset Int
  listens : listenfd ∈ base

/-- `tmp_ev.events` -/
structure Flags where
  epollin : Bool
  epollerr : Bool
  epollrdhup : Bool
  epollout : Bool

inductive Call
  | accept (fd : Int)
  | close (fd : Int)

/-- The connections that a call leaves open. -/
def Call.leaves (conns : Finset Int) : Call → Finset Int
  | accept fd => insert fd conns
  | close fd => conns.erase fd

/-- The connections that are open after the calls. -/
def connections (calls : List Call) : Finset Int := calls.foldl Call.leaves ∅

/-- The main loop: the server, its calls, the connections in the epoll set, and the rest of
`evlist`. -/
structure Loop where
  main : World
  calls : List Call
  watched : Finset Int
  evlist : List (Int × Flags)

/-- What the kernel answers: a new descriptor, what `recv` stores (nothing for `EAGAIN`), and
whether `send` succeeds. -/
structure Answers where
  accepted : Int
  received : Option (List UInt8)
  sent : Bool

/-- The user with a new connection. -/
def addUser (s : World) (connfd : Int) : World :=
  let n := s.userCounter + 1
  { s with
    userCounter := n
    fds := Function.update s.fds n { s.fds n with fd := connfd }
    epollout := Function.update s.epollout connfd false }

/-- The end of the `EPOLLOUT` branch, and its `continue`. -/
def flush (s : World) (k : Nat) (connfd : Int) : World :=
  match (s.fds k).writeBuf with
  | none => { s with epollout := Function.update s.epollout connfd false }
  | some b => { s with
    sent := s.sent ++ [(connfd, text s b)]
    fds := Function.update s.fds k { s.fds k with writeBuf := none }
    epollout := Function.update s.epollout connfd false }

/-- The next round of the loop over `evlist`; `none` is `exit(1)`. -/
def handle (p : Process) (s : Loop) (answers : Answers) : Option Loop :=
  match s.evlist with
  | [] => none
  | (fd, events) :: rest =>
    let s := { s with evlist := rest }
    if fd = p.listenfd ∧ events.epollin then
      let connfd := answers.accepted
      let s := { s with calls := s.calls ++ [Call.accept connfd] }
      if s.main.userCounter = USER_LIMIT then
        some { s with
          main := { s.main with refused := s.main.refused ++ [(connfd, info)] }
          calls := s.calls ++ [Call.close connfd] }
      else some { s with main := addUser s.main connfd, watched := insert connfd s.watched }
    else if events.epollerr then none
    else if events.epollrdhup then do
      -- A descriptor that is closed leaves the epoll set.
      let s := { s with calls := s.calls ++ [Call.close fd], watched := s.watched.erase fd }
      let main ← rdhup s.main fd
      some { s with main := main }
    else if events.epollin then do
      let k ← getFdsIndex s.main fd
      match answers.received with
      | none => some { s with main := receive s.main k [] }
      | some [] => none
      | some bytes =>
        some { s with main := (users s.main).foldl (tell fd k) (receive s.main k bytes) }
    else if events.epollout then do
      let k ← getFdsIndex s.main fd
      if (s.main.fds k).writeBuf.isSome ∧ ¬ answers.sent then none
      else some { s with main := flush s.main k fd }
    else some s

namespace Loop

inductive Event
  | wait (evlist : List (Int × Flags))
  | handle (answers : Answers)

/-- `epoll_wait` is called when the last batch has been handled. -/
def step (p : Process) (s : Loop) : Event → Option Loop
  | .wait evlist => if s.evlist = [] then some { s with evlist := evlist } else none
  | .handle answers => Talk.handle p s answers

/-- `epoll_wait` returns at most `USER_LIMIT` events, each for another descriptor of the epoll
set: a connection, or input on the listening socket. `accept` returns the lowest descriptor that is
not in use; that it is the lowest one is not needed. -/
def Allowed (p : Process) (s : Loop) : Event → Prop
  | .wait evlist =>
    evlist.length ≤ USER_LIMIT ∧ (evlist.map Prod.fst).Nodup ∧
      ∀ e ∈ evlist, e.1 = p.listenfd ∧ e.2.epollin ∨ e.1 ∈ s.watched
  | .handle answers => answers.accepted ∉ p.base ∧ answers.accepted ∉ connections s.calls

instance Allowed.decidable (p : Process) (s : Loop) : (e : Event) → Decidable (Allowed p s e)
  | .wait evlist => inferInstanceAs (Decidable (evlist.length ≤ USER_LIMIT ∧
    (evlist.map Prod.fst).Nodup ∧
      ∀ e ∈ evlist, e.1 = p.listenfd ∧ e.2.epollin ∨ e.1 ∈ s.watched))
  | .handle answers => inferInstanceAs (Decidable (answers.accepted ∉ p.base ∧
    answers.accepted ∉ connections s.calls))

/-- The main loop begins. -/
def start (p : Process) (stack : Nat → Client) : Loop := ⟨init stack p.listenfd, [], ∅, []⟩

/-- An event can name the connection: it is in the epoll set, or in what is left of a batch. -/
def Names (p : Process) (s : Loop) (fd : Int) : Prop :=
  fd ∈ s.watched ∨ fd ≠ p.listenfd ∧ ∃ events, (fd, events) ∈ s.evlist

end Loop

/-- The users are within the limit, have different descriptors, and these are `conns`. -/
structure UserTable (s : World) (conns : Finset Int) : Prop where
  limit : s.userCounter ≤ USER_LIMIT
  distinct : Distinct s
  users : ∀ fd, fd ∈ conns ↔ ∃ i ∈ users s, (s.fds i).fd = fd

/-! ## What the branches do to the table -/

variable {s t : World} {conns : Finset Int} {fd connfd : Int} {k : Nat}

/-- A change that leaves the descriptors where they are. -/
theorem UserTable.congr (table : UserTable s conns) (count : t.userCounter = s.userCounter)
    (same : ∀ i, (t.fds i).fd = (s.fds i).fd) : UserTable t conns where
  limit := count.trans_le table.limit
  distinct i memi j memj eq := by
    rw [Talk.users, count] at memi memj
    rw [same, same] at eq
    exact table.distinct i memi j memj eq
  users fd := by
    rw [table.users]
    simp only [Talk.users, count, same]

theorem UserTable.exists_getFdsIndex (table : UserTable s conns) (mem : fd ∈ conns) :
    ∃ k ∈ Talk.users s, getFdsIndex s fd = some k ∧ (s.fds k).fd = fd := by
  obtain ⟨i, user, rfl⟩ := (table.users fd).mp mem
  obtain ⟨k, found⟩ := Talk.exists_getFdsIndex user
  obtain ⟨memk, same⟩ := getFdsIndex_some found
  exact ⟨k, memk, found, same⟩

theorem joined_addUser (fresh : ∀ i ∈ users s, (s.fds i).fd ≠ connfd) :
    Joined s connfd (addUser s connfd) where
  userCounter := rfl
  entry i mem := by
    have other : i ≠ s.userCounter + 1 := by
      have inside := mem_users.mp mem
      omega
    exact ⟨Function.update_of_ne other _ _, fresh i mem⟩
  last := by
    unfold addUser
    dsimp only
    rw [Function.update_self]
  text b := by
    have kept : ((addUser s connfd).fds b).buf = (s.fds b).buf :=
      apply_update_of_eq Client.buf rfl
    rw [text, kept, text]
  epollout := rfl
  sent := rfl

theorem UserTable.addUser (table : UserTable s conns) (room : s.userCounter ≠ USER_LIMIT)
    (fresh : connfd ∉ conns) : UserTable (addUser s connfd) (insert connfd conns) := by
  have joined := joined_addUser fun i mem same => fresh ((table.users connfd).mpr ⟨i, mem, same⟩)
  have limit := table.limit
  refine ⟨?_, joined.distinct table.distinct, fun fd => ?_⟩
  · rw [joined.userCounter]
    omega
  · rw [Finset.mem_insert, table.users]
    constructor
    · rintro (rfl | ⟨i, mem, same⟩)
      · refine ⟨s.userCounter + 1, mem_users.mpr ?_, joined.last⟩
        rw [joined.userCounter]
        omega
      · refine ⟨i, mem_users.mpr ?_, (congrArg Client.fd (joined.entry i mem).1).trans same⟩
        have inside := mem_users.mp mem
        rw [joined.userCounter]
        omega
    · rintro ⟨i, mem, same⟩
      rcases joined.either mem with old | rfl
      · exact .inr ⟨i, old, (congrArg Client.fd (joined.entry i old).1).symm.trans same⟩
      · exact .inl (same.symm.trans joined.last)

/-- The last entry takes the place of the one that leaves. -/
theorem UserTable.rdhup (table : UserTable s conns) (left : rdhup s fd = some t) :
    UserTable t (conns.erase fd) := by
  obtain ⟨j, left⟩ := left_rdhup left
  obtain ⟨memj, leaver⟩ := getFdsIndex_some left.found
  have limit := table.limit
  refine ⟨?_, left.distinct table.distinct, fun fd' => ?_⟩
  · rw [left.userCounter]
    omega
  · rw [Finset.mem_erase, table.users]
    constructor
    · rintro ⟨other, o, user, rfl⟩
      have apart : o ≠ j := by
        rintro rfl
        exact other leaver
      obtain ⟨i, mem, same⟩ := left.image user apart
      exact ⟨i, mem, congrArg Client.fd same⟩
    · rintro ⟨i, mem, rfl⟩
      obtain ⟨o, moved⟩ := left.origin mem
      rw [moved.entry]
      exact ⟨left.other table.distinct moved.user moved.apart, o, moved.user, rfl⟩

theorem UserTable.receive {bytes : List UInt8} (table : UserTable s conns) :
    UserTable (receive s k bytes) conns :=
  table.congr rfl fun i => (receive_fd s k bytes i).1

theorem UserTable.told (table : UserTable s conns) (l : List Nat) :
    UserTable (l.foldl (tell connfd k) s) conns :=
  table.congr (told_foldl l s).userCounter (told_foldl l s).fd

theorem UserTable.flush (table : UserTable s conns) : UserTable (flush s k connfd) conns := by
  unfold Talk.flush
  split
  · exact table.congr rfl fun _ => rfl
  · exact table.congr rfl fun i => apply_update_of_eq Client.fd rfl

/-! ## The main loop -/

namespace Loop

variable {p : Process} {s t : Loop} {e : Event} {answers : Answers} {calls : List Call}
  {call : Call} {stack : Nat → Client} {fd : Int}

theorem connections_concat : connections (calls ++ [call]) = call.leaves (connections calls) := by
  simp [connections]

/-- The users are the open connections, which are in the epoll set, and what is left of a batch
names each of them at most once. -/
structure Inv (p : Process) (s : Loop) : Prop where
  table : UserTable s.main (connections s.calls)
  apart : ∀ fd ∈ connections s.calls, fd ∉ p.base
  watched : s.watched = connections s.calls
  nodup : (s.evlist.map Prod.fst).Nodup
  named : ∀ e ∈ s.evlist, e.1 = p.listenfd ∧ e.2.epollin ∨ e.1 ∈ connections s.calls

theorem start_inv : Inv p (start p stack) where
  table := ⟨Nat.zero_le _, fun _ mem => absurd mem List.not_mem_nil,
    fun fd => by simp [start, init, connections, users]⟩
  apart fd mem := absurd mem (Finset.notMem_empty fd)
  watched := rfl
  nodup := .nil
  named e mem := absurd mem List.not_mem_nil

/-- A batch that is left when one event has been taken from it. -/
theorem Inv.rest {fd : Int} {events : Flags} {rest : List (Int × Flags)} (inv : Inv p s)
    (batch : s.evlist = (fd, events) :: rest) :
    Inv p { s with evlist := rest } ∧ fd ∉ rest.map Prod.fst := by
  have nodup := inv.nodup
  have named := inv.named
  rw [batch] at nodup named
  obtain ⟨off, nodup⟩ := List.nodup_cons.mp nodup
  exact ⟨{ inv with nodup := nodup, named := fun e mem => named e (List.mem_cons_of_mem _ mem) },
    off⟩

/-- A change of the server alone. -/
theorem Inv.main {main : World} (inv : Inv p s)
    (table : UserTable main (connections s.calls)) : Inv p { s with main := main } :=
  { inv with table := table }

/-- A new connection, within the limit. -/
theorem Inv.addUser (inv : Inv p s) (room : s.main.userCounter ≠ USER_LIMIT)
    (free : answers.accepted ∉ p.base ∧ answers.accepted ∉ connections s.calls) :
    Inv p { s with
      main := addUser s.main answers.accepted
      calls := s.calls ++ [Call.accept answers.accepted]
      watched := insert answers.accepted s.watched } := by
  refine ⟨?_, ?_, ?_, inv.nodup, ?_⟩
  · rw [connections_concat]
    exact inv.table.addUser room free.2
  · intro fd mem
    rw [connections_concat] at mem
    rcases Finset.mem_insert.mp mem with rfl | old
    · exact free.1
    · exact inv.apart fd old
  · rw [connections_concat]
    exact congrArg (insert answers.accepted) inv.watched
  · intro e mem
    rw [connections_concat]
    exact (inv.named e mem).imp_right Finset.mem_insert_of_mem

/-- A connection beyond the limit is closed at once. -/
theorem Inv.refuse {refused : List (Int × String)} (inv : Inv p s)
    (free : answers.accepted ∉ connections s.calls) :
    Inv p { s with
      main := { s.main with refused := refused }
      calls := s.calls ++ [Call.accept answers.accepted] ++ [Call.close answers.accepted] } := by
  have same : connections (s.calls ++ [Call.accept answers.accepted] ++
      [Call.close answers.accepted]) = connections s.calls := by
    rw [connections_concat, connections_concat]
    exact Finset.erase_insert free
  have table : UserTable { s.main with refused := refused } (connections s.calls) :=
    inv.table.congr rfl fun _ => rfl
  constructor
  · rwa [same]
  · rw [same]
    exact inv.apart
  · rw [same]
    exact inv.watched
  · exact inv.nodup
  · rw [same]
    exact inv.named

/-- A connection is closed that the rest of the batch does not name. -/
theorem Inv.leave {main : World} (inv : Inv p s) (left : rdhup s.main fd = some main)
    (off : fd ∉ s.evlist.map Prod.fst) :
    Inv p { s with
      main := main
      calls := s.calls ++ [Call.close fd]
      watched := s.watched.erase fd } := by
  refine ⟨?_, ?_, ?_, inv.nodup, ?_⟩
  · rw [connections_concat]
    exact inv.table.rdhup left
  · intro fd' mem
    rw [connections_concat] at mem
    exact inv.apart fd' (Finset.mem_of_mem_erase mem)
  · rw [connections_concat]
    exact congrArg (Finset.erase · fd) inv.watched
  · intro e mem
    rw [connections_concat]
    refine (inv.named e mem).imp_right fun conn => Finset.mem_erase.mpr ⟨?_, conn⟩
    rintro rfl
    exact off (List.mem_map_of_mem mem)

theorem Inv.handle (inv : Inv p s) (allowed : Allowed p s (.handle answers))
    (handled : handle p s answers = some t) : Inv p t := by
  unfold Talk.handle at handled
  cases batch : s.evlist with
  | nil =>
      rw [batch] at handled
      cases handled
  | cons event rest =>
      obtain ⟨fd, events⟩ := event
      obtain ⟨inv', off⟩ := inv.rest batch
      rw [batch] at handled
      dsimp only at handled
      split at handled
      · split at handled
        · cases handled
          exact inv'.refuse allowed.2
        · next room =>
            cases handled
            exact inv'.addUser room allowed
      · split at handled
        · cases handled
        · split at handled
          · obtain ⟨main, left, handled⟩ := Option.bind_eq_some_iff.mp handled
            cases handled
            exact inv'.leave left off
          · split at handled
            · obtain ⟨k, -, handled⟩ := Option.bind_eq_some_iff.mp handled
              split at handled
              · cases handled
                exact inv'.main inv'.table.receive
              · cases handled
              · cases handled
                exact inv'.main (inv'.table.receive.told _)
            · split at handled
              · obtain ⟨k, -, handled⟩ := Option.bind_eq_some_iff.mp handled
                split at handled
                · cases handled
                · cases handled
                  exact inv'.main inv'.table.flush
              · cases handled
                exact inv'

theorem Inv.step (inv : Inv p s) (allowed : Allowed p s e) (stepped : step p s e = some t) :
    Inv p t := by
  cases e with
  | wait evlist =>
      obtain ⟨-, nodup, named⟩ := allowed
      unfold Loop.step at stepped
      dsimp only at stepped
      split at stepped
      · cases stepped
        rw [inv.watched] at named
        exact { inv with nodup := nodup, named := named }
      · cases stepped
  | handle answers => exact inv.handle allowed stepped

/-- A connection that an event can name is open. -/
theorem Inv.of_names (inv : Inv p s) (names : Names p s fd) : fd ∈ connections s.calls := by
  rcases names with mem | ⟨other, events, mem⟩
  · rwa [← inv.watched]
  · rcases inv.named _ mem with ⟨listens, -⟩ | conn
    · exact absurd listens other
    · exact conn

/-- **The user table.** In every state that the server reaches, whatever the order of the events
and wherever in a batch it is, the users are within the limit, have different descriptors, and
are the connections that are open; `get_fds_index` finds each one that an event can name. -/
theorem run_userTable {es : List Event} (allowed : Along (step p) (Allowed p) (start p stack) es)
    (ran : run (step p) (start p stack) es = some s) :
    UserTable s.main (connections s.calls) ∧
      ∀ fd, Names p s fd → ∃ k ∈ users s.main, getFdsIndex s.main fd = some k ∧
        (s.main.fds k).fd = fd := by
  have inv : Inv p s := run_invariant
    (fun inv allowed stepped => inv.step allowed stepped) start_inv allowed ran
  exact ⟨inv.table, fun fd names => inv.table.exists_getFdsIndex (inv.of_names names)⟩

/-- A process with its standard files, a listening socket and an epoll descriptor. -/
def chat : Process := ⟨3, {0, 1, 2, 3, 4}, by decide⟩

/-- What the kernel answers when a connection comes. -/
def comes (fd : Int) : Answers := ⟨fd, none, true⟩

/-- Two users come; in one batch the second one leaves and another one comes. -/
def meeting : List Event :=
  [.wait [(3, ⟨true, false, false, false⟩)], .handle (comes 5),
    .wait [(3, ⟨true, false, false, false⟩)], .handle (comes 6),
    .wait [(6, ⟨true, false, true, false⟩), (3, ⟨true, false, false, false⟩)],
    .handle (comes 7), .handle (comes 6)]

/-- The new user has the descriptor of the one who has left. -/
theorem run_userTable_meeting :
    ∃ s, run (step chat) (start chat fun _ => zeros) meeting = some s ∧
      connections s.calls = {5, 6} ∧ UserTable s.main (connections s.calls) := by
  have allowed : Along (step chat) (Allowed chat) (start chat fun _ => zeros) meeting := by
    decide
  exact ⟨_, rfl, by decide, (run_userTable allowed rfl).1⟩

end Loop

end Shang.Talk
