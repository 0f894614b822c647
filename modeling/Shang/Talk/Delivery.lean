import Shang.Lib.Update
import Shang.Talk.Server

/-!
# What the users get

The ledger says what is due: a message is owed to every other user until his output
event is handled, and is sent then. The server keeps one pointer for each user instead,
into the entry of the sender. It sends what is due as long as nothing comes between the
receipt of a message and the output events that it leads to: no other message, no `recv`
into the entry of its sender, and no other user moved into that entry.
-/

namespace Shang.Talk

open Lib

/-- The messages that each descriptor is owed, and what has been sent. -/
structure Ledger where
  owed : Int → List (List UInt8)
  sent : List (Int × List UInt8)

/-- A user is owed nothing when he comes, and nothing after he has left. -/
def Ledger.note (l : Ledger) : Event → Ledger
  | .accept connfd | .rdhup connfd => { l with owed := Function.update l.owed connfd [] }
  | .epollin _ none => l
  | .epollin connfd (some m) =>
    { l with owed := fun c => if c = connfd then l.owed c else l.owed c ++ [m.bytes] }
  | .epollout connfd =>
    { owed := Function.update l.owed connfd []
      sent := l.sent ++ (l.owed connfd).map fun bytes => (connfd, bytes) }

/-- What is due after some events. -/
def ledger (es : List Event) : Ledger := es.foldl Ledger.note ⟨fun _ => [], []⟩

/-- The user in an entry has output enabled. -/
def Waits (s : World) (i : Nat) : Prop := s.epollout (s.fds i).fd = true

instance (s : World) (i : Nat) : Decidable (Waits s i) :=
  inferInstanceAs (Decidable (_ = true))

/-- Nobody who waits loses his message. When a message comes, nobody waits but its sender, and
not for another text in the same entry; when `recv` has nothing, nobody waits for the entry; and
an entry that is waited for is not filled with another text. -/
def Safe (s : World) : Event → Prop
  | .epollin connfd (some m) =>
    ∀ k ∈ getFdsIndex s connfd, ∀ i ∈ users s, Waits s i →
      i = k ∧ ((s.fds i).writeBuf = some k → text s k = m.bytes)
  | .epollin connfd none =>
    ∀ k ∈ getFdsIndex s connfd, ∀ i ∈ users s, Waits s i → (s.fds i).writeBuf ≠ some k
  | .rdhup connfd =>
    ∀ j ∈ getFdsIndex s connfd, ∀ i ∈ users s, i ≠ j → Waits s i →
      (s.fds i).writeBuf = some j → text s s.userCounter = text s j
  | .accept _ | .epollout _ => True

instance Safe.decidable (s : World) : (e : Event) → Decidable (Safe s e)
  | .epollin connfd (some m) =>
    inferInstanceAs (Decidable (∀ k ∈ getFdsIndex s connfd, ∀ i ∈ users s, Waits s i →
      i = k ∧ ((s.fds i).writeBuf = some k → text s k = m.bytes)))
  | .epollin connfd none =>
    inferInstanceAs (Decidable (∀ k ∈ getFdsIndex s connfd, ∀ i ∈ users s, Waits s i →
      (s.fds i).writeBuf ≠ some k))
  | .rdhup connfd =>
    inferInstanceAs (Decidable (∀ j ∈ getFdsIndex s connfd, ∀ i ∈ users s, i ≠ j → Waits s i →
      (s.fds i).writeBuf = some j → text s s.userCounter = text s j))
  | .accept _ | .epollout _ => isTrue trivial

/-- A user is owed one message, and it is what he points to. -/
structure Due (s : World) (l : Ledger) (i b : Nat) (m : Message) : Prop where
  writeBuf : (s.fds i).writeBuf = some b
  text : text s b = m.bytes
  owed : l.owed (s.fds i).fd = [m.bytes]

/-- A user who waits has one message due, and any other none. -/
inductive Kept (s : World) (l : Ledger) (i : Nat) : Prop
  | waits (b : Nat) (m : Message) (waits : Waits s i) (due : Due s l i b m)
  | idle (idle : ¬ Waits s i) (owed : l.owed (s.fds i).fd = [])

/-- No two users have one descriptor. -/
def Distinct (s : World) : Prop :=
  ∀ i ∈ users s, ∀ j ∈ users s, (s.fds i).fd = (s.fds j).fd → i = j

/-- The server has what is due. -/
structure Coherent (s : World) (l : Ledger) : Prop where
  distinct : Distinct s
  kept : ∀ i ∈ users s, Kept s l i
  sent : s.sent = l.sent

/-- The user in the entry `i` is in the entry `n` now, and nothing is changed for him. -/
structure Carried (s t : World) (l l' : Ledger) (i n : Nat) : Prop where
  fd : (t.fds n).fd = (s.fds i).fd
  writeBuf : (t.fds n).writeBuf = (s.fds i).writeBuf
  text (b : Nat) (waits : Waits s i) (points : (s.fds i).writeBuf = some b) :
    text t b = text s b
  epollout : t.epollout (s.fds i).fd = s.epollout (s.fds i).fd
  owed : l'.owed (s.fds i).fd = l.owed (s.fds i).fd

variable {s t u : World} {l l' : Ledger} {connfd : Int} {e : Event} {i j k n : Nat}
  {m : Message}

theorem Carried.waits_iff (carried : Carried s t l l' i n) : Waits t n ↔ Waits s i := by
  rw [Waits, Waits, carried.fd, carried.epollout]

theorem Kept.carry (kept : Kept s l i) (carried : Carried s t l l' i n) : Kept t l' n := by
  cases kept with
  | waits b m waits due =>
      refine .waits b m (carried.waits_iff.mpr waits) ?_
      exact {
        writeBuf := carried.writeBuf.trans due.writeBuf
        text := (carried.text b waits due.writeBuf).trans due.text
        owed := by rw [carried.fd, carried.owed, due.owed] }
  | idle idle owed =>
      refine .idle (fun waits => idle (carried.waits_iff.mp waits)) ?_
      rw [carried.fd, carried.owed, owed]

theorem coherent_init (stack : Nat → Client) (listenfd : Int) :
    Coherent (init stack listenfd) (ledger []) where
  distinct _ mem := absurd mem List.not_mem_nil
  kept _ mem := absurd mem List.not_mem_nil
  sent := rfl

/-! ## Users who come and go -/

/-- Where a new user goes. -/
structure Joined (s : World) (connfd : Int) (t : World) : Prop where
  userCounter : t.userCounter = s.userCounter + 1
  entry : ∀ i ∈ users s, t.fds i = s.fds i ∧ (s.fds i).fd ≠ connfd
  last : (t.fds (s.userCounter + 1)).fd = connfd
  text (b : Nat) : text t b = text s b
  epollout : t.epollout = Function.update s.epollout connfd false
  sent : t.sent = s.sent

theorem joined_accept (accepted : accept s connfd = some t) :
    (∀ i ∈ users s, (s.fds i).fd ≠ connfd) ∧
      (t = { s with refused := s.refused ++ [(connfd, info)] } ∨ Joined s connfd t) := by
  obtain ⟨fresh, either⟩ := accept_cases accepted
  have other (i : Nat) (mem : i ∈ users s) : (s.fds i).fd ≠ connfd :=
    fresh i (mem_users.mp mem).2
  refine ⟨other, either.imp_right ?_⟩
  intro room
  subst room
  exact {
    userCounter := rfl
    entry i mem := by
      have apart : i ≠ s.userCounter + 1 := by
        have := mem_users.mp mem
        omega
      exact ⟨Function.update_of_ne apart _ _, other i mem⟩
    last := by
      show (Function.update s.fds _ _ _).fd = connfd
      rw [Function.update_self]
    text b := apply_update_of_eq (fun c : Client => cstr c.buf 0) rfl
    epollout := rfl
    sent := rfl }

/-- A user is an old one or the new one. -/
theorem Joined.either (joined : Joined s connfd t) (mem : i ∈ users t) :
    i ∈ users s ∨ i = s.userCounter + 1 := by
  have inside := mem_users.mp mem
  have more := joined.userCounter
  rw [mem_users]
  omega

theorem Joined.distinct (joined : Joined s connfd t) (distinct : Distinct s) : Distinct t := by
  intro i memi j memj same
  rcases joined.either memi with old | rfl
  · obtain ⟨entry, other⟩ := joined.entry i old
    rcases joined.either memj with old' | rfl
    · rw [entry, (joined.entry j old').1] at same
      exact distinct i old j old' same
    · rw [entry, joined.last] at same
      exact absurd same other
  · rcases joined.either memj with old' | rfl
    · obtain ⟨entry, other⟩ := joined.entry j old'
      rw [entry, joined.last] at same
      exact absurd same.symm other
    · rfl

theorem Coherent.accept (coherent : Coherent s l) (accepted : accept s connfd = some t) :
    Coherent t (l.note (.accept connfd)) := by
  have owed {c : Int} (other : c ≠ connfd) :
      (l.note (.accept connfd)).owed c = l.owed c := by
    show Function.update l.owed connfd [] c = l.owed c
    rw [Function.update_of_ne other]
  obtain ⟨fresh, full | joined⟩ := joined_accept accepted
  · subst full
    refine { coherent with kept := fun i mem => (coherent.kept i mem).carry ?_ }
    exact {
      fd := rfl
      writeBuf := rfl
      text _ _ _ := rfl
      epollout := rfl
      owed := owed (fresh i mem) }
  · refine ⟨joined.distinct coherent.distinct, ?_, joined.sent.trans coherent.sent⟩
    intro i mem
    rcases joined.either mem with old | rfl
    · obtain ⟨entry, other⟩ := joined.entry i old
      apply (coherent.kept i old).carry
      exact {
        fd := by rw [entry]
        writeBuf := by rw [entry]
        text b _ _ := joined.text b
        epollout := by rw [joined.epollout, Function.update_of_ne other]
        owed := owed other }
    · refine .idle ?_ ?_
      · rw [Waits, joined.last, joined.epollout, Function.update_self]
        decide
      · rw [joined.last]
        show Function.update l.owed connfd [] connfd = []
        rw [Function.update_self]

/-- The user in the entry `o` is in the entry `i` when the one in the entry `j` has left. -/
structure Moved (s : World) (j : Nat) (o i : Nat) (t : World) : Prop where
  user : o ∈ users s
  apart : o ≠ j
  entry : t.fds i = s.fds o
  place : o = i ∧ i ≠ j ∨ o = s.userCounter ∧ i = j

/-- Who leaves, and where the others are. -/
structure Left (s : World) (connfd : Int) (j : Nat) (t : World) : Prop where
  found : getFdsIndex s connfd = some j
  userCounter : t.userCounter = s.userCounter - 1
  fds : t.fds = Function.update s.fds j (s.fds s.userCounter)
  epollout : t.epollout = Function.update s.epollout connfd false
  sent : t.sent = s.sent

theorem left_rdhup (left : rdhup s connfd = some t) : ∃ j, Left s connfd j t := by
  obtain ⟨j, found, rfl⟩ := rdhup_cases left
  exact ⟨j, found, rfl, rfl, rfl, rfl⟩

theorem Left.origin (left : Left s connfd j t) (mem : i ∈ users t) : ∃ o, Moved s j o i t := by
  have inside := mem_users.mp mem
  have inside' := mem_users.mp (getFdsIndex_some left.found).1
  have fewer := left.userCounter
  by_cases here : i = j
  · refine ⟨s.userCounter, mem_users.mpr (by omega), by omega, ?_, .inr ⟨rfl, here⟩⟩
    rw [left.fds, here, Function.update_self]
  · refine ⟨i, mem_users.mpr (by omega), here, ?_, .inl ⟨rfl, here⟩⟩
    rw [left.fds, Function.update_of_ne here]

/-- Everybody else is somewhere. -/
theorem Left.image {o : Nat} (left : Left s connfd j t) (mem : o ∈ users s) (apart : o ≠ j) :
    ∃ i ∈ users t, t.fds i = s.fds o := by
  have inside := mem_users.mp mem
  have inside' := mem_users.mp (getFdsIndex_some left.found).1
  have fewer := left.userCounter
  by_cases last : o = s.userCounter
  · refine ⟨j, mem_users.mpr (by omega), ?_⟩
    rw [left.fds, Function.update_self, last]
  · refine ⟨o, mem_users.mpr (by omega), ?_⟩
    rw [left.fds, Function.update_of_ne apart]

theorem Left.text (left : Left s connfd j t) (b : Nat) :
    text t b = if b = j then text s s.userCounter else text s b := by
  rw [Talk.text, left.fds]
  by_cases here : b = j
  · rw [if_pos here, here, Function.update_self, Talk.text]
  · rw [if_neg here, Function.update_of_ne here, Talk.text]

theorem Left.distinct (left : Left s connfd j t) (distinct : Distinct s) : Distinct t := by
  intro i memi i' memi' same
  obtain ⟨o, moved⟩ := left.origin memi
  obtain ⟨o', moved'⟩ := left.origin memi'
  rw [moved.entry, moved'.entry] at same
  have one := distinct o moved.user o' moved'.user same
  have inside := mem_users.mp memi
  have inside' := mem_users.mp memi'
  have fewer := left.userCounter
  have place := moved.place
  have place' := moved'.place
  omega

/-- The others have other descriptors. -/
theorem Left.other {o : Nat} (left : Left s connfd j t) (distinct : Distinct s)
    (mem : o ∈ users s) (apart : o ≠ j) : (s.fds o).fd ≠ connfd := by
  obtain ⟨memj, leaver⟩ := getFdsIndex_some left.found
  intro same
  exact apart (distinct o mem j memj (same.trans leaver.symm))

theorem Coherent.rdhup (coherent : Coherent s l) (safe : Safe s (.rdhup connfd))
    (left : rdhup s connfd = some t) : Coherent t (l.note (.rdhup connfd)) := by
  obtain ⟨j, left⟩ := left_rdhup left
  refine ⟨left.distinct coherent.distinct, ?_, left.sent.trans coherent.sent⟩
  intro i mem
  obtain ⟨o, moved⟩ := left.origin mem
  have other := left.other coherent.distinct moved.user moved.apart
  apply (coherent.kept o moved.user).carry
  exact {
    fd := by rw [moved.entry]
    writeBuf := by rw [moved.entry]
    text b waits points := by
      rw [left.text]
      by_cases here : b = j
      · subst here
        rw [if_pos rfl]
        exact safe b left.found o moved.user moved.apart waits points
      · rw [if_neg here]
    epollout := by rw [left.epollout, Function.update_of_ne other]
    owed := by
      show Function.update l.owed connfd [] (s.fds o).fd = l.owed (s.fds o).fd
      rw [Function.update_of_ne other] }

/-! ## Messages -/

theorem receive_fd (s : World) (k : Nat) (bytes : List UInt8) (i : Nat) :
    ((receive s k bytes).fds i).fd = (s.fds i).fd ∧
      ((receive s k bytes).fds i).writeBuf = (s.fds i).writeBuf := by
  unfold receive
  dsimp only
  by_cases here : i = k
  · rw [here, Function.update_self]
    exact ⟨rfl, rfl⟩
  · rw [Function.update_of_ne here]
    exact ⟨rfl, rfl⟩

theorem text_receive_of_ne {bytes : List UInt8} {b : Nat} (other : b ≠ k) :
    text (receive s k bytes) b = text s b := by
  unfold text receive
  dsimp only
  rw [Function.update_of_ne other]

theorem text_receive_nil : text (receive s k []) k = [] := by
  unfold text receive
  dsimp only
  rw [Function.update_self]
  exact cstr_replicate (by decide) List.not_mem_nil

theorem text_receive (m : Message) : text (receive s k m.bytes) k = m.bytes := by
  unfold text receive
  dsimp only
  rw [Function.update_self]
  exact cstr_replicate m.short m.text

theorem Distinct.receive {bytes : List UInt8} (distinct : Distinct s) :
    Distinct (receive s k bytes) := by
  intro i memi j memj same
  rw [(receive_fd s k bytes i).1, (receive_fd s k bytes j).1] at same
  exact distinct i memi j memj same

/-- `recv` has nothing. -/
theorem Coherent.again (coherent : Coherent s l) (safe : Safe s (.epollin connfd none))
    (found : getFdsIndex s connfd = some k) : Coherent (receive s k []) l where
  distinct := coherent.distinct.receive
  kept i mem := by
    apply (coherent.kept i mem).carry
    obtain ⟨fd, writeBuf⟩ := receive_fd s k [] i
    exact {
      fd := fd
      writeBuf := writeBuf
      text b waits points := by
        apply text_receive_of_ne
        intro here
        exact safe k found i mem waits (here ▸ points)
      epollout := rfl
      owed := rfl }
  sent := coherent.sent

/-- A message is received, and the others are told. -/
structure Received (s : World) (connfd : Int) (k : Nat) (m : Message) (t : World) : Prop where
  users : users t = users s
  sent : t.sent = s.sent
  fd (i : Nat) : (t.fds i).fd = (s.fds i).fd
  text (b : Nat) : text t b = if b = k then m.bytes else text s b
  writeBuf (i : Nat) (own : (s.fds i).fd = connfd) : (t.fds i).writeBuf = (s.fds i).writeBuf
  epollout : t.epollout connfd = s.epollout connfd
  told : ∀ i ∈ Talk.users s, (s.fds i).fd ≠ connfd →
    (t.fds i).writeBuf = some k ∧ Waits t i

theorem Told.received (told : Told connfd k (receive s k m.bytes) (users s) t) :
    Received s connfd k m t where
  users := by
    rw [users, told.userCounter]
    rfl
  sent := told.sent
  fd i := (told.fd i).trans (receive_fd s k m.bytes i).1
  text b := by
    have same : Talk.text t b = Talk.text (receive s k m.bytes) b := by
      rw [Talk.text, told.buf, Talk.text]
    rw [same]
    by_cases here : b = k
    · rw [here, if_pos rfl, text_receive]
    · rw [if_neg here, text_receive_of_ne here]
  writeBuf i own := by
    rw [told.writeBuf, (receive_fd s k m.bytes i).1, if_neg fun both => both.2 own]
    exact (receive_fd s k m.bytes i).2
  epollout := by
    apply Bool.eq_iff_iff.mpr
    rw [told.epollout]
    apply or_iff_left
    rintro ⟨j, -, apart, same⟩
    exact apart same
  told i mem other := by
    have apart : ((receive s k m.bytes).fds i).fd ≠ connfd := by
      rw [(receive_fd s k m.bytes i).1]
      exact other
    refine ⟨by rw [told.writeBuf, if_pos ⟨mem, apart⟩], ?_⟩
    rw [Waits, told.epollout]
    exact .inr ⟨i, mem, apart, (told.fd i).symm⟩

theorem Received.distinct (received : Received s connfd k m t) (distinct : Distinct s) :
    Distinct t := by
  intro i memi j memj same
  rw [received.users] at memi memj
  rw [received.fd, received.fd] at same
  exact distinct i memi j memj same

/-- What a user is owed then. -/
theorem owed_message (c : Int) : (l.note (.epollin connfd (some m))).owed c =
    if c = connfd then l.owed c else l.owed c ++ [m.bytes] := rfl

theorem Coherent.message (coherent : Coherent s l) (safe : Safe s (.epollin connfd (some m)))
    (found : getFdsIndex s connfd = some k) (received : Received s connfd k m t) :
    Coherent t (l.note (.epollin connfd (some m))) := by
  obtain ⟨memk, sender⟩ := getFdsIndex_some found
  refine ⟨received.distinct coherent.distinct, ?_, received.sent.trans coherent.sent⟩
  intro i mem
  rw [received.users] at mem
  by_cases own : (s.fds i).fd = connfd
  -- the sender himself
  · obtain rfl : i = k := coherent.distinct i mem k memk (own.trans sender.symm)
    apply (coherent.kept i mem).carry
    exact {
      fd := received.fd i
      writeBuf := received.writeBuf i own
      text b waits points := by
        rw [received.text]
        by_cases here : b = i
        · subst here
          rw [if_pos rfl, (safe b found b mem waits).2 points]
        · rw [if_neg here]
      epollout := by rw [own, received.epollout]
      owed := by rw [owed_message, if_pos own] }
  -- another user, who has not been waiting
  · have idle : ¬ Waits s i := by
      intro waits
      have here := (safe k found i mem waits).1
      exact own (here ▸ sender)
    have none : l.owed (s.fds i).fd = [] := by
      cases coherent.kept i mem with
      | waits b m waits due => exact absurd waits idle
      | idle idle owed => exact owed
    obtain ⟨points, waits⟩ := received.told i mem own
    refine .waits k m waits ?_
    exact {
      writeBuf := points
      text := by rw [received.text, if_pos rfl]
      owed := by rw [received.fd, owed_message, if_neg own, none, List.nil_append] }

theorem Coherent.epollin {message : Option Message} (coherent : Coherent s l)
    (safe : Safe s (.epollin connfd message)) (read : epollin s connfd message = some t) :
    Coherent t (l.note (.epollin connfd message)) := by
  obtain ⟨k, found, ⟨rfl, rfl⟩ | ⟨m, rfl, rfl⟩⟩ := epollin_cases read
  · exact coherent.again safe found
  · exact coherent.message safe found (told_foldl _ _).received

/-! ## Output -/

/-- The output event of a user who waits sends what he points to. -/
theorem epollout_due {b : Nat} (distinct : Distinct s) (mem : k ∈ users s) (waits : Waits s k)
    (points : (s.fds k).writeBuf = some b) :
    epollout s (s.fds k).fd = some { s with
      sent := s.sent ++ [((s.fds k).fd, text s b)]
      fds := Function.update s.fds k { s.fds k with writeBuf := none }
      epollout := Function.update s.epollout (s.fds k).fd false } := by
  obtain ⟨k', found⟩ := exists_getFdsIndex mem
  obtain ⟨mem', same⟩ := getFdsIndex_some found
  obtain rfl : k' = k := distinct k' mem' k mem same
  have on : s.epollout (s.fds k').fd = true := waits
  rw [Talk.epollout, if_pos on, found]
  rw [Option.bind_eq_bind, Option.bind_some, points]

theorem Coherent.epollout (coherent : Coherent s l) (wrote : epollout s connfd = some t) :
    Coherent t (l.note (.epollout connfd)) := by
  have on : s.epollout connfd = true := by
    by_contra off
    rw [Talk.epollout, if_neg off] at wrote
    cases wrote
  have found : ∃ k, getFdsIndex s connfd = some k := by
    rw [Talk.epollout, if_pos on] at wrote
    obtain ⟨k, found, -⟩ := Option.bind_eq_some_iff.mp wrote
    exact ⟨k, found⟩
  obtain ⟨k, found⟩ := found
  obtain ⟨mem, rfl⟩ := getFdsIndex_some found
  cases coherent.kept k mem with
  | idle idle owed => exact absurd on idle
  | waits b m waits due =>
      have wrote := (epollout_due coherent.distinct mem waits due.writeBuf).symm.trans wrote
      obtain rfl := Option.some.inj wrote
      have fd (i : Nat) :
          (Function.update s.fds k { s.fds k with writeBuf := none } i).fd = (s.fds i).fd :=
        apply_update_of_eq Client.fd rfl
      constructor
      · intro i memi j memj same
        dsimp only at same
        rw [fd, fd] at same
        exact coherent.distinct i memi j memj same
      · intro i memi
        by_cases own : i = k
        · subst own
          refine .idle ?_ ?_
          · rw [Waits, fd]
            show ¬ Function.update s.epollout (s.fds i).fd false (s.fds i).fd = true
            rw [Function.update_self]
            decide
          · rw [fd]
            exact Function.update_self _ _ _
        · have other : (s.fds i).fd ≠ (s.fds k).fd := fun same =>
            own (coherent.distinct i memi k mem same)
          apply (coherent.kept i memi).carry
          exact {
            fd := fd i
            writeBuf := by
              dsimp only
              rw [Function.update_of_ne own]
            text c _ _ := apply_update_of_eq (fun c : Client => cstr c.buf 0) rfl
            epollout := Function.update_of_ne other _ _
            owed := Function.update_of_ne other _ _ }
      · show s.sent ++ _ = l.sent ++ _
        rw [coherent.sent, due.owed, due.text]
        rfl

/-! ## Runs -/

theorem Coherent.step (coherent : Coherent s l) (safe : Safe s e) (stepped : step s e = some t) :
    Coherent t (l.note e) := by
  cases e with
  | accept connfd => exact coherent.accept stepped
  | rdhup connfd => exact coherent.rdhup safe stepped
  | epollin connfd message => exact coherent.epollin safe stepped
  | epollout connfd => exact coherent.epollout stepped

theorem Coherent.run {es : List Event} (coherent : Coherent s l)
    (safe : Along Talk.step Safe s es) (ran : Lib.run Talk.step s es = some t) :
    Coherent t (es.foldl Ledger.note l) := by
  induction es generalizing s l with
  | nil =>
      cases ran
      exact coherent
  | cons e es ih =>
      obtain ⟨u, first, rest⟩ := run_cons_eq_some.mp ran
      exact ih (coherent.step safe.1 first) (safe.2 u first) rest

/-! ## Runs that are not safe -/

/-- A user who points to something else than what is due gets it. -/
theorem epollout_wrong {b : Nat} (distinct : Distinct t) (mem : n ∈ users t) (waits : Waits t n)
    (points : (t.fds n).writeBuf = some b) (sent : t.sent = l'.sent)
    (wrong : l'.owed (t.fds n).fd ≠ [text t b]) :
    ∃ c u, step t (.epollout c) = some u ∧ u.sent ≠ (l'.note (.epollout c)).sent := by
  refine ⟨(t.fds n).fd, _, epollout_due distinct mem waits points, ?_⟩
  intro same
  apply wrong
  have same : [((t.fds n).fd, text t b)] =
      (l'.owed (t.fds n).fd).map fun bytes => ((t.fds n).fd, bytes) := by
    apply (List.append_right_inj l'.sent).mp
    rw [← sent]
    exact same.trans (congrArg (· ++ _) sent.symm)
  have bytes := congrArg (List.map Prod.snd) same
  rw [List.map_map] at bytes
  exact (bytes.trans (List.map_id _)).symm

/-- A message that comes while somebody waits. -/
theorem message_wrong (coherent : Coherent s l) (found : getFdsIndex s connfd = some k)
    (received : Received s connfd k m t) (mem : i ∈ users s) (waits : Waits s i)
    (differ : ¬ (i = k ∧ ((s.fds i).writeBuf = some k → text s k = m.bytes))) :
    ∃ c u, step t (.epollout c) = some u ∧
      u.sent ≠ ((l.note (.epollin connfd (some m))).note (.epollout c)).sent := by
  obtain ⟨memk, sender⟩ := getFdsIndex_some found
  obtain ⟨b, old, due⟩ : ∃ b old, Due s l i b old := by
    cases coherent.kept i mem with
    | waits b old _ due => exact ⟨b, old, due⟩
    | idle idle _ => exact absurd waits idle
  have mem' : i ∈ users t := by rwa [received.users]
  have distinct := received.distinct coherent.distinct
  have sent : t.sent = (l.note (.epollin connfd (some m))).sent :=
    received.sent.trans coherent.sent
  by_cases own : (s.fds i).fd = connfd
  -- the sender's own text is overwritten
  · obtain rfl : i = k := coherent.distinct i mem k memk (own.trans sender.symm)
    have lost : (s.fds i).writeBuf = some i ∧ text s i ≠ m.bytes := by
      by_contra kept
      exact differ ⟨rfl, fun points => by_contra fun other => kept ⟨points, other⟩⟩
    obtain ⟨points, other⟩ := lost
    obtain rfl : b = i := Option.some.inj (due.writeBuf.symm.trans points)
    have waits' : Waits t b := by
      rw [Waits, received.fd, own, received.epollout, ← own]
      exact waits
    apply epollout_wrong distinct mem' waits' ((received.writeBuf b own).trans points) sent
    rw [received.fd, owed_message, if_pos own, due.owed, ← due.text, received.text, if_pos rfl]
    intro same
    exact other (List.singleton_inj.mp same)
  -- the old message and the new one are due
  · obtain ⟨points, waits⟩ := received.told i mem own
    apply epollout_wrong distinct mem' waits points sent
    rw [received.fd, owed_message, if_neg own, due.owed, received.text, if_pos rfl]
    simp

/-- A step that is not safe is followed by a wrong output, if the user who loses his message has
his output event next. -/
theorem wrong_of_not_safe (coherent : Coherent s l) (stepped : step s e = some t)
    (loses : ¬ Safe s e) :
    ∃ c u, step t (.epollout c) = some u ∧ u.sent ≠ ((l.note e).note (.epollout c)).sent := by
  have one {i : Nat} (mem : i ∈ users s) (waits : Waits s i) : ∃ b m, Due s l i b m := by
    cases coherent.kept i mem with
    | waits b m _ due => exact ⟨b, m, due⟩
    | idle idle _ => exact absurd waits idle
  cases e with
  | accept connfd => exact absurd trivial loses
  | epollout connfd => exact absurd trivial loses
  | rdhup connfd =>
      simp only [Safe, not_forall] at loses
      obtain ⟨j, found, o, mem, apart, waits, points, differ⟩ := loses
      obtain ⟨j', left⟩ := left_rdhup stepped
      obtain rfl : j' = j := Option.some.inj (left.found.symm.trans found)
      obtain ⟨i, memi, entry⟩ := left.image mem apart
      have other := left.other coherent.distinct mem apart
      obtain ⟨b, m, due⟩ := one mem waits
      obtain rfl : b = j' := Option.some.inj (due.writeBuf.symm.trans points)
      apply epollout_wrong (left.distinct coherent.distinct) memi
      · rw [Waits, entry, left.epollout, Function.update_of_ne other]
        exact waits
      · rw [entry, points]
      · exact left.sent.trans coherent.sent
      · rw [entry, left.text, if_pos rfl]
        show Function.update l.owed connfd [] (s.fds o).fd ≠ _
        rw [Function.update_of_ne other, due.owed, ← due.text]
        intro same
        exact differ (List.singleton_inj.mp same).symm
  | epollin connfd message =>
      obtain ⟨k, found, ⟨rfl, rfl⟩ | ⟨m, rfl, rfl⟩⟩ := epollin_cases stepped
      · simp only [Safe, not_forall, not_not] at loses
        obtain ⟨k', found', i, mem, waits, points⟩ := loses
        obtain rfl : k' = k := Option.some.inj (found'.symm.trans found)
        obtain ⟨b, m, due⟩ := one mem waits
        have fd := receive_fd s k' [] i
        apply epollout_wrong (coherent.distinct.receive (k := k')) mem
        · rw [Waits, fd.1]
          exact waits
        · rw [fd.2, points]
        · exact coherent.sent
        · rw [fd.1, text_receive_nil]
          show l.owed (s.fds i).fd ≠ [[]]
          rw [due.owed]
          intro same
          exact m.nonempty (List.singleton_inj.mp same)
      · simp only [Safe, not_forall] at loses
        obtain ⟨k', found', i, mem, waits, differ⟩ := loses
        obtain rfl : k' = k := Option.some.inj (found'.symm.trans found)
        exact message_wrong coherent found (told_foldl _ _).received mem waits differ

/-- A step that the server cannot take is safe. -/
theorem safe_of_none (ended : step s e = none) : Safe s e := by
  cases e with
  | accept | epollout => trivial
  | rdhup connfd =>
      intro j found
      have left : rdhup s connfd = none := ended
      rw [rdhup, Option.mem_def.mp found] at left
      cases left
  | epollin connfd message =>
      have read : epollin s connfd message = none := ended
      cases message with
      | none =>
          intro k found
          rw [epollin, Option.mem_def.mp found] at read
          cases read
      | some m =>
          intro k found
          rw [epollin, Option.mem_def.mp found] at read
          cases read

/-- Whoever has his output event next gets what is due. -/
def Outputs (l : Ledger) (s : World) : Prop :=
  ∀ c u, step s (.epollout c) = some u → u.sent = (l.note (.epollout c)).sent

/-- A run is safe exactly when, after each of its beginnings, an output event sends what is
due. -/
theorem outputs_iff (stack : Nat → Client) (listenfd : Int) (es : List Event) :
    (∀ fs t, fs <+: es → run step (init stack listenfd) fs = some t → Outputs (ledger fs) t) ↔
      Along step Safe (init stack listenfd) es := by
  apply along_iff_reached Ledger.note (fun l s => Coherent s l) Outputs
  · exact fun coherent safe stepped => coherent.step safe stepped
  · exact fun coherent c u wrote => (coherent.epollout wrote).sent
  · intro l s e t coherent loses stepped outputs
    obtain ⟨c, u, wrote, wrong⟩ := wrong_of_not_safe coherent stepped loses
    exact wrong (outputs c u wrote)
  · exact safe_of_none
  · exact coherent_init stack listenfd

/-- **Delivery.** In a run in which nobody who waits loses his message, exactly what is due is
sent. -/
theorem delivered {stack : Nat → Client} {listenfd : Int} {es : List Event}
    (safe : Along step Safe (init stack listenfd) es)
    (ran : run step (init stack listenfd) es = some s) : s.sent = (ledger es).sent := by
  have coherent : Coherent s (ledger es) := (coherent_init stack listenfd).run safe ran
  exact coherent.sent

/-- A message of one byte. -/
def word (x : UInt8) (text : x ≠ 0) : Message where
  bytes := [x]
  nonempty := List.cons_ne_nil x []
  short := by
    rw [List.length_singleton]
    decide
  text zero := text (List.mem_singleton.mp zero).symm

/-- Two users write to each other, and one of them leaves before the other one reads. -/
def greeting : List Event :=
  [.accept 5, .accept 6, .epollin 5 (some (word 97 (by decide))), .epollout 6,
    .epollin 6 (some (word 98 (by decide))), .rdhup 6, .epollout 5]

/-- Two messages before the output event. -/
def hurrying : List Event :=
  [.accept 5, .accept 6, .epollin 5 (some (word 97 (by decide))),
    .epollin 5 (some (word 98 (by decide))), .epollout 6]

/-- An entry of zeros. -/
def zeros : Client := ⟨0, none, List.replicate BUFFER_SIZE 0⟩

/-- The second message overwrites the first one. -/
theorem delivered_fails :
    ¬ ∀ (stack : Nat → Client) (listenfd : Int) (es : List Event) (s : World),
      run step (init stack listenfd) es = some s → s.sent = (ledger es).sent := by
  intro delivered
  have lost : (run step (init (fun _ => zeros) 3) hurrying).map (fun s => s.sent) =
      some [(6, [98])] := by decide +kernel
  obtain ⟨s, ran, sent⟩ := Option.map_eq_some_iff.mp lost
  have due := delivered _ 3 hurrying s ran
  rw [sent] at due
  exact absurd due (by decide)

theorem delivered_greeting :
    ∃ s, run step (init (fun _ => zeros) 3) greeting = some s ∧
      s.sent = [(6, [97]), (5, [98])] ∧ s.sent = (ledger greeting).sent := by
  have both : (run step (init (fun _ => zeros) 3) greeting).map (fun s => s.sent) =
      some [(6, [97]), (5, [98])] := by decide +kernel
  obtain ⟨s, ran, sent⟩ := Option.map_eq_some_iff.mp both
  exact ⟨s, ran, sent, delivered (by decide +kernel) ran⟩

end Shang.Talk
