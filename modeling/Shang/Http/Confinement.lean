import Shang.Http.Requestline

/-!
# Where a request leads

The server changes to the directory `www`, takes the first slash off the path of the
request and gives what is left to `stat` and `open`. The first line of the stream decides
what that is, however the bytes arrive and whatever follows the line.
-/

namespace Shang.Http

open Shang.Lib

/-- The line is not ended here, nor is the string. -/
def lineByte (x : UInt8) : Bool := decide (x ≠ 0 ∧ x ≠ CR ∧ x ≠ LF)

/-- The string that the first line of a stream holds. -/
def requestLine (stream : List UInt8) : List UInt8 := stream.takeWhile lineByte

/-- A relative name with no component `..`. -/
def Confined (name : List UInt8) : Prop :=
  name.head? ≠ some SLASH ∧ ascii ".." ∉ name.splitOn SLASH

/-- The path stays in the directory: one slash is taken off. -/
def Stays (path : List UInt8) : Prop :=
  ¬ ascii "//" <+: path ∧ ascii ".." ∉ path.splitOn SLASH

variable {front line rest tail path stream : List UInt8} {chunks : List (List UInt8)}
  {readIndex : Nat} {s t : Conn} {code : HttpCode}

/-! ## The first line -/

/-- No byte ends a line. -/
def Plain (line : List UInt8) : Prop := ∀ x ∈ line, x ≠ CR ∧ x ≠ LF

theorem getD_next (front rest : List UInt8) (x y : UInt8) :
    (front ++ x :: y :: rest).getD front.length 0 = x ∧
      (front ++ x :: y :: rest).getD (front.length + 1) 0 = y := by
  constructor
  · simp
  · simp

/-- `parse_line` goes on at a byte that does not end the line. -/
theorem parseLine_plain {x : UInt8} (plain : x ≠ CR ∧ x ≠ LF)
    (inside : front.length < readIndex) :
    parseLine (front ++ x :: tail) front.length readIndex =
      parseLine ((front ++ [x]) ++ tail) (front ++ [x]).length readIndex := by
  have here : (front ++ x :: tail).getD front.length 0 = x := by simp
  rw [parseLine, if_pos inside]
  dsimp only
  rw [here, if_neg plain.1, if_neg plain.2, List.length_append, List.length_singleton,
    List.append_assoc, List.singleton_append]

theorem parseLine_crlf (rest : List UInt8) (inside : front.length + 1 < readIndex) :
    parseLine (front ++ CR :: LF :: rest) front.length readIndex =
      (.ok, front ++ 0 :: 0 :: rest, front.length + 2) := by
  obtain ⟨here, next⟩ := getD_next front rest CR LF
  have cut : ((front ++ CR :: LF :: rest).set front.length 0).set (front.length + 1) 0 =
      front ++ 0 :: 0 :: rest := by simp
  rw [parseLine, if_pos (Nat.lt_of_succ_lt inside)]
  dsimp only
  rw [here, if_pos rfl, if_neg (Nat.ne_of_lt inside), next, if_pos rfl, cut]

/-- A line that ends as it should. -/
theorem parseLine_line (rest : List UInt8) (plain : Plain line)
    (inside : front.length + line.length + 1 < readIndex) :
    parseLine (front ++ (line ++ CR :: LF :: rest)) front.length readIndex =
      (.ok, front ++ (line ++ 0 :: 0 :: rest), front.length + line.length + 2) := by
  induction line generalizing front with
  | nil => exact parseLine_crlf rest inside
  | cons x line ih =>
      obtain ⟨here, plain⟩ := List.forall_mem_cons.mp plain
      have size : (front ++ [x]).length = front.length + 1 := by simp
      rw [List.length_cons] at inside
      rw [List.cons_append, parseLine_plain here (by omega), ih plain (by omega), size,
        List.append_assoc, List.singleton_append, List.length_cons,
        Nat.add_right_comm _ 1 line.length, Nat.add_assoc _ line.length 1]
      rfl

/-- Behind plain bytes, a line is complete at CR and LF only. -/
theorem exists_crlf {x : UInt8} (before : Plain front) (inside : front.length < readIndex)
    (room : readIndex ≤ (front ++ x :: tail).length) (ends : ¬ (x ≠ CR ∧ x ≠ LF))
    (ok : (parseLine (front ++ x :: tail) front.length readIndex).1 = .ok) :
    x = CR ∧ ∃ rest, tail = LF :: rest ∧ front.length + 1 < readIndex := by
  have here : (front ++ x :: tail).getD front.length 0 = x := by simp
  rw [parseLine, if_pos inside] at ok
  dsimp only at ok
  rw [here] at ok
  by_cases cr : x = CR
  · rw [if_pos cr] at ok
    split at ok
    · cases ok
    · next more =>
        split at ok
        · next lf =>
            refine ⟨cr, ?_⟩
            cases tail with
            | nil =>
                rw [List.length_append, List.length_singleton] at room
                omega
            | cons y rest =>
                rw [(getD_next front rest x y).2] at lf
                exact ⟨rest, by rw [lf], by omega⟩
        · cases ok
  · have lf : x = LF := by
      by_contra other
      exact ends ⟨cr, other⟩
    rw [if_neg cr, if_pos lf] at ok
    split at ok
    · next behind =>
        have last : front.length - 1 < front.length := by omega
        rw [List.getD_eq_getElem?_getD, List.getElem?_append_left last,
          List.getElem?_eq_getElem last, Option.getD_some] at behind
        exact absurd behind.2 (before _ (List.getElem_mem last)).1
    · cases ok

/-- There is no other one. -/
theorem exists_line (before : Plain front) (room : readIndex ≤ (front ++ tail).length)
    (ok : (parseLine (front ++ tail) front.length readIndex).1 = .ok) :
    ∃ line rest, front ++ tail = line ++ CR :: LF :: rest ∧ Plain line ∧
      line.length + 1 < readIndex := by
  induction tail generalizing front with
  | nil =>
      have outside : ¬ front.length < readIndex := by
        rw [List.append_nil] at room
        omega
      rw [parseLine, if_neg outside] at ok
      cases ok
  | cons x tail ih =>
      by_cases inside : front.length < readIndex
      case neg =>
        rw [parseLine, if_neg inside] at ok
        cases ok
      by_cases plain : x ≠ CR ∧ x ≠ LF
      · rw [parseLine_plain plain inside] at ok
        have same : front ++ x :: tail = (front ++ [x]) ++ tail := by simp
        rw [same] at room ⊢
        exact ih (List.forall_mem_append.mpr ⟨before, List.forall_mem_singleton.mpr plain⟩) room ok
      · obtain ⟨rfl, rest, rfl, more⟩ := exists_crlf before inside room plain ok
        exact ⟨front, rest, rfl, before, more⟩

/-- The first line of what was received. -/
theorem parseLine_first {c : List UInt8}
    (ok : (parseLine (stream ++ c) 0 stream.length).1 = .ok) :
    ∃ line rest, Plain line ∧ stream = line ++ CR :: LF :: rest ∧
      parseLine (stream ++ c) 0 stream.length =
        (.ok, line ++ 0 :: 0 :: (rest ++ c), line.length + 2) := by
  have empty : Plain [] := List.forall_mem_nil _
  have room : stream.length ≤ ([] ++ (stream ++ c)).length := by simp
  obtain ⟨line, rest, split, plain, inside⟩ := exists_line empty room ok
  rw [List.nil_append] at split
  obtain ⟨rest, received⟩ : line ++ [CR, LF] <+: stream := by
    have whole : line ++ [CR, LF] <+: line ++ CR :: LF :: rest := ⟨rest, by simp⟩
    apply List.prefix_of_prefix_length_le whole ⟨c, split⟩
    simp only [List.length_append, List.length_cons, List.length_nil]
    omega
  have received : stream = line ++ CR :: LF :: rest := by rw [← received]; simp
  refine ⟨line, rest, plain, received, ?_⟩
  have whole : stream ++ c = [] ++ (line ++ CR :: LF :: (rest ++ c)) := by rw [received]; simp
  have first : ([] : List UInt8).length + line.length + 1 < stream.length := by
    rw [List.length_nil, Nat.zero_add]
    exact inside
  have done := parseLine_line (rest ++ c) plain first
  rwa [List.length_nil, ← whole, List.nil_append, Nat.zero_add] at done

theorem requestLine_line (plain : Plain line) :
    requestLine (line ++ CR :: tail) = line.takeWhile (· ≠ 0) := by
  induction line with
  | nil => rfl
  | cons x line ih =>
      obtain ⟨here, plain⟩ := List.forall_mem_cons.mp plain
      rw [requestLine] at ih ⊢
      by_cases zero : x = 0
      · rw [zero, List.takeWhile_cons_of_neg (by simp), List.cons_append,
          List.takeWhile_cons_of_neg (by simp [lineByte])]
      · rw [List.takeWhile_cons_of_pos (by simpa using zero), List.cons_append,
          List.takeWhile_cons_of_pos (by simp [lineByte, zero, here]), ih plain]

theorem Requestline.slash (of : Requestline line path) : path.head? = some SLASH := by
  obtain ⟨_, _, _, _, _, _, _, _, _, _, ofU, _⟩ := of
  exact ofU.1

/-! ## The name -/

/-- Header lines leave the name alone. -/
theorem handleLine_header (header : s.checkstate = .header) (szTemp : Nat) :
    (handleLine s szTemp).2.checkstate = .header ∧
      (handleLine s szTemp).2.retName = s.retName := by
  simp only [handleLine, header]
  split
  · exact ⟨rfl, rfl⟩
  · split
    · exact ⟨rfl, rfl⟩
    · exact ⟨rfl, rfl⟩

theorem handled_header (header : s.checkstate = .header) :
    s.handled.2.checkstate = .header ∧ s.handled.2.retName = s.retName :=
  handleLine_header (s := { s.scanned with startLine := s.scanned.checkedIndex }) header s.startLine

theorem parseContent_header (header : s.checkstate = .header) :
    (parseContent s).2.retName = s.retName := by
  induction s using parseContent.induct with
  | case1 s line u ok szTemp handled code returns =>
      rw [parseContent_return ok returns]
      exact (handled_header header).2
  | case2 s line u ok szTemp handled goes ih =>
      obtain ⟨header', same⟩ := handled_header header
      rw [parseContent_next ok goes]
      exact (ih header').trans same
  | case3 s line notOk isOpen =>
      rw [parseContent_open isOpen]
      rfl
  | case4 s line notOk notOpen =>
      rw [parseContent_bad (LineStatus.eq_bad notOk notOpen)]
      rfl

/-- The first line is refused, or taken with the file for its path. -/
theorem handleLine_first {readIndex checkedIndex startLine : Nat} (line c : List UInt8) :
    let text := line.takeWhile (· ≠ 0)
    let s : Conn := ⟨line ++ 0 :: c, readIndex, checkedIndex, startLine, .requestline, none⟩
    (handleLine s 0).1 = some .badRequest ∧ (∀ path, ¬ Requestline text path) ∨
      (handleLine s 0).1 = none ∧ (handleLine s 0).2.checkstate = .header ∧
        (∃ path, Requestline text path) ∧
        ∀ path, Requestline text path → (handleLine s 0).2.retName = some (fileName path) := by
  obtain ⟨d, same⟩ := exists_behind line c
  have text : 0 ∉ line.takeWhile (· ≠ 0) := zero_notMem_takeWhile line
  have either := refuses_or [] d .requestline [] text
  have taken (path) (of : Requestline (line.takeWhile (· ≠ 0)) path) :=
    of.accepts text [] d .requestline []
  rw [List.nil_append, ← same, List.length_nil] at either
  simp only [List.nil_append, ← same, List.length_nil] at taken
  rcases result : parseRequestline (line ++ 0 :: c) 0 .requestline [] with
    ⟨code, buffer, checkstate, name⟩
  rw [result] at either
  simp only [result] at taken
  simp only [handleLine, result]
  rcases either with refused | some_
  · obtain rfl : code = .badRequest := refused.1
    refine .inl ⟨by rw [if_pos rfl], fun path of => ?_⟩
    cases (taken path of).1
  · obtain ⟨path, of⟩ := some_
    obtain ⟨code_, state⟩ := taken path of
    obtain rfl : code = .noRequest := code_
    right
    rw [if_neg (by decide)]
    refine ⟨rfl, congrArg Prod.fst state, ⟨path, of⟩, fun path of => ?_⟩
    exact congrArg (some ∘ Prod.snd) (taken path of).2

theorem recv_init (stream : List UInt8) : Conn.init.recv stream =
    ⟨stream ++ List.replicate (BUFFER_SIZE - stream.length) 0, stream.length, 0, 0, .requestline,
      none⟩ := by
  rw [Conn.recv, Conn.init, splice, List.take_zero, List.nil_append, Nat.zero_add,
    List.drop_replicate]

theorem handled_first {c : List UInt8}
    (done : parseLine (stream ++ List.replicate (BUFFER_SIZE - stream.length) 0) 0 stream.length =
      (.ok, line ++ 0 :: 0 :: c, line.length + 2)) :
    (Conn.init.recv stream).handled = handleLine
      ⟨line ++ 0 :: 0 :: c, stream.length, line.length + 2, line.length + 2, .requestline, none⟩
        0 := by
  have scanned : (Conn.init.recv stream).scanned =
      ⟨line ++ 0 :: 0 :: c, stream.length, line.length + 2, 0, .requestline, none⟩ := by
    rw [recv_init, Conn.scanned]
    dsimp only
    rw [done]
  rw [Conn.handled, scanned]
  rfl

/-- A request that is answered has a first line of the grammar, and the name is the file for the
path in it. -/
theorem parseContent_first
    (got : (parseContent (Conn.init.recv stream)).1 = .getRequest) :
    (∃ line rest, Plain line ∧ stream = line ++ CR :: LF :: rest) ∧
      (∃ path, Requestline (requestLine stream) path) ∧
      ∀ path, Requestline (requestLine stream) path →
        (parseContent (Conn.init.recv stream)).2.retName = some (fileName path) := by
  have shape := recv_init stream
  have ok : (parseLine (Conn.init.recv stream).buffer (Conn.init.recv stream).checkedIndex
      (Conn.init.recv stream).readIndex).1 = .ok := by
    by_contra notOk
    by_cases isOpen : (parseLine (Conn.init.recv stream).buffer
        (Conn.init.recv stream).checkedIndex (Conn.init.recv stream).readIndex).1 = .lineOpen
    · rw [parseContent_open isOpen] at got
      cases got
    · rw [parseContent_bad (LineStatus.eq_bad notOk isOpen)] at got
      cases got
  have ok' := ok
  rw [shape] at ok'
  obtain ⟨line, rest, plain, received, done⟩ := parseLine_first ok'
  have handled := handled_first done
  have text : requestLine stream = line.takeWhile (· ≠ 0) := by
    rw [received, requestLine_line plain]
  rw [text]
  refine ⟨⟨line, rest, plain, received⟩, ?_⟩
  rcases handleLine_first line _ with ⟨refused, -⟩ | ⟨goes, header, some_, name⟩
  · rw [← handled] at refused
    rw [parseContent_return ok refused] at got
    cases got
  · rw [← handled] at goes header name
    refine ⟨some_, fun path of => ?_⟩
    rw [parseContent_next ok goes, parseContent_header header, name path of]

/-- The first `n` bytes were lines, and the connection waits for a header line. -/
structure Waits (s : Conn) (n : Nat) : Prop where
  header : s.checkstate = .header
  read : s.readIndex = n
  checked : s.checkedIndex = n
  started : s.startLine = n
  size : s.buffer.length = BUFFER_SIZE

/-- An empty line ends the request. -/
theorem Waits.parseContent {n : Nat} (waits : Waits s n) (room : n + 2 ≤ BUFFER_SIZE) :
    (parseContent (s.recv [CR, LF])).1 = .getRequest := by
  obtain ⟨buffer, readIndex, checkedIndex, startLine, checkstate, retName⟩ := s
  obtain ⟨header, read, checked, started, size⟩ := waits
  dsimp only at header read checked started size
  subst header read checked started
  have front : (buffer.take startLine).length = startLine := by
    rw [List.length_take]
    omega
  have received : splice buffer startLine [CR, LF] =
      buffer.take startLine ++ CR :: LF :: buffer.drop (startLine + 2) := by
    rw [splice, List.append_assoc]
    rfl
  have inside : (buffer.take startLine).length + 1 < startLine + 2 := by omega
  have done := parseLine_crlf (buffer.drop (startLine + 2)) inside
  rw [front, ← received] at done
  have ends : (buffer.take startLine ++ 0 :: 0 :: buffer.drop (startLine + 2)).getD startLine 0 =
      0 := by
    have here := (getD_next (buffer.take startLine) (buffer.drop (startLine + 2)) 0 0).1
    rwa [front] at here
  have handled : (Conn.recv ⟨buffer, startLine, startLine, startLine, .header, retName⟩
      [CR, LF]).handled.1 = some .getRequest := by
    rw [Conn.handled, Conn.scanned, Conn.recv]
    dsimp only [List.length_cons, List.length_nil]
    rw [done]
    dsimp only [handleLine]
    rw [parseHeaders, if_pos ends]
    rfl
  rw [parseContent_return (congrArg Prod.fst done) handled]

/-! ## Every stream -/

/-- The chunks that were received when a code was returned fit into the buffer. -/
theorem receive_used (inv : s.Inv) (length : s.buffer.length = BUFFER_SIZE)
    (ran : receive s chunks = some (code, t)) (done : code ≠ .noRequest) :
    ∃ used more, chunks = used ++ more ∧ receive s used = some (code, t) ∧
      s.readIndex + used.flatten.length ≤ BUFFER_SIZE := by
  induction chunks generalizing s with
  | nil =>
      obtain rfl : HttpCode.noRequest = code := congrArg Prod.fst (Option.some.inj ran)
      exact absurd rfl done
  | cons chunk chunks ih =>
      rw [receive] at ran
      split at ran
      case isFalse => cases ran
      next fits =>
        have room : s.readIndex + chunk.length ≤ s.buffer.length := by
          have := inv.room
          omega
        obtain ⟨inv', read, size⟩ := (inv.recv room).parseContent
        have length' : (parseContent (s.recv chunk)).2.buffer.length = BUFFER_SIZE := by
          rw [size]
          exact (length_splice room).trans length
        dsimp only at ran
        split at ran
        · next goes =>
            obtain ⟨used, more, rfl, ran', fits'⟩ := ih inv' length' ran
            refine ⟨chunk :: used, more, rfl, ?_, ?_⟩
            · rw [receive, if_pos fits]
              dsimp only
              rw [if_pos goes, ran']
            · rw [read] at fits'
              rw [List.flatten_cons, List.length_append, ← Nat.add_assoc]
              exact fits'
        · next stops =>
            refine ⟨[chunk], chunks, rfl, ?_, ?_⟩
            · rw [receive, if_pos fits]
              dsimp only
              rw [if_neg stops, ran]
            · rw [List.flatten_singleton, ← length]
              exact room

/-- The name is the file for the path in the first line of the stream. -/
theorem receive_name (ran : receive Conn.init chunks = some (.getRequest, s)) :
    (∃ path, Requestline (requestLine chunks.flatten) path) ∧
      ∀ path, Requestline (requestLine chunks.flatten) path → s.retName = some (fileName path) := by
  have length : Conn.init.buffer.length = BUFFER_SIZE := List.length_replicate
  obtain ⟨used, more, rfl, ran', fits⟩ := receive_used inv_init length ran (by decide)
  obtain ⟨r, ran'', code, name⟩ := receive_spec used inv_init length (parseContent_waits rfl) fits
  obtain rfl := Option.some.inj (ran'.symm.trans ran'')
  obtain ⟨⟨line, rest, plain, received⟩, some_, names⟩ := parseContent_first code.symm
  have text : requestLine (used ++ more).flatten = requestLine used.flatten := by
    rw [List.flatten_append, received, List.append_assoc, List.cons_append, requestLine_line plain,
      requestLine_line plain]
  rw [text]
  exact ⟨some_, fun path of => name.trans (names path of)⟩

/-- After a first line of the grammar the connection waits for a header line. -/
theorem exists_waits (of : Requestline line path) (plain : Plain line) (text : 0 ∉ line)
    (fits : line.length + 4 ≤ BUFFER_SIZE) :
    ∃ s, parseContent (Conn.init.recv (line ++ [CR, LF])) = (.noRequest, s) ∧
      Waits s (line.length + 2) := by
  have size : (line ++ [CR, LF]).length = line.length + 2 := by simp
  have first : ([] : List UInt8).length + line.length + 1 < (line ++ [CR, LF]).length := by
    rw [size, List.length_nil]
    omega
  have done := parseLine_line (List.replicate (BUFFER_SIZE - (line ++ [CR, LF]).length) 0) plain
    first
  have shape (c : List UInt8) : [] ++ (line ++ CR :: LF :: c) = (line ++ [CR, LF]) ++ c := by simp
  rw [shape, List.length_nil, List.nil_append, Nat.zero_add] at done
  have handled := handled_first done
  obtain ⟨read, checked, started, length⟩ := handleLine_frame
    ⟨line ++ 0 :: 0 :: List.replicate (BUFFER_SIZE - (line ++ [CR, LF]).length) 0,
      (line ++ [CR, LF]).length, line.length + 2, line.length + 2, .requestline, none⟩ 0
  rcases handleLine_first line _ with ⟨-, none_⟩ | ⟨goes, header, -⟩
  · rw [takeWhile_text text] at none_
    exact absurd of (none_ path)
  rw [← handled] at read checked started length goes header
  have atEnd := checked.trans (size.symm.trans read.symm)
  have ok : (parseLine (Conn.init.recv (line ++ [CR, LF])).buffer
      (Conn.init.recv (line ++ [CR, LF])).checkedIndex
      (Conn.init.recv (line ++ [CR, LF])).readIndex).1 = .ok := by
    rw [recv_init]
    exact congrArg Prod.fst done
  have length' : (Conn.init.recv (line ++ [CR, LF])).handled.2.buffer.length = BUFFER_SIZE := by
    rw [length, size]
    simp
    omega
  exact ⟨_, (parseContent_next ok goes).trans (parseContent_waits atEnd),
    ⟨header, read.trans size, checked, started, length'⟩⟩

/-- A first line of the grammar is answered when an empty line follows. -/
theorem receive_serves (of : Requestline line path) (plain : Plain line) (text : 0 ∉ line)
    (fits : line.length + 4 ≤ BUFFER_SIZE) :
    ∃ s, receive Conn.init [line ++ [CR, LF], [CR, LF]] = some (.getRequest, s) := by
  obtain ⟨s, parsed, waits⟩ := exists_waits of plain text fits
  have answered := waits.parseContent fits
  have fits₁ : (line ++ [CR, LF]).length ≤ BUFFER_SIZE - Conn.init.readIndex := by
    rw [List.length_append]
    show line.length + 2 ≤ BUFFER_SIZE - 0
    omega
  have fits₂ : [CR, LF].length ≤ BUFFER_SIZE - s.readIndex := by
    rw [waits.read]
    show 2 ≤ _
    omega
  refine ⟨(parseContent (s.recv [CR, LF])).2, ?_⟩
  rw [receive, if_pos fits₁, parsed]
  dsimp only
  rw [if_pos rfl, receive, if_pos fits₂]
  dsimp only
  rw [answered, if_neg (by decide), ← answered]

theorem splitOn_slash (rest : List UInt8) :
    (SLASH :: rest).splitOn SLASH = [] :: rest.splitOn SLASH := by
  have empty : SLASH ∉ ([] : List UInt8) := List.not_mem_nil
  exact List.splitOn_append_cons_self_of_not_mem empty rest

theorem confined_fileName (slash : path.head? = some SLASH) :
    Confined (fileName path) ↔ Stays path := by
  cases path with
  | nil => cases slash
  | cons x rest =>
      obtain rfl : x = SLASH := Option.some.inj slash
      cases rest with
      | nil =>
          have file : Confined (ascii "index.html") := by unfold Confined; decide +kernel
          have root : Stays (ascii "/") := by unfold Stays; decide +kernel
          exact iff_of_true file root
      | cons y rest =>
          have long : SLASH :: y :: rest ≠ ascii "/" := by
            intro same
            cases congrArg List.length same
          have slashes : ascii "//" <+: SLASH :: y :: rest ↔ y = SLASH := by
            rw [show ascii "//" = SLASH :: SLASH :: [] by decide, List.cons_prefix_cons,
              List.cons_prefix_cons, and_iff_right rfl, and_iff_left List.nil_prefix, eq_comm]
          rw [fileName, if_neg long, Confined, Stays, slashes, splitOn_slash, List.mem_cons,
            or_iff_right (by decide), List.drop_succ_cons, List.drop_zero, List.head?_cons,
            Ne, Option.some_inj]

/-- **Confinement.** The name that is opened is confined exactly when the path of the request does
not start with two slashes and has no component `..`. -/
theorem name_confined_iff (ran : receive Conn.init chunks = some (.getRequest, s)) :
    (∃ name, s.retName = some name ∧ Confined name) ↔
      ∀ path, Requestline (requestLine chunks.flatten) path → Stays path := by
  obtain ⟨⟨path, of⟩, names⟩ := receive_name ran
  constructor
  · intro ⟨name, isName, confined⟩ path of
    obtain rfl := Option.some.inj (isName.symm.trans (names path of))
    exact (confined_fileName of.slash).mp confined
  · intro stays
    exact ⟨_, names path of, (confined_fileName of.slash).mpr (stays path of)⟩

/-- A file outside of the directory. -/
def climbing : List UInt8 := ascii "GET /../x HTTP/1.1"

theorem requestline_climbing : Requestline climbing (ascii "/../x") :=
  ⟨ascii "GET", ascii " ", ascii "/../x", ascii " ", ascii "HTTP/1.1", by decide +kernel,
    by decide +kernel, by unfold Gap; decide +kernel, by decide +kernel, by decide +kernel,
    ⟨by decide +kernel, .inl rfl⟩, by unfold Gap; decide +kernel, by decide +kernel⟩

theorem served_climbing :
    ∃ s, receive Conn.init [climbing ++ [CR, LF], [CR, LF]] = some (.getRequest, s) :=
  receive_serves requestline_climbing (by unfold Plain; decide +kernel) (by decide +kernel)
    (by decide +kernel)

theorem name_confined_iff_climbing :
    ∃ s, receive Conn.init [climbing ++ [CR, LF], [CR, LF]] = some (.getRequest, s) ∧
      ((∃ name, s.retName = some name ∧ Confined name) ↔
        ∀ path, Requestline (requestLine [climbing ++ [CR, LF], [CR, LF]].flatten) path →
          Stays path) := by
  obtain ⟨s, ran⟩ := served_climbing
  exact ⟨s, ran, name_confined_iff ran⟩

/-- The request leads to the directory above `www`. -/
theorem name_escapes :
    ¬ ∀ (chunks : List (List UInt8)) (s : Conn),
      receive Conn.init chunks = some (.getRequest, s) →
        ∃ name, s.retName = some name ∧ Confined name := by
  intro confined
  obtain ⟨s, ran⟩ := served_climbing
  obtain ⟨name, isName, inside⟩ := confined _ s ran
  have text : requestLine [climbing ++ [CR, LF], [CR, LF]].flatten = climbing := by decide +kernel
  obtain ⟨-, names⟩ := receive_name ran
  rw [text] at names
  obtain rfl := Option.some.inj (isName.symm.trans (names _ requestline_climbing))
  have outside : ¬ Confined (fileName (ascii "/../x")) := by unfold Confined; decide +kernel
  exact outside inside

end Shang.Http
