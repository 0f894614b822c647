import Shang.Lib.CString

/-!
# The incremental HTTP parser

`8-3httpparser`: the bytes of a request are appended to a zeroed buffer as they
arrive, and after each arrival `parse_content` goes on where it stopped. The
buffer is all of its `BUFFER_SIZE` bytes; a pointer into it is an index. The
output of `printf` is left out, and so is `bzero(name, strlen(name))` on fresh
memory, whose content nothing reads. A file name is the string that
`strdup(name)` copies.

The parser stores NULs into its buffer, but only into lines that are complete:
`parse_line` ends a line with a NUL before anything else looks at it, and
every string that is read ends there. So a finished line does not see what is
received later, and an unfinished one is not changed: parsing twice is parsing
once (`parseContent_recv`).
-/

namespace Shang.Http

open Shang.Lib

/-- The size of the buffer. -/
def BUFFER_SIZE : Nat := 4096

/-- `CHECK_STATE`. -/
inductive CheckState
  | requestline
  | header
  | content
  deriving DecidableEq

/-- `LINE_STATUS`. -/
inductive LineStatus
  | ok
  | bad
  | lineOpen
  deriving DecidableEq

/-- `HTTP_CODE`. -/
inductive HttpCode
  | noRequest
  | getRequest
  | badRequest
  | forbiddenRequest
  | internalError
  | closedConnection
  deriving DecidableEq

/-- The bytes the parser looks for. -/
def CR : UInt8 := 13
def LF : UInt8 := 10
def SLASH : UInt8 := 47

/-- `parse_line`: the status, the buffer and `checked_index`. -/
def parseLine (buffer : List UInt8) (checkedIndex readIndex : Nat) :
    LineStatus × List UInt8 × Nat :=
  if checkedIndex < readIndex then
    let temp := buffer.getD checkedIndex 0
    if temp = CR then
      if checkedIndex + 1 = readIndex then (.lineOpen, buffer, checkedIndex)
      else if buffer.getD (checkedIndex + 1) 0 = LF then
        (.ok, (buffer.set checkedIndex 0).set (checkedIndex + 1) 0, checkedIndex + 2)
      else (.bad, buffer, checkedIndex)
    else if temp = LF then
      if checkedIndex > 1 ∧ buffer.getD (checkedIndex - 1) 0 = CR then
        (.ok, (buffer.set (checkedIndex - 1) 0).set checkedIndex 0, checkedIndex + 1)
      else (.bad, buffer, checkedIndex)
    else parseLine buffer (checkedIndex + 1) readIndex
  else (.lineOpen, buffer, checkedIndex)
termination_by readIndex - checkedIndex

/-- `deal_url`: the file name for a URL. -/
def dealUrl (buffer : List UInt8) (url : Nat) : List UInt8 :=
  if cstr buffer url ≠ ascii "/" then cstr buffer (url + 1) else ascii "index.html"

/-- The part of `parse_requestline` that skips `http://` and the host. -/
def hostless (buffer : List UInt8) (szURL : Nat) : Option Nat :=
  if strncasecmp (cstr buffer szURL) (ascii "http://") 7 then strchr buffer (szURL + 7) SLASH
  else some szURL

/-- `parse_requestline`: the code, the buffer, `checkstate` and `*name`. -/
def parseRequestline (buffer : List UInt8) (szTemp : Nat) (checkstate : CheckState)
    (name : List UInt8) : HttpCode × List UInt8 × CheckState × List UInt8 :=
  match strpbrk buffer szTemp (ascii " \t") with
  | none => (.badRequest, buffer, checkstate, name)
  | some szURL =>
      let buffer := buffer.set szURL 0
      let szURL := szURL + 1
      let szMethod := szTemp
      if ¬ strcasecmp (cstr buffer szMethod) (ascii "GET") then
        (.badRequest, buffer, checkstate, name)
      else
        let szURL := szURL + strspn buffer szURL (ascii " \t")
        match strpbrk buffer szURL (ascii " \t") with
        | none => (.badRequest, buffer, checkstate, name)
        | some szVersion =>
            let buffer := buffer.set szVersion 0
            let szVersion := szVersion + 1
            let szVersion := szVersion + strspn buffer szVersion (ascii " \t")
            if ¬ strcasecmp (cstr buffer szVersion) (ascii "HTTP/1.1") then
              (.badRequest, buffer, checkstate, name)
            else
              match hostless buffer szURL with
              | none => (.badRequest, buffer, checkstate, name)
              | some szURL =>
                  if buffer.getD szURL 0 ≠ SLASH then (.badRequest, buffer, checkstate, name)
                  else (.noRequest, buffer, .header, dealUrl buffer szURL)

/-- `parse_headers`: the code and the buffer. -/
def parseHeaders (buffer : List UInt8) (szTemp : Nat) : HttpCode × List UInt8 :=
  if buffer.getD szTemp 0 = 0 then (.getRequest, buffer)
  else
    match strpbrk buffer szTemp (ascii ":") with
    | some tmp => (.noRequest, (buffer.set tmp 0).set (tmp + 1) 0)
    | none => (.noRequest, buffer)

/-- A connection: the buffer, the indices and state that persist between calls,
and `*ret_name` once a request line was accepted. -/
structure Conn where
  buffer : List UInt8
  readIndex : Nat
  checkedIndex : Nat
  startLine : Nat
  checkstate : CheckState
  retName : Option (List UInt8)

/-- A connection that was accepted. -/
def Conn.init : Conn :=
  ⟨List.replicate BUFFER_SIZE 0, 0, 0, 0, .requestline, none⟩

/-- The body of the loop of `parse_content` for the line at `szTemp`: the code
that is returned, or none where the loop goes on. -/
def handleLine (s : Conn) (szTemp : Nat) : Option HttpCode × Conn :=
  match s.checkstate with
  | .requestline =>
      let (retcode, buffer, checkstate, name) := parseRequestline s.buffer szTemp s.checkstate []
      let s := { s with buffer := buffer, checkstate := checkstate }
      if retcode = .badRequest then (some .badRequest, s)
      else (none, { s with retName := some name })
  | .header =>
      let (retcode, buffer) := parseHeaders s.buffer szTemp
      let s := { s with buffer := buffer }
      if retcode = .badRequest then (some .badRequest, s)
      else if retcode = .getRequest then (some .getRequest, s)
      else (none, s)
  | .content => (some .internalError, s)

variable {buffer buffer' chunk : List UInt8} {checkedIndex checkedIndex' readIndex m p q : Nat}
  {status : LineStatus}

/-! ## `parse_line` -/

/-- A complete line is not empty. -/
theorem parseLine_ok_lt (ok : (parseLine buffer checkedIndex readIndex).1 = .ok) :
    checkedIndex < (parseLine buffer checkedIndex readIndex).2.2 ∧
      (parseLine buffer checkedIndex readIndex).2.2 ≤ readIndex := by
  induction checkedIndex using parseLine.induct buffer readIndex with
  | case1 i inside temp cr last =>
      rw [parseLine, if_pos inside, if_pos cr, if_pos last] at ok
      cases ok
  | case2 i inside temp cr last lf =>
      rw [parseLine, if_pos inside, if_pos cr, if_neg last, if_pos lf]
      exact ⟨by simp, by simp only; omega⟩
  | case3 i inside temp cr last lf =>
      rw [parseLine, if_pos inside, if_pos cr, if_neg last, if_neg lf] at ok
      cases ok
  | case4 i inside temp cr lf behind =>
      rw [parseLine, if_pos inside, if_neg cr, if_pos lf, if_pos behind]
      exact ⟨Nat.lt_succ_self i, inside⟩
  | case5 i inside temp cr lf behind =>
      rw [parseLine, if_pos inside, if_neg cr, if_pos lf, if_neg behind] at ok
      cases ok
  | case6 i inside temp cr lf ih =>
      rw [parseLine, if_pos inside, if_neg cr, if_neg lf] at ok ⊢
      exact ⟨(Nat.lt_succ_self i).trans (ih ok).1, (ih ok).2⟩
  | case7 i outside =>
      rw [parseLine, if_neg outside] at ok
      cases ok

/-- `parse_line` stays between the indices and ends a complete line with a NUL. -/
theorem parseLine_bounds (start : checkedIndex ≤ readIndex) (room : readIndex ≤ buffer.length) :
    checkedIndex ≤ (parseLine buffer checkedIndex readIndex).2.2 ∧
      (parseLine buffer checkedIndex readIndex).2.2 ≤ readIndex ∧
      (parseLine buffer checkedIndex readIndex).2.1.length = buffer.length ∧
      ((parseLine buffer checkedIndex readIndex).1 = .ok →
        Nul (parseLine buffer checkedIndex readIndex).2.1
          ((parseLine buffer checkedIndex readIndex).2.2 - 1)) := by
  induction checkedIndex using parseLine.induct buffer readIndex with
  | case1 i inside temp cr last =>
      rw [parseLine, if_pos inside, if_pos cr, if_pos last]
      exact ⟨Nat.le_refl _, start, rfl, fun ok => nomatch ok⟩
  | case2 i inside temp cr last lf =>
      rw [parseLine, if_pos inside, if_pos cr, if_neg last, if_pos lf]
      refine ⟨Nat.le_add_right i 2, ?_, by simp, fun _ => nul_set ?_⟩
      · show i + 2 ≤ readIndex
        omega
      · rw [List.length_set]
        omega
  | case3 i inside temp cr last lf =>
      rw [parseLine, if_pos inside, if_pos cr, if_neg last, if_neg lf]
      exact ⟨Nat.le_refl _, start, rfl, fun ok => nomatch ok⟩
  | case4 i inside temp cr lf behind =>
      rw [parseLine, if_pos inside, if_neg cr, if_pos lf, if_pos behind]
      refine ⟨Nat.le_succ i, inside, by simp, fun _ => nul_set ?_⟩
      rw [List.length_set]
      exact inside.trans_le room
  | case5 i inside temp cr lf behind =>
      rw [parseLine, if_pos inside, if_neg cr, if_pos lf, if_neg behind]
      exact ⟨Nat.le_refl _, start, rfl, fun ok => nomatch ok⟩
  | case6 i inside temp cr lf ih =>
      rw [parseLine, if_pos inside, if_neg cr, if_neg lf]
      obtain ⟨lower, upper, length, ok⟩ := ih inside
      exact ⟨(Nat.le_succ i).trans lower, upper, length, ok⟩
  | case7 i outside =>
      rw [parseLine, if_neg outside]
      exact ⟨Nat.le_refl _, start, rfl, fun ok => nomatch ok⟩

/-- A line that `parse_line` decided on does not see what is received later. -/
theorem parseLine_splice (chunk : List UInt8) (room : readIndex ≤ buffer.length)
    (decided : (parseLine buffer checkedIndex readIndex).1 ≠ .lineOpen) :
    parseLine (splice buffer readIndex chunk) checkedIndex (readIndex + chunk.length) =
      ((parseLine buffer checkedIndex readIndex).1,
        splice (parseLine buffer checkedIndex readIndex).2.1 readIndex chunk,
        (parseLine buffer checkedIndex readIndex).2.2) := by
  have same : ∀ i, i < readIndex → (splice buffer readIndex chunk).getD i 0 = buffer.getD i 0 :=
    fun i below => splice_getD below room
  induction checkedIndex using parseLine.induct buffer readIndex with
  | case1 i inside temp cr last =>
      rw [parseLine, if_pos inside, if_pos cr, if_pos last] at decided
      exact absurd rfl decided
  | case2 i inside temp cr last lf =>
      have inside' : i < readIndex + chunk.length := by omega
      have last' : i + 1 ≠ readIndex + chunk.length := by omega
      rw [parseLine.eq_def buffer, if_pos inside, if_pos cr, if_neg last, if_pos lf, parseLine,
        if_pos inside']
      simp only [same i inside, same (i + 1) (by omega)]
      rw [if_pos cr, if_neg last', if_pos lf, splice_set inside room, splice_set (by omega)]
      rw [List.length_set]
      exact room
  | case3 i inside temp cr last lf =>
      have inside' : i < readIndex + chunk.length := by omega
      have last' : i + 1 ≠ readIndex + chunk.length := by omega
      rw [parseLine.eq_def buffer, if_pos inside, if_pos cr, if_neg last, if_neg lf, parseLine,
        if_pos inside']
      simp only [same i inside, same (i + 1) (by omega)]
      rw [if_pos cr, if_neg last', if_neg lf]
  | case4 i inside temp cr lf behind =>
      have inside' : i < readIndex + chunk.length := by omega
      rw [parseLine.eq_def buffer, if_pos inside, if_neg cr, if_pos lf, if_pos behind, parseLine,
        if_pos inside']
      simp only [same i inside, same (i - 1) (by omega)]
      rw [if_neg cr, if_pos lf, if_pos behind, splice_set (by omega) room, splice_set inside]
      rw [List.length_set]
      exact room
  | case5 i inside temp cr lf behind =>
      have inside' : i < readIndex + chunk.length := by omega
      rw [parseLine.eq_def buffer, if_pos inside, if_neg cr, if_pos lf, if_neg behind, parseLine,
        if_pos inside']
      simp only [same i inside, same (i - 1) (by omega)]
      rw [if_neg cr, if_pos lf, if_neg behind]
  | case6 i inside temp cr lf ih =>
      have inside' : i < readIndex + chunk.length := by omega
      rw [parseLine, if_pos inside, if_neg cr, if_neg lf] at decided
      rw [parseLine.eq_def buffer, if_pos inside, if_neg cr, if_neg lf,
        parseLine.eq_def (splice buffer readIndex chunk), if_pos inside']
      simp only [same i inside]
      rw [if_neg cr, if_neg lf]
      exact ih decided
  | case7 i outside =>
      rw [parseLine, if_neg outside] at decided
      exact absurd rfl decided

/-- Where `parse_line` stops for want of bytes it can go on when more are received. -/
theorem parseLine_resume (chunk : List UInt8) (room : readIndex ≤ buffer.length)
    (isOpen : (parseLine buffer checkedIndex readIndex).1 = .lineOpen) :
    (parseLine buffer checkedIndex readIndex).2.1 = buffer ∧
      parseLine (splice buffer readIndex chunk) checkedIndex (readIndex + chunk.length) =
        parseLine (splice buffer readIndex chunk)
          (parseLine buffer checkedIndex readIndex).2.2 (readIndex + chunk.length) := by
  induction checkedIndex using parseLine.induct buffer readIndex with
  | case1 i inside temp cr last =>
      rw [parseLine.eq_def buffer, if_pos inside, if_pos cr, if_pos last]
      exact ⟨rfl, rfl⟩
  | case2 i inside temp cr last lf =>
      rw [parseLine, if_pos inside, if_pos cr, if_neg last, if_pos lf] at isOpen
      cases isOpen
  | case3 i inside temp cr last lf =>
      rw [parseLine, if_pos inside, if_pos cr, if_neg last, if_neg lf] at isOpen
      cases isOpen
  | case4 i inside temp cr lf behind =>
      rw [parseLine, if_pos inside, if_neg cr, if_pos lf, if_pos behind] at isOpen
      cases isOpen
  | case5 i inside temp cr lf behind =>
      rw [parseLine, if_pos inside, if_neg cr, if_pos lf, if_neg behind] at isOpen
      cases isOpen
  | case6 i inside temp cr lf ih =>
      have inside' : i < readIndex + chunk.length := by omega
      rw [parseLine, if_pos inside, if_neg cr, if_neg lf] at isOpen
      obtain ⟨same, rest⟩ := ih isOpen
      rw [parseLine.eq_def buffer, if_pos inside, if_neg cr, if_neg lf]
      refine ⟨same, ?_⟩
      rw [← rest, parseLine, if_pos inside']
      simp only [splice_getD inside room]
      rw [if_neg cr, if_neg lf]
  | case7 i outside =>
      rw [parseLine.eq_def buffer, if_neg outside]
      exact ⟨rfl, rfl⟩

/-! ## Complete lines -/

variable {r szTemp : Nat} {checkstate : CheckState} {name : List UInt8}

/-- `deal_url` on a finished line. -/
theorem dealUrl_splice {url : Nat} (nul : Nul buffer m) (from_ : url < m) (below : m < r)
    (room : r ≤ buffer.length) : dealUrl (splice buffer r chunk) url = dealUrl buffer url := by
  rw [dealUrl, dealUrl, cstr_splice nul from_.le below room, cstr_splice nul from_ below room]

/-- A byte that is not NUL is before the end of the string. -/
theorem lt_of_getD_ne {url : Nat} {x : UInt8} (nul : Nul buffer m) (from_ : url ≤ m)
    (here : buffer.getD url 0 = x) (nonzero : x ≠ 0) : url < m := by
  refine lt_of_le_of_ne from_ fun same => nonzero ?_
  rw [← here, same, List.getD_eq_getElem?_getD, nul]
  rfl

theorem hostless_le {szURL url : Nat} (nul : Nul buffer m) (from_ : szURL ≤ m)
    (found : hostless buffer szURL = some url) : url ≤ m := by
  rw [hostless] at found
  split at found
  · rename_i http
    have long := strncasecmp_length http
    have bound := length_cstr_le nul from_
    have seven : ((ascii "http://").take 7).length = 7 := rfl
    exact (strpbrk_lt nul (by omega) found).2.le
  · cases found
    exact from_

theorem hostless_splice {szURL : Nat} (nul : Nul buffer m) (from_ : szURL ≤ m) (below : m < r)
    (room : r ≤ buffer.length) :
    hostless (splice buffer r chunk) szURL = hostless buffer szURL := by
  rw [hostless, hostless, cstr_splice nul from_ below room]
  split
  · rename_i http
    have long := strncasecmp_length http
    have bound := length_cstr_le nul from_
    have seven : ((ascii "http://").take 7).length = 7 := rfl
    rw [strchr, strchr, strpbrk_splice nul (by omega) below room]
  · rfl

/-- `parse_requestline` on a finished line. -/
theorem parseRequestline_splice (nul : Nul buffer m) (from_ : szTemp ≤ m) (below : m < r)
    (room : r ≤ buffer.length) :
    parseRequestline (splice buffer r chunk) szTemp checkstate name =
      ((parseRequestline buffer szTemp checkstate name).1,
        splice (parseRequestline buffer szTemp checkstate name).2.1 r chunk,
        (parseRequestline buffer szTemp checkstate name).2.2) := by
  rw [parseRequestline, parseRequestline, strpbrk_splice nul from_ below room]
  rcases first : strpbrk buffer szTemp (ascii " \t") with _ | u
  · rfl
  obtain ⟨pu, um⟩ := strpbrk_lt nul from_ first
  have nul₁ : Nul (buffer.set u 0) m := nul.set
  have room₁ : r ≤ (buffer.set u 0).length := by rwa [List.length_set]
  have spaces := strspn_le (ascii " \t") nul₁ um
  simp only [splice_set (um.trans below) room, cstr_splice nul₁ from_ below room₁,
    strspn_splice nul₁ um below room₁, strpbrk_splice nul₁ spaces below room₁]
  by_cases get : strcasecmp (cstr (buffer.set u 0) szTemp) (ascii "GET")
  · rw [if_neg (not_not.mpr get), if_neg (not_not.mpr get)]
    generalize url : u + 1 + strspn (buffer.set u 0) (u + 1) (ascii " \t") = szURL at *
    rcases second : strpbrk (buffer.set u 0) szURL (ascii " \t") with _ | v
    · rfl
    obtain ⟨uv, vm⟩ := strpbrk_lt nul₁ spaces second
    have nul₂ : Nul ((buffer.set u 0).set v 0) m := nul₁.set
    have room₂ : r ≤ ((buffer.set u 0).set v 0).length := by rwa [List.length_set]
    have spaces₂ := strspn_le (ascii " \t") nul₂ vm
    simp only [splice_set (vm.trans below) room₁, strspn_splice nul₂ vm below room₂,
      cstr_splice nul₂ spaces₂ below room₂]
    generalize (buffer.set u 0).set v 0 = b at *
    by_cases version : strcasecmp (cstr b (v + 1 + strspn b (v + 1) (ascii " \t")))
        (ascii "HTTP/1.1")
    · rw [if_neg (not_not.mpr version), if_neg (not_not.mpr version),
        hostless_splice nul₂ spaces below room₂]
      rcases found : hostless b szURL with _ | w
      · rfl
      have wm := hostless_le nul₂ spaces found
      simp only [splice_getD (wm.trans_lt below) room₂]
      by_cases slash : b.getD w 0 = SLASH
      · rw [if_neg (not_not.mpr slash), if_neg (not_not.mpr slash),
          dealUrl_splice nul₂ (lt_of_getD_ne nul₂ wm slash (by decide)) below room₂]
      · rw [if_pos slash, if_pos slash]
    · rw [if_pos version, if_pos version]
  · rw [if_pos get, if_pos get]

theorem parseRequestline_length (buffer : List UInt8) (szTemp : Nat) (checkstate : CheckState)
    (name : List UInt8) :
    (parseRequestline buffer szTemp checkstate name).2.1.length = buffer.length := by
  rw [parseRequestline]
  rcases strpbrk buffer szTemp (ascii " \t") with _ | u
  · rfl
  by_cases get : ¬ strcasecmp (cstr (buffer.set u 0) szTemp) (ascii "GET")
  · simp only [if_pos get, List.length_set]
  simp only [if_neg get]
  generalize u + 1 + strspn (buffer.set u 0) (u + 1) (ascii " \t") = szURL
  rcases strpbrk (buffer.set u 0) szURL (ascii " \t") with _ | v
  · exact List.length_set
  have length : ((buffer.set u 0).set v 0).length = buffer.length := by
    rw [List.length_set, List.length_set]
  simp only
  split
  · exact length
  · split
    · exact length
    · split
      · exact length
      · exact length

/-- `parse_headers` on a finished line: the second NUL goes to the end of the
line at most. -/
theorem parseHeaders_splice (nul : Nul buffer m) (from_ : szTemp ≤ m) (below : m < r)
    (room : r ≤ buffer.length) :
    parseHeaders (splice buffer r chunk) szTemp =
      ((parseHeaders buffer szTemp).1, splice (parseHeaders buffer szTemp).2 r chunk) := by
  rw [parseHeaders, parseHeaders, strpbrk_splice nul from_ below room,
    splice_getD (from_.trans_lt below) room]
  by_cases empty : buffer.getD szTemp 0 = 0
  · rw [if_pos empty, if_pos empty]
  · rw [if_neg empty, if_neg empty]
    rcases found : strpbrk buffer szTemp (ascii ":") with _ | tmp
    · rfl
    obtain ⟨-, tm⟩ := strpbrk_lt nul from_ found
    have room₁ : r ≤ (buffer.set tmp 0).length := by rwa [List.length_set]
    simp only [splice_set (tm.trans below) room, splice_set (Nat.lt_of_le_of_lt tm below) room₁]

theorem parseHeaders_length (buffer : List UInt8) (szTemp : Nat) :
    (parseHeaders buffer szTemp).2.length = buffer.length := by
  unfold parseHeaders
  repeat' split
  all_goals simp

variable {s : Conn}

/-- `recv` of some bytes. -/
def Conn.recv (s : Conn) (chunk : List UInt8) : Conn :=
  { s with
    buffer := splice s.buffer s.readIndex chunk
    readIndex := s.readIndex + chunk.length }

/-- A finished line is handled the same whatever is received later. -/
theorem handleLine_recv (nul : Nul s.buffer m) (from_ : szTemp ≤ m) (below : m < s.readIndex)
    (room : s.readIndex ≤ s.buffer.length) :
    handleLine (s.recv chunk) szTemp =
      ((handleLine s szTemp).1, (handleLine s szTemp).2.recv chunk) := by
  obtain ⟨buffer, readIndex, checkedIndex, startLine, checkstate, retName⟩ := s
  simp only [handleLine, Conn.recv]
  cases checkstate with
  | requestline =>
      simp only [parseRequestline_splice nul from_ below room]
      split
      · rfl
      · rfl
  | header =>
      simp only [parseHeaders_splice nul from_ below room]
      split
      · rfl
      · split
        · rfl
        · rfl
  | content => rfl

/-- Handling a line leaves the indices alone. -/
theorem handleLine_frame (s : Conn) (szTemp : Nat) :
    (handleLine s szTemp).2.readIndex = s.readIndex ∧
      (handleLine s szTemp).2.checkedIndex = s.checkedIndex ∧
      (handleLine s szTemp).2.startLine = s.startLine ∧
      (handleLine s szTemp).2.buffer.length = s.buffer.length := by
  obtain ⟨buffer, readIndex, checkedIndex, startLine, checkstate, retName⟩ := s
  simp only [handleLine]
  cases checkstate with
  | requestline =>
      have length := parseRequestline_length buffer szTemp .requestline []
      simp only
      split
      · exact ⟨rfl, rfl, rfl, length⟩
      · exact ⟨rfl, rfl, rfl, length⟩
  | header =>
      have length := parseHeaders_length buffer szTemp
      simp only
      split
      · exact ⟨rfl, rfl, rfl, length⟩
      · split
        · exact ⟨rfl, rfl, rfl, length⟩
        · exact ⟨rfl, rfl, rfl, length⟩
  | content => exact ⟨rfl, rfl, rfl, rfl⟩

/-! ## `parse_content` -/

/-- `parse_content`. -/
def parseContent (s : Conn) : HttpCode × Conn :=
  let line := parseLine s.buffer s.checkedIndex s.readIndex
  let u := { s with buffer := line.2.1, checkedIndex := line.2.2 }
  if line.1 = .ok then
    let szTemp := u.startLine
    let handled := handleLine { u with startLine := u.checkedIndex } szTemp
    match handled.1 with
    | some code => (code, handled.2)
    | none => parseContent handled.2
  else if line.1 = .lineOpen then (.noRequest, u)
  else (.badRequest, u)
termination_by s.readIndex - s.checkedIndex
decreasing_by
  rename_i ok
  obtain ⟨readIndex, checkedIndex, -, -⟩ := handleLine_frame
    { s with
      buffer := (parseLine s.buffer s.checkedIndex s.readIndex).2.1
      checkedIndex := (parseLine s.buffer s.checkedIndex s.readIndex).2.2
      startLine := (parseLine s.buffer s.checkedIndex s.readIndex).2.2 }
    s.startLine
  have bounds := parseLine_ok_lt ok
  rw [readIndex, checkedIndex]
  show s.readIndex - (parseLine s.buffer s.checkedIndex s.readIndex).2.2 <
    s.readIndex - s.checkedIndex
  omega

/-- The connection after `parse_line`. -/
def Conn.scanned (s : Conn) : Conn :=
  { s with
    buffer := (parseLine s.buffer s.checkedIndex s.readIndex).2.1
    checkedIndex := (parseLine s.buffer s.checkedIndex s.readIndex).2.2 }

/-- The connection after `parse_line` completed a line and its body ran. -/
def Conn.handled (s : Conn) : Option HttpCode × Conn :=
  handleLine { s.scanned with startLine := s.scanned.checkedIndex } s.startLine

theorem parseContent_return {code : HttpCode}
    (ok : (parseLine s.buffer s.checkedIndex s.readIndex).1 = .ok)
    (returns : s.handled.1 = some code) : parseContent s = (code, s.handled.2) := by
  rw [parseContent, if_pos ok]
  show (match s.handled.1 with | some code => (code, s.handled.2) | none => _) = _
  rw [returns]

theorem parseContent_next (ok : (parseLine s.buffer s.checkedIndex s.readIndex).1 = .ok)
    (goes : s.handled.1 = none) : parseContent s = parseContent s.handled.2 := by
  rw [parseContent, if_pos ok]
  show (match s.handled.1 with | some code => _ | none => parseContent s.handled.2) = _
  rw [goes]

theorem parseContent_open (isOpen : (parseLine s.buffer s.checkedIndex s.readIndex).1 = .lineOpen) :
    parseContent s = (.noRequest, s.scanned) := by
  have notOk : (parseLine s.buffer s.checkedIndex s.readIndex).1 ≠ .ok := by simp [isOpen]
  rw [parseContent, if_neg notOk, if_pos isOpen, Conn.scanned]

theorem parseContent_bad (bad : (parseLine s.buffer s.checkedIndex s.readIndex).1 = .bad) :
    parseContent s = (.badRequest, s.scanned) := by
  have notOk : (parseLine s.buffer s.checkedIndex s.readIndex).1 ≠ .ok := by simp [bad]
  have notOpen : (parseLine s.buffer s.checkedIndex s.readIndex).1 ≠ .lineOpen := by simp [bad]
  rw [parseContent, if_neg notOk, if_neg notOpen, Conn.scanned]

/-! ## Parsing in pieces -/

/-- The indices are in order and inside the buffer. -/
structure Conn.Inv (s : Conn) : Prop where
  line : s.startLine ≤ s.checkedIndex
  checked : s.checkedIndex ≤ s.readIndex
  room : s.readIndex ≤ s.buffer.length

/-- A code that a line returns ends the parse. -/
theorem handleLine_code {code : HttpCode} (returns : (handleLine s szTemp).1 = some code) :
    code ≠ .noRequest := by
  obtain ⟨buffer, readIndex, checkedIndex, startLine, checkstate, retName⟩ := s
  rintro rfl
  simp only [handleLine] at returns
  cases checkstate with
  | requestline =>
      simp only at returns
      split at returns
      · cases returns
      · cases returns
  | header =>
      simp only at returns
      split at returns
      · cases returns
      · split at returns
        · cases returns
        · cases returns
  | content => cases returns

theorem LineStatus.ne_lineOpen {status : LineStatus} (ok : status = .ok) : status ≠ .lineOpen := by
  rw [ok]
  decide

theorem LineStatus.eq_bad {status : LineStatus} (notOk : status ≠ .ok)
    (notOpen : status ≠ .lineOpen) : status = .bad := by
  cases status with
  | ok => exact absurd rfl notOk
  | bad => rfl
  | lineOpen => exact absurd rfl notOpen

/-- What stays of a connection while it is parsed. -/
structure Conn.Kept (s t : Conn) : Prop where
  inv : t.Inv
  readIndex : t.readIndex = s.readIndex
  length : t.buffer.length = s.buffer.length

theorem Conn.Inv.scanned (inv : s.Inv) : s.Kept s.scanned := by
  obtain ⟨lower, upper, length, -⟩ := parseLine_bounds inv.checked inv.room
  refine ⟨⟨inv.line.trans lower, upper, ?_⟩, rfl, length⟩
  show s.readIndex ≤ s.scanned.buffer.length
  rw [Conn.scanned, length]
  exact inv.room

theorem Conn.Inv.handled (inv : s.Inv) : s.Kept s.handled.2 := by
  obtain ⟨scanned, sameRead, sameLength⟩ := inv.scanned
  obtain ⟨readIndex, checkedIndex, startLine, length⟩ := handleLine_frame
    { s.scanned with startLine := s.scanned.checkedIndex } s.startLine
  refine ⟨⟨?_, ?_, ?_⟩, readIndex.trans sameRead, length.trans sameLength⟩
  · exact (startLine.trans checkedIndex.symm).le
  · exact checkedIndex.le.trans (scanned.checked.trans readIndex.ge)
  · exact readIndex.le.trans (scanned.room.trans length.ge)

theorem Conn.Kept.trans {t u : Conn} (first : s.Kept t) (second : t.Kept u) : s.Kept u :=
  ⟨second.inv, second.readIndex.trans first.readIndex, second.length.trans first.length⟩

theorem Conn.Inv.parseContent (inv : s.Inv) : s.Kept (parseContent s).2 := by
  induction s using Http.parseContent.induct with
  | case1 s line u ok szTemp handled code returns =>
      rw [parseContent_return ok returns]
      exact inv.handled
  | case2 s line u ok szTemp handled goes ih =>
      rw [parseContent_next ok goes]
      exact inv.handled.trans (ih inv.handled.inv)
  | case3 s line notOk isOpen =>
      rw [parseContent_open isOpen]
      exact inv.scanned
  | case4 s line notOk notOpen =>
      rw [parseContent_bad (LineStatus.eq_bad notOk notOpen)]
      exact inv.scanned

/-- A line that was decided on is the same line when more bytes are received. -/
theorem Conn.Inv.parseLine_recv (chunk : List UInt8) (inv : s.Inv)
    (decided : (parseLine s.buffer s.checkedIndex s.readIndex).1 ≠ .lineOpen) :
    (parseLine (s.recv chunk).buffer (s.recv chunk).checkedIndex (s.recv chunk).readIndex).1 =
        (parseLine s.buffer s.checkedIndex s.readIndex).1 ∧
      (s.recv chunk).scanned = s.scanned.recv chunk := by
  have same := parseLine_splice chunk inv.room decided
  refine ⟨congrArg (·.1) same, ?_⟩
  show { s.recv chunk with
    buffer := (parseLine (splice s.buffer s.readIndex chunk) s.checkedIndex
      (s.readIndex + chunk.length)).2.1
    checkedIndex := (parseLine (splice s.buffer s.readIndex chunk) s.checkedIndex
      (s.readIndex + chunk.length)).2.2 } = s.scanned.recv chunk
  rw [same]
  rfl

/-- Handling a line and receiving more bytes commute. -/
theorem Conn.Inv.handled_recv (chunk : List UInt8) (inv : s.Inv)
    (ok : (parseLine s.buffer s.checkedIndex s.readIndex).1 = .ok) :
    (s.recv chunk).handled = (s.handled.1, s.handled.2.recv chunk) := by
  have decided : (parseLine s.buffer s.checkedIndex s.readIndex).1 ≠ .lineOpen := by simp [ok]
  obtain ⟨-, upper, length, nul⟩ := parseLine_bounds inv.checked inv.room
  have longer := (parseLine_ok_lt ok).1
  have from_ : s.startLine ≤ s.scanned.checkedIndex - 1 := by
    have := inv.line
    show s.startLine ≤ (parseLine s.buffer s.checkedIndex s.readIndex).2.2 - 1
    omega
  have below : s.scanned.checkedIndex - 1 < s.readIndex := by
    show (parseLine s.buffer s.checkedIndex s.readIndex).2.2 - 1 < s.readIndex
    omega
  rw [Conn.handled, (inv.parseLine_recv chunk decided).2]
  exact handleLine_recv (s := { s.scanned with startLine := s.scanned.checkedIndex }) (nul ok) from_
    below inv.scanned.inv.room

/-- Parsing goes by the line, the connection after it and where it started. -/
theorem parseContent_congr {t : Conn}
    (line : parseLine s.buffer s.checkedIndex s.readIndex =
      parseLine t.buffer t.checkedIndex t.readIndex)
    (scanned : s.scanned = t.scanned) (startLine : s.startLine = t.startLine) :
    parseContent s = parseContent t := by
  have handled : s.handled = t.handled := by
    rw [Conn.handled, Conn.handled, scanned, startLine]
  have status := congrArg (·.1) line
  cases found : (parseLine t.buffer t.checkedIndex t.readIndex).1 with
  | ok =>
      have found' := status.trans found
      cases result : t.handled.1 with
      | none =>
          have result' : s.handled.1 = none := by rw [handled, result]
          rw [parseContent_next found result, parseContent_next found' result', handled]
      | some code =>
          have result' : s.handled.1 = some code := by rw [handled, result]
          rw [parseContent_return found result, parseContent_return found' result', handled]
  | bad => rw [parseContent_bad found, parseContent_bad (status.trans found), scanned]
  | lineOpen => rw [parseContent_open found, parseContent_open (status.trans found), scanned]

/-- Where a connection waits for bytes, parsing goes on as if it had never stopped. -/
theorem Conn.Inv.scanned_recv (chunk : List UInt8) (inv : s.Inv)
    (isOpen : (parseLine s.buffer s.checkedIndex s.readIndex).1 = .lineOpen) :
    Http.parseContent (s.recv chunk) = Http.parseContent (s.scanned.recv chunk) := by
  obtain ⟨same, resume⟩ := parseLine_resume chunk inv.room isOpen
  have buffer : s.scanned.buffer = s.buffer := same
  have line : parseLine (s.recv chunk).buffer (s.recv chunk).checkedIndex
      (s.recv chunk).readIndex = parseLine (s.scanned.recv chunk).buffer
        (s.scanned.recv chunk).checkedIndex (s.scanned.recv chunk).readIndex := by
    show _ = parseLine (splice s.scanned.buffer s.readIndex chunk) s.scanned.checkedIndex _
    rw [buffer]
    exact resume
  refine parseContent_congr line ?_ rfl
  rw [Conn.scanned, line]
  rfl

/-- Parsing twice is parsing once. -/
theorem parseContent_recv (chunk : List UInt8) (inv : s.Inv) :
    ((parseContent s).1 = .noRequest →
      parseContent (s.recv chunk) = parseContent ((parseContent s).2.recv chunk)) ∧
    ((parseContent s).1 ≠ .noRequest →
      parseContent (s.recv chunk) = ((parseContent s).1, (parseContent s).2.recv chunk)) := by
  induction s using parseContent.induct with
  | case1 s line u ok szTemp handled code returns =>
      have ok' := (inv.parseLine_recv chunk (LineStatus.ne_lineOpen ok)).1.trans ok
      have same := inv.handled_recv chunk ok
      have returns' : (s.recv chunk).handled.1 = some code := by
        rw [same]
        exact returns
      rw [parseContent_return ok returns, parseContent_return ok' returns', same]
      exact ⟨fun goes => absurd goes (handleLine_code returns), fun _ => rfl⟩
  | case2 s line u ok szTemp handled goes ih =>
      have ok' := (inv.parseLine_recv chunk (LineStatus.ne_lineOpen ok)).1.trans ok
      have same := inv.handled_recv chunk ok
      have goes' : (s.recv chunk).handled.1 = none := by
        rw [same]
        exact goes
      rw [parseContent_next ok goes, parseContent_next ok' goes', same]
      exact ih inv.handled.inv
  | case3 s line notOk isOpen =>
      rw [parseContent_open isOpen]
      exact ⟨fun _ => inv.scanned_recv chunk isOpen, fun code => absurd rfl code⟩
  | case4 s line notOk notOpen =>
      have bad := LineStatus.eq_bad notOk notOpen
      obtain ⟨status, scanned⟩ :=
        inv.parseLine_recv chunk (show _ ≠ LineStatus.lineOpen from notOpen)
      rw [parseContent_bad bad, parseContent_bad (status.trans bad), scanned]
      exact ⟨fun code => (nomatch code), fun _ => rfl⟩

/-! ## Connections -/

/-- The loop of `main` on a connection whose bytes arrive in `chunks`: undefined
if they do not fit into the buffer, and `NO_REQUEST` at the end of the stream. -/
def receive (s : Conn) : List (List UInt8) → Option (HttpCode × Conn)
  | [] => some (.noRequest, s)
  | chunk :: chunks =>
      if chunk.length ≤ BUFFER_SIZE - s.readIndex then
        let parsed := parseContent (s.recv chunk)
        if parsed.1 = .noRequest then receive parsed.2 chunks
        else some parsed
      else none

theorem Conn.recv_recv {t : List UInt8} (fits : s.readIndex + chunk.length ≤ s.buffer.length) :
    (s.recv chunk).recv t = s.recv (chunk ++ t) := by
  simp only [Conn.recv, splice_splice fits, List.length_append, Nat.add_assoc]

theorem Conn.recv_nil : s.recv [] = s := by
  simp only [Conn.recv, splice_nil, List.length_nil, Nat.add_zero]

theorem Conn.Inv.recv (inv : s.Inv) (fits : s.readIndex + chunk.length ≤ s.buffer.length) :
    (s.recv chunk).Inv where
  line := inv.line
  checked := inv.checked.trans (Nat.le_add_right _ _)
  room := by
    show s.readIndex + chunk.length ≤ (splice s.buffer s.readIndex chunk).length
    rw [length_splice fits]
    exact fits

/-- On a connection that waits for bytes, receiving in pieces comes to the same
code and file name as receiving everything at once. -/
theorem receive_spec (chunks : List (List UInt8)) (inv : s.Inv)
    (length : s.buffer.length = BUFFER_SIZE) (waits : parseContent s = (.noRequest, s))
    (fits : s.readIndex + chunks.flatten.length ≤ BUFFER_SIZE) :
    ∃ r, receive s chunks = some r ∧ r.1 = (parseContent (s.recv chunks.flatten)).1 ∧
      r.2.retName = (parseContent (s.recv chunks.flatten)).2.retName := by
  induction chunks generalizing s with
  | nil =>
      refine ⟨_, rfl, ?_, ?_⟩
      · rw [List.flatten_nil, Conn.recv_nil, waits]
      · rw [List.flatten_nil, Conn.recv_nil, waits]
  | cons chunk chunks ih =>
      rw [List.flatten_cons, List.length_append] at fits
      have room : s.readIndex + chunk.length ≤ s.buffer.length := by omega
      have room' : chunk.length ≤ BUFFER_SIZE - s.readIndex := by omega
      have inv' := inv.recv room
      obtain ⟨kept, read, size⟩ := inv'.parseContent
      have length' : (parseContent (s.recv chunk)).2.buffer.length = BUFFER_SIZE := by
        rw [size]
        exact (length_splice room).trans length
      rw [receive, if_pos room', List.flatten_cons, ← Conn.recv_recv room]
      obtain ⟨again, done⟩ := parseContent_recv chunks.flatten inv'
      by_cases goes : (parseContent (s.recv chunk)).1 = .noRequest
      · have waits' : parseContent (parseContent (s.recv chunk)).2 =
            (.noRequest, (parseContent (s.recv chunk)).2) := by
          have twice := (parseContent_recv [] inv').1 goes
          rw [Conn.recv_nil, Conn.recv_nil] at twice
          rw [← twice, ← goes]
        have fits' : (parseContent (s.recv chunk)).2.readIndex + chunks.flatten.length ≤
            BUFFER_SIZE := by
          rw [read]
          show s.readIndex + chunk.length + _ ≤ _
          omega
        rw [again goes]
        simp only [if_pos goes]
        exact ih kept length' waits' fits'
      · rw [done goes]
        simp only [if_neg goes]
        exact ⟨_, rfl, rfl, rfl⟩

theorem inv_init : Conn.init.Inv := ⟨Nat.le_refl _, Nat.le_refl _, Nat.zero_le _⟩

/-- A connection whose bytes are all looked at waits for more. -/
theorem parseContent_waits (atEnd : s.checkedIndex = s.readIndex) :
    parseContent s = (.noRequest, s) := by
  have isOpen : parseLine s.buffer s.checkedIndex s.readIndex =
      (.lineOpen, s.buffer, s.checkedIndex) := by
    have empty : ¬ s.checkedIndex < s.readIndex := by
      rw [atEnd]
      exact Nat.lt_irrefl _
    rw [parseLine, if_neg empty]
  rw [parseContent_open (congrArg (·.1) isOpen), Conn.scanned, isOpen]

/-- However a stream of bytes is split into chunks, the connection ends with
the same code and the same file name. -/
theorem receive_chunks (stream : List UInt8) (chunks chunks' : List (List UInt8))
    (fits : stream.length ≤ BUFFER_SIZE) (split : chunks.flatten = stream)
    (split' : chunks'.flatten = stream) :
    ∃ r r', receive Conn.init chunks = some r ∧ receive Conn.init chunks' = some r' ∧
      r.1 = r'.1 ∧ r.2.retName = r'.2.retName := by
  have inv := inv_init
  have length : Conn.init.buffer.length = BUFFER_SIZE := List.length_replicate
  have waits : parseContent Conn.init = (.noRequest, Conn.init) := parseContent_waits rfl
  have bound : Conn.init.readIndex + stream.length ≤ BUFFER_SIZE := by
    rw [Conn.init, Nat.zero_add]
    exact fits
  obtain ⟨r, ran, code, name⟩ := receive_spec chunks inv length waits (split ▸ bound)
  obtain ⟨r', ran', code', name'⟩ := receive_spec chunks' inv length waits (split' ▸ bound)
  rw [split] at code name
  rw [split'] at code' name'
  exact ⟨r, r', ran, ran', code.trans code'.symm, name.trans name'.symm⟩

/-- A request line cut between CR and LF. -/
theorem receive_chunks_cutCrlf :
    ∃ r r', receive Conn.init [ascii "GET /a HTTP/1.1" ++ [CR], [LF]] = some r ∧
      receive Conn.init [ascii "GET /a HTTP/1.1" ++ [CR, LF]] = some r' ∧
      r.1 = r'.1 ∧ r.2.retName = r'.2.retName :=
  receive_chunks (ascii "GET /a HTTP/1.1" ++ [CR, LF]) _ _ (by decide) (by decide) (by decide)

end Shang.Http
