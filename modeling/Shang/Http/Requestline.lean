import Shang.Http.Parser

/-!
# The grammar of request lines

`parse_requestline` cuts the line into three parts as it goes, with a NUL at the first
blank of each gap. What it accepts is a grammar, and the file name is a function of the
path in the line.
-/

namespace Shang.Http

open Shang.Lib

/-- The space and the tab. -/
def blanks : List UInt8 := ascii " \t"

/-- The path of a URL: all of it, or what is behind the host. -/
def PathOf (url path : List UInt8) : Prop :=
  path.head? = some SLASH ∧ (url = path ∨ ∃ scheme host, url = scheme ++ (host ++ path) ∧
    strcasecmp scheme (ascii "http://") = true ∧ SLASH ∉ host)

/-- A gap between the parts of a line. -/
def Gap (w : List UInt8) : Prop := w ≠ [] ∧ ∀ x ∈ w, x ∈ blanks

/-- The method, a URL with this path, and the version. -/
def Requestline (line path : List UInt8) : Prop :=
  ∃ method gap url gap' version, line = method ++ (gap ++ (url ++ (gap' ++ version))) ∧
    strcasecmp method (ascii "GET") = true ∧ Gap gap ∧
    url ≠ [] ∧ (∀ x ∈ url, x ∉ blanks) ∧ PathOf url path ∧ Gap gap' ∧
    strcasecmp version (ascii "HTTP/1.1") = true

/-- The name of the file for a path. -/
def fileName (path : List UInt8) : List UInt8 :=
  if path = ascii "/" then ascii "index.html" else path.drop 1

variable {before behind line url path buffer name : List UInt8} {p : Nat}
  {checkstate : CheckState}

/-! ## The path -/

theorem dealUrl_eq {rest : List UInt8} (start : cstr buffer p = SLASH :: rest) :
    dealUrl buffer p = fileName (SLASH :: rest) := by
  have next : cstr buffer (p + 1) = rest := cstr_add (s := [SLASH]) start
  rw [dealUrl, fileName, start, next, ite_not]
  rfl

theorem not_scheme (rest : List UInt8) :
    ¬ strncasecmp (SLASH :: rest) (ascii "http://") 7 = true := by
  intro equal
  have first := congrArg List.head? (eq_of_beq equal)
  rw [List.take_succ_cons, List.map_cons, List.head?_cons] at first
  cases first

/-- The pointer to the path, if the URL has one. -/
theorem hostless_eq {rest : List UInt8} (start : cstr buffer p = url)
    (of : PathOf url (SLASH :: rest)) :
    ∃ q, hostless buffer p = some q ∧ cstr buffer q = SLASH :: rest := by
  obtain ⟨-, rfl | ⟨scheme, host, rfl, isScheme, noSlash⟩⟩ := of
  · refine ⟨p, ?_, start⟩
    rw [hostless, start, if_neg (not_scheme rest)]
  · have seven : scheme.length = 7 := length_of_strcasecmp isScheme
    have isScheme' : strncasecmp (scheme ++ (host ++ SLASH :: rest)) (ascii "http://") 7 =
        true := by
      rw [strncasecmp, List.take_left' seven]
      exact isScheme
    have behind : cstr buffer (p + 7) = host ++ SLASH :: rest := seven ▸ cstr_add start
    have none_ : ∀ x ∈ host, x ∉ [SLASH] := fun x mem same =>
      noSlash (List.mem_singleton.mp same ▸ mem)
    refine ⟨p + 7 + host.length, ?_, cstr_add behind⟩
    rw [hostless, start, if_pos isScheme', strchr,
      strpbrk_of_first behind none_ (List.mem_singleton_self SLASH)]

/-- Without a path there is no such pointer, or it is at another byte. -/
theorem hostless_none (start : cstr buffer p = url) (some_ : url ≠ [])
    (none_ : ∀ path, ¬ PathOf url path) :
    hostless buffer p = none ∨ ∃ q, hostless buffer p = some q ∧ buffer.getD q 0 ≠ SLASH := by
  rw [hostless, start]
  by_cases isScheme : strncasecmp url (ascii "http://") 7 = true
  · left
    have seven : 7 ≤ url.length := strncasecmp_length isScheme
    have front : (url.take 7).length = 7 := by rw [List.length_take, Nat.min_eq_left seven]
    have parts : url = url.take 7 ++ url.drop 7 := (List.take_append_drop 7 url).symm
    have behind : cstr buffer (p + 7) = url.drop 7 := by
      have next := cstr_add (start.trans parts)
      rwa [front] at next
    rw [if_pos isScheme, strchr]
    apply strpbrk_of_none behind
    intro x mem same
    obtain rfl := List.mem_singleton.mp same
    rcases exists_first [SLASH] (url.drop 7) with noSlash | ⟨host, x, rest, split, noSlash, first⟩
    · exact noSlash SLASH mem same
    · obtain rfl := List.mem_singleton.mp first
      refine none_ (SLASH :: rest) ⟨rfl, .inr ⟨url.take 7, host, ?_, isScheme, ?_⟩⟩
      · rw [← split, ← parts]
      · exact fun mem => noSlash SLASH mem (List.mem_singleton_self SLASH)
  · refine .inr ⟨p, if_neg isScheme, ?_⟩
    cases url with
    | nil => exact absurd rfl some_
    | cons x rest =>
        rw [getD_of_cstr start]
        rintro rfl
        exact none_ (SLASH :: rest) ⟨rfl, .inl rfl⟩

/-! ## The line -/

/-- The line is accepted, with this path. -/
def Accepts (r : HttpCode × List UInt8 × CheckState × List UInt8) (path : List UInt8) : Prop :=
  r.1 = .noRequest ∧ r.2.2 = (.header, fileName path)

/-- The line is refused, and nothing else happens. -/
def Refuses (r : HttpCode × List UInt8 × CheckState × List UInt8) (checkstate : CheckState)
    (name : List UInt8) : Prop :=
  r.1 = .badRequest ∧ r.2.2 = (checkstate, name)

/-- The part of `parse_requestline` behind the cut that ends the URL. -/
def parseVersion (buffer : List UInt8) (szURL szVersion : Nat) (checkstate : CheckState)
    (name : List UInt8) : HttpCode × List UInt8 × CheckState × List UInt8 :=
  let szVersion := szVersion + strspn buffer szVersion blanks
  if ¬ strcasecmp (cstr buffer szVersion) (ascii "HTTP/1.1") then
    (.badRequest, buffer, checkstate, name)
  else
    match hostless buffer szURL with
    | none => (.badRequest, buffer, checkstate, name)
    | some szURL =>
        if buffer.getD szURL 0 ≠ SLASH then (.badRequest, buffer, checkstate, name)
        else (.noRequest, buffer, .header, dealUrl buffer szURL)

/-- The part of `parse_requestline` behind the cut that ends the method. -/
def parseUrl (buffer : List UInt8) (szURL : Nat) (checkstate : CheckState)
    (name : List UInt8) : HttpCode × List UInt8 × CheckState × List UInt8 :=
  let szURL := szURL + strspn buffer szURL blanks
  match strpbrk buffer szURL blanks with
  | none => (.badRequest, buffer, checkstate, name)
  | some szVersion => parseVersion (buffer.set szVersion 0) szURL (szVersion + 1) checkstate name

variable {method gap gap' rest tail version : List UInt8} {c d : UInt8} {szURL szTemp : Nat}

theorem parseRequestline_eq : parseRequestline buffer szTemp checkstate name =
    match strpbrk buffer szTemp blanks with
    | none => (.badRequest, buffer, checkstate, name)
    | some szURL =>
        if ¬ strcasecmp (cstr (buffer.set szURL 0) szTemp) (ascii "GET") then
          (.badRequest, buffer.set szURL 0, checkstate, name)
        else parseUrl (buffer.set szURL 0) (szURL + 1) checkstate name :=
  rfl

/-- The line is cut behind the method. -/
theorem parseRequestline_method (text : 0 ∉ method ++ c :: rest)
    (none_ : ∀ x ∈ method, x ∉ blanks) (first : c ∈ blanks) :
    parseRequestline (before ++ ((method ++ c :: rest) ++ 0 :: behind)) before.length checkstate
        name =
      let buffer := before ++ (method ++ 0 :: (rest ++ 0 :: behind))
      if ¬ strcasecmp method (ascii "GET") then (.badRequest, buffer, checkstate, name)
      else parseUrl buffer (before.length + method.length + 1) checkstate name := by
  have found := strpbrk_of_first (cstr_append (a := before) (c := behind) text) none_ first
  have assoc : (method ++ c :: rest) ++ 0 :: behind = method ++ c :: (rest ++ 0 :: behind) := by
    rw [List.append_assoc, List.cons_append]
  have textM : 0 ∉ method := fun mem => text (List.mem_append_left _ mem)
  rw [parseRequestline_eq, found]
  dsimp only
  rw [assoc, set_append, cstr_append textM]

/-- The line is cut behind the URL. -/
theorem parseUrl_url (start : cstr buffer p = gap ++ (url ++ d :: tail))
    (gap_ : ∀ x ∈ gap, x ∈ blanks) (url_ : ∀ x ∈ url, x ∉ blanks) (some_ : url ≠ [])
    (first : d ∈ blanks) : parseUrl buffer p checkstate name =
      parseVersion (buffer.set (p + gap.length + url.length) 0) (p + gap.length)
        (p + gap.length + url.length + 1) checkstate name := by
  have stop : ∀ x ∈ (url ++ d :: tail).head?, x ∉ blanks := by
    cases url with
    | nil => exact absurd rfl some_
    | cons x url =>
        intro y same
        rw [← Option.some.inj same]
        exact url_ x List.mem_cons_self
  rw [parseUrl, strspn_of_append start gap_ stop]
  rw [strpbrk_of_first (cstr_add start) url_ first]

/-- Nothing is behind the URL. -/
theorem parseUrl_refuses (start : cstr buffer p = gap ++ url) (gap_ : ∀ x ∈ gap, x ∈ blanks)
    (url_ : ∀ x ∈ url, x ∉ blanks) :
    Refuses (parseUrl buffer p checkstate name) checkstate name := by
  have stop : ∀ x ∈ url.head?, x ∉ blanks := fun x mem => url_ x (List.mem_of_mem_head? mem)
  rw [parseUrl, strspn_of_append start gap_ stop]
  rw [strpbrk_of_none (cstr_add start) url_]
  exact ⟨rfl, rfl⟩

theorem parseVersion_eq (start : cstr buffer p = gap ++ version)
    (gap_ : ∀ x ∈ gap, x ∈ blanks) (stop : ∀ x ∈ version.head?, x ∉ blanks) :
    parseVersion buffer szURL p checkstate name =
      if ¬ strcasecmp version (ascii "HTTP/1.1") then (.badRequest, buffer, checkstate, name)
      else match hostless buffer szURL with
        | none => (.badRequest, buffer, checkstate, name)
        | some szURL =>
            if buffer.getD szURL 0 ≠ SLASH then (.badRequest, buffer, checkstate, name)
            else (.noRequest, buffer, .header, dealUrl buffer szURL) := by
  rw [parseVersion, strspn_of_append start gap_ stop, cstr_add start]

theorem parseVersion_accepts (startU : cstr buffer szURL = url)
    (start : cstr buffer p = gap ++ version) (gap_ : ∀ x ∈ gap, x ∈ blanks)
    (stop : ∀ x ∈ version.head?, x ∉ blanks)
    (isVersion : strcasecmp version (ascii "HTTP/1.1") = true) (of : PathOf url path) :
    Accepts (parseVersion buffer szURL p checkstate name) path := by
  cases path with
  | nil => cases of.1
  | cons x rest =>
      obtain rfl : x = SLASH := Option.some.inj of.1
      obtain ⟨q, found, there⟩ := hostless_eq startU of
      rw [parseVersion_eq start gap_ stop, if_neg (not_not_intro isVersion), found]
      dsimp only
      rw [if_neg (not_not_intro (getD_of_cstr there)), dealUrl_eq there]
      exact ⟨rfl, rfl⟩

theorem parseVersion_refuses (startU : cstr buffer szURL = url) (some_ : url ≠ [])
    (start : cstr buffer p = gap ++ version) (gap_ : ∀ x ∈ gap, x ∈ blanks)
    (stop : ∀ x ∈ version.head?, x ∉ blanks)
    (wrong : strcasecmp version (ascii "HTTP/1.1") = true → ∀ path, ¬ PathOf url path) :
    Refuses (parseVersion buffer szURL p checkstate name) checkstate name := by
  rw [parseVersion_eq start gap_ stop]
  by_cases isVersion : strcasecmp version (ascii "HTTP/1.1") = true
  · rw [if_neg (not_not_intro isVersion)]
    rcases hostless_none startU some_ (wrong isVersion) with none_ | ⟨q, found, other⟩
    · rw [none_]
      exact ⟨rfl, rfl⟩
    · rw [found]
      dsimp only
      rw [if_pos other]
      exact ⟨rfl, rfl⟩
  · rw [if_pos isVersion]
    exact ⟨rfl, rfl⟩

/-! ## The grammar -/

/-- The line between other bytes, with the method, a blank and the rest. -/
theorem cstr_behind (before method behind : List UInt8) (text : 0 ∉ rest) :
    cstr (before ++ (method ++ 0 :: (rest ++ 0 :: behind))) (before.length + method.length + 1) =
      rest := by
  have shape : before ++ (method ++ 0 :: (rest ++ 0 :: behind)) =
      (before ++ (method ++ [0])) ++ (rest ++ 0 :: behind) := by simp
  have size : before.length + method.length + 1 = (before ++ (method ++ [0])).length := by
    simp [Nat.add_assoc]
  rw [shape, size, cstr_append text]

/-- Where the line has a URL and something behind it, only the version and the URL decide. -/
theorem parseUrl_parts (before method behind : List UInt8) (checkstate : CheckState)
    (name : List UInt8) (text : 0 ∉ gap ++ (url ++ d :: tail)) (gap_ : ∀ x ∈ gap, x ∈ blanks)
    (url_ : ∀ x ∈ url, x ∉ blanks) (some_ : url ≠ []) (first : d ∈ blanks) :
    ∃ buffer' szURL szVersion, cstr buffer' szURL = url ∧ cstr buffer' szVersion = tail ∧
      parseUrl (before ++ (method ++ 0 :: ((gap ++ (url ++ d :: tail)) ++ 0 :: behind)))
          (before.length + method.length + 1) checkstate name =
        parseVersion buffer' szURL szVersion checkstate name := by
  have start := cstr_behind before method behind text
  have shape : before ++ (method ++ 0 :: ((gap ++ (url ++ d :: tail)) ++ 0 :: behind)) =
      (before ++ (method ++ 0 :: gap)) ++ (url ++ d :: (tail ++ 0 :: behind)) := by simp
  have size : before.length + method.length + 1 + gap.length =
      (before ++ (method ++ 0 :: gap)).length := by
    simp only [List.length_append, List.length_cons]
    omega
  rw [parseUrl_url start gap_ url_ some_ first, size, shape, set_append]
  refine ⟨_, _, _, cstr_append ?_, cstr_behind _ _ _ ?_, rfl⟩
  · intro mem
    exact text (by simp [mem])
  · intro mem
    exact text (by simp [mem])

theorem not_blank {s t : List UInt8} (equal : strcasecmp s t = true)
    (none_ : ∀ x ∈ blanks, tolower x ∉ t.map tolower) : ∀ x ∈ s, x ∉ blanks :=
  fun x mem blank => none_ x blank (tolower_mem equal mem)

/-- A line of the grammar is accepted. -/
theorem Requestline.accepts (of : Requestline line path) (text : 0 ∉ line)
    (before behind : List UInt8) (checkstate : CheckState) (name : List UInt8) :
    Accepts (parseRequestline (before ++ (line ++ 0 :: behind)) before.length checkstate name)
      path := by
  obtain ⟨method, gap, url, gap', version, rfl, isGet, ⟨some_, gap_⟩, someU, url_, ofU,
    ⟨some_', gap'_⟩, isVersion⟩ := of
  cases gap with
  | nil => exact absurd rfl some_
  | cons c gap =>
      cases gap' with
      | nil => exact absurd rfl some_'
      | cons d gap' =>
          rw [List.cons_append, List.cons_append] at text ⊢
          obtain ⟨first, gap_⟩ := List.forall_mem_cons.mp gap_
          obtain ⟨first', gap'_⟩ := List.forall_mem_cons.mp gap'_
          have method_ : ∀ x ∈ method, x ∉ blanks := not_blank isGet (by decide +kernel)
          have version_ : ∀ x ∈ version, x ∉ blanks := not_blank isVersion (by decide +kernel)
          have textR : 0 ∉ gap ++ (url ++ d :: (gap' ++ version)) := fun mem =>
            text (List.mem_append_right _ (List.mem_cons_of_mem _ mem))
          obtain ⟨buffer', szURL, szVersion, startU, start, same⟩ :=
            parseUrl_parts before method behind checkstate name textR gap_ url_ someU first'
          rw [parseRequestline_method text method_ first]
          dsimp only
          rw [if_neg (not_not_intro isGet), same]
          exact parseVersion_accepts startU start gap'_
            (fun x mem => version_ x (List.mem_of_mem_head? mem)) isVersion ofU

/-- A line that is not refused is one of the grammar. -/
theorem refuses_or (before behind : List UInt8) (checkstate : CheckState) (name : List UInt8)
    (text : 0 ∉ line) :
    Refuses (parseRequestline (before ++ (line ++ 0 :: behind)) before.length checkstate name)
        checkstate name ∨ ∃ path, Requestline line path := by
  rcases exists_first blanks line with none_ | ⟨method, c, rest, rfl, method_, first⟩
  · left
    rw [parseRequestline_eq, strpbrk_of_none (cstr_append text) none_]
    exact ⟨rfl, rfl⟩
  rw [parseRequestline_method text method_ first]
  dsimp only
  by_cases isGet : strcasecmp method (ascii "GET") = true
  case neg =>
    rw [if_pos isGet]
    exact .inl ⟨rfl, rfl⟩
  rw [if_neg (not_not_intro isGet)]
  have textR : 0 ∉ rest := fun mem => text (List.mem_append_right _ (List.mem_cons_of_mem _ mem))
  obtain ⟨gap, rest, rfl, gap_, stop⟩ := exists_span blanks rest
  rcases exists_first blanks rest with none_ | ⟨url, d, tail, rfl, url_, first'⟩
  · exact .inl (parseUrl_refuses (cstr_behind before method behind textR) gap_ none_)
  have someU : url ≠ [] := by
    rintro rfl
    exact stop d rfl first'
  obtain ⟨buffer', szURL, szVersion, startU, start, same⟩ :=
    parseUrl_parts before method behind checkstate name textR gap_ url_ someU first'
  obtain ⟨gap', version, rfl, gap'_, stop'⟩ := exists_span blanks tail
  by_cases of : strcasecmp version (ascii "HTTP/1.1") = true ∧ ∃ path, PathOf url path
  · obtain ⟨isVersion, path, of⟩ := of
    refine .inr ⟨path, method, c :: gap, url, d :: gap', version, rfl, isGet, ?_, someU, url_, of,
      ?_, isVersion⟩
    · exact ⟨List.cons_ne_nil c gap, List.forall_mem_cons.mpr ⟨first, gap_⟩⟩
    · exact ⟨List.cons_ne_nil d gap', List.forall_mem_cons.mpr ⟨first', gap'_⟩⟩
  · left
    rw [same]
    apply parseVersion_refuses startU someU start gap'_ stop'
    exact fun isVersion path ofU => of ⟨isVersion, path, ofU⟩

/-- **Request lines.** The lines of the grammar are accepted, with the file for their path, and no
others. -/
theorem parseRequestline_answers (text : 0 ∉ line) (before behind : List UInt8)
    (checkstate : CheckState) (name : List UInt8) :
    let r := parseRequestline (before ++ (line ++ 0 :: behind)) before.length checkstate name
    (r.1 = .noRequest ↔ ∃ path, Requestline line path) ∧
      (∀ path, Requestline line path → r.2.2 = (.header, fileName path)) ∧
      ((∀ path, ¬ Requestline line path) → r.1 = .badRequest ∧ r.2.2 = (checkstate, name)) := by
  have either := refuses_or before behind checkstate name text
  refine ⟨⟨fun code => ?_, fun ⟨path, of⟩ => (of.accepts text _ _ _ _).1⟩,
    fun path of => (of.accepts text _ _ _ _).2, fun none_ => ?_⟩
  · rcases either with refused | of
    · cases code.symm.trans refused.1
    · exact of
  · rcases either with refused | ⟨path, of⟩
    · exact refused
    · exact absurd of (none_ path)

/-- An absolute URL, and blanks of both kinds. -/
theorem parseRequestline_answers_absolute :
    let line := ascii "get \t HTTP://host/a/b  http/1.1"
    let r := parseRequestline (ascii "x" ++ (line ++ 0 :: [])) 1 .requestline []
    (r.1 = .noRequest ↔ ∃ path, Requestline line path) ∧
      (∀ path, Requestline line path → r.2.2 = (.header, fileName path)) ∧
      ((∀ path, ¬ Requestline line path) → r.1 = .badRequest ∧ r.2.2 = (.requestline, [])) :=
  parseRequestline_answers (by decide) (ascii "x") [] .requestline []

end Shang.Http
