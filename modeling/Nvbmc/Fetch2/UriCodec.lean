import Nvbmc.Fetch2.Uri

/-!
# Reading what was written

What is written for an object that is well formed is read as the same object.
-/

namespace Nvbmc.Fetch2

open Nvbmc.Library

/-- A character that a network location may have. -/
structure InNetloc (lib : Urllib) (char : Char) : Prop where
  inside : ofNetloc char
  noSemicolon : char ≠ ';'
  noBreak : char ∉ breaks
  notRefused : lib.refused char = false

/-- User name and password without an empty password. -/
def rejoin (info : Text) : Text :=
  (partition ':' info).1 ++
    match (partition ':' info).2 with
    | none => []
    | some password => if password = [] then [] else ':' :: password

/-- The fields of a network location that is found again. -/
structure Location (lib : Urllib) (info host : Text) (number : Option ℕ) :
    Prop where
  userinfo : ∀ char ∈ info, InNetloc lib char
  hostname : ∀ char ∈ host, InNetloc lib char ∧ char ∉ ['@', ':', '[', ']']
  rejoined : rejoin info = info
  lowered : host ≠ [] → lib.lowered host = host
  balanced : '[' ∈ info ↔ ']' ∈ info
  port : ∀ value, number = some value → value ≠ 0 ∧ value ≤ 65535

structure Uri.WellFormed (lib : Urllib) (uri : Uri) : Prop where
  scheme : IsScheme uri.scheme
  location : Location lib uri.userinfo uri.hostname uri.port
  relative : uri.relative = (uri.path ≠ [] && uri.path.head? ≠ some '/')
  noNetloc : uri.relative ∨ uri.scheme = file →
    uri.userinfo = [] ∧ uri.hostname = [] ∧ uri.port = none
  params : Joinable ';' uri.params
  query : Joinable '&' uri.query
  inQuery : ∀ char ∈ joinItems '&' uri.query, char ≠ '#' ∧ char ≠ ';' ∧
    char ∉ breaks
  kept : uri.scheme = file → uri.path ≠ [] →
    dropSlashes uri.queryStr = uri.queryStr

/-- User name, password, host and port as they are written. -/
def Uri.netloc (uri : Uri) : Text :=
  (if uri.userinfo = [] then [] else uri.userinfo ++ ['@']) ++ uri.hostport

theorem joinUserinfo_eq (netloc : Text) :
    joinUserinfo netloc = ((userinfo? netloc).map rejoin).getD [] := by
  rw [joinUserinfo, username?, password?]
  cases userinfo? netloc with
  | none => rfl
  | some info => rfl

section Characters

variable {lib : Urllib} {char : Char}

theorem isDigit_toNat (isDigit : char.isDigit) :
    48 ≤ char.toNat ∧ char.toNat ≤ 57 := by
  simp only [Char.isDigit, Bool.and_eq_true, decide_eq_true_eq] at isDigit
  exact isDigit

theorem ne_of_isDigit (isDigit : char.isDigit) {other : Char}
    (notDigit : other.isDigit = false) : char ≠ other := by
  rintro rfl
  rw [isDigit] at notDigit
  cases notDigit

theorem inNetloc_digit (isDigit : char.isDigit) : InNetloc lib char := by
  have different := fun {other} => @ne_of_isDigit char isDigit other
  constructor
  · simp [ofNetloc, different]
  · exact different (by decide)
  · simp [breaks, different]
  · exact lib.not_refused (by have := isDigit_toNat isDigit; omega)

theorem inNetloc_at : InNetloc lib '@' :=
  ⟨by decide, by decide, by decide, lib.not_refused (by decide)⟩

theorem inNetloc_colon : InNetloc lib ':' :=
  ⟨by decide, by decide, by decide, lib.not_refused (by decide)⟩

theorem quote_plain {path : Text} (member : char ∈ lib.quote path)
    {other : Char}
    (special : isSafe other = false) (notPercent : other ≠ '%') :
    char ≠ other := by
  rintro rfl
  rcases lib.mem_quote member with safe | percent
  · rw [safe] at special
    cases special
  · exact notPercent percent

theorem colon_not_mem_quote (lib : Urllib) (path : Text) :
    ':' ∉ lib.quote path :=
  fun member => quote_plain member (by decide) (by decide) rfl

theorem quote_not_refused {path : Text} (member : char ∈ lib.quote path) :
    lib.refused char = false := by
  apply lib.not_refused
  rcases lib.mem_quote member with safe | rfl
  · exact ascii_of_isSafe safe
  · decide

theorem head_quote (lib : Urllib) (path : Text) :
    (lib.quote path).head? = some '/' ↔ path.head? = some '/' := by
  constructor
  · intro slash
    obtain ⟨rest, quoted⟩ := List.head?_eq_some_iff.mp slash
    have same := lib.unquote_quote path
    rw [quoted, lib.unquote_slash] at same
    rw [← same]
    rfl
  · intro slash
    obtain ⟨rest, rfl⟩ := List.head?_eq_some_iff.mp slash
    rw [lib.quote_slash]
    rfl

theorem unquote_nil (lib : Urllib) : lib.unquote [] = [] := by
  have same := lib.unquote_quote []
  rwa [lib.quote_nil] at same

theorem quote_eq_nil (lib : Urllib) (path : Text) :
    lib.quote path = [] ↔ path = [] := by
  constructor
  · intro empty
    rw [← lib.unquote_quote path, empty, unquote_nil]
  · rintro rfl
    exact lib.quote_nil

end Characters

namespace Uri.WellFormed

variable {lib : Urllib} {uri : Uri} (wellFormed : uri.WellFormed lib)

include wellFormed

theorem hostport_cases : (uri.port = none ∧ uri.hostport = uri.hostname) ∨
    ∃ port, uri.port = some port ∧ port ≤ 65535 ∧
      uri.hostport = uri.hostname ++ ':' :: Nat.toDigits 10 port := by
  cases isPort : uri.port with
  | none => exact .inl ⟨rfl, by rw [Uri.hostport, isPort]⟩
  | some port =>
      obtain ⟨positive, small⟩ := wellFormed.location.port port isPort
      exact .inr ⟨port, rfl,
        small, by rw [Uri.hostport, isPort]; exact if_neg positive⟩

theorem mem_hostport {char : Char} (member : char ∈ uri.hostport) :
    InNetloc lib char ∧ char ∉ ['@', '[', ']'] := by
  have inHost : char ∈ uri.hostname → InNetloc lib char ∧
      char ∉ ['@', '[', ']'] := by
    intro member
    obtain ⟨inNetloc, others⟩ := wellFormed.location.hostname char member
    simp only [List.mem_cons, List.not_mem_nil, or_false, not_or] at others ⊢
    exact ⟨inNetloc, others.1, others.2.2⟩
  obtain ⟨_, text⟩ | ⟨port, _, _, text⟩ := wellFormed.hostport_cases
  · rw [text] at member
    exact inHost member
  · rw [text] at member
    rcases List.mem_append.mp member with host | later
    · exact inHost host
    · rcases List.mem_cons.mp later with rfl | digit
      · exact ⟨inNetloc_colon, by decide⟩
      · have isDigit : char.isDigit :=
          Nat.isDigit_of_mem_toDigits (by decide) (by decide) digit
        refine ⟨inNetloc_digit isDigit, ?_⟩
        have different := fun {other} => @ne_of_isDigit char isDigit other
        simp [different]

theorem userinfo?_netloc : userinfo? uri.netloc =
    if uri.userinfo = [] then none else some uri.userinfo := by
  have noAt : '@' ∉ uri.hostport :=
    fun member => (wellFormed.mem_hostport member).2 (by decide)
  rw [userinfo?, Uri.netloc]
  split_ifs with empty
  · rw [List.nil_append, rsplitOnce_eq_none.mpr noAt]
    rfl
  · rw [List.append_assoc, List.singleton_append,
      rsplitOnce_eq_some.mpr ⟨rfl, noAt⟩]
    rfl

theorem hostinfo_netloc : hostinfo uri.netloc = uri.hostport := by
  have noAt : '@' ∉ uri.hostport :=
    fun member => (wellFormed.mem_hostport member).2 (by decide)
  rw [hostinfo, Uri.netloc]
  split_ifs with empty
  · rw [List.nil_append, rsplitOnce_eq_none.mpr noAt]
  · rw [List.append_assoc, List.singleton_append,
      rsplitOnce_eq_some.mpr ⟨rfl, noAt⟩]

theorem hostAndPort_netloc :
    hostAndPort uri.netloc =
      (uri.hostname, uri.port.map (Nat.toDigits 10)) := by
  have noBracket : '[' ∉ uri.hostport :=
    fun member => (wellFormed.mem_hostport member).2 (by decide)
  have noColon : ':' ∉ uri.hostname := by
    intro member
    have := (wellFormed.location.hostname ':' member).2
    simp at this
  rw [hostAndPort, wellFormed.hostinfo_netloc, splitOnce_eq_none.mpr noBracket]
  obtain ⟨isPort, text⟩ | ⟨port, isPort, _, text⟩ := wellFormed.hostport_cases
  · rw [isPort, text]
    exact partition_of_not_mem noColon
  · rw [isPort, text]
    exact partition_append noColon _

theorem joinUserinfo_netloc : joinUserinfo uri.netloc = uri.userinfo := by
  rw [joinUserinfo_eq, wellFormed.userinfo?_netloc]
  split_ifs with empty
  · rw [empty]
    rfl
  · exact wellFormed.location.rejoined

theorem hostname?_netloc : (lib.hostname? uri.netloc).getD [] =
    uri.hostname := by
  rw [Urllib.hostname?, wellFormed.hostAndPort_netloc]
  simp only
  split_ifs with empty
  · rw [empty]
    rfl
  · exact wellFormed.location.lowered empty

theorem port?_netloc : port? uri.netloc = some uri.port := by
  rw [port?, wellFormed.hostAndPort_netloc]
  obtain ⟨isPort, _⟩ | ⟨port, isPort, small, _⟩ := wellFormed.hostport_cases
  · rw [isPort]
    rfl
  · have digits : (Nat.toDigits 10 port).all Char.isDigit := by
      rw [List.all_eq_true]
      intro char member
      exact Nat.isDigit_of_mem_toDigits (by decide) (by decide) member
    rw [isPort]
    simp only [Option.map_some]
    split
    · rename_i none
      cases none
    · rename_i empty
      exact absurd (Option.some.inj empty) Nat.toDigits_ne_nil
    · rename_i text _ same
      cases Option.some.inj same
      rw [Nat.ofDigitChars_ten_toDigits]
      exact if_pos ⟨digits, small⟩

theorem locate_netloc (start : Uri) : start.locate lib uri.netloc =
    some { start with
      userinfo := uri.userinfo, hostname := uri.hostname, port :=
        uri.port } := by
  rw [Uri.locate, wellFormed.port?_netloc, wellFormed.joinUserinfo_netloc,
    wellFormed.hostname?_netloc]
  rfl

theorem mem_netloc {char : Char} (member : char ∈ uri.netloc) :
    InNetloc lib char ∧ (char ∈ ['[', ']'] → char ∈ uri.userinfo) := by
  rw [Uri.netloc] at member
  rcases List.mem_append.mp member with front | host
  · split_ifs at front with empty
    · cases front
    · rcases List.mem_append.mp front with info | isAt
      · exact ⟨wellFormed.location.userinfo char info, fun _ => info⟩
      · rw [List.mem_singleton.mp isAt]
        exact ⟨inNetloc_at, fun bracket => absurd bracket (by decide)⟩
  · obtain ⟨inNetloc, others⟩ := wellFormed.mem_hostport host
    exact ⟨inNetloc, fun bracket => absurd (List.mem_cons_of_mem _ bracket)
      others⟩

theorem accepts_netloc : lib.accepts uri.netloc := by
  have bracket : ∀ {char}, char ∈ ['[', ']'] →
      (char ∈ uri.netloc ↔ char ∈ uri.userinfo) := by
    intro char isBracket
    constructor
    · exact fun member => (wellFormed.mem_netloc member).2 isBracket
    · intro member
      have nonempty : uri.userinfo ≠ [] := List.ne_nil_of_mem member
      rw [Uri.netloc, if_neg nonempty]
      simp [member]
  have refused : uri.netloc.any lib.refused = false := by
    rw [List.any_eq_false]
    intro char member
    rw [(wellFormed.mem_netloc member).1.notRefused]
    exact Bool.false_ne_true
  rw [Urllib.accepts, refused, Bool.not_false, Bool.and_true, beq_iff_eq,
    decide_eq_decide, bracket (by decide), bracket (by decide)]
  exact wellFormed.location.balanced

end Uri.WellFormed

theorem dropSlashes_append {front : Text} (noColon : ':' ∉ front)
    (rest : Text) :
    dropSlashes (front ++ rest) = front ++ dropSlashes rest := by
  induction front with
  | nil => rfl
  | cons char front induction =>
      obtain ⟨different, noColon⟩ := List.ne_and_not_mem_of_not_mem_cons noColon
      rw [List.cons_append, dropSlashes, induction noColon, List.cons_append]
      rintro tail rfl
      exact absurd rfl different

theorem dropSlashes_scheme {rest : Text} (next : rest.head? ≠ some '/') :
    dropSlashes (file ++ ':' :: '/' :: '/' :: rest) = file ++ ':' :: rest := by
  rw [dropSlashes_append (by decide), dropSlashes, if_neg next]

theorem dropSlashes_absolute (rest : Text) :
    dropSlashes (file ++ ':' :: '/' :: '/' :: '/' :: rest) =
      file ++ ':' :: '/' :: '/' :: '/' :: dropSlashes rest := by
  rw [dropSlashes_append (by decide), dropSlashes, if_pos List.head?_cons]
  have slashes := @dropSlashes_append ['/', '/', '/'] (by decide) rest
  exact congrArg (fun text => file ++ ':' :: text) slashes

theorem dropSlashes_relative {rest : Text} (next : rest.head? ≠ some '/') :
    dropSlashes (file ++ ':' :: rest) = file ++ ':' :: dropSlashes rest := by
  rw [dropSlashes_append (by decide), dropSlashes]
  rintro tail _ rfl
  exact absurd rfl next

theorem joinItems_eq_nil {elmdelim : Char} {items : Items}
    (joinable : Joinable elmdelim items) : joinItems elmdelim items = [] ↔
      items = [] := by
  constructor
  · intro empty
    have same := splitItems_joinItems joinable
    rw [empty] at same
    exact same.symm
  · rintro rfl
    rfl

structure Reads (lib : Urllib) (url : Text) (first urlp : Parsed) (again : Text)
    (located : Uri) : Prop where
  isFirst : lib.urlparse (partition ';' url).1 = some first
  isAgain : lib.reparsed (partition ';' url).1 = some (again, urlp)
  isLocated : Uri.located lib first.scheme again urlp = some located

variable {lib : Urllib} {uri : Uri}

theorem ofUrl_eq_some {url : Text} (nonempty : url ≠ []) :
    Uri.ofUrl lib url = some uri ↔ ∃ first urlp again located,
      Reads lib url first urlp again located ∧
      uri = located.filled lib urlp (partition ';' url).2 := by
  rw [Uri.ofUrl, if_neg nonempty]
  simp only [Option.bind_eq_bind, Option.bind_eq_some_iff, Option.pure_def,
    Option.some.injEq, Prod.exists]
  constructor
  · intro ⟨first, isFirst, again, urlp, isAgain, located, isLocated, same⟩
    exact ⟨first, urlp, again, located, ⟨isFirst, isAgain, isLocated⟩,
      same.symm⟩
  · intro ⟨first, urlp, again, located, ⟨isFirst, isAgain, isLocated⟩, same⟩
    exact ⟨first, isFirst, again, urlp, isAgain, located, isLocated, same.symm⟩

theorem reparsed_eq_some {text again : Text} {urlp : Parsed} :
    lib.reparsed text = some (again, urlp) ↔
    ∃ first, lib.urlparse text = some first ∧
      again = (if first.scheme = file then dropSlashes text else text) ∧
      lib.urlparse again = some urlp := by
  simp only [Urllib.reparsed, Option.bind_eq_bind, Option.bind_eq_some_iff,
    Option.pure_def,
    Option.some.injEq, Prod.mk.injEq, netlocForbidden, List.mem_singleton]
  constructor
  · intro ⟨first, isFirst, urlp', isAgain, same, sameUrlp⟩
    subst same sameUrlp
    exact ⟨first, isFirst, rfl, isAgain⟩
  · intro ⟨first, isFirst, same, isAgain⟩
    subst same
    exact ⟨first, isFirst, urlp, isAgain, rfl, rfl⟩

/-- What is written behind the scheme, up to the parameters. -/
def Uri.rest (lib : Urllib) (uri : Uri) : Text :=
  (if uri.relative then [] else ['/', '/']) ++
    (uri.netloc ++ (lib.quote uri.path ++ uri.queryStr))

/-- What `urlparse` finds in it. -/
def Uri.parsed (lib : Urllib) (uri : Uri) : Parsed where
  scheme := uri.scheme
  netloc := uri.netloc
  path := lib.quote uri.path
  query := joinItems '&' uri.query

theorem str_eq (lib : Urllib) (uri : Uri) :
    uri.str lib = uri.scheme ++ ':' :: uri.rest lib ++ uri.paramStr := by
  simp [Uri.str, Uri.rest, Uri.netloc]

namespace Uri.WellFormed

variable {lib : Urllib} {uri : Uri} (wellFormed : uri.WellFormed lib)

include wellFormed

theorem queryStr_eq : uri.queryStr = queryText (joinItems '&' uri.query) := by
  rw [Uri.queryStr, queryText]
  simp only [joinItems_eq_nil wellFormed.query]

theorem netloc_eq_nil (absent : uri.relative ∨ uri.scheme = file) :
    uri.netloc = [] := by
  obtain ⟨info, host, port⟩ := wellFormed.noNetloc absent
  rw [Uri.netloc, Uri.hostport, info, host, port]
  rfl

theorem relative_iff : uri.relative ↔ uri.path ≠ [] ∧
    uri.path.head? ≠ some '/' := by
  rw [wellFormed.relative]
  simp

theorem path_cases : (uri.relative = true ∧ uri.path ≠ [] ∧ ∃ char rest,
      lib.quote uri.path = char :: rest ∧ char ≠ '/') ∨
    (uri.relative = false ∧ uri.path = [] ∧ lib.quote uri.path = []) ∨
    (uri.relative = false ∧ uri.path ≠ [] ∧ ∃ rest,
      lib.quote uri.path = '/' :: rest) := by
  by_cases empty : uri.path = []
  · refine .inr (.inl ⟨?_, empty, (quote_eq_nil lib _).mpr empty⟩)
    simp [wellFormed.relative, empty]
  · by_cases slash : uri.path.head? = some '/'
    · refine .inr (.inr ⟨?_, empty, ?_⟩)
      · simp [wellFormed.relative, slash]
      · exact List.head?_eq_some_iff.mp ((head_quote lib _).mpr slash)
    · refine .inl ⟨wellFormed.relative_iff.mpr ⟨empty, slash⟩, empty, ?_⟩
      have nonempty := mt (quote_eq_nil lib uri.path).mp empty
      obtain ⟨char, rest, quoted⟩ := List.exists_cons_of_ne_nil nonempty
      refine ⟨char, rest, quoted, ?_⟩
      rintro rfl
      exact slash ((head_quote lib _).mp (by rw [quoted]; rfl))

theorem splitNetloc_rest :
    splitNetloc (uri.rest lib) =
      (uri.netloc, lib.quote uri.path ++ uri.queryStr) := by
  have query : ∀ char ∈ uri.queryStr.head?, ofNetloc char = false := by
    intro char first
    rw [Uri.queryStr] at first
    split_ifs at first
    · cases first
    · cases first
      decide
  have inside : ∀ char ∈ uri.netloc, ofNetloc char :=
    fun char member => (wellFormed.mem_netloc member).1.inside
  rw [Uri.rest]
  obtain ⟨relative, _, char, rest, quoted, different⟩ | ⟨absolute, _, quoted⟩ |
    ⟨absolute, _, rest, quoted⟩ := wellFormed.path_cases
  · rw [relative, wellFormed.netloc_eq_nil (.inl relative), quoted]
    apply splitNetloc_of_not_slashes
    intro ⟨tail, same⟩
    exact different (List.cons.inj same).1.symm
  · rw [absolute, quoted]
    exact splitNetloc_append inside query
  · rw [absolute, quoted]
    apply splitNetloc_append inside
    intro char first
    cases first
    decide

theorem mem_rest {char : Char} (member : char ∈ uri.rest lib) :
    char ∉ breaks ∧ char ≠ ';' := by
  have special : ∀ {other}, other = ';' ∨ other ∈ breaks →
      isSafe other = false ∧ other ≠ '%' ∧ other ≠ '/' ∧ other ≠ '?' := by
    intro other isSpecial
    simp only [breaks, List.mem_cons, List.not_mem_nil, or_false] at isSpecial
    obtain rfl | rfl | rfl | rfl := isSpecial <;> decide
  have plain : ∀ other, other = ';' ∨ other ∈ breaks → char ≠ other := by
    rintro other isSpecial rfl
    obtain ⟨isSafe, percent, slash, mark⟩ := special isSpecial
    rw [Uri.rest] at member
    simp only [List.mem_append] at member
    obtain slashes | location | quoted | query := member
    · split_ifs at slashes
      · cases slashes
      · simp [slash] at slashes
    · have inNetloc := (wellFormed.mem_netloc location).1
      exact isSpecial.elim inNetloc.noSemicolon inNetloc.noBreak
    · exact quote_plain quoted isSafe percent rfl
    · rw [Uri.queryStr] at query
      split_ifs at query
      · cases query
      · rcases List.mem_cons.mp query with isMark | inItems
        · exact mark isMark
        · obtain ⟨_, noSemicolon, noBreak⟩ := wellFormed.inQuery _ inItems
          exact isSpecial.elim noSemicolon noBreak
  exact ⟨fun isBreak => plain char (.inr isBreak) rfl, plain ';' (.inl rfl)⟩

theorem splitPath_rest :
    splitPath (lib.quote uri.path ++ uri.queryStr) =
      (lib.quote uri.path, joinItems '&' uri.query) := by
  rw [wellFormed.queryStr_eq]
  apply splitPath_append
  · intro char member
    exact ⟨quote_plain member (by decide) (by decide),
      quote_plain member (by decide) (by decide)⟩
  · exact fun member => (wellFormed.inQuery _ member).1 rfl

theorem urlparse_bare :
    lib.urlparse (uri.scheme ++ ':' :: uri.rest lib) = some (uri.parsed lib) :=
  urlparse_append wellFormed.scheme
    (fun _ member => (wellFormed.mem_rest member).1)
    wellFormed.splitNetloc_rest wellFormed.splitPath_rest
      wellFormed.accepts_netloc

theorem dropSlashes_bare (isFile : uri.scheme = file) :
    dropSlashes (uri.scheme ++ ':' :: uri.rest lib) = uri.scheme ++ ':' ::
      uri.rest lib ∨
    (dropSlashes (uri.scheme ++ ':' :: uri.rest lib) = uri.scheme ++ ':' ::
      uri.queryStr ∧ lib.quote uri.path = []) := by
  have noNetloc := wellFormed.netloc_eq_nil (.inr isFile)
  have noColon := colon_not_mem_quote lib uri.path
  rw [isFile, Uri.rest, noNetloc, List.nil_append]
  obtain ⟨relative, nonempty, char, rest, quoted, different⟩ |
    ⟨absolute, _, quoted⟩ |
    ⟨absolute, nonempty, rest, quoted⟩ := wellFormed.path_cases
  · left
    have next : (lib.quote uri.path ++ uri.queryStr).head? ≠ some '/' := by
      rw [quoted]
      simpa using different
    rw [if_pos relative, List.nil_append, dropSlashes_relative next,
      dropSlashes_append noColon, wellFormed.kept isFile nonempty]
  · right
    have next : uri.queryStr.head? ≠ some '/' := by
      rw [Uri.queryStr]
      split_ifs <;> simp
    refine ⟨?_, quoted⟩
    rw [absolute, quoted]
    exact dropSlashes_scheme next
  · left
    rw [quoted, List.mem_cons, not_or] at noColon
    rw [absolute, quoted]
    have same := dropSlashes_absolute (rest ++ uri.queryStr)
    rw [dropSlashes_append noColon.2, wellFormed.kept isFile nonempty] at same
    exact same

theorem reparsed_bare : ∃ again,
    lib.reparsed (uri.scheme ++ ':' :: uri.rest lib) =
      some (again, uri.parsed lib) ∧
    (uri.scheme ≠ file → again = uri.scheme ++ ':' :: uri.rest lib) := by
  have bare := wellFormed.urlparse_bare
  by_cases isFile : (uri.parsed lib).scheme = file
  · refine ⟨_, reparsed_eq_some.mpr ⟨_, bare, rfl, ?_⟩, fun other =>
      absurd isFile other⟩
    rw [if_pos isFile]
    obtain same | ⟨same, quoted⟩ := wellFormed.dropSlashes_bare isFile
    · rwa [same]
    · rw [same]
      have parts := wellFormed.splitPath_rest
      rw [quoted, List.nil_append] at parts
      have clean : ∀ char ∈ uri.queryStr, char ∉ breaks :=
        fun char member => (wellFormed.mem_rest (by simp [Uri.rest, member])).1
      have location : splitNetloc uri.queryStr = ([], uri.queryStr) := by
        apply splitNetloc_of_not_slashes
        rw [Uri.queryStr]
        split_ifs <;> simp
      have noNetloc := wellFormed.netloc_eq_nil (.inr isFile)
      have accepted := wellFormed.accepts_netloc
      rw [noNetloc] at accepted
      rw [urlparse_append wellFormed.scheme clean location parts accepted,
        Uri.parsed, noNetloc, quoted]
  · refine ⟨_, reparsed_eq_some.mpr ⟨_, bare, rfl, ?_⟩, fun _ => if_neg isFile⟩
    rwa [if_neg isFile]

theorem located_parsed {again : Text}
    (same : uri.scheme ≠ file → again = uri.scheme ++ ':' :: uri.rest lib) :
    Uri.located lib uri.scheme again (uri.parsed lib) = some { Uri.empty with
      scheme := uri.scheme, userinfo := uri.userinfo, hostname := uri.hostname,
      port := uri.port } := by
  have located := wellFormed.locate_netloc { Uri.empty with
      scheme := uri.scheme }
  rw [Uri.located]
  split_ifs with relative
  · have absent : uri.relative ∨ uri.scheme = file := by
      by_contra present
      obtain ⟨absolute, notFile⟩ := not_or.mp present
      have reference := relative.2
      rw [same notFile, relativeReference, splitOnce_eq_some.mpr
        ⟨rfl, not_mem_scheme wellFormed.scheme.valid (by decide)⟩, Uri.rest,
        if_neg absolute] at reference
      simp at reference
    obtain ⟨info, host, port⟩ := wellFormed.noNetloc absent
    rw [info, host, port]
    rfl
  · exact located

end Uri.WellFormed

theorem partition_paramStr (joinable : Joinable ';' uri.params) {text : Text}
    (noSemicolon : ';' ∉ text) :
    (partition ';' (text ++ uri.paramStr)).1 = text ∧
    splitItems ';' ((partition ';' (text ++ uri.paramStr)).2.getD []) =
      uri.params := by
  rw [Uri.paramStr]
  split_ifs with empty
  · rw [List.append_nil, partition_of_not_mem noSemicolon, empty]
    exact ⟨rfl, rfl⟩
  · rw [partition_append noSemicolon]
    exact ⟨rfl, splitItems_joinItems joinable⟩

theorem ofUrl_of_parsed (wellFormed : uri.WellFormed lib)
    {text again : Text} {first : Parsed} (nonempty : text ≠ [])
    (noSemicolon : ';' ∉ text) (isFirst : lib.urlparse text = some first)
    (scheme : first.scheme = uri.scheme)
    (isAgain : lib.reparsed text = some (again, uri.parsed lib))
    (same : uri.scheme ≠ file → again = uri.scheme ++ ':' :: uri.rest lib) :
    Uri.ofUrl lib (text ++ uri.paramStr) = some uri := by
  obtain ⟨isText, params⟩ := partition_paramStr wellFormed.params noSemicolon
  have located := wellFormed.located_parsed same
  rw [ofUrl_eq_some (by simp [nonempty])]
  refine ⟨first, uri.parsed lib, again, _, ⟨?_, ?_, by rwa [scheme]⟩, ?_⟩
  · rwa [isText]
  · rwa [isText]
  · rw [Uri.filled, params, Uri.parsed, splitItems_joinItems wellFormed.query,
      lib.unquote_quote, Uri.setPath, ← wellFormed.relative]

theorem ofUrl_str (wellFormed : uri.WellFormed lib) :
    Uri.ofUrl lib (uri.str lib) = some uri := by
  have noSemicolon : ';' ∉ uri.scheme ++ ':' :: uri.rest lib := by
    simp only [List.mem_append, List.mem_cons, not_or]
    exact ⟨not_mem_scheme wellFormed.scheme.valid (by decide), by decide,
      fun member => (wellFormed.mem_rest member).2 rfl⟩
  obtain ⟨again, isAgain, same⟩ := wellFormed.reparsed_bare
  rw [str_eq]
  exact ofUrl_of_parsed wellFormed (by simp) noSemicolon
    wellFormed.urlparse_bare rfl isAgain same

end Nvbmc.Fetch2
