import Nvbmc.Fetch2.UriReading

/-!
# Writing what was read

`URI` reads what is written for an object that it made, and `encodeurl` leaves
what `decodeurl` returned as it is, up to the path and a password without a user
name.
-/

namespace Nvbmc.Fetch2

open Nvbmc.Library

/-- The tokens as they come back: runs of slashes are squeezed, and a password
goes with its user name. -/
def Decoded.canonical (decoded : Decoded) : Decoded :=
  { decoded with
    path := squeezed '/' decoded.path
    pswd := if decoded.user = [] then [] else decoded.pswd }

/-- The object with these tokens. -/
def Uri.canonical (uri : Uri) : Uri :=
  { uri with
    userinfo := if uri.username = [] then [] else uri.userinfo
    path := squeezed '/' uri.tokens.path
    query := []
    relative := squeezed '/' uri.tokens.path ≠ [] &&
      (squeezed '/' uri.tokens.path).head? ≠ some '/' }

theorem tokens_path_ne_nil (uri : Uri) : uri.tokens.path ≠ [] := by
  rw [Uri.tokens]
  split_ifs with empty
  · exact List.cons_ne_nil _ _
  · exact empty

theorem tokens_canonical (uri : Uri) :
    uri.canonical.tokens = uri.tokens.canonical := by
  have nonempty : squeezed '/' uri.tokens.path ≠ [] :=
    mt squeezed_eq_nil.mp (tokens_path_ne_nil uri)
  have path : uri.canonical.tokens.path = uri.tokens.canonical.path :=
    if_neg nonempty
  have user : uri.canonical.username = uri.username ∧
      uri.canonical.password =
        if uri.username = [] then [] else uri.password := by
    have info : uri.canonical.userinfo =
        if uri.username = [] then [] else uri.userinfo := rfl
    rw [Uri.username, Uri.password, info]
    split_ifs with empty
    · rw [empty]
      exact ⟨rfl, rfl⟩
    · exact ⟨rfl, rfl⟩
  rw [Decoded.mk.injEq]
  exact ⟨rfl, rfl, path, user.1, user.2, rfl⟩

section Tokens

variable {lib : Urllib} {uri : Uri} (wellFormed : uri.WellFormed lib)

include wellFormed

theorem relative_of_canonical (relative : uri.canonical.relative) :
    uri.relative := by
  rw [Uri.canonical, Bool.and_eq_true, decide_eq_true_eq, decide_eq_true_eq,
    head?_squeezed] at relative
  rw [wellFormed.relative_iff]
  have path := relative.2
  rw [Uri.tokens] at path
  split_ifs at path with empty
  · exact absurd rfl path
  · exact ⟨empty, path⟩

theorem wellFormed_canonical : uri.canonical.WellFormed lib := by
  have absent : uri.canonical.relative ∨ uri.scheme = file →
      uri.userinfo = [] ∧ uri.hostname = [] ∧ uri.port = none := by
    rintro (relative | isFile)
    · exact wellFormed.noNetloc
        (.inl (relative_of_canonical wellFormed relative))
    · exact wellFormed.noNetloc (.inr isFile)
  constructor
  · exact wellFormed.scheme
  · have location := wellFormed.location
    simp only [Uri.canonical]
    split_ifs
    · constructor
      · simp
      · exact location.hostname
      · rfl
      · exact location.lowered
      · simp
      · exact location.port
    · exact location
  · rfl
  · intro either
    obtain ⟨info, host, port⟩ := absent either
    refine ⟨?_, host, port⟩
    simp [Uri.canonical, info]
  · exact wellFormed.params
  · exact ⟨List.nodup_nil, by simp [Uri.canonical], by simp [Uri.canonical],
      by simp [Uri.canonical], by simp [Valued, Uri.canonical]⟩
  · simp [Uri.canonical, joinItems, List.intercalate_nil]
  · exact fun _ _ => rfl

/-- The user part that `encodeurl` puts together. -/
theorem userinfo_eq : uri.userinfo = if uri.password = [] then uri.username
    else uri.username ++ ':' :: uri.password := by
  have rejoined := wellFormed.location.rejoined
  rw [rejoin] at rejoined
  rw [Uri.username, Uri.password]
  cases second : (partition ':' uri.userinfo).2 with
  | none => simpa [second] using rejoined.symm
  | some password =>
      simp only [second, Option.getD_some] at rejoined ⊢
      split_ifs at rejoined ⊢ with empty
      · rw [List.append_nil] at rejoined
        exact rejoined.symm
      · exact rejoined.symm

end Tokens

section ToUri

variable {decoded : Decoded} {uri : Uri}

theorem withUser_eq (noColon : ':' ∉ decoded.user) (empty : uri.userinfo = []) :
    uri.withUser decoded = { uri with userinfo :=
      if decoded.user ≠ [] ∧ decoded.type ≠ file then
        if decoded.pswd = [] then decoded.user
        else decoded.user ++ ':' :: decoded.pswd
      else [] } := by
  have named : uri.setUsername decoded.user = { uri with
      userinfo := decoded.user } := by
    rw [Uri.setUsername, Uri.password, empty, Uri.mk.injEq]
    exact ⟨rfl, List.append_nil _, rfl, rfl, rfl, rfl, rfl, rfl⟩
  have both : (uri.setUsername decoded.user).setPassword decoded.pswd =
      { uri with userinfo := decoded.user ++ ':' :: decoded.pswd } := by
    rw [named, Uri.setPassword, Uri.username, partition_of_not_mem noColon]
  rw [Uri.withUser]
  by_cases present : decoded.user ≠ [] ∧ decoded.type ≠ file
  · rw [if_pos present, if_pos present]
    by_cases noPassword : decoded.pswd = []
    · rw [if_pos noPassword, if_neg (not_not.mpr noPassword), named]
    · rw [if_neg noPassword, if_pos noPassword, both]
  · rw [if_neg present, if_neg present, ← empty]

theorem withHost_eq (empty : uri.hostname = []) :
    uri.withHost decoded = { uri with
    hostname := if decoded.host ≠ [] ∧ decoded.type ≠ file then decoded.host
                else [] } := by
  rw [Uri.withHost]
  split_ifs
  · rfl
  · rw [← empty]

theorem withPath_eq (nonempty : decoded.path ≠ []) :
    uri.withPath decoded = { uri with
    path := squeezed '/' decoded.path
    relative := decide (decoded.type ≠ file) &&
      (squeezed '/' decoded.path ≠ [] &&
      (squeezed '/' decoded.path).head? ≠ some '/') } := by
  rw [Uri.withPath, if_pos nonempty, standardise_eq, Uri.setPath]
  split_ifs with isFile
  · simp [isFile]
  · simp [isFile]

theorem withParams_eq (empty : uri.params = []) :
    uri.withParams decoded = { uri with params := decoded.p } := by
  rw [Uri.withParams]
  split_ifs with present
  · rfl
  · rw [not_not.mp present, ← empty]

end ToUri

section Encoded

variable {lib : Urllib} {uri : Uri} (wellFormed : uri.WellFormed lib)

include wellFormed

/-- The object that `encodeurl` writes has host and port as its host, and the
slashes of a file URL stand even before a relative path. -/
theorem toUri_tokens : uri.tokens.toUri = { uri.canonical with
    hostname := uri.hostport
    port := none
    relative := decide (uri.scheme ≠ file) && uri.canonical.relative } := by
  have noColon : ':' ∉ uri.tokens.user := not_mem_partition_fst
  have info : (if uri.tokens.user ≠ [] ∧ uri.tokens.type ≠ file then
      if uri.tokens.pswd = [] then uri.tokens.user
      else uri.tokens.user ++ ':' :: uri.tokens.pswd else []) =
        uri.canonical.userinfo := by
    have together := userinfo_eq wellFormed
    by_cases isFile : uri.scheme = file
    · have empty := (wellFormed.noNetloc (.inr isFile)).1
      rw [if_neg (fun both => both.2 isFile), Uri.canonical, empty]
      simp
    · by_cases unnamed : uri.username = []
      · rw [if_neg (fun both => both.1 unnamed), Uri.canonical, if_pos unnamed]
      · rw [if_pos ⟨unnamed, isFile⟩, Uri.canonical, if_neg unnamed, together]
        rfl
  have host : (if uri.tokens.host ≠ [] ∧ uri.tokens.type ≠ file then
      uri.tokens.host else []) = uri.hostport := by
    split_ifs with present
    · rfl
    · by_cases empty : uri.hostport = []
      · exact empty.symm
      · have isFile : uri.scheme = file :=
          not_not.mp fun other => present ⟨empty, other⟩
        obtain ⟨_, hostname, port⟩ := wellFormed.noNetloc (.inr isFile)
        rw [Uri.hostport, hostname, port]
  rw [Decoded.toUri, withUser_eq noColon rfl, withHost_eq rfl,
    withPath_eq (tokens_path_ne_nil uri), withParams_eq rfl, info, host]
  rfl

theorem str_toUri : uri.tokens.toUri.str lib =
    ({ uri.canonical with
      relative := decide (uri.scheme ≠ file) && uri.canonical.relative } :
        Uri).str lib := by
  rw [toUri_tokens wellFormed]
  rfl

theorem ofUrl_file (isFile : uri.scheme = file) (relative : uri.relative)
    (noQuery : uri.query = []) :
    Uri.ofUrl lib (({ uri with relative := false } : Uri).str lib) =
      some uri := by
  have noNetloc := wellFormed.netloc_eq_nil (.inl relative)
  have query : uri.queryStr = [] := if_pos noQuery
  have rest : uri.rest lib = lib.quote uri.path := by
    rw [Uri.rest, relative, noNetloc, query, List.append_nil]
    rfl
  have next : (lib.quote uri.path).head? ≠ some '/' :=
    fun slash => (wellFormed.relative_iff.mp relative).2
      ((head_quote lib _).mp slash)
  have special : ∀ {char other : Char}, char ∈ '/' :: '/' ::
      lib.quote uri.path →
      isSafe other = false → other ≠ '%' → char ≠ other := by
    intro char other member isSpecial notPercent
    have slash : '/' ≠ other := by
      rintro rfl
      exact absurd isSpecial (by decide)
    simp only [List.mem_cons] at member
    obtain rfl | rfl | member := member
    · exact slash
    · exact slash
    · exact quote_plain member isSpecial notPercent
  have clean : ∀ char ∈ '/' :: '/' :: lib.quote uri.path, char ∉ breaks := by
    intro char member
    have different := fun {other} => @special char other member
    simp only [breaks, List.mem_cons, List.not_mem_nil, or_false, not_or]
    exact ⟨different (by decide) (by decide), different (by decide) (by decide),
      different (by decide) (by decide)⟩
  have text : ({ uri with relative := false } : Uri).str lib =
      file ++ ':' :: '/' :: '/' :: lib.quote uri.path ++ uri.paramStr := by
    rw [str_eq, ← isFile]
    have bare : ({ uri with relative := false } : Uri).rest lib =
        '/' :: '/' :: lib.quote uri.path := by
      have same : ({ uri with relative := false } : Uri).rest lib =
        '/' :: '/' :: (uri.netloc ++ (lib.quote uri.path ++ uri.queryStr)) :=
          rfl
      rw [same, noNetloc, query, List.append_nil, List.nil_append]
    rw [bare]
    rfl
  have isScheme : IsScheme file := isFile ▸ wellFormed.scheme
  have accepted :
      lib.accepts (splitNetloc ('/' :: '/' :: lib.quote uri.path)).1 := by
    have among :=
      fun char member =>
        ((splitNetloc_spec ('/' :: '/' :: lib.quote uri.path)).1 char member).2
    have noBracket : ∀ bracket ∈ ['[', ']'],
        bracket ∉ (splitNetloc ('/' :: '/' :: lib.quote uri.path)).1 := by
      intro bracket isBracket member
      simp only [List.mem_cons, List.not_mem_nil, or_false] at isBracket
      obtain rfl | rfl := isBracket
      · exact special (among _ member) (by decide) (by decide) rfl
      · exact special (among _ member) (by decide) (by decide) rfl
    rw [Urllib.accepts, Bool.and_eq_true, beq_iff_eq, Bool.not_eq_true',
      List.any_eq_false]
    refine ⟨?_, ?_⟩
    · rw [decide_eq_false (noBracket '[' (by decide)),
        decide_eq_false (noBracket ']' (by decide))]
    · intro char member
      have notRefused : lib.refused char = false := by
        have inText := among char member
        simp only [List.mem_cons] at inText
        obtain rfl | rfl | quoted := inText
        · exact lib.not_refused (by decide)
        · exact lib.not_refused (by decide)
        · exact quote_not_refused quoted
      simp [notRefused]
  have first := urlparse_append isScheme clean rfl rfl accepted
  rw [text]
  apply ofUrl_of_parsed wellFormed (by simp) _ first isFile.symm
  · rw [reparsed_eq_some]
    refine ⟨_, first, rfl, ?_⟩
    rw [if_pos rfl, dropSlashes_scheme next, ← isFile, ← rest]
    exact wellFormed.urlparse_bare
  · exact fun other => absurd isFile other
  · simp only [List.mem_append, List.mem_cons, not_or]
    exact ⟨by decide, by decide, by decide, by decide,
      fun member => quote_plain member (by decide) (by decide) rfl⟩

end Encoded

theorem ofUrl_str_toUri {lib : Urllib} {uri : Uri}
    (wellFormed : uri.WellFormed lib) :
    Uri.ofUrl lib (uri.tokens.toUri.str lib) = some uri.canonical := by
  have canonical := wellFormed_canonical wellFormed
  rw [str_toUri wellFormed]
  by_cases slashes : uri.scheme = file ∧ uri.canonical.relative = true
  · have forced : (decide (uri.scheme ≠ file) && uri.canonical.relative) =
        false := by
      simp [slashes.1]
    rw [forced]
    exact ofUrl_file canonical slashes.1 slashes.2 rfl
  · have same : (decide (uri.scheme ≠ file) && uri.canonical.relative) =
        uri.canonical.relative := by
      by_cases isFile : uri.scheme = file
      · have absolute : uri.canonical.relative = false := by
          simpa [isFile] using slashes
        rw [absolute, Bool.and_false]
      · simp [isFile]
    rw [same]
    exact ofUrl_str canonical

/-- `decodeurl(encodeurl(decodeurl(url)))` -/
def redecoded (lib : Urllib) (url : Text) : Option Decoded := do
  decodeurl lib (← encodeurl lib (← decodeurl lib url))

/-- The URL loses nothing, as an object or as tokens. -/
def RoundTrips (lib : Urllib) (url : Text) : Prop :=
  ∀ uri, Uri.ofUrl lib url = some uri → uri.scheme ≠ [] →
    Uri.ofUrl lib (uri.str lib) = some uri ∧ redecoded lib url = decodeurl lib
      url

/-- The object is read again, and so are its tokens, with runs of slashes
squeezed in the path and without a password that has no user name. -/
theorem codec_roundTrip {lib : Urllib} {url : Text} {uri : Uri}
    (accepted : Uri.ofUrl lib url = some uri) (scheme : uri.scheme ≠ [])
    (codable : Codable lib url uri) :
    Uri.ofUrl lib (uri.str lib) = some uri ∧
    redecoded lib url = (decodeurl lib url).map Decoded.canonical := by
  have wellFormed := wellFormed_of_ofUrl accepted scheme codable
  refine ⟨ofUrl_str wellFormed, ?_⟩
  have decoded : decodeurl lib url = some uri.tokens := by
    rw [decodeurl, accepted]
    rfl
  have encoded : encodeurl lib uri.tokens = some (uri.tokens.toUri.str lib) :=
    if_neg scheme
  have again : decodeurl lib (uri.tokens.toUri.str lib) =
      some uri.tokens.canonical := by
    rw [decodeurl, ofUrl_str_toUri wellFormed, Option.map_some,
      tokens_canonical]
  rw [redecoded, decoded]
  simp only [Option.bind_eq_bind, Option.bind_some, encoded, again,
    Option.map_some]

/-- `git://u:p@h:80/a?x;q=1=2` -/
def gitUrl : Text :=
  ['g', 'i', 't', ':', '/', '/', 'u', ':', 'p', '@', 'h', ':', '8', '0', '/',
    'a', '?', 'x', ';', 'q', '=', '1', '=', '2']

theorem codec_roundTrip_git :
    ∃ uri, Uri.ofUrl plainUrllib gitUrl = some uri ∧
      Uri.ofUrl plainUrllib (uri.str plainUrllib) = some uri ∧
      redecoded plainUrllib gitUrl =
        (decodeurl plainUrllib gitUrl).map Decoded.canonical := by
  refine ⟨⟨git, ['u', ':', 'p'], ['h'], some 80, ['/', 'a'],
    [(['q'], some ['1', '=', '2'])], [(['x'], none)], false⟩, by decide, ?_⟩
  apply codec_roundTrip
  · decide
  · decide
  · constructor
    · simp [Valued]
    · simp [Valued]
    · decide
    · intro again urlp found
      cases found
      decide
    · decide
    · decide

/-- `http://h//a` -/
def doubledUrl : Text :=
  ['h', 't', 't', 'p', ':', '/', '/', 'h', '/', '/', 'a']

/-- `encodeurl` squeezes the slashes of a path. -/
theorem not_roundTrips_doubledUrl : ¬ RoundTrips plainUrllib doubledUrl := by
  intro roundTrips
  have same :=
    (roundTrips ⟨['h', 't', 't', 'p'], [], ['h'], none, ['/', '/', 'a'], [], [],
      false⟩ (by decide) (by decide)).2
  revert same
  decide

end Nvbmc.Fetch2
