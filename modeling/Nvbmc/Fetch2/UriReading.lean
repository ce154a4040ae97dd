import Nvbmc.Fetch2.UriCodec

/-!
# What is read

The object that `URI` makes of an URL is well formed, under the conditions that
the codec needs.
-/

namespace Nvbmc.Fetch2

open Nvbmc.Library

theorem rejoin_cases (info : Text) :
    rejoin info = info ∨ (info = rejoin info ++ [':'] ∧ ':' ∉ rejoin info) := by
  obtain ⟨before, after, split, absent, parts⟩ | ⟨_, parts⟩ :=
    partition_cases ':' info
  · rw [rejoin, parts]
    simp only
    split_ifs with empty
    · right
      rw [List.append_nil]
      exact ⟨by rw [split, empty], absent⟩
    · exact .inl split.symm
  · left
    rw [rejoin, parts]
    exact List.append_nil info

theorem rejoin_rejoin (info : Text) : rejoin (rejoin info) = rejoin info := by
  obtain same | ⟨_, absent⟩ := rejoin_cases info
  · exact congrArg rejoin same
  · rw [rejoin, partition_of_not_mem absent]
    exact List.append_nil _

theorem mem_rejoin {info : Text} {char : Char} (different : char ≠ ':') :
    char ∈ rejoin info ↔ char ∈ info := by
  obtain same | ⟨split, _⟩ := rejoin_cases info
  · rw [same]
  · have inSplit : char ∈ info ↔ char ∈ rejoin info ++ [':'] := by rw [← split]
    simp [inSplit, different]

theorem mem_of_mem_rejoin {info : Text} {char : Char}
    (member : char ∈ rejoin info) : char ∈ info := by
  obtain same | ⟨split, _⟩ := rejoin_cases info
  · rwa [← same]
  · rw [split]
    exact List.mem_append_left _ member

section Lowered

variable {lib : Urllib} {host : Text} {char : Char}

theorem lowered_lowered : lib.lowered (lib.lowered host) =
    lib.lowered host := by
  have noPercent : ∀ {name}, '%' ∉ name → '%' ∉ lib.lower name :=
    fun absent member => absent (lib.mem_of_delimiter (by decide) member)
  obtain ⟨name, zone, _, absent, parts⟩ | ⟨absent, parts⟩ :=
    partition_cases '%' host
  · rw [show lib.lowered host = lib.lower name ++ '%' ::
      zone by rw [Urllib.lowered, parts],
      Urllib.lowered, partition_append (noPercent absent)]
    simp only [lib.lower_lower]
  · rw [show lib.lowered host = lib.lower host by rw [Urllib.lowered, parts],
      Urllib.lowered, partition_of_not_mem (noPercent absent)]
    exact lib.lower_lower host

theorem mem_of_mem_lowered (member : char ∈ lib.lowered host)
    (special : char ∈ delimiters ∨ lib.refused char) : char ∈ host := by
  have original : ∀ {name}, char ∈ lib.lower name → char ∈ name := by
    intro name member
    rcases special with isDelimiter | refused
    · exact lib.mem_of_delimiter isDelimiter member
    · exact lib.mem_of_refused refused member
  obtain ⟨name, zone, split, _, parts⟩ | ⟨_, parts⟩ := partition_cases '%' host
  · rw [Urllib.lowered, parts] at member
    rw [split]
    rcases List.mem_append.mp member with inName | later
    · exact List.mem_append_left _ (original inName)
    · exact List.mem_append_right _ later
  · rw [Urllib.lowered, parts] at member
    exact original member

end Lowered

theorem dropSlashes_sublist (text : Text) :
    (dropSlashes text).Sublist text := by
  fun_induction dropSlashes text with
  | case1 rest slash induction => exact induction.cons_cons _
  | case2 rest noSlash =>
      exact ((List.Sublist.refl rest).cons _ |>.cons _).cons_cons _
  | case3 char rest _ induction => exact induction.cons_cons _
  | case4 => exact List.Sublist.refl _

theorem netloc_cases (netloc : Text) :
    (∃ info, netloc = info ++ '@' :: hostinfo netloc ∧ '@' ∉ hostinfo netloc ∧
      userinfo? netloc = some info) ∨
    (hostinfo netloc = netloc ∧ '@' ∉ netloc ∧ userinfo? netloc = none) := by
  cases found : rsplitOnce '@' netloc with
  | none =>
      right
      rw [hostinfo, userinfo?, found]
      exact ⟨rfl, rsplitOnce_eq_none.mp found, rfl⟩
  | some parts =>
      left
      obtain ⟨info, host⟩ := parts
      obtain ⟨split, absent⟩ := rsplitOnce_eq_some.mp found
      rw [hostinfo, userinfo?, found]
      exact ⟨info, split, absent, rfl⟩

section Located

variable {lib : Urllib} {url : Text} {first urlp : Parsed} {again : Text}
  {located : Uri}

theorem splits_of_reads (reads : Reads lib url first urlp again located) :
    urlp.Splits lib again ∧ ';' ∉ again := by
  obtain ⟨_, _, same, found⟩ := reparsed_eq_some.mp reads.isAgain
  refine ⟨splits_of_urlparse found, ?_⟩
  intro member
  apply @not_mem_partition_fst _ _ ';' url
  rw [same] at member
  split_ifs at member
  · exact (dropSlashes_sublist _).subset member
  · exact member

theorem inNetloc_of_splits (splits : urlp.Splits lib again)
    (noSemicolon : ';' ∉ again)
    {char : Char} (member : char ∈ urlp.netloc) : InNetloc lib char := by
  obtain ⟨inside, among, noBreak⟩ := splits.netloc char member
  refine ⟨inside, ?_, noBreak, ?_⟩
  · rintro rfl
    exact noSemicolon among
  · have accepted := splits.accepted
    rw [Urllib.accepts, Bool.and_eq_true, Bool.not_eq_true', List.any_eq_false]
      at accepted
    simpa using accepted.2 char member

end Located

section Location

variable {lib : Urllib} {netloc : Text}
  (inNetloc : ∀ char ∈ netloc, InNetloc lib char)

theorem mem_joinUserinfo {char : Char} (member : char ∈ joinUserinfo netloc) :
    char ∈ netloc := by
  rw [joinUserinfo_eq] at member
  obtain ⟨info, split, _, isInfo⟩ | ⟨_, _, isInfo⟩ := netloc_cases netloc
  · rw [isInfo] at member
    rw [split]
    exact List.mem_append_left _ (mem_of_mem_rejoin member)
  · rw [isInfo] at member
    cases member

theorem rejoin_joinUserinfo (netloc : Text) :
    rejoin (joinUserinfo netloc) = joinUserinfo netloc := by
  rw [joinUserinfo_eq]
  cases userinfo? netloc with
  | none => rfl
  | some info => exact rejoin_rejoin info

theorem mem_of_mem_hostinfo {char : Char} (member : char ∈ hostinfo netloc) :
    char ∈ netloc := by
  obtain ⟨info, split, _, _⟩ | ⟨same, _, _⟩ := netloc_cases netloc
  · rw [split]
    simp [member]
  · rwa [same] at member

theorem at_not_mem_hostinfo (netloc : Text) : '@' ∉ hostinfo netloc := by
  obtain ⟨_, _, absent, _⟩ | ⟨same, absent, _⟩ := netloc_cases netloc
  · exact absent
  · rwa [same]

section Host

variable (noBracket : '[' ∉ hostinfo netloc ∧ ']' ∉ hostinfo netloc)

include noBracket

theorem hostAndPort_eq :
    hostAndPort netloc = partition ':' (hostinfo netloc) := by
  rw [hostAndPort, splitOnce_eq_none.mpr noBracket.1]

theorem hostname?_eq : (lib.hostname? netloc).getD [] =
    if (partition ':' (hostinfo netloc)).1 = [] then []
    else lib.lowered (partition ':' (hostinfo netloc)).1 := by
  rw [Urllib.hostname?, hostAndPort_eq noBracket]
  split_ifs <;> rfl

theorem lowered_hostname (nonempty : (lib.hostname? netloc).getD [] ≠ []) :
    lib.lowered ((lib.hostname? netloc).getD []) =
      (lib.hostname? netloc).getD [] := by
  rw [hostname?_eq noBracket] at nonempty ⊢
  split_ifs at nonempty ⊢
  · exact absurd rfl nonempty
  · exact lowered_lowered

theorem mem_of_mem_hostname {char : Char}
    (member : char ∈ (lib.hostname? netloc).getD [])
    (special : char ∈ delimiters ∨ lib.refused char) :
    char ∈ hostinfo netloc ∧ char ≠ ':' := by
  rw [hostname?_eq noBracket] at member
  split_ifs at member
  · cases member
  · have inHost := mem_of_mem_lowered member special
    refine ⟨mem_of_mem_partition_fst inHost, ?_⟩
    rintro rfl
    exact not_mem_partition_fst inHost

include inNetloc in
theorem inNetloc_hostname {char : Char}
    (member : char ∈ (lib.hostname? netloc).getD []) :
    InNetloc lib char ∧ char ∉ ['@', ':', '[', ']'] := by
  have original := fun special => mem_of_mem_hostname noBracket member special
  have ofHost := fun inHost => inNetloc char (mem_of_mem_hostinfo inHost)
  refine ⟨⟨?_, ?_, ?_, ?_⟩, ?_⟩
  · by_contra outside
    have isDelimiter : char ∈ delimiters := by
      simp only [ofNetloc, decide_eq_true_eq, not_not] at outside
      exact List.mem_append_left _ (List.mem_of_mem_take (i := 3) outside)
    exact outside (ofHost (original (.inl isDelimiter)).1).inside
  · rintro rfl
    exact (ofHost (original (.inl (by decide))).1).noSemicolon rfl
  · intro isBreak
    exact (ofHost (original (.inl (List.mem_append_right _ isBreak))).1).noBreak
      isBreak
  · by_contra refused
    have isRefused : lib.refused char = true := by simpa using refused
    exact refused (ofHost (original (.inr isRefused)).1).notRefused
  · intro isSpecial
    simp only [List.mem_cons, List.not_mem_nil, or_false] at isSpecial
    obtain rfl | rfl | rfl | rfl := isSpecial
    · exact at_not_mem_hostinfo netloc (original (.inl (by decide))).1
    · exact (original (.inl (by decide))).2 rfl
    · exact noBracket.1 (original (.inl (by decide))).1
    · exact noBracket.2 (original (.inl (by decide))).1

theorem port_le {port : Option ℕ} (isPort : port? netloc = some port)
    {value : ℕ} (isValue : port = some value) : value ≤ 65535 := by
  rw [port?, hostAndPort_eq noBracket] at isPort
  split at isPort
  · cases isPort
    cases isValue
  · cases isPort
    cases isValue
  · split_ifs at isPort with valid
    cases isPort
    cases isValue
    exact valid.2

theorem balanced_of_accepts (accepted : lib.accepts netloc) :
    '[' ∈ joinUserinfo netloc ↔ ']' ∈ joinUserinfo netloc := by
  have inInfo : ∀ {char}, char ≠ ':' → char ≠ '@' → char ∉ hostinfo netloc →
      (char ∈ netloc ↔ char ∈ joinUserinfo netloc) := by
    intro char noColon noAt notHost
    rw [joinUserinfo_eq]
    obtain ⟨info, split, _, isInfo⟩ | ⟨same, _, isInfo⟩ := netloc_cases netloc
    · have inSplit : char ∈ netloc ↔ char ∈ info ++ '@' :: hostinfo netloc := by
        rw [← split]
      simp [inSplit, isInfo, noAt, notHost, mem_rejoin noColon]
    · rw [same] at notHost
      simp [isInfo, notHost]
  rw [Urllib.accepts, Bool.and_eq_true, beq_iff_eq, decide_eq_decide]
    at accepted
  have balanced := accepted.1
  rwa [inInfo (by decide) (by decide) noBracket.1,
    inInfo (by decide) (by decide) noBracket.2] at balanced

include inNetloc in
theorem location_netloc (accepted : lib.accepts netloc) {port : Option ℕ}
    (isPort : port? netloc = some port) (nonzero : port ≠ some 0) :
    Location lib (joinUserinfo netloc) ((lib.hostname? netloc).getD []) port
      where
  userinfo := fun char member => inNetloc char (mem_joinUserinfo member)
  hostname := fun _ member => inNetloc_hostname inNetloc noBracket member
  rejoined := rejoin_joinUserinfo netloc
  lowered := lowered_hostname noBracket
  balanced := balanced_of_accepts noBracket accepted
  port := by
    intro value isValue
    refine ⟨?_, port_le noBracket isPort isValue⟩
    rintro rfl
    exact nonzero isValue

end Host

theorem location_nil (lib : Urllib) : Location lib [] [] none := by
  constructor
  · simp
  · simp
  · rfl
  · exact fun nonempty => absurd rfl nonempty
  · simp
  · simp

end Location

/-- What an URL must be for the codec to be faithful: no item has an empty value
behind a `=`, the port is not zero, the host has no brackets, and in a file URL
neither a network location is hidden by line breaks nor has the query slashes
that are taken for those behind the scheme. -/
structure Codable (lib : Urllib) (url : Text) (uri : Uri) : Prop where
  params : Valued uri.params
  query : Valued uri.query
  port : uri.port ≠ some 0
  host : ∀ again urlp, lib.reparsed (partition ';' url).1 = some (again, urlp) →
    '[' ∉ hostinfo urlp.netloc ∧ ']' ∉ hostinfo urlp.netloc
  file : uri.scheme = file → uri.userinfo = [] ∧ uri.hostname = [] ∧
    uri.port = none
  kept : uri.scheme = Fetch2.file → uri.path ≠ [] →
    dropSlashes uri.queryStr = uri.queryStr

theorem url_ne_nil {lib : Urllib} {url : Text} {uri : Uri}
    (accepted : Uri.ofUrl lib url = some uri) (scheme : uri.scheme ≠ []) :
    url ≠ [] := by
  rintro rfl
  cases accepted
  exact scheme rfl

theorem located_cases {lib : Urllib} {scheme again : Text} {urlp : Parsed}
    {located : Uri}
    (isLocated : Uri.located lib scheme again urlp = some located) :
    located = { Uri.empty with scheme := scheme } ∨
    ∃ port, port? urlp.netloc = some port ∧ located = { Uri.empty with
      scheme := scheme, userinfo := joinUserinfo urlp.netloc,
      hostname := (lib.hostname? urlp.netloc).getD [], port := port } := by
  rw [Uri.located] at isLocated
  split_ifs at isLocated
  · exact .inl (Option.some.inj isLocated).symm
  · right
    rw [Uri.locate] at isLocated
    obtain ⟨port, isPort, same⟩ := Option.bind_eq_some_iff.mp isLocated
    exact ⟨port, isPort, (Option.some.inj same).symm⟩

theorem wellFormed_of_ofUrl {lib : Urllib} {url : Text} {uri : Uri}
    (accepted : Uri.ofUrl lib url = some uri) (scheme : uri.scheme ≠ [])
    (codable : Codable lib url uri) : uri.WellFormed lib := by
  obtain ⟨first, urlp, again, located, reads, isFilled⟩ :=
    (ofUrl_eq_some (url_ne_nil accepted scheme)).mp accepted
  obtain ⟨splits, noSemicolon⟩ := splits_of_reads reads
  have inNetloc :=
    fun char => @inNetloc_of_splits lib urlp again splits noSemicolon char
  have noBracket := codable.host again urlp reads.isAgain
  have params : uri.params = splitItems ';' ((partition ';' url).2.getD []) :=
    congrArg Uri.params isFilled
  have query : uri.query = splitItems '&' urlp.query :=
    congrArg Uri.query isFilled
  have path : uri.path = lib.unquote urlp.path := congrArg Uri.path isFilled
  have isRelative : uri.relative =
      (uri.path ≠ [] && uri.path.head? ≠ some '/') := by
    rw [path]
    exact congrArg Uri.relative isFilled
  have isScheme : IsScheme uri.scheme := by
    have same : uri.scheme = first.scheme := by
      obtain isLocated | ⟨_, _, isLocated⟩ := located_cases reads.isLocated
      · rw [isFilled, isLocated]
        rfl
      · rw [isFilled, isLocated]
        rfl
    rw [same] at scheme ⊢
    exact (splits_of_urlparse reads.isFirst).scheme scheme
  have joinable : Joinable ';' uri.params ∧ Joinable '&' uri.query := by
    have valuedParams := codable.params
    have valuedQuery := codable.query
    rw [params] at valuedParams ⊢
    rw [query] at valuedQuery ⊢
    exact ⟨joinable_splitItems (by decide) valuedParams,
      joinable_splitItems (by decide) valuedQuery⟩
  have inQuery : ∀ char ∈ joinItems '&' uri.query, char ≠ '#' ∧ char ≠ ';' ∧
      char ∉ breaks := by
    intro char member
    rw [query] at member
    obtain rfl | rfl | inside := mem_joinItems_splitItems member
    · decide
    · decide
    · obtain ⟨noHash, among, noBreak⟩ := splits.query char inside
      refine ⟨noHash, ?_, noBreak⟩
      rintro rfl
      exact noSemicolon among
  -- A path without a slash comes with no network location.
  have absent : uri.relative = true → urlp.netloc = [] := by
    intro relative
    by_contra nonempty
    rw [isRelative, path] at relative
    rcases splits.path nonempty with empty | slash
    · rw [empty, unquote_nil] at relative
      simp at relative
    · obtain ⟨rest, isPath⟩ := List.head?_eq_some_iff.mp slash
      rw [isPath, lib.unquote_slash] at relative
      simp at relative
  have location : Location lib uri.userinfo uri.hostname uri.port ∧
      (urlp.netloc = [] →
      uri.userinfo = [] ∧ uri.hostname = [] ∧ uri.port = none) := by
    have nonzero := codable.port
    obtain isLocated | ⟨port, isPort, isLocated⟩ :=
      located_cases reads.isLocated
    · rw [isFilled, isLocated]
      exact ⟨location_nil lib, fun _ => ⟨rfl, rfl, rfl⟩⟩
    · rw [isFilled, isLocated] at nonzero ⊢
      refine ⟨location_netloc inNetloc noBracket splits.accepted isPort nonzero,
        ?_⟩
      intro empty
      rw [empty] at isPort ⊢
      cases isPort
      exact ⟨rfl, rfl, rfl⟩
  constructor
  · exact isScheme
  · exact location.1
  · exact isRelative
  · rintro (relative | isFile)
    · exact location.2 (absent relative)
    · exact codable.file isFile
  · exact joinable.1
  · exact joinable.2
  · exact inQuery
  · exact codable.kept

end Nvbmc.Fetch2
