import Nvbmc.Fetch2.Urlparse
import Nvbmc.Library.Dict
import Nvbmc.Library.Replace
import Nvbmc.Library.Words

/-!
# URIs

The class `URI`, and `decodeurl` and `encodeurl`, which go through it.  The
parameters after the first semicolon are taken off before the rest is parsed.
-/

namespace Nvbmc.Fetch2

open Nvbmc.Library

/-- Parameters or items of a query, in their order; an item may have no value.
-/
abbrev Items := Dict Text (Option Text)

structure Uri where
  scheme : Text
  userinfo : Text
  hostname : Text
  port : Option ℕ
  path : Text
  params : Items
  query : Items
  relative : Bool
deriving DecidableEq

/-- `URI()` -/
def Uri.empty : Uri where
  scheme := []
  userinfo := []
  hostname := []
  port := none
  path := []
  params := []
  query := []
  relative := false

def file : Text := ['f', 'i', 'l', 'e']

def git : Text := ['g', 'i', 't']

def relativeSchemes : List Text := [file, git]

def netlocForbidden : List Text := [file]

/-- `_param_str_split` -/
def splitItems (elmdelim : Char) (string : Text) : Items :=
  ((string.splitOn elmdelim).filter (· ≠ [])).foldl
    (fun items item => items.set (partition '=' item).1 (partition '=' item).2)
    []

def joinItem (item : Text × Option Text) : Text :=
  match item.2 with
  | none => item.1
  | some value => if value = [] then item.1 else item.1 ++ '=' :: value

/-- `_param_str_join` -/
def joinItems (elmdelim : Char) (items : Items) : Text :=
  [elmdelim].intercalate (items.map joinItem)

/-- What a text that is split at the delimiter has for an item. -/
structure IsItem (elmdelim : Char) (string : Text) (item : Text × Option Text) :
    Prop where
  name : ∀ char ∈ item.1, char ≠ '=' ∧ char ≠ elmdelim ∧ char ∈ string
  value : ∀ value, item.2 = some value → ∀ char ∈ value, char ≠ elmdelim ∧
    char ∈ string
  some : item.1 = [] → item.2 ≠ none

section Items

variable {elmdelim : Char} {string : Text} {item : Text × Option Text}
  {items : Items}

theorem isItem_partition {part : Text} (isPart : part ∈ string.splitOn elmdelim)
    (nonempty : part ≠ []) : IsItem elmdelim string (partition '=' part) := by
  rw [List.splitOn_eq_splitOnP] at isPart
  have inside : ∀ char ∈ part, char ≠ elmdelim ∧ char ∈ string := by
    intro char member
    obtain ⟨different, among⟩ := mem_of_mem_splitOnP isPart char member
    exact ⟨by simpa using different, among⟩
  constructor
  · intro char member
    refine ⟨?_, inside char (mem_of_mem_partition_fst member)⟩
    rintro rfl
    exact not_mem_partition_fst member
  · intro value second char member
    exact inside char (mem_of_mem_partition_snd second member)
  · intro unnamed
    obtain ⟨before, after, _, _, parts⟩ | ⟨_, parts⟩ := partition_cases '=' part
    · simp [parts]
    · rw [parts] at unnamed
      exact absurd unnamed nonempty

private theorem foldl_set_spec {parts : List Text}
    {property : Text × Option Text → Prop}
    (each : ∀ part ∈ parts, property (partition '=' part))
    (unique : items.keys.Nodup) (start : ∀ item ∈ items, property item) :
    let result : Items := parts.foldl
      (fun items part => items.set (partition '=' part).1
        (partition '=' part).2) items
    result.keys.Nodup ∧ ∀ item ∈ result, property item := by
  induction parts generalizing items with
  | nil => exact ⟨unique, start⟩
  | cons part parts induction =>
      apply induction
      · exact fun other member => each other (List.mem_cons_of_mem _ member)
      · exact Dict.nodup_keys_set unique _ _
      · intro item member
        rcases Dict.mem_of_mem_set member with old | ⟨name, value⟩
        · exact start item old
        · have same : item = partition '=' part := Prod.ext name value
          exact same ▸ each part List.mem_cons_self

theorem splitItems_spec (elmdelim : Char) (string : Text) :
    (splitItems elmdelim string).keys.Nodup ∧
    ∀ item ∈ splitItems elmdelim string, IsItem elmdelim string item := by
  apply foldl_set_spec
  · intro part member
    obtain ⟨isPart, nonempty⟩ := List.mem_filter.mp member
    exact isItem_partition isPart (by simpa using nonempty)
  · exact List.nodup_nil
  · simp

def Valued (items : Items) : Prop :=
  ∀ item ∈ items, item.2 ≠ some []

/-- The items can be read again when they have been joined. -/
structure Joinable (elmdelim : Char) (items : Items) : Prop where
  nodup : items.keys.Nodup
  name : ∀ item ∈ items, '=' ∉ item.1
  joined : ∀ item ∈ items, elmdelim ∉ joinItem item
  nonempty : ∀ item ∈ items, joinItem item ≠ []
  valued : Valued items

theorem mem_joinItem {char : Char} (member : char ∈ joinItem item) :
    char ∈ item.1 ∨ char = '=' ∨ ∃ value, item.2 = some value ∧
      char ∈ value := by
  obtain ⟨name, value⟩ := item
  cases value with
  | none => exact .inl member
  | some value =>
      simp only [joinItem] at member
      split_ifs at member
      · exact .inl member
      · rcases List.mem_append.mp member with inName | later
        · exact .inl inName
        · rcases List.mem_cons.mp later with isEqual | inValue
          · exact .inr (.inl isEqual)
          · exact .inr (.inr ⟨value, rfl, inValue⟩)

theorem partition_joinItem (name : '=' ∉ item.1) (valued : item.2 ≠ some []) :
    partition '=' (joinItem item) = item := by
  obtain ⟨key, value⟩ := item
  cases value with
  | none => exact partition_of_not_mem name
  | some value =>
      have nonempty : value ≠ [] := fun empty => valued (congrArg some empty)
      simp only [joinItem, if_neg nonempty]
      exact partition_append name value

theorem splitItems_joinItems (joinable : Joinable elmdelim items) :
    splitItems elmdelim (joinItems elmdelim items) = items := by
  have parts : ((joinItems elmdelim items).splitOn elmdelim).filter (· ≠ []) =
      items.map joinItem := by
    by_cases empty : items = []
    · subst empty
      rfl
    · rw [joinItems, List.splitOn_intercalate]
      · rw [List.filter_eq_self]
        intro part member
        obtain ⟨item, among, rfl⟩ := List.mem_map.mp member
        simpa using joinable.nonempty item among
      · intro part member
        obtain ⟨item, among, rfl⟩ := List.mem_map.mp member
        exact joinable.joined item among
      · simpa using empty
  rw [splitItems, parts, List.foldl_map]
  have same : ∀ (start : Items) (rest : Items), (∀ item ∈ rest, item ∈ items) →
      rest.foldl (fun items item => items.set (partition '=' (joinItem item)).1
        (partition '=' (joinItem item)).2) start =
      rest.foldl (fun items item => items.set item.1 item.2) start := by
    intro start rest among
    apply List.foldl_ext
    intro found item member
    have inside := among item member
    rw [partition_joinItem (joinable.name item inside)
      (joinable.valued item inside)]
  rw [same [] items fun _ member => member]
  exact Dict.foldl_set_of_nodup (by simpa using joinable.nodup)

theorem joinable_splitItems (different : elmdelim ≠ '=')
    (valued : Valued (splitItems elmdelim string)) :
    Joinable elmdelim (splitItems elmdelim string) := by
  obtain ⟨nodup, isItem⟩ := splitItems_spec elmdelim string
  constructor
  · exact nodup
  · intro item member inName
    exact ((isItem item member).name _ inName).1 rfl
  · intro item member inside
    rcases mem_joinItem inside with inName | isEqual | ⟨value, second, inValue⟩
    · exact ((isItem item member).name _ inName).2.1 rfl
    · exact different isEqual
    · exact ((isItem item member).value value second _ inValue).1 rfl
  · intro item member empty
    have parts :=
      partition_joinItem
        (fun inName => ((isItem item member).name _ inName).1 rfl)
      (valued item member)
    rw [empty] at parts
    exact (isItem item member).some (by rw [← parts]; rfl)
      (by rw [← parts]; rfl)
  · exact valued

theorem mem_joinItems_splitItems {char : Char}
    (member : char ∈ joinItems elmdelim (splitItems elmdelim string)) :
    char = elmdelim ∨ char = '=' ∨ char ∈ string := by
  obtain isDelimiter | ⟨part, among, inside⟩ := mem_intercalate member
  · exact .inl isDelimiter
  · obtain ⟨item, isMember, rfl⟩ := List.mem_map.mp among
    have isItem := (splitItems_spec elmdelim string).2 item isMember
    rcases mem_joinItem inside with inName | isEqual | ⟨value, second, inValue⟩
    · exact .inr (.inr (isItem.name char inName).2.2)
    · exact .inr (.inl isEqual)
    · exact .inr (.inr (isItem.value value second char inValue).2)

end Items

/-- The first `//` behind a colon is removed, if no third slash follows. -/
def dropSlashes : Text → Text
  | ':' :: '/' :: '/' :: rest =>
      if rest.head? = some '/' then ':' :: dropSlashes ('/' :: '/' :: rest)
      else ':' :: rest
  | char :: rest => char :: dropSlashes rest
  | [] => []

/-- The pattern `^\w+:(?!//)`, whose word can only be a relative scheme where it
is used. -/
def relativeReference (uri : Text) : Bool :=
  match splitOnce ':' uri with
  | some (word, rest) =>
      word ≠ [] && (word.all fun char => char.isAlphanum || char = '_') &&
        !(['/', '/'].isPrefixOf rest)
  | none => false

/-- The setter of `path`. -/
def Uri.setPath (uri : Uri) (path : Text) : Uri :=
  { uri with path := path, relative := path ≠ [] && path.head? ≠ some '/' }

/-- User name and password as they are put together, without an empty password.
-/
def joinUserinfo (netloc : Text) : Text :=
  (username? netloc).getD [] ++
    match password? netloc with
    | none => []
    | some password => if password = [] then [] else ':' :: password

def Uri.locate (lib : Urllib) (uri : Uri) (netloc : Text) : Option Uri := do
  let port ← port? netloc
  return { uri with
    userinfo := joinUserinfo netloc, hostname :=
      (lib.hostname? netloc).getD [], port := port }

/-- The text that is parsed in the end, and what `urlparse` makes of it. -/
def Urllib.reparsed (lib : Urllib) (uri : Text) : Option (Text × Parsed) := do
  let urlp ← lib.urlparse uri
  let uri := if urlp.scheme ∈ netlocForbidden then dropSlashes uri else uri
  let urlp ← lib.urlparse uri
  return (uri, urlp)

/-- The object with its network location, which a relative reference has not. -/
def Uri.located (lib : Urllib) (scheme uri : Text) (urlp : Parsed) :
    Option Uri :=
  let start := { Uri.empty with scheme := scheme }
  if urlp.scheme ∈ relativeSchemes ∧ relativeReference uri then some start
  else start.locate lib urlp.netloc

def Uri.filled (lib : Urllib) (uri : Uri) (urlp : Parsed)
    (paramStr : Option Text) : Uri :=
  { uri.setPath (lib.unquote urlp.path) with
    params := splitItems ';' (paramStr.getD []), query :=
      splitItems '&' urlp.query }

/-- `URI(uri)`, `none` for a `ValueError`.  The scheme is that of the text as it
is given. -/
def Uri.ofUrl (lib : Urllib) (url : Text) : Option Uri :=
  if url = [] then some Uri.empty
  else do
    let (uri, paramStr) := partition ';' url
    let first ← lib.urlparse uri
    let (uri, urlp) ← lib.reparsed uri
    let located ← Uri.located lib first.scheme uri urlp
    return located.filled lib urlp paramStr

/-- The property `hostport`. -/
def Uri.hostport (uri : Uri) : Text :=
  match uri.port with
  | none => uri.hostname
  | some port =>
      if port = 0 then uri.hostname
      else uri.hostname ++ ':' :: Nat.toDigits 10 port

def Uri.queryStr (uri : Uri) : Text :=
  if uri.query = [] then [] else '?' :: joinItems '&' uri.query

def Uri.paramStr (uri : Uri) : Text :=
  if uri.params = [] then [] else ';' :: joinItems ';' uri.params

/-- `__str__` -/
def Uri.str (lib : Urllib) (uri : Uri) : Text :=
  uri.scheme ++ ':' :: ((if uri.relative then [] else ['/', '/']) ++
    (if uri.userinfo = [] then [] else uri.userinfo ++ ['@']) ++ uri.hostport ++
    lib.quote uri.path ++ uri.queryStr ++ uri.paramStr)

/-- The property `username`. -/
def Uri.username (uri : Uri) : Text :=
  (partition ':' uri.userinfo).1

/-- The property `password`. -/
def Uri.password (uri : Uri) : Text :=
  (partition ':' uri.userinfo).2.getD []

def Uri.setUsername (uri : Uri) (username : Text) : Uri :=
  { uri with userinfo :=
      username ++ if uri.password = [] then [] else ':' :: uri.password }

def Uri.setPassword (uri : Uri) (password : Text) : Uri :=
  { uri with userinfo := uri.username ++ ':' :: password }

/-- The tokens of an URL. -/
structure Decoded where
  type : Text
  host : Text
  path : Text
  user : Text
  pswd : Text
  p : Items
deriving DecidableEq

/-- What `decodeurl` returns of an object. -/
def Uri.tokens (uri : Uri) : Decoded where
  type := uri.scheme
  host := uri.hostport
  path := if uri.path = [] then ['/'] else uri.path
  user := uri.username
  pswd := uri.password
  p := uri.params

def decodeurl (lib : Urllib) (url : Text) : Option Decoded :=
  (Uri.ofUrl lib url).map Uri.tokens

/-- `while '//' in path`, for so many rounds. -/
def standardiseFor : ℕ → Text → Text
  | 0, path => path
  | rounds + 1, path =>
      if ['/', '/'] <:+: path then
        standardiseFor rounds (replaceAll ['/', '/'] ['/'] path)
      else path

/-- The path in which comparisons work.  Each round takes a slash away. -/
def standardise (path : Text) : Text :=
  standardiseFor path.length path

private theorem standardiseFor_eq {rounds : ℕ} {path : Text}
    (enough : path.length ≤ rounds) :
    standardiseFor rounds path = squeezed '/' path := by
  induction rounds generalizing path with
  | zero =>
      rw [List.eq_nil_of_length_eq_zero (Nat.le_zero.mp enough)]
      rfl
  | succ rounds induction =>
      rw [standardiseFor]
      split_ifs with pair
      · have shorter := (length_replaceAll_pair path).2 pair
        rw [induction (by omega), squeezed_replaceAll]
      · exact (squeezed_of_absent pair).symm

theorem standardise_eq (path : Text) : standardise path = squeezed '/' path :=
  standardiseFor_eq le_rfl

/-- The user name and the password are set, but not for a file. -/
def Uri.withUser (uri : Uri) (decoded : Decoded) : Uri :=
  if decoded.user ≠ [] ∧ decoded.type ≠ file then
    let uri := uri.setUsername decoded.user
    if decoded.pswd ≠ [] then uri.setPassword decoded.pswd else uri
  else uri

def Uri.withHost (uri : Uri) (decoded : Decoded) : Uri :=
  if decoded.host ≠ [] ∧ decoded.type ≠ file then
    { uri with hostname := decoded.host }
  else uri

/-- The path is set; that of a file is written behind two slashes. -/
def Uri.withPath (uri : Uri) (decoded : Decoded) : Uri :=
  if decoded.path ≠ [] then
    let uri := uri.setPath (standardise decoded.path)
    if decoded.type = file then { uri with relative := false } else uri
  else uri

def Uri.withParams (uri : Uri) (decoded : Decoded) : Uri :=
  if decoded.p ≠ [] then { uri with params := decoded.p } else uri

/-- The object that `encodeurl` fills. -/
def Decoded.toUri (decoded : Decoded) : Uri :=
  let uri := { Uri.empty with scheme := decoded.type }
  (((uri.withUser decoded).withHost decoded).withPath decoded).withParams
  decoded

/-- `encodeurl`, `none` for its `MissingParameterError`. -/
def encodeurl (lib : Urllib) (decoded : Decoded) : Option Text :=
  if decoded.type = [] then none else some (decoded.toUri.str lib)

end Nvbmc.Fetch2
