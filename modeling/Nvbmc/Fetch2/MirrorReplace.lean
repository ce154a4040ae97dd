import Nvbmc.Fetch2.Uri
import Nvbmc.Library.Paths

/-!
# The URL of a mirror

`decodemirrorurl` and `uri_replace`.  What `re.match` and `re.sub` do with the
patterns of a mirror entry, and whether the method of an URL supports checksums,
is given.
-/

namespace Nvbmc.Fetch2

open Nvbmc.Library

/-- What escapes `uri_replace`. -/
inductive ReplaceError (ε : Type) where
  | malformedUrl
  /-- `UnboundLocalError`, for the password -/
  | unboundLocal
  /-- `KeyError`, for a parameter -/
  | keyError (key : Text)
  | missingParameter
  /-- `re.error` -/
  | re (error : ε)
deriving DecidableEq

/-- `re.match(pattern, string)` and `re.sub(pattern, template, string,
count=1)`. -/
structure Regexes (ε : Type) where
  isMatch : Text → Text → Except ε Bool
  sub : Text → Text → Text → Except ε Text

structure MirrorTokens where
  type : Text
  host : Text
  path : Text
  user : Text
  pswd : Text
  p : Dict Text Text
deriving DecidableEq

/-- The groups of the pattern of `decodemirrorurl`. -/
structure Groups where
  type : Text
  user : Option Text
  location : Text
  parm : Option Text
deriving DecidableEq

def startsLocation (rest : Text) : Bool :=
  rest ≠ [] && rest.head? ≠ some ';'

/-- The group `user`, as long as possible, with an `@` behind it, and the rest.
-/
def matchUser (rest : Text) : Option Text × Text :=
  let run := rest.takeWhile fun char => char ∉ ['/', ';']
  match (List.range run.length).reverse.find? fun index =>
      index ≠ 0 && run[index]? =
        some '@' && startsLocation (rest.drop (index + 1)) with
  | some index => (some (rest.take index), rest.drop (index + 1))
  | none => (none, rest)

/-- The pattern
`(?P<type>[^:]*)://((?P<user>[^/;]+)@)?(?P<location>[^;]+)(;(?P<parm>.*))?`. -/
def matchMirror (url : Text) : Option Groups :=
  match splitOnce ':' url with
  | some (type, '/' :: '/' :: rest) =>
      let (user, rest) := matchUser rest
      let (location, parm) := partition ';' rest
      if location = [] then none
      else some ⟨type, user, location, parm.map fun text =>
        text.takeWhile (· ≠ '\n')⟩
  | _ => none

/-- The pattern `(?P<user>[^:]+)(:?(?P<pswd>.*))`. -/
def matchName (user : Text) : Option (Text × Text) :=
  let (name, pswd) := partition ':' user
  if name = [] then none else some (name, (pswd.getD []).takeWhile (· ≠ '\n'))

/-- Host, path and user, of which a file has only the path. -/
def Groups.place (lib : Urllib) (groups : Groups) : Text × Text × Text :=
  let user := groups.user.getD []
  if lib.lower groups.type = file then
    ([],
      if user = [] then groups.location else user ++ '@' :: groups.location, [])
  else
    match partition '/' groups.location with
    | (host, some path) => (host, '/' :: path, user)
    | (host, none) => (host, ['/'], user)

/-- User name and password; the password is not set if the pattern does not
match. -/
def splitName (user : Text) : Text × Option Text :=
  if user = [] then ([], some [])
  else
    match matchName user with
    | some (name, pswd) => (name, some pswd)
    | none => (user, none)

/-- The parameters, `none` if one has no value. -/
def mirrorParams (parm : Text) : Option (Dict Text Text) :=
  ((parm.splitOn ';').filter (· ≠ [])).foldlM (fun params part =>
    match partition '=' part with
    | (name, some value) => some (params.set name value)
    | (_, none) => none) []

def decodemirrorurl {ε : Type} (lib : Urllib) (url : Text) :
    Except (ReplaceError ε) MirrorTokens :=
  match matchMirror url with
  | none => .error .malformedUrl
  | some groups =>
      let (host, path, user) := groups.place lib
      let (user, pswd) := splitName user
      match mirrorParams (groups.parm.getD []), pswd with
      | none, _ => .error .malformedUrl
      | some _, none => .error .unboundLocal
      | some params, some pswd =>
          .ok ⟨groups.type, host, lib.unquote path, user, pswd, params⟩

/-- The components that are texts, in their order. -/
inductive Part where
  | type
  | host
  | path
  | user
  | pswd
deriving DecidableEq

namespace MirrorTokens

def get (tokens : MirrorTokens) : Part → Text
  | .type => tokens.type
  | .host => tokens.host
  | .path => tokens.path
  | .user => tokens.user
  | .pswd => tokens.pswd

def set (tokens : MirrorTokens) (text : Text) : Part → MirrorTokens
  | .type => { tokens with type := text }
  | .host => { tokens with host := text }
  | .path => { tokens with path := text }
  | .user => { tokens with user := text }
  | .pswd => { tokens with pswd := text }

/-- The type stands alone: `https` is not to be matched by `http`. -/
def regexp (find : MirrorTokens) (part : Part) : Text :=
  if part = .type ∧ find.type ≠ [] ∧ find.type.getLast? ≠ some '$' then
    find.type ++ ['$']
  else find.get part

/-- The tokens for `encodeurl`. -/
def toDecoded (tokens : MirrorTokens) : Decoded where
  type := tokens.type
  host := tokens.host
  path := tokens.path
  user := tokens.user
  pswd := tokens.pswd
  p := tokens.p.map fun param => (param.1, some param.2)

end MirrorTokens

/-- What `uri_replace` uses of the fetch data. -/
structure MirrorData where
  url : Text
  localpath : Text
  /-- `ud.method.supports_checksum(ud)` -/
  supportsChecksum : Bool

/-- The decoded URLs, which change as the loop goes on, and the result. -/
structure Replacing where
  uri : MirrorTokens
  find : MirrorTokens
  replace : MirrorTokens
  result : MirrorTokens

/-- `os.path.basename` -/
def osBasename (path : Text) : Text :=
  match rsplitOnce '/' path with
  | some (_, name) => name
  | none => path

/-- The path with this base name in place of that of the URL, or below it. -/
def rebased (name uriName path : Text) : Text :=
  let path := '/' :: path
  if uriName ≠ [] ∧ name ≠ uriName ∧ '/' :: uriName <:+ path then
    path.tail.take (path.tail.length - uriName.length) ++ name
  else if ¬ '/' :: name <:+ path then joinPaths path.tail name
  else path.tail

section Rounds

variable {ε : Type} (re : Regexes ε) (ud : MirrorData)
  (replacements : Dict Text Text) (mirrortarball : Text)

/-- The base name that the path is to have, and whether the parameters are
dropped. -/
def newBasename (state : Replacing) : Text × Bool :=
  if state.uri.type ≠ state.replace.type ∧ mirrortarball ≠ [] then
    (osBasename mirrortarball, true)
  else if ud.localpath ≠ [] ∧ ud.supportsChecksum then
    (osBasename ud.localpath, false)
  else ([], false)

/-- The path is adapted to the file that the mirror has. -/
def pathRound (state : Replacing) : Replacing :=
  let (name, dropped) := newBasename ud mirrortarball state
  let state :=
    if dropped then
      { state with
        uri := { state.uri with p := [] }, find := { state.find with p := [] } }
    else state
  if name = [] then state
  else
    let path := rebased name (osBasename state.uri.path) state.result.path
    { state with result := { state.result with path := path } }

def matchedRound (part : Part) (state : Replacing) :
    Except (ReplaceError ε) Replacing :=
  if state.replace.get part = [] then
    .ok { state with result := state.result.set [] part }
  else
    let template := replaceEach replacements (state.replace.get part)
    match re.sub (state.find.regexp part) template (state.uri.get part) with
    | .error error => .error (.re error)
    | .ok text => .ok { state with
        replace := state.replace.set template part, result :=
          state.result.set text part }

/-- The round of a component, with nothing as result if `uri_replace` returns
`None`. -/
def partRound (part : Part) (state : Replacing) :
    Except (ReplaceError ε) (Option Replacing) :=
  if (part = .user ∨ part = .pswd) ∧ state.replace.get part ≠ [] then
    .ok (some { state with
      result := state.result.set (state.replace.get part) part })
  else
    match re.isMatch (state.find.regexp part) (state.uri.get part) with
    | .error error => .error (.re error)
    | .ok false => .ok none
    | .ok true =>
        match matchedRound re replacements part state with
        | .error error => .error error
        | .ok state =>
            .ok (some (if part = .path then pathRound ud mirrortarball state
                       else state))

def partRounds : List Part → Replacing → Except (ReplaceError ε)
    (Option Replacing)
  | [], state => .ok (some state)
  | part :: parts, state =>
      match partRound re ud replacements mirrortarball part state with
      | .error error => .error error
      | .ok none => .ok none
      | .ok (some state) => partRounds parts state

def findParams (uri : Dict Text Text) :
    Dict Text Text → Except (ReplaceError ε) Bool
  | [] => .ok true
  | (name, value) :: rest =>
      match uri.get? name with
      | none => .error (.keyError name)
      | some found => if found ≠ value then .ok false else findParams uri rest

def overwriteParams (uri replace : Dict Text Text) : Dict Text Text :=
  replace.foldl
    (fun params param => params.set param.1 (replaceEach replacements param.2))
    uri

def paramsRound (state : Replacing) :
    Except (ReplaceError ε) (Option MirrorTokens) :=
  match findParams state.uri.p state.find.p with
  | .error error => .error error
  | .ok false => .ok none
  | .ok true => .ok (some { state.result with
      p := overwriteParams replacements state.uri.p state.replace.p })

def noTokens : MirrorTokens := ⟨[], [], [], [], [], []⟩

/-- The loop over the six components. -/
def replaced (uri find replace : MirrorTokens) :
    Except (ReplaceError ε) (Option MirrorTokens) :=
  match partRounds re ud replacements mirrortarball [.type, .host, .path, .user,
    .pswd] ⟨uri, find, replace, noTokens⟩ with
  | .error error => .error error
  | .ok none => .ok none
  | .ok (some state) => paramsRound replacements state

/-- `uri_replace(ud, find, replace, replacements, d, mirrortarball)` -/
def uriReplace (lib : Urllib) (find replace : Text) :
    Except (ReplaceError ε) (Option Text) :=
  if ud.url = [] ∨ find = [] ∨ replace = [] then .ok none
  else do
    let uriDecoded ← decodemirrorurl lib ud.url
    let findDecoded ← decodemirrorurl lib find
    let replaceDecoded ← decodemirrorurl lib replace
    match ← replaced re ud replacements mirrortarball uriDecoded findDecoded
      replaceDecoded with
    | none => return none
    | some tokens =>
        match encodeurl lib tokens.toDecoded with
        | none => throw .missingParameter
        | some result => return if result = ud.url then none else some result

end Rounds

end Nvbmc.Fetch2
