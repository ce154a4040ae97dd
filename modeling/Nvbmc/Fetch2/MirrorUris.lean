import Nvbmc.Library.Dict
import Nvbmc.Library.Raising
import Nvbmc.Library.Text

/-!
# The URIs of the mirrors

`build_mirroruris` and `trusted_network`.  What `uri_replace`, `decodeurl`,
`FetchData` and `setup_localpath` come to is given.
-/

namespace Nvbmc.Fetch2

open Nvbmc.Library

/-- The fields of the fetch data of an URL that are used here, and what else is
in it. -/
structure FetchData (α : Type) where
  type : Text
  host : Text
  path : Text
  url : Text
  mirrortarballs : List Text
  other : α

/-- What escapes a call. -/
inductive Raised (ε : Type) where
  /-- `UnboundLocalError` -/
  | unboundLocal
  | other (error : ε)

/-- What `FetchData` and then `setup_localpath` come to. -/
inductive Built (α ε : Type) where
  | ok (newud : FetchData α)
  /-- `setup_localpath` raised a `BBFetchException`. -/
  | noLocalpath (newud : FetchData α)
  /-- `FetchData` raised a `BBFetchException`. -/
  | noObject
  | raised (error : Raised ε)

/-- A line of the mirrors, which should be a pair. -/
abbrev Line := List Text

/-- The variables that `trusted_network` reads, and `str.lower`. -/
structure NetworkVars where
  noNetwork : Bool
  pkgname : Text
  packageHosts : Text
  allowedNetworks : Text
  lower : Text → Text

/-- The outcomes of the calls; those of `FetchData` by their number. -/
structure Calls (α ε : Type) where
  uriReplace : FetchData α → Text → Text → Dict Text Text → Option Text →
    Except (Raised ε) (Option Text)
  /-- The network location in `decodeurl(url)`. -/
  network : Text → Except (Raised ε) Text
  vars : NetworkVars
  fetchData : ℕ → Text → Built α ε

variable {α ε : Type}

def NetworkVars.trustedHosts (vars : NetworkVars) : Text :=
  if vars.pkgname ≠ [] ∧ vars.packageHosts ≠ [] then vars.packageHosts
  else vars.allowedNetworks

/-- The entry allows the network, which may be below a domain. -/
def allows (network host : Text) : Bool :=
  (['*', '.'] <+: host && host.tail <:+ '.' :: network) || host == network

/-- `trusted_network` -/
def trustedNetwork (calls : Calls α ε) (url : Text) : Except (Raised ε) Bool :=
  if calls.vars.noNetwork then .ok true
  else if calls.vars.trustedHosts = [] then .ok true
  else
    match calls.network url with
    | .error error => .error error
    | .ok network =>
        if network = [] then .ok true
        else
          let network := calls.vars.lower ((network.splitOn ':').headD [])
          .ok ((calls.vars.trustedHosts.splitOn ' ').any fun host =>
            allows network (calls.vars.lower host))

inductive MirrorError (ε : Type) where
  | raised (error : Raised ε)
  | outOfFuel

/-- A call that was made, with its outcome and what it depends on. -/
inductive Step (α ε : Type) where
  | replaced (outcome : Except (Raised ε) (Option Text))
  | trusted (outcome : Except (Raised ε) Bool)
  /-- `newud` is what the variable held before. -/
  | fetched (newud : Option (FetchData α)) (outcome : Built α ε)

/-- The two lists, and for the statements all calls. -/
structure MirrorState (α ε : Type) where
  uris : List Text
  uds : List (FetchData α)
  steps : List (Step α ε)

def MirrorState.note (state : MirrorState α ε) (step : Step α ε) :
    MirrorState α ε :=
  { state with steps := state.steps ++ [step] }

def MirrorState.append (state : MirrorState α ε) (newuri : Text)
    (newud : FetchData α) : MirrorState α ε :=
  { state with uris := state.uris ++ [newuri], uds := state.uds ++ [newud] }

/-- A call of `adduri` while it runs, with its variable `newud`. -/
structure Frame (α ε : Type) where
  state : MirrorState α ε
  newud : Option (FetchData α)

/-- `except UnboundLocalError: pass` -/
def caught : Except (MirrorError ε) Unit → Except (MirrorError ε) Unit
  | .error (.raised .unboundLocal) => .ok ()
  | result => result

/-- `replacements` -/
def replacements (origud : FetchData α) : Dict Text Text :=
  let dotted (char : Char) := if char = '/' ∨ char = '*' then '.' else char
  [("TYPE".toList, origud.type),
    ("HOST".toList, origud.host),
    ("PATH".toList, origud.path),
    ("BASENAME".toList, (origud.path.splitOn '/').getLastD []),
    ("MIRRORNAME".toList,
      (origud.host.map fun char => if char = ':' then '.' else char) ++
        origud.path.map dotted)]

/-- A recursive call of `adduri`. -/
abbrev Recursion (α ε : Type) :=
  FetchData α → List Line → MirrorState α ε →
    Ending (MirrorError ε) (MirrorState α ε)

/-- A recursive call, with the variable `newud` after it. -/
def descend (recursion : Recursion α ε) (newud : FetchData α)
    (localmirrors : List Line)
    (state : MirrorState α ε) : Ending (MirrorError ε) (Frame α ε) :=
  let (result, state) := recursion newud localmirrors state
  (result, ⟨state, some newud⟩)

/-- The same in the handler of a `BBFetchException`. -/
def descendCaught (recursion : Recursion α ε) (newud : FetchData α)
    (localmirrors : List Line)
    (state : MirrorState α ε) : Ending (MirrorError ε) (Frame α ε) :=
  let (result, frame) := descend recursion newud localmirrors state
  (caught result, frame)

/-- The round for a line and a tarball. -/
def tryMirror (calls : Calls α ε) (origud : FetchData α)
    (recursion : Recursion α ε) (ud : FetchData α) (mirrors : List Line)
    (line : Line) (find replace : Text)
    (tarball : Option Text) (frame : Frame α ε) :
    Ending (MirrorError ε) (Frame α ε) :=
  let outcome := calls.uriReplace ud find replace (replacements origud) tarball
  let state := frame.state.note (.replaced outcome)
  match outcome with
  | .error error => (.error (.raised error), ⟨state, frame.newud⟩)
  | .ok newuri =>
      let newuri := newuri.getD []
      if newuri = [] ∨ newuri ∈ state.uris ∨ newuri = origud.url then
        (.ok (), ⟨state, frame.newud⟩)
      else
        let trusted := trustedNetwork calls newuri
        let state := state.note (.trusted trusted)
        match trusted with
        | .error error => (.error (.raised error), ⟨state, frame.newud⟩)
        | .ok false => (.ok (), ⟨state, frame.newud⟩)
        | .ok true =>
            let localmirrors := mirrors.erase line
            let built := calls.fetchData state.steps.length newuri
            let state := state.note (.fetched frame.newud built)
            match built with
            | .ok newud =>
                descend recursion newud localmirrors (state.append newuri newud)
            | .noLocalpath newud =>
                descendCaught recursion newud localmirrors state
            | .noObject =>
                match frame.newud with
                | none => (.ok (), ⟨state, none⟩)
                -- the object of an earlier round
                | some newud => descendCaught recursion newud localmirrors state
            | .raised error => (.error (.raised error), ⟨state, frame.newud⟩)

/-- The round for a line, which is skipped if it is no pair. -/
def tryLine (calls : Calls α ε) (origud : FetchData α)
    (tarballs : List (Option Text)) (recursion : Recursion α ε)
    (ud : FetchData α) (mirrors : List Line) (line : Line)
    (frame : Frame α ε) : Ending (MirrorError ε) (Frame α ε) :=
  match line with
  | [find, replace] =>
      forEach (tryMirror calls origud recursion ud mirrors line find replace)
        tarballs frame
  | _ => (.ok (), frame)

/-- `adduri` -/
def adduri (calls : Calls α ε) (origud : FetchData α)
    (tarballs : List (Option Text)) : ℕ → Recursion α ε
  | 0 => fun _ _ state => (.error .outOfFuel, state)
  | fuel + 1 => fun ud mirrors state =>
      let recursion := adduri calls origud tarballs fuel
      let (result, frame) :=
        forEach (tryLine calls origud tarballs recursion ud mirrors) mirrors
          ⟨state, none⟩
      (result, frame.state)

/-- `build_mirroruris`; each recursive call has one line less. -/
def buildMirroruris (calls : Calls α ε) (origud : FetchData α)
    (mirrors : List Line) : Ending (MirrorError ε) (MirrorState α ε) :=
  let tarballs :=
    if origud.mirrortarballs = [] then [none]
    else origud.mirrortarballs.map some
  adduri calls origud tarballs (mirrors.length + 1) origud mirrors ⟨[], [], []⟩

end Nvbmc.Fetch2
