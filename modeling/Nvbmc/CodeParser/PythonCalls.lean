import Nvbmc.Library.Dict
import Nvbmc.Library.Words

/-!
# Dependencies of a python function

`PythonParser` goes over the calls of a function body and collects what they
refer to.  The syntax tree is given by its calls; expressions that are no
constants are not looked into.
-/

namespace Nvbmc.CodeParser

open Nvbmc.Library

inductive PyError where
  | indexError
  | attributeError
  | typeError
  | keyError
  | raised (message : Text)
  deriving DecidableEq

/-- A constant: a text, bytes with their words, or another one; `shown` is its
`str`. -/
inductive Const where
  | str (text : Text)
  | bytes (pieces : List Text) (shown : Text)
  | other (shown : Text)
  deriving DecidableEq

def Const.shown : Const → Text
  | .str text => text
  | .bytes _ shown => shown
  | .other shown => shown

/-- `value.split()`. -/
def Const.split : Const → Except PyError (List Const)
  | .str text => .ok ((words text).map .str)
  | .bytes pieces _ => .ok (pieces.map fun piece => .bytes [piece] piece)
  | .other _ => .error .attributeError

/-- A positional argument, which may be starred. -/
inductive Arg (Expr : Type) where
  | const (value : Const)
  | expr (expr : Expr)

/-- A call: `called_node_name` of its function and its positional arguments. -/
structure Call (Expr : Type) where
  name : Option Text
  args : List (Arg Expr)

/-- What the visitor code of a library function returns. -/
structure Visited (Expr : Type) where
  contains : Dict Text (List Text)
  execs : List Text
  warn : Option (Arg Expr)
  nodup : contains.keys.Nodup

/-- What expanding a text refers to. -/
structure VariableParse where
  references : List Text
  execs : List Text
  contains : Dict Text (List Text)
  nodup : contains.keys.Nodup

/-- What is outside of the parser: the visitor code of `modulecode_deps`,
`codegen.to_source`, with what it raises, and `expandWithRefs` in a new data
store. -/
structure Surroundings (Expr : Type) where
  visitorcode : Text → Option (List (Arg Expr) → Except PyError (Visited Expr))
  toSource : Expr → Option PyError
  expandWithRefs : Text → Except PyError VariableParse

/-- The sets of the parser. -/
structure Deps where
  references : List Text
  execs : List Const
  varExecs : List Const
  contains : Dict Text (List Const)

def Deps.empty : Deps :=
  ⟨[], [], [], []⟩

def getvars : List Text :=
  [".getVar".toList, ".appendVar".toList, ".prependVar".toList,
    "oe.utils.conditional".toList]

def getvarflags : List Text :=
  [".getVarFlag".toList, ".appendVarFlag".toList, ".prependVarFlag".toList]

def containsfuncs : List Text :=
  ["bb.utils.contains".toList, "base_contains".toList]

def containsanyfuncs : List Text :=
  ["bb.utils.contains_any".toList, "bb.utils.filter".toList]

def execfuncs : List Text :=
  ["bb.build.exec_func".toList, "bb.build.exec_task".toList]

/-- `name.endswith` for some endings. -/
def endswith (name : Text) (endings : List Text) : Bool :=
  endings.any (·.isSuffixOf name)

/-- Items are added to the set of a variable, which is made if there is none. -/
def addContains (contains : Dict Text (List Const)) (varname : Text)
    (items : List Const) : Dict Text (List Const) :=
  contains.set varname ((contains.get? varname).getD [] ++ items)

section Parser

variable {Expr : Type} (around : Surroundings Expr)

/-- `warn`: only a `TypeError` is caught. -/
def warn : Arg Expr → Except PyError Unit
  | .const _ => .ok ()
  | .expr expr =>
      match around.toSource expr with
      | none => .ok ()
      | some .typeError => .ok ()
      | some error => .error error

/-- The branch of library functions with visitor code: their sets take the place
of the old. -/
def visitLibrary (visited : Visited Expr) (deps : Deps) : Except PyError Deps :=
  let deps := { deps with
    contains := visited.contains.foldl
      (fun contains entry => contains.set entry.1 (entry.2.map .str))
      deps.contains
    execs := deps.execs ++ visited.execs.map .str }
  match visited.warn with
  | none => .ok deps
  | some arg => (warn around arg).map fun _ => deps

/-- The functions that read a variable, with its name and the other arguments.
-/
def visitNamed (name varname : Text) (rest : List (Arg Expr)) (deps : Deps) :
    Except PyError Deps :=
  if name ∈ containsfuncs then
    match rest with
    | [] => .error .indexError
    | .const value :: _ =>
        .ok { deps with contains := addContains deps.contains varname [value] }
    | .expr _ :: _ =>
        .ok { deps with references := deps.references ++ [varname] }
  else if name ∈ containsanyfuncs then
    match rest with
    | [] => .error .indexError
    | .const value :: _ =>
        value.split.map fun items =>
          { deps with contains := addContains deps.contains varname items }
    | .expr _ :: _ =>
        .ok { deps with references := deps.references ++ [varname] }
  else if endswith name getvarflags then
    match rest with
    | [] => .error .indexError
    | .const value :: _ => .ok { deps with
        references :=
          deps.references ++ [varname ++ '[' :: value.shown ++ [']']] }
    | .expr expr :: _ => (warn around (.expr expr)).map fun _ => deps
  else .ok { deps with references := deps.references ++ [varname] }

/-- The branch of the functions that read a variable. -/
def visitGetter (name : Text) (args : List (Arg Expr)) (deps : Deps) :
    Except PyError Deps :=
  match args with
  | [] => .error .indexError
  | .const (.str varname) :: rest => visitNamed around name varname rest deps
  | arg :: _ => (warn around arg).map fun _ => deps

/-- The branch of `expand`; nothing is expanded in a constant that is no text.
-/
def visitExpand (args : List (Arg Expr)) (deps : Deps) : Except PyError Deps :=
  match args with
  | [] => .error .indexError
  | .const (.str value) :: _ =>
      (around.expandWithRefs value).map fun parser => { deps with
        references := deps.references ++ parser.references
        execs := deps.execs ++ parser.execs.map .str
        contains := parser.contains.foldl
          (fun contains entry => addContains contains entry.1
            (entry.2.map .str)) deps.contains }
  | _ :: _ => .ok deps

/-- The branch of the functions that run another one. -/
def visitExec (args : List (Arg Expr)) (deps : Deps) : Except PyError Deps :=
  match args with
  | [] => .error .indexError
  | .const value :: _ => .ok { deps with varExecs := deps.varExecs ++ [value] }
  | .expr expr :: _ => (warn around (.expr expr)).map fun _ => deps

def isGetter (name : Text) : Bool :=
  endswith name getvars || endswith name getvarflags || name ∈ containsfuncs ||
    name ∈ containsanyfuncs

/-- `visit_Call`. -/
def visitCall (deps : Deps) (call : Call Expr) : Except PyError Deps :=
  match call.name with
  | none => .ok deps
  | some name =>
      match around.visitorcode name with
      | some visitor =>
          (visitor call.args).bind fun visited => visitLibrary around visited
            deps
      | none =>
          if isGetter name then visitGetter around name call.args deps
          else if endswith name [".expand".toList] then
            visitExpand around call.args deps
          else if name ∈ execfuncs then visitExec around call.args deps
          else .ok { deps with execs := deps.execs ++ [.str name] }

/-- The variables that a module function names for itself. -/
structure VarDeps where
  vardeps : List Text
  vardepsexclude : List Text

/-- The walk over the calls and what follows it. -/
def visitAll (func : Option VarDeps) (calls : List (Call Expr)) :
    Except PyError Deps :=
  (calls.foldlM (visitCall around) Deps.empty).map fun deps =>
    let references := match func with
      | none => deps.references
      | some func =>
          (deps.references ++ func.vardeps).filter (· ∉ func.vardepsexclude)
    { deps with references := references, execs := deps.execs ++ deps.varExecs }

/-- Whether `sys.intern` takes all items. -/
def interned (items : List Const) : Bool :=
  items.all fun item => match item with
    | .str _ => true
    | _ => false

structure PythonCacheLine (Hash : Type) where
  references : List Text
  execs : List Const
  contains : Dict Text (List Const)
  extra : Option Hash

/-- `newPythonCacheLine`, of the sets of a parser. -/
def newPythonCacheLine {Hash : Type} (deps : Deps) (extra : Option Hash) :
    Except PyError (PythonCacheLine Hash) :=
  if interned deps.execs && deps.contains.all (interned ·.2) then
    .ok ⟨deps.references, deps.execs, deps.contains, extra⟩
  else .error .typeError

structure PythonCaches (Hash : Type) where
  pythoncache : Dict Hash (PythonCacheLine Hash)
  pythoncacheextras : Dict Hash (PythonCacheLine Hash)

/-- What is asked of a parser: a text, or that of a function of a module. -/
structure Request (Hash : Type) where
  node : Option Text
  fixed : Option (Hash × VarDeps)

variable {Hash : Type} (bbhash : Text → Hash)
  (parse : Text → Except PyError (List (Call Expr)))

def Request.blank (request : Request Hash) : Bool :=
  (request.node.getD []).all isspace

def Request.key (request : Request Hash) : Hash :=
  request.fixed.elim (bbhash (request.node.getD [])) Prod.fst

def freshCalls (func : Option VarDeps) (extra : Option Hash)
    (calls : List (Call Expr)) : Except PyError (PythonCacheLine Hash) :=
  (visitAll around func calls).bind fun deps => newPythonCacheLine deps extra

/-- What a new parser finds for a text: `parse` gives the calls of its syntax
tree. -/
def freshLine (request : Request Hash) (text : Text) :
    Except PyError (PythonCacheLine Hash) :=
  (parse text).bind
    (freshCalls around (request.fixed.map Prod.snd)
      (request.fixed.map fun _ => bbhash text))

/-- `parse_python` of a new parser: what it holds then, and the caches. -/
def parsePython [DecidableEq Hash] (caches : PythonCaches Hash)
    (request : Request Hash) :
    Except PyError (PythonCacheLine Hash × PythonCaches Hash) :=
  if request.fixed.isNone ∧ request.blank then .ok (⟨[], [], [], none⟩, caches)
  else
    match caches.pythoncache.get? (request.key bbhash) with
    | some line => .ok (line, caches)
    | none =>
        match caches.pythoncacheextras.get? (request.key bbhash) with
        | some line => .ok (line, caches)
        | none =>
            match request.node.filter (· ≠ []) with
            | none => .error .keyError
            | some text =>
                (freshLine around bbhash parse request text).map fun line =>
                  (line, { caches with
                    pythoncacheextras :=
                      caches.pythoncacheextras.set (request.key bbhash) line })

end Parser

end Nvbmc.CodeParser
