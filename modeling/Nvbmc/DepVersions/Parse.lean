import Mathlib.Data.Char
import Mathlib.Data.List.Sort
import Nvbmc.Library.Grouping
import Nvbmc.Library.Words

/-!
# Dependency strings

The readers `explode_deps` and `explode_dep_versions2` and the writer
`join_deps` of `DEPEND1 (optional version) DEPEND2 (optional version) ...`.
-/

namespace Nvbmc.DepVersions

open Library

/-- `collections.OrderedDict` of the constraints by the names.  A constraint
before all names stands under `None`. -/
abbrev Deps := Dict (Option Text) (List Text)

/-- One round of the loop of `explode_deps`: the list `r` and `flag`. -/
def explodeDepsStep (state : List Text × Bool) (i : Text) : List Text × Bool :=
  let flag := state.2 || i.head? = some '('
  (if flag then state.1 else state.1 ++ [i],
    flag && !decide (i.getLast? = some ')'))

/-- `explode_deps`. -/
def explodeDeps (s : Text) : List Text :=
  ((words s).foldl explodeDepsStep ([], false)).1

/-- The variables of the loop. -/
structure Scan where
  r : Deps
  lastdep : Option Text
  lastcmp : Text
  lastver : Text
  incmp : Bool
  inversion : Bool

def Scan.start : Scan :=
  ⟨[], none, [], [], false, false⟩

/-- The comparisons of two characters. -/
def longOperators : List Text :=
  ["<=".toList, "=<".toList, "<<".toList, "==".toList, "!=".toList, ">=".toList,
    "=>".toList, ">>".toList]

/-- The comparisons of one character. -/
def shortOperators : List Text :=
  ["<".toList, ">".toList, "=".toList]

/-- The comparison at the beginning, and the rest. -/
def splitOperator (i : Text) : Option (Text × Text) :=
  if i.take 2 ∈ longOperators then some (i.take 2, i.drop 2)
  else if i.take 1 ∈ shortOperators then some (i.take 1, i.drop 1)
  else none

namespace Scan

/-- The branch `if inversion`. -/
def readVersion (scan : Scan) (i : Text) : Scan :=
  let closed := i.getLast? = some ')'
  let i := if closed then i.dropLast else i
  let lastver :=
    if closed ∧ scan.lastver ≠ [] ∧ i ≠ [] then scan.lastver ++ [' ']
    else scan.lastver
  let inversion := if closed then false else scan.inversion
  if i = [] then { scan with inversion := inversion }
  else
    { scan with
      inversion := inversion
      lastver := lastver ++ i
      r := scan.r.push scan.lastdep (scan.lastcmp ++ ' ' :: (lastver ++ i)) }

def readName (scan : Scan) (i : Text) : Scan :=
  { scan with
    lastdep := some i
    lastver := []
    lastcmp := []
    r := if (scan.r.get? (some i)).getD [] = [] then scan.r.set (some i) []
         else scan.r }

/-- A round of the loop behind the first test. -/
def read (scan : Scan) (i : Text) : Option Scan :=
  if scan.incmp then do
    let split ← splitOperator i
    let scan := { scan with
        incmp := false, inversion := true, lastcmp := split.1 }
    pure (if split.2 = [] then scan else scan.readVersion split.2)
  else if scan.inversion then some (scan.readVersion i)
  else some (scan.readName i)

/-- One round of the loop.  Words have no blanks, so that nothing is stripped.
-/
def step (scan : Scan) (i : Text) : Option Scan :=
  if i.head? = some '(' then
    let scan := { scan with incmp := true }
    if i.tail = [] then some scan else scan.read i.tail
  else scan.read i

end Scan

/-- `sorted(r.items(), key=lambda x: x[0])`; `None` cannot be compared with a
name. -/
def sortItems (r : Deps) : Option Deps :=
  if none ∈ r.keys ∧ 1 < r.length then none
  else some (r.insertionSort fun first second => first.1.getD [] ≤
    second.1.getD [])

/-- `explode_dep_versions2`. -/
def explodeDepVersions2 (s : Text) (sort : Bool) : Option Deps := do
  let scan ← (words (s.filter (· ≠ ','))).foldlM Scan.step .start
  if sort then sortItems scan.r else pure scan.r

/-- The values that `join_deps` takes. -/
inductive Versions where
  | list (versions : List Text)
  /-- As `explode_dep_versions` gives them. -/
  | single (version : Option Text)

/-- `dep + " (" + v + ")"`. -/
def constrained (dep v : Text) : Text :=
  dep ++ " (".toList ++ v ++ [')']

/-- The entries of `result` for a name. -/
def depItems (dep : Text) : Versions → List Text
  | .list [] => [dep]
  | .list versions => versions.map (constrained dep)
  | .single none => [dep]
  | .single (some []) => [dep]
  | .single (some version) => [constrained dep version]

/-- `join_deps`; nothing can be joined to `None`. -/
def joinDeps (deps : List (Option Text × Versions)) (commasep : Bool) :
    Option Text := do
  let items ← deps.mapM fun entry => entry.1.map fun dep => depItems dep entry.2
  pure ((if commasep then ", ".toList else " ".toList).intercalate
    items.flatten)

/-- A result of `explode_dep_versions2` as `join_deps` takes it. -/
def listed (r : Deps) : List (Option Text × Versions) :=
  r.map fun entry => (entry.1, .list entry.2)

/-- The tests of the source. -/
example : explodeDepVersions2 "foo ( = 1.10 )".toList true =
    some [(some "foo".toList, ["= 1.10".toList])] := by decide

end Nvbmc.DepVersions
