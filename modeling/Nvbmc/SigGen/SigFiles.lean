import Nvbmc.Library.Replace
import Nvbmc.Library.Surplus
import Nvbmc.SigGen.TaskHash

/-!
# Comparing two dumps

All that `dump_sigtask` writes at run time, and `compare_sigfiles` over two such
dumps. A comparison without a result is one that raises.  How sets, lists and
the differences of two texts are shown is left open.
-/

namespace Nvbmc.SigGen

open Library

/-- What is written about a task that has its hash. -/
structure SigFile extends SigData where
  basehashIgnoreVars : Finset Text
  taskhashIgnoreTasks : Option Text
  gendeps : Dict Text (Finset Text)
  taskhash : Text
  unihash : Text

section Dump

variable (ignored : Finset Text) (ignoreTasks : Option Text) (gen : Generator)
  (tid : Tid)

/-- `data['gendeps']`. -/
def dumpGendeps (recipe : Recipe) (inputs : TaskInputs) :
    Dict Text (Finset Text) :=
  ((sortedNames inputs.deps).filter (· ∉ ignored)).foldl
    (fun gendeps dep => gendeps.set dep (recipe.gendeps ignored dep)) []

/-- `dump_sigtask` with all that it writes. -/
def Generator.dumpSigfile : Option SigFile := do
  let recipe ← gen.recipes tid.mcfn
  let inputs ← recipe.inputs ignored tid.task
  let data ← gen.dumpSigtask ignored tid
  let taskhash ← gen.taskhash tid
  let unihash ← gen.getUnihash tid
  some
    { toSigData := data
      basehashIgnoreVars := ignored
      taskhashIgnoreTasks := ignoreTasks
      gendeps := dumpGendeps ignored recipe inputs
      taskhash := taskhash
      unihash := unihash }

end Dump

/-- The key under which `SetEncoder` writes a set. -/
def setObject : Text :=
  "_set_object".toList

/-- A dictionary as it is read again: `SetDecoder` takes one with the key of a
set for a set, and a set has no keys. -/
def loadDict {α : Type} (written : Dict Text α) : Option (Dict Text α) :=
  if setObject ∈ written.keys then none else some written

/-- What Python and the modules for differences make of values. -/
structure Shown where
  set : Finset Text → Text
  list : List Text → Text
  /-- `simplediff.diff`. -/
  diff : List Text → List Text → List (Char × List Text)
  /-- The lines of `difflib.unified_diff` behind the first two. -/
  unifiedDiff : Text → Text → List Text

/-- `init_colors`. -/
structure Colors where
  title : Text
  default : Text
  add : Text
  remove : Text

/-- Something that is reported. -/
inductive Difference where
  | ignoreVars (old new : Finset Text)
  | changedItems (items : Finset Text)
  | ignoreTasks (old new : Option Text)
  | taskdeps (old new : Finset Text)
  | basehash (old new : Text)
  | gendeps (dep : Text) (old new : Finset Text)
  | gendepAdded (dep : Text)
  | gendepRemoved (dep : Text)
  | value (dep : Text) (old new : Option Text)
  | file (name : Text) (old new : Option Text)
  | fileAdded (name : Text)
  | fileRemoved (name : Text)
  | runtaskdeps (old new : List Text)
  | numberOfDeps
  | places (changed : List ((Text × Text) × Text × Text))
  | taskAdded (dep hash : Text)
  | taskRemoved (dep hash : Text)
  | taskHash (dep old new : Text)
  | taint (old new : Option Text)

/-- `' '.join`. -/
def joinWords (words : List Text) : Text :=
  [' '].intercalate words

/-- `str.split`. -/
def splitWords (text : Text) : List Text :=
  (text.splitOnP isspace).filter (· ≠ [])

/-- `'%s' %` a value that can be missing. -/
def showOption : Option Text → Text
  | none => "None".toList
  | some text => text

section Messages

variable (shown : Shown) (colors : Colors)

/-- `worddiff_str`. -/
def worddiffStr (old new : Text) : Text :=
  let pieces :=
    (shown.diff (old.splitOn ' ') (new.splitOn ' ')).map fun piece =>
    let value := joinWords piece.2
    if piece.1 = '=' then value
    else if piece.1 = '+' then
      colors.add ++ "\x7b+".toList ++ value ++ "+\x7d".toList ++ colors.default
    else colors.remove ++ "[-".toList ++ value ++ "-]".toList ++ colors.default
  let note :=
    if old ≠ new ∧ joinWords (splitWords old) = joinWords (splitWords new)
    then " (whitespace changed)".toList else []
  '"' :: joinWords pieces ++ '"' :: note

/-- `list_inline_diff`. -/
def listInlineDiff (old new : List Text) : Text :=
  let pieces := (shown.diff old new).map fun piece =>
    let value := joinWords piece.2
    if piece.1 = '=' then '\'' :: value ++ ['\'']
    else if piece.1 = '+' then colors.add ++ '+' :: value ++ colors.default
    else colors.remove ++ '-' :: value ++ colors.default
  '[' :: ", ".toList.intercalate pieces ++ [']']

def coloredLine (line : Text) : Text :=
  match line with
  | '+' :: _ => colors.add ++ line ++ colors.default
  | '-' :: _ => colors.remove ++ line ++ colors.default
  | _ => line

def valueMessage (dep : Text) (old new : Option Text) : Text :=
  let changed :=
    colors.title ++ "Variable ".toList ++ dep ++ " value changed".toList
  let from' := textOf old
  let to' := textOf new
  if to' ≠ [] ∧ from' ≠ [] ∧ ('\n' ∈ from' ∨ '\n' ∈ to') then
    changed ++ ':' :: colors.default ++ '\n' ::
      ['\n'].intercalate
        ((shown.unifiedDiff from' to').map (coloredLine colors)) ++
      colors.default
  else if to' ≠ [] ∧ from' ≠ [] ∧ (' ' ∈ from' ∨ ' ' ∈ to') then
    changed ++ ':' :: colors.default ++ '\n' :: worddiffStr shown colors from'
      to' ++ colors.default
  else
    changed ++ " from '".toList ++ colors.default ++ showOption old ++
      colors.title ++
      "' to '".toList ++ colors.default ++ showOption new ++ colors.title ++
        "'".toList ++
      colors.default

/-- `nostamp:` as it is shown. -/
def shownTaint : Option Text → Text
  | none => "None".toList
  | some taint =>
      if nostampMark <+: taint then
        replaceAll nostampMark "nostamp(uuid4):".toList taint
      else taint

def changedMessage (what middle old new : Text) : Text :=
  colors.title ++ what ++ " changed".toList ++ colors.default ++ middle ++
    old ++ " to ".toList ++ new ++ colors.default

/-- The message about a variable or a file. -/
def plainMessage (text : Text) : Text :=
  colors.title ++ text ++ colors.default

def Difference.message : Difference → Text
  | .ignoreVars old new =>
      colors.title ++ "basehash_ignore_vars changed".toList ++ colors.default ++
        " from '".toList ++ shown.set old ++ "' to '".toList ++ shown.set new ++
        "'".toList ++ colors.default
  | .changedItems items => "changed items: ".toList ++ shown.set items
  | .ignoreTasks old new =>
      colors.title ++ "taskhash_ignore_tasks changed".toList ++
        colors.default ++
        " from '".toList ++ showOption old ++ "' to '".toList ++
          showOption new ++
        "'".toList ++ colors.default
  | .taskdeps old new =>
      colors.title ++ "Task dependencies changed".toList ++ colors.default ++
        " from:\n".toList ++ shown.list (sortedNames old) ++ "\nto:\n".toList ++
        shown.list (sortedNames new) ++ colors.default
  | .basehash old new =>
      changedMessage colors "basehash".toList " from ".toList old new
  | .gendeps dep old new =>
      colors.title ++ "List of dependencies for variable ".toList ++ dep ++
        " changed from '".toList ++ colors.default ++ shown.set old ++
          colors.title ++
        "' to '".toList ++ colors.default ++ shown.set new ++ colors.title ++
        "'".toList ++ colors.default
  | .gendepAdded dep =>
      plainMessage colors ("Dependency on variable ".toList ++ dep ++
        " was added".toList)
  | .gendepRemoved dep =>
      plainMessage colors ("Dependency on Variable ".toList ++ dep ++
        " was removed".toList)
  | .value dep old new => valueMessage shown colors dep old new
  | .file name old new =>
      changedMessage colors ("Checksum for file ".toList ++ name)
        " from ".toList (showOption old) (showOption new)
  | .fileAdded name =>
      plainMessage colors
        ("Dependency on checksum of file ".toList ++ name ++
          " was added".toList)
  | .fileRemoved name =>
      plainMessage colors
        ("Dependency on checksum of file ".toList ++ name ++
          " was removed".toList)
  | .runtaskdeps old new =>
      colors.title ++ "runtaskdeps changed:".toList ++ colors.default ++
        if old ≠ new then
          '\n' :: listInlineDiff shown colors old new ++ colors.default
        else []
  | .numberOfDeps => "Number of task dependencies changed".toList
  | .places changed =>
      ['\n'].intercalate (changed.map fun place =>
        place.1.1 ++ " with hash ".toList ++ place.1.2 ++
          "\n changed to\n".toList ++
          place.2.1 ++ " with hash ".toList ++ place.2.2)
  | .taskAdded dep hash =>
      colors.title ++ "Dependency on task ".toList ++ dep ++
        " was added".toList ++
        colors.default ++ " with hash ".toList ++ hash ++ colors.default
  | .taskRemoved dep hash =>
      colors.title ++ "Dependency on task ".toList ++ dep ++
        " was removed".toList ++
        colors.default ++ " with hash ".toList ++ hash ++ colors.default
  | .taskHash dep old new =>
      changedMessage colors ("Hash for task dependency ".toList ++ dep)
        " from ".toList old new
  | .taint old new =>
      changedMessage colors "Taint (by forced/invalidated task)".toList
        " from ".toList (shownTaint old) (shownTaint new)

end Messages

section DictDiff

variable {α : Type} [DecidableEq α]

/-- `dict_diff`, each part in the order in which it is reported. -/
structure DictDiff where
  changed : List Text
  added : List Text
  removed : List Text

/-- `dict_diff`. -/
def dictDiff (a b : Dict Text α) (ignoredVars : Finset Text) : DictDiff :=
  let here := a.keys.toFinset
  let there := b.keys.toFinset
  { changed := sortedNames
      ((here ∩ there).filter fun name => a.get? name ≠ b.get? name ∧
        name ∉ ignoredVars)
    added := sortedNames (there \ here)
    removed := sortedNames (here \ there) }

end DictDiff

/-- The files whose checksum changed, and those that came or went. -/
structure FilesDiff where
  changed : List (Text × Option Text × Option Text)
  added : List Checksum
  removed : List Checksum

/-- The loop of `file_checksums_diff` over what is gone: each is paired with the
first of what came under the same name. -/
def pairFiles : List Checksum → List Checksum → FilesDiff
  | [], added => ⟨[], added, []⟩
  | gone :: rest, added =>
      match added.find? (·.1 = gone.1) with
      | some came =>
          let diff := pairFiles rest (added.erase came)
          { diff with changed := (gone.1, gone.2, came.2) :: diff.changed }
      | none =>
          let diff := pairFiles rest added
          { diff with removed := gone :: diff.removed }

/-- `file_checksums_diff`. -/
def fileChecksumsDiff (a b : List Checksum) : FilesDiff :=
  pairFiles (surplus (excess a b) a) (surplus (excess b a) b)

def reportGendeps (a b : Dict Text (Finset Text)) (ignoredVars : Finset Text) :
    List Difference :=
  let diff := dictDiff a b ignoredVars
  diff.changed.flatMap (fun dep =>
      let old := (a.get? dep).getD ∅
      let new := (b.get? dep).getD ∅
      .gendeps dep old new ::
        if old ≠ ∅ ∧ new ≠ ∅ then [.changedItems (symmDiff old new)] else []) ++
    diff.added.map .gendepAdded ++ diff.removed.map .gendepRemoved

def reportVarvals (a b : Dict Text (Option Text)) : List Difference :=
  (dictDiff a b ∅).changed.map fun dep =>
    .value dep ((a.get? dep).getD none) ((b.get? dep).getD none)

/-- The tasks that came or went, but for those with the hash of one that went or
came. -/
def reportTasks (a b : Dict Text Text) : List Difference :=
  let diff := dictDiff a b ∅
  let added := diff.added.filter fun dep =>
    ∀ other ∈ diff.removed, b.get? dep ≠ a.get? other
  let removed := diff.removed.filter fun dep =>
    ∀ other ∈ diff.added, b.get? other ≠ a.get? dep
  added.map (fun dep => .taskAdded dep ((b.get? dep).getD [])) ++
    removed.map (fun dep => .taskRemoved dep ((a.get? dep).getD []))

def reportFiles (diff : FilesDiff) : List Difference :=
  diff.changed.map (fun file => .file file.1 file.2.1 file.2.2) ++
    diff.added.map (fun file => .fileAdded file.1) ++
    diff.removed.map (fun file => .fileRemoved file.1)

section Compare

variable (a b : SigFile)

def compareIgnoreVars : List Difference :=
  if a.basehashIgnoreVars ≠ b.basehashIgnoreVars then
    .ignoreVars a.basehashIgnoreVars b.basehashIgnoreVars ::
      if a.basehashIgnoreVars ≠ ∅ ∧ b.basehashIgnoreVars ≠ ∅ then
        [.changedItems (symmDiff a.basehashIgnoreVars b.basehashIgnoreVars)]
      else []
  else []

/-- The value is a text, and a text has no `symmetric_difference`. -/
def compareIgnoreTasks : Option (List Difference) :=
  if a.taskhashIgnoreTasks ≠ b.taskhashIgnoreTasks then
    if textOf a.taskhashIgnoreTasks ≠ [] ∧
      textOf b.taskhashIgnoreTasks ≠ [] then none
    else some [.ignoreTasks a.taskhashIgnoreTasks b.taskhashIgnoreTasks]
  else some []

def compareTaskdeps : List Difference :=
  if a.taskdeps ≠ b.taskdeps then [.taskdeps a.taskdeps b.taskdeps] else []

def compareBasehash (collapsed : Bool) : List Difference :=
  if a.basehash ≠ b.basehash ∧ ¬ collapsed then
    [.basehash a.basehash b.basehash]
  else []

def compareGendeps : Option (List Difference) := do
  let here ← loadDict a.gendeps
  let there ← loadDict b.gendeps
  some (reportGendeps here there (a.basehashIgnoreVars ∩ b.basehashIgnoreVars))

def compareVarvals : Option (List Difference) := do
  let here ← loadDict a.varvals
  let there ← loadDict b.varvals
  some (reportVarvals here there)

def compareFiles : List Difference :=
  reportFiles (fileChecksumsDiff a.fileChecksumValues b.fileChecksumValues)

/-- The hashes of the dependencies, in their order. -/
def SigData.placedHashes (data : SigData) :
    List Text → Option (List (Text × Text))
  | [] => some []
  | dep :: deps => do
      let hash ← data.runtaskhashes.get? dep
      let rest ← placedHashes data deps
      some ((dep, hash) :: rest)

def compareRuntaskdeps (collapsed : Bool) : Option (List Difference) :=
  if collapsed then some []
  else if a.runtaskdeps.length ≠ b.runtaskdeps.length then
    some [.runtaskdeps a.runtaskdeps b.runtaskdeps, .numberOfDeps]
  else do
    let here ← a.placedHashes a.runtaskdeps
    let there ← b.placedHashes b.runtaskdeps
    let changed := (here.zip there).filter fun place => place.1.2 ≠ place.2.2
    some (if changed = [] then []
      else [.runtaskdeps a.runtaskdeps b.runtaskdeps, .places changed])

def compareTasks : Option (List Difference) := do
  let here ← loadDict a.runtaskhashes
  let there ← loadDict b.runtaskhashes
  some (reportTasks here there)

def compareTaint : List Difference :=
  if a.taint ≠ b.taint then [.taint a.taint b.taint] else []

end Compare

section Whole

variable (shown : Shown) (colors : Colors)

/-- The loop over the dependencies whose hash changed.  What the recursive
comparison says takes the place of all that was said before, and ends the loop.
-/
def hashChanges (a b : Dict Text Text) (collapsed : Bool)
    (recursecb : Option (Text → Text → Text → List Text)) :
    List Text → List Text → List Text
  | [], output => output
  | dep :: deps, output =>
      let old := (a.get? dep).getD []
      let new := (b.get? dep).getD []
      let message := Difference.message shown colors (.taskHash dep old new)
      let output := if collapsed then output else output ++ [message]
      match recursecb with
      | none => hashChanges a b collapsed recursecb deps output
      | some recurse =>
          let recout := recurse dep old new
          if recout = [] then hashChanges a b collapsed recursecb deps output
          else if collapsed then
            hashChanges a b collapsed recursecb deps (output ++ recout)
          else message :: recout

/-- `compare_sigfiles`, behind the opening of the files. -/
def compareSigfiles (a b : SigFile)
    (recursecb : Option (Text → Text → Text → List Text))
    (collapsed : Bool) : Option (List Text) := do
  let ignoreTasks ← compareIgnoreTasks a b
  let gendeps ← compareGendeps a b
  let varvals ← compareVarvals a b
  let runtaskdeps ← compareRuntaskdeps a b collapsed
  let tasks ← compareTasks a b
  let before := compareIgnoreVars a b ++ ignoreTasks ++ compareTaskdeps a b ++
    compareBasehash a b collapsed ++ gendeps ++ varvals ++ compareFiles a b ++
    runtaskdeps ++ tasks
  let changed := (dictDiff a.runtaskhashes b.runtaskhashes ∅).changed
  some (hashChanges shown colors a.runtaskhashes b.runtaskhashes collapsed
    recursecb changed (before.map (Difference.message shown colors)) ++
    (compareTaint a b).map (Difference.message shown colors))

end Whole

end Nvbmc.SigGen
